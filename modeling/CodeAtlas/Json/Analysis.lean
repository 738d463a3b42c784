/-
  The JSON form of the analysis of a project.
-/
import CodeAtlas.Analysis
import CodeAtlas.Json.Graph

namespace CodeAtlas

/-- The flags that an object holds. -/
def Behavior.ofJson? (j : Json) : Option Behavior := do
  let j ← j.record? ["isAsync", "hasStateChange", "hasApiCall", "hasUserInteraction"] 4
  some
    { isAsync := ← j.get? "isAsync" Json.truth?
      hasStateChange := ← j.get? "hasStateChange" Json.truth?
      hasApiCall := ← j.get? "hasApiCall" Json.truth?
      hasUserInteraction := ← j.get? "hasUserInteraction" Json.truth? }

/-- The fields of the flags. -/
def Behavior.jsonFields (b : Behavior) : List (String × Json) :=
  [ ("isAsync", .bool b.isAsync), ("hasStateChange", .bool b.hasStateChange), ("hasApiCall", .bool b.hasApiCall),
    ("hasUserInteraction", .bool b.hasUserInteraction) ]

/-- The object of the flags. -/
def Behavior.toJson (b : Behavior) : Json :=
  .obj b.jsonFields

/-- The profile that an object describes. -/
def FileProfile.ofJson? (j : Json) : Option FileProfile := do
  let j ← j.record?
    ["path", "fileType", "layer", "language", "lines", "complexity", "isEntryPoint", "hasTest", "behavior"] 9
  some
    { path := ← j.get? "path" Json.text?
      fileType := ← j.get? "fileType" (Json.named? FileType.ofName?)
      layer := ← j.get? "layer" (Json.named? Layer.ofName?)
      language := ← j.getOpt? "language" (Json.named? Language.ofName?)
      lines := ← j.get? "lines" Json.nat?
      complexity := ← j.get? "complexity" Json.nat?
      isEntryPoint := ← j.get? "isEntryPoint" Json.truth?
      hasTest := ← j.get? "hasTest" Json.truth?
      behavior := ← j.get? "behavior" Behavior.ofJson? }

/-- The object of a profile. -/
def FileProfile.toJson (p : FileProfile) : Json :=
  .obj
    [ ("path", .str p.path), ("fileType", .str p.fileType.name), ("layer", .str p.layer.name),
      ("language", .language p.language), ("lines", .nat p.lines), ("complexity", .nat p.complexity),
      ("isEntryPoint", .bool p.isEntryPoint), ("hasTest", .bool p.hasTest), ("behavior", p.behavior.toJson) ]

/-- The dependency that an object describes. -/
def Dependency.ofJson? (j : Json) : Option Dependency := do
  let j ← j.record?
    ["from", "to", "relationship", "strength", "score", "usageCount", "line", "importedNames", "isConditional",
      "isCircular", "external"] 11
  some
    { source := ← j.get? "from" Json.text?
      target := ← j.get? "to" Json.text?
      relationship := ← j.get? "relationship" (Json.named? Relationship.ofName?)
      strength := ← j.get? "strength" (Json.named? Strength.ofName?)
      score := ← (← j.get? "score" Json.double?).value?
      usageCount := ← j.get? "usageCount" Json.nat?
      line := ← j.get? "line" Json.nat?
      names := ← j.get? "importedNames" (Json.list? Json.text?)
      isConditional := ← j.get? "isConditional" Json.truth?
      isCircular := ← j.get? "isCircular" Json.truth?
      external := ← j.get? "external" Json.truth? }

/-- The object of a dependency. -/
def Dependency.toJson (d : Dependency) : Json :=
  .obj
    [ ("from", .str d.source), ("to", .str d.target), ("relationship", .str d.relationship.name),
      ("strength", .str d.strength.name), ("score", .decimal d.score), ("usageCount", .nat d.usageCount),
      ("line", .nat d.line), ("importedNames", .texts d.names), ("isConditional", .bool d.isConditional),
      ("isCircular", .bool d.isCircular), ("external", .bool d.external) ]

/-- The object of a step of a flow. -/
def FlowStep.toJson (s : FlowStep) : Json :=
  .obj
    ([ ("order", .nat s.order), ("file", .str s.file), ("action", .str s.action),
      ("dependencies", .texts s.dependencies) ] ++ s.behavior.jsonFields)

/-- The object of what a flow is about. -/
def FlowClass.toJson (c : FlowClass) : Json :=
  .obj [("isCritical", .bool c.isCritical), ("category", .str c.category)]

/-- The object of a flow. -/
def Flow.toJson (f : Flow) : Json :=
  .obj
    [ ("id", .str f.id), ("name", .str f.name), ("entryPoint", .str f.entryPoint), ("files", .texts f.files),
      ("steps", .arr (f.steps.map FlowStep.toJson)), ("classification", f.classification.toJson) ]

/-- The object of a layer. -/
def LayerSummary.toJson (s : LayerSummary) : Json :=
  .obj
    [ ("layer", .str s.layer.name), ("files", .texts s.files), ("count", .nat s.count),
      ("avgComplexity", .decimal s.averageComplexity), ("testCoverage", .decimal s.testCoverage) ]

/-- The object of a violation. -/
def LayerViolation.toJson (v : LayerViolation) : Json :=
  .obj
    [ ("from", .str v.source), ("to", .str v.target), ("fromLayer", .str v.sourceLayer.name),
      ("toLayer", .str v.targetLayer.name) ]

/-- The object of an architecture. -/
def Architecture.toJson (a : Architecture) : Json :=
  .obj
    [ ("layers", .arr (a.layers.map LayerSummary.toJson)),
      ("violations", .arr (a.violations.map LayerViolation.toJson)) ]

/-- The object of a row of the table of coupling. -/
def Coupling.toJson (c : Coupling) : Json :=
  .obj [("file", .str c.file), ("fanIn", .nat c.fanIn), ("fanOut", .nat c.fanOut)]

/-- The object of the quality of a project. -/
def Quality.toJson (q : Quality) : Json :=
  .obj
    [ ("circularDependencies", .arr (q.cycles.map .texts)), ("unusedFiles", .texts q.unusedFiles),
      ("highlyCoupled", .arr (q.highlyCoupled.map Coupling.toJson)), ("layerViolations", .nat q.layerViolations),
      ("maintainabilityIndex", .decimal q.maintainability) ]

/-- The fields of the size of a project. -/
def Performance.jsonFields (p : Performance) : List (String × Json) :=
  [ ("fileCount", .nat p.fileCount), ("totalLines", .nat p.totalLines),
    ("internalDependencies", .nat p.internalDependencies), ("externalDependencies", .nat p.externalDependencies),
    ("unresolvedImports", .nat p.unresolvedImports), ("avgFanOut", .decimal p.averageFanOut),
    ("largeFiles", .texts p.largeFiles), ("hotspots", .arr (p.hotspots.map Coupling.toJson)) ]

/-- The object of an analysis. -/
def Analysis.toJson (a : Analysis) : Json :=
  .obj
    [ ("files", .arr (a.files.map FileProfile.toJson)), ("dependencies", .arr (a.dependencies.map Dependency.toJson)),
      ("architecture", a.architecture.toJson), ("userFlows", .arr (a.flows.map Flow.toJson)),
      ("performance", .obj a.performance.jsonFields), ("quality", a.quality.toJson),
      ("errors", .arr (a.errors.map FileError.toJson)) ]

end CodeAtlas
