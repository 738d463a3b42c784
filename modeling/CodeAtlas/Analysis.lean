/-
  The analysis of a project: the profiles of its files, the dependencies between them, and what follows from those.
-/
import CodeAtlas.Flow
import CodeAtlas.Quality
import CodeAtlas.Resolve.Basic

namespace CodeAtlas

/-- The result of an analysis. -/
structure Analysis where
  files : List FileProfile
  dependencies : List Dependency
  architecture : Architecture
  flows : List Flow
  performance : Performance
  quality : Quality
  errors : List FileError

namespace Analysis

/-- The dependency that an import makes, none when it is unresolved. -/
def dependency? (index : FileIndex) (profiles : List FileProfile) (e : Extraction) (i : Import) :
    Option Dependency :=
  let typeOf (path : String) : Option FileType := (FileProfile.ofPath? profiles path).map (·.fileType)
  let make (target : String) (external : Bool) : Dependency :=
    let usageCount := Usage.count e.content i
    let score := Dependency.scoreOf usageCount i.kind i.isConditional (Dependency.isCriticalPath target)
    { source := e.path, target
      relationship := Dependency.relationshipOf i.kind ((typeOf e.path).getD .file)
        (if external then none else typeOf target) external
      strength := .ofScore score, score, usageCount, line := i.line, names := i.names
      isConditional := i.isConditional, isCircular := false, external }
  match index.resolve e.path e.language i.specifier with
  | .internal path => some (make path false)
  | .external package => some (make package true)
  | .unresolved => none

/-- The dependencies of all imports in order, and how many imports are unresolved. -/
def resolveImports (extractions : List Extraction) (profiles : List FileProfile) : List Dependency × Nat :=
  let index := FileIndex.ofPaths (extractions.map (·.path))
  let found := extractions.flatMap fun e => e.symbols.imports.map (dependency? index profiles e)
  (found.filterMap id, (found.filter (·.isNone)).length)

/-- The edges of the internal dependencies. -/
def arcs (dependencies : List Dependency) : List Cycle.Arc :=
  (dependencies.filter fun d => !d.external).map fun d => (d.source, d.target)

/-- The dependencies with those inside a cycle marked. -/
def markCircular (report : Cycle.Report) (dependencies : List Dependency) : List Dependency :=
  dependencies.map fun d => if d.external then d else { d with isCircular := report.isCircular d.source d.target }

/-- The analysis of extracted files. -/
def ofExtractions (config : AnalysisConfig) (extractions : List Extraction) : Analysis :=
  let profiles := FileProfile.markTested (extractions.map FileProfile.of)
  let (resolved, unresolved) := resolveImports extractions profiles
  let cycles := Cycle.detect (arcs resolved)
  let dependencies := markCircular cycles resolved
  let architecture := Architecture.of profiles dependencies
  { files := profiles
    dependencies
    architecture
    flows := Flow.trace profiles dependencies config
    quality := Quality.of profiles dependencies cycles.cycles architecture.violations.length config
    performance := Performance.of profiles dependencies unresolved config
    errors := [] }

/-- The extractions of files one after the other and the failures of those that could not be extracted. -/
def extractAll (x : Extractor) (disk : Disk) (now : Nat) (project : String) :
    List SourceFile → List Extraction × List FileError × Extractor
  | [] => ([], [], x)
  | file :: rest =>
    match x.extract disk now file project none with
    | (.ok e, x) =>
      let (extractions, errors, x) := extractAll x disk now project rest
      (e :: extractions, errors, x)
    | (.error failure, x) =>
      let (extractions, errors, x) := extractAll x disk now project rest
      (extractions, .atPath file.path failure :: errors, x)

/-- The analysis of files; those that cannot be extracted are recorded and left out. -/
def ofFiles (config : Config) (disk : Disk) (files : List SourceFile) : Analysis :=
  let (extractions, errors, _) := extractAll (.ofConfig config) disk 0 config.projectId files
  { ofExtractions config.analysis extractions with errors }

/-- The files that some test file is about. -/
def testedFiles (a : Analysis) : List String :=
  (a.files.filter (·.hasTest)).map (·.path)

end Analysis

end CodeAtlas
