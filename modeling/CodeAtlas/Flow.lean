/-
  Flows: the files that are used from an entry point on, in the order in which a depth-first search meets them.

  The search follows internal dependencies that are neither type imports nor uses of configuration, up to a depth;
  neighbours are taken by the line of the dependency and then by path.
-/
import CodeAtlas.Dependency.Basic
import CodeAtlas.Digest.StableId
import CodeAtlas.Profile.Basic

namespace CodeAtlas

/-- One file of a flow. -/
structure FlowStep where
  /-- The position of the file in the flow, counted from 1. -/
  order : Nat
  file : String
  action : String
  dependencies : List String
  behavior : Behavior
  deriving DecidableEq, Repr

/-- What a flow is about. -/
structure FlowClass where
  isCritical : Bool
  category : String
  deriving DecidableEq, Repr

/-- The files used from an entry point on. -/
structure Flow where
  id : String
  name : String
  entryPoint : String
  files : List String
  steps : List FlowStep
  classification : FlowClass
  deriving DecidableEq, Repr

namespace Flow

/-- The categories and the words that show them; the first that fits counts. -/
def categories : List (String × List String) :=
  [ ("authentication", ["auth", "login", "logout", "signin", "signup", "register", "session", "password"]),
    ("payment", ["payment", "checkout", "billing", "cart", "invoice", "order"]),
    ("user-management", ["user", "profile", "account", "settings"]),
    ("search", ["search", "filter", "query"]),
    ("navigation", ["router", "route", "navigation", "menu"]),
    ("data-management", ["crud", "repository", "store", "model", "database"]) ]

/-- What a flow through some files is about. -/
def classify (files : List String) : FlowClass :=
  let whole := (Text.lower (Text.join " " files)).toList
  let category := (firstKey? categories fun word => Text.occurs word.toList whole).getD "general"
  ⟨["authentication", "payment"].contains category, category⟩

/-- What a file does in a flow: what its content shows most plainly, or else what it is for. -/
def actionOf (p : FileProfile) : String :=
  if p.behavior.hasUserInteraction then "user-interaction"
  else if p.behavior.hasApiCall then "api-call"
  else if p.behavior.hasStateChange then "state-change"
  else match p.fileType with
    | .component | .page => "render"
    | .hook => "state-change"
    | .service => "service-call"
    | .model => "data-access"
    | .utility => "utility"
    | .config => "configure"
    | _ => "process"

/-- Whether flows follow a dependency. -/
def isRelevant (d : Dependency) : Bool :=
  !d.external && match d.relationship with
    | .typeImport | .configUsage | .externalImport => false
    | _ => true

/-- The order of neighbours: by line, then by path. -/
def before (a b : Nat × String) : Bool :=
  a.1 < b.1 || (a.1 == b.1 && decide (a.2 ≤ b.2))

/-- The files that flows go to from a file, each once. -/
def neighbours (dependencies : List Dependency) (file : String) : List String :=
  let targets := (dependencies.filter fun d => isRelevant d && d.source == file).map fun d => (d.line, d.target)
  firstOccurrences ((targets.mergeSort before).map (·.2))

/-- The files met so far when the search goes on from a file at a depth. A file met before, or beyond the greatest
depth, adds nothing. -/
def visit (next : String → List String) (maxDepth : Nat) :
    (fuel depth : Nat) → (file : String) → (met : List String) → List String
  | 0, _, _, met => met
  | fuel + 1, depth, file, met =>
    if maxDepth < depth || met.contains file then met
    else (next file).foldl (fun met f => visit next maxDepth fuel (depth + 1) f met) (met ++ [file])

/-- The files of the flow from an entry point. Every call inside another one has met one file more, so the number of
dependencies bounds their nesting. -/
def reachedFiles (dependencies : List Dependency) (maxDepth : Nat) (entry : String) : List String :=
  visit (neighbours dependencies) maxDepth (dependencies.length + 2) 0 entry []

/-- The steps of a flow: the files of which there is a profile, with their places. -/
def stepsFrom (profiles : List FileProfile) (dependencies : List Dependency) : (order : Nat) → List String →
    List FlowStep
  | _, [] => []
  | order, file :: rest =>
    let step := (FileProfile.ofPath? profiles file).map fun p =>
      { order, file, action := actionOf p, dependencies := neighbours dependencies file, behavior := p.behavior }
    step.toList ++ stepsFrom profiles dependencies (order + 1) rest

/-- The flow from an entry point, unless it has too few files. -/
def startingAt? (profiles : List FileProfile) (dependencies : List Dependency) (config : AnalysisConfig)
    (entry : FileProfile) : Option Flow :=
  let files := reachedFiles dependencies config.maxFlowDepth entry.path
  if files.length < config.minFlowFiles then none
  else some
    { id := stableId ["flow", entry.path]
      name := Path.fileStem entry.path ++ " flow"
      entryPoint := entry.path
      files
      steps := stepsFrom profiles dependencies 1 files
      classification := classify files }

/-- The flows from all entry points. -/
def trace (profiles : List FileProfile) (dependencies : List Dependency) (config : AnalysisConfig) : List Flow :=
  (profiles.filter (·.isEntryPoint)).filterMap (startingAt? profiles dependencies config)

end Flow

end CodeAtlas
