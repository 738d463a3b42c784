/-
  The architectural layer of a file.  The directory nearest to the file that names a layer decides; keywords of the
  content decide where no directory does.
-/
import CodeAtlas.Profile.FileType

namespace CodeAtlas

/-- An architectural layer. -/
inductive Layer where
  | presentation
  | business
  | data
  | infrastructure
  | unknown
  deriving DecidableEq, Repr, Inhabited

namespace Layer

/-- The layers from top to bottom, and the files without one last. -/
def all : List Layer :=
  [.presentation, .business, .data, .infrastructure, .unknown]

/-- The tag of a layer. -/
def name : Layer → String
  | .presentation => "presentation"
  | .business => "business"
  | .data => "data"
  | .infrastructure => "infrastructure"
  | .unknown => "unknown"

/-- The layer with a given tag. -/
def ofName? (s : String) : Option Layer :=
  all.find? fun l => l.name == s

/-- How deep a layer lies, the top one at 0. -/
def depth? : Layer → Option Nat
  | .presentation => some 0
  | .business => some 1
  | .data => some 2
  | .infrastructure => some 3
  | .unknown => none

/-- Directory names of each layer. -/
def directories : List (Layer × List String) :=
  [ (.presentation, ["components", "pages", "views", "screens", "ui", "hooks", "layouts", "widgets", "routes"]),
    (.business, ["services", "service", "controllers", "handlers", "domain", "usecases", "logic", "features"]),
    (.data, ["models", "model", "repositories", "repository", "db", "database", "entities", "schemas", "store",
      "stores", "dao"]),
    (.infrastructure, ["config", "utils", "util", "lib", "infra", "infrastructure", "adapters", "middleware",
      "helpers", "shared", "api"]) ]

/-- Parts of the content that show a layer. -/
def keywords : List (Layer × List String) :=
  [ (.presentation, ["useState(", "render(", "</", "onClick", "document."]),
    (.data, ["SELECT ", "INSERT ", "query(", "findOne(", "@Entity", "Repository"]),
    (.business, ["Service", "validate", "calculate", "process"]),
    (.infrastructure, ["process.env", "logger", "axios.create", "new Pool("]) ]

/-- The layer that a directory name stands for. -/
def ofDirectory? (dir : String) : Option Layer :=
  firstKey? directories fun d => d == dir

/-- The layer of a file. -/
def classify (path content : String) : Layer :=
  match (Path.directories path).reverse.findSome? ofDirectory? with
  | some l => l
  | none =>
    let chars := content.toList
    (firstKey? keywords fun k => Text.occurs k.toList chars).getD .unknown

end Layer

end CodeAtlas
