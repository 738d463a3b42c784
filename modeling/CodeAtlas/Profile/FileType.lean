/-
  The role of a file, read off its path and content.  A file name that follows a naming convention decides first, then
  the directories on the path, then keywords of the content; each table is consulted in order and the first hit wins.
-/
import CodeAtlas.Path

namespace CodeAtlas

/-- What a file is for. -/
inductive FileType where
  | component
  | service
  | model
  | utility
  | config
  | test
  | page
  | hook
  | file
  deriving DecidableEq, Repr, Inhabited

namespace FileType

/-- Every role. -/
def all : List FileType :=
  [.component, .service, .model, .utility, .config, .test, .page, .hook, .file]

/-- The tag of a role. -/
def name : FileType → String
  | .component => "component"
  | .service => "service"
  | .model => "model"
  | .utility => "utility"
  | .config => "config"
  | .test => "test"
  | .page => "page"
  | .hook => "hook"
  | .file => "file"

/-- The role with a given tag. -/
def ofName? (s : String) : Option FileType :=
  all.find? fun t => t.name == s

/-- Directory names that decide the role. -/
def directories : List (FileType × List String) :=
  [ (.test, ["test", "tests", "__tests__", "spec", "specs", "__mocks__"]),
    (.config, ["config", "configs", "configuration", "settings"]),
    (.hook, ["hooks"]),
    (.page, ["pages", "views", "screens", "routes"]),
    (.component, ["components", "component", "widgets", "ui", "layouts"]),
    (.service, ["services", "service", "api", "clients", "controllers", "handlers"]),
    (.model, ["models", "model", "entities", "schemas", "types", "domain"]),
    (.utility, ["utils", "util", "helpers", "lib", "common", "shared"]) ]

/-- Parts of the content that decide the role where no directory does. -/
def keywords : List (FileType × List String) :=
  [ (.test, ["describe(", "it('", "it(\"", "#[test]", "@Test", "def test_", "assert_eq!"]),
    (.hook, ["export function use", "export const use"]),
    (.component, ["React.Component", "useState(", "return (", "render()", "</"]),
    (.service, ["fetch(", "axios", "HttpClient", "requests.", "@Service"]),
    (.model, ["@Entity", "Schema(", "models.Model", "interface ", "#[derive("]),
    (.config, ["module.exports = \x7b", "process.env", "os.environ"]) ]

end FileType

namespace Path

/-- The directories on a path, in lower case. -/
def directories (path : String) : List String :=
  (Text.splitChar '/' (Text.lower (forwardSlashes path))).dropLast

/-- Names that mark a test: `.test.` or `.spec.` inside, `test_` in front, a stem ending in `_test`, and in Java a stem
ending in `test`; letter case does not count. -/
def isTestName (path : String) : Bool :=
  let name := Text.lower (fileName path)
  Text.contains name ".test." || Text.contains name ".spec." || Text.startsWith name "test_"
    || Text.endsWith (fileStem name) "_test" || (Text.endsWith (fileStem name) "test" && Text.endsWith name ".java")

/-- Names that mark a configuration file; letter case does not count. -/
def isConfigName (path : String) : Bool :=
  let name := Text.lower (fileName path)
  Text.contains name ".config." || Text.startsWith name ".env"
    || ["config", "settings", "constants"].contains (fileStem name)

/-- Names such as `useSession`: the stem is `use` followed by a capital letter. -/
def isHookName (path : String) : Bool :=
  match (fileStem path).toList with
  | 'u' :: 's' :: 'e' :: c :: _ => c.isUpper
  | _ => false

end Path

/-- The first entry of a table of which some key satisfies `hit`. -/
def firstKey? {α : Type} (table : List (α × List String)) (hit : String → Bool) : Option α :=
  (table.find? fun entry => entry.2.any hit).map (·.1)

/-- The role of a file. -/
def FileType.classify (path content : String) : FileType :=
  if Path.isTestName path then .test
  else if Path.isConfigName path then .config
  else if Path.isHookName path then .hook
  else
    let dirs := Path.directories path
    match firstKey? FileType.directories fun d => dirs.contains d with
    | some t => t
    | none =>
      let chars := content.toList
      (firstKey? FileType.keywords fun k => Text.occurs k.toList chars).getD .file

end CodeAtlas
