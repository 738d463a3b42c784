/-
  File paths as texts.  A path may use both kinds of slashes; `normalize` writes it with forward slashes and without
  leading `./`.  The name of a file is what follows the last slash, its stem the name up to the last dot.
-/
import CodeAtlas.Text.Split

namespace CodeAtlas.Path

/-- A forward or a backward slash. -/
def isSlash (c : Char) : Bool :=
  c == '/' || c == '\\'

/-- The part of a path after its last slash of either kind. -/
def fileName (path : String) : String :=
  .ofList (path.toList.reverse.takeWhile fun c => !isSlash c).reverse

/-- The file name up to its last dot; a name whose only dot is its first character has no extension to remove. -/
def fileStem (path : String) : String :=
  let name := fileName path
  match Text.cutLast? "." name with
  | some (stem, _) => if stem.isEmpty then name else stem
  | none => name

/-- The path with forward slashes only. -/
def forwardSlashes (path : String) : String :=
  .ofList (path.toList.map fun c => if c == '\\' then '/' else c)

/-- The path with forward slashes and without the `./` in front of it. -/
def normalize (path : String) : String :=
  Text.dropStart (forwardSlashes path) "./"

/-- The directory of a path with forward slashes: what stands before the last one. -/
def parent (path : String) : String :=
  match Text.cutLast? "/" path with
  | some (dir, _) => dir
  | none => ""

/-- The segments between forward slashes that are not empty. -/
def segments (path : String) : List String :=
  (Text.splitChar '/' path).filter fun s => !s.isEmpty

/-- The last segment that names something: trailing slashes and `.` segments are passed over, and `..` is no name. -/
def lastComponent? (path : String) : Option String :=
  match ((Text.splitChar '/' path).reverse.dropWhile fun s => s.isEmpty || s == ".").head? with
  | some ".." => none
  | other => other

/-- The part of the last component after its last dot, unless that dot is its first character. -/
def extension? (path : String) : Option String := do
  let name ← lastComponent? path
  let (stem, extension) ← Text.cutLast? "." name
  if stem.isEmpty then none else some extension

/-- The extension for messages. -/
def extensionLabel (path : String) : String :=
  (extension? path).getD "<none>"

end CodeAtlas.Path
