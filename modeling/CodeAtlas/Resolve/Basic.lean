/-
  Resolving imports to files.  A module is looked up by the rules of the importing file's language: by relative path with
  the extensions of ECMAScript tried in order, by dotted module names, by Rust module paths, or by inclusion path.  What
  is no file of the project is a package outside of it, or unresolved.
-/
import CodeAtlas.Resolve.Index
import CodeAtlas.Symbol.Basic

namespace CodeAtlas

/-- Where an import leads. -/
inductive Resolution where
  /-- A file of the project. -/
  | internal (path : String)
  /-- A package outside the project. -/
  | external (package : String)
  /-- Nowhere. -/
  | unresolved
  deriving DecidableEq, Repr

namespace Resolution

/-- The file that was found, if any. -/
def ofFile? : Option String → Resolution
  | some path => .internal path
  | none => .unresolved

end Resolution

namespace Resolve

/-- The extensions of ECMAScript files in the order in which they are tried. -/
def ecmaExtensions : List String :=
  [".js", ".jsx", ".ts", ".tsx", ".mjs", ".cjs", ".mts", ".cts"]

/-- The files that a path may mean: itself, itself with an extension, the index file of the directory. -/
def ecmaCandidates (base : String) : List String :=
  let dir := Text.dropEnd base "/"
  base :: ecmaExtensions.map (base ++ ·) ++ ecmaExtensions.map (dir ++ "/index" ++ ·)

/-- The first file that a path may mean. -/
def probe? (index : FileIndex) (base : String) : Option String :=
  (ecmaCandidates base).find? index.contains

/-- Whether a specifier is written relative to the importing file. -/
def isRelative (specifier : String) : Bool :=
  Text.startsWith specifier "./" || Text.startsWith specifier "../" || specifier == "."

/-- Where an ECMAScript import leads: relative to the importer, to the root, to the source directory by alias, or to a
package. -/
def ecmaScript (index : FileIndex) (importer specifier : String) : Resolution :=
  if isRelative specifier then .ofFile? (probe? index (joinRelative (Path.parent importer) specifier))
  else match Text.stripStart? specifier "/" with
    | some rest => .ofFile? (probe? index rest)
    | none =>
      match (Text.stripStart? specifier "@/").or (Text.stripStart? specifier "~/") with
      | some rest => .ofFile? ((probe? index ("src/" ++ rest)).or (probe? index rest))
      | none => .external (packageName specifier)

/-- The directory that a number of leading dots means: the importer's own, and one further up for each dot after the
first. -/
def packageDir (importer : String) (level : Nat) : String :=
  Nat.repeat Path.parent level importer

/-- Where a Python import leads. -/
def python (index : FileIndex) (importer specifier : String) : Resolution :=
  let level := (specifier.toList.takeWhile (· == '.')).length
  if level = 0 then
    match index.dotted? .python specifier with
    | some path => .internal path
    | none => .external (firstDotted specifier)
  else
    let rest := String.ofList ((specifier.toList.drop level).map fun c => if c == '.' then '/' else c)
    let base := joinDir (packageDir importer level) rest
    .ofFile? ([base ++ ".py", base ++ "/__init__.py"].find? index.contains)

/-- The module of which a number of `super` segments lead out; none above the root. -/
def ascend (module : String) : List String → Option (String × List String)
  | "super" :: rest => (Text.cutLast? "::" module).bind fun (outer, _) => ascend outer rest
  | rest => some (module, rest)

/-- The file of the longest prefix of a module path that is a module. -/
def longestModule? (index : FileIndex) (segments : List String) : Option String :=
  let lengths := (List.range segments.length).reverse.map (· + 1)
  lengths.findSome? fun n => index.rustModule? (Text.join "::" (segments.take n))

/-- Where a Rust import leads. -/
def rust (index : FileIndex) (importer specifier : String) : Resolution :=
  let segments := (Text.splitText "::" specifier).filter fun s => !s.isEmpty
  match segments with
  | [] => .unresolved
  | first :: rest =>
    let current := rustModulePath importer
    match first with
    | "crate" => .ofFile? (longestModule? index segments)
    | "self" => .ofFile? (longestModule? index (current :: rest))
    | "super" =>
      match ascend current segments with
      | some (module, rest) => .ofFile? (longestModule? index (module :: rest))
      | none => .unresolved
    | "std" | "core" | "alloc" => .external first
    | _ =>
      if (index.rustModule? ("crate::" ++ first)).isSome then .ofFile? (longestModule? index ("crate" :: segments))
      else .external first

/-- Where a Java import leads: the class itself, or the class of a static member. -/
def java (index : FileIndex) (specifier : String) : Resolution :=
  let owner := (Text.cutLast? "." specifier).map (·.1)
  match (index.dotted? .java specifier).or (owner.bind (index.dotted? .java)) with
  | some path => .internal path
  | none =>
    if Text.startsWith specifier "java." || Text.startsWith specifier "javax." then .external (firstDotted specifier)
    else .external (Text.join "." ((Text.splitChar '.' specifier).take 2))

/-- Where an inclusion leads: the file beside the including one, or the only file of that name. -/
def inclusion (index : FileIndex) (importer specifier : String) : Resolution :=
  if !Text.startsWith specifier "./" && !Text.startsWith specifier "../" then .external specifier
  else
    let joined := joinRelative (Path.parent importer) specifier
    if index.contains joined then .internal joined
    else match index.named (Path.fileName specifier) with
      | [path] => .internal path
      | _ => .unresolved

end Resolve

namespace FileIndex

/-- Where an import leads by the rules of a language. -/
def lookup (index : FileIndex) (importer : String) (language : Option Language) (specifier : String) : Resolution :=
  match language with
  | some .javascript | some .typescript | some .tsx => Resolve.ecmaScript index importer specifier
  | some .python => Resolve.python index importer specifier
  | some .rust => Resolve.rust index importer specifier
  | some .java => Resolve.java index specifier
  | some .c | some .cpp => Resolve.inclusion index importer specifier
  | none => .unresolved

/-- Where an import of a file leads; a file does not import itself. -/
def resolve (index : FileIndex) (importer : String) (language : Option Language) (specifier : String) : Resolution :=
  let importer := Path.normalize importer
  match index.lookup importer language specifier with
  | .internal path => if path == importer then .unresolved else .internal path
  | other => other

end FileIndex

end CodeAtlas
