/-
  Paths of imports: joining a relative specifier to a directory, and the module path of a Rust file.
-/
import CodeAtlas.Path

namespace CodeAtlas.Resolve

/-- The stack of segments after one more segment, the last one first: empty segments and `.` change nothing, and `..`
removes the last one. -/
def pushSegment (stack : List String) (segment : String) : List String :=
  if segment == "" || segment == "." then stack
  else if segment == ".." then stack.tail
  else segment :: stack

/-- The path of a relative specifier as seen from a directory. -/
def joinRelative (dir specifier : String) : String :=
  let start := (Path.segments dir).reverse
  Text.join "/" ((Text.splitChar '/' specifier).foldl pushSegment start).reverse

/-- A directory and what lies in it, either of which may be empty. -/
def joinDir (dir rest : String) : String :=
  if dir.isEmpty then rest
  else if rest.isEmpty then dir
  else dir ++ "/" ++ rest

/-- The part of a path after the last `src/` that begins a segment; the whole path when the last `src/` in it is the
end of a longer name, or when there is none. -/
def afterSourceRoot (path : String) : String :=
  match Text.cutLast? "src/" path with
  | some (before, after) => if before.isEmpty || Text.endsWith before "/" then after else path
  | none => path

/-- The module path of a Rust file: `crate` and the segments below the source root, where `mod`, `lib` and `main` stand
for the directory they are in. -/
def rustModulePath (path : String) : String :=
  let relative := afterSourceRoot (Path.normalize path)
  let segments := Path.segments ((Text.stripEnd? relative ".rs").getD relative)
  let named := match segments.getLast? with
    | some last => if ["mod", "lib", "main"].contains last then segments.dropLast else segments
    | none => []
  Text.join "::" ("crate" :: named)

/-- The package that a specifier names: its first segment, and the second too after a scope. -/
def packageName (specifier : String) : String :=
  match Text.splitChar '/' specifier with
  | scope :: name :: _ => if Text.startsWith scope "@" then scope ++ "/" ++ name else scope
  | [name] => name
  | [] => specifier

/-- What stands before the first dot. -/
def firstDotted (specifier : String) : String :=
  ((Text.splitChar '.' specifier).head?).getD specifier

end CodeAtlas.Resolve
