/-
  The JSON form of source files and syntax trees.  A tree is the list of its nodes in pre-order; a node is the list of
  its kind, its marks, its field, its first byte, the byte after it, and the number of its children.
-/
import CodeAtlas.Json.Symbol
import CodeAtlas.SourceFile

namespace CodeAtlas

open Syntax (Tag Tree)

/-- A node of a tree and the number of its children. The marks are a sum of 1 for a named node, 2 for one in error, 4
for a missing one, and 8 for one with an error at or below it. -/
def Syntax.Tag.ofJson? : Json → Option (Tag × Nat)
  | .arr [kind, marks, field, start, stop, count] => do
    let marks ← marks.nat?
    some
      ({ kind := ← kind.text?
         field := ← field.text?
         start := ← start.nat?
         stop := ← stop.nat?
         isNamed := marks.testBit 0
         isError := marks.testBit 1
         isMissing := marks.testBit 2
         hasError := marks.testBit 3 }, ← count.nat?)
  | _ => none

/-- The tree that a list of nodes describes. -/
def Syntax.Tree.ofJson? (j : Json) : Option Tree := do
  Tree.ofPreorder? (← j.list? Tag.ofJson?)

/-- The file that an object describes. -/
def SourceFile.ofJson? (j : Json) : Option SourceFile := do
  some
    { path := ← j.get? "path" Json.text?
      content := ← j.getOpt? "content" Json.text?
      entryPoint := ← j.getD? "entry" Json.truth? false
      hint := ← j.getOpt? "hint" (Json.named? Language.ofName?)
      diskPath := none
      tree := ← j.getOpt? "tree" Tree.ofJson? }

/-- The file that a request describes. -/
def SourceFile.ofRequest? (j : Json) : Option SourceFile := do
  let j ← j.record? ["filePath", "content", "entryPoint", "languageHint", "sourcePath"] 1
  some
    { path := ← j.get? "filePath" Json.text?
      content := ← j.getOpt? "content" Json.text?
      entryPoint := ← j.getD? "entryPoint" Json.truth? false
      hint := ← j.getOpt? "languageHint" (Json.named? Language.ofName?)
      diskPath := ← j.getOpt? "sourcePath" Json.text?
      tree := none }

/-- The object of a file as a request. -/
def SourceFile.toRequest (f : SourceFile) : Json :=
  .obj
    ([("filePath", .str f.path)] ++ Json.optField "content" .str f.content
      ++ [("entryPoint", .bool f.entryPoint)] ++ Json.optField "languageHint" (fun l => .str l.name) f.hint
      ++ Json.optField "sourcePath" .str f.diskPath)

end CodeAtlas
