/-
  The JSON form of symbols, imports and references.
-/
import CodeAtlas.Json.Basic
import CodeAtlas.Reference

namespace CodeAtlas

/-- A tag of an enumeration; the tag may also stand as the only field, with value null, of an object. -/
def Json.named? {α : Type} (ofName? : String → Option α) : Json → Option α
  | .str s => ofName? s
  | .obj [(s, .null)] => ofName? s
  | _ => none

/-- The name of a language, null for none. -/
def Json.language (l : Option Language) : Json :=
  .ofOption (fun l => .str l.name) l

/-- The symbol that an object describes. -/
def Symbol.ofJson? (j : Json) : Option Symbol := do
  let j ← j.record?
    ["name", "kind", "fqn", "parent", "signature", "byteStart", "byteEnd", "nameByteStart", "startLine", "startCol",
      "endLine", "endCol", "isAsync", "isPublic", "isExported"] 15
  some
    { name := ← j.get? "name" Json.text?
      kind := ← j.get? "kind" (Json.named? SymbolKind.ofName?)
      fqn := ← j.get? "fqn" Json.text?
      parent := ← j.getOpt? "parent" Json.text?
      signature := ← j.get? "signature" Json.text?
      byteStart := ← j.get? "byteStart" Json.nat?
      byteEnd := ← j.get? "byteEnd" Json.nat?
      nameByteStart := ← j.get? "nameByteStart" Json.nat?
      startLine := ← j.get? "startLine" Json.nat?
      startCol := ← j.get? "startCol" Json.nat?
      endLine := ← j.get? "endLine" Json.nat?
      endCol := ← j.get? "endCol" Json.nat?
      isAsync := ← j.get? "isAsync" Json.truth?
      isPublic := ← j.get? "isPublic" Json.truth?
      isExported := ← j.get? "isExported" Json.truth? }

/-- The object of a symbol. -/
def Symbol.toJson (s : Symbol) : Json :=
  .obj
    [ ("name", .str s.name), ("kind", .str s.kind.name), ("fqn", .str s.fqn), ("parent", .ofOption .str s.parent),
      ("signature", .str s.signature), ("byteStart", .nat s.byteStart), ("byteEnd", .nat s.byteEnd),
      ("nameByteStart", .nat s.nameByteStart), ("startLine", .nat s.startLine), ("startCol", .nat s.startCol),
      ("endLine", .nat s.endLine), ("endCol", .nat s.endCol), ("isAsync", .bool s.isAsync),
      ("isPublic", .bool s.isPublic), ("isExported", .bool s.isExported) ]

/-- The import that an object describes. -/
def Import.ofJson? (j : Json) : Option Import := do
  let j ← j.record? ["specifier", "importedNames", "kind", "line", "endLine", "isConditional"] 6
  some
    { specifier := ← j.get? "specifier" Json.text?
      names := ← j.get? "importedNames" (Json.list? Json.text?)
      kind := ← j.get? "kind" (Json.named? ImportKind.ofName?)
      line := ← j.get? "line" Json.nat?
      endLine := ← j.get? "endLine" Json.nat?
      isConditional := ← j.get? "isConditional" Json.truth? }

/-- The object of an import. -/
def Import.toJson (i : Import) : Json :=
  .obj
    [ ("specifier", .str i.specifier), ("importedNames", .texts i.names), ("kind", .str i.kind.name),
      ("line", .nat i.line), ("endLine", .nat i.endLine), ("isConditional", .bool i.isConditional) ]

/-- The object of a set of symbols. -/
def SymbolSet.toJson (s : SymbolSet) : Json :=
  .obj
    [ ("language", .language s.language), ("symbols", .arr (s.symbols.map Symbol.toJson)),
      ("imports", .arr (s.imports.map Import.toJson)), ("exports", .texts s.exports),
      ("nodeCount", .nat s.nodeCount), ("namedNodeCount", .nat s.namedNodeCount), ("generic", .bool s.generic) ]

/-- The reference that an object describes; the place of its first byte is not part of the object. -/
def Reference.ofJson? (j : Json) : Option Reference := do
  let j ← j.record? ["symbolName", "filePath", "line", "column", "type", "context"] 6
  some
    { symbolName := ← j.get? "symbolName" Json.text?
      filePath := ← j.get? "filePath" Json.text?
      line := ← j.get? "line" Json.nat?
      column := ← j.get? "column" Json.nat?
      kind := ← j.get? "type" (Json.named? ReferenceKind.ofName?)
      context := ← j.get? "context" Json.text?
      byteStart := 0 }

/-- The fields of a reference. -/
def Reference.jsonFields (r : Reference) : List (String × Json) :=
  [ ("symbolName", .str r.symbolName), ("filePath", .str r.filePath), ("line", .nat r.line),
    ("column", .nat r.column), ("type", .str r.kind.name), ("context", .str r.context) ]

/-- The object of a reference. -/
def Reference.toJson (r : Reference) : Json :=
  .obj r.jsonFields

end CodeAtlas
