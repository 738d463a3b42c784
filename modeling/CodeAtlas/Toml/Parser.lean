/-
  Reading TOML documents: comments, keys with dots, headers of tables, strings, numbers, truth values, arrays and inline
  tables.  Dates and arrays of tables are not part of it.
-/
import CodeAtlas.Toml.Scalar
import CodeAtlas.Toml.Table

namespace CodeAtlas.Toml

mutual

/-- The value at the front. -/
def value? : (fuel : Nat) → List Char → Option (Json × List Char)
  | 0, _ => none
  | fuel + 1, cs =>
    match cs with
    | 't' :: 'r' :: 'u' :: 'e' :: rest => some (.bool true, rest)
    | 'f' :: 'a' :: 'l' :: 's' :: 'e' :: rest => some (.bool false, rest)
    | '[' :: rest => items? fuel [] rest
    | '{' :: rest =>
      match rest.dropWhile isSpace with
      | '}' :: rest => some (.obj [], rest)
      | rest => pairs? fuel [] rest
    | c :: _ =>
      if c == '"' || c == '\'' then (string? cs).map fun (s, rest) => (.str s, rest) else number? cs
    | [] => none

/-- The items of an array, behind those already read; a comma may stand after the last one. -/
def items? : (fuel : Nat) → List Json → List Char → Option (Json × List Char)
  | 0, _, _ => none
  | fuel + 1, acc, cs =>
    match skipFiller false cs with
    | ']' :: rest => some (.arr acc.reverse, rest)
    | rest =>
      match value? fuel rest with
      | none => none
      | some (j, rest) =>
        match skipFiller false rest with
        | ',' :: rest => items? fuel (j :: acc) rest
        | ']' :: rest => some (.arr (j :: acc).reverse, rest)
        | _ => none

/-- The pairs of an inline table, which join the entries already read. -/
def pairs? : (fuel : Nat) → Entries → List Char → Option (Json × List Char)
  | 0, _, _ => none
  | fuel + 1, entries, cs =>
    match key? cs.length cs with
    | some ((path, key), '=' :: rest) =>
      match value? fuel (rest.dropWhile isSpace) with
      | none => none
      | some (j, rest) =>
        match insert path key j .header entries with
        | none => none
        | some entries =>
          match rest.dropWhile isSpace with
          | ',' :: rest => pairs? fuel entries rest
          | '}' :: rest => some (.obj (fieldsOf entries), rest)
          | _ => none
    | _ => none

end

/-- A document while it is read: its entries so far and the table of the last header. -/
structure Document where
  root : Entries
  path : List String

namespace Document

/-- The document with a value added under a key in the current table. -/
def addPair (d : Document) (path : List String) (key : String) (j : Json) : Option Document :=
  (update enterHeader (insert path key j) d.path .header d.root).map fun root => { d with root }

/-- The document after a header. -/
def addTable (d : Document) (path : List String) (key : String) : Option Document :=
  (openTable path key d.root).map fun root => ⟨root, path ++ [key]⟩

end Document

/-- The rest after the end of a line: blanks, perhaps a comment, and a line break unless the text ends. -/
def lineEnd? (cs : List Char) : Option (List Char) :=
  let rest := cs.dropWhile isSpace
  let rest := match rest with
    | '#' :: comment => comment.dropWhile isPlain
    | rest => rest
  match rest with
  | [] => some []
  | rest => newline? rest

/-- The document after the statement at the front, and the rest after its line. -/
def statement? (d : Document) (cs : List Char) : Option (Document × List Char) :=
  match cs.dropWhile isSpace with
  | [] => some (d, [])
  | '[' :: rest =>
    match key? cs.length rest with
    | some ((path, key), ']' :: rest) => do some (← d.addTable path key, ← lineEnd? rest)
    | _ => none
  | c :: rest =>
    if c == '#' || c == '\n' || c == '\r' then (lineEnd? (c :: rest)).map fun rest => (d, rest)
    else match key? cs.length (c :: rest) with
      | some ((path, key), '=' :: rest) => do
        let (j, rest) ← value? (2 * cs.length) (rest.dropWhile isSpace)
        some (← d.addPair path key j, ← lineEnd? rest)
      | _ => none

/-- The document after all statements. -/
def statements? : (fuel : Nat) → Document → List Char → Option Document
  | _, d, [] => some d
  | 0, _, _ :: _ => none
  | fuel + 1, d, c :: rest => (statement? d (c :: rest)).bind fun (d, rest) => statements? fuel d rest

/-- The value of a document; a mark of the byte order may stand in front. -/
def parse? (s : String) : Option Json :=
  let cs := match s.toList with
    | '\ufeff' :: rest => rest
    | cs => cs
  (statements? cs.length ⟨[], []⟩ cs).map fun d => .obj (fieldsOf d.root)

end CodeAtlas.Toml
