/-
  How often imported names are used.  A use of a name is an occurrence between two word boundaries; uses are found from
  the left without overlap, and where several names fit at one place the first one in the list counts.
-/
import CodeAtlas.Symbol.Basic
import CodeAtlas.Text.Alphabet

namespace CodeAtlas.Usage

/-- Whether exactly one of two neighbours is a word character. -/
def isBoundary (a b : Option Char) : Bool :=
  (a.any Text.isWordChar) != (b.any Text.isWordChar)

/-- Whether a name stands at the front and ends at a word boundary. -/
def fits (text name : List Char) : Bool :=
  name.isPrefixOf text && isBoundary name.getLast? (text.drop name.length).head?

/-- The number of uses in a text that follows the character `prev`, the first `skip` characters passed over. -/
def countFrom (names : List (List Char)) : (prev : Option Char) → (skip : Nat) → List Char → Nat
  | _, _, [] => 0
  | _, skip + 1, c :: rest => countFrom names (some c) skip rest
  | prev, 0, c :: rest =>
    match if isBoundary prev (some c) then names.find? (fits (c :: rest)) else none with
    | some name => 1 + countFrom names (some c) (name.length - 1) rest
    | none => countFrom names (some c) 0 rest

/-- The number of uses of the names in a line. -/
def countLine (names : List (List Char)) (line : String) : Nat :=
  countFrom names none 0 line.toList

/-- The names of an import that can be looked for. -/
def usableNames (i : Import) : List (List Char) :=
  (i.names.filter fun n => n != "*" && !n.isEmpty).map String.toList

/-- The uses in lines numbered from `line` on, those of the import itself left out. -/
def countLines (i : Import) (names : List (List Char)) : (line : Nat) → List String → Nat
  | _, [] => 0
  | line, l :: rest => (if i.spansLine line then 0 else countLine names l) + countLines i names (line + 1) rest

/-- How often the names of an import are used outside of it; once when it binds no name.  The names are looked for as one
pattern of their escaped texts, and one use is assumed where this is rejected.  That happens to patterns beyond a limit in
size only, and is left out here. -/
def count (content : String) (i : Import) : Nat :=
  let names := usableNames i
  if names.isEmpty then 1 else countLines i names 1 (Text.lines content)

end CodeAtlas.Usage
