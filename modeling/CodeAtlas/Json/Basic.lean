/-
  JSON values and the reading of records from them.

  A number is an `int` when it is written without fraction and exponent and fits into 64 bits; every other number is a
  `real`.  An object keeps its fields in the order written; of two fields with one name the later one counts.
-/
import CodeAtlas.Number.Double

namespace CodeAtlas

/-- A JSON value. -/
inductive Json where
  | null
  | bool (b : Bool)
  | int (n : Int)
  | real (x : Double)
  | str (s : String)
  | arr (items : List Json)
  | obj (fields : List (String × Json))
  deriving Inhabited

namespace Json

/-- The value of a field of an object. -/
def field? (j : Json) (key : String) : Option Json :=
  match j with
  | .obj fields => (fields.reverse.find? fun f => f.1 == key).map (·.2)
  | _ => none

/-- A text. -/
def text? : Json → Option String
  | .str s => some s
  | _ => none

/-- A truth value. -/
def truth? : Json → Option Bool
  | .bool b => some b
  | _ => none

/-- A natural number below 2 ^ 64. -/
def nat? : Json → Option Nat
  | .int n => if 0 ≤ n then some n.toNat else none
  | _ => none

/-- A whole number of 64 bits with sign. -/
def int64? : Json → Option Int
  | .int n => if n < 0x8000000000000000 then some n else none
  | _ => none

/-- A double; a whole number counts as the double nearest to it. -/
def double? : Json → Option Double
  | .int n => some (.ofRat n)
  | .real x => some x
  | _ => none

/-- The object that stands for a record: an object itself, or an array with the values of the first fields in their
order, at least `needed` of them. -/
def record? (names : List String) (needed : Nat) : Json → Option Json
  | .obj fields => some (.obj fields)
  | .arr items =>
    if needed ≤ items.length ∧ items.length ≤ names.length then some (.obj (names.zip items)) else none
  | _ => none

/-- An array of values that are all read by `read`. -/
def list? {α : Type} (read : Json → Option α) : Json → Option (List α)
  | .arr items => items.mapM read
  | _ => none

/-- Null, or a value read by `read`. -/
def nullable? {α : Type} (read : Json → Option α) : Json → Option (Option α)
  | .null => some none
  | j => (read j).map some

/-- A field that must be there. -/
def get? {α : Type} (j : Json) (key : String) (read : Json → Option α) : Option α :=
  (j.field? key).bind read

/-- A field that takes a default value when it is missing. -/
def getD? {α : Type} (j : Json) (key : String) (read : Json → Option α) (default : α) : Option α :=
  match j.field? key with
  | some value => read value
  | none => some default

/-- A field that may be missing or null. -/
def getOpt? {α : Type} (j : Json) (key : String) (read : Json → Option α) : Option (Option α) :=
  j.getD? key (nullable? read) none

/-- An optional value, null when absent. -/
def ofOption {α : Type} (write : α → Json) : Option α → Json
  | some a => write a
  | none => .null

/-- A list of texts. -/
def texts (l : List String) : Json :=
  .arr (l.map .str)

/-- A natural number. -/
def nat (n : Nat) : Json :=
  .int n

/-- A field that is left out when the value is absent. -/
def optField {α : Type} (key : String) (write : α → Json) : Option α → List (String × Json)
  | some a => [(key, write a)]
  | none => []

/-- A rational, written as a text with six decimals. -/
def decimal (r : Rat) : Json :=
  .str (fixed 6 r)

end Json

end CodeAtlas
