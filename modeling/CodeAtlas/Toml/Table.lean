/-
  The tables of a TOML document while it is read.

  A table remembers where it came from, because that decides who may add to it: a table with a header of its own takes
  keys under that header only, a table made by a dotted key takes further dotted keys only, and a table that was merely
  passed on the way to another header may still get its own.  No key is ever set twice.
-/
import CodeAtlas.Json.Basic

namespace CodeAtlas.Toml

/-- Where a table came from. -/
inductive Origin where
  /-- The document itself, or a header. -/
  | header
  /-- A header of a table below it. -/
  | passed
  /-- A dotted key. -/
  | dotted
  deriving DecidableEq, Repr

/-- What stands under a key. -/
inductive Item where
  | value (j : Json)
  | table (origin : Origin) (entries : List (String × Item))

/-- The entries of a table. -/
abbrev Entries : Type := List (String × Item)

/-- The item under a key. -/
def Entries.get? (entries : Entries) (key : String) : Option Item :=
  (entries.find? fun e => e.1 == key).map (·.2)

/-- The entries with one set. -/
def Entries.set (entries : Entries) (key : String) (item : Item) : Entries :=
  entries.filter (fun e => e.1 != key) ++ [(key, item)]

/-- How a table on the way to another one is entered: what there is under its key gives its origin and its entries. -/
abbrev Enter : Type := Option Item → Option (Origin × Entries)

/-- Headers lead through all tables. -/
def enterHeader : Enter
  | none => some (.passed, [])
  | some (.table origin entries) => some (origin, entries)
  | some (.value _) => none

/-- Dotted keys do not lead into tables with headers of their own. -/
def enterDotted : Enter
  | none => some (.dotted, [])
  | some (.table .header _) => none
  | some (.table origin entries) => some (origin, entries)
  | some (.value _) => none

/-- The entries of a table after a change to the table that a path leads to. -/
def update (enter : Enter) (change : Origin → Entries → Option Entries) :
    (path : List String) → Origin → Entries → Option Entries
  | [], origin, entries => change origin entries
  | key :: path, _, entries => do
    let (origin, below) ← enter (entries.get? key)
    let below ← update enter change path origin below
    some (entries.set key (.table origin below))

/-- A new entry of a table; dotted keys go into tables made by dotted keys, others do not. -/
def addEntry (dotted : Bool) (key : String) (j : Json) (origin : Origin) (entries : Entries) : Option Entries :=
  if (origin == .dotted) == dotted && (entries.get? key).isNone then some (entries.set key (.value j)) else none

/-- A table with a value added under a dotted key. -/
def insert (path : List String) (key : String) (j : Json) (origin : Origin) (entries : Entries) : Option Entries :=
  update enterDotted (addEntry (!path.isEmpty) key j) path origin entries

/-- The table under a key gets its header. -/
def addHeader (key : String) (_ : Origin) (entries : Entries) : Option Entries :=
  match entries.get? key with
  | none => some (entries.set key (.table .header []))
  | some (.table .passed below) => some (entries.set key (.table .header below))
  | some _ => none

/-- A document with a header added. -/
def openTable (path : List String) (key : String) (root : Entries) : Option Entries :=
  update enterHeader (addHeader key) path .header root

mutual

/-- The value of an item. -/
def Item.toJson : Item → Json
  | .value j => j
  | .table _ entries => .obj (fieldsOf entries)

/-- The values of the entries of a table. -/
def fieldsOf : List (String × Item) → List (String × Json)
  | [] => []
  | (key, item) :: rest => (key, item.toJson) :: fieldsOf rest

end

end CodeAtlas.Toml
