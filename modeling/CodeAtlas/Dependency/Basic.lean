/-
  Dependencies between files: their relationship and their score.

  The score adds half a point for each use, up to ten, to the weight of the kind of import; a conditional import counts
  for three fifths, and a dependency on a critical path for one and a half points more.
-/
import CodeAtlas.Dependency.Usage
import CodeAtlas.Graph.Relationship
import CodeAtlas.Profile.FileType

namespace CodeAtlas

/-- A dependency of a file on another file or on a package. -/
structure Dependency where
  source : String
  /-- A path, or the name of a package. -/
  target : String
  relationship : Relationship
  strength : Strength
  score : Rat
  usageCount : Nat
  line : Nat
  names : List String
  isConditional : Bool
  isCircular : Bool
  external : Bool
  deriving DecidableEq, Inhabited

namespace Dependency

/-- The relationship of a dependency: what lies outside, how it is imported, and then what the two files are for. -/
def relationshipOf (kind : ImportKind) (sourceType : FileType) (targetType : Option FileType) (external : Bool) :
    Relationship :=
  if external then .externalImport
  else match kind, targetType with
    | .dynamic, _ => .dynamicImport
    | .typeOnly, _ => .typeImport
    | _, none => .imports
    | _, some t =>
      if t == sourceType && t != .file then .composition
      else match t with
        | .service => .serviceCall
        | .utility => .utilityUsage
        | .config => .configUsage
        | _ => .imports

/-- The weight of a kind of import. -/
def kindWeight : ImportKind → Rat
  | .static | .inclusion | .require => 1
  | .dynamic => mkRat 3 4
  | .typeOnly => mkRat 1 2

/-- Uses beyond this number do not count. -/
def usageCap : Nat := 10

/-- The score of a dependency. -/
def scoreOf (usage : Nat) (kind : ImportKind) (conditional critical : Bool) : Rat :=
  let base := mkRat (min usage usageCap) 2 + kindWeight kind
  let weighed := if conditional then base * mkRat 3 5 else base
  if critical then weighed + mkRat 3 2 else weighed

/-- Words of sensitive concerns. -/
def criticalWords : List String :=
  ["auth", "login", "payment", "checkout", "billing", "security", "session", "token"]

/-- Whether a path or package speaks of a sensitive concern. -/
def isCriticalPath (target : String) : Bool :=
  Text.containsAny (Text.lower target) criticalWords

end Dependency

end CodeAtlas
