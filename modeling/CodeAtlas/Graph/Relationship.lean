/-
  The kinds of relationships between nodes and the strength of a dependency between files.
-/
import CodeAtlas.Number.Double

namespace CodeAtlas

/-- What connects two nodes. -/
inductive Relationship where
  | imports
  | externalImport
  | dynamicImport
  | typeImport
  | call
  | reference
  | composition
  | serviceCall
  | utilityUsage
  | configUsage
  | contains
  | uses
  deriving DecidableEq, Repr, Inhabited

namespace Relationship

/-- Every relationship. -/
def all : List Relationship :=
  [.imports, .externalImport, .dynamicImport, .typeImport, .call, .reference, .composition, .serviceCall,
    .utilityUsage, .configUsage, .contains, .uses]

/-- The tag of a relationship. -/
def name : Relationship → String
  | .imports => "import"
  | .externalImport => "external-import"
  | .dynamicImport => "dynamic-import"
  | .typeImport => "type-import"
  | .call => "call"
  | .reference => "reference"
  | .composition => "composition"
  | .serviceCall => "service-call"
  | .utilityUsage => "utility-usage"
  | .configUsage => "config-usage"
  | .contains => "contains"
  | .uses => "uses"

/-- The relationship with a given tag. -/
def ofName? (s : String) : Option Relationship :=
  all.find? fun r => r.name == s

end Relationship

/-- How much a dependency matters, from weak to critical. -/
inductive Strength where
  | weak
  | medium
  | strong
  | critical
  deriving DecidableEq, Repr, Inhabited

namespace Strength

/-- Every strength in increasing order. -/
def all : List Strength :=
  [.weak, .medium, .strong, .critical]

/-- The tag of a strength. -/
def name : Strength → String
  | .weak => "weak"
  | .medium => "medium"
  | .strong => "strong"
  | .critical => "critical"

/-- The strength with a given tag. -/
def ofName? (s : String) : Option Strength :=
  all.find? fun r => r.name == s

/-- The place of a strength in the order. -/
def rank : Strength → Nat
  | .weak => 0
  | .medium => 1
  | .strong => 2
  | .critical => 3

/-- The strength of a score: below 1.5, below 3, below 5, and from there on. -/
def ofScore (score : Rat) : Strength :=
  if score < mkRat 3 2 then .weak
  else if score < 3 then .medium
  else if score < 5 then .strong
  else .critical

end Strength

end CodeAtlas
