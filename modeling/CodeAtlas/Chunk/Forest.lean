/-
  Disjoint sets of natural numbers as a forest.  Each number points to itself or to a smaller one of its set; following
  the pointers leads to the smallest number of the set.  `find` shortens the way it goes.
-/
namespace CodeAtlas

/-- A forest over the numbers below its size. -/
structure Forest where
  parents : List Nat
  deriving Repr

namespace Forest

/-- The forest in which each number is alone. -/
def discrete (size : Nat) : Forest :=
  ⟨List.range size⟩

/-- The number that a number points to, never a greater one. -/
def parent (f : Forest) (i : Nat) : Nat :=
  min (f.parents.getD i i) i

theorem parent_le (f : Forest) (i : Nat) : f.parent i ≤ i :=
  Nat.min_le_right _ _

/-- The forest with one pointer changed. -/
def redirect (f : Forest) (i target : Nat) : Forest :=
  ⟨f.parents.set i target⟩

/-- The root above a number, and the forest in which every number on every other step of the way points to its former
grandparent. -/
def find (f : Forest) (i : Nat) : Forest × Nat :=
  if f.parent i = i then (f, i)
  else find (f.redirect i (f.parent (f.parent i))) (f.parent (f.parent i))
termination_by i
decreasing_by
  have h1 := f.parent_le i
  have h2 := f.parent_le (f.parent i)
  omega

/-- The forest in which the sets of two numbers are one; the smaller root stays a root. -/
def union (f : Forest) (a b : Nat) : Forest :=
  let (f, ra) := f.find a
  let (f, rb) := f.find b
  if ra < rb then f.redirect rb ra else if rb < ra then f.redirect ra rb else f

/-- The members of a list of groups after one more number with its root. -/
def addTo (groups : List (Nat × List Nat)) (root i : Nat) : List (Nat × List Nat) :=
  if groups.any fun g => g.1 == root then groups.map fun g => if g.1 == root then (g.1, g.2 ++ [i]) else g
  else groups ++ [(root, [i])]

/-- The sets of the numbers below a bound in increasing order, ordered by their first members. -/
def groups (f : Forest) (size : Nat) : List (List Nat) :=
  let start : Forest × List (Nat × List Nat) := (f, [])
  let final := (List.range size).foldl (fun (f, groups) i =>
    let (f, root) := f.find i
    (f, addTo groups root i)) start
  final.2.map (·.2)

end Forest

end CodeAtlas
