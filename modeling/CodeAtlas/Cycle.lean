/-
  Cycles of a directed graph given by its edges.

  `reach` collects what can be reached from a node in any number of steps.  Two nodes are in one class when each reaches
  the other; a class is a cycle when it has several members or its only member has an edge to itself.
-/
import CodeAtlas.Resolve.Index

namespace CodeAtlas.Cycle

/-- A directed edge between two names. -/
abbrev Arc : Type := String × String

/-- The targets of the edges that leave a node. -/
def successors (arcs : List Arc) (a : String) : List String :=
  (arcs.filter fun e => e.1 == a).map (·.2)

/-- The elements that are not yet seen, each once. -/
def unseen (seen : List String) : List String → List String
  | [] => []
  | a :: rest => if seen.contains a then unseen seen rest else a :: unseen (a :: seen) rest

/-- What is seen when the nodes in `todo`, which are seen already, are expanded, at most `fuel` of them. -/
def expand (arcs : List Arc) : (fuel : Nat) → (todo seen : List String) → List String
  | 0, _, seen => seen
  | _ + 1, [], seen => seen
  | fuel + 1, a :: todo, seen =>
    let next := unseen seen (successors arcs a)
    expand arcs fuel (todo ++ next) (seen ++ next)

/-- The nodes that can be reached from a node in zero or more steps. Each step of the search expands another node, and
but for the first one each is the target of an edge. -/
def reach (arcs : List Arc) (a : String) : List String :=
  expand arcs (arcs.length + 1) [a] [a]

/-- The nodes of the edges in increasing order. -/
def nodes (arcs : List Arc) : List String :=
  sortedDistinct (arcs.flatMap fun e => [e.1, e.2])

/-- What each node reaches. -/
def reachTable (arcs : List Arc) : List (String × List String) :=
  (nodes arcs).map fun a => (a, reach arcs a)

/-- The nodes that reach a node and are reached by it. -/
def classOf (table : List (String × List String)) (row : String × List String) : List String :=
  (table.filter fun other => row.2.contains other.1 && other.2.contains row.1).map (·.1)

/-- The class of a node when it is a cycle and the node its first member. -/
def cycleAt? (arcs : List Arc) (table : List (String × List String)) (row : String × List String) :
    Option (List String) :=
  let members := classOf table row
  if members.head? == some row.1 && (members.length > 1 || arcs.contains (row.1, row.1)) then some members else none

/-- The cycles among some edges and the edges inside them. -/
structure Report where
  /-- The members of each cycle in increasing order, and the cycles by their first members. -/
  cycles : List (List String)
  circular : List Arc
  deriving Repr

/-- Whether two nodes are members of one cycle. -/
def share (cycles : List (List String)) (a b : String) : Bool :=
  cycles.any fun c => c.contains a && c.contains b

/-- The cycles of the graph with the given edges; an edge is circular when its ends share a cycle. -/
def detect (arcs : List Arc) : Report :=
  let table := reachTable arcs
  let cycles := table.filterMap (cycleAt? arcs table)
  { cycles, circular := arcs.filter fun e => share cycles e.1 e.2 }

namespace Report

/-- Whether an edge lies inside a cycle. -/
def isCircular (r : Report) (source target : String) : Bool :=
  r.circular.contains (source, target)

/-- The members of all cycles in increasing order. -/
def members (r : Report) : List String :=
  sortedDistinct r.cycles.flatten

end Report

end CodeAtlas.Cycle
