/-
  The graph of a project: the nodes and edges of its files, an edge for each internal dependency, and a `uses` edge for
  each indirect dependency of at most a given number of imports.
-/
import CodeAtlas.Analysis

namespace CodeAtlas.Graph

/-- The node of the file with a path; of several extractions the last one. -/
def fileId? (extractions : List Extraction) (path : String) : Option String :=
  (extractions.reverse.filter fun e => e.path == path).findSome? fun e => e.fileNode?.map (·.id)

/-- The edge of an internal dependency. -/
def dependencyEdge? (extractions : List Extraction) (d : Dependency) : Option Edge := do
  if d.external then none
  let source ← fileId? extractions d.source
  let target ← fileId? extractions d.target
  some { Edge.new source target d.relationship (some d.line) with
    isCircular := d.isCircular
    strength := some d.strength }

/-- The internal dependencies between different files. -/
def steps (dependencies : List Dependency) : List Cycle.Arc :=
  (Analysis.arcs dependencies).filter fun a => a.1 != a.2

/-- The nodes at a distance, found from those at the distance before; `known` are all nearer ones with their
distances. -/
def spread (arcs : List Cycle.Arc) :
    (fuel distance : Nat) → (frontier : List String) → (known : List (String × Nat)) → List (String × Nat)
  | 0, _, _, known => known
  | fuel + 1, distance, frontier, known =>
    match Cycle.unseen (known.map (·.1)) (frontier.flatMap (Cycle.successors arcs)) with
    | [] => known
    | next => spread arcs fuel (distance + 1) next (known ++ next.map fun f => (f, distance + 1))

/-- The files within a number of steps of a file with their distances. -/
def distances (arcs : List Cycle.Arc) (maxHops : Nat) (start : String) : List (String × Nat) :=
  spread arcs maxHops 0 [start] [(start, 0)]

/-- The `uses` edges from a file, ordered by the path of their target. -/
def usesEdges (extractions : List Extraction) (arcs : List Cycle.Arc) (maxHops : Nat) (start : String) : List Edge :=
  let far := (distances arcs maxHops start).filter fun r => 2 ≤ r.2
  let sorted := far.mergeSort fun a b => decide (a.1 ≤ b.1)
  sorted.filterMap fun (path, hops) => do
    let source ← fileId? extractions start
    let target ← fileId? extractions path
    some { Edge.new source target .uses none with weight := hopWeight hops, hops := some hops }

/-- The `uses` edges of all files. -/
def transitiveEdges (extractions : List Extraction) (dependencies : List Dependency) (maxHops : Nat) : List Edge :=
  if maxHops < 2 then []
  else
    let arcs := steps dependencies
    (sortedDistinct (arcs.map (·.1))).flatMap (usesEdges extractions arcs maxHops)

/-- All nodes and edges of a project before repetitions are removed. -/
def assemble (extractions : List Extraction) (dependencies : List Dependency) (maxHops : Nat) : Graph :=
  { nodes := extractions.flatMap (·.nodes)
    edges := extractions.flatMap (·.edges) ++ dependencies.filterMap (dependencyEdge? extractions)
      ++ transitiveEdges extractions dependencies maxHops }

/-- The graph of a project. -/
def build (extractions : List Extraction) (dependencies : List Dependency) (maxHops : Nat) : Graph :=
  (assemble extractions dependencies maxHops).dedup.1.retainConnected.1

end CodeAtlas.Graph
