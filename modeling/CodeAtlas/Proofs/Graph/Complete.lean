/-
  The graph of a project is complete.

  Every edge that goes into a graph, of whichever of the three sources, names the identifiers of nodes that go into it as
  well (`ends_of_mem_assemble`).  Merging nodes keeps their identifiers, so that no edge is ever left without an end
  (`retainConnected_dedup`) and the graph holds all identifiers of nodes and edges, each once (`build_is_complete`).
-/
import CodeAtlas.Proofs.Extraction.Shape
import CodeAtlas.Proofs.Graph.Merge

namespace CodeAtlas.Graph

variable {extractions : List Extraction} {dependencies : List Dependency} {maxHops : Nat}

/-! ## The ends of edges -/

/-- The identifiers of nodes. -/
def nodeIds (g : Graph) : List String :=
  g.nodes.map (·.id)

/-- The identifiers of edges. -/
def edgeIds (g : Graph) : List String :=
  g.edges.map (·.id)

theorem hasNode_iff {g : Graph} {id : String} : g.hasNode id = true ↔ id ∈ g.nodeIds := by
  unfold hasNode nodeIds
  rw [List.any_eq_true, List.mem_map]
  simp only [beq_iff_eq]

theorem mem_nodeIds_assemble {id : String} :
    id ∈ (assemble extractions dependencies maxHops).nodeIds ↔ ∃ e ∈ extractions, id ∈ e.nodes.map (·.id) := by
  show id ∈ (extractions.flatMap (·.nodes)).map (·.id) ↔ _
  rw [List.map_flatMap, List.mem_flatMap]

/-- The node of a file that is looked up by path is one of the nodes of an extraction. -/
theorem mem_nodeIds_of_fileId? {path id : String} (h : fileId? extractions path = some id) :
    id ∈ (assemble extractions dependencies maxHops).nodeIds := by
  obtain ⟨e, he, -, n, hn, hid⟩ := fileId?_eq_some h
  have hnode : n ∈ e.nodes := List.mem_of_mem_head? (Option.filter_eq_some_iff.mp hn).1
  exact mem_nodeIds_assemble.mpr ⟨e, he, List.mem_map.mpr ⟨n, hnode, hid⟩⟩

theorem ends_of_dependencyEdge? {d : Dependency} {edge : Edge} (h : dependencyEdge? extractions d = some edge) :
    fileId? extractions d.source = some edge.source ∧ fileId? extractions d.target = some edge.target := by
  unfold dependencyEdge? at h
  split at h
  · cases h
  · obtain ⟨source, hsource, h⟩ := Option.bind_eq_some_iff.mp h
    obtain ⟨target, htarget, h⟩ := Option.bind_eq_some_iff.mp h
    rw [← Option.some.inj h]
    exact ⟨hsource, htarget⟩

/-- A `uses` edge leaves the file at which the search starts and leads to one that it finds. -/
theorem ends_of_mem_usesEdges {arcs : List Cycle.Arc} {start : String} {edge : Edge}
    (h : edge ∈ usesEdges extractions arcs maxHops start) :
    fileId? extractions start = some edge.source ∧
      ∃ r ∈ distances arcs maxHops start, fileId? extractions r.1 = some edge.target := by
  obtain ⟨⟨path, hops⟩, hmem, hedge⟩ := List.mem_filterMap.mp h
  obtain ⟨source, hsource, hedge⟩ := Option.bind_eq_some_iff.mp hedge
  obtain ⟨target, htarget, hedge⟩ := Option.bind_eq_some_iff.mp hedge
  rw [← Option.some.inj hedge]
  exact ⟨hsource, (path, hops), List.mem_of_mem_filter (List.mem_mergeSort.mp hmem), htarget⟩

theorem ends_of_mem_transitiveEdges {edge : Edge} (h : edge ∈ transitiveEdges extractions dependencies maxHops) :
    ∃ start path, fileId? extractions start = some edge.source ∧ fileId? extractions path = some edge.target := by
  unfold transitiveEdges at h
  split at h
  · exact absurd h List.not_mem_nil
  · obtain ⟨start, -, hedge⟩ := List.mem_flatMap.mp h
    obtain ⟨hsource, r, -, htarget⟩ := ends_of_mem_usesEdges hedge
    exact ⟨start, r.1, hsource, htarget⟩

/-- Every edge that goes into a graph joins two nodes that go into it. -/
theorem ends_of_mem_assemble (hextracted : ∀ e ∈ extractions, e.Extracted) {edge : Edge}
    (h : edge ∈ (assemble extractions dependencies maxHops).edges) :
    edge.source ∈ (assemble extractions dependencies maxHops).nodeIds ∧
      edge.target ∈ (assemble extractions dependencies maxHops).nodeIds := by
  rcases List.mem_append.mp h with hdirect | htransitive
  · rcases List.mem_append.mp hdirect with hown | hdependency
    · obtain ⟨e, he, hedge⟩ := List.mem_flatMap.mp hown
      obtain ⟨hsource, target, htarget, hid⟩ := (hextracted e he).of_mem_edges hedge
      obtain ⟨file, -, hfile, hfileId⟩ := (hextracted e he).fileNode?_eq
      exact ⟨mem_nodeIds_assemble.mpr ⟨e, he, List.mem_map.mpr ⟨file, hfile, hfileId.trans hsource.symm⟩⟩,
        mem_nodeIds_assemble.mpr ⟨e, he, List.mem_map.mpr ⟨target, htarget, hid⟩⟩⟩
    · obtain ⟨d, -, hedge⟩ := List.mem_filterMap.mp hdependency
      obtain ⟨hsource, htarget⟩ := ends_of_dependencyEdge? hedge
      exact ⟨mem_nodeIds_of_fileId? hsource, mem_nodeIds_of_fileId? htarget⟩
  · obtain ⟨start, path, hsource, htarget⟩ := ends_of_mem_transitiveEdges htransitive
    exact ⟨mem_nodeIds_of_fileId? hsource, mem_nodeIds_of_fileId? htarget⟩

/-! ## Removing repetitions and loose edges -/

theorem nodeIds_dedup (g : Graph) : g.dedup.1.nodeIds = firstOccurrences g.nodeIds :=
  map_id_mergeNodes g.nodes

theorem edgeIds_dedup (g : Graph) : g.dedup.1.edgeIds = firstOccurrences g.edgeIds :=
  map_id_firstEdges g.edges

theorem mem_nodeIds_dedup {g : Graph} {id : String} : id ∈ g.dedup.1.nodeIds ↔ id ∈ g.nodeIds := by
  rw [nodeIds_dedup, mem_firstOccurrences]

theorem mem_edges_of_dedup {g : Graph} {edge : Edge} (h : edge ∈ g.dedup.1.edges) : edge ∈ g.edges :=
  List.mem_of_mem_filter (List.mem_of_mem_head? (mem_firstEdges.mp h))

/-- A graph whose edges have both ends stays as it is. -/
theorem retainConnected_eq_self {g : Graph} (h : ∀ edge ∈ g.edges, edge.source ∈ g.nodeIds ∧ edge.target ∈ g.nodeIds) :
    g.retainConnected = (g, 0) := by
  have hall : (g.edges.filter fun e => g.hasNode e.source && g.hasNode e.target) = g.edges := by
    rw [List.filter_eq_self]
    intro edge hedge
    rw [Bool.and_eq_true, hasNode_iff, hasNode_iff]
    exact h edge hedge
  unfold retainConnected
  dsimp only
  rw [hall, Nat.sub_self]

theorem ends_of_mem_dedup {g : Graph} (h : ∀ edge ∈ g.edges, edge.source ∈ g.nodeIds ∧ edge.target ∈ g.nodeIds) :
    ∀ edge ∈ g.dedup.1.edges, edge.source ∈ g.dedup.1.nodeIds ∧ edge.target ∈ g.dedup.1.nodeIds := by
  intro edge hedge
  rw [mem_nodeIds_dedup, mem_nodeIds_dedup]
  exact h edge (mem_edges_of_dedup hedge)

/-- No edge of a graph is removed for want of an end. -/
theorem retainConnected_dedup (hextracted : ∀ e ∈ extractions, e.Extracted) (dependencies : List Dependency)
    (maxHops : Nat) :
    (assemble extractions dependencies maxHops).dedup.1.retainConnected =
      ((assemble extractions dependencies maxHops).dedup.1, 0) :=
  retainConnected_eq_self (ends_of_mem_dedup fun _ hedge => ends_of_mem_assemble hextracted hedge)

theorem build_eq (hextracted : ∀ e ∈ extractions, e.Extracted) :
    build extractions dependencies maxHops = (assemble extractions dependencies maxHops).dedup.1 :=
  congrArg Prod.fst (retainConnected_dedup hextracted dependencies maxHops)

/-! ## The graph of a project -/

/-- A graph holds all that was extracted and derived from dependencies: no identifier twice, the identifiers of the nodes
of all extractions, edges between these only, and the identifiers of the edges of the three sources in the order of first
occurrence. -/
structure IsComplete (extractions : List Extraction) (dependencies : List Dependency) (maxHops : Nat) (g : Graph) :
    Prop where
  nodup_nodeIds : g.nodeIds.Nodup
  nodup_edgeIds : g.edgeIds.Nodup
  mem_nodeIds : ∀ id, id ∈ g.nodeIds ↔ ∃ e ∈ extractions, id ∈ e.nodes.map (·.id)
  ends : ∀ edge ∈ g.edges, edge.source ∈ g.nodeIds ∧ edge.target ∈ g.nodeIds
  edgeIds : g.edgeIds = firstOccurrences ((extractions.flatMap (·.edges) ++
    dependencies.filterMap (dependencyEdge? extractions) ++
      transitiveEdges extractions dependencies maxHops).map (·.id))

/-- A graph is complete, whatever dependencies between the files are given, those that an analysis finds among them, and
no edge is removed for want of an end. -/
theorem build_is_complete (extractions : List Extraction) (hextracted : ∀ e ∈ extractions, e.Extracted)
    (dependencies : List Dependency) (maxHops : Nat) :
    IsComplete extractions dependencies maxHops (build extractions dependencies maxHops) ∧
      (assemble extractions dependencies maxHops).dedup.1.retainConnected =
        (build extractions dependencies maxHops, 0) := by
  rw [build_eq hextracted]
  refine ⟨⟨?_, ?_, fun id => ?_, ?_, edgeIds_dedup _⟩, retainConnected_dedup hextracted dependencies maxHops⟩
  · rw [nodeIds_dedup]
    exact nodup_firstOccurrences _
  · rw [edgeIds_dedup]
    exact nodup_firstOccurrences _
  · rw [mem_nodeIds_dedup]
    exact mem_nodeIds_assemble
  · exact ends_of_mem_dedup fun _ hedge => ends_of_mem_assemble hextracted hedge

/-- A module with a function that calls itself. -/
def selfCalling : SourceFile :=
  { path := "m.py", content := some "def f():\n  f()\n", entryPoint := false, hint := none, diskPath := none
    tree := some (.node ⟨"module", "", 0, 15, true, false, false, false⟩
      [.node ⟨"function_definition", "", 0, 14, true, false, false, false⟩
        [.node ⟨"identifier", "name", 4, 5, true, false, false, false⟩ [],
          .node ⟨"call", "body", 11, 14, true, false, false, false⟩
            [.node ⟨"identifier", "function", 11, 12, true, false, false, false⟩ []]]]) }

/-- The module has a node for the file and one for the function, and edges for the definition and for the call. -/
theorem extracted_selfCalling : ∃ e : Extraction, e.Extracted ∧ e.nodes.length = 2 ∧ e.edges.length = 2 := by
  refine ⟨_, ⟨.ofConfig {}, .empty, 0, selfCalling, "demo", none, rfl⟩, ?_, ?_⟩
  · decide +kernel
  · decide +kernel

/-- A file that is given twice. -/
theorem build_is_complete_twice :
    ∃ e : Extraction, (∀ e' ∈ [e, e], e'.Extracted) ∧ e.nodes.length = 2 ∧ e.edges.length = 2 ∧
      IsComplete [e, e] (Analysis.ofExtractions {} [e, e]).dependencies 2
        (build [e, e] (Analysis.ofExtractions {} [e, e]).dependencies 2) := by
  obtain ⟨e, hextracted, hnodes, hedges⟩ := extracted_selfCalling
  have hall : ∀ e' ∈ [e, e], e'.Extracted :=
    List.forall_mem_cons.mpr ⟨hextracted, List.forall_mem_singleton.mpr hextracted⟩
  exact ⟨e, hall, hnodes, hedges, (build_is_complete [e, e] hall _ 2).1⟩

end CodeAtlas.Graph
