/-
  The order in which files are given does not show in their graph.

  Nodes and edges with one identifier come from one file, as long as identifiers tell apart what they are made of
  (`TellsApart`), and within a file they keep their order (`nodes_of_perm`, `ownEdges_of_perm`, `dependencyEdges_of_perm`).
  The `uses` edges are sorted, and so are the same list (`transitiveEdges_of_perm`).
-/
import CodeAtlas.Proofs.Analysis.Order
import CodeAtlas.Proofs.Graph.Complete

namespace CodeAtlas

namespace Graph

open Analysis (listed)

/-! ## Indirect dependencies -/

section Spread

variable {arcs arcs' : List Cycle.Arc}

theorem unseen_of_mem {seen seen' l l' : List String} (hseen : ∀ a, a ∈ seen ↔ a ∈ seen') (hl : ∀ a, a ∈ l ↔ a ∈ l') :
    (Cycle.unseen seen l).Perm (Cycle.unseen seen' l') := by
  refine (List.perm_ext_iff_of_nodup (Cycle.nodup_unseen seen l) (Cycle.nodup_unseen seen' l')).mpr fun a => ?_
  rw [Cycle.mem_unseen, Cycle.mem_unseen, hseen, hl]

/-- The search finds the same files at the same distances along arcs in any order. -/
theorem spread_of_perm (harcs : ∀ e, e ∈ arcs ↔ e ∈ arcs') {fuel distance : Nat} {frontier frontier' : List String}
    {known known' : List (String × Nat)} (hfrontier : frontier.Perm frontier') (hknown : known.Perm known') :
    (spread arcs fuel distance frontier known).Perm (spread arcs' fuel distance frontier' known') := by
  induction fuel generalizing distance frontier frontier' known known' with
  | zero => exact hknown
  | succ fuel ih =>
    have hnext : (Cycle.unseen (known.map (·.1)) (frontier.flatMap (Cycle.successors arcs))).Perm
        (Cycle.unseen (known'.map (·.1)) (frontier'.flatMap (Cycle.successors arcs'))) := by
      refine unseen_of_mem (fun a => (hknown.map _).mem_iff) fun a => ?_
      rw [List.mem_flatMap, List.mem_flatMap]
      simp only [Cycle.mem_successors, Cycle.Step, harcs, hfrontier.mem_iff]
    unfold spread
    split
    · rename_i hnil
      rw [hnil] at hnext
      rw [hnext.nil_eq.symm]
      exact hknown
    · rename_i hcons
      split
      · rename_i hnil'
        exact absurd (List.perm_nil.mp (hnil' ▸ hnext)) hcons
      · exact ih hnext (hknown.append (hnext.map _))

/-- The search gives every file one distance. -/
theorem nodup_spread {fuel distance : Nat} {frontier : List String} {known : List (String × Nat)}
    (h : (known.map (·.1)).Nodup) : ((spread arcs fuel distance frontier known).map (·.1)).Nodup := by
  induction fuel generalizing distance frontier known with
  | zero => exact h
  | succ fuel ih =>
    unfold spread
    split
    · exact h
    · refine ih ?_
      rw [List.map_append, List.map_map]
      have hfirst : ((fun r : String × Nat => r.1) ∘ fun f => (f, distance + 1)) = id := rfl
      rw [hfirst, List.map_id]
      refine List.nodup_append.mpr ⟨h, Cycle.nodup_unseen _ _, fun a ha b hb hab => ?_⟩
      exact (Cycle.mem_unseen.mp hb).2 (hab ▸ ha)

theorem distances_of_perm (harcs : ∀ e, e ∈ arcs ↔ e ∈ arcs') (maxHops : Nat) (start : String) :
    (distances arcs maxHops start).Perm (distances arcs' maxHops start) :=
  spread_of_perm harcs (.refl _) (.refl _)

/-- Ordered by path, the distant files are one list. -/
theorem sorted_distances_of_perm (harcs : ∀ e, e ∈ arcs ↔ e ∈ arcs') (maxHops : Nat) (start : String) :
    ((distances arcs maxHops start).filter fun r => 2 ≤ r.2).mergeSort (fun a b => decide (a.1 ≤ b.1)) =
      ((distances arcs' maxHops start).filter fun r => 2 ≤ r.2).mergeSort fun a b => decide (a.1 ≤ b.1) := by
  refine mergeSort_of_perm (fun a b c hab hbc => ?_) (fun a b => ?_)
    ((distances_of_perm harcs maxHops start).filter _) fun a ha b hb hab hba => ?_
  · exact decide_eq_true ((of_decide_eq_true hab).trans (of_decide_eq_true hbc))
  · rw [Bool.or_eq_true, decide_eq_true_iff, decide_eq_true_iff]
    exact le_total a.1 b.1
  · have hnodup : ((distances arcs maxHops start).map (·.1)).Nodup := nodup_spread (List.nodup_singleton _)
    exact List.inj_on_of_nodup_map hnodup (List.mem_of_mem_filter ha) (List.mem_of_mem_filter hb)
      (le_antisymm (of_decide_eq_true hab) (of_decide_eq_true hba))

end Spread

/-! ## Files and edges -/

variable {extractions extractions' : List Extraction} {dependencies dependencies' : List Dependency} {maxHops : Nat}

theorem fileId?_of_perm (hperm : extractions.Perm extractions') (hpaths : (listed extractions).Nodup) :
    fileId? extractions = fileId? extractions' := by
  funext path
  unfold fileId?
  rw [List.filter_reverse, List.filter_reverse, filter_key_of_perm hperm hpaths]

theorem dependencyEdge?_congr (h : fileId? extractions = fileId? extractions') :
    dependencyEdge? extractions = dependencyEdge? extractions' := by
  funext d
  unfold dependencyEdge?
  rw [h]

theorem transitiveEdges_of_perm (hfiles : fileId? extractions = fileId? extractions')
    (hperm : dependencies.Perm dependencies') (maxHops : Nat) :
    transitiveEdges extractions dependencies maxHops = transitiveEdges extractions' dependencies' maxHops := by
  have hsteps : (steps dependencies).Perm (steps dependencies') := ((hperm.filter _).map _).filter _
  have hstarts : sortedDistinct ((steps dependencies).map (·.1)) = sortedDistinct ((steps dependencies').map (·.1)) :=
    sortedDistinct_congr fun _ => (hsteps.map _).mem_iff
  have huses : usesEdges extractions (steps dependencies) maxHops = usesEdges extractions' (steps dependencies') maxHops := by
    funext start
    unfold usesEdges
    dsimp only
    rw [sorted_distances_of_perm (fun _ => hsteps.mem_iff), hfiles]
  unfold transitiveEdges
  dsimp only
  rw [hstarts, huses]

/-! ## Identifiers that tell apart -/

/-- No two identifiers collide: nodes with the same identifier have the same name, category and path, and edges with the
same identifier have the same ends, relationship and place. -/
structure TellsApart (g : Graph) : Prop where
  nodes : ∀ m ∈ g.nodes, ∀ n ∈ g.nodes, m.id = n.id → m.name = n.name ∧ m.type = n.type ∧ m.path = n.path
  edges : ∀ a ∈ g.edges, ∀ b ∈ g.edges, a.id = b.id →
    a.source = b.source ∧ a.target = b.target ∧ a.relationship = b.relationship ∧ a.line = b.line ∧ a.column = b.column

/-- Where no identifier occurs twice, none collide. -/
theorem TellsApart.of_nodup {g : Graph} (hnodes : g.nodeIds.Nodup) (hedges : g.edgeIds.Nodup) : g.TellsApart := by
  constructor
  · intro m hm n hn h
    obtain rfl := List.inj_on_of_nodup_map hnodes hm hn h
    exact ⟨rfl, rfl, rfl⟩
  · intro a ha b hb h
    obtain rfl := List.inj_on_of_nodup_map hedges ha hb h
    exact ⟨rfl, rfl, rfl, rfl, rfl⟩

section Order

variable (hextracted : ∀ e ∈ extractions, e.Extracted) (hpaths : (listed extractions).Nodup)
  (hids : TellsApart (assemble extractions dependencies maxHops))

include hextracted hpaths hids

/-- The node of a file tells the file. -/
theorem eq_of_fileIdAt {e e' : Extraction} (he : e ∈ extractions) (he' : e' ∈ extractions)
    (h : Extraction.fileIdAt e.path = Extraction.fileIdAt e'.path) : e = e' := by
  obtain ⟨n, -, hn, hid⟩ := (hextracted e he).fileNode?_eq
  obtain ⟨n', -, hn', hid'⟩ := (hextracted e' he').fileNode?_eq
  have hsame := hids.nodes n (List.mem_flatMap.mpr ⟨e, he, hn⟩) n' (List.mem_flatMap.mpr ⟨e', he', hn'⟩)
    (hid.trans (h.trans hid'.symm))
  have hpath : e.path = e'.path := by
    rw [← ((hextracted e he).of_mem_nodes hn).1, ← ((hextracted e' he').of_mem_nodes hn').1]
    exact hsame.2.2
  exact List.inj_on_of_nodup_map hpaths he he' hpath

/-- The nodes with one identifier keep their order. -/
theorem nodes_of_perm (hperm : extractions.Perm extractions') (id : String) :
    (extractions.flatMap (·.nodes)).filter (fun n => n.id == id) =
      (extractions'.flatMap (·.nodes)).filter fun n => n.id == id := by
  refine filter_flatMap_of_perm hperm fun e he e' he' m hm n hn hmid hnid => ?_
  have hsame := hids.nodes m (List.mem_flatMap.mpr ⟨e, he, hm⟩) n (List.mem_flatMap.mpr ⟨e', he', hn⟩)
    ((beq_iff_eq.mp hmid).trans (beq_iff_eq.mp hnid).symm)
  refine List.inj_on_of_nodup_map hpaths he he' ?_
  show e.path = e'.path
  rw [← ((hextracted e he).of_mem_nodes hm).1, ← ((hextracted e' he').of_mem_nodes hn).1]
  exact hsame.2.2

/-- The edges inside files that have one identifier keep their order. -/
theorem ownEdges_of_perm (hperm : extractions.Perm extractions') (id : String) :
    (extractions.flatMap (·.edges)).filter (fun k => k.id == id) =
      (extractions'.flatMap (·.edges)).filter fun k => k.id == id := by
  refine filter_flatMap_of_perm hperm fun e he e' he' a ha b hb haid hbid => ?_
  have hsame := hids.edges a (List.mem_append_left _ (List.mem_append_left _ (List.mem_flatMap.mpr ⟨e, he, ha⟩)))
    b (List.mem_append_left _ (List.mem_append_left _ (List.mem_flatMap.mpr ⟨e', he', hb⟩)))
    ((beq_iff_eq.mp haid).trans (beq_iff_eq.mp hbid).symm)
  refine eq_of_fileIdAt hextracted hpaths hids he he' ?_
  rw [← ((hextracted e he).of_mem_edges ha).1, ← ((hextracted e' he').of_mem_edges hb).1]
  exact hsame.1

end Order

end Graph

/-! ## The order of files -/

namespace Analysis

open CodeAtlas.Graph (assemble build dependencyEdge? TellsApart)

variable {extractions extractions' : List Extraction} {maxHops : Nat} {config : AnalysisConfig}

theorem source_of_mem_dependenciesIn {e : Extraction} {d : Dependency} (h : d ∈ dependenciesIn extractions e) :
    d.source = e.path := by
  obtain ⟨d', hd', rfl⟩ := List.mem_map.mp h
  obtain ⟨i, -, hi⟩ := List.mem_filterMap.mp hd'
  have hsource : d'.source = e.path := by
    unfold dependency? at hi
    dsimp only at hi
    split at hi
    · rw [← Option.some.inj hi]
    · rw [← Option.some.inj hi]
    · cases hi
  unfold marked
  split
  · exact hsource
  · exact hsource

/-- The edge of a dependency leaves the node of the file that has the dependency. -/
theorem source_of_edge (hextracted : ∀ e ∈ extractions, e.Extracted) {e : Extraction} {d : Dependency} {edge : Edge}
    (hd : d ∈ dependenciesIn extractions e) (h : dependencyEdge? extractions d = some edge) :
    edge.source = Extraction.fileIdAt e.path := by
  obtain ⟨e', he', hpath, n, hn, hid⟩ := Graph.fileId?_eq_some (Graph.ends_of_dependencyEdge? h).1
  obtain ⟨n', hn', -, hid'⟩ := (hextracted e' he').fileNode?_eq
  rw [hn'] at hn
  rw [← hid, ← Option.some.inj hn, hid', hpath, source_of_mem_dependenciesIn hd]

/-- The edges of dependencies that have one identifier keep their order. -/
theorem dependencyEdges_of_perm (hextracted : ∀ e ∈ extractions, e.Extracted) (hpaths : (listed extractions).Nodup)
    (hids : TellsApart (assemble extractions (ofExtractions config extractions).dependencies maxHops))
    (hperm : extractions.Perm extractions') (id : String) :
    ((ofExtractions config extractions).dependencies.filterMap (dependencyEdge? extractions)).filter (fun k => k.id == id) =
      ((ofExtractions config extractions').dependencies.filterMap (dependencyEdge? extractions')).filter
        fun k => k.id == id := by
  rw [← Graph.dependencyEdge?_congr (Graph.fileId?_of_perm hperm hpaths), dependencies_eq, dependencies_eq,
    ← dependenciesIn_of_perm hperm hpaths, List.filterMap_flatMap, List.filterMap_flatMap]
  refine filter_flatMap_of_perm hperm fun e he e' he' a ha b hb haid hbid => ?_
  have hmem : ∀ e ∈ extractions, ∀ k ∈ (dependenciesIn extractions e).filterMap (dependencyEdge? extractions),
      k ∈ (assemble extractions (ofExtractions config extractions).dependencies maxHops).edges := by
    intro e he k hk
    refine List.mem_append_left _ (List.mem_append_right _ ?_)
    rw [dependencies_eq, List.filterMap_flatMap]
    exact List.mem_flatMap.mpr ⟨e, he, hk⟩
  have hsame := hids.edges a (hmem e he a ha) b (hmem e' he' b hb) ((beq_iff_eq.mp haid).trans (beq_iff_eq.mp hbid).symm)
  obtain ⟨d, hd, hda⟩ := List.mem_filterMap.mp ha
  obtain ⟨d', hd', hdb⟩ := List.mem_filterMap.mp hb
  refine Graph.eq_of_fileIdAt hextracted hpaths hids he he' ?_
  rw [← source_of_edge hextracted hd hda, ← source_of_edge hextracted hd' hdb]
  exact hsame.1

/-- The edges of the assembled graph that have one identifier are the same in both orders. -/
theorem edges_of_perm (hextracted : ∀ e ∈ extractions, e.Extracted) (hpaths : (listed extractions).Nodup)
    (hids : TellsApart (assemble extractions (ofExtractions config extractions).dependencies maxHops))
    (hperm : extractions.Perm extractions') (id : String) :
    (assemble extractions (ofExtractions config extractions).dependencies maxHops).edges.filter (fun k => k.id == id) =
      (assemble extractions' (ofExtractions config extractions').dependencies maxHops).edges.filter
        fun k => k.id == id := by
  unfold assemble
  dsimp only
  simp only [List.filter_append]
  rw [Graph.ownEdges_of_perm hextracted hpaths hids hperm, dependencyEdges_of_perm hextracted hpaths hids hperm,
    Graph.transitiveEdges_of_perm (Graph.fileId?_of_perm hperm hpaths) (dependencies_of_perm hperm hpaths config)]

/-- With identifiers that tell apart, both orders give the same nodes and the same edges. -/
theorem build_of_perm (hextracted : ∀ e ∈ extractions, e.Extracted) (hpaths : (listed extractions).Nodup)
    (hids : TellsApart (assemble extractions (ofExtractions config extractions).dependencies maxHops))
    (hperm : extractions.Perm extractions') :
    (build extractions (ofExtractions config extractions).dependencies maxHops).nodes.Perm
        (build extractions' (ofExtractions config extractions').dependencies maxHops).nodes ∧
      (build extractions (ofExtractions config extractions).dependencies maxHops).edges.Perm
        (build extractions' (ofExtractions config extractions').dependencies maxHops).edges := by
  have hextracted' : ∀ e ∈ extractions', e.Extracted := fun e he => hextracted e (hperm.mem_iff.mpr he)
  rw [Graph.build_eq hextracted, Graph.build_eq hextracted']
  constructor
  · refine (List.perm_ext_iff_of_nodup (Graph.nodup_mergeNodes _) (Graph.nodup_mergeNodes _)).mpr fun n => ?_
    rw [Graph.mem_mergeNodes, Graph.mem_mergeNodes]
    exact iff_of_eq (congrArg (fun l => Graph.absorbed? Graph.absorb l = some n)
      (Graph.nodes_of_perm hextracted hpaths hids hperm n.id))
  · refine (List.perm_ext_iff_of_nodup (Graph.nodup_firstEdges _) (Graph.nodup_firstEdges _)).mpr fun k => ?_
    rw [Graph.mem_firstEdges, Graph.mem_firstEdges, edges_of_perm hextracted hpaths hids hperm]

/-- Files with distinct paths are analysed alike in any order, and their graph has the same nodes and edges as long as
identifiers do not collide; flows are traced alike along dependencies in any order. -/
theorem file_order_does_not_show (config : AnalysisConfig) {extractions extractions' : List Extraction}
    (hperm : extractions.Perm extractions') (hpaths : (listed extractions).Nodup) :
    Alike (ofExtractions config extractions) (ofExtractions config extractions') ∧
    (∀ maxHops, (∀ e ∈ extractions, e.Extracted) →
      TellsApart (assemble extractions (ofExtractions config extractions).dependencies maxHops) →
      (build extractions (ofExtractions config extractions).dependencies maxHops).nodes.Perm
          (build extractions' (ofExtractions config extractions').dependencies maxHops).nodes ∧
        (build extractions (ofExtractions config extractions).dependencies maxHops).edges.Perm
          (build extractions' (ofExtractions config extractions').dependencies maxHops).edges) ∧
    ∀ (profiles : List FileProfile) (dependencies dependencies' : List Dependency), dependencies.Perm dependencies' →
      Flow.trace profiles dependencies config = Flow.trace profiles dependencies' config :=
  ⟨alike_of_perm config hperm hpaths, fun _ hextracted hids => build_of_perm hextracted hpaths hids hperm,
    fun profiles _ _ h => Flow.trace_of_perm profiles h config⟩

/-- The extraction of an empty file of unknown language. -/
def note (path : String) : Extraction :=
  .ofUnknown ⟨path, some "", false, none, none, none⟩ "" "demo" none

theorem extracted_note {path : String} (h : Language.ofPath? path = none) : (note path).Extracted := by
  refine ⟨.ofConfig {}, .empty, 0, ⟨path, some "", false, none, none, none⟩, "demo", none, ?_⟩
  unfold Extractor.extract Engine.language
  dsimp only [SourceFile.load, Option.none_or]
  rw [h]
  rfl

/-- Two notes in either order. -/
theorem file_order_does_not_show_notes :
    (listed [note "todo.txt", note "done.txt"]).Nodup ∧
      TellsApart (assemble [note "todo.txt", note "done.txt"]
        (ofExtractions {} [note "todo.txt", note "done.txt"]).dependencies 1) ∧
      Alike (ofExtractions {} [note "todo.txt", note "done.txt"]) (ofExtractions {} [note "done.txt", note "todo.txt"]) ∧
      (build [note "todo.txt", note "done.txt"]
          (ofExtractions {} [note "todo.txt", note "done.txt"]).dependencies 1).nodes.Perm
        (build [note "done.txt", note "todo.txt"]
          (ofExtractions {} [note "done.txt", note "todo.txt"]).dependencies 1).nodes := by
  have hpaths : (listed [note "todo.txt", note "done.txt"]).Nodup := by decide
  have hextracted : ∀ e ∈ [note "todo.txt", note "done.txt"], e.Extracted :=
    List.forall_mem_cons.mpr ⟨extracted_note (by decide), List.forall_mem_singleton.mpr (extracted_note (by decide))⟩
  have hids : TellsApart (assemble [note "todo.txt", note "done.txt"]
      (ofExtractions {} [note "todo.txt", note "done.txt"]).dependencies 1) := by
    have hdiffer : Extraction.fileIdAt "todo.txt" ≠ Extraction.fileIdAt "done.txt" := by decide +kernel
    rw [dependencies_eq]
    exact .of_nodup (List.nodup_cons.mpr ⟨fun h => hdiffer (List.mem_singleton.mp h), List.nodup_singleton _⟩) .nil
  obtain ⟨halike, hgraph, -⟩ := file_order_does_not_show {} (.swap ..) hpaths
  exact ⟨hpaths, hids, halike, (hgraph 1 hextracted hids).1⟩

end Analysis

end CodeAtlas
