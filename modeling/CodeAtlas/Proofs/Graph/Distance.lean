/-
  The edges of indirect dependencies.

  After so many rounds the search has found exactly the files up to that distance (`Explored`), so that it gives each
  file the length of a shortest chain of dependencies (`mem_distances`).  From there the `uses` edges are read off:
  one for each pair of files that both have a node and are at least two and at most the greatest number of imports
  apart, in the order of the pairs (`uses_edges_for_distant_files`).
-/
import CodeAtlas.Proofs.Chain
import CodeAtlas.Proofs.Graph.Order

namespace CodeAtlas.Graph

/-! ## Distances -/

section Spread

variable {arcs : List Cycle.Arc} {start : String} {distance : Nat} {frontier : List String} {known : List (String × Nat)}

/-- The state of a search from `start`: known are the files up to a distance, and at the frontier are those at that
distance. -/
structure Explored (arcs : List Cycle.Arc) (start : String) (distance : Nat) (frontier : List String)
    (known : List (String × Nat)) : Prop where
  mem_known : ∀ file d, (file, d) ∈ known ↔ IsDistance (Cycle.Step arcs) start d file ∧ d ≤ distance
  mem_frontier : ∀ file, file ∈ frontier ↔ IsDistance (Cycle.Step arcs) start distance file

theorem explored_start (arcs : List Cycle.Arc) (start : String) : Explored arcs start 0 [start] [(start, 0)] := by
  constructor
  · intro file d
    rw [List.mem_singleton, Prod.mk.injEq]
    constructor
    · rintro ⟨hfile, rfl⟩
      exact ⟨IsDistance.zero_iff.mpr hfile, Nat.le_refl 0⟩
    · rintro ⟨hdistance, hd⟩
      obtain rfl := Nat.le_zero.mp hd
      exact ⟨IsDistance.zero_iff.mp hdistance, rfl⟩
  · intro file
    rw [List.mem_singleton, IsDistance.zero_iff]

/-- What the frontier leads to and is not known yet is one step farther away. -/
theorem Explored.mem_next (h : Explored arcs start distance frontier known) {file : String} :
    file ∈ Cycle.unseen (known.map (·.1)) (frontier.flatMap (Cycle.successors arcs)) ↔
      IsDistance (Cycle.Step arcs) start (distance + 1) file := by
  rw [Cycle.mem_unseen, List.mem_flatMap]
  constructor
  · rintro ⟨⟨previous, hprevious, hstep⟩, hunknown⟩
    refine ⟨((h.mem_frontier previous).mp hprevious).chain.next (Cycle.mem_successors.mp hstep), fun m hm hshort => ?_⟩
    obtain ⟨d, hd, hdistance⟩ := hshort.exists_isDistance
    have hknown : (file, d) ∈ known :=
      (h.mem_known file d).mpr ⟨hdistance, Nat.le_of_lt_succ (Nat.lt_of_le_of_lt hd hm)⟩
    exact hunknown (List.mem_map_of_mem hknown)
  · intro hdistance
    obtain ⟨previous, hprevious, hstep⟩ := hdistance.exists_previous
    refine ⟨⟨previous, (h.mem_frontier previous).mpr hprevious, Cycle.mem_successors.mpr hstep⟩, fun hknown => ?_⟩
    obtain ⟨⟨file', d⟩, hmem, rfl⟩ := List.mem_map.mp hknown
    obtain ⟨hnear, hd⟩ := (h.mem_known file' d).mp hmem
    have hsame := hnear.unique hdistance
    omega

/-- One round takes the search one step farther. -/
theorem Explored.round (h : Explored arcs start distance frontier known) {next : List String}
    (hnext : Cycle.unseen (known.map (·.1)) (frontier.flatMap (Cycle.successors arcs)) = next) :
    Explored arcs start (distance + 1) next (known ++ next.map fun file => (file, distance + 1)) := by
  have hmem : ∀ file, file ∈ next ↔ IsDistance (Cycle.Step arcs) start (distance + 1) file :=
    fun file => hnext ▸ h.mem_next
  refine ⟨fun file d => ?_, hmem⟩
  rw [List.mem_append, h.mem_known, List.mem_map]
  constructor
  · rintro (⟨hdistance, hd⟩ | ⟨file', hfile, heq⟩)
    · exact ⟨hdistance, Nat.le_succ_of_le hd⟩
    · obtain ⟨rfl, rfl⟩ := Prod.mk.inj heq
      exact ⟨(hmem file').mp hfile, Nat.le_refl _⟩
  · rintro ⟨hdistance, hd⟩
    rcases Nat.lt_or_eq_of_le hd with hlt | rfl
    · exact Or.inl ⟨hdistance, Nat.le_of_lt_succ hlt⟩
    · exact Or.inr ⟨file, (hmem file).mpr hdistance, rfl⟩

/-- A search of so many more rounds finds the files up to so much greater a distance. -/
theorem Explored.mem_spread (h : Explored arcs start distance frontier known) (fuel : Nat) {file : String} {d : Nat} :
    (file, d) ∈ spread arcs fuel distance frontier known ↔
      IsDistance (Cycle.Step arcs) start d file ∧ d ≤ distance + fuel := by
  induction fuel generalizing distance frontier known with
  | zero => exact h.mem_known file d
  | succ fuel ih =>
    unfold spread
    split
    · -- nothing lies one step farther, and so nothing lies beyond
      rename_i hnil
      rw [h.mem_known]
      refine and_congr_right fun hdistance => ⟨fun hd => Nat.le_trans hd (Nat.le_add_right ..), fun _ => ?_⟩
      by_contra hfar
      obtain ⟨between, hbetween⟩ := hdistance.exists_at (Nat.succ_le_of_lt (Nat.lt_of_not_le hfar))
      exact List.not_mem_nil (hnil ▸ h.mem_next.mpr hbetween)
    · rw [ih (h.round rfl), Nat.add_right_comm, Nat.add_assoc]

/-- The search gives each file its distance, up to the greatest one. -/
theorem mem_distances {maxHops : Nat} {file : String} {d : Nat} :
    (file, d) ∈ distances arcs maxHops start ↔ IsDistance (Cycle.Step arcs) start d file ∧ d ≤ maxHops := by
  unfold distances
  rw [(explored_start arcs start).mem_spread, Nat.zero_add]

end Spread

/-! ## The nodes of files -/

variable {extractions : List Extraction} {dependencies : List Dependency} {maxHops : Nat}

/-- Some extraction of the file has the node of the file. -/
def HasFileNode (extractions : List Extraction) (path : String) : Prop :=
  ∃ e ∈ extractions, e.path = path ∧ e.fileNode?.isSome = true

/-- The node of a file: that of the last extraction of the file that has one. -/
def IsFileNode (extractions : List Extraction) (path : String) (node : Node) : Prop :=
  ∃ before e after, extractions = before ++ e :: after ∧ e.path = path ∧ e.fileNode? = some node ∧
    ∀ later ∈ after, later.path = path → later.fileNode? = none

theorem isSome_fileId?_iff {path : String} :
    (fileId? extractions path).isSome = true ↔ HasFileNode extractions path := by
  unfold fileId? HasFileNode
  rw [List.findSome?_isSome_iff]
  simp only [List.mem_filter, List.mem_reverse, beq_iff_eq, Option.isSome_map, and_assoc]

/-- What is looked up by path is the identifier of the node of the file. -/
theorem isFileNode_of_fileId? {path id : String} (h : fileId? extractions path = some id) :
    ∃ node, IsFileNode extractions path node ∧ id = node.id := by
  obtain ⟨passed, e, _, hfilter, hid, hpassed⟩ := List.findSome?_eq_some_iff.mp h
  obtain ⟨others, rest, hreverse, hothers, hrest⟩ := List.filter_eq_append_iff.mp hfilter
  obtain ⟨others', earlier, rfl, hothers', hpath, -⟩ := List.filter_eq_cons_iff.mp hrest
  obtain ⟨node, hnode, rfl⟩ := Option.map_eq_some_iff.mp hid
  refine ⟨node, ⟨earlier.reverse, e, (others ++ others').reverse, ?_, beq_iff_eq.mp hpath, hnode, ?_⟩, rfl⟩
  · rw [← List.reverse_reverse extractions, hreverse]
    simp
  · intro later hlater hsame
    have hnone : later ∈ passed := by
      rcases List.mem_append.mp (List.mem_reverse.mp hlater) with hmem | hmem
      · exact hothers ▸ List.mem_filter.mpr ⟨hmem, beq_iff_eq.mpr hsame⟩
      · exact absurd (beq_iff_eq.mpr hsame) (hothers' later hmem)
    exact Option.map_eq_none_iff.mp (hpassed later hnone)

/-! ## Pairs of distant files -/

/-- An internal dependency of one file on another. -/
def Imports (dependencies : List Dependency) (a b : String) : Prop :=
  a ≠ b ∧ ∃ d ∈ dependencies, d.external = false ∧ d.source = a ∧ d.target = b

theorem step_steps (dependencies : List Dependency) : Cycle.Step (steps dependencies) = Imports dependencies := by
  funext a b
  unfold Cycle.Step steps Analysis.arcs Imports
  rw [List.mem_filter, and_comm, List.mem_map, bne_iff_ne]
  simp only [List.mem_filter, Bool.not_eq_true', Prod.mk.injEq, and_assoc]

/-- The files at two imports or more from a file that have a node, with their distances, ordered by path. -/
def farFrom (extractions : List Extraction) (arcs : List Cycle.Arc) (maxHops : Nat) (start : String) :
    List (String × Nat) :=
  (((distances arcs maxHops start).filter fun r => 2 ≤ r.2).mergeSort fun a b => decide (a.1 ≤ b.1)).filter fun r =>
    (fileId? extractions start).isSome && (fileId? extractions r.1).isSome

/-- The pairs of files for which there is an edge, with their distances. -/
def distantPairs (extractions : List Extraction) (dependencies : List Dependency) (maxHops : Nat) :
    List (String × String × Nat) :=
  (sortedDistinct ((steps dependencies).map (·.1))).flatMap fun start =>
    (farFrom extractions (steps dependencies) maxHops start).map fun r => (start, r)

theorem mem_farFrom {arcs : List Cycle.Arc} {start file : String} {d : Nat} :
    (file, d) ∈ farFrom extractions arcs maxHops start ↔
      HasFileNode extractions start ∧ HasFileNode extractions file ∧
        IsDistance (Cycle.Step arcs) start d file ∧ 2 ≤ d ∧ d ≤ maxHops := by
  unfold farFrom
  rw [List.mem_filter, List.mem_mergeSort, List.mem_filter, mem_distances, Bool.and_eq_true, isSome_fileId?_iff,
    isSome_fileId?_iff, decide_eq_true_iff]
  tauto

/-- Rows with distinct keys are ordered strictly when they are sorted by key. -/
theorem pairwise_lt_mergeSort {rows : List (String × Nat)} (h : (rows.map (·.1)).Nodup) :
    (rows.mergeSort fun a b => decide (a.1 ≤ b.1)).Pairwise fun r r' => r.1 < r'.1 := by
  have hsorted : (rows.mergeSort fun a b => decide (a.1 ≤ b.1)).Pairwise fun a b => decide (a.1 ≤ b.1) = true :=
    List.pairwise_mergeSort (fun a b c hab hbc => decide_eq_true ((of_decide_eq_true hab).trans (of_decide_eq_true hbc)))
      (fun a b => by simpa using le_total a.1 b.1) rows
  have hdistinct := ((List.mergeSort_perm rows fun a b => decide (a.1 ≤ b.1)).map (·.1)).nodup_iff.mpr h
  exact (hsorted.and (List.pairwise_map.mp hdistinct)).imp fun h => lt_of_le_of_ne (of_decide_eq_true h.1) h.2

theorem increasing_farFrom (extractions : List Extraction) (arcs : List Cycle.Arc) (maxHops : Nat) (start : String) :
    (farFrom extractions arcs maxHops start).Pairwise fun r r' => r.1 < r'.1 := by
  have hnodup : ((distances arcs maxHops start).map (·.1)).Nodup := nodup_spread (List.nodup_singleton _)
  exact (pairwise_lt_mergeSort (hnodup.sublist (List.filter_sublist.map _))).filter _

theorem mem_distantPairs {s t : String} {d : Nat} :
    (s, t, d) ∈ distantPairs extractions dependencies maxHops ↔
      HasFileNode extractions s ∧ HasFileNode extractions t ∧
        IsDistance (Imports dependencies) s d t ∧ 2 ≤ d ∧ d ≤ maxHops := by
  unfold distantPairs
  rw [List.mem_flatMap, ← step_steps]
  constructor
  · rintro ⟨start, -, hmem⟩
    obtain ⟨r, hr, heq⟩ := List.mem_map.mp hmem
    obtain ⟨rfl, rfl⟩ := Prod.mk.inj heq
    exact mem_farFrom.mp hr
  · intro h
    obtain ⟨next, hfirst⟩ := h.2.2.1.chain.exists_first (by omega)
    exact ⟨s, mem_sortedDistinct.mpr (List.mem_map.mpr ⟨(s, next), hfirst, rfl⟩),
      List.mem_map_of_mem (mem_farFrom.mpr h)⟩

/-- The pairs are ordered by their first and then by their second file. -/
theorem increasing_distantPairs (extractions : List Extraction) (dependencies : List Dependency) (maxHops : Nat) :
    (distantPairs extractions dependencies maxHops).Pairwise fun r r' =>
      r.1 < r'.1 ∨ r.1 = r'.1 ∧ r.2.1 < r'.2.1 := by
  refine List.pairwise_flatMap.mpr ⟨fun start _ => ?_, (increasing_sortedDistinct _).imp fun {a b} hab r hr r' hr' => ?_⟩
  · rw [List.pairwise_map]
    exact (increasing_farFrom ..).imp fun h => Or.inr ⟨rfl, h⟩
  · obtain ⟨_, -, rfl⟩ := List.mem_map.mp hr
    obtain ⟨_, -, rfl⟩ := List.mem_map.mp hr'
    exact Or.inl hab

/-! ## Their edges -/

/-- An edge leads from the node of the first to the node of the second file of a pair, over their distance. -/
structure JoinsDistant (extractions : List Extraction) (pair : String × String × Nat) (edge : Edge) : Prop where
  source : ∃ node, IsFileNode extractions pair.1 node ∧ edge.source = node.id
  target : ∃ node, IsFileNode extractions pair.2.1 node ∧ edge.target = node.id
  relationship : edge.relationship = .uses
  hops : edge.hops = some pair.2.2
  weight : edge.weight = hopWeight pair.2.2

/-- The edge from a file to a distant one. -/
def usesEdge? (extractions : List Extraction) (start : String) (row : String × Nat) : Option Edge := do
  let source ← fileId? extractions start
  let target ← fileId? extractions row.1
  some { Edge.new source target .uses none with weight := hopWeight row.2, hops := some row.2 }

theorem joins_of_usesEdge? {start : String} {row : String × Nat} {edge : Edge}
    (h : usesEdge? extractions start row = some edge) : JoinsDistant extractions (start, row) edge := by
  obtain ⟨source, hsource, h⟩ := Option.bind_eq_some_iff.mp h
  obtain ⟨target, htarget, h⟩ := Option.bind_eq_some_iff.mp h
  rw [← Option.some.inj h]
  constructor
  · exact isFileNode_of_fileId? hsource
  · exact isFileNode_of_fileId? htarget
  · rfl
  · rfl
  · dsimp only

theorem isSome_usesEdge? (extractions : List Extraction) (start : String) (row : String × Nat) :
    (usesEdge? extractions start row).isSome =
      ((fileId? extractions start).isSome && (fileId? extractions row.1).isSome) := by
  unfold usesEdge?
  cases fileId? extractions start with
  | none => rfl
  | some source => cases fileId? extractions row.1 <;> rfl

theorem forall₂_usesEdges (arcs : List Cycle.Arc) (maxHops : Nat) (start : String) :
    List.Forall₂ (JoinsDistant extractions) ((farFrom extractions arcs maxHops start).map fun r => (start, r))
      (usesEdges extractions arcs maxHops start) := by
  rw [List.forall₂_map_left_iff]
  unfold farFrom
  simp only [← isSome_usesEdge?]
  exact forall₂_filter_isSome (fun _ _ => joins_of_usesEdge?) _

/-- There is one `uses` edge for each pair of files that both have a node and whose shortest chain of internal dependencies
has at least two and at most the greatest number of imports; it carries that number, and the edges are in the order of the
pairs. -/
theorem uses_edges_for_distant_files (extractions : List Extraction) (dependencies : List Dependency) (maxHops : Nat) :
    ∃ pairs : List (String × String × Nat),
      (pairs.Pairwise fun p q => p.1 < q.1 ∨ p.1 = q.1 ∧ p.2.1 < q.2.1) ∧
      (∀ s t d, (s, t, d) ∈ pairs ↔ s ≠ t ∧ HasFileNode extractions s ∧ HasFileNode extractions t ∧
        IsDistance (Imports dependencies) s d t ∧ 2 ≤ d ∧ d ≤ maxHops) ∧
      List.Forall₂ (JoinsDistant extractions) pairs (transitiveEdges extractions dependencies maxHops) ∧
      (maxHops < 2 → transitiveEdges extractions dependencies maxHops = []) := by
  have hmem : ∀ s t d, (s, t, d) ∈ distantPairs extractions dependencies maxHops ↔
      s ≠ t ∧ HasFileNode extractions s ∧ HasFileNode extractions t ∧
        IsDistance (Imports dependencies) s d t ∧ 2 ≤ d ∧ d ≤ maxHops := by
    intro s t d
    rw [mem_distantPairs]
    refine ⟨fun h => ⟨?_, h⟩, fun h => h.2⟩
    exact h.2.2.1.ne_of_pos (Nat.lt_of_lt_of_le Nat.two_pos h.2.2.2.1)
  refine ⟨_, increasing_distantPairs extractions dependencies maxHops, hmem, ?_, fun hfew => if_pos hfew⟩
  unfold transitiveEdges
  split
  · rename_i hfew
    have hnone : distantPairs extractions dependencies maxHops = [] := by
      rw [List.eq_nil_iff_forall_not_mem]
      rintro ⟨s, t, d⟩ h
      obtain ⟨-, -, -, -, hd, hd'⟩ := (hmem s t d).mp h
      omega
    rw [hnone]
    exact .nil
  · refine List.rel_flatMap (R := Eq) (List.forall₂_eq_eq_eq ▸ rfl) ?_
    rintro start _ rfl
    exact forall₂_usesEdges _ maxHops start

/-- Three files in a row: the first uses the last one over two imports, but not when one import is the limit. -/
theorem uses_edges_for_distant_files_row :
    let extractions := [Analysis.note "a", Analysis.note "b", Analysis.note "c"]
    let dependencies := [Dependency.importOn 1 "a" "b", .importOn 1 "b" "c"]
    (∃ edge ∈ transitiveEdges extractions dependencies 2, JoinsDistant extractions ("a", "c", 2) edge) ∧
      transitiveEdges extractions dependencies 1 = [] := by
  intro extractions dependencies
  have hab : Imports dependencies "a" "b" := ⟨by decide, .importOn 1 "a" "b", by simp [dependencies], rfl, rfl, rfl⟩
  have hbc : Imports dependencies "b" "c" := ⟨by decide, .importOn 1 "b" "c", by simp [dependencies], rfl, rfl, rfl⟩
  have hdistance : IsDistance (Imports dependencies) "a" 2 "c" := by
    refine ⟨(Chain.start.next hab).next hbc, fun m hm hshort => ?_⟩
    cases m with
    | zero => exact absurd hshort.eq_of_zero (by decide)
    | succ m =>
      obtain rfl : m = 0 := by omega
      cases hshort with
      | next hchain hstep =>
        obtain ⟨-, d, hd, -, hsource, htarget⟩ := hchain.eq_of_zero ▸ hstep
        rcases List.mem_pair.mp hd with rfl | rfl
        · exact absurd htarget (by decide)
        · exact absurd hsource (by decide)
  have hnode (path : String) (h : Analysis.note path ∈ extractions) : HasFileNode extractions path := ⟨_, h, rfl, rfl⟩
  obtain ⟨pairs, -, hmem, hedges, -⟩ := uses_edges_for_distant_files extractions dependencies 2
  have hpair : ("a", "c", 2) ∈ pairs :=
    (hmem "a" "c" 2).mpr ⟨by decide, hnode "a" (by simp [extractions]), hnode "c" (by simp [extractions]), hdistance,
      Nat.le_refl 2, Nat.le_refl 2⟩
  obtain ⟨-, -, -, -, hnone⟩ := uses_edges_for_distant_files extractions dependencies 1
  refine ⟨?_, hnone (by decide)⟩
  obtain ⟨i, hi, hget⟩ := List.mem_iff_getElem.mp hpair
  have hi' := hedges.length_eq ▸ hi
  exact ⟨_, List.getElem_mem hi', hget ▸ hedges.get hi hi'⟩

end CodeAtlas.Graph
