/-
  Removing repetitions from a graph.

  The nodes with one identifier are merged into the first of them, which takes the greatest last line of them all and is
  exported when one of them is (`Node.mergedFrom_absorbed`); of the edges with one identifier the first one is kept.  Where
  no identifier is repeated nothing happens (`foldl_keep_of_nodup`), so that a second run changes nothing.

  One pass that notes in a table where the node with each identifier stands does the same (`Indexed.place`,
  `indexed_nodes`).  All of it is put together in `repetitions_are_removed`.
-/
import CodeAtlas.Proofs.Graph.Complete
import Mathlib.Logic.Function.Basic
import Mathlib.Order.Bounds.Basic

namespace CodeAtlas

theorem firstOccurrences_sublist {α : Type} [BEq α] [LawfulBEq α] (l : List α) : (firstOccurrences l).Sublist l := by
  induction l using List.reverseRecOn with
  | nil => exact List.Sublist.refl _
  | append_singleton l a ih =>
    rw [firstOccurrences_concat]
    split
    · exact ih.trans (List.sublist_append_left l [a])
    · exact ih.append_right [a]

/-! ## Merged nodes -/

namespace Node

/-- The node that some nodes are merged into: the first of them, up to the last line of them all, and exported when one of
them is. -/
structure MergedFrom (nodes : List Node) (n : Node) : Prop where
  first : ∃ first, nodes.head? = some first ∧ n = { first with endLine := n.endLine, isExported := n.isExported }
  endLine : IsGreatest {line | ∃ m ∈ nodes, m.endLine = line} n.endLine
  isExported : n.isExported = true ↔ ∃ m ∈ nodes, m.isExported = true

theorem mergedFrom_singleton (n : Node) : MergedFrom [n] n where
  first := ⟨n, rfl, rfl⟩
  endLine := by
    refine ⟨⟨n, List.mem_singleton_self n, rfl⟩, ?_⟩
    rintro _ ⟨m, hm, rfl⟩
    rw [List.mem_singleton.mp hm]
  isExported := by simp only [List.mem_singleton, exists_eq_left]

/-- One more node is merged in by being absorbed. -/
theorem MergedFrom.absorb {nodes : List Node} {n : Node} (h : n.MergedFrom nodes) (later : Node) :
    (Graph.absorb n later).MergedFrom (nodes ++ [later]) where
  first := by
    obtain ⟨first, hfirst, hn⟩ := h.first
    refine ⟨first, by rw [List.head?_append, hfirst]; rfl, ?_⟩
    conv_lhs => rw [hn]
    rfl
  endLine := by
    obtain ⟨⟨last, hlast, heq⟩, hbound⟩ := h.endLine
    show IsGreatest _ (max n.endLine later.endLine)
    constructor
    · rcases max_choice n.endLine later.endLine with hmax | hmax
      · exact ⟨last, List.mem_append_left _ hlast, heq.trans hmax.symm⟩
      · exact ⟨later, List.mem_append_right _ (List.mem_singleton_self later), hmax.symm⟩
    · rintro _ ⟨m, hm, rfl⟩
      rcases List.mem_append.mp hm with hm | hm
      · exact le_max_of_le_left (hbound ⟨m, hm, rfl⟩)
      · rw [List.mem_singleton.mp hm]
        exact le_max_right _ _
  isExported := by
    show (n.isExported || later.isExported) = true ↔ _
    rw [Bool.or_eq_true, h.isExported]
    simp only [List.mem_append, List.mem_singleton, or_and_right, exists_or, exists_eq_left]

/-- What a class of nodes comes to is merged from them. -/
theorem mergedFrom_absorbed {nodes : List Node} {n : Node} (h : Graph.absorbed? Graph.absorb nodes = some n) :
    n.MergedFrom nodes := by
  induction nodes using List.reverseRecOn generalizing n with
  | nil => cases h
  | append_singleton nodes later ih =>
    rw [Graph.absorbed?_concat] at h
    cases hclass : Graph.absorbed? Graph.absorb nodes with
    | none =>
      have hnil : nodes = [] := by
        cases nodes with
        | nil => rfl
        | cons _ _ => cases hclass
      rw [hclass] at h
      rw [hnil, ← Option.some.inj h]
      exact mergedFrom_singleton later
    | some k =>
      rw [hclass] at h
      rw [← Option.some.inj h]
      exact (ih hclass).absorb later

end Node

namespace Graph

theorem getElem?_concat_eq_some_iff {β : Type} {l : List β} {a b : β} {i : Nat} :
    (l ++ [a])[i]? = some b ↔ l[i]? = some b ∨ (i = l.length ∧ b = a) := by
  rcases Nat.lt_trichotomy i l.length with hlt | heq | hgt
  · rw [List.getElem?_append_left hlt]
    exact (or_iff_left fun h => absurd h.1 (Nat.ne_of_lt hlt)).symm
  · rw [heq, List.getElem?_concat_length, List.getElem?_eq_none (Nat.le_refl _), Option.some_inj]
    simp [eq_comm]
  · rw [List.getElem?_eq_none (by rw [List.length_append, List.length_singleton]; omega),
      List.getElem?_eq_none (Nat.le_of_lt hgt)]
    simp [Nat.ne_of_gt hgt]

/-! ## Keys that are not repeated -/

section Keyed

variable {α : Type} {key : α → String} {absorb : α → α → α}

theorem keep_of_notMem {kept : List α} {a : α} (h : key a ∉ kept.map key) : keep key absorb kept a = kept ++ [a] := by
  unfold keep
  refine if_neg fun hany => h ?_
  obtain ⟨k, hk, heq⟩ := List.any_eq_true.mp hany
  exact List.mem_map.mpr ⟨k, hk, beq_iff_eq.mp heq⟩

theorem keep_of_mem {kept : List α} {a : α} (h : key a ∈ kept.map key) :
    keep key absorb kept a = kept.map fun k => if key k == key a then absorb k a else k := by
  obtain ⟨k, hk, heq⟩ := List.mem_map.mp h
  have hany : (kept.any fun k => key k == key a) = true := List.any_eq_true.mpr ⟨k, hk, beq_iff_eq.mpr heq⟩
  exact if_pos hany

variable (key) in
/-- Where no key is repeated, everything is kept. -/
theorem foldl_keep_of_nodup {l : List α} (h : (l.map key).Nodup) : l.foldl (keep key absorb) [] = l := by
  induction l using List.reverseRecOn with
  | nil => rfl
  | append_singleton l a ih =>
    rw [List.map_append, List.nodup_append] at h
    obtain ⟨hl, -, hdisjoint⟩ := h
    have hnew : key a ∉ l.map key := fun hmem => hdisjoint _ hmem _ (List.mem_singleton_self _) rfl
    rw [List.foldl_append, ih hl]
    exact keep_of_notMem hnew

/-- Elements that absorb nothing are kept as they come. -/
theorem foldl_keep_sublist (l : List α) : (l.foldl (keep key fun kept _ => kept) []).Sublist l := by
  induction l using List.reverseRecOn with
  | nil => exact List.Sublist.refl _
  | append_singleton l a ih =>
    rw [List.foldl_append, List.foldl_cons, List.foldl_nil]
    by_cases h : key a ∈ (l.foldl (keep key fun kept _ => kept) []).map key
    · rw [keep_of_mem h]
      simp only [ite_self, List.map_id']
      exact ih.trans (List.sublist_append_left l [a])
    · rw [keep_of_notMem h]
      exact ih.append_right [a]

/-! ## One pass with a table -/

/-- The elements kept so far, and where the one with each key stands. -/
structure Indexed (α : Type) where
  table : String → Option Nat
  kept : List α

/-- The pass after one more element: the element that the table leads to absorbs it, or it is appended and entered. -/
def Indexed.place (key : α → String) (absorb : α → α → α) (s : Indexed α) (a : α) : Indexed α :=
  match s.table (key a) with
  | some i => { s with kept := s.kept.modify i fun k => absorb k a }
  | none => ⟨Function.update s.table (key a) (some s.kept.length), s.kept ++ [a]⟩

/-- The table leads to the elements with the keys. -/
def Indexed.Leads (key : α → String) (s : Indexed α) : Prop :=
  ∀ k i, s.table k = some i ↔ (s.kept.map key)[i]? = some k

namespace Indexed.Leads

variable {s : Indexed α} {a : α} (h : s.Leads key)

include h

theorem mem_iff {k : String} : k ∈ s.kept.map key ↔ ∃ i, s.table k = some i := by
  rw [List.mem_iff_getElem?]
  exact exists_congr fun i => (h k i).symm

/-- A key that is not in the table is entered at the end. -/
theorem append (hnew : s.table (key a) = none) :
    Leads key ⟨Function.update s.table (key a) (some s.kept.length), s.kept ++ [a]⟩ := by
  intro k i
  show Function.update s.table (key a) (some s.kept.length) k = some i ↔ ((s.kept ++ [a]).map key)[i]? = some k
  rw [Function.update_apply, List.map_append, List.map_singleton, getElem?_concat_eq_some_iff, List.length_map, ← h]
  by_cases hk : k = key a
  · rw [if_pos hk, hk, hnew, Option.some_inj]
    simp only [reduceCtorEq, false_or, and_true, eq_comm]
  · rw [if_neg hk]
    exact (or_iff_left fun hlast => hk hlast.2).symm

/-- What the table leads to is the one element that absorbs another one of its key. -/
theorem modify_eq {i : Nat} (hi : s.table (key a) = some i) :
    s.kept.modify i (fun k => absorb k a) = s.kept.map fun k => if key k == key a then absorb k a else k := by
  refine List.ext_getElem? fun j => ?_
  rw [List.getElem?_modify, List.getElem?_map]
  cases hj : s.kept[j]? with
  | none => rfl
  | some k =>
    have hplace : i = j ↔ key k = key a := by
      rw [← Option.some_inj, ← hi, h, List.getElem?_map, hj, Option.map_some, Option.some_inj]
    simp only [hplace, beq_iff_eq]
    rfl

/-- One more element goes where it belongs, and the table stays right. -/
theorem place (hkey : ∀ a b, key (absorb a b) = key a) (a : α) :
    (s.place key absorb a).kept = keep key absorb s.kept a ∧ (s.place key absorb a).Leads key := by
  unfold Indexed.place
  cases hi : s.table (key a) with
  | none =>
    have hnew : key a ∉ s.kept.map key := fun hmem => by
      obtain ⟨i, hsome⟩ := h.mem_iff.mp hmem
      rw [hi] at hsome
      cases hsome
    exact ⟨(keep_of_notMem hnew).symm, h.append hi⟩
  | some i =>
    have hkept : s.kept.modify i (fun k => absorb k a) = _ := h.modify_eq hi
    refine ⟨hkept.trans (keep_of_mem (h.mem_iff.mpr ⟨i, hi⟩)).symm, fun k j => ?_⟩
    -- whatever is absorbed, the keys stay as they are
    have hkeys : (s.kept.modify i fun k => absorb k a).map key = s.kept.map key := by
      rw [hkept, List.map_map]
      refine List.map_congr_left fun k _ => ?_
      show key (if key k == key a then absorb k a else k) = key k
      split
      · exact hkey k a
      · rfl
    show s.table k = some j ↔ ((s.kept.modify i fun k => absorb k a).map key)[j]? = some k
    rw [hkeys, h]

end Indexed.Leads

variable (key absorb) in
/-- The pass over a list keeps what merging by key keeps. -/
theorem foldl_place (hkey : ∀ a b, key (absorb a b) = key a) (l : List α) :
    (l.foldl (Indexed.place key absorb) ⟨fun _ => none, []⟩).kept = l.foldl (keep key absorb) [] ∧
      (l.foldl (Indexed.place key absorb) ⟨fun _ => none, []⟩).Leads key := by
  induction l using List.reverseRecOn with
  | nil => exact ⟨rfl, fun k i => by simp⟩
  | append_singleton l a ih =>
    obtain ⟨hkept, hleads⟩ := ih
    rw [List.foldl_append, List.foldl_append, ← hkept]
    exact hleads.place hkey a

end Keyed

/-! ## Graphs -/

/-- A graph from which repetitions were removed, with the numbers of nodes and edges that were removed. -/
structure WithoutRepetitions (g result : Graph) (nodesRemoved edgesRemoved : Nat) : Prop where
  /-- The identifiers come in the order of first occurrence, each once. -/
  nodeIds : result.nodeIds = firstOccurrences g.nodeIds
  nodup_nodeIds : result.nodeIds.Nodup
  mem_nodeIds : ∀ id, id ∈ result.nodeIds ↔ id ∈ g.nodeIds
  nodes : ∀ n ∈ result.nodes, n.MergedFrom (g.nodes.filter fun m => m.id == n.id)
  edgeIds : result.edgeIds = firstOccurrences g.edgeIds
  nodup_edgeIds : result.edgeIds.Nodup
  edges_sublist : result.edges.Sublist g.edges
  edges : ∀ e ∈ result.edges, g.edges.find? (fun k => k.id == e.id) = some e
  nodes_length : result.nodes.length + nodesRemoved = g.nodes.length
  edges_length : result.edges.length + edgesRemoved = g.edges.length
  /-- One pass that notes the places of identifiers makes the same nodes. -/
  indexed : result.nodes = (g.nodes.foldl (Indexed.place Node.id absorb) ⟨fun _ => none, []⟩).kept

theorem length_nodes_dedup (g : Graph) : g.dedup.1.nodes.length ≤ g.nodes.length := by
  have h := (firstOccurrences_sublist g.nodeIds).length_le
  rwa [← nodeIds_dedup, nodeIds, nodeIds, List.length_map, List.length_map] at h

theorem edges_dedup_sublist (g : Graph) : g.dedup.1.edges.Sublist g.edges := by
  show (firstEdges g.edges).Sublist g.edges
  rw [firstEdges_eq]
  exact foldl_keep_sublist g.edges

/-- Where no identifier is repeated, there is nothing to remove. -/
theorem dedup_of_nodup {g : Graph} (hnodes : g.nodeIds.Nodup) (hedges : g.edgeIds.Nodup) : g.dedup = (g, 0, 0) := by
  have hmerge : mergeNodes g.nodes = g.nodes := foldl_keep_of_nodup Node.id hnodes
  have hfirst : firstEdges g.edges = g.edges := by
    rw [firstEdges_eq]
    exact foldl_keep_of_nodup Edge.id hedges
  unfold dedup
  dsimp only
  rw [hmerge, hfirst, Nat.sub_self, Nat.sub_self]

/-- Of a graph there remains one node for each identifier, in the order of first occurrence, merged from all nodes with the
identifier, and the first edge of each identifier, in order.  As many nodes and edges are removed as are said to be, no
identifier of a node is lost, and a second run removes nothing. -/
theorem repetitions_are_removed (g : Graph) :
    WithoutRepetitions g g.dedup.1 g.dedup.2.1 g.dedup.2.2 ∧ g.dedup.1.dedup = (g.dedup.1, 0, 0) := by
  have hnodes : g.dedup.1.nodeIds.Nodup := nodeIds_dedup g ▸ nodup_firstOccurrences _
  have hedges : g.dedup.1.edgeIds.Nodup := edgeIds_dedup g ▸ nodup_firstOccurrences _
  have hsublist := edges_dedup_sublist g
  refine ⟨?_, dedup_of_nodup hnodes hedges⟩
  exact
    { nodeIds := nodeIds_dedup g
      nodup_nodeIds := hnodes
      mem_nodeIds := fun _ => mem_nodeIds_dedup
      nodes := fun _ hn => Node.mergedFrom_absorbed (mem_mergeNodes.mp hn)
      edgeIds := edgeIds_dedup g
      nodup_edgeIds := hedges
      edges_sublist := hsublist
      edges := fun e he => by rw [← List.head?_filter]; exact mem_firstEdges.mp he
      nodes_length := Nat.add_sub_cancel' (length_nodes_dedup g)
      edges_length := Nat.add_sub_cancel' hsublist.length_le
      indexed := (foldl_place Node.id absorb (fun _ _ => rfl) g.nodes).1.symm }

end Graph

end CodeAtlas
