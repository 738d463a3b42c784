/-
  What is left of nodes and edges when repetitions are removed.

  Nodes and edges are both merged by key: an element whose key is known is absorbed by the one that is kept, any other is
  appended (`keep`).  The result has one element for each key, in the order of first occurrence, and that one is made of
  the elements with its key alone (`foldl_keep`).  So it is decided, key by key, by the elements with that key and their
  order (`mem_foldl_keep`).
-/
import CodeAtlas.Proofs.Dependency
import Mathlib.Data.List.Induction

namespace CodeAtlas

theorem firstOccurrences_concat {α : Type} [BEq α] [LawfulBEq α] (l : List α) (a : α) :
    firstOccurrences (l ++ [a]) = if a ∈ l then firstOccurrences l else firstOccurrences l ++ [a] := by
  have hstep : firstOccurrences (l ++ [a]) =
      if (firstOccurrences l).contains a then firstOccurrences l else firstOccurrences l ++ [a] := by
    unfold firstOccurrences
    rw [List.foldl_append]
    rfl
  rw [hstep]
  simp only [List.contains_iff_mem, mem_firstOccurrences]

namespace Graph

/-! ## Merging by key -/

section Keyed

variable {α : Type} (key : α → String) (absorb : α → α → α)

/-- The elements that are kept after one more: the one with its key absorbs it, or it is appended. -/
def keep (kept : List α) (a : α) : List α :=
  if kept.any fun k => key k == key a then kept.map fun k => if key k == key a then absorb k a else k else kept ++ [a]

/-- The first of some elements with the others absorbed in their order. -/
def absorbed? : List α → Option α
  | [] => none
  | a :: rest => some (rest.foldl absorb a)

variable {key absorb}

theorem absorbed?_concat (l : List α) (a : α) :
    absorbed? absorb (l ++ [a]) = some (match absorbed? absorb l with
      | none => a
      | some k => absorb k a) := by
  cases l with
  | nil => rfl
  | cons b l =>
    show some ((l ++ [a]).foldl absorb b) = some (absorb (l.foldl absorb b) a)
    rw [List.foldl_append]
    rfl

theorem key_absorbed? (hkey : ∀ a b, key (absorb a b) = key a) {k : String} {l : List α} {m : α}
    (hl : ∀ a ∈ l, key a = k) (h : absorbed? absorb l = some m) : key m = k := by
  cases l with
  | nil => cases h
  | cons a l =>
    have hfold : ∀ (rest : List α) (b : α), key (rest.foldl absorb b) = key b := by
      intro rest
      induction rest with
      | nil => exact fun _ => rfl
      | cons c rest ih => exact fun b => (ih (absorb b c)).trans (hkey b c)
    rw [← Option.some.inj h, hfold]
    exact hl a List.mem_cons_self

/-- What the elements with one key come to. -/
theorem key_of_class (hkey : ∀ a b, key (absorb a b) = key a) {l : List α} {k : String} {m : α}
    (h : absorbed? absorb (l.filter fun a => key a == k) = some m) : key m = k :=
  key_absorbed? hkey (fun a ha => by simpa using (List.mem_filter.mp ha).2) h

variable (absorb) in
theorem isSome_class {l : List α} {k : String} (h : k ∈ l.map key) :
    ∃ m, absorbed? absorb (l.filter fun a => key a == k) = some m := by
  obtain ⟨a, ha, hk⟩ := List.mem_map.mp h
  cases hclass : l.filter fun a => key a == k with
  | nil => exact absurd (beq_iff_eq.mpr hk) (List.filter_eq_nil_iff.mp hclass a ha)
  | cons b rest => exact ⟨_, rfl⟩

/-- One more element adds to the class of its key alone. -/
theorem class_concat (l : List α) (a : α) (k : String) :
    absorbed? absorb ((l ++ [a]).filter fun b => key b == k) =
      if key a = k then some (match absorbed? absorb (l.filter fun b => key b == k) with
        | none => a
        | some m => absorb m a)
      else absorbed? absorb (l.filter fun b => key b == k) := by
  rw [List.filter_append]
  by_cases hk : key a = k
  · rw [if_pos hk, List.filter_singleton, beq_iff_eq.mpr hk]
    exact absorbed?_concat _ _
  · rw [if_neg hk, List.filter_singleton, beq_eq_false_iff_ne.mpr hk]
    exact congrArg _ (List.append_nil _)

/-- Merging leaves one element for each key, in the order of first occurrence, made of the elements with that key. -/
theorem foldl_keep (hkey : ∀ a b, key (absorb a b) = key a) (l : List α) :
    l.foldl (keep key absorb) [] =
      (firstOccurrences (l.map key)).filterMap fun k => absorbed? absorb (l.filter fun a => key a == k) := by
  induction l using List.reverseRecOn with
  | nil => rfl
  | append_singleton l a ih =>
    rw [List.foldl_append, ih, List.map_append]
    show keep key absorb _ a = (firstOccurrences (l.map key ++ [key a])).filterMap _
    rw [firstOccurrences_concat]
    unfold keep
    by_cases ha : key a ∈ l.map key
    · have hany : ((firstOccurrences (l.map key)).filterMap fun k =>
          absorbed? absorb (l.filter fun b => key b == k)).any (fun k => key k == key a) = true := by
        obtain ⟨m, hm⟩ := isSome_class absorb ha
        rw [List.any_eq_true]
        exact ⟨m, List.mem_filterMap.mpr ⟨key a, mem_firstOccurrences.mpr ha, hm⟩,
          beq_iff_eq.mpr (key_of_class hkey hm)⟩
      rw [if_pos hany, if_pos ha, List.map_filterMap]
      refine List.filterMap_congr fun k _ => ?_
      rw [class_concat]
      cases hclass : absorbed? absorb (l.filter fun b => key b == k) with
      | none =>
        have hne : key a ≠ k := by
          rintro rfl
          obtain ⟨m, hm⟩ := isSome_class absorb ha
          rw [hclass] at hm
          cases hm
        rw [if_neg hne]
        rfl
      | some m =>
        have hm : key m = k := key_of_class hkey hclass
        rw [Option.map_some, hm]
        by_cases hk : key a = k
        · rw [if_pos hk, if_pos (beq_iff_eq.mpr hk.symm)]
        · rw [if_neg hk, if_neg fun h => hk (beq_iff_eq.mp h).symm]
    · have hany : ((firstOccurrences (l.map key)).filterMap fun k =>
          absorbed? absorb (l.filter fun b => key b == k)).any (fun k => key k == key a) = false := by
        rw [List.any_eq_false]
        intro m hm heq
        obtain ⟨k, hk, hclass⟩ := List.mem_filterMap.mp hm
        refine ha ?_
        rw [← beq_iff_eq.mp heq, key_of_class hkey hclass]
        exact mem_firstOccurrences.mp hk
      have hnone : l.filter (fun b => key b == key a) = [] :=
        List.filter_eq_nil_iff.mpr fun b hb heq => ha (List.mem_map.mpr ⟨b, hb, beq_iff_eq.mp heq⟩)
      rw [if_neg (by rw [hany]; exact Bool.false_ne_true), if_neg ha, List.filterMap_append]
      congr 1
      · refine List.filterMap_congr fun k hk => ?_
        rw [class_concat, if_neg]
        rintro rfl
        exact ha (mem_firstOccurrences.mp hk)
      · rw [List.filterMap_cons, class_concat, if_pos rfl, hnone]
        rfl

variable (key absorb) in
theorem map_key_foldl_keep (hkey : ∀ a b, key (absorb a b) = key a) (l : List α) :
    (l.foldl (keep key absorb) []).map key = firstOccurrences (l.map key) := by
  rw [foldl_keep hkey, List.map_filterMap]
  have hone : ∀ k ∈ firstOccurrences (l.map key),
      (absorbed? absorb (l.filter fun a => key a == k)).map key = some k := by
    intro k hk
    obtain ⟨m, hm⟩ := isSome_class absorb (mem_firstOccurrences.mp hk)
    rw [hm, Option.map_some, key_of_class hkey hm]
  rw [List.filterMap_congr hone]
  exact List.filterMap_some

variable (key absorb) in
/-- An element is left exactly when the elements with its key come to it. -/
theorem mem_foldl_keep (hkey : ∀ a b, key (absorb a b) = key a) {l : List α} {a : α} :
    a ∈ l.foldl (keep key absorb) [] ↔ absorbed? absorb (l.filter fun b => key b == key a) = some a := by
  rw [foldl_keep hkey, List.mem_filterMap]
  constructor
  · rintro ⟨k, -, hclass⟩
    rwa [key_of_class hkey hclass]
  · intro h
    refine ⟨key a, mem_firstOccurrences.mpr ?_, h⟩
    cases hclass : l.filter fun b => key b == key a with
    | nil =>
      rw [hclass] at h
      cases h
    | cons b rest =>
      obtain ⟨hb, hsame⟩ := List.mem_filter.mp (hclass ▸ List.mem_cons_self : b ∈ l.filter fun b => key b == key a)
      exact List.mem_map.mpr ⟨b, hb, beq_iff_eq.mp hsame⟩

end Keyed

/-! ## Nodes and edges -/

theorem firstEdges_eq (edges : List Edge) : firstEdges edges = edges.foldl (keep Edge.id fun kept _ => kept) [] := by
  unfold firstEdges
  congr 1
  funext kept e
  unfold keep
  split
  · rw [List.map_congr_left (g := id) fun k _ => ite_self k, List.map_id]
  · rfl

theorem map_id_mergeNodes (nodes : List Node) : (mergeNodes nodes).map (·.id) = firstOccurrences (nodes.map (·.id)) :=
  map_key_foldl_keep Node.id Graph.absorb (fun _ _ => rfl) nodes

theorem map_id_firstEdges (edges : List Edge) : (firstEdges edges).map (·.id) = firstOccurrences (edges.map (·.id)) := by
  rw [firstEdges_eq]
  exact map_key_foldl_keep Edge.id (fun kept _ => kept) (fun _ _ => rfl) edges

theorem nodup_mergeNodes (nodes : List Node) : (mergeNodes nodes).Nodup :=
  List.Nodup.of_map _ (map_id_mergeNodes nodes ▸ nodup_firstOccurrences _)

theorem nodup_firstEdges (edges : List Edge) : (firstEdges edges).Nodup :=
  List.Nodup.of_map _ (map_id_firstEdges edges ▸ nodup_firstOccurrences _)

theorem mem_mergeNodes {nodes : List Node} {n : Node} :
    n ∈ mergeNodes nodes ↔ absorbed? Graph.absorb (nodes.filter fun m => m.id == n.id) = some n :=
  mem_foldl_keep Node.id Graph.absorb fun _ _ => rfl

/-- The edges that are left are the first ones of their identifiers. -/
theorem mem_firstEdges {edges : List Edge} {e : Edge} :
    e ∈ firstEdges edges ↔ (edges.filter fun k => k.id == e.id).head? = some e := by
  rw [firstEdges_eq, mem_foldl_keep Edge.id (fun kept _ => kept) fun _ _ => rfl]
  cases edges.filter fun k => k.id == e.id with
  | nil => exact Iff.rfl
  | cons k rest =>
    have hfold : rest.foldl (fun kept (_ : Edge) => kept) k = k := by
      induction rest with
      | nil => rfl
      | cons _ _ ih => exact ih
    show some (rest.foldl (fun kept (_ : Edge) => kept) k) = some e ↔ _
    rw [hfold]
    rfl

end Graph

end CodeAtlas
