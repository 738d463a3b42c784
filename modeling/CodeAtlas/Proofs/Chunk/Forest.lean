/-
  Forests and the sets they stand for.

  `top` follows the pointers without changing them.  A lookup returns the top and leaves all tops alone (`top_find`), a
  union moves those with the greater of two tops to the smaller one (`top_union`).  So after some unions two numbers have
  one top exactly when united pairs lead from one to the other (`top_unite_eq_iff`), and the groups of a forest are the
  sets of one top, in the order of their tops, which are their least members (`groups_eq`).

  The pointers as they are stored never lead upward in a forest that lookups and unions made (`Reached.descends`).  There
  the loop of a lookup comes to its end (`Descends.lookup`).
-/
import CodeAtlas.Chunk.Forest
import CodeAtlas.Proofs.Chain
import CodeAtlas.Proofs.Increasing
import Mathlib.Data.List.Induction

namespace CodeAtlas.Forest

variable {f : Forest} {i j k a b target : Nat}

/-! ## Tops -/

/-- The root above a number. -/
def top (f : Forest) (i : Nat) : Nat :=
  if f.parent i = i then i else top f (f.parent i)
termination_by i
decreasing_by
  have h := f.parent_le i
  omega

theorem top_of_root (h : f.parent i = i) : f.top i = i := by
  rw [top, if_pos h]

theorem top_parent (f : Forest) (i : Nat) : f.top (f.parent i) = f.top i := by
  by_cases h : f.parent i = i
  · rw [h]
  · rw [top.eq_1 f i, if_neg h]

theorem top_le (f : Forest) (i : Nat) : f.top i ≤ i := by
  induction i using Nat.strongRecOn with
  | ind i ih =>
    by_cases h : f.parent i = i
    · rw [top_of_root h]
    · have hlt : f.parent i < i := Nat.lt_of_le_of_ne (f.parent_le i) h
      rw [← top_parent]
      exact Nat.le_trans (ih _ hlt) (Nat.le_of_lt hlt)

theorem parent_top (f : Forest) (i : Nat) : f.parent (f.top i) = f.top i := by
  induction i using Nat.strongRecOn with
  | ind i ih =>
    by_cases h : f.parent i = i
    · rw [top_of_root h, h]
    · rw [← top_parent]
      exact ih _ (Nat.lt_of_le_of_ne (f.parent_le i) h)

@[simp] theorem top_top (f : Forest) (i : Nat) : f.top (f.top i) = f.top i :=
  top_of_root (f.parent_top i)

theorem top_eq_self_iff : f.top i = i ↔ f.parent i = i := by
  constructor
  · intro h
    rw [← h]
    exact f.parent_top i
  · exact top_of_root

/-! ## Changing a pointer -/

@[simp] theorem length_redirect : (f.redirect i target).parents.length = f.parents.length :=
  List.length_set

theorem parent_redirect_self (hi : i < f.parents.length) (ht : target ≤ i) : (f.redirect i target).parent i = target := by
  unfold parent redirect
  rw [List.getD_eq_getElem?_getD, List.getElem?_set_self hi, Option.getD_some, Nat.min_eq_left ht]

theorem parent_redirect_of_ne (h : k ≠ i) : (f.redirect i target).parent k = f.parent k := by
  unfold parent redirect
  rw [List.getD_eq_getElem?_getD, List.getElem?_set_ne (Ne.symm h), ← List.getD_eq_getElem?_getD]

/-- A number redirected to a smaller one of its set keeps its top, and so do all others. -/
theorem top_redirect_within (hi : i < f.parents.length) (ht : target < i) (htop : f.top target = f.top i) (k : Nat) :
    (f.redirect i target).top k = f.top k := by
  induction k using Nat.strongRecOn with
  | ind k ih =>
    rw [← top_parent (f.redirect i target) k]
    by_cases hk : k = i
    · subst hk
      rw [parent_redirect_self hi (Nat.le_of_lt ht), ih target ht, htop]
    · rw [parent_redirect_of_ne hk]
      by_cases hroot : f.parent k = k
      · rw [hroot]
        exact (top_of_root ((parent_redirect_of_ne hk).trans hroot)).trans (top_of_root hroot).symm
      · rw [ih _ (Nat.lt_of_le_of_ne (f.parent_le k) hroot), top_parent]

/-- A root redirected to a smaller root takes its set along. -/
theorem top_redirect_root (hi : i < f.parents.length) (ht : target < i) (hroot : f.parent i = i)
    (htarget : f.parent target = target) (k : Nat) :
    (f.redirect i target).top k = if f.top k = i then target else f.top k := by
  induction k using Nat.strongRecOn with
  | ind k ih =>
    by_cases hk : k = i
    · subst hk
      rw [← top_parent, parent_redirect_self hi (Nat.le_of_lt ht), ih target ht, top_of_root htarget,
        top_of_root hroot, if_pos rfl, if_neg (Nat.ne_of_lt ht)]
    · by_cases hself : f.parent k = k
      · rw [top_of_root hself, if_neg hk, top_of_root ((parent_redirect_of_ne hk).trans hself)]
      · rw [← top_parent, parent_redirect_of_ne hk, ih _ (Nat.lt_of_le_of_ne (f.parent_le k) hself), top_parent]

/-! ## Lookups and unions -/

theorem parent_parent_lt (h : f.parent i ≠ i) : f.parent (f.parent i) < i :=
  Nat.lt_of_le_of_lt (f.parent_le _) (Nat.lt_of_le_of_ne (f.parent_le i) h)

/-- Numbers outside the forest point to themselves. -/
theorem lt_length_of_parent_ne (h : f.parent i ≠ i) : i < f.parents.length := by
  by_contra hout
  refine h ?_
  unfold parent
  rw [List.getD_eq_getElem?_getD, List.getElem?_eq_none (Nat.le_of_not_lt hout), Option.getD_none, Nat.min_self]

/-- A lookup finds the top, keeps the size of the forest and leaves all tops alone. -/
theorem find_spec (f : Forest) (i : Nat) :
    (f.find i).2 = f.top i ∧ (f.find i).1.parents.length = f.parents.length ∧ ∀ k, (f.find i).1.top k = f.top k := by
  induction f, i using find.induct with
  | case1 f i hroot =>
    rw [find, if_pos hroot]
    exact ⟨(top_of_root hroot).symm, rfl, fun _ => rfl⟩
  | case2 f i hne ih =>
    have hi := lt_length_of_parent_ne hne
    have hlt := parent_parent_lt hne
    have htop : f.top (f.parent (f.parent i)) = f.top i := by rw [top_parent, top_parent]
    have hkeep := top_redirect_within hi hlt htop
    obtain ⟨hfound, hlength, htops⟩ := ih
    rw [find, if_neg hne]
    refine ⟨?_, ?_, fun k => ?_⟩
    · rw [hfound, hkeep, htop]
    · rw [hlength, length_redirect]
    · rw [htops, hkeep]

@[simp] theorem find_snd (f : Forest) (i : Nat) : (f.find i).2 = f.top i :=
  (f.find_spec i).1

@[simp] theorem length_find (f : Forest) (i : Nat) : (f.find i).1.parents.length = f.parents.length :=
  (f.find_spec i).2.1

@[simp] theorem top_find (f : Forest) (i k : Nat) : (f.find i).1.top k = f.top k :=
  (f.find_spec i).2.2 k

/-- The forest after a union, which begins with two lookups. -/
theorem union_eq (f : Forest) (a b : Nat) :
    f.union a b =
      let g := ((f.find a).1.find b).1
      if f.top a < f.top b then g.redirect (f.top b) (f.top a)
      else if f.top b < f.top a then g.redirect (f.top a) (f.top b) else g := by
  unfold union
  simp only [find_snd, top_find]

theorem length_union (f : Forest) (a b : Nat) : (f.union a b).parents.length = f.parents.length := by
  rw [union_eq]
  dsimp only
  split
  · rw [length_redirect, length_find, length_find]
  · split
    · rw [length_redirect, length_find, length_find]
    · rw [length_find, length_find]

/-- A union moves the numbers with the greater top to the smaller one. -/
theorem top_union (ha : a < f.parents.length) (hb : b < f.parents.length) (k : Nat) :
    (f.union a b).top k = if f.top k = max (f.top a) (f.top b) then min (f.top a) (f.top b) else f.top k := by
  have hlt (x : Nat) (hx : x < f.parents.length) : f.top x < ((f.find a).1.find b).1.parents.length := by
    rw [length_find, length_find]
    exact Nat.lt_of_le_of_lt (f.top_le x) hx
  have hroot (x : Nat) : ((f.find a).1.find b).1.parent (f.top x) = f.top x :=
    top_eq_self_iff.mp (by rw [top_find, top_find, top_top])
  rw [union_eq]
  dsimp only
  rcases Nat.lt_trichotomy (f.top a) (f.top b) with h | h | h
  · rw [if_pos h, top_redirect_root (hlt b hb) h (hroot b) (hroot a), top_find, top_find,
      Nat.max_eq_right (Nat.le_of_lt h), Nat.min_eq_left (Nat.le_of_lt h)]
  · rw [h, if_neg (Nat.lt_irrefl _), if_neg (Nat.lt_irrefl _), top_find, top_find, Nat.max_self, Nat.min_self]
    split
    · assumption
    · rfl
  · rw [if_neg (Nat.lt_asymm h), if_pos h, top_redirect_root (hlt a ha) h (hroot a) (hroot b), top_find, top_find,
      Nat.max_eq_left (Nat.le_of_lt h), Nat.min_eq_right (Nat.le_of_lt h)]

/-- After a union two numbers have one top if they had, or if theirs were the two tops that became one. -/
theorem top_union_eq_iff (ha : a < f.parents.length) (hb : b < f.parents.length) :
    (f.union a b).top i = (f.union a b).top j ↔
      f.top i = f.top j ∨ (f.top i = f.top a ∧ f.top j = f.top b) ∨ (f.top i = f.top b ∧ f.top j = f.top a) := by
  rw [top_union ha hb, top_union ha hb]
  split <;> split <;> omega

/-! ## Many unions -/

@[simp] theorem length_discrete (size : Nat) : (discrete size).parents.length = size :=
  List.length_range

theorem parent_discrete (size i : Nat) : (discrete size).parent i = i := by
  unfold parent discrete
  rw [List.getD_eq_getElem?_getD]
  by_cases h : i < size
  · rw [List.getElem?_range h, Option.getD_some, Nat.min_self]
  · rw [List.getElem?_eq_none (by rw [List.length_range]; omega), Option.getD_none, Nat.min_self]

@[simp] theorem top_discrete (size i : Nat) : (discrete size).top i = i :=
  top_of_root (parent_discrete size i)

/-- The forest after the unions of some pairs. -/
def unite (f : Forest) (pairs : List (Nat × Nat)) : Forest :=
  pairs.foldl (fun f pair => f.union pair.1 pair.2) f

theorem unite_concat (f : Forest) (pairs : List (Nat × Nat)) (pair : Nat × Nat) :
    f.unite (pairs ++ [pair]) = (f.unite pairs).union pair.1 pair.2 := by
  unfold unite
  rw [List.foldl_append]
  rfl

theorem length_unite (f : Forest) (pairs : List (Nat × Nat)) : (f.unite pairs).parents.length = f.parents.length := by
  induction pairs using List.reverseRecOn with
  | nil => rfl
  | append_singleton pairs pair ih => rw [unite_concat, length_union, ih]

/-- Two numbers have one top exactly when united pairs lead from one to the other. -/
theorem top_unite_eq_iff {size : Nat} {pairs : List (Nat × Nat)} (hpairs : ∀ p ∈ pairs, p.1 < size ∧ p.2 < size) :
    ((discrete size).unite pairs).top i = ((discrete size).unite pairs).top j ↔
      Relation.EqvGen (fun a b => (a, b) ∈ pairs) i j := by
  induction pairs using List.reverseRecOn generalizing i j with
  | nil =>
    show (discrete size).top i = (discrete size).top j ↔ _
    rw [top_discrete, top_discrete]
    constructor
    · rintro rfl
      exact .refl i
    · intro h
      induction h with
      | rel _ _ hmem => exact absurd hmem List.not_mem_nil
      | refl _ => rfl
      | symm _ _ _ ih => exact ih.symm
      | trans _ _ _ _ _ ih ih' => exact ih.trans ih'
  | append_singleton pairs pair ih =>
    obtain ⟨a, b⟩ := pair
    have hold := fun {i j : Nat} => ih (i := i) (j := j) fun p hp => hpairs p (List.mem_append_left _ hp)
    obtain ⟨ha, hb⟩ := hpairs (a, b) (List.mem_append_right _ (List.mem_singleton_self _))
    have hmono {i j : Nat} (h : Relation.EqvGen (fun a b => (a, b) ∈ pairs) i j) :
        Relation.EqvGen (fun x y => (x, y) ∈ pairs ++ [(a, b)]) i j :=
      h.mono fun x y hxy => List.mem_append_left _ hxy
    have hnew : Relation.EqvGen (fun x y => (x, y) ∈ pairs ++ [(a, b)]) a b :=
      .rel a b (List.mem_append_right _ (List.mem_singleton_self _))
    have hlength : ((discrete size).unite pairs).parents.length = size := by rw [length_unite, length_discrete]
    have hunion := fun {i j : Nat} => top_union_eq_iff (i := i) (j := j) (hlength.symm ▸ ha) (hlength.symm ▸ hb)
    rw [unite_concat]
    constructor
    · intro h
      rw [hunion, hold, hold, hold, hold, hold] at h
      rcases h with h | ⟨hi, hj⟩ | ⟨hi, hj⟩
      · exact hmono h
      · exact (hmono hi).trans _ _ _ (hnew.trans _ _ _ (hmono hj).symm)
      · exact (hmono hi).trans _ _ _ (hnew.symm.trans _ _ _ (hmono hj).symm)
    · intro h
      induction h with
      | rel x y hxy =>
        rw [hunion]
        rcases List.mem_append.mp hxy with hxy | hxy
        · exact Or.inl (hold.mpr (.rel x y hxy))
        · rw [List.mem_singleton, Prod.mk.injEq] at hxy
          obtain ⟨rfl, rfl⟩ := hxy
          exact Or.inr (Or.inl ⟨rfl, rfl⟩)
      | refl x => rfl
      | symm _ _ _ ih => exact ih.symm
      | trans _ _ _ _ _ ih ih' => exact ih.trans ih'

/-! ## Groups -/

/-- The tops below a bound with the numbers below it that have them. -/
def sets (f : Forest) (size : Nat) : List (Nat × List Nat) :=
  ((List.range size).filter fun r => f.top r = r).map fun r => (r, (List.range size).filter fun k => f.top k = r)

/-- One more number joins the set of its top, or opens a set of its own. -/
theorem addTo_sets (f : Forest) (size : Nat) : addTo (f.sets size) (f.top size) size = f.sets (size + 1) := by
  unfold sets
  rw [List.range_succ, List.filter_append]
  simp only [List.filter_append]
  by_cases hroot : f.top size = size
  · -- no smaller number has the new one as its top
    have hnone : (List.range size).filter (fun k => decide (f.top k = size)) = [] := by
      refine List.filter_eq_nil_iff.mpr fun k hk => ?_
      have hle := f.top_le k
      have hlt := List.mem_range.mp hk
      simpa using by omega
    have hany : (((List.range size).filter fun r => decide (f.top r = r)).map fun r =>
        (r, (List.range size).filter fun k => decide (f.top k = r))).any (fun g => g.1 == size) = false := by
      simp only [List.any_map, List.any_eq_false, List.mem_filter, List.mem_range]
      intro r hr
      simpa using by omega
    unfold addTo
    rw [hroot, hany, if_neg Bool.false_ne_true, List.map_append]
    simp only [hroot, hnone, decide_true, List.filter_cons_of_pos, List.filter_nil, List.map_cons, List.map_nil,
      List.nil_append]
    refine congrArg (· ++ _) (List.map_congr_left fun r hr => ?_)
    have hlt := List.mem_range.mp (List.mem_filter.mp hr).1
    rw [List.filter_cons_of_neg (by simpa [hroot] using by omega), List.filter_nil, List.append_nil]
  · have hlt : f.top size < size := Nat.lt_of_le_of_ne (f.top_le size) hroot
    have hany : (((List.range size).filter fun r => decide (f.top r = r)).map fun r =>
        (r, (List.range size).filter fun k => decide (f.top k = r))).any (fun g => g.1 == f.top size) = true := by
      rw [List.any_map, List.any_eq_true]
      exact ⟨f.top size, List.mem_filter.mpr ⟨List.mem_range.mpr hlt, by simp⟩, by simp⟩
    unfold addTo
    rw [hany, if_pos rfl, List.map_map, List.filter_cons_of_neg (by simpa using hroot), List.filter_nil, List.append_nil]
    refine List.map_congr_left fun r _ => ?_
    by_cases hr : r = f.top size
    · subst hr
      simp
    · simp [hr, Ne.symm hr]

/-- The forest and the groups after one more number. -/
def sort (s : Forest × List (Nat × List Nat)) (i : Nat) : Forest × List (Nat × List Nat) :=
  ((s.1.find i).1, addTo s.2 (s.1.find i).2 i)

/-- The lookups on the way change the forest but not its tops. -/
theorem exists_foldl_sort (f : Forest) (size : Nat) :
    ∃ g : Forest, g.top = f.top ∧ (List.range size).foldl sort (f, []) = (g, f.sets size) := by
  induction size with
  | zero => exact ⟨f, rfl, rfl⟩
  | succ n ih =>
    obtain ⟨g, htop, hfold⟩ := ih
    refine ⟨(g.find n).1, ?_, ?_⟩
    · funext k
      rw [top_find, htop]
    · rw [List.range_succ, List.foldl_append, hfold]
      show ((g.find n).1, addTo (f.sets n) (g.find n).2 n) = _
      rw [find_snd, htop, addTo_sets]

/-- The groups are the sets of one top. -/
theorem groups_eq (f : Forest) (size : Nat) : f.groups size = (f.sets size).map (·.2) := by
  obtain ⟨g, -, hfold⟩ := exists_foldl_sort f size
  show ((List.range size).foldl sort (f, [])).2.map (·.2) = _
  rw [hfold]

/-- Lists of the numbers below a bound: each number once, together with those that a relation links it to, in increasing
order, and the lists in the order of their first members. -/
structure ListsComponents (size : Nat) (related : Nat → Nat → Prop) (groups : List (List Nat)) : Prop where
  once : groups.flatten.Perm (List.range size)
  together : ∀ i j, i < size → j < size → ((∃ g ∈ groups, i ∈ g ∧ j ∈ g) ↔ Relation.EqvGen related i j)
  members : ∀ g ∈ groups, Increasing g
  firsts : ∃ firsts, groups.map List.head? = firsts.map some ∧ Increasing firsts

namespace ListsComponents

variable {size : Nat} {related : Nat → Nat → Prop} {groups : List (List Nat)} {g : List Nat}

/-- No list is empty. -/
theorem exists_mem (h : ListsComponents size related groups) (hg : g ∈ groups) : ∃ i, i ∈ g := by
  obtain ⟨firsts, hfirsts, -⟩ := h.firsts
  have hhead : g.head? ∈ firsts.map some := hfirsts ▸ List.mem_map_of_mem hg
  obtain ⟨i, -, hi⟩ := List.mem_map.mp hhead
  exact ⟨i, List.mem_of_mem_head? hi.symm⟩

theorem lt_of_mem (h : ListsComponents size related groups) (hg : g ∈ groups) (hi : i ∈ g) : i < size :=
  List.mem_range.mp (h.once.mem_iff.mp (List.mem_flatten.mpr ⟨g, hg, hi⟩))

end ListsComponents

theorem mem_groups {g : List Nat} {size : Nat} :
    g ∈ f.groups size ↔ ∃ r < size, f.top r = r ∧ g = (List.range size).filter fun k => f.top k = r := by
  rw [groups_eq, sets, List.map_map, List.mem_map]
  simp only [List.mem_filter, List.mem_range, decide_eq_true_eq, and_assoc]
  exact ⟨fun ⟨r, hr, htop, h⟩ => ⟨r, hr, htop, h.symm⟩, fun ⟨r, hr, htop, h⟩ => ⟨r, hr, htop, h.symm⟩⟩

theorem increasing_range (size : Nat) : Increasing (List.range size) :=
  List.pairwise_lt_range

/-- The least member of a set is its top. -/
theorem head?_set {r size : Nat} (hr : r < size) (htop : f.top r = r) :
    ((List.range size).filter fun k => f.top k = r).head? = some r := by
  cases h : (List.range size).filter fun k => f.top k = r with
  | nil =>
    have hmem : r ∈ (List.range size).filter fun k => f.top k = r :=
      List.mem_filter.mpr ⟨List.mem_range.mpr hr, decide_eq_true htop⟩
    rw [h] at hmem
    exact absurd hmem List.not_mem_nil
  | cons a l =>
    have hinc : Increasing (a :: l) := h ▸ (increasing_range size).filter _
    have hmem : r ∈ a :: l := h ▸ List.mem_filter.mpr ⟨List.mem_range.mpr hr, decide_eq_true htop⟩
    have ha : a ∈ (List.range size).filter fun k => f.top k = r := h ▸ List.mem_cons_self
    have hle : r ≤ a := of_decide_eq_true (List.mem_filter.mp ha).2 ▸ f.top_le a
    rw [List.head?_cons, Nat.le_antisymm (hinc.head_le hmem) hle]

/-- Two numbers are in one group exactly when they have one top. -/
theorem exists_group_iff {size : Nat} (hi : i < size) (hj : j < size) :
    (∃ g ∈ f.groups size, i ∈ g ∧ j ∈ g) ↔ f.top i = f.top j := by
  constructor
  · rintro ⟨g, hg, hgi, hgj⟩
    obtain ⟨r, -, -, rfl⟩ := mem_groups.mp hg
    exact (of_decide_eq_true (List.mem_filter.mp hgi).2).trans (of_decide_eq_true (List.mem_filter.mp hgj).2).symm
  · intro h
    refine ⟨_, mem_groups.mpr ⟨f.top i, Nat.lt_of_le_of_lt (f.top_le i) hi, f.top_top i, rfl⟩, ?_, ?_⟩
    · exact List.mem_filter.mpr ⟨List.mem_range.mpr hi, decide_eq_true rfl⟩
    · exact List.mem_filter.mpr ⟨List.mem_range.mpr hj, decide_eq_true h.symm⟩

theorem nodup_flatten_groups (f : Forest) (size : Nat) : (f.groups size).flatten.Nodup := by
  rw [List.nodup_flatten]
  constructor
  · intro g hg
    obtain ⟨r, -, -, rfl⟩ := mem_groups.mp hg
    exact ((increasing_range size).filter _).nodup
  · rw [groups_eq, sets, List.map_map, List.pairwise_map]
    refine ((increasing_range size).filter _).imp fun {r r'} hlt => ?_
    intro k hk hk'
    have h := of_decide_eq_true (List.mem_filter.mp hk).2
    have h' := of_decide_eq_true (List.mem_filter.mp hk').2
    exact absurd (h.symm.trans h') (Nat.ne_of_lt hlt)

/-- After the unions of some pairs the groups are the components of these pairs. -/
theorem listsComponents_groups {size : Nat} {pairs : List (Nat × Nat)} (hpairs : ∀ p ∈ pairs, p.1 < size ∧ p.2 < size) :
    ListsComponents size (fun a b => (a, b) ∈ pairs) (((discrete size).unite pairs).groups size) := by
  refine ⟨?_, fun i j hi hj => ?_, fun g hg => ?_, ?_⟩
  · refine (List.perm_ext_iff_of_nodup (nodup_flatten_groups _ size) List.nodup_range).mpr fun k => ?_
    rw [List.mem_flatten, List.mem_range]
    constructor
    · rintro ⟨g, hg, hk⟩
      obtain ⟨r, -, -, rfl⟩ := mem_groups.mp hg
      exact List.mem_range.mp (List.mem_filter.mp hk).1
    · intro hk
      obtain ⟨g, hg, hkg, -⟩ := (exists_group_iff hk hk).mpr rfl
      exact ⟨g, hg, hkg⟩
  · exact (exists_group_iff hi hj).trans (top_unite_eq_iff hpairs)
  · obtain ⟨r, -, -, rfl⟩ := mem_groups.mp hg
    exact (increasing_range size).filter _
  · refine ⟨(List.range size).filter fun r => ((discrete size).unite pairs).top r = r, ?_,
      (increasing_range size).filter _⟩
    rw [groups_eq, sets, List.map_map, List.map_map]
    refine List.map_congr_left fun r hr => ?_
    obtain ⟨hlt, htop⟩ := List.mem_filter.mp hr
    exact head?_set (List.mem_range.mp hlt) (of_decide_eq_true htop)

/-! ## The pointers as they are stored -/

/-- One turn of the loop of a lookup: the number does not point to itself, is redirected to what the number points to that
it points to, and the loop goes on there. -/
inductive Turn : Forest × Nat → Forest × Nat → Prop where
  | halve {f : Forest} {i p g : Nat} (pointer : f.parents[i]? = some p) (up : p ≠ i) (next : f.parents[p]? = some g) :
      Turn (f, i) (f.redirect i g, g)

/-- The forests that lookups and unions make. -/
inductive Reached (size : Nat) : Forest → Prop where
  | discrete : Reached size (discrete size)
  | find {f : Forest} {i : Nat} (h : Reached size f) (hi : i < size) : Reached size (f.find i).1
  | union {f : Forest} {a b : Nat} (h : Reached size f) (ha : a < size) (hb : b < size) : Reached size (f.union a b)

/-- A forest of a size in which no stored pointer leads upward. -/
structure Descends (size : Nat) (f : Forest) : Prop where
  length_eq : f.parents.length = size
  le_self : ∀ i p : Nat, f.parents[i]? = some p → p ≤ i

namespace Descends

variable {size : Nat}

theorem pointer (h : Descends size f) (hi : i < size) : f.parents[i]? = some (f.parent i) := by
  have hlt : i < f.parents.length := h.length_eq.symm ▸ hi
  have hle := h.le_self i _ (List.getElem?_eq_getElem hlt)
  unfold parent
  rw [List.getD_eq_getElem?_getD, List.getElem?_eq_getElem hlt, Option.getD_some, Nat.min_eq_left hle]

theorem redirect (h : Descends size f) (ht : target ≤ i) : Descends size (f.redirect i target) := by
  refine ⟨length_redirect.trans h.length_eq, fun k p hp => ?_⟩
  by_cases hk : i = k
  · subst hk
    have hlt := (List.getElem?_eq_some_iff.mp hp).1
    rw [length_redirect] at hlt
    unfold Forest.redirect at hp
    rw [List.getElem?_set_self hlt] at hp
    exact Option.some.inj hp ▸ ht
  · unfold Forest.redirect at hp
    rw [List.getElem?_set_ne hk] at hp
    exact h.le_self k p hp

theorem discrete (size : Nat) : Descends size (discrete size) := by
  refine ⟨length_discrete size, fun i p hp => ?_⟩
  obtain ⟨hlt, rfl⟩ := List.getElem?_eq_some_iff.mp hp
  exact Nat.le_of_eq (List.getElem_range hlt)

/-- The loop of a lookup ends, at the root that `find` gives and with the forest that `find` leaves. -/
theorem lookup (h : Descends size f) (hi : i < size) :
    ∃ turns, Chain Turn (f, i) turns (f.find i) ∧ (f.find i).1.parents[(f.find i).2]? = some (f.find i).2 := by
  induction f, i using find.induct with
  | case1 f i hroot =>
    rw [find, if_pos hroot]
    exact ⟨0, .start, by rw [h.pointer hi, hroot]⟩
  | case2 f i hne ih =>
    have hlt := parent_parent_lt hne
    have hparent : f.parent i < size := Nat.lt_of_le_of_lt (f.parent_le i) hi
    obtain ⟨turns, hchain, hend⟩ := ih (h.redirect (Nat.le_of_lt hlt)) (Nat.lt_trans hlt hi)
    rw [find, if_neg hne]
    exact ⟨turns + 1, hchain.before (.halve (h.pointer hi) hne (h.pointer hparent)), hend⟩

theorem find (h : Descends size f) (i : Nat) : Descends size (f.find i).1 := by
  induction f, i using find.induct with
  | case1 f i hroot => rwa [Forest.find, if_pos hroot]
  | case2 f i hne ih =>
    rw [Forest.find, if_neg hne]
    exact ih (h.redirect (Nat.le_of_lt (parent_parent_lt hne)))

theorem union (h : Descends size f) (a b : Nat) : Descends size (f.union a b) := by
  have hfind := (h.find a).find b
  rw [union_eq]
  dsimp only
  split
  · exact hfind.redirect (by omega)
  · split
    · exact hfind.redirect (by omega)
    · exact hfind

end Descends

theorem Reached.descends {size : Nat} (h : Reached size f) : Descends size f := by
  induction h with
  | discrete => exact .discrete size
  | find _ _ ih => exact ih.find _
  | union _ _ _ ih => exact ih.union _ _

end CodeAtlas.Forest
