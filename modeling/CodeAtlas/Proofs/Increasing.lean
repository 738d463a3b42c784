/-
  Lists in increasing order.

  `sortedDistinct` sorts and drops repetitions, so its result is strictly increasing and has the members of its
  argument.  A strictly increasing list is determined by its members (`eq_of_increasing`), and what is found first in it is
  the least of all that could be found (`Increasing.find?_eq_some_iff`).
-/
import CodeAtlas.Resolve.Index
import Mathlib.Data.List.Sort
import Mathlib.Data.String.Basic

namespace CodeAtlas

section Order

variable {α : Type} [LinearOrder α]

/-- Each element is smaller than all that follow. -/
def Increasing (l : List α) : Prop :=
  l.Pairwise (· < ·)

theorem Increasing.nodup {l : List α} (h : Increasing l) : l.Nodup :=
  List.Pairwise.imp (fun hab => ne_of_lt hab) h

/-- The head of an increasing list is its least member. -/
theorem Increasing.head_le {a : α} {l : List α} (h : Increasing (a :: l)) {b : α} (hb : b ∈ a :: l) : a ≤ b := by
  rcases List.mem_cons.mp hb with rfl | hb
  · exact le_refl _
  · exact le_of_lt (List.rel_of_pairwise_cons h hb)

/-- Increasing lists with the same members are equal. -/
theorem eq_of_increasing {l l' : List α} (h : Increasing l) (h' : Increasing l') (hm : ∀ a, a ∈ l ↔ a ∈ l') :
    l = l' := by
  have hp : l.Perm l' := (List.perm_ext_iff_of_nodup h.nodup h'.nodup).mpr hm
  exact hp.eq_of_pairwise (fun a b _ _ hab hba => absurd hba (lt_asymm hab)) h h'

theorem Increasing.le_of_find? {l : List α} (h : Increasing l) {p : α → Bool} {a b : α} (hfound : l.find? p = some a)
    (hb : b ∈ l) (hpb : p b = true) : a ≤ b := by
  obtain ⟨-, before, after, rfl, hbefore⟩ := List.find?_eq_some_iff_append.mp hfound
  rcases List.mem_append.mp hb with hb | hb
  · have hnot := hbefore b hb
    rw [hpb] at hnot
    cases hnot
  · exact Increasing.head_le (List.pairwise_append.mp h).2.1 hb

/-- The first element with a property is the least one. -/
theorem Increasing.find?_eq_some_iff {l : List α} (h : Increasing l) {p : α → Bool} {a : α} :
    l.find? p = some a ↔ a ∈ l ∧ p a = true ∧ ∀ b ∈ l, p b = true → a ≤ b := by
  constructor
  · intro hfound
    exact ⟨List.mem_of_find?_eq_some hfound, List.find?_some hfound, fun b hb => h.le_of_find? hfound hb⟩
  · rintro ⟨hmem, ha, hleast⟩
    cases hfound : l.find? p with
    | none => exact absurd ha (List.find?_eq_none.mp hfound a hmem)
    | some b =>
      have hb : a ≤ b := hleast b (List.mem_of_find?_eq_some hfound) (List.find?_some hfound)
      exact congrArg some (le_antisymm (h.le_of_find? hfound hmem ha) hb)

end Order

/-! ## Dropping repetitions -/

theorem eraseReps_loop_eq (a : String) (l acc : List String) :
    List.eraseRepsBy.loop (· == ·) a l acc = acc.reverse ++ List.eraseRepsBy.loop (· == ·) a l [] := by
  induction l generalizing a acc with
  | nil => simp [List.eraseRepsBy.loop]
  | cons b l ih =>
    simp only [List.eraseRepsBy.loop]
    cases a == b with
    | true => exact ih a acc
    | false => rw [ih b (a :: acc), ih b [a], List.reverse_cons, List.append_assoc]; rfl

theorem eraseReps_cons_cons (a b : String) (l : List String) :
    (a :: b :: l).eraseReps = if a = b then (a :: l).eraseReps else a :: (b :: l).eraseReps := by
  simp only [List.eraseReps, List.eraseRepsBy, List.eraseRepsBy.loop]
  by_cases hab : a = b
  · simp [hab]
  · rw [if_neg hab, beq_false_of_ne hab]
    exact eraseReps_loop_eq b l [a]

theorem mem_eraseReps (a : String) (l : List String) : a ∈ l.eraseReps ↔ a ∈ l := by
  cases l with
  | nil => rfl
  | cons b l =>
    induction l generalizing b with
    | nil => rfl
    | cons c l ih =>
      rw [eraseReps_cons_cons]
      by_cases hbc : b = c
      · rw [if_pos hbc, ih b, ← hbc]
        simp
      · rw [if_neg hbc, List.mem_cons, ih c, List.mem_cons (a := a) (b := b)]

/-- Without its repetitions a sorted list increases strictly. -/
theorem increasing_eraseReps (l : List String) (h : l.Pairwise (· ≤ ·)) : Increasing l.eraseReps := by
  cases l with
  | nil => exact List.Pairwise.nil
  | cons b l =>
    induction l generalizing b with
    | nil => exact List.pairwise_singleton _ _
    | cons c l ih =>
      rw [eraseReps_cons_cons]
      obtain ⟨hb, hcl⟩ := List.pairwise_cons.mp h
      by_cases hbc : b = c
      · rw [if_pos hbc]
        exact ih b (hbc ▸ hcl)
      · rw [if_neg hbc]
        refine List.pairwise_cons.mpr ⟨?_, ih c hcl⟩
        intro x hx
        have hxl : x ∈ c :: l := (mem_eraseReps x _).mp hx
        have hlt : b < c := lt_of_le_of_ne (hb c (List.mem_cons_self ..)) hbc
        rcases List.mem_cons.mp hxl with rfl | hx
        · exact hlt
        · exact lt_of_lt_of_le hlt (List.rel_of_pairwise_cons hcl hx)

/-! ## Sorting -/

theorem mem_sortedDistinct {a : String} {l : List String} : a ∈ sortedDistinct l ↔ a ∈ l := by
  unfold sortedDistinct
  rw [mem_eraseReps, List.mem_mergeSort]

theorem increasing_sortedDistinct (l : List String) : Increasing (sortedDistinct l) := by
  apply increasing_eraseReps
  have h : (l.mergeSort fun a b => decide (a ≤ b)).Pairwise (fun a b => decide (a ≤ b) = true) :=
    List.pairwise_mergeSort
      (fun a b c hab hbc => by simpa using le_trans (of_decide_eq_true hab) (of_decide_eq_true hbc))
      (fun a b => by simpa using le_total a b) l
  exact h.imp fun hab => of_decide_eq_true hab

/-- Sorting without repetitions keeps nothing of a list but its members. -/
theorem sortedDistinct_congr {paths paths' : List String} (h : ∀ path, path ∈ paths ↔ path ∈ paths') :
    sortedDistinct paths = sortedDistinct paths' := by
  refine eq_of_increasing (increasing_sortedDistinct _) (increasing_sortedDistinct _) fun path => ?_
  rw [mem_sortedDistinct, mem_sortedDistinct, h]

end CodeAtlas
