/-
  Maximal runs of elements with a property.

  A list is cut into its runs at the elements without the property: such an element between two lists keeps their runs
  apart (`runs_append`), and without one all of the list is a single run (`runs_of_forall`).  Every list is read run
  after run (`runs_induction`), and its runs are the stretches that cannot be extended on either side (`mem_runs_iff`).
-/
import CodeAtlas.Proofs.Text.Split
import Mathlib.Data.List.Basic
import Mathlib.Data.List.TakeWhile

namespace CodeAtlas.Text

variable {α : Type} {p : α → Bool} {l run : List α} {c : α}

/-- The maximal runs of elements that satisfy `p`. -/
def runs (p : α → Bool) (l : List α) : List (List α) :=
  (splitWhen (fun c => !p c) l).filter fun run => !run.isEmpty

theorem runs_nil (p : α → Bool) : runs p [] = [] :=
  rfl

theorem runs_of_forall (h : ∀ c ∈ run, p c = true) (hne : run ≠ []) : runs p run = [run] := by
  have hsplit : splitWhen (fun c => !p c) run = [run] := by
    rw [splitWhen_eq_splitOnP]
    exact List.splitOnP_eq_singleton fun c hc => by rw [h c hc]; rfl
  unfold runs
  rw [hsplit, List.filter_cons_of_pos (by simpa using hne), List.filter_nil]

/-- Runs end where an element does not satisfy `p`. -/
theorem runs_append (hc : p c = false) (front rest : List α) :
    runs p (front ++ c :: rest) = runs p front ++ runs p rest := by
  unfold runs
  rw [splitWhen_eq_splitOnP, splitWhen_eq_splitOnP, splitWhen_eq_splitOnP,
    List.splitOnP_append_cons front rest (by rw [hc]; rfl), List.filter_append]

/-- A list is a run, or a run in front of an element that ends it and another list. -/
theorem runs_induction {motive : List α → Prop} (last : ∀ run, (∀ c ∈ run, p c = true) → motive run)
    (next : ∀ run c rest, (∀ c ∈ run, p c = true) → p c = false → motive rest → motive (run ++ c :: rest))
    (l : List α) : motive l := by
  induction hlength : l.length using Nat.strongRecOn generalizing l with
  | _ n ih =>
    cases hrest : l.dropWhile p with
    | nil => exact last l (List.dropWhile_eq_nil_iff.mp hrest)
    | cons c rest =>
      have hl : l = l.takeWhile p ++ c :: rest := by rw [← hrest, List.takeWhile_append_dropWhile]
      have hc : p c = false := by
        have hhead := List.head?_dropWhile_not p l
        rw [hrest] at hhead
        exact hhead
      have hlt : rest.length < n := by
        have hsame := congrArg List.length hl
        rw [List.length_append, List.length_cons] at hsame
        omega
      rw [hl]
      exact next _ c rest (fun a ha => List.mem_takeWhile_imp ha) hc (ih _ hlt rest rfl)

/-- The runs are the stretches that satisfy `p` throughout and that neither neighbour extends. -/
theorem mem_runs_iff : run ∈ runs p l ↔ run ≠ [] ∧ (∀ c ∈ run, p c = true) ∧
    ∃ front back, l = front ++ run ++ back ∧ front.getLast?.any p = false ∧ back.head?.any p = false := by
  constructor
  · intro hrun
    induction l using runs_induction (p := p) with
    | last l h =>
      by_cases hne : l = []
      · rw [hne] at hrun
        cases hrun
      · rw [runs_of_forall h hne] at hrun
        rw [List.mem_singleton.mp hrun]
        exact ⟨hne, h, [], [], (List.append_nil l).symm, rfl, rfl⟩
    | next first c rest h hc ih =>
      rw [runs_append hc] at hrun
      rcases List.mem_append.mp hrun with hfirst | hrest
      · have hne : first ≠ [] := by
          rintro rfl
          cases hfirst
        rw [runs_of_forall h hne] at hfirst
        rw [List.mem_singleton.mp hfirst]
        exact ⟨hne, h, [], c :: rest, rfl, rfl, hc⟩
      · obtain ⟨hne, hall, front, back, rfl, hfront, hback⟩ := ih hrest
        refine ⟨hne, hall, first ++ c :: front, back, by simp only [List.append_assoc, List.cons_append], ?_, hback⟩
        rw [List.getLast?_append, List.getLast?_cons, Option.some_or]
        cases hlast : front.getLast? with
        | none => exact hc
        | some d => rwa [hlast] at hfront
  · rintro ⟨hne, hall, front, back, rfl, hfront, hback⟩
    have hfirst : run ∈ runs p (run ++ back) := by
      cases back with
      | nil => rw [List.append_nil, runs_of_forall hall hne]; exact List.mem_singleton_self run
      | cons c back =>
        rw [runs_append (show p c = false from hback), runs_of_forall hall hne]
        exact List.mem_append_left _ (List.mem_singleton_self run)
    rcases List.eq_nil_or_concat' front with rfl | ⟨front, c, rfl⟩
    · exact hfirst
    · rw [List.getLast?_concat] at hfront
      rw [List.append_assoc, List.append_assoc, List.singleton_append, runs_append (show p c = false from hfront)]
      exact List.mem_append_right _ hfirst

end CodeAtlas.Text
