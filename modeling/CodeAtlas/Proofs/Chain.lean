/-
  Chains: paths of so many steps along a relation.

  The distance of two elements is the length of a shortest chain between them.  What has a distance is reached over
  elements at all smaller distances (`IsDistance.exists_at`), each one step beyond the last
  (`IsDistance.exists_previous`).
-/
import Mathlib.Data.Nat.Find
import Mathlib.Logic.Relation

namespace CodeAtlas

variable {α : Type} {step : α → α → Prop} {a b c : α} {m n : Nat}

/-- A path of so many steps. -/
inductive Chain (step : α → α → Prop) (a : α) : Nat → α → Prop where
  | start : Chain step a 0 a
  | next {n : Nat} {b c : α} : Chain step a n b → step b c → Chain step a (n + 1) c

namespace Chain

theorem reaches (h : Chain step a n b) : Relation.ReflTransGen step a b := by
  induction h with
  | start => exact .refl
  | next _ hstep ih => exact ih.tail hstep

theorem eq_of_zero (h : Chain step a 0 b) : a = b := by
  cases h
  rfl

/-- A chain with one more step before it. -/
theorem before (h : Chain step b n c) (hstep : step a b) : Chain step a (n + 1) c := by
  induction h with
  | start => exact .next .start hstep
  | next _ hnext ih => exact .next ih hnext

theorem trans (h : Chain step a m b) (h' : Chain step b n c) : Chain step a (m + n) c := by
  induction h' with
  | start => exact h
  | next _ hstep ih => exact .next ih hstep

/-- A chain along a relation that can be gone both ways. -/
theorem symm (hstep : ∀ {a b}, step a b → step b a) (h : Chain step a n b) : Chain step b n a := by
  induction h with
  | start => exact .start
  | next _ hnext ih => exact ih.before (hstep hnext)

/-- A map that keeps steps keeps chains. -/
theorem map {β : Type} {step' : β → β → Prop} (f : α → β) (hstep : ∀ {a b}, step a b → step' (f a) (f b))
    (h : Chain step a n b) : Chain step' (f a) n (f b) := by
  induction h with
  | start => exact .start
  | next _ hnext ih => exact .next ih (hstep hnext)

/-- A chain that is not empty begins with a step. -/
theorem exists_first (h : Chain step a n b) (hn : n ≠ 0) : ∃ c, step a c := by
  induction h with
  | start => exact absurd rfl hn
  | @next n b c hchain hstep ih =>
    cases n with
    | zero => exact ⟨c, hchain.eq_of_zero ▸ hstep⟩
    | succ n => exact ih (Nat.succ_ne_zero n)

end Chain

/-- The length of a shortest chain. -/
structure IsDistance (step : α → α → Prop) (a : α) (n : Nat) (b : α) : Prop where
  chain : Chain step a n b
  least : ∀ m < n, ¬ Chain step a m b

namespace IsDistance

theorem unique (h : IsDistance step a n b) (h' : IsDistance step a m b) : n = m := by
  rcases Nat.lt_trichotomy n m with hlt | heq | hlt
  · exact absurd h.chain (h'.least n hlt)
  · exact heq
  · exact absurd h'.chain (h.least m hlt)

theorem le_of_chain (h : IsDistance step a n b) (hchain : Chain step a m b) : n ≤ m :=
  Nat.le_of_not_lt fun hlt => h.least m hlt hchain

/-- Nothing but the start is at distance zero. -/
theorem zero_iff : IsDistance step a 0 b ↔ b = a := by
  constructor
  · intro h
    exact h.chain.eq_of_zero.symm
  · rintro rfl
    exact ⟨.start, fun m hm => absurd hm (Nat.not_lt_zero m)⟩

theorem ne_of_pos (h : IsDistance step a n b) (hn : 0 < n) : a ≠ b := by
  rintro rfl
  exact h.least 0 hn .start

/-- What is at some distance is a step beyond something one step nearer. -/
theorem exists_previous (h : IsDistance step a (n + 1) c) : ∃ b, IsDistance step a n b ∧ step b c := by
  cases h.chain with
  | next hchain hstep =>
    exact ⟨_, ⟨hchain, fun m hm hshort => h.least (m + 1) (Nat.succ_lt_succ hm) (hshort.next hstep)⟩, hstep⟩

/-- On the way to what is at some distance lie elements at all smaller distances. -/
theorem exists_at (h : IsDistance step a n b) (hm : m ≤ n) : ∃ c, IsDistance step a m c := by
  induction n generalizing b with
  | zero => exact Nat.le_zero.mp hm ▸ ⟨b, h⟩
  | succ n ih =>
    rcases Nat.lt_or_eq_of_le hm with hlt | rfl
    · obtain ⟨c, hc, -⟩ := h.exists_previous
      exact ih hc (Nat.le_of_lt_succ hlt)
    · exact ⟨b, h⟩

end IsDistance

theorem Chain.exists_isDistance (h : Chain step a n b) : ∃ m ≤ n, IsDistance step a m b := by
  classical
  have hex : ∃ m, Chain step a m b := ⟨n, h⟩
  exact ⟨Nat.find hex, Nat.find_min' hex h, Nat.find_spec hex, fun m hm => Nat.find_min hex hm⟩

end CodeAtlas
