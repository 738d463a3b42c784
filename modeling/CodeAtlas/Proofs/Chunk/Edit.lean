/-
  The edit distance counts edits.

  An edit inserts, deletes or substitutes one character.  One edit changes the count by at most one
  (`editCount_le_of_edit`), and there are so many edits from one text to the other (`chain_editCount`), so the count is the
  length of a shortest chain of edits (`isDistance_distance`).  That it is a metric follows from chains alone.  Its bounds
  are those of the similarity of two names.  The main result is `names_differ_by_fewest_edits`.
-/
import CodeAtlas.Proofs.Chain
import CodeAtlas.Proofs.Chunk.Similarity
import Mathlib.Algebra.Order.Field.Basic
import Mathlib.Algebra.Order.Field.Rat
import Mathlib.Data.List.Pairwise

namespace CodeAtlas

/-- One insertion, deletion or substitution of a character. -/
inductive Edit : List Char → List Char → Prop where
  | insert (front : List Char) (c : Char) (back : List Char) : Edit (front ++ back) (front ++ c :: back)
  | delete (front : List Char) (c : Char) (back : List Char) : Edit (front ++ c :: back) (front ++ back)
  | substitute (front : List Char) (c d : Char) (back : List Char) : Edit (front ++ c :: back) (front ++ d :: back)

namespace Edit

variable {a b : List Char}

theorem symm (h : Edit a b) : Edit b a := by
  cases h with
  | insert front c back => exact .delete front c back
  | delete front c back => exact .insert front c back
  | substitute front c d back => exact .substitute front d c back

theorem cons (x : Char) (h : Edit a b) : Edit (x :: a) (x :: b) := by
  cases h with
  | insert front c back => exact .insert (x :: front) c back
  | delete front c back => exact .delete (x :: front) c back
  | substitute front c d back => exact .substitute (x :: front) c d back

theorem reverse (h : Edit a b) : Edit a.reverse b.reverse := by
  cases h with
  | insert front c back => simpa using Edit.insert back.reverse c front.reverse
  | delete front c back => simpa using Edit.delete back.reverse c front.reverse
  | substitute front c d back => simpa using Edit.substitute back.reverse c d front.reverse

theorem length_le (h : Edit a b) : b.length ≤ a.length + 1 := by
  cases h <;> simp only [List.length_append, List.length_cons] <;> omega

end Edit

namespace EditDistance

variable {a b c : List Char}

/-! ## One edit -/

theorem editCount_cons_cons (x y : Char) (a b : List Char) :
    editCount (x :: a) (y :: b) =
      min (min (editCount a (y :: b) + 1) (editCount (x :: a) b + 1)) (editCount a b + if x = y then 0 else 1) := by
  rw [editCount]

theorem editCount_cons_le (x : Char) (a b : List Char) : editCount (x :: a) b ≤ editCount a b + 1 := by
  cases b with
  | nil => rw [editCount_nil_right, editCount_nil_right, List.length_cons]
  | cons y b =>
    rw [editCount_cons_cons]
    omega

theorem editCount_le_cons (x : Char) (a b : List Char) : editCount a b ≤ editCount (x :: a) b + 1 := by
  induction b with
  | nil =>
    rw [editCount_nil_right, editCount_nil_right, List.length_cons]
    omega
  | cons y b ih =>
    have hup := editCount_cons_le y b a
    rw [editCount_comm, editCount_comm b] at hup
    rw [editCount_cons_cons]
    omega

/-- Another first character changes the count by at most one. -/
theorem editCount_substitute_le (x z : Char) (a b : List Char) : editCount (x :: a) b ≤ editCount (z :: a) b + 1 := by
  induction b with
  | nil => rw [editCount_nil_right, editCount_nil_right, List.length_cons, List.length_cons]; omega
  | cons y b ih =>
    rw [editCount_cons_cons x, editCount_cons_cons z]
    split <;> split <;> omega

/-- What changes the counts of two texts by at most one does so behind one more character. -/
theorem editCount_cons_le_cons (h : ∀ c, editCount a c ≤ editCount b c + 1) (x : Char) (c : List Char) :
    editCount (x :: a) c ≤ editCount (x :: b) c + 1 := by
  induction c with
  | nil =>
    have hnil := h []
    rw [editCount_nil_right, editCount_nil_right] at hnil ⊢
    exact Nat.succ_le_succ hnil
  | cons y c ih =>
    have hup := h (y :: c)
    have hcorner := h c
    rw [editCount_cons_cons, editCount_cons_cons]
    omega

theorem editCount_append_le (h : ∀ c, editCount a c ≤ editCount b c + 1) (front c : List Char) :
    editCount (front ++ a) c ≤ editCount (front ++ b) c + 1 := by
  induction front generalizing c with
  | nil => exact h c
  | cons x front ih => exact editCount_cons_le_cons ih x c

/-- One edit changes the count by at most one. -/
theorem editCount_le_of_edit (h : Edit a b) (c : List Char) : editCount a c ≤ editCount b c + 1 := by
  cases h with
  | insert front x back => exact editCount_append_le (editCount_le_cons x back) front c
  | delete front x back => exact editCount_append_le (editCount_cons_le x back) front c
  | substitute front x y back => exact editCount_append_le (editCount_substitute_le x y back) front c

/-! ## Chains of edits -/

theorem editCount_self (a : List Char) : editCount a a = 0 := by
  induction a with
  | nil => rw [editCount_nil_left, List.length_nil]
  | cons x a ih => rw [editCount_cons_cons, if_pos rfl, ih, Nat.min_zero]

/-- No chain of edits is shorter than the count. -/
theorem editCount_le_of_chain {n : Nat} (h : Chain Edit a n b) : editCount a b ≤ n := by
  induction h with
  | start => exact Nat.le_of_eq (editCount_self a)
  | @next n b c _ hedit ih =>
    calc editCount a c
        = editCount c a := editCount_comm a c
      _ ≤ editCount b a + 1 := editCount_le_of_edit hedit.symm a
      _ ≤ n + 1 := by rw [editCount_comm]; exact Nat.succ_le_succ ih

/-- The count is the length of some chain of edits. -/
theorem chain_editCount (a b : List Char) : Chain Edit a (editCount a b) b := by
  induction a, b using editCount.induct with
  | case1 b =>
    rw [editCount_nil_left]
    induction b with
    | nil => exact .start
    | cons y b ih => exact .next ih (.insert [] y b)
  | case2 a hne =>
    clear hne
    rw [editCount_nil_right]
    induction a with
    | nil => exact .start
    | cons x a ih => exact ih.before (.delete [] x a)
  | case3 x a y b ihUp ihLeft ihCorner =>
    have hup : Chain Edit (x :: a) (editCount a (y :: b) + 1) (y :: b) := ihUp.before (.delete [] x a)
    have hleft : Chain Edit (x :: a) (editCount (x :: a) b + 1) (y :: b) := .next ihLeft (.insert [] y b)
    have hcorner : Chain Edit (x :: a) (editCount a b + if x = y then 0 else 1) (y :: b) := by
      have hkeep : Chain Edit (x :: a) (editCount a b) (x :: b) := ihCorner.map (x :: ·) (.cons x)
      split
      · rename_i hxy
        exact hxy ▸ hkeep
      · exact .next hkeep (.substitute [] x y b)
    rw [editCount_cons_cons]
    rcases min_choice (editCount a (y :: b) + 1) (editCount (x :: a) b + 1) with h | h <;> rw [h]
    · rcases min_choice (editCount a (y :: b) + 1) (editCount a b + if x = y then 0 else 1) with h | h <;> rw [h]
      · exact hup
      · exact hcorner
    · rcases min_choice (editCount (x :: a) b + 1) (editCount a b + if x = y then 0 else 1) with h | h <;> rw [h]
      · exact hleft
      · exact hcorner

/-- The cell of the last row and column is the length of a shortest chain of edits. -/
theorem isDistance_distance (a b : List Char) : IsDistance Edit a (distance a b) b := by
  have hreverse {n : Nat} {a b : List Char} (h : Chain Edit a n b) : Chain Edit a.reverse n b.reverse :=
    h.map List.reverse .reverse
  rw [distance_eq]
  constructor
  · have h := hreverse (chain_editCount a.reverse b.reverse)
    rwa [List.reverse_reverse, List.reverse_reverse] at h
  · intro m hm hshort
    exact absurd (editCount_le_of_chain (hreverse hshort)) (Nat.not_le_of_lt hm)

/-! ## Bounds -/

theorem length_le_of_chain {n : Nat} (h : Chain Edit a n b) : b.length ≤ a.length + n := by
  induction h with
  | start => exact Nat.le_add_right _ _
  | next _ hedit ih =>
    have hone := hedit.length_le
    omega

theorem editCount_le_max (a b : List Char) : editCount a b ≤ max a.length b.length := by
  induction a, b using editCount.induct with
  | case1 b => rw [editCount_nil_left]; exact Nat.le_max_right _ _
  | case2 a _ => rw [editCount_nil_right]; exact Nat.le_max_left _ _
  | case3 x a y b _ _ ihCorner =>
    rw [editCount_cons_cons, List.length_cons, List.length_cons]
    split <;> omega

/-- Texts without a common character are as far apart as possible. -/
theorem editCount_of_disjoint (h : a.Disjoint b) : editCount a b = max a.length b.length := by
  induction a, b using editCount.induct with
  | case1 b => rw [editCount_nil_left, List.length_nil, Nat.zero_max]
  | case2 a _ => rw [editCount_nil_right, List.length_nil, Nat.max_zero]
  | case3 x a y b ihUp ihLeft ihCorner =>
    obtain ⟨hx, hright⟩ := List.disjoint_cons_left.mp h
    obtain ⟨hy, hleft⟩ := List.disjoint_cons_right.mp h
    have hxy : x ≠ y := fun heq => hx (heq ▸ List.mem_cons_self)
    rw [editCount_cons_cons, if_neg hxy, ihUp hright, ihLeft hleft, ihCorner (List.disjoint_of_disjoint_cons_right hright),
      List.length_cons, List.length_cons]
    omega

end EditDistance

/-! ## Names -/

/-- A distance between texts. -/
structure IsMetric (d : String → String → Nat) : Prop where
  eq_zero_iff : ∀ a b, d a b = 0 ↔ a = b
  comm : ∀ a b, d a b = d b a
  triangle : ∀ a b c, d a c ≤ d a b + d b c

/-- A share from 0 to 1 that two texts have in common: all of it only if they are equal, nothing if they are equally long
without a common character. -/
structure IsSimilarity (s : String → String → Rat) : Prop where
  nonneg : ∀ a b, 0 ≤ s a b
  le_one : ∀ a b, s a b ≤ 1
  comm : ∀ a b, s a b = s b a
  eq_one_iff : ∀ a b, s a b = 1 ↔ a = b
  eq_zero : ∀ a b, a ≠ "" → a.toList.length = b.toList.length → a.toList.Disjoint b.toList → s a b = 0

open EditDistance

theorem isMetric_editDistance : IsMetric editDistance where
  eq_zero_iff a b := by
    constructor
    · intro h
      have hchain := (isDistance_distance a.toList b.toList).chain
      rw [← editDistance, h] at hchain
      exact String.toList_inj.mp hchain.eq_of_zero
    · rintro rfl
      exact Nat.le_zero.mp ((isDistance_distance a.toList a.toList).le_of_chain .start)
  comm := editDistance_comm
  triangle a b c := (isDistance_distance a.toList c.toList).le_of_chain
    ((isDistance_distance a.toList b.toList).chain.trans (isDistance_distance b.toList c.toList).chain)

theorem editDistance_bounds (a b : String) :
    max a.toList.length b.toList.length - min a.toList.length b.toList.length ≤ editDistance a b ∧
      editDistance a b ≤ max a.toList.length b.toList.length := by
  have hchain := (isDistance_distance a.toList b.toList).chain
  have hright := length_le_of_chain hchain
  have hleft := length_le_of_chain (hchain.symm .symm)
  have hmax := editCount_le_max a.toList.reverse b.toList.reverse
  rw [← distance_eq, List.length_reverse, List.length_reverse] at hmax
  exact ⟨by unfold editDistance; omega, hmax⟩

/-- The similarity in exact arithmetic; the quotient of two empty names is zero. -/
theorem similarityWith_id (a b : String) :
    similarityWith id a b = 1 - (editDistance a b : Rat) / (max a.toList.length b.toList.length : Nat) := by
  unfold similarityWith
  dsimp only [id]
  split
  · rename_i hempty
    rw [hempty, Nat.cast_zero, div_zero, sub_zero]
  · rw [Rat.mkRat_eq_div]
    rfl

theorem isSimilarity_similarityWith_id : IsSimilarity (similarityWith id) where
  nonneg a b := by
    rw [similarityWith_id, sub_nonneg]
    exact div_le_one_of_le₀ (Nat.cast_le.mpr (editDistance_bounds a b).2) (Nat.cast_nonneg _)
  le_one a b := by
    rw [similarityWith_id]
    exact sub_le_self 1 (div_nonneg (Nat.cast_nonneg _) (Nat.cast_nonneg _))
  comm a b := by
    rw [similarityWith_id, similarityWith_id, editDistance_comm, Nat.max_comm]
  eq_one_iff a b := by
    rw [similarityWith_id, sub_eq_self, div_eq_zero_iff, Nat.cast_eq_zero, Nat.cast_eq_zero,
      isMetric_editDistance.eq_zero_iff]
    refine or_iff_left_of_imp fun hempty => ?_
    -- two empty names are equal
    have hbound := (editDistance_bounds a b).2
    rw [hempty] at hbound
    exact (isMetric_editDistance.eq_zero_iff a b).mp (Nat.le_zero.mp hbound)
  eq_zero a b hne hlength hdisjoint := by
    have hlongest : max a.toList.length b.toList.length ≠ 0 := by
      rw [← hlength, Nat.max_self]
      exact fun h => hne (String.toList_eq_nil_iff.mp (List.length_eq_zero_iff.mp h))
    have hfar : editDistance a b = max a.toList.length b.toList.length := by
      have hcount : editCount a.toList.reverse b.toList.reverse = _ := editCount_of_disjoint
        fun c hc hc' => hdisjoint (List.mem_reverse.mp hc) (List.mem_reverse.mp hc')
      rw [List.length_reverse, List.length_reverse, ← distance_eq] at hcount
      exact hcount
    rw [similarityWith_id, hfar, div_self (Nat.cast_ne_zero.mpr hlongest), sub_self]

/-- The edit distance is the least number of insertions, deletions and substitutions of one character that turn one text
into the other.  So it is a metric between the difference and the maximum of the lengths, and the similarity of names, in
exact arithmetic, is a share that is whole for equal names only. -/
theorem names_differ_by_fewest_edits (a b : String) :
    IsDistance Edit a.toList (editDistance a b) b.toList ∧
      IsMetric editDistance ∧
      (max a.toList.length b.toList.length - min a.toList.length b.toList.length ≤ editDistance a b ∧
        editDistance a b ≤ max a.toList.length b.toList.length) ∧
      IsSimilarity (similarityWith id) :=
  ⟨isDistance_distance _ _, isMetric_editDistance, editDistance_bounds a b, isSimilarity_similarityWith_id⟩

/-- Three letters that all change. -/
theorem names_differ_by_fewest_edits_abc :
    "abc" ≠ "" ∧ "abc".toList.Disjoint "xyz".toList ∧ similarityWith id "abc" "xyz" = 0 := by
  have hdisjoint : "abc".toList.Disjoint "xyz".toList := by simp [List.Disjoint]
  exact ⟨by decide, hdisjoint,
    (names_differ_by_fewest_edits "abc" "xyz").2.2.2.eq_zero "abc" "xyz" (by decide) rfl hdisjoint⟩

end CodeAtlas
