/-
  What stands before an occurrence of a text.

  A separator that a character is not in occurs before that character or else behind it (`breakOn?_append_cons`).  So it is
  looked for in one line after the other (`upTo_append_line_of_none`), blanks around the text make no difference to a
  separator without blanks (`before?_trim`), and copies of it are dropped from the front of the first line alone
  (`dropStart_append_line`).
-/
import CodeAtlas.Proofs.Text.Blank
import CodeAtlas.Proofs.Text.Split

namespace CodeAtlas.Text

/-- The text before the first occurrence of a separator. -/
def before? (sep s : String) : Option String :=
  (cutFirst? sep s).map (·.1)

/-- The text up to the first occurrence of a separator, or all of it. -/
def upTo (sep s : String) : String :=
  (before? sep s).getD s

/-! ## Occurrences -/

section Occurrence

variable {α : Type} [BEq α] [LawfulBEq α] {needle : List α} {c : α}

/-- What follows an element outside of a sequence does not matter for whether a list begins with the sequence. -/
theorem isPrefixOf_append_cons (h : c ∉ needle) (l rest : List α) :
    needle.isPrefixOf (l ++ c :: rest) = needle.isPrefixOf l := by
  induction needle generalizing l with
  | nil => rw [List.isPrefixOf, List.isPrefixOf]
  | cons a needle ih =>
    obtain ⟨hc, hneedle⟩ := not_or.mp (mt List.mem_cons.mpr h)
    cases l with
    | nil => simp [List.isPrefixOf, Ne.symm hc]
    | cons b l => rw [List.cons_append, List.isPrefixOf, List.isPrefixOf, ih hneedle]

theorem breakOn?_cons_of_notMem (hne : needle ≠ []) (h : c ∉ needle) (l : List α) :
    breakOn? needle (c :: l) = (breakOn? needle l).map fun cut => (c :: cut.1, cut.2) := by
  rw [breakOn?, if_neg]
  rw [← List.nil_append (c :: l), isPrefixOf_append_cons h]
  cases needle with
  | nil => exact absurd rfl hne
  | cons a needle => exact Bool.false_ne_true

/-- The first occurrence of a sequence lies before an element that is not in it, or else behind it. -/
theorem breakOn?_append_cons (hne : needle ≠ []) (h : c ∉ needle) (l rest : List α) :
    (breakOn? needle (l ++ c :: rest)).map (·.1) =
      ((breakOn? needle l).map (·.1)).or ((breakOn? needle rest).map fun cut => l ++ c :: cut.1) := by
  induction l with
  | nil =>
    have hempty : breakOn? needle ([] : List α) = none := by
      rw [breakOn?, if_neg (mt List.isEmpty_iff.mp hne)]
    rw [List.nil_append, breakOn?_cons_of_notMem hne h, hempty, Option.map_map]
    rfl
  | cons a l ih =>
    have hstarts := isPrefixOf_append_cons h (a :: l) rest
    rw [List.cons_append] at hstarts ⊢
    rw [breakOn?, breakOn?, hstarts]
    split
    · rfl
    · have hmap := congrArg (Option.map (a :: ·)) ih
      rw [Option.map_map, Option.map_or, Option.map_map, Option.map_map] at hmap
      rw [Option.map_map, Option.map_map]
      exact hmap

/-- Elements outside of a sequence, behind a list, make no difference for what stands before the sequence. -/
theorem breakOn?_append_right (hne : needle ≠ []) {back : List α} (h : ∀ c ∈ back, c ∉ needle) (l : List α) :
    (breakOn? needle (l ++ back)).map (·.1) = (breakOn? needle l).map (·.1) := by
  cases back with
  | nil => rw [List.append_nil]
  | cons c back =>
    obtain ⟨hc, hback⟩ := List.forall_mem_cons.mp h
    obtain ⟨a, needle, rfl⟩ := List.exists_cons_of_ne_nil hne
    have hnone : breakOn? (a :: needle) back = none :=
      breakOn?_of_notMem (fun ha => hback a ha List.mem_cons_self) needle
    rw [breakOn?_append_cons hne hc, hnone, Option.map_none, Option.or_none]

theorem breakOn?_append_left (hne : needle ≠ []) {front : List α} (h : ∀ c ∈ front, c ∉ needle) (l : List α) :
    (breakOn? needle (front ++ l)).map (·.1) = (breakOn? needle l).map fun cut => front ++ cut.1 := by
  induction front with
  | nil => rfl
  | cons c front ih =>
    obtain ⟨hc, hfront⟩ := List.forall_mem_cons.mp h
    have hmap := congrArg (Option.map (c :: ·)) (ih hfront)
    rw [Option.map_map, Option.map_map] at hmap
    rw [List.cons_append, breakOn?_cons_of_notMem hne hc, Option.map_map]
    exact hmap

end Occurrence

variable {s front back sep : String}

theorem before?_eq (sep s : String) :
    before? sep s = (breakOn? sep.toList s.toList).map fun cut => String.ofList cut.1 := by
  unfold before? cutFirst?
  rw [Option.map_map]
  rfl

theorem subset_of_before? (h : before? sep s = some front) : front.toList ⊆ s.toList := by
  rw [before?_eq] at h
  obtain ⟨cut, hcut, rfl⟩ := Option.map_eq_some_iff.mp h
  rw [String.toList_ofList, eq_of_breakOn? hcut]
  exact List.subset_append_left _ _

/-- A text that begins with the separator has nothing before it. -/
theorem before?_append_self (hne : sep ≠ "") (s : String) : before? sep (sep ++ s) = some "" := by
  obtain ⟨c, chars, hchars⟩ := List.exists_cons_of_ne_nil (mt String.toList_eq_nil_iff.mp hne)
  have hstarts : sep.toList.isPrefixOf (c :: (chars ++ s.toList)) = true := by
    rw [← List.cons_append, ← hchars]
    exact List.isPrefixOf_iff_prefix.mpr (List.prefix_append _ _)
  rw [before?_eq, String.toList_append, hchars, List.cons_append, ← hchars, breakOn?, if_pos hstarts]
  rfl

theorem before?_empty (hne : sep ≠ "") : before? sep "" = none := by
  rw [before?_eq]
  show (if sep.toList.isEmpty then some ([], []) else none).map _ = none
  rw [if_neg (mt List.isEmpty_iff.mp (mt String.toList_eq_nil_iff.mp hne))]
  rfl

theorem before?_append_char {mark : String} {c : Char} (hne : sep ≠ "") (hmark : mark.toList = [c]) (hc : c ∉ sep.toList)
    (s t : String) :
    before? sep (s ++ mark ++ t) = (before? sep s).or ((before? sep t).map fun front => s ++ mark ++ front) := by
  have hcut := congrArg (Option.map String.ofList)
    (breakOn?_append_cons (mt String.toList_eq_nil_iff.mp hne) hc s.toList t.toList)
  rw [Option.map_map, Option.map_or, Option.map_map, Option.map_map] at hcut
  rw [before?_eq, before?_eq, before?_eq, toList_append_char hmark, Option.map_map]
  refine hcut.trans (congrArg _ (Option.map_congr fun cut _ => String.toList_inj.mp ?_))
  show (String.ofList (s.toList ++ c :: cut.1)).toList = (s ++ mark ++ String.ofList cut.1).toList
  rw [String.toList_ofList, toList_append_char hmark, String.toList_ofList]

theorem upTo_of_some (h : before? sep s = some front) : upTo sep s = front := by
  rw [upTo, h, Option.getD_some]

theorem upTo_of_none (h : before? sep s = none) : upTo sep s = s := by
  rw [upTo, h, Option.getD_none]

theorem upTo_append_line_of_some (hne : sep ≠ "") (hsep : '\n' ∉ sep.toList) (h : before? sep s = some front)
    (rest : String) : upTo sep (s ++ "\n" ++ rest) = front :=
  upTo_of_some (by rw [before?_append_char hne rfl hsep, h, Option.some_or])

theorem upTo_append_line_of_none (hne : sep ≠ "") (hsep : '\n' ∉ sep.toList) (h : before? sep s = none)
    (rest : String) : upTo sep (s ++ "\n" ++ rest) = s ++ "\n" ++ upTo sep rest := by
  unfold upTo
  rw [before?_append_char hne rfl hsep, h, Option.none_or]
  cases before? sep rest <;> rfl

/-! ## Blanks around the text -/

/-- Blanks around a text make no difference for what stands before a separator without blanks, trimmed. -/
theorem before?_of_blanks (hsep : ∀ c ∈ sep.toList, isBlank c = false) (hne : sep ≠ "")
    (hfront : ∀ c ∈ front.toList, isBlank c = true) (hback : ∀ c ∈ back.toList, isBlank c = true) (s : String) :
    (before? sep (front ++ s ++ back)).map trim = (before? sep s).map trim := by
  have hout {chars : List Char} (h : ∀ c ∈ chars, isBlank c = true) : ∀ c ∈ chars, c ∉ sep.toList :=
    fun c hc hmem => Bool.false_ne_true ((hsep c hmem).symm.trans (h c hc))
  have hlist := mt String.toList_eq_nil_iff.mp hne
  have hcut := (breakOn?_append_right hlist (hout hback) (front.toList ++ s.toList)).trans
    (breakOn?_append_left hlist (hout hfront) s.toList)
  have hmap := congrArg (Option.map fun chars => trim (String.ofList chars)) hcut
  rw [Option.map_map, Option.map_map] at hmap
  rw [before?_eq, before?_eq, String.toList_append, String.toList_append, Option.map_map, Option.map_map]
  refine hmap.trans (Option.map_congr fun cut _ => ?_)
  show trim (String.ofList (front.toList ++ cut.1)) = trim (String.ofList cut.1)
  rw [String.ofList_append, String.ofList_toList, trim_append_left hfront]

theorem before?_trim (hsep : ∀ c ∈ sep.toList, isBlank c = false) (hne : sep ≠ "") (s : String) :
    (before? sep (trim s)).map trim = (before? sep s).map trim := by
  obtain ⟨front, back, hs, hfront, hback⟩ := exists_blanks_trim s
  have hblanks := before?_of_blanks hsep hne hfront hback (trim s)
  rw [← hs] at hblanks
  exact hblanks.symm

theorem before?_trimEnd (hsep : ∀ c ∈ sep.toList, isBlank c = false) (hne : sep ≠ "") (s : String) :
    (before? sep (trimEnd s)).map trim = (before? sep s).map trim := by
  rw [← before?_trim hsep hne (trimEnd s), trim_trimEnd, before?_trim hsep hne]

/-! ## Copies at the front -/

section Leads

variable {lead l : List Char} {p : Char → Bool}

theorem dropLeads_append_cons {c : Char} (hne : lead ≠ []) (hc : c ∉ lead) (l rest : List Char) :
    dropLeads lead (l ++ c :: rest) = dropLeads lead l ++ c :: rest := by
  have hstarts := isPrefixOf_append_cons hc
  induction l using dropLeads.induct lead with
  | case1 l h ih =>
    have hlength : lead.length ≤ l.length := (List.isPrefixOf_iff_prefix.mp h.2.2).length_le
    rw [dropLeads, dif_pos ⟨hne, by simp, by rw [hstarts]; exact h.2.2⟩, List.drop_append_of_le_length hlength, ih,
      dropLeads.eq_1 lead l, dif_pos h]
  | case2 l h =>
    have hnot : lead.isPrefixOf l = false := by
      refine Bool.eq_false_iff.mpr fun hl => h ⟨hne, ?_, hl⟩
      rintro rfl
      exact hne (List.prefix_nil.mp (List.isPrefixOf_iff_prefix.mp hl))
    rw [dropLeads_eq_self hnot, dropLeads_eq_self (by rw [hstarts, hnot])]

theorem dropLeads_dropEndWhile (hne : lead ≠ []) (hlead : ∀ c ∈ lead, p c = false) (l : List Char) :
    dropLeads lead (dropEndWhile p l) = dropEndWhile p (dropLeads lead l) := by
  induction l using dropLeads.induct lead with
  | case1 l h ih =>
    obtain ⟨rest, hrest⟩ := List.isPrefixOf_iff_prefix.mp h.2.2
    rw [← hrest, List.drop_left] at ih
    rw [← hrest, append_dropEndWhile hlead, dropLeads_append hne, dropLeads_append hne, ih]
  | case2 l h =>
    obtain ⟨back, hback, -⟩ := exists_append_dropEndWhile p l
    have hnot {l' : List Char} (hl' : l' <+: l) : lead.isPrefixOf l' = false := by
      refine Bool.eq_false_iff.mpr fun hstarts => h ⟨hne, ?_, List.isPrefixOf_iff_prefix.mpr
        ((List.isPrefixOf_iff_prefix.mp hstarts).trans hl')⟩
      rintro rfl
      exact hne (List.prefix_nil.mp ((List.isPrefixOf_iff_prefix.mp hstarts).trans hl'))
    rw [dropLeads_eq_self (hnot (List.prefix_refl l)), dropLeads_eq_self (hnot ⟨back, hback.symm⟩)]

end Leads

theorem dropStart_append (hne : sep ≠ "") (s : String) : dropStart (sep ++ s) sep = dropStart s sep := by
  unfold dropStart
  rw [String.toList_append, dropLeads_append (mt String.toList_eq_nil_iff.mp hne)]

/-- Copies are dropped from the first line only. -/
theorem dropStart_append_line (hne : sep ≠ "") (hsep : '\n' ∉ sep.toList) (s rest : String) :
    dropStart (s ++ "\n" ++ rest) sep = dropStart s sep ++ "\n" ++ rest := by
  refine String.toList_inj.mp ?_
  unfold dropStart
  rw [String.toList_ofList, toList_append_newline, toList_append_newline,
    dropLeads_append_cons (mt String.toList_eq_nil_iff.mp hne) hsep, String.toList_ofList]

theorem dropStart_trimEnd (hne : sep ≠ "") (hsep : ∀ c ∈ sep.toList, isBlank c = false) (s : String) :
    dropStart (trimEnd s) sep = trimEnd (dropStart s sep) := by
  unfold dropStart trimEnd
  rw [String.toList_ofList, String.toList_ofList, dropLeads_dropEndWhile (mt String.toList_eq_nil_iff.mp hne) hsep]

theorem subset_dropStart (s sep : String) : (dropStart s sep).toList ⊆ s.toList := by
  unfold dropStart
  rw [String.toList_ofList]
  exact (dropLeads_suffix _ _).subset

end CodeAtlas.Text
