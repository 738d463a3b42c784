/-
  Blanks in and around texts.

  A text without blanks is one word (`words_of_forall`), trimming and collapsing leave it as it is, and in front of any
  text it stays as it is when the whole is collapsed (`exists_collapse_append`).  Blanks around a text make no difference
  for trimming it, and they are all that trimming removes (`exists_blanks_trim`).  Between two texts they are collapsed to a
single one (`collapse_append_blanks`).
-/
import CodeAtlas.Proofs.Text.Runs
import CodeAtlas.Text.Blank

namespace CodeAtlas.Text

variable {s front back : String}

theorem splitWhen_of_forall {α : Type} {p : α → Bool} {front rest piece : List α} {pieces : List (List α)}
    (h : ∀ c ∈ front, p c = false) (hrest : splitWhen p rest = piece :: pieces) :
    splitWhen p (front ++ rest) = (front ++ piece) :: pieces := by
  induction front with
  | nil => exact hrest
  | cons c front ih =>
    obtain ⟨hc, hfront⟩ := List.forall_mem_cons.mp h
    rw [List.cons_append, splitWhen, hc, ih hfront]
    rfl

/-- The words of a text that begins without blanks: the first one has this beginning. -/
theorem exists_words_append (h : ∀ c ∈ front.toList, isBlank c = false) (hne : front ≠ "") (rest : String) :
    ∃ piece more, words (front ++ rest) = (front ++ piece) :: more := by
  obtain ⟨piece, pieces, hpieces⟩ := List.exists_cons_of_ne_nil (splitWhen_ne_nil isBlank rest.toList)
  refine ⟨.ofList piece, (pieces.map String.ofList).filter fun w => !w.isEmpty, ?_⟩
  unfold words splitAny
  rw [String.toList_append, splitWhen_of_forall h hpieces, List.map_cons, String.ofList_append, String.ofList_toList,
    List.filter_cons_of_pos (by simp [hne])]

theorem words_of_forall (h : ∀ c ∈ s.toList, isBlank c = false) (hne : s ≠ "") : words s = [s] := by
  unfold words splitAny
  rw [← List.append_nil s.toList, splitWhen_of_forall h rfl, List.append_nil, List.map_singleton, String.ofList_toList,
    List.filter_cons_of_pos (by simp [hne]), List.filter_nil]

/-- A text without blanks is collapsed to itself. -/
theorem collapse_eq_self (h : ∀ c ∈ s.toList, isBlank c = false) : collapse s = s := by
  unfold collapse
  by_cases hne : s = ""
  · rw [hne]
    rfl
  · rw [words_of_forall h hne, join_singleton]

theorem exists_collapse_append (h : ∀ c ∈ front.toList, isBlank c = false) (hne : front ≠ "") (rest : String) :
    ∃ tail, collapse (front ++ rest) = front ++ tail := by
  obtain ⟨piece, more, hwords⟩ := exists_words_append h hne rest
  unfold collapse
  rw [hwords]
  cases more with
  | nil => exact ⟨piece, join_singleton _ _⟩
  | cons word more => exact ⟨_, by rw [join, String.intercalate_cons_cons, String.append_assoc, String.append_assoc]⟩

/-- A text without blanks is trimmed already. -/
theorem trim_eq_self (h : ∀ c ∈ s.toList, isBlank c = false) : trim s = s := by
  have hkeep (l : List Char) (hl : ∀ c ∈ l, isBlank c = false) : l.dropWhile isBlank = l :=
    List.dropWhile_eq_self_iff.mpr fun hpos => Bool.eq_false_iff.mp (hl _ (List.get_mem l ⟨0, hpos⟩))
  unfold trim dropEndWhile
  rw [hkeep _ h, hkeep _ fun c hc => h c (List.mem_reverse.mp hc), List.reverse_reverse, String.ofList_toList]

/-! ## Blanks around a text -/

section Ends

variable {p : Char → Bool} {front back : List Char}

theorem dropEndWhile_append_of_forall (h : ∀ c ∈ back, p c = true) (l : List Char) :
    dropEndWhile p (l ++ back) = dropEndWhile p l := by
  unfold dropEndWhile
  rw [List.reverse_append, List.dropWhile_append_of_pos fun c hc => h c (List.mem_reverse.mp hc)]

theorem append_dropEndWhile (h : ∀ c ∈ front, p c = false) (l : List Char) :
    dropEndWhile p (front ++ l) = front ++ dropEndWhile p l := by
  unfold dropEndWhile
  rw [List.reverse_append, List.dropWhile_append]
  split
  · rename_i hempty
    rw [List.isEmpty_iff.mp hempty, List.reverse_nil, List.append_nil, List.dropWhile_eq_self_iff.mpr, List.reverse_reverse]
    exact fun hpos => Bool.eq_false_iff.mp (h _ (List.mem_reverse.mp (List.get_mem front.reverse ⟨0, hpos⟩)))
  · rw [List.reverse_append, List.reverse_reverse]

theorem exists_append_dropEndWhile (p : Char → Bool) (l : List Char) :
    ∃ back, l = dropEndWhile p l ++ back ∧ ∀ c ∈ back, p c = true := by
  refine ⟨(l.reverse.takeWhile p).reverse, ?_, fun c hc => List.mem_takeWhile_imp (List.mem_reverse.mp hc)⟩
  unfold dropEndWhile
  rw [← List.reverse_append, List.takeWhile_append_dropWhile, List.reverse_reverse]

end Ends

theorem trim_append_left (h : ∀ c ∈ front.toList, isBlank c = true) (s : String) : trim (front ++ s) = trim s := by
  unfold trim
  rw [String.toList_append, List.dropWhile_append_of_pos h]

theorem trim_append_right (h : ∀ c ∈ back.toList, isBlank c = true) (s : String) : trim (s ++ back) = trim s := by
  unfold trim
  rw [String.toList_append, List.dropWhile_append]
  split
  · rename_i hempty
    have hback : (back.toList ++ []).dropWhile isBlank = [] := List.dropWhile_append_of_pos h
    rw [List.append_nil] at hback
    rw [hback, List.isEmpty_iff.mp hempty]
  · rw [dropEndWhile_append_of_forall h]

/-- A text is what trimming leaves of it, between blanks. -/
theorem exists_blanks_trim (s : String) :
    ∃ front back, s = front ++ trim s ++ back ∧ (∀ c ∈ front.toList, isBlank c = true) ∧
      ∀ c ∈ back.toList, isBlank c = true := by
  obtain ⟨back, hback, hblank⟩ := exists_append_dropEndWhile isBlank (s.toList.dropWhile isBlank)
  refine ⟨.ofList (s.toList.takeWhile isBlank), .ofList back, String.toList_inj.mp ?_, ?_, ?_⟩
  · unfold trim
    rw [String.toList_append, String.toList_append, String.toList_ofList, String.toList_ofList, String.toList_ofList,
      List.append_assoc, ← hback, List.takeWhile_append_dropWhile]
  · rw [String.toList_ofList]
    exact fun c hc => List.mem_takeWhile_imp hc
  · rw [String.toList_ofList]
    exact hblank

theorem exists_blanks_trimEnd (s : String) :
    ∃ back, s = trimEnd s ++ back ∧ ∀ c ∈ back.toList, isBlank c = true := by
  obtain ⟨back, hback, hblank⟩ := exists_append_dropEndWhile isBlank s.toList
  refine ⟨.ofList back, String.toList_inj.mp ?_, ?_⟩
  · unfold trimEnd
    rw [String.toList_append, String.toList_ofList, String.toList_ofList, ← hback]
  · rw [String.toList_ofList]
    exact hblank

theorem trim_trimEnd (s : String) : trim (trimEnd s) = trim s := by
  obtain ⟨back, hs, hback⟩ := exists_blanks_trimEnd s
  exact ((congrArg trim hs).trans (trim_append_right hback _)).symm

/-- A text that begins with characters that are not blank is trimmed at its end only. -/
theorem trim_append_of_forall (h : ∀ c ∈ front.toList, isBlank c = false) (hne : front ≠ "") (s : String) :
    trim (front ++ s) = front ++ trimEnd s := by
  have hkeep : (front.toList ++ s.toList).dropWhile isBlank = front.toList ++ s.toList := by
    refine List.dropWhile_eq_self_iff.mpr fun hpos => ?_
    obtain ⟨c, chars, hchars⟩ := List.exists_cons_of_ne_nil (mt String.toList_eq_nil_iff.mp hne)
    simp only [hchars, List.cons_append, List.getElem_cons_zero]
    exact Bool.eq_false_iff.mp (h c (hchars ▸ List.mem_cons_self))
  unfold trim trimEnd
  rw [String.toList_append, hkeep, append_dropEndWhile h, String.ofList_append, String.ofList_toList]

/-- What ends with characters that are not blank has no blanks at its end to be trimmed. -/
theorem trimEnd_append_of_forall (h : ∀ c ∈ back.toList, isBlank c = false) (hne : back ≠ "") (s : String) :
    trimEnd (s ++ back) = s ++ back := by
  obtain ⟨init, c, hback⟩ := (List.eq_nil_or_concat' back.toList).resolve_left (mt String.toList_eq_nil_iff.mp hne)
  have hc : isBlank c = false := h c (hback ▸ List.mem_append_right _ List.mem_cons_self)
  have hreverse : (s ++ back).toList.reverse = c :: (s.toList ++ init).reverse := by
    rw [String.toList_append, hback, ← List.append_assoc, List.reverse_concat]
  unfold trimEnd dropEndWhile
  rw [hreverse, List.dropWhile_cons_of_neg (by simp [hc]), ← hreverse, List.reverse_reverse, String.ofList_toList]

/-! ## Blanks between texts -/

theorem words_eq_runs (s : String) : words s = (runs (fun c => !isBlank c) s.toList).map String.ofList := by
  have hempty (l : List Char) : (String.ofList l).isEmpty = l.isEmpty := by
    rw [Bool.eq_iff_iff, String.isEmpty_iff, List.isEmpty_iff, String.ofList_eq_empty_iff]
  unfold words splitAny runs
  rw [List.filter_map]
  simp only [Bool.not_not, Function.comp_def, hempty]

/-- Blanks keep the words of two texts apart. -/
theorem words_append_blanks {blanks : String} (h : ∀ c ∈ blanks.toList, isBlank c = true) (hne : blanks ≠ "")
    (front rest : String) : words (front ++ (blanks ++ rest)) = words front ++ words rest := by
  have hskip (l : List Char) (hl : ∀ c ∈ l, isBlank c = true) (rest : List Char) :
      runs (fun c => !isBlank c) (l ++ rest) = runs (fun c => !isBlank c) rest := by
    induction l with
    | nil => rfl
    | cons c l ih =>
      obtain ⟨hc, hl⟩ := List.forall_mem_cons.mp hl
      have hruns := runs_append (p := fun c => !isBlank c) (c := c) (by rw [hc]; rfl) [] (l ++ rest)
      rw [List.nil_append, runs_nil, List.nil_append, ih hl] at hruns
      exact hruns
  obtain ⟨c, chars, hblanks⟩ := List.exists_cons_of_ne_nil (mt String.toList_eq_nil_iff.mp hne)
  rw [hblanks] at h
  obtain ⟨hc, hchars⟩ := List.forall_mem_cons.mp h
  rw [words_eq_runs, words_eq_runs, words_eq_runs, String.toList_append, String.toList_append, hblanks, List.cons_append,
    runs_append (by rw [hc]; rfl), hskip chars hchars, List.map_append]

/-- Blanks behind a word are collapsed to one in front of the next words. -/
theorem collapse_append_blanks {word blanks rest : String} (hword : ∀ c ∈ word.toList, isBlank c = false) (hne : word ≠ "")
    (hblanks : ∀ c ∈ blanks.toList, isBlank c = true) (hsome : blanks ≠ "") (hrest : words rest ≠ []) :
    collapse (word ++ (blanks ++ rest)) = word ++ " " ++ collapse rest := by
  unfold collapse
  rw [words_append_blanks hblanks hsome, words_of_forall hword hne, join_append (List.cons_ne_nil _ _) hrest, join_singleton]

end CodeAtlas.Text
