/-
  Tokens with blanks between them.

  A use declaration may have any blanks between its tokens; collapsed, each stretch of them is a single blank
  (`collapse_spell`).  What is left is a line of tokens, of each of which it is known whether a blank stands in front.
-/
import CodeAtlas.Proofs.Text.Blank
import CodeAtlas.Proofs.Text.Case
import CodeAtlas.Proofs.Use.Tree
import Mathlib.Data.List.Chain

namespace CodeAtlas.Rust

open Text (isBlank)

/-! ## Characters of tokens -/

namespace Token

theorem text_ne_empty (t : Token) : t.text ≠ "" := by
  cases t with
  | word w => exact w.ne_empty
  | _ => decide

theorem not_blank_of_mem_text {t : Token} {c : Char} (h : c ∈ t.text.toList) : isBlank c = false := by
  cases t with
  | word w => exact (w.plain c h).1
  | colons | star | opening | closing | comma | keyword =>
    exact beq_iff_eq.mp ((List.all_eq_true (p := fun c => isBlank c == false)).mp (by decide) c h)

/-- Marks tell the tokens that have them apart. -/
theorem mark?_of_mem_text {t : Token} {c : Char} (h : c ∈ t.text.toList) (hc : c ∈ marks) : t.mark? = some c := by
  cases t with
  | word w => exact absurd hc (w.plain c h).2
  | colons | star | opening | closing | comma =>
    exact beq_iff_eq.mp ((List.all_eq_true (p := fun c => _ == some c)).mp (by decide) c h)
  | keyword => exact absurd hc (of_decide_eq_true ((List.all_eq_true (p := fun c => c ∉ marks)).mp (by decide) c h))

end Token

/-! ## Lines -/

/-- A token of a line, and whether a blank stands in front of it. -/
structure Spaced where
  gap : Bool
  token : Token

namespace Spaced

/-- The blank in front of a token, if there is one. -/
def blank (s : Spaced) : String :=
  if s.gap then " " else ""

end Spaced

/-- The text of tokens with single blanks between them. -/
def line : List Spaced → String
  | [] => ""
  | s :: rest => s.blank ++ s.token.text ++ line rest

/-- A token with the blanks in front of it. -/
structure Spelled where
  blanks : String
  token : Token
  isBlank_blanks : ∀ c ∈ blanks.toList, isBlank c = true

/-- The text of tokens with blanks between them. -/
def spell : List Spelled → String
  | [] => ""
  | s :: rest => s.blanks ++ s.token.text ++ spell rest

/-- A token after the blanks in front of it are collapsed. -/
def Spelled.spaced (s : Spelled) : Spaced :=
  ⟨s.blanks != "", s.token⟩

/-- A line without the blank in front of it. -/
def flush : List Spaced → List Spaced
  | [] => []
  | s :: rest => { s with gap := false } :: rest

variable {l front back : List Spaced} {s : Spaced} {c : Char}

theorem line_append (front back : List Spaced) : line (front ++ back) = line front ++ line back := by
  induction front with
  | nil => exact String.empty_append.symm
  | cons s front ih => rw [List.cons_append, line, line, ih, String.append_assoc, String.append_assoc, String.append_assoc]

theorem line_singleton (s : Spaced) : line [s] = s.blank ++ s.token.text :=
  String.append_empty

theorem blank_of_flush (t : Token) : Spaced.blank ⟨false, t⟩ = "" := rfl

theorem blank_of_gap (t : Token) : Spaced.blank ⟨true, t⟩ = " " := rfl

theorem line_flush_cons (s : Spaced) (rest : List Spaced) : line (flush (s :: rest)) = s.token.text ++ line rest := by
  rw [flush, line, blank_of_flush, String.empty_append]

theorem toList_line_flush (t : Token) (l : List Spaced) :
    (line (⟨false, t⟩ :: l)).toList = t.text.toList ++ (line l).toList := by
  rw [line, blank_of_flush, String.empty_append, String.toList_append]

theorem toList_line_gap (t : Token) (l : List Spaced) :
    (line (⟨true, t⟩ :: l)).toList = ' ' :: (t.text.toList ++ (line l).toList) := by
  rw [line, blank_of_gap, String.toList_append, String.toList_append, List.append_assoc]
  rfl

theorem isBlank_blank (s : Spaced) : ∀ c ∈ s.blank.toList, isBlank c = true := by
  intro c hc
  unfold Spaced.blank at hc
  split at hc
  · rw [List.mem_singleton.mp hc]
    rfl
  · exact absurd hc List.not_mem_nil

/-- A character of a line stands in one of its tokens or is a blank in front of one. -/
theorem mem_line (h : c ∈ (line l).toList) : c = ' ' ∨ ∃ s ∈ l, c ∈ s.token.text.toList := by
  induction l with
  | nil => cases h
  | cons s l ih =>
    rw [line, String.toList_append, String.toList_append] at h
    rcases List.mem_append.mp h with h | h
    · rcases List.mem_append.mp h with h | h
      · unfold Spaced.blank at h
        split at h
        · exact Or.inl (List.mem_singleton.mp h)
        · cases h
      · exact Or.inr ⟨s, List.mem_cons_self, h⟩
    · rcases ih h with h | ⟨t, ht, h⟩
      · exact Or.inl h
      · exact Or.inr ⟨t, List.mem_cons_of_mem s ht, h⟩

/-- A line without the token of a mark is without the mark. -/
theorem notMem_line (hc : c ∈ marks) (h : ∀ s ∈ l, s.token.mark? ≠ some c) : c ∉ (line l).toList := by
  intro hmem
  rcases mem_line hmem with rfl | ⟨s, hs, hmem⟩
  · exact absurd hc (by decide)
  · exact h s hs (Token.mark?_of_mem_text hmem hc)

theorem line_flush (l : List Spaced) : ∃ blanks, line l = blanks ++ line (flush l) ∧ ∀ c ∈ blanks.toList, isBlank c = true := by
  cases l with
  | nil => exact ⟨"", rfl, fun _ h => absurd h List.not_mem_nil⟩
  | cons s rest =>
    exact ⟨s.blank, by rw [line_flush_cons, line, String.append_assoc], isBlank_blank s⟩

/-- No blank stands at the end of a line. -/
theorem trimEnd_line (l : List Spaced) : Text.trimEnd (line l) = line l := by
  rcases List.eq_nil_or_concat' l with rfl | ⟨front, s, rfl⟩
  · rfl
  · rw [line_append, line_singleton, ← String.append_assoc]
    exact Text.trimEnd_append_of_forall (fun c hc => Token.not_blank_of_mem_text hc) s.token.text_ne_empty _

/-- A line between blanks is trimmed to itself, without the blank in front of it. -/
theorem trim_line (l : List Spaced) {blanks : String} (h : ∀ c ∈ blanks.toList, isBlank c = true) :
    Text.trim (line l ++ blanks) = line (flush l) := by
  obtain ⟨front, hfront, hblank⟩ := line_flush l
  rw [Text.trim_append_right h, hfront, Text.trim_append_left hblank]
  cases l with
  | nil => rfl
  | cons s rest =>
    rw [line_flush_cons, Text.trim_append_of_forall (fun c hc => Token.not_blank_of_mem_text hc) s.token.text_ne_empty, trimEnd_line]

/-! ## Collapsing -/

/-- Behind a text without blanks, the blanks between tokens are collapsed to single ones. -/
theorem collapse_append_spell {front : String} (h : ∀ c ∈ front.toList, isBlank c = false) (hne : front ≠ "")
    (written : List Spelled) : Text.collapse (front ++ spell written) = front ++ line (written.map Spelled.spaced) := by
  induction written generalizing front with
  | nil =>
    rw [spell, List.map_nil, line, String.append_empty]
    exact Text.collapse_eq_self h
  | cons s rest ih =>
    rw [spell, List.map_cons, line]
    by_cases hblanks : s.blanks = ""
    · have hnext : ∀ c ∈ (front ++ s.token.text).toList, isBlank c = false := by
        rw [String.toList_append]
        exact List.forall_mem_append.mpr ⟨h, fun c hc => Token.not_blank_of_mem_text hc⟩
      have hgap : s.spaced = ⟨false, s.token⟩ := by
        unfold Spelled.spaced
        rw [hblanks]
        rfl
      rw [hblanks, hgap, blank_of_flush, String.empty_append, ← String.append_assoc, ← String.append_assoc]
      exact ih hnext (by simp [hne])
    · have hgap : s.spaced = ⟨true, s.token⟩ := by
        unfold Spelled.spaced
        rw [bne_iff_ne.mpr hblanks]
      have hplain : ∀ c ∈ s.token.text.toList, isBlank c = false := fun c hc => Token.not_blank_of_mem_text hc
      obtain ⟨piece, more, hwords⟩ := Text.exists_words_append hplain s.token.text_ne_empty (spell rest)
      rw [hgap, blank_of_gap, String.append_assoc,
        Text.collapse_append_blanks h hne s.isBlank_blanks hblanks (hwords ▸ List.cons_ne_nil _ _),
        ih hplain s.token.text_ne_empty]
      simp only [String.append_assoc]

/-- The tokens of a declaration, written with blanks between them, are collapsed to a line. -/
theorem collapse_spell {written : List Spelled} (h : ∀ s ∈ written.head?, s.blanks = "") :
    Text.collapse (spell written) = line (written.map Spelled.spaced) := by
  cases written with
  | nil => rfl
  | cons s rest =>
    have hblanks : s.blanks = "" := h s rfl
    have hgap : s.spaced = ⟨false, s.token⟩ := by
      unfold Spelled.spaced
      rw [hblanks]
      rfl
    rw [spell, hblanks, String.empty_append,
      collapse_append_spell (fun c hc => Token.not_blank_of_mem_text hc) s.token.text_ne_empty, List.map_cons, hgap, line,
      blank_of_flush, String.empty_append]

/-! ## The keyword of an alias -/

/-- Words have blanks between them. -/
def Apart (l : List Spaced) : Prop :=
  l.IsChain fun a b => a.token.isWordLike = true → b.token.isWordLike = true → b.gap = true

theorem Apart.left (h : Apart (l ++ back)) : Apart l :=
  List.IsChain.left_of_append h

theorem Apart.right (h : Apart (l ++ back)) : Apart back :=
  List.IsChain.right_of_append h

/-- Behind a word only a word can go on with a letter, and that has a blank in front of it. -/
theorem head?_line_ne {rest : List Char} (hfirst : ∀ s ∈ l.head?, s.token.isWordLike = true → s.gap = true)
    (hrest : rest.head? ≠ some 's') : ((line l).toList ++ rest).head? ≠ some 's' := by
  cases l with
  | nil => exact hrest
  | cons s more =>
    obtain ⟨gap, token⟩ := s
    have hword := hfirst ⟨gap, token⟩ rfl
    cases gap with
    | true => simp [line, blank_of_gap]
    | false =>
      cases token with
      | word | keyword => exact absurd (hword rfl) Bool.false_ne_true
      | colons | star | opening | closing | comma => simp [line, blank_of_flush, Token.text]

/-- The text of a token begins with the keyword of an alias and a blank behind it only when it is that keyword. -/
theorem not_isPrefixOf_text {t : Token} (ht : t ≠ .keyword) {rest : List Char}
    (hrest : t.isWordLike = true → rest.head? ≠ some 's') :
    ['a', 's', ' '].isPrefixOf (t.text.toList ++ rest) = false := by
  cases t with
  | keyword => exact absurd rfl ht
  | colons | star | opening | closing | comma => rfl
  | word w =>
    refine Bool.eq_false_iff.mpr fun hprefix => ?_
    obtain ⟨tail, htail⟩ := List.isPrefixOf_iff_prefix.mp hprefix
    have hplain := w.plain
    have hne := w.ne_as
    unfold Token.text at htail
    rw [← String.toList_inj.ne] at hne
    match hchars : w.text.toList with
    | [] => exact w.ne_empty (String.toList_eq_nil_iff.mp hchars)
    | [c] =>
      simp only [hchars, List.cons_append, List.nil_append, List.cons.injEq] at htail
      exact hrest rfl (by rw [← htail.2]; rfl)
    | [c, d] =>
      simp only [hchars, List.cons_append, List.nil_append, List.cons.injEq] at htail
      rw [hchars, ← htail.1, ← htail.2.1] at hne
      exact hne rfl
    | c :: d :: e :: more =>
      simp only [hchars, List.cons_append, List.nil_append, List.cons.injEq] at htail
      have hblank := (hplain e (by simp [hchars])).1
      rw [← htail.2.2.1] at hblank
      exact absurd hblank (by decide)

/-- The keyword of an alias is not found in a line without it. -/
theorem breakOn?_line (hapart : Apart l) (h : ∀ s ∈ l, s.token ≠ .keyword) {rest : List Char} (hrest : rest.head? ≠ some 's') :
    Text.breakOn? [' ', 'a', 's', ' '] ((line l).toList ++ rest) =
      (Text.breakOn? [' ', 'a', 's', ' '] rest).map fun cut => ((line l).toList ++ cut.1, cut.2) := by
  induction l with
  | nil => simp [line]
  | cons s l ih =>
    have hl : ∀ s ∈ l, s.token ≠ .keyword := fun t ht => h t (List.mem_cons_of_mem s ht)
    have hnext : s.token.isWordLike = true → ((line l).toList ++ rest).head? ≠ some 's' := by
      intro hword
      refine head?_line_ne (fun t ht htoken => ?_) hrest
      exact (List.isChain_cons.mp hapart).1 t ht hword htoken
    have hskip : ' ' ∉ s.token.text.toList := fun hc =>
      absurd (Token.not_blank_of_mem_text hc) (by decide)
    have htext : Text.breakOn? [' ', 'a', 's', ' '] (s.token.text.toList ++ ((line l).toList ++ rest)) =
        (Text.breakOn? [' ', 'a', 's', ' '] rest).map fun cut => (s.token.text.toList ++ ((line l).toList ++ cut.1), cut.2) := by
      rw [Text.breakOn?_append_of_notMem hskip, ih hapart.tail hl, Option.map_map]
      rfl
    obtain ⟨gap, token⟩ := s
    cases gap with
    | false =>
      rw [toList_line_flush, List.append_assoc, htext]
      simp only [List.append_assoc]
    | true =>
      have hprefix := not_isPrefixOf_text (h _ List.mem_cons_self) hnext
      rw [toList_line_gap, List.cons_append, List.append_assoc, Text.breakOn?, if_neg, htext, Option.map_map]
      · simp only [Function.comp_def, List.cons_append, List.append_assoc]
      · rw [List.isPrefixOf, hprefix]
        decide

theorem cutFirst?_as_of_notMem (hapart : Apart l) (h : ∀ s ∈ l, s.token ≠ .keyword) :
    Text.cutFirst? " as " (line l) = none := by
  have hrest : ([] : List Char).head? ≠ some 's' := nofun
  have hbreak := breakOn?_line hapart h hrest
  rw [List.append_nil] at hbreak
  unfold Text.cutFirst?
  exact (congrArg _ hbreak).trans rfl

/-- The keyword of an alias cuts a line where it stands first. -/
theorem cutFirst?_as_append (hapart : Apart l) (h : ∀ s ∈ l, s.token ≠ .keyword) (rest : String) :
    Text.cutFirst? " as " (line l ++ " as " ++ rest) = some (line l, rest) := by
  have hrest : (" as ".toList ++ rest.toList).head? ≠ some 's' := nofun
  have hbreak := breakOn?_line hapart h hrest
  have hhere : Text.breakOn? " as ".toList (" as ".toList ++ rest.toList) = some ([], rest.toList) := by
    exact (Text.breakOn?.eq_2 ..).trans rfl
  unfold Text.cutFirst?
  rw [String.toList_append, String.toList_append, List.append_assoc]
  refine (congrArg _ hbreak).trans ?_
  rw [show [' ', 'a', 's', ' '] = " as ".toList from rfl, hhere]
  simp

end CodeAtlas.Rust
