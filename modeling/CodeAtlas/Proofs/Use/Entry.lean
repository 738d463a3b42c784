/-
  How the entries of a group are read.

  An entry is trimmed; an alias is all that stands behind its keyword, any other name is what stands behind the last colons,
  without the braces at its ends.  So an entry is read as it binds exactly when it is blank, or ends with an alias, or holds a
  name or wildcard whose braces stand together and at its ends (`Clear`, `boundName?_eq_iff`).
-/
import CodeAtlas.Extract.Rust
import CodeAtlas.Proofs.Use.Line

namespace CodeAtlas.Rust

open Text (isBlank)

/-! ## Names between braces -/

/-- Whether a character is a brace. -/
def isBrace (c : Char) : Bool :=
  c == '\x7b' || c == '\x7d'

/-- A text without the braces at its ends and the blanks inside them. -/
def bare (s : String) : String :=
  Text.trim (.ofList (Text.dropEndWhile isBrace (s.toList.dropWhile isBrace)))

theorem line_eq_empty_iff {l : List Spaced} : line l = "" ↔ l = [] := by
  cases l with
  | nil => exact iff_of_true rfl rfl
  | cons s rest =>
    refine iff_of_false (fun h => ?_) (List.cons_ne_nil s rest)
    exact s.token.text_ne_empty (String.append_eq_empty_iff.mp (String.append_eq_empty_iff.mp h).1).2

section Ends

variable {α : Type} {p : α → Bool} {c : α}

/-- Nothing in front of an element that stays is dropped at the end. -/
theorem dropEndWhile_append_cons (hc : p c = false) (front back : List α) :
    Text.dropEndWhile p (front ++ c :: back) = front ++ c :: Text.dropEndWhile p back := by
  have hkeep : (c :: front.reverse).dropWhile p = c :: front.reverse := List.dropWhile_cons_of_neg (by simp [hc])
  have hreverse : (front ++ c :: back).reverse = back.reverse ++ c :: front.reverse := by simp
  unfold Text.dropEndWhile
  rw [hreverse, List.dropWhile_append, hkeep]
  split
  · rename_i hempty
    rw [List.isEmpty_iff.mp hempty]
    simp
  · simp

theorem dropEndWhile_concat (hc : p c = true) (front : List α) :
    Text.dropEndWhile p (front ++ [c]) = Text.dropEndWhile p front := by
  unfold Text.dropEndWhile
  rw [List.reverse_concat, List.dropWhile_cons_of_pos hc]

/-- Nothing behind an element that stays is dropped in front. -/
theorem dropWhile_append_cons (hc : p c = false) (front back : List α) :
    (front ++ c :: back).dropWhile p = front.dropWhile p ++ c :: back := by
  have hkeep : (c :: back).dropWhile p = c :: back := List.dropWhile_cons_of_neg (by simp [hc])
  rw [List.dropWhile_append, hkeep]
  split
  · rename_i hempty
    rw [List.isEmpty_iff.mp hempty, List.nil_append]
  · rfl

end Ends

theorem mem_of_mem_bare {s : String} {c : Char} (h : c ∈ (bare s).toList) : c ∈ s.toList := by
  unfold bare Text.trim at h
  rw [String.toList_ofList, String.toList_ofList] at h
  have hsub (p : Char → Bool) (l : List Char) : Text.dropEndWhile p l ⊆ l := by
    obtain ⟨more, hmore, -⟩ := Text.exists_append_dropEndWhile p l
    exact fun c hc => hmore ▸ List.mem_append_left _ hc
  exact (List.dropWhile_sublist _).mem (hsub _ _ ((List.dropWhile_sublist _).mem (hsub _ _ h)))

theorem mem_of_mem_afterLast {sep s : String} {c : Char} (h : c ∈ (Text.afterLast sep s).toList) : c ∈ s.toList := by
  unfold Text.afterLast at h
  split at h
  · rename_i front rest hcut
    rw [Text.eq_of_cutLast? hcut, String.toList_append]
    exact List.mem_append_right _ h
  · exact h

/-- What is left of a name between others is the name when only blanks stand between it and the braces at the ends. -/
theorem bare_append_eq_iff {front back : List Char} {name : String} (hne : name ≠ "")
    (hname : ∀ c ∈ name.toList, isBlank c = false ∧ isBrace c = false)
    (hfront : ∀ c ∈ front, isBlank c = true ∨ isBrace c = true)
    (hback : ∀ c ∈ back, isBlank c = true ∨ isBrace c = true) :
    bare (.ofList (front ++ (name.toList ++ back))) = name ↔
      (∀ c ∈ front.dropWhile isBrace, isBlank c = true) ∧ ∀ c ∈ Text.dropEndWhile isBrace back, isBlank c = true := by
  have hstrip : Text.dropEndWhile isBrace ((front ++ (name.toList ++ back)).dropWhile isBrace) =
      front.dropWhile isBrace ++ (name.toList ++ Text.dropEndWhile isBrace back) := by
    have hnonempty := mt String.toList_eq_nil_iff.mp hne
    obtain ⟨first, more, hfirst⟩ := List.exists_cons_of_ne_nil hnonempty
    obtain ⟨init, last, hlast⟩ := (List.eq_nil_or_concat' name.toList).resolve_left hnonempty
    have hfirstKept : isBrace first = false := (hname first (hfirst ▸ List.mem_cons_self)).2
    have hlastKept : isBrace last = false := (hname last (hlast ▸ List.mem_append_right _ List.mem_cons_self)).2
    rw [hfirst, List.cons_append, dropWhile_append_cons hfirstKept, ← List.cons_append, ← hfirst, hlast, List.append_assoc,
      List.singleton_append, ← List.append_assoc, dropEndWhile_append_cons hlastKept, List.append_assoc, List.append_assoc,
      List.singleton_append]
  unfold bare
  rw [String.toList_ofList, hstrip]
  constructor
  · intro htrim
    obtain ⟨f, b, hall, hf, hb⟩ := Text.exists_blanks_trim
      (.ofList (front.dropWhile isBrace ++ (name.toList ++ Text.dropEndWhile isBrace back)))
    have hchars := congrArg String.toList hall
    rw [htrim, String.toList_ofList, String.toList_append, String.toList_append] at hchars
    have hblank (c : Char) (hc : c ∈ front.dropWhile isBrace ++ (name.toList ++ Text.dropEndWhile isBrace back))
        (hend : isBlank c = true ∨ isBrace c = true) : isBlank c = true := by
      rw [hchars] at hc
      rcases List.mem_append.mp hc with hc | hc
      · rcases List.mem_append.mp hc with hc | hc
        · exact hf c hc
        · rcases hend with hend | hend
          · exact hend
          · rw [(hname c hc).2] at hend
            cases hend
      · exact hb c hc
    refine ⟨fun c hc => hblank c (List.mem_append_left _ hc) (hfront c ((List.dropWhile_sublist _).mem hc)), fun c hc =>
      hblank c (List.mem_append_right _ (List.mem_append_right _ hc)) (hback c ?_)⟩
    obtain ⟨more, hmore, -⟩ := Text.exists_append_dropEndWhile isBrace back
    rw [hmore]
    exact List.mem_append_left _ hc
  · rintro ⟨hleft, hright⟩
    have htext : String.ofList (front.dropWhile isBrace ++ (name.toList ++ Text.dropEndWhile isBrace back)) =
        .ofList (front.dropWhile isBrace) ++ (name ++ .ofList (Text.dropEndWhile isBrace back)) := by
      rw [String.ofList_append, String.ofList_append, String.ofList_toList]
    rw [htext, Text.trim_append_left (by rwa [String.toList_ofList]), Text.trim_append_right (by rwa [String.toList_ofList]),
      Text.trim_eq_self fun c hc => (hname c hc).1]

/-- Only blanks stand behind the braces in front exactly when no blank stands in front of one. -/
theorem blank_dropWhile_iff {opening : List Spaced} (h : ∀ s ∈ opening, s.token = .opening) (s : Spaced) :
    (∀ c ∈ ((line opening).toList ++ s.blank.toList).dropWhile isBrace, isBlank c = true) ↔
      ∀ o ∈ opening, o.gap = false := by
  induction opening with
  | nil =>
    refine iff_of_true (fun c hc => isBlank_blank s c ((List.dropWhile_sublist _).mem hc)) fun o ho => absurd ho List.not_mem_nil
  | cons o opening ih =>
    obtain ⟨ho, hopening⟩ := List.forall_mem_cons.mp h
    obtain ⟨gap, token⟩ := o
    rw [List.forall_mem_cons, show token = .opening from ho]
    cases gap with
    | false =>
      rw [toList_line_flush, and_iff_right rfl, ← ih hopening]
      rfl
    | true =>
      rw [toList_line_gap]
      refine iff_of_false (fun hall => ?_) fun hgaps => absurd hgaps.1 (by decide)
      exact absurd (hall '\x7b' (List.mem_cons_of_mem _ List.mem_cons_self)) (by decide)

/-- Only blanks stand in front of the braces at the end exactly when no blank stands between them. -/
theorem blank_dropEndWhile_iff {closing : List Spaced} (h : ∀ s ∈ closing, s.token = .closing) :
    (∀ c ∈ Text.dropEndWhile isBrace (line closing).toList, isBlank c = true) ↔ ∀ s ∈ closing.tail, s.gap = false := by
  induction closing using List.reverseRecOn with
  | nil => exact iff_of_true (fun c hc => absurd hc List.not_mem_nil) fun s hs => absurd hs List.not_mem_nil
  | append_singleton closing s ih =>
    obtain ⟨hclosing, hs⟩ := List.forall_mem_append.mp h
    have hs : s.token = .closing := hs s List.mem_cons_self
    have hline : (line (closing ++ [s])).toList = (line closing).toList ++ s.blank.toList ++ ['\x7d'] := by
      rw [line_append, line_singleton, hs, String.toList_append, String.toList_append, List.append_assoc]
      rfl
    rw [hline, dropEndWhile_concat (by decide)]
    rcases List.eq_nil_or_concat' closing with rfl | ⟨front, c, hconcat⟩
    · refine iff_of_true (fun c hc => isBlank_blank s c ?_) fun t ht => absurd ht List.not_mem_nil
      obtain ⟨more, hmore, -⟩ := Text.exists_append_dropEndWhile isBrace s.blank.toList
      rw [hmore]
      exact List.mem_append_left _ hc
    · have hne : closing ≠ [] := by
        rw [hconcat]
        exact List.append_ne_nil_of_right_ne_nil _ (List.cons_ne_nil _ _)
      rw [List.tail_append_of_ne_nil hne, List.forall_mem_append, List.forall_mem_singleton, ← ih hclosing]
      cases hgap : s.gap with
      | false => rw [Spaced.blank, hgap, if_neg Bool.false_ne_true, and_iff_left rfl]; exact iff_of_eq (by simp)
      | true =>
        refine iff_of_false (fun hall => ?_) fun hgaps => absurd hgaps.2 (by decide)
        have hbrace : '\x7d' ∈ (line closing).toList := by
          rw [hconcat, line_append, line_singleton, hclosing c (hconcat ▸ List.mem_append_right _ List.mem_cons_self)]
          simp [Token.text]
        have hstay : Text.dropEndWhile isBrace ((line closing).toList ++ s.blank.toList) = (line closing).toList ++ [' '] := by
          rw [Spaced.blank, hgap, if_pos rfl]
          exact dropEndWhile_append_cons (by decide) _ []
        exact absurd (hall '\x7d' (hstay ▸ List.mem_append_left _ hbrace)) (by decide)

/-! ## Entries -/

/-- The tokens of a line. -/
def tokensOf (l : List Spaced) : List Token :=
  l.map Spaced.token

/-- A line that ends with colons, or nothing. -/
def EndsWithColons (l : List Spaced) : Prop :=
  ∀ s ∈ l.getLast?, s.token = .colons

/-- Entries that are read as they bind. -/
inductive Clear : List Spaced → Prop where
  | blank : Clear []
  /-- No brace is closed behind an alias. -/
  | renamed {front : List Spaced} {v w : Word} {gap : Bool} (hfront : Front (tokensOf front)) :
      Clear (front ++ [⟨gap, .word v⟩, ⟨true, .keyword⟩, ⟨true, .word w⟩])
  /-- Behind the last colons no blank stands in front of a brace, nor between those that are closed. -/
  | name {front opening closing : List Spaced} {w : Word} {gap : Bool} (hfront : Front (tokensOf front))
      (hcolons : EndsWithColons front) (hopening : ∀ s ∈ opening, s = ⟨false, .opening⟩)
      (hclosing : ∀ s ∈ closing, s.token = .closing) (htouch : ∀ s ∈ closing.tail, s.gap = false) :
      Clear (front ++ opening ++ ⟨gap, .word w⟩ :: closing)
  /-- A wildcard behind colons has a blank in front of it or a brace closed behind it. -/
  | glob {front opening closing : List Spaced} {gap : Bool} (hfront : Front (tokensOf front))
      (hcolons : EndsWithColons front) (hopening : ∀ s ∈ opening, s = ⟨false, .opening⟩)
      (hclosing : ∀ s ∈ closing, s.token = .closing) (htouch : ∀ s ∈ closing.tail, s.gap = false)
      (hkept : gap = true ∨ front = [] ∨ opening ≠ [] ∨ closing ≠ []) :
      Clear (front ++ opening ++ ⟨gap, .star⟩ :: closing)

theorem EndsWithColons.cons {l : List Spaced} (h : EndsWithColons l) {s : Spaced} (hs : l = [] → s.token = .colons) :
    EndsWithColons (s :: l) := by
  intro t ht
  rcases List.eq_nil_or_concat' l with rfl | ⟨init, last, rfl⟩
  · cases ht
    exact hs rfl
  · rw [← List.cons_append, List.getLast?_concat] at ht
    exact h t (by rwa [List.getLast?_concat])

/-- The tokens that come in front of a name. -/
theorem Front.cases_of_mem {l : List Token} (h : Front l) {t : Token} (ht : t ∈ l) :
    t = .colons ∨ t = .opening ∨ ∃ w, t = .word w := by
  induction h with
  | nil => cases ht
  | colons _ ih =>
    rcases List.mem_cons.mp ht with rfl | ht
    · exact Or.inl rfl
    · exact ih ht
  | opening _ ih =>
    rcases List.mem_cons.mp ht with rfl | ht
    · exact Or.inr (Or.inl rfl)
    · exact ih ht
  | segment w _ ih =>
    rcases List.mem_cons.mp ht with rfl | ht
    · exact Or.inr (Or.inr ⟨w, rfl⟩)
    · rcases List.mem_cons.mp ht with rfl | ht
      · exact Or.inl rfl
      · exact ih ht

/-- Behind the last colons in front of a name there are only braces. -/
theorem exists_endsWithColons {l : List Spaced} (h : Front (tokensOf l)) :
    ∃ front opening, l = front ++ opening ∧ Front (tokensOf front) ∧ EndsWithColons front ∧
      ∀ s ∈ opening, s.token = .opening := by
  generalize htokens : tokensOf l = tokens at h
  induction h generalizing l with
  | nil =>
    rw [List.map_eq_nil_iff.mp htokens]
    exact ⟨[], [], rfl, .nil, nofun, fun _ hs => absurd hs List.not_mem_nil⟩
  | colons _ ih =>
    obtain ⟨s, rest, rfl, hs, hrest⟩ := List.map_eq_cons_iff.mp htokens
    obtain ⟨front, opening, rfl, hfront, hcolons, hopening⟩ := ih hrest
    refine ⟨s :: front, opening, rfl, ?_, hcolons.cons fun _ => hs, hopening⟩
    rw [tokensOf, List.map_cons, hs]
    exact .colons hfront
  | opening _ ih =>
    obtain ⟨s, rest, rfl, hs, hrest⟩ := List.map_eq_cons_iff.mp htokens
    obtain ⟨front, opening, rfl, hfront, hcolons, hopening⟩ := ih hrest
    by_cases hnil : front = []
    · subst hnil
      exact ⟨[], s :: opening, rfl, .nil, hcolons, List.forall_mem_cons.mpr ⟨hs, hopening⟩⟩
    · refine ⟨s :: front, opening, rfl, ?_, hcolons.cons fun h => absurd h hnil, hopening⟩
      rw [tokensOf, List.map_cons, hs]
      exact .opening hfront
  | segment w _ ih =>
    obtain ⟨s, rest, rfl, hs, hrest⟩ := List.map_eq_cons_iff.mp htokens
    obtain ⟨c, rest, rfl, hc, hrest⟩ := List.map_eq_cons_iff.mp hrest
    obtain ⟨front, opening, rfl, hfront, hcolons, hopening⟩ := ih hrest
    refine ⟨s :: c :: front, opening, rfl, ?_, (hcolons.cons fun _ => hc).cons nofun, hopening⟩
    rw [tokensOf, List.map_cons, List.map_cons, hs, hc]
    exact .segment w hfront

/-- What is read behind the last colons of a line. -/
theorem afterLast_line {front more : List Spaced} (hfront : EndsWithColons front)
    (hmore : ∀ s ∈ more, s.token.mark? ≠ some ':') : Text.afterLast "::" (line (front ++ more)) = line more := by
  have hcolon : ':' ∉ (line more).toList := notMem_line (by decide) hmore
  unfold Text.afterLast
  rcases List.eq_nil_or_concat' front with rfl | ⟨init, s, rfl⟩
  · have hnone : Text.cutLast? "::" (line more) = none := by
      unfold Text.cutLast? Text.breakOnLast?
      rw [show "::".toList.reverse = [':', ':'] from rfl, Text.breakOn?_of_notMem (by rwa [List.mem_reverse])]
      rfl
    rw [List.nil_append, hnone]
  · have hs : s.token = .colons := hfront s (List.getLast?_concat ..)
    have hline : line (init ++ [s] ++ more) = line init ++ s.blank ++ "::" ++ line more := by
      rw [line_append, line_append, line_singleton, hs, ← String.append_assoc]
      rfl
    rw [hline, Text.cutLast?_append_doubled rfl _ hcolon]

/-- The name of an entry without an alias is what stands behind its last colons, between the braces. -/
theorem boundName?_of_none {entry : String} (hne : entry ≠ "") (has : Text.cutFirst? " as " entry = none) :
    boundName? entry = some (bare (Text.afterLast "::" (Text.dropEnd entry "::*"))) := by
  unfold boundName?
  rw [if_neg (by simpa using hne), has]
  dsimp only
  split
  · rename_i hself
    have hends : Text.endsWith "self" "::*" = false := by decide
    rw [beq_iff_eq.mp hself, Text.dropEnd_eq_self hends]
    decide
  · rfl

theorem boundName?_eq_none_iff {entry : String} : boundName? entry = none ↔ entry = "" := by
  constructor
  · intro h
    by_contra hne
    unfold boundName? at h
    rw [if_neg (by simpa using hne)] at h
    split at h
    · cases h
    · split at h <;> cases h
  · rintro rfl
    rfl

/-! ## Entries without an alias -/

section Leaf

variable {front opening closing : List Spaced} {s : Spaced}

/-- An entry that holds a name or a wildcard, perhaps between braces. -/
structure Leaf (front opening closing : List Spaced) (s : Spaced) : Prop where
  isFront : Front (tokensOf front)
  colons : EndsWithColons front
  opens : ∀ o ∈ opening, o.token = .opening
  closes : ∀ c ∈ closing, c.token = .closing
  isName : s.token = .star ∨ ∃ w, s.token = .word w

namespace Leaf

/-- The tokens of an entry. -/
theorem cases_of_mem (h : Leaf front opening closing s) {t : Spaced} (ht : t ∈ front ++ opening ++ s :: closing) :
    t = s ∨ t.token = .colons ∨ t.token = .opening ∨ t.token = .closing ∨ ∃ w, t.token = .word w := by
  rcases List.mem_append.mp ht with ht | ht
  · rcases List.mem_append.mp ht with ht | ht
    · rcases h.isFront.cases_of_mem (List.mem_map_of_mem ht) with h | h | h
      · exact Or.inr (Or.inl h)
      · exact Or.inr (Or.inr (Or.inl h))
      · exact Or.inr (Or.inr (Or.inr (Or.inr h)))
    · exact Or.inr (Or.inr (Or.inl (h.opens t ht)))
  · rcases List.mem_cons.mp ht with rfl | ht
    · exact Or.inl rfl
    · exact Or.inr (Or.inr (Or.inr (Or.inl (h.closes t ht))))

theorem ne_keyword (h : Leaf front opening closing s) : ∀ t ∈ front ++ opening ++ s :: closing, t.token ≠ .keyword := by
  intro t ht hkeyword
  have hs : s.token ≠ .keyword := by
    rcases h.isName with h | ⟨w, h⟩ <;> rw [h] <;> rintro ⟨⟩
  rcases h.cases_of_mem ht with rfl | h | h | h | ⟨w, h⟩
  · exact hs hkeyword
  all_goals
    rw [h] at hkeyword
    cases hkeyword

theorem name_plain (h : Leaf front opening closing s) {c : Char} (hc : c ∈ s.token.text.toList) :
    isBrace c = false ∧ s.token.mark? ≠ some ':' := by
  rcases h.isName with h | ⟨w, h⟩
  · rw [h] at hc ⊢
    rw [List.mem_singleton.mp (show c ∈ ['*'] from hc)]
    decide
  · rw [h] at hc ⊢
    refine ⟨Bool.eq_false_iff.mpr fun hbrace => (w.plain c hc).2 ?_, nofun⟩
    rw [isBrace, Bool.or_eq_true, beq_iff_eq, beq_iff_eq] at hbrace
    rcases hbrace with rfl | rfl <;> decide

/-- What stands behind the last colons is the name when no blank stands in front of a brace there, nor between those that are
closed. -/
theorem bare_afterLast_iff (h : Leaf front opening closing s) :
    bare (Text.afterLast "::" (line (front ++ opening ++ s :: closing))) = s.token.text ↔
      (∀ o ∈ opening, o.gap = false) ∧ ∀ c ∈ closing.tail, c.gap = false := by
  have hmore : ∀ t ∈ opening ++ s :: closing, t.token.mark? ≠ some ':' := by
    obtain ⟨c, chars, hchars⟩ := List.exists_cons_of_ne_nil (mt String.toList_eq_nil_iff.mp s.token.text_ne_empty)
    have hs : s.token.mark? ≠ some ':' := (h.name_plain (hchars ▸ List.mem_cons_self)).2
    refine List.forall_mem_append.mpr ⟨fun t ht => ?_, List.forall_mem_cons.mpr ⟨hs, fun t ht => ?_⟩⟩
    · rw [h.opens t ht]
      decide
    · rw [h.closes t ht]
      decide
  have hbraces {l : List Spaced} {t : Token} (hl : ∀ s ∈ l, s.token = t) (ht : t.text.toList.all isBrace = true) :
      ∀ c ∈ (line l).toList, isBlank c = true ∨ isBrace c = true := by
    intro c hc
    rcases mem_line hc with rfl | ⟨o, ho, hc⟩
    · exact Or.inl (by decide)
    · exact Or.inr (List.all_eq_true.mp ht c (hl o ho ▸ hc))
  have hline : line (opening ++ s :: closing) =
      .ofList ((line opening).toList ++ s.blank.toList ++ (s.token.text.toList ++ (line closing).toList)) := by
    rw [line_append, line]
    simp only [String.ofList_append, String.ofList_toList, String.append_assoc]
  rw [List.append_assoc, afterLast_line h.colons hmore, hline,
    bare_append_eq_iff s.token.text_ne_empty (fun c hc => ⟨Token.not_blank_of_mem_text hc, (h.name_plain hc).1⟩) ?_
      (hbraces h.closes (by decide)),
    blank_dropWhile_iff h.opens, blank_dropEndWhile_iff h.closes]
  exact List.forall_mem_append.mpr ⟨hbraces h.opens (by decide), fun c hc => Or.inl (isBlank_blank s c hc)⟩

theorem boundName?_line (h : Leaf front opening closing s) (hapart : Apart (front ++ opening ++ s :: closing)) :
    boundName? (line (front ++ opening ++ s :: closing)) =
      some (bare (Text.afterLast "::" (Text.dropEnd (line (front ++ opening ++ s :: closing)) "::*"))) := by
  refine boundName?_of_none ?_ (cutFirst?_as_of_notMem hapart h.ne_keyword)
  rw [line_append, line]
  simp [s.token.text_ne_empty]

/-- An entry that does not end with colons and a wildcard is read as it binds when its braces stand together. -/
theorem boundName?_iff (h : Leaf front opening closing s) (hapart : Apart (front ++ opening ++ s :: closing))
    (hends : Text.endsWith (line (front ++ opening ++ s :: closing)) "::*" = false) :
    boundName? (line (front ++ opening ++ s :: closing)) = some s.token.text ↔
      (∀ o ∈ opening, o.gap = false) ∧ ∀ c ∈ closing.tail, c.gap = false := by
  rw [h.boundName?_line hapart, Text.dropEnd_eq_self hends, Option.some.injEq, h.bare_afterLast_iff]

/-- Where there is no wildcard, nothing ends with one. -/
theorem endsWith_of_word (h : Leaf front opening closing s) (hs : s.token ≠ .star) :
    Text.endsWith (line (front ++ opening ++ s :: closing)) "::*" = false := by
  have hstar : '*' ∉ (line (front ++ opening ++ s :: closing)).toList := by
    refine notMem_line (by decide) fun t ht => ?_
    rcases h.cases_of_mem ht with rfl | ht | ht | ht | ⟨w, ht⟩
    · rcases h.isName with hname | ⟨w, hname⟩
      · exact absurd hname hs
      · rw [hname]
        rintro ⟨⟩
    all_goals
      rw [ht]
      rintro ⟨⟩
  refine Bool.eq_false_iff.mpr fun hends => hstar ?_
  obtain ⟨rest, hrest⟩ := Text.endsWith_iff.mp hends
  rw [hrest]
  simp

/-- A wildcard that is not the last after colons without a blank ends no text with them. -/
theorem endsWith_of_kept (h : Leaf front opening closing s) (hs : s.token = .star)
    (hkept : s.gap = true ∨ front = [] ∨ opening ≠ [] ∨ closing ≠ []) :
    Text.endsWith (line (front ++ opening ++ s :: closing)) "::*" = false := by
  have hconcat (l : List Spaced) (t : Spaced) : (line (l ++ [t])).toList.reverse =
      t.token.text.toList.reverse ++ (t.blank.toList.reverse ++ (line l).toList.reverse) := by
    rw [line_append, line_singleton, String.toList_append, String.toList_append, List.reverse_append, List.reverse_append,
      List.append_assoc]
  show ['*', ':', ':'].isPrefixOf _ = false
  rcases List.eq_nil_or_concat' closing with rfl | ⟨init, c, rfl⟩
  · rw [hconcat, hs]
    show [':', ':'].isPrefixOf (s.blank.toList.reverse ++ (line (front ++ opening)).toList.reverse) = false
    unfold Spaced.blank
    cases hgap : s.gap with
    | true => rfl
    | false =>
      rcases List.eq_nil_or_concat' opening with rfl | ⟨braces, o, rfl⟩
      · have hnil : front = [] := by
          rcases hkept with hkept | hkept | hkept | hkept
          · rw [hgap] at hkept
            cases hkept
          · exact hkept
          · exact absurd rfl hkept
          · exact absurd rfl hkept
        rw [hnil]
        rfl
      · rw [← List.append_assoc, hconcat, h.opens o (List.mem_append_right _ List.mem_cons_self)]
        rfl
  · rw [← List.cons_append, ← List.append_assoc, hconcat, h.closes c (List.mem_append_right _ List.mem_cons_self)]
    rfl

/-- A wildcard that the text ends with behind colons is lost. -/
theorem boundName?_ne_of_glob (h : Leaf front [] [] s) (hapart : Apart (front ++ [] ++ [s])) (hs : s = ⟨false, .star⟩)
    (hne : front ≠ []) : boundName? (line (front ++ [] ++ [s])) ≠ some "*" := by
  obtain ⟨init, c, hfront⟩ := (List.eq_nil_or_concat' front).resolve_left hne
  have hc : c.token = .colons := h.colons c (by rw [hfront, List.getLast?_concat]; rfl)
  have hline : line (front ++ [] ++ [s]) = line init ++ c.blank ++ "::*" := by
    rw [List.append_nil, line_append, line_singleton, hfront, line_append, line_singleton, hc, hs, blank_of_flush,
      String.empty_append, ← String.append_assoc, String.append_assoc]
    rfl
  have hstar : '*' ∉ (line init ++ c.blank).toList := by
    rw [String.toList_append, List.mem_append]
    rintro (hmem | hmem)
    · refine notMem_line (by decide) (fun t ht => ?_) hmem
      have hinit : t.token ∈ tokensOf front := by
        rw [hfront]
        exact List.mem_map_of_mem (List.mem_append_left _ ht)
      rcases h.isFront.cases_of_mem hinit with ht | ht | ⟨w, ht⟩ <;> rw [ht] <;> rintro ⟨⟩
    · exact absurd (isBlank_blank c _ hmem) (by decide)
  have hends : Text.endsWith (line init ++ c.blank) "::*" = false := by
    refine Bool.eq_false_iff.mpr fun hends => hstar ?_
    obtain ⟨rest, hrest⟩ := Text.endsWith_iff.mp hends
    rw [hrest]
    simp
  rw [h.boundName?_line hapart, hline, Text.dropEnd_append (by decide), Text.dropEnd_eq_self hends]
  intro hfound
  have hmem : '*' ∈ (bare (Text.afterLast "::" (line init ++ c.blank))).toList := by
    rw [Option.some.inj hfound]
    decide
  exact hstar (mem_of_mem_afterLast (mem_of_mem_bare hmem))

end Leaf

end Leaf

/-! ## Entries with an alias -/

section Renamed

variable {front closing : List Spaced} {v w : Word} {gap : Bool}

/-- An alias is read with all that stands behind it. -/
theorem boundName?_renamed_iff (hfront : Front (tokensOf front)) (hapart : Apart (front ++ [⟨gap, .word v⟩])) :
    boundName? (line (front ++ [⟨gap, .word v⟩, ⟨true, .keyword⟩, ⟨true, .word w⟩] ++ closing)) = some w.text ↔
      closing = [] := by
  have hline : line (front ++ [⟨gap, .word v⟩, ⟨true, .keyword⟩, ⟨true, .word w⟩] ++ closing) =
      line (front ++ [⟨gap, .word v⟩]) ++ " as " ++ (w.text ++ line closing) := by
    simp only [line_append, line, blank_of_gap, Token.text, String.append_assoc, String.append_empty]
    rfl
  have hword : Token.word v ≠ .keyword := by rintro ⟨⟩
  have hkeyword : ∀ s ∈ front ++ [⟨gap, .word v⟩], s.token ≠ .keyword := by
    refine List.forall_mem_append.mpr ⟨fun s hs => ?_, List.forall_mem_singleton.mpr hword⟩
    rcases hfront.cases_of_mem (List.mem_map_of_mem hs) with h | h | ⟨_, h⟩ <;> rw [h] <;> rintro ⟨⟩
  have hread : boundName? (line (front ++ [⟨gap, .word v⟩, ⟨true, .keyword⟩, ⟨true, .word w⟩] ++ closing)) =
      some (w.text ++ line closing) := by
    unfold boundName?
    rw [hline, if_neg (by simp), cutFirst?_as_append hapart hkeyword]
    dsimp only
    rw [Text.trim_append_of_forall (fun c hc => (w.plain c hc).1) w.ne_empty, trimEnd_line]
  rw [hread, Option.some.injEq]
  constructor
  · exact fun h => line_eq_empty_iff.mp (by simpa using h)
  · rintro rfl
    exact String.append_empty

end Renamed

/-! ## The name of an entry -/

/-- Whether a token closes a brace. -/
def Token.isClosing : Token → Bool
  | closing => true
  | _ => false

/-- The name that a token gives to what it ends. -/
def Token.name? : Token → Option String
  | word w => some w.text
  | star => some "*"
  | _ => none

/-- The name that the last token in front of the closed braces gives. -/
def lastName? (l : List Token) : Option String :=
  (l.reverse.dropWhile Token.isClosing).head?.bind Token.name?

theorem lastName?_append {closers : List Token} (h : ∀ t ∈ closers, t = .closing) (l : List Token) :
    lastName? (l ++ closers) = lastName? l := by
  unfold lastName?
  rw [List.reverse_append, List.dropWhile_append_of_pos fun t ht => by rw [h t (List.mem_reverse.mp ht)]; rfl]

theorem lastName?_concat {t : Token} (h : t.isClosing = false) (l : List Token) : lastName? (l ++ [t]) = t.name? := by
  unfold lastName?
  rw [List.reverse_concat, List.dropWhile_cons_of_neg (by simp [h]), List.head?_cons, Option.bind_some]

/-- A name that stands last, but for closed braces, is that of the entry. -/
theorem lastName?_append_cons {t : Token} (ht : t.isClosing = false) {closers : List Token} (h : ∀ t ∈ closers, t = .closing)
    (front : List Token) : lastName? (front ++ t :: closers) = t.name? := by
  rw [← List.singleton_append, ← List.append_assoc, lastName?_append h, lastName?_concat ht]

/-- Colons or a brace stand right in front of a name. -/
theorem Front.cases_of_getLast? {l : List Token} (h : Front l) {t : Token} (ht : l.getLast? = some t) :
    t = .colons ∨ t = .opening := by
  have hcons {a : Token} {l : List Token} (ha : a = .colons ∨ a = .opening)
      (ih : l.getLast? = some t → t = .colons ∨ t = .opening) (h : (a :: l).getLast? = some t) :
      t = .colons ∨ t = .opening := by
    rw [List.getLast?_cons, Option.some.injEq] at h
    cases hlast : l.getLast? with
    | none =>
      rw [hlast, Option.getD_none] at h
      exact h ▸ ha
    | some last =>
      rw [hlast, Option.getD_some] at h
      exact ih (by rw [hlast, h])
  induction h with
  | nil => cases ht
  | colons _ ih => exact hcons (Or.inl rfl) ih ht
  | opening _ ih => exact hcons (Or.inr rfl) ih ht
  | segment w _ ih =>
    rw [List.getLast?_cons_cons] at ht
    exact hcons (Or.inl rfl) ih ht

theorem Front.lastName?_eq_none {l : List Token} (h : Front l) : lastName? l = none := by
  rcases List.eq_nil_or_concat' l with rfl | ⟨init, t, rfl⟩
  · rfl
  · rcases h.cases_of_getLast? (List.getLast?_concat ..) with rfl | rfl
    · exact lastName?_concat rfl init
    · exact lastName?_concat rfl init

theorem Entry.lastName?_eq {l : List Token} {name : Option String} (h : Entry l name) : lastName? l = name := by
  cases h with
  | bare hfront hclosers => rw [lastName?_append hclosers, hfront.lastName?_eq_none]
  | name hfront w hclosers => exact lastName?_append_cons (t := .word w) rfl hclosers _
  | glob hfront hclosers => exact lastName?_append_cons (t := .star) rfl hclosers _
  | @renamed front closers hfront v w hclosers =>
    have hlast := lastName?_append_cons (t := .word w) rfl hclosers (front ++ [.word v, .keyword])
    rwa [List.append_assoc] at hlast

theorem tokensOf_append (l more : List Spaced) : tokensOf (l ++ more) = tokensOf l ++ tokensOf more :=
  List.map_append

theorem eq_closing_of_mem_tokensOf {closing : List Spaced} (h : ∀ s ∈ closing, s.token = .closing) :
    ∀ t ∈ tokensOf closing, t = .closing :=
  List.forall_mem_map.mpr h

/-- Clear entries are read as they bind. -/
theorem Clear.boundName?_eq {l : List Spaced} (h : Clear l) (hapart : Apart l) :
    boundName? (line l) = lastName? (tokensOf l) := by
  cases h with
  | blank => rfl
  | @renamed front v w gap hfront =>
    have hfirst : Apart (front ++ [⟨gap, .word v⟩]) := by
      rw [show front ++ [⟨gap, .word v⟩, ⟨true, .keyword⟩, ⟨true, .word w⟩] =
        front ++ [⟨gap, .word v⟩] ++ [⟨true, .keyword⟩, ⟨true, .word w⟩] by simp] at hapart
      exact hapart.left
    have hread : boundName? (line (front ++ [⟨gap, .word v⟩, ⟨true, .keyword⟩, ⟨true, .word w⟩] ++ [])) = some w.text :=
      (boundName?_renamed_iff hfront hfirst).mpr rfl
    have hlast := lastName?_concat (t := .word w) rfl (tokensOf front ++ [.word v, .keyword])
    rw [List.append_nil] at hread
    rw [hread, tokensOf_append]
    rw [List.append_assoc] at hlast
    exact hlast.symm
  | @name front opening closing w gap hfront hcolons hopening hclosing htouch =>
    have hleaf : Leaf front opening closing ⟨gap, .word w⟩ :=
      ⟨hfront, hcolons, fun o ho => by rw [hopening o ho], hclosing, Or.inr ⟨w, rfl⟩⟩
    rw [(hleaf.boundName?_iff hapart (hleaf.endsWith_of_word nofun)).mpr ⟨fun o ho => by rw [hopening o ho], htouch⟩,
      tokensOf_append]
    exact (lastName?_append_cons (t := .word w) rfl (eq_closing_of_mem_tokensOf hclosing) _).symm
  | @glob front opening closing gap hfront hcolons hopening hclosing htouch hkept =>
    have hleaf : Leaf front opening closing ⟨gap, .star⟩ :=
      ⟨hfront, hcolons, fun o ho => by rw [hopening o ho], hclosing, Or.inl rfl⟩
    rw [(hleaf.boundName?_iff hapart (hleaf.endsWith_of_kept rfl hkept)).mpr ⟨fun o ho => by rw [hopening o ho], htouch⟩,
      tokensOf_append]
    exact (lastName?_append_cons (t := .star) rfl (eq_closing_of_mem_tokensOf hclosing) _).symm

/-- An entry that holds a name or a wildcard, with its parts. -/
theorem exists_leaf {l : List Spaced} {front closers : List Token} {t : Token} (hfront : Front front)
    (hclosers : ∀ t ∈ closers, t = .closing) (ht : t = .star ∨ ∃ w, t = .word w)
    (h : tokensOf l = front ++ t :: closers) :
    ∃ front opening closing gap, l = front ++ opening ++ ⟨gap, t⟩ :: closing ∧ Leaf front opening closing ⟨gap, t⟩ := by
  obtain ⟨left, right, rfl, rfl, hright⟩ := List.map_eq_append_iff.mp h
  obtain ⟨s, closing, rfl, rfl, rfl⟩ := List.map_eq_cons_iff.mp hright
  obtain ⟨front, opening, rfl, hfront, hcolons, hopening⟩ := exists_endsWithColons hfront
  exact ⟨front, opening, closing, s.gap, rfl, hfront, hcolons, hopening, List.forall_mem_map.mp hclosers, ht⟩

theorem forall_eq_opening {opening : List Spaced} (h : ∀ s ∈ opening, s.token = .opening)
    (hgaps : ∀ s ∈ opening, s.gap = false) : ∀ s ∈ opening, s = ⟨false, .opening⟩ := by
  intro s hs
  rw [← h s hs, ← hgaps s hs]

/-- An entry is read as it binds exactly when it is clear. -/
theorem boundName?_eq_iff {l : List Spaced} {name : Option String} (h : Entry (tokensOf l) name) (hapart : Apart l) :
    boundName? (line l) = name ↔ Clear l := by
  refine ⟨fun hread => ?_, fun hclear => by rw [hclear.boundName?_eq hapart, h.lastName?_eq]⟩
  generalize htokens : tokensOf l = tokens at h
  cases h with
  | bare hfront hclosers =>
    rw [line_eq_empty_iff.mp (boundName?_eq_none_iff.mp hread)]
    exact .blank
  | name hfront w hclosers =>
    obtain ⟨front, opening, closing, gap, rfl, hleaf⟩ := exists_leaf hfront hclosers (Or.inr ⟨w, rfl⟩) htokens
    obtain ⟨hgaps, htouch⟩ := (hleaf.boundName?_iff hapart (hleaf.endsWith_of_word nofun)).mp hread
    exact .name hleaf.isFront hleaf.colons (forall_eq_opening hleaf.opens hgaps) hleaf.closes htouch
  | glob hfront hclosers =>
    obtain ⟨front, opening, closing, gap, rfl, hleaf⟩ := exists_leaf hfront hclosers (Or.inl rfl) htokens
    by_cases hkept : gap = true ∨ front = [] ∨ opening ≠ [] ∨ closing ≠ []
    · obtain ⟨hgaps, htouch⟩ := (hleaf.boundName?_iff hapart (hleaf.endsWith_of_kept rfl hkept)).mp hread
      exact .glob hleaf.isFront hleaf.colons (forall_eq_opening hleaf.opens hgaps) hleaf.closes htouch hkept
    · simp only [not_or, not_not, Bool.not_eq_true] at hkept
      obtain ⟨rfl, hne, rfl, rfl⟩ := hkept
      exact absurd hread (hleaf.boundName?_ne_of_glob hapart rfl hne)
  | renamed hfront v w hclosers =>
    obtain ⟨front, rest, rfl, rfl, hrest⟩ := List.map_eq_append_iff.mp htokens
    obtain ⟨⟨gap, first⟩, afterFirst, rfl, hfirst, hafterFirst⟩ := List.map_eq_cons_iff.mp hrest
    obtain ⟨⟨gapAs, second⟩, afterSecond, rfl, hsecond, hafterSecond⟩ := List.map_eq_cons_iff.mp hafterFirst
    obtain ⟨⟨gapAlias, third⟩, closing, rfl, hthird, -⟩ := List.map_eq_cons_iff.mp hafterSecond
    obtain rfl : first = .word v := hfirst
    obtain rfl : second = .keyword := hsecond
    obtain rfl : third = .word w := hthird
    have hchain := List.isChain_cons_cons.mp hapart.right
    obtain rfl : gapAs = true := hchain.1 rfl rfl
    obtain rfl : gapAlias = true := (List.isChain_cons_cons.mp hchain.2).1 rfl rfl
    have hsplit : front ++ ⟨gap, .word v⟩ :: ⟨true, .keyword⟩ :: ⟨true, .word w⟩ :: closing =
        front ++ [⟨gap, .word v⟩, ⟨true, .keyword⟩, ⟨true, .word w⟩] ++ closing := by simp
    have hbefore : Apart (front ++ [⟨gap, .word v⟩]) := by
      rw [show front ++ ⟨gap, .word v⟩ :: ⟨true, .keyword⟩ :: ⟨true, .word w⟩ :: closing =
        front ++ [⟨gap, .word v⟩] ++ (⟨true, .keyword⟩ :: ⟨true, .word w⟩ :: closing) by simp] at hapart
      exact hapart.left
    rw [hsplit] at hread ⊢
    rw [(boundName?_renamed_iff hfront hbefore).mp hread, List.append_nil]
    exact .renamed hfront

end CodeAtlas.Rust
