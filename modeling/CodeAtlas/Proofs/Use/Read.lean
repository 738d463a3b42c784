/-
  How use declarations are read.

  The text of a use tree is taken apart at its first brace, its last one and its commas.  What comes out is the path in front
  and the names of the tree exactly when no blank stands inside certain pairs of tokens and all entries of its group are clear
  (`UseTree.names_read_iff`): a group inside a group is read right only as long as no alias stands in front of a closing brace,
  no wildcard is the last thing in front of a comma, no comma or nothing at all in front of a closing brace, and the braces
  stand together.
-/
import CodeAtlas.Proofs.Use.Entry

namespace CodeAtlas.Rust

open Text (isBlank)

/-! ## Reading a group -/

/-- The names that are read off the entries of a text. -/
def entryNames (s : String) : List String :=
  (Text.splitChar ',' s).filterMap fun entry => boundName? (Text.trim entry)

/-- Lists of which no part is lost agree when their parts do. -/
theorem toList_append_eq_iff {α : Type} {o found : Option α} {l rest : List α} (ho : o.isSome = true → found.isSome = true)
    (hl : l.length ≤ rest.length) : found.toList ++ rest = o.toList ++ l ↔ found = o ∧ rest = l := by
  cases o with
  | none =>
    cases found with
    | none => exact (and_iff_right rfl).symm
    | some a =>
      refine iff_of_false (fun h => ?_) fun h => nomatch h.1
      have hlength := congrArg List.length h
      simp only [Option.toList_some, Option.toList_none, List.length_append, List.length_singleton, List.length_nil] at hlength
      omega
  | some b =>
    cases found with
    | none => exact absurd (ho rfl) Bool.false_ne_true
    | some a =>
      rw [Option.toList_some, Option.toList_some, List.singleton_append, List.singleton_append, List.cons.injEq,
        Option.some.injEq]

theorem Entry.isComma_eq {l : List Token} {name : Option String} (h : Entry l name) : ∀ t ∈ l, t.isComma = false := by
  have hfront {front : List Token} (h : Front front) : ∀ t ∈ front, t.isComma = false := by
    intro t ht
    rcases h.cases_of_mem ht with rfl | rfl | ⟨w, rfl⟩ <;> rfl
  have hclosers {closers : List Token} (h : ∀ t ∈ closers, t = .closing) : ∀ t ∈ closers, t.isComma = false := by
    intro t ht
    rw [h t ht]
    rfl
  cases h with
  | bare h hc => exact List.forall_mem_append.mpr ⟨hfront h, hclosers hc⟩
  | name h w hc => exact List.forall_mem_append.mpr ⟨hfront h, List.forall_mem_cons.mpr ⟨rfl, hclosers hc⟩⟩
  | glob h hc => exact List.forall_mem_append.mpr ⟨hfront h, List.forall_mem_cons.mpr ⟨rfl, hclosers hc⟩⟩
  | renamed h v w hc =>
    exact List.forall_mem_append.mpr ⟨hfront h, List.forall_mem_cons.mpr ⟨rfl, List.forall_mem_cons.mpr
      ⟨rfl, List.forall_mem_cons.mpr ⟨rfl, hclosers hc⟩⟩⟩⟩

/-- The names of entries are words or wildcards. -/
theorem Reads.cases_of_mem {l : List Token} {names : List String} (h : Reads l names) {name : String} (hname : name ∈ names) :
    name = "*" ∨ ∃ w : Word, name = w.text := by
  have hentry {entry : List Token} {bound : Option String} (h : Entry entry bound) (hname : name ∈ bound.toList) :
      name = "*" ∨ ∃ w : Word, name = w.text := by
    cases h with
    | bare => cases hname
    | name _ w => exact Or.inr ⟨w, List.mem_singleton.mp hname⟩
    | glob => exact Or.inl (List.mem_singleton.mp hname)
    | renamed _ _ w => exact Or.inr ⟨w, List.mem_singleton.mp hname⟩
  induction h with
  | last h => exact hentry h hname
  | next h _ ih => exact (List.mem_append.mp hname).elim (hentry h) ih

section Group

variable {l : List Spaced} {name : Option String} {names : List String} {blanks : String}

theorem tokensOf_flush (l : List Spaced) : tokensOf (flush l) = tokensOf l := by
  cases l <;> rfl

theorem Apart.flush (h : Apart l) : Apart (flush l) := by
  cases l with
  | nil => exact h
  | cons s rest => exact List.isChain_cons.mpr (List.isChain_cons.mp h)

/-- An entry is read off its text as it binds when it is clear without the blank in front of it, and its name is not lost. -/
theorem Entry.boundName?_trim (h : Entry (tokensOf l) name) (hapart : Apart l) (hblanks : ∀ c ∈ blanks.toList, isBlank c = true) :
    (name.isSome = true → (boundName? (Text.trim (line l ++ blanks))).isSome = true) ∧
      (boundName? (Text.trim (line l ++ blanks)) = name ↔ Clear (flush l)) := by
  rw [trim_line l hblanks]
  have hflush : Entry (tokensOf (Rust.flush l)) name := (tokensOf_flush l).symm ▸ h
  refine ⟨fun hname => ?_, boundName?_eq_iff hflush hapart.flush⟩
  by_contra hlost
  rw [Option.not_isSome_iff_eq_none, boundName?_eq_none_iff, line_eq_empty_iff] at hlost
  rw [hlost] at hflush
  rw [← hflush.lastName?_eq] at hname
  cases hname

/-- A line without commas is not cut at commas. -/
theorem comma_notMem_line (h : ∀ t ∈ tokensOf l, t.isComma = false) (hblanks : ∀ c ∈ blanks.toList, isBlank c = true) :
    ',' ∉ (line l ++ blanks).toList := by
  have hmark (t : Token) (ht : t.isComma = false) : t.mark? ≠ some ',' := by
    cases t with
    | comma => cases ht
    | _ => rintro ⟨⟩
  rw [String.toList_append, List.mem_append, not_or]
  refine ⟨notMem_line (by decide) fun s hs => hmark _ (h _ (List.mem_map_of_mem hs)), fun hmem => ?_⟩
  exact absurd (hblanks _ hmem) (by decide)

theorem splitWhen_isComma (h : ∀ t ∈ tokensOf l, t.isComma = false) : Text.splitWhen (fun s => s.token.isComma) l = [l] := by
  rw [Text.splitWhen_eq_splitOnP]
  exact List.splitOnP_eq_singleton fun s hs => h _ (List.mem_map_of_mem hs)

theorem splitWhen_comma (h : ∀ t ∈ tokensOf l, t.isComma = false) {s : Spaced} (hs : s.token = .comma) (rest : List Spaced) :
    Text.splitWhen (fun s => s.token.isComma) (l ++ s :: rest) = l :: Text.splitWhen (fun s => s.token.isComma) rest := by
  rw [Text.splitWhen_eq_splitOnP, List.splitOnP_append_cons _ _ (by rw [hs]; rfl), ← Text.splitWhen_eq_splitOnP,
    ← Text.splitWhen_eq_splitOnP, splitWhen_isComma h, List.singleton_append]

/-- The entries of a list of use trees are read as the trees bind, and no name is lost, when all of them are clear. -/
theorem Reads.entryNames_iff (h : Reads (tokensOf l) names) (hapart : Apart l)
    (hblanks : ∀ c ∈ blanks.toList, isBlank c = true) :
    names.length ≤ (entryNames (line l ++ blanks)).length ∧
      (entryNames (line l ++ blanks) = names ↔
        ∀ entry ∈ Text.splitWhen (fun s => s.token.isComma) l, Clear (flush entry)) := by
  have hlength {name found : Option String} (h : name.isSome = true → found.isSome = true) :
      name.toList.length ≤ found.toList.length := by
    cases name with
    | none => exact Nat.zero_le _
    | some _ =>
      obtain ⟨_, hfound⟩ := Option.isSome_iff_exists.mp (h rfl)
      rw [hfound]
      exact Nat.le_refl _
  generalize htokens : tokensOf l = tokens at h
  induction h generalizing l with
  | last h =>
    subst htokens
    obtain ⟨hkept, hread⟩ := h.boundName?_trim hapart hblanks
    have hnames : entryNames (line l ++ blanks) = (boundName? (Text.trim (line l ++ blanks))).toList := by
      unfold entryNames
      rw [Text.splitChar_of_notMem (comma_notMem_line h.isComma_eq hblanks)]
      cases hfound : boundName? (Text.trim (line l ++ blanks)) <;> simp [hfound]
    rw [splitWhen_isComma h.isComma_eq, List.forall_mem_singleton, ← hread, hnames]
    refine ⟨hlength hkept, fun hsame => ?_, congrArg Option.toList⟩
    rw [← Option.head?_toList (o := boundName? _), hsame, Option.head?_toList]
  | @next entry rest name names h hrest ih =>
    obtain ⟨first, more, rfl, rfl, hmore⟩ := List.map_eq_append_iff.mp htokens
    obtain ⟨s, more, rfl, hs, rfl⟩ := List.map_eq_cons_iff.mp hmore
    obtain ⟨hkept, hread⟩ := h.boundName?_trim hapart.left (isBlank_blank s)
    obtain ⟨hcount, hothers⟩ := ih (l := more) (List.IsChain.tail hapart.right) rfl
    have hline : line (first ++ s :: more) ++ blanks = line first ++ s.blank ++ "," ++ (line more ++ blanks) := by
      rw [line_append, line, hs]
      simp only [String.append_assoc]
      rfl
    have hnames : entryNames (line (first ++ s :: more) ++ blanks) =
        (boundName? (Text.trim (line first ++ s.blank))).toList ++ entryNames (line more ++ blanks) := by
      unfold entryNames
      rw [hline, Text.splitChar_append rfl, Text.splitChar_of_notMem (comma_notMem_line h.isComma_eq (isBlank_blank s)),
        List.singleton_append]
      cases hfound : boundName? (Text.trim (line first ++ s.blank)) <;> simp [hfound]
    rw [splitWhen_comma h.isComma_eq hs, List.forall_mem_cons, ← hread, ← hothers, hnames]
    refine ⟨?_, toList_append_eq_iff hkept hcount⟩
    rw [List.length_append, List.length_append]
    exact Nat.add_le_add (hlength hkept) hcount

end Group

/-! ## Reading a declaration -/

section Declaration

variable {text : String} {front inner l : List Spaced} {v w : Word} {gap : Bool}

theorem flush_eq_self (h : ∀ s ∈ l.head?, s.gap = false) : flush l = l := by
  cases l with
  | nil => rfl
  | cons s rest =>
    have hgap : s.gap = false := h s rfl
    rw [flush, ← hgap]

theorem trim_line_self (h : ∀ s ∈ l.head?, s.gap = false) : Text.trim (line l) = line l := by
  have hempty : ∀ c ∈ "".toList, isBlank c = true := fun c hc => absurd hc List.not_mem_nil
  have htrim := trim_line l hempty
  rwa [String.append_empty, flush_eq_self h] at htrim

/-! Paths in front -/

namespace Lead

variable {lead : Lead} {t : Token}

theorem cases_of_mem (h : t ∈ lead.tokens) : t = .colons ∨ ∃ w, t = .word w := by
  unfold tokens at h
  rcases List.mem_append.mp h with h | h
  · split at h
    · exact Or.inl (List.mem_singleton.mp h)
    · cases h
  · obtain ⟨w, -, h⟩ := List.mem_flatMap.mp h
    rcases List.mem_pair.mp h with h | h
    · exact Or.inr ⟨w, h⟩
    · exact Or.inl h

/-- A path with a segment ends with it, in front of the colons. -/
theorem exists_concat (h : lead.segments ≠ []) :
    ∃ (init : List Token) (w : Word), lead.tokens = init ++ [.word w] ++ [.colons] ∧ ∀ t ∈ init, t ∈ lead.tokens := by
  obtain ⟨init, w, hsegments⟩ := (List.eq_nil_or_concat' lead.segments).resolve_left h
  have htokens : lead.tokens = ((if lead.rooted then [Token.colons] else []) ++
      init.flatMap fun w => [Token.word w, Token.colons]) ++ [Token.word w] ++ [Token.colons] := by
    unfold tokens
    rw [hsegments, List.flatMap_append]
    simp
  exact ⟨_, w, htokens, fun t ht => by rw [htokens]; exact List.mem_append_left _ (List.mem_append_left _ ht)⟩

theorem eq_colons_of_getLast? (h : lead.tokens.getLast? = some t) : t = .colons := by
  by_cases hsegments : lead.segments = []
  · unfold tokens at h
    rw [hsegments, List.flatMap_nil, List.append_nil] at h
    split at h <;> cases h
    rfl
  · obtain ⟨init, w, htokens, -⟩ := exists_concat hsegments
    rw [htokens, List.getLast?_concat] at h
    exact (Option.some.inj h).symm

variable {front : List Spaced}

theorem endsWithColons (h : tokensOf front = lead.tokens) : EndsWithColons front := by
  intro s hs
  have hlast : lead.tokens.getLast? = some s.token := by
    rw [← h, tokensOf, List.getLast?_map, Option.mem_def.mp hs, Option.map_some]
  exact eq_colons_of_getLast? hlast

theorem token_mem (h : tokensOf front = lead.tokens) {s : Spaced} (hs : s ∈ front) : s.token ∈ lead.tokens := by
  rw [← h]
  exact List.mem_map_of_mem hs

/-- A path holds no marks but colons. -/
theorem mark?_ne (h : tokensOf front = lead.tokens) {c : Char} (hc : c ≠ ':') : ∀ s ∈ front, s.token.mark? ≠ some c := by
  intro s hs
  rcases cases_of_mem (token_mem h hs) with h | ⟨w, h⟩
  · rw [h]
    exact fun hsame => hc (Option.some.inj hsame).symm
  · rw [h]
    rintro ⟨⟩

theorem mark?_ne_concat (h : tokensOf front = lead.tokens) {c : Char} (hc : c ≠ ':') {s : Spaced} (hs : s.token.mark? ≠ some c) :
    ∀ t ∈ front ++ [s], t.token.mark? ≠ some c :=
  List.forall_mem_append.mpr ⟨mark?_ne h hc, List.forall_mem_singleton.mpr hs⟩

/-- A path and what it leads to hold no alias. -/
theorem ne_keyword_concat (h : tokensOf front = lead.tokens) {s : Spaced} (hs : s.token ≠ .keyword) :
    ∀ t ∈ front ++ [s], t.token ≠ .keyword := by
  refine List.forall_mem_append.mpr ⟨fun t ht hkeyword => ?_, List.forall_mem_singleton.mpr hs⟩
  rcases cases_of_mem (token_mem h ht) with h | ⟨w, h⟩ <;> rw [hkeyword] at h <;> cases h

end Lead

variable {lead : Lead}

theorem stripEnd?_of_notMem {s : String} (h : '*' ∉ s.toList) : Text.stripEnd? s "::*" = none := by
  refine Text.stripEnd?_eq_none_iff.mpr (Bool.eq_false_iff.mpr fun hends => h ?_)
  obtain ⟨rest, rfl⟩ := Text.endsWith_iff.mp hends
  simp

/-- A path is read as it is, and its last segment with the blank in front of it. -/
theorem useTree_of_name {s : Spaced} (hs : s.token = .word w) (htext : Text.collapse text = line (front ++ [s]))
    (hlead : tokensOf front = lead.tokens) (hflush : ∀ t ∈ (front ++ [s]).head?, t.gap = false)
    (hapart : Apart (front ++ [s])) : useTree text = (line (front ++ [s]), [s.blank ++ w.text]) := by
  have hmark {c : Char} (hc : c ≠ ':') : ∀ t ∈ front ++ [s], t.token.mark? ≠ some c :=
    Lead.mark?_ne_concat hlead hc (by rw [hs]; rintro ⟨⟩)
  have hgroup : Text.cutFirst? "\x7b" (line (front ++ [s])) = none :=
    Text.cutFirst?_of_notMem rfl (notMem_line (by decide) (hmark (by decide)))
  have hglob : Text.stripEnd? (line (front ++ [s])) "::*" = none :=
    stripEnd?_of_notMem (notMem_line (by decide) (hmark (by decide)))
  have halias : Text.cutFirst? " as " (line (front ++ [s])) = none :=
    cutFirst?_as_of_notMem hapart (Lead.ne_keyword_concat hlead (by rw [hs]; rintro ⟨⟩))
  have hlast : Text.afterLast "::" (line (front ++ [s])) = s.blank ++ w.text := by
    rw [afterLast_line (Lead.endsWithColons hlead) (List.forall_mem_singleton.mpr (by rw [hs]; rintro ⟨⟩)), line_singleton, hs]
    rfl
  unfold useTree
  rw [htext]
  dsimp only
  rw [hgroup, hglob, halias]
  dsimp only
  rw [trim_line_self hflush, hlast]

/-- An alias is read with the path in front of it. -/
theorem useTree_of_renamed {s a r : Spaced} (hs : s.token = .word v) (ha : a = ⟨true, .keyword⟩) (hr : r = ⟨true, .word w⟩)
    (htext : Text.collapse text = line (front ++ [s] ++ [a, r])) (hlead : tokensOf front = lead.tokens)
    (hflush : ∀ t ∈ (front ++ [s]).head?, t.gap = false) (hapart : Apart (front ++ [s])) :
    useTree text = (line (front ++ [s]), [w.text]) := by
  have hmark {c : Char} (hc : c ≠ ':') : ∀ t ∈ front ++ [s] ++ [a, r], t.token.mark? ≠ some c := by
    refine List.forall_mem_append.mpr ⟨Lead.mark?_ne_concat hlead hc (by rw [hs]; rintro ⟨⟩), ?_⟩
    exact List.forall_mem_cons.mpr ⟨by rw [ha]; rintro ⟨⟩, List.forall_mem_singleton.mpr (by rw [hr]; rintro ⟨⟩)⟩
  have hgroup : Text.cutFirst? "\x7b" (line (front ++ [s] ++ [a, r])) = none :=
    Text.cutFirst?_of_notMem rfl (notMem_line (by decide) (hmark (by decide)))
  have hglob : Text.stripEnd? (line (front ++ [s] ++ [a, r])) "::*" = none :=
    stripEnd?_of_notMem (notMem_line (by decide) (hmark (by decide)))
  have hline : line (front ++ [s] ++ [a, r]) = line (front ++ [s]) ++ " as " ++ w.text := by
    rw [line_append _ [a, r], ha, hr]
    simp only [line, blank_of_gap, Token.text, String.append_assoc, String.append_empty]
    rfl
  have halias : Text.cutFirst? " as " (line (front ++ [s] ++ [a, r])) = some (line (front ++ [s]), w.text) := by
    rw [hline]
    exact cutFirst?_as_append hapart (Lead.ne_keyword_concat hlead (by rw [hs]; rintro ⟨⟩)) _
  unfold useTree
  rw [htext]
  dsimp only
  rw [hgroup, hglob, halias]
  dsimp only
  rw [trim_line_self hflush, Text.trim_eq_self fun c hc => (w.plain c hc).1]

/-- A wildcard is read right when no blank stands in front of it. -/
theorem useTree_of_glob_iff {c s : Spaced} (hc : c.token = .colons) (hs : s.token = .star)
    (htext : Text.collapse text = line (front ++ [c] ++ [s])) (hlead : tokensOf (front ++ [c]) = lead.tokens)
    (hflush : ∀ s ∈ front.head?, s.gap = false) (hne : front ≠ []) (hapart : Apart (front ++ [c] ++ [s])) :
    useTree text = (line front, ["*"]) ↔ s.gap = false := by
  have hgroup : Text.cutFirst? "\x7b" (line (front ++ [c] ++ [s])) = none :=
    Text.cutFirst?_of_notMem rfl (notMem_line (by decide) (Lead.mark?_ne_concat hlead (by decide) (by rw [hs]; decide)))
  have hline : line (front ++ [c] ++ [s]) = line front ++ (c.blank ++ "::" ++ (s.blank ++ "*")) := by
    rw [line_append, line_append, line_singleton, line_singleton, hc, hs, String.append_assoc]
    rfl
  unfold useTree
  rw [htext]
  dsimp only
  rw [hgroup]
  dsimp only
  cases hgap : s.gap with
  | false =>
    have hglob : Text.stripEnd? (line (front ++ [c] ++ [s])) "::*" = some (line front ++ c.blank) := by
      have hblank : s.blank = "" := by rw [Spaced.blank, hgap, if_neg Bool.false_ne_true]
      rw [hline, hblank, String.empty_append, String.append_assoc, ← String.append_assoc]
      exact Text.stripEnd?_append _ "::*"
    rw [hglob]
    dsimp only
    rw [trim_line front (isBlank_blank c), flush_eq_self hflush]
    exact iff_of_true rfl rfl
  | true =>
    have hblank : s.blank = " " := by rw [Spaced.blank, hgap, if_pos rfl]
    have hglob : Text.stripEnd? (line (front ++ [c] ++ [s])) "::*" = none := by
      refine Text.stripEnd?_eq_none_iff.mpr ?_
      show ['*', ':', ':'].isPrefixOf _ = false
      rw [hline, hblank]
      simp [List.isPrefixOf]
    have halias : Text.cutFirst? " as " (line (front ++ [c] ++ [s])) = none :=
      cutFirst?_as_of_notMem hapart (Lead.ne_keyword_concat hlead (by rw [hs]; rintro ⟨⟩))
    have hhead : ∀ t ∈ (front ++ [c] ++ [s]).head?, t.gap = false := by
      rwa [List.append_assoc, List.head?_append_of_ne_nil _ hne]
    rw [hglob, halias]
    dsimp only
    rw [trim_line_self hhead, hline]
    refine iff_of_false (fun h => ?_) (by decide)
    have hlonger := (Prod.mk.inj h).1
    simp at hlonger

/-- The last character of a word is no colon. -/
theorem endsWith_word_blank (f : List Spaced) {s c : Spaced} (hs : s.token = .word w) :
    Text.endsWith (line (f ++ [s]) ++ c.blank) "::" = false := by
  show [':', ':'].isPrefixOf _ = false
  obtain ⟨init, last, hlast⟩ := (List.eq_nil_or_concat' w.text.toList).resolve_left (mt String.toList_eq_nil_iff.mp w.ne_empty)
  have hcolon : (':' == last) = false := by
    refine beq_eq_false_iff_ne.mpr fun h => (w.plain last (hlast ▸ List.mem_append_right _ List.mem_cons_self)).2 ?_
    rw [← h]
    decide
  have htext : (line (f ++ [s])).toList.reverse = last :: ((line f).toList ++ s.blank.toList ++ init).reverse := by
    rw [line_append, line_singleton, hs, String.toList_append, String.toList_append, Token.text, hlast, ← List.append_assoc,
      ← List.append_assoc, List.reverse_concat]
  rw [String.toList_append, List.reverse_append, htext, Spaced.blank]
  cases c.gap with
  | true => rfl
  | false =>
    show [':', ':'].isPrefixOf (last :: _) = false
    rw [List.isPrefixOf, hcolon, Bool.false_and]

theorem drop_append_cons {α : Type} (l rest : List α) (a : α) : (l ++ a :: rest).drop (l.length + 1) = rest := by
  simp [List.drop_append]

/-- A group is read as the path in front of it, with the blank behind, and its entries. -/
theorem useTree_of_group {c b e : Spaced} (hc : c.token = .colons) (hb : b.token = .opening) (he : e.token = .closing)
    (htext : Text.collapse text = line (front ++ [c] ++ b :: (inner ++ [e])))
    (hlead : tokensOf (front ++ [c]) = lead.tokens) (hflush : ∀ s ∈ front.head?, s.gap = false)
    {f : List Spaced} {s : Spaced} (hfront : front = f ++ [s]) (hs : s.token = .word w) :
    useTree text = (line front ++ c.blank, entryNames (line inner ++ e.blank)) := by
  have hhead : ∀ t ∈ (front ++ [c]).head?, t.gap = false := by
    rwa [List.head?_append_of_ne_nil _ (by rw [hfront]; simp)]
  have hline : line (front ++ [c] ++ b :: (inner ++ [e])) =
      line (front ++ [c]) ++ b.blank ++ "\x7b" ++ (line inner ++ e.blank ++ "\x7d") := by
    rw [line_append (front ++ [c]), line, line_append inner, line_singleton e, hb, he]
    simp only [Token.text, String.append_assoc]
  have hfirst : Text.cutFirst? "\x7b" (line (front ++ [c] ++ b :: (inner ++ [e]))) =
      some (line (front ++ [c]) ++ b.blank, line inner ++ e.blank ++ "\x7d") := by
    rw [hline]
    refine Text.cutFirst?_append rfl ?_ _
    rw [String.toList_append, List.mem_append, not_or]
    exact ⟨notMem_line (by decide) (Lead.mark?_ne hlead (by decide)), fun hmem =>
      absurd (isBlank_blank b _ hmem) (by decide)⟩
  have hlast : Text.cutLast? "\x7d" (line (front ++ [c] ++ b :: (inner ++ [e]))) =
      some (line (front ++ [c]) ++ b.blank ++ "\x7b" ++ (line inner ++ e.blank), "") := by
    have hclosing : "\x7d".toList = ['\x7d'] := rfl
    have hrest : '\x7d' ∉ "".toList := List.not_mem_nil
    have hcut := Text.cutLast?_append hclosing (line (front ++ [c]) ++ b.blank ++ "\x7b" ++ (line inner ++ e.blank)) hrest
    rw [String.append_empty] at hcut
    rw [hline, ← hcut]
    simp only [String.append_assoc]
  have hopening : "\x7b".toList = ['\x7b'] := rfl
  have hchars := Text.toList_append_char hopening (line (front ++ [c]) ++ b.blank) (line inner ++ e.blank)
  have hbase : Text.dropEnd (Text.trim (line (front ++ [c]) ++ b.blank)) "::" = line front ++ c.blank := by
    rw [trim_line _ (isBlank_blank b), flush_eq_self hhead, line_append, line_singleton, hc, Token.text, ← String.append_assoc,
      Text.dropEnd_append (by decide), Text.dropEnd_eq_self (hfront ▸ endsWith_word_blank f hs)]
  unfold useTree
  rw [htext]
  dsimp only
  rw [hfirst, hlast]
  dsimp only
  rw [hchars, if_pos (by simp), drop_append_cons, String.ofList_toList, hbase]
  rfl

end Declaration

/-! ## Reading a use tree -/

namespace UseTree

/-- A use tree with a path in front. -/
def Leads : UseTree → Prop
  | name .. => True
  | glob lead | group lead _ _ => lead.segments ≠ []

/-- How many tokens the path in front has: all up to an alias, a wildcard or a group, without the colons behind. -/
def leadLength : UseTree → Nat
  | name lead _ _ => lead.tokens.length + 1
  | glob lead | group lead _ _ => lead.tokens.length - 1

/-- Lines that are read as the tree binds: no blank stands in front of the last segment of a path or of a wildcard, none behind
the path in front of a group, and the entries of a group are clear. -/
def Clean (t : UseTree) (l : List Spaced) : Prop :=
  match t with
  | name _ _ (some _) => True
  | name _ _ none | glob _ => ∀ s ∈ l.getLast?, s.gap = false
  | group lead _ _ =>
    (∀ s ∈ l[lead.tokens.length - 1]?, s.gap = false) ∧
      ∀ entry ∈ Text.splitWhen (fun s => s.token.isComma) (l.drop (lead.tokens.length + 1)).dropLast, Clear (flush entry)

variable {t : UseTree}

theorem blank_append_eq_iff {s : Spaced} {name : String} : s.blank ++ name = name ↔ s.gap = false := by
  unfold Spaced.blank
  cases s.gap <;> simp

theorem append_blank_eq_iff {s : Spaced} {path : String} : path ++ s.blank = path ↔ s.gap = false := by
  unfold Spaced.blank
  cases s.gap <;> simp

theorem forall_mem_some_iff {s : Spaced} : (∀ t ∈ some s, t.gap = false) ↔ s.gap = false :=
  ⟨fun h => h s rfl, fun h _ ht => Option.some.inj ht ▸ h⟩

/-- What is left of a path without the colons behind it. -/
theorem exists_path {front : List Spaced} {lead : Lead} (hsegments : lead.segments ≠ []) (h : tokensOf front = lead.tokens) :
    ∃ (f : List Spaced) (s c : Spaced) (w : Word), front = f ++ [s] ++ [c] ∧ s.token = .word w ∧ c.token = .colons ∧
      lead.tokens.length - 1 = (f ++ [s]).length := by
  obtain ⟨init, w, htokens, -⟩ := Lead.exists_concat hsegments
  rw [htokens] at h
  obtain ⟨path, last, rfl, hpath, hlast⟩ := List.map_eq_append_iff.mp h
  obtain ⟨f, word, rfl, hf, hword⟩ := List.map_eq_append_iff.mp hpath
  obtain ⟨c, rfl, hc⟩ := List.map_eq_singleton_iff.mp hlast
  obtain ⟨s, rfl, hs⟩ := List.map_eq_singleton_iff.mp hword
  refine ⟨f, s, c, w, rfl, hs, hc, ?_⟩
  rw [htokens, ← hf]
  simp

/-- A line that holds the tokens of a use tree, and a text that is collapsed to it. -/
structure IsLineOf (t : UseTree) (l : List Spaced) (text : String) : Prop where
  tokens_eq : tokensOf l = t.tokens
  gap_head : ∀ s ∈ l.head?, s.gap = false
  apart : Apart l
  collapse_eq : Text.collapse text = line l

section

variable {l : List Spaced} {text : String} {lead : Lead} {last renamed : Word} {items : List UseTree} {trailing : Bool}

theorem IsLineOf.useTree_name_iff (h : IsLineOf (name lead last none) l text) :
    useTree text = (line (l.take (name lead last none).leadLength), (name lead last none).names) ↔
      (name lead last none).Clean l := by
  obtain ⟨hl, hhead, hapart, htext⟩ := h
  rw [tokens] at hl
  obtain ⟨front, rest, rfl, hlead, hrest⟩ := List.map_eq_append_iff.mp hl
  obtain ⟨s, rfl, hs⟩ := List.map_eq_singleton_iff.mp hrest
  have htake : (front ++ [s]).take (name lead last none).leadLength = front ++ [s] := by
    refine List.take_of_length_le ?_
    rw [leadLength, ← hlead]
    simp
  rw [htake, useTree_of_name hs htext hlead hhead hapart, names, Clean, List.getLast?_concat, forall_mem_some_iff,
    Prod.mk.injEq, and_iff_right rfl, List.cons.injEq, and_iff_left rfl, blank_append_eq_iff]

theorem IsLineOf.useTree_renamed (h : IsLineOf (name lead last (some renamed)) l text) :
    useTree text = (line (l.take (name lead last (some renamed)).leadLength), (name lead last (some renamed)).names) := by
  obtain ⟨hl, hhead, hapart, htext⟩ := h
  rw [tokens] at hl
  obtain ⟨front, rest, rfl, hlead, hrest⟩ := List.map_eq_append_iff.mp hl
  obtain ⟨s, afterLast, rfl, hs, hafterLast⟩ := List.map_eq_cons_iff.mp hrest
  obtain ⟨⟨gapAs, second⟩, afterAs, rfl, hsecond, hafterAs⟩ := List.map_eq_cons_iff.mp hafterLast
  obtain ⟨⟨gapAlias, third⟩, rfl, hthird⟩ := List.map_eq_singleton_iff.mp hafterAs
  obtain rfl : second = .keyword := hsecond
  obtain rfl : third = .word renamed := hthird
  -- there are blanks on both sides of the keyword
  have hchain := List.isChain_cons_cons.mp hapart.right
  obtain rfl : gapAs = true := hchain.1 (by rw [hs]; rfl) rfl
  obtain rfl : gapAlias = true := (List.isChain_cons_cons.mp hchain.2).1 rfl rfl
  have hsplit : front ++ [s, ⟨true, .keyword⟩, ⟨true, .word renamed⟩] =
      front ++ [s] ++ [⟨true, .keyword⟩, ⟨true, .word renamed⟩] := by simp
  rw [hsplit] at htext hhead hapart ⊢
  have htake : (front ++ [s] ++ [(⟨true, .keyword⟩ : Spaced), ⟨true, .word renamed⟩]).take
      (name lead last (some renamed)).leadLength = front ++ [s] := by
    refine List.take_left' ?_
    rw [leadLength, ← hlead]
    simp
  rw [List.head?_append_of_ne_nil _ (by simp)] at hhead
  rw [htake, useTree_of_renamed hs rfl rfl htext hlead hhead hapart.left]
  rfl

theorem IsLineOf.useTree_glob_iff (hsegments : lead.segments ≠ []) (h : IsLineOf (glob lead) l text) :
    useTree text = (line (l.take (glob lead).leadLength), (glob lead).names) ↔ (glob lead).Clean l := by
  obtain ⟨hl, hhead, hapart, htext⟩ := h
  rw [tokens] at hl
  obtain ⟨path, rest, rfl, hlead, hrest⟩ := List.map_eq_append_iff.mp hl
  obtain ⟨e, rfl, he⟩ := List.map_eq_singleton_iff.mp hrest
  obtain ⟨f, s, c, w, rfl, hs, hc, hlength⟩ := exists_path hsegments hlead
  have htake : (f ++ [s] ++ [c] ++ [e]).take (glob lead).leadLength = f ++ [s] := by
    rw [leadLength, hlength, List.append_assoc]
    exact List.take_left
  have hne : f ++ [s] ≠ [] := by simp
  rw [List.append_assoc, List.head?_append_of_ne_nil _ hne] at hhead
  rw [htake, names, useTree_of_glob_iff hc he htext hlead hhead hne hapart, Clean, List.getLast?_concat, forall_mem_some_iff]

theorem IsLineOf.useTree_group_iff (hsegments : lead.segments ≠ []) (h : IsLineOf (group lead items trailing) l text) :
    useTree text = (line (l.take (group lead items trailing).leadLength), (group lead items trailing).names) ↔
      (group lead items trailing).Clean l := by
  obtain ⟨hl, hhead, hapart, htext⟩ := h
  rw [tokens] at hl
  obtain ⟨path, rest, rfl, hlead, hrest⟩ := List.map_eq_append_iff.mp hl
  obtain ⟨b, rest, rfl, hb, hrest⟩ := List.map_eq_cons_iff.mp hrest
  obtain ⟨inner, last, rfl, hinner, hlast⟩ := List.map_eq_append_iff.mp hrest
  obtain ⟨e, rfl, he⟩ := List.map_eq_singleton_iff.mp hlast
  obtain ⟨f, s, c, w, rfl, hs, hc, hlength⟩ := exists_path hsegments hlead
  have hreads : Reads (tokensOf inner) (namesAll items) := by
    rw [tokensOf, hinner]
    exact reads_tokensAll trailing items
  have hentries := (hreads.entryNames_iff (Apart.left (List.IsChain.tail hapart.right)) (isBlank_blank e)).2
  -- the parts of the line that are looked at
  have htake : (f ++ [s] ++ [c] ++ b :: (inner ++ [e])).take (group lead items trailing).leadLength = f ++ [s] := by
    rw [leadLength, hlength, List.append_assoc]
    exact List.take_left
  have hcolons : (f ++ [s] ++ [c] ++ b :: (inner ++ [e]))[lead.tokens.length - 1]? = some c := by
    rw [hlength, List.append_assoc, List.getElem?_append_right (Nat.le_refl _), Nat.sub_self]
    rfl
  have hdrop : ((f ++ [s] ++ [c] ++ b :: (inner ++ [e])).drop (lead.tokens.length + 1)).dropLast = inner := by
    have hcount : lead.tokens.length = (f ++ [s] ++ [c]).length := by
      rw [← hlead]
      exact (List.length_map ..).symm ▸ rfl
    rw [hcount, drop_append_cons, List.dropLast_concat]
  have hfirst : ∀ t ∈ (f ++ [s]).head?, t.gap = false := by
    rwa [List.append_assoc, List.head?_append_of_ne_nil _ (by simp)] at hhead
  rw [htake, names, useTree_of_group hc hb he htext hlead hfirst rfl hs, Clean, hcolons, hdrop, forall_mem_some_iff, ← hentries,
    Prod.mk.injEq, append_blank_eq_iff]

/-- A line is read as the use tree binds exactly when it is clean. -/
theorem IsLineOf.useTree_iff (hleads : t.Leads) (h : IsLineOf t l text) :
    useTree text = (line (l.take t.leadLength), t.names) ↔ t.Clean l := by
  cases t with
  | name lead last renamed =>
    cases renamed with
    | none => exact h.useTree_name_iff
    | some renamed => exact iff_of_true h.useTree_renamed trivial
  | glob lead => exact h.useTree_glob_iff hleads
  | group lead items trailing => exact h.useTree_group_iff hleads

end

/-! ## Written use trees -/

/-- A way to write a use tree down: any blanks between its tokens, but some between two words. -/
structure Writing (t : UseTree) where
  written : List Spelled
  tokens_eq : written.map Spelled.token = t.tokens
  /-- The text begins with the first token. -/
  blanks_head : ∀ s ∈ written.head?, s.blanks = ""
  apart : Apart (written.map Spelled.spaced)

namespace Writing

/-- The text of a use tree. -/
def text (w : t.Writing) : String :=
  spell w.written

/-- The text of the path in front, with single blanks. -/
def path (w : t.Writing) : String :=
  Text.collapse (spell (w.written.take t.leadLength))

/-- The text with single blanks, cut into its tokens. -/
def line (w : t.Writing) : List Spaced :=
  w.written.map Spelled.spaced

theorem isLineOf (w : t.Writing) : IsLineOf t w.line w.text where
  tokens_eq := by
    rw [← w.tokens_eq, line, tokensOf, List.map_map]
    rfl
  gap_head s hs := by
    rw [line, List.head?_map, Option.mem_def, Option.map_eq_some_iff] at hs
    obtain ⟨first, hfirst, rfl⟩ := hs
    exact bne_eq_false_iff_eq.mpr (w.blanks_head first hfirst)
  apart := w.apart
  collapse_eq := collapse_spell w.blanks_head

theorem path_eq (w : t.Writing) : w.path = Rust.line (w.line.take t.leadLength) := by
  rw [path, line, ← List.map_take]
  refine collapse_spell fun s hs => w.blanks_head s ?_
  rw [List.head?_take] at hs
  split at hs
  · cases hs
  · exact hs

end Writing

/-- No name of a use tree has a brace. -/
theorem brace_notMem_of_mem_names {name : String} (h : name ∈ t.names) :
    '\x7b' ∉ name.toList ∧ '\x7d' ∉ name.toList := by
  rcases (reads_tokens t).cases_of_mem h with rfl | ⟨w, rfl⟩
  · decide
  · exact ⟨fun hc => (w.plain _ hc).2 (by decide), fun hc => (w.plain _ hc).2 (by decide)⟩

/-- What is read off the text of a use tree is the path in front and the names it binds, none with a brace, exactly when its
line is clean. -/
theorem names_read_iff (hleads : t.Leads) (w : t.Writing) :
    (useTree w.text = (w.path, t.names) ∧ ∀ name ∈ (useTree w.text).2, '\x7b' ∉ name.toList ∧ '\x7d' ∉ name.toList) ↔
      t.Clean w.line := by
  rw [← w.isLineOf.useTree_iff hleads, ← w.path_eq]
  refine and_iff_left_of_imp fun hread name hname => ?_
  rw [hread] at hname
  exact brace_notMem_of_mem_names hname

/-- A text that is checked to be a word. -/
def wordOf (text : String)
    (h : text ≠ "" ∧ text ≠ "as" ∧ (text.toList.all fun c => !isBlank c && !marks.contains c) = true) : Word where
  text := text
  ne_empty := h.1
  ne_as := h.2.1
  plain c hc := by simpa using List.all_eq_true.mp h.2.2 c hc

/-- A line as it is written. -/
def spelled (l : List Spaced) : List Spelled :=
  l.map fun s => ⟨s.blank, s.token, isBlank_blank s⟩

/-- An alias in a group inside a group. -/
def nestedAlias : UseTree :=
  .group ⟨false, [wordOf "a" (by decide)]⟩
    [.group ⟨false, [wordOf "b" (by decide)]⟩
      [.name ⟨false, []⟩ (wordOf "c" (by decide)) (some (wordOf "d" (by decide)))] false] false

/-- The text `a::{b::{c as d}}`, token by token. -/
def nestedAliasWriting : nestedAlias.Writing where
  written := spelled
    [⟨false, .word (wordOf "a" (by decide))⟩, ⟨false, .colons⟩, ⟨false, .opening⟩, ⟨false, .word (wordOf "b" (by decide))⟩,
      ⟨false, .colons⟩, ⟨false, .opening⟩, ⟨false, .word (wordOf "c" (by decide))⟩, ⟨true, .keyword⟩,
      ⟨true, .word (wordOf "d" (by decide))⟩, ⟨false, .closing⟩, ⟨false, .closing⟩]
  tokens_eq := rfl
  blanks_head := by simp [spelled, Spaced.blank]
  apart := by simp [spelled, Apart, Spelled.spaced, Spaced.blank, Token.isWordLike]

/-- The brace behind the alias is read as a part of it. -/
theorem names_read_iff_nested_alias :
    nestedAlias.Leads ∧ nestedAliasWriting.text = "a::\x7bb::\x7bc as d\x7d\x7d" ∧ nestedAlias.names = ["d"] ∧
      useTree "a::\x7bb::\x7bc as d\x7d\x7d" = ("a", ["d\x7d"]) ∧ ¬ nestedAlias.Clean nestedAliasWriting.line := by
  have hleads : nestedAlias.Leads := List.cons_ne_nil _ _
  have htext : nestedAliasWriting.text = "a::\x7bb::\x7bc as d\x7d\x7d" := by decide
  have hread : useTree "a::\x7bb::\x7bc as d\x7d\x7d" = ("a", ["d\x7d"]) := by decide +kernel
  refine ⟨hleads, htext, rfl, hread, fun hclean => ?_⟩
  have hnames := ((names_read_iff hleads nestedAliasWriting).mpr hclean).1
  rw [htext, hread] at hnames
  exact absurd (Prod.mk.inj hnames).2 (by decide)

example : useTree "std::\x7b io::\x7bself, Read\x7d, fmt as f \x7d" = ("std", ["self", "Read", "f"]) := by decide +kernel

end UseTree

end CodeAtlas.Rust
