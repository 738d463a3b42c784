/-
  Which uses of identifiers are seen.

  A line has a use if one of the names stands in it between word boundaries (`countLine_pos_iff`, by induction on the
  line).  An identifier ends where no identifier character follows, and this is a word boundary only behind a word
  character.  So a name that stands in a line as a whole identifier is seen there if one of the names is found in it,
  wherever that line is (`FoundIn.of_mem_runs`), and its line alone, behind the import, shows that nothing less does
  (`exists_line_outside`).  A dollar is no word character, so that a name that begins or ends with one is not found in
  itself.  The main result is `identifier_uses_seen_iff`.
-/
import CodeAtlas.Proofs.Dependency.Usage
import CodeAtlas.Proofs.Text.Lines

namespace CodeAtlas.Usage

variable {names : List (List Char)} {name text : List Char} {prev : Option Char} {s : String}

/-! ## Where a line has a use -/

/-- One of the names stands in a text between word boundaries. -/
def FoundIn (names : List (List Char)) (text : List Char) : Prop :=
  ∃ name ∈ names, ∃ front back, text = front ++ name ++ back ∧
    isBoundary front.getLast? name.head? = true ∧ isBoundary name.getLast? back.head? = true

/-- There is a use if a name stands between word boundaries, the first of which may be in front of the text. -/
theorem countFrom_pos_iff (hnil : [] ∉ names) :
    0 < countFrom names prev 0 text ↔ ∃ name ∈ names, ∃ front back, text = front ++ name ++ back ∧
      isBoundary (front.getLast?.or prev) name.head? = true ∧ isBoundary name.getLast? back.head? = true := by
  induction text generalizing prev with
  | nil =>
    rw [countFrom]
    refine iff_of_false (Nat.lt_irrefl 0) ?_
    rintro ⟨name, hname, front, back, heq, -⟩
    rw [List.append_assoc] at heq
    rw [(List.append_eq_nil_iff.mp (List.append_eq_nil_iff.mp heq.symm).2).1] at hname
    exact hnil hname
  | cons c rest ih =>
    -- the first name found is the one that stands at the front, if there is one
    by_cases hfits : isBoundary prev (some c) = true ∧ ∃ name ∈ names, fits (c :: rest) name = true
    · obtain ⟨hboundary, name, hname, hfit⟩ := hfits
      obtain ⟨found, hfound⟩ := Option.isSome_iff_exists.mp (List.find?_isSome.mpr ⟨name, hname, hfit⟩)
      obtain ⟨back, heq, hend⟩ := fits_iff.mp hfit
      rw [countFrom_of_fits hboundary hfound]
      refine iff_of_true (by omega) ⟨name, hname, [], back, heq, ?_, hend⟩
      cases name with
      | nil => exact absurd hname hnil
      | cons d name =>
        rw [(List.cons.inj heq).1] at hboundary
        exact hboundary
    · have hnone : isBoundary prev (some c) = true → names.find? (fits (c :: rest)) = none := fun hboundary =>
        List.find?_eq_none.mpr fun name hname hfit => hfits ⟨hboundary, name, hname, hfit⟩
      rw [countFrom_of_not hnone, ih]
      constructor
      · rintro ⟨name, hname, front, back, rfl, hstart, hend⟩
        refine ⟨name, hname, c :: front, back, rfl, ?_, hend⟩
        rw [List.getLast?_cons]
        cases hlast : front.getLast? <;> rwa [hlast] at hstart
      · rintro ⟨name, hname, front, back, heq, hstart, hend⟩
        cases front with
        | nil =>
          -- a name at the front fits
          refine absurd ⟨?_, name, hname, fits_iff.mpr ⟨back, heq, hend⟩⟩ hfits
          cases name with
          | nil => exact absurd hname hnil
          | cons d name =>
            rw [(List.cons.inj heq).1]
            exact hstart
        | cons d front =>
          obtain ⟨rfl, hrest⟩ := List.cons.inj heq
          refine ⟨name, hname, front, back, hrest, ?_, hend⟩
          rw [List.getLast?_cons] at hstart
          cases hlast : front.getLast? <;> rwa [hlast] at hstart

/-- A line has a use if a name stands in it between word boundaries. -/
theorem countLine_pos_iff (hnil : [] ∉ names) (line : String) :
    0 < countLine names line ↔ FoundIn names line.toList := by
  unfold countLine FoundIn
  rw [countFrom_pos_iff hnil]
  simp only [Option.or_none]

/-! ## Identifiers -/

/-- The characters of identifiers: those of words and the dollar. -/
def isIdentifierChar (c : Char) : Bool :=
  Text.isWordChar c || c == '$'

/-- Whether a name neither begins nor ends with a dollar. -/
def WithoutDollarEnds (name : List Char) : Prop :=
  name.head? ≠ some '$' ∧ name.getLast? ≠ some '$'

theorem any_isWordChar_of_any {o : Option Char} (h : o.any isIdentifierChar = false) :
    o.any Text.isWordChar = false := by
  cases o with
  | none => rfl
  | some c => exact (Bool.or_eq_false_iff.mp h).1

/-- Next to an identifier nothing is a word character, so that the boundaries in it are those in the line. -/
theorem FoundIn.of_mem_runs (h : FoundIn names name) (hruns : name ∈ Text.runs isIdentifierChar text) :
    FoundIn names text := by
  obtain ⟨found, hfound, front, back, rfl, hstart, hend⟩ := h
  obtain ⟨-, -, before, after, rfl, hbefore, hafter⟩ := Text.mem_runs_iff.mp hruns
  refine ⟨found, hfound, before ++ front, back ++ after, by simp only [List.append_assoc], ?_, ?_⟩
  · rw [List.getLast?_append]
    cases hlast : front.getLast? with
    | none =>
      rw [hlast] at hstart
      unfold isBoundary at hstart ⊢
      rwa [Option.none_or, any_isWordChar_of_any hbefore]
    | some c => rwa [hlast] at hstart
  · rw [List.head?_append]
    cases hhead : back.head? with
    | none =>
      rw [hhead] at hend
      unfold isBoundary at hend ⊢
      rwa [Option.none_or, any_isWordChar_of_any hafter]
    | some c => rwa [hhead] at hend

theorem foundIn_self (hname : name ∈ names) (hne : name ≠ []) (hident : ∀ c ∈ name, isIdentifierChar c = true)
    (hends : WithoutDollarEnds name) : FoundIn names name := by
  have hword {c : Char} (hc : c ∈ name) (hdollar : c ≠ '$') : Text.isWordChar c = true := by
    have hboth := hident c hc
    unfold isIdentifierChar at hboth
    rwa [beq_false_of_ne hdollar, Bool.or_false] at hboth
  refine ⟨name, hname, [], [], (List.append_nil name).symm, ?_, ?_⟩
  · obtain ⟨c, rest, rfl⟩ := List.exists_cons_of_ne_nil hne
    have hc : Text.isWordChar c = true := hword List.mem_cons_self fun h => hends.1 (congrArg some h)
    unfold isBoundary
    rw [List.head?_cons, Option.any_some, hc]
    rfl
  · have hlast := List.getLast?_eq_some_getLast hne
    have hc : Text.isWordChar (name.getLast hne) = true :=
      hword (List.getLast_mem hne) fun h => hends.2 (hlast.trans (congrArg some h))
    unfold isBoundary
    rw [hlast, Option.any_some, hc]
    rfl

/-- A name that is found in itself neither begins nor ends with a dollar. -/
theorem withoutDollarEnds_of_foundIn (h : FoundIn [name] name) : WithoutDollarEnds name := by
  obtain ⟨found, hfound, front, back, heq, hstart, hend⟩ := h
  rw [List.mem_singleton.mp hfound] at heq hstart hend
  have hlength := congrArg List.length heq
  rw [List.length_append, List.length_append] at hlength
  rw [List.length_eq_zero_iff.mp (by omega : front.length = 0)] at hstart
  rw [List.length_eq_zero_iff.mp (by omega : back.length = 0)] at hend
  constructor
  · intro hdollar
    rw [hdollar] at hstart
    exact absurd hstart (by decide)
  · intro hdollar
    rw [hdollar] at hend
    exact absurd hend (by decide)

/-! ## Lines behind the import -/

theorem exists_lines_eq (hs : '\n' ∉ s.toList) (hne : s ≠ "") (k : Nat) :
    ∃ content, Text.lines content = List.replicate k "" ++ [s] := by
  induction k with
  | zero => exact ⟨s, by rw [Text.lines_of_notMem hs, if_neg hne]; rfl⟩
  | succ k ih =>
    obtain ⟨content, hcontent⟩ := ih
    refine ⟨"" ++ "\n" ++ content, ?_⟩
    rw [Text.lines_append_line (by decide), hcontent]
    rfl

/-- Every line can stand outside of the import. -/
theorem exists_line_outside (i : Import) (hs : '\n' ∉ s.toList) (hne : s ≠ "") :
    ∃ content, s ∈ linesOutside i content := by
  obtain ⟨content, hcontent⟩ := exists_lines_eq hs hne (max i.line i.endLine)
  refine ⟨content, List.mem_map.mpr ⟨(s, max i.line i.endLine + 1), List.mem_filter.mpr ⟨?_, ?_⟩, rfl⟩⟩
  · rw [hcontent, List.zipIdx_append, List.length_replicate, Nat.add_comm]
    exact List.mem_append_right _ (List.mem_singleton_self _)
  · simp

/-- The uses of an import are counted line by line.  A line in which one of its names stands as a whole identifier has a
use, wherever that line is outside of the import, exactly if one of the names is found in that name.  This is so of each
name that neither begins nor ends with a dollar, and of no other name that is the only one. -/
theorem identifier_uses_seen_iff (i : Import) (hne : usableNames i ≠ [])
    (hident : ∀ n ∈ usableNames i, ∀ c ∈ n, isIdentifierChar c = true) :
    (∀ content, count content i = ((linesOutside i content).map (countLine (usableNames i))).sum) ∧
      ∀ n ∈ usableNames i,
        ((∀ content, ∀ line ∈ linesOutside i content, n ∈ Text.runs isIdentifierChar line.toList →
            0 < countLine (usableNames i) line) ↔ FoundIn (usableNames i) n) ∧
          (WithoutDollarEnds n → FoundIn (usableNames i) n) ∧
          (usableNames i = [n] → FoundIn (usableNames i) n → WithoutDollarEnds n) := by
  have hnil := nil_notMem_usableNames i
  refine ⟨count_eq_sum hne, fun n hn => ?_⟩
  have hnn : n ≠ [] := fun h => hnil (h ▸ hn)
  refine ⟨⟨fun hseen => ?_, fun hfound content line _ hruns => ?_⟩, foundIn_self hn hnn (hident n hn),
    fun honly hfound => ?_⟩
  · -- the name alone in a line is a whole identifier there
    have hnewline : '\n' ∉ (String.ofList n).toList := by
      rw [String.toList_ofList]
      intro h
      exact absurd (hident n hn _ h) (by decide)
    have hstr : String.ofList n ≠ "" := by
      intro h
      rw [← String.toList_inj, String.toList_ofList] at h
      exact hnn h
    obtain ⟨content, hline⟩ := exists_line_outside i hnewline hstr
    have hpos := hseen content _ hline (by
      rw [String.toList_ofList, Text.runs_of_forall (hident n hn) hnn]
      exact List.mem_singleton_self n)
    rwa [countLine_pos_iff hnil, String.toList_ofList] at hpos
  · exact (countLine_pos_iff hnil line).mpr (hfound.of_mem_runs hruns)
  · rw [honly] at hfound
    exact withoutDollarEnds_of_foundIn hfound

/-- A text in which an imported name that is a dollar stands alone in front of a call. -/
def dollarText : String :=
  "import $ from 'jquery';\n$('#menu').hide();\n"

/-- The use of the dollar in the second line is not seen. -/
theorem identifier_uses_seen_iff_dollar :
    usableNames (importInFront "jquery" ["$"]) = [['$']] ∧
      (∀ n ∈ usableNames (importInFront "jquery" ["$"]), ∀ c ∈ n, isIdentifierChar c = true) ∧
      "$('#menu').hide();" ∈ linesOutside (importInFront "jquery" ["$"]) dollarText ∧
      ['$'] ∈ Text.runs isIdentifierChar "$('#menu').hide();".toList ∧
      count dollarText (importInFront "jquery" ["$"]) = 0 ∧ ¬ FoundIn [['$']] ['$'] := by
  have hnames : usableNames (importInFront "jquery" ["$"]) = [['$']] := by decide
  have hident : ∀ n ∈ usableNames (importInFront "jquery" ["$"]), ∀ c ∈ n, isIdentifierChar c = true := by
    intro n hn c hc
    rw [hnames] at hn
    rw [List.mem_singleton.mp hn] at hc
    rw [List.mem_singleton.mp hc]
    decide
  obtain ⟨hcount, hseen⟩ := identifier_uses_seen_iff (importInFront "jquery" ["$"])
    (by rw [hnames]; exact List.cons_ne_nil _ _) hident
  obtain ⟨-, -, hends⟩ := hseen ['$'] (by rw [hnames]; exact List.mem_singleton_self _)
  refine ⟨hnames, hident, by decide, by decide, (hcount dollarText).trans (by decide), fun hfound => ?_⟩
  rw [hnames] at hends
  exact (hends rfl hfound).1 rfl

end CodeAtlas.Usage
