/-
  Docstrings.

  The parts of a docstring are the lines up to the quotes that close it (`filter_docstringRest`, by induction on the lines).
  All copies of the quotes that directly follow each other are dropped before these are looked for (`docstring?_lines`), so
  that the docstring ends at the next copy unless the first two have nothing between them.  The main result is
  `docstrings_end_at_quotes_iff`.
-/
import CodeAtlas.Proofs.Chunk.Docs
import CodeAtlas.Proofs.Text.Before

namespace CodeAtlas

namespace Chunk

variable {quote line opening s : String} {rest : List String} {job : Job}

/-! ## The lines of a docstring -/

/-- The lines of a text without the blanks around them, empty ones left out. -/
def trimmedLines (s : String) : List String :=
  ((Text.lines s).map Text.trim).filter fun l => !l.isEmpty

theorem trimmedLines_of_notMem (h : '\n' ∉ s.toList) : trimmedLines s = [Text.trim s].filter fun l => !l.isEmpty := by
  unfold trimmedLines
  rw [Text.lines_of_notMem h]
  split
  · rename_i hs
    rw [hs]
    rfl
  · rfl

theorem trimmedLines_append_line (h : '\n' ∉ s.toList) (rest : String) :
    trimmedLines (s ++ "\n" ++ rest) = ([Text.trim s].filter fun l => !l.isEmpty) ++ trimmedLines rest := by
  unfold trimmedLines
  rw [Text.lines_append_line h, List.map_cons, Text.trim_stripCarriage, ← List.filter_append, List.singleton_append]

/-- The text of a docstring: its lines without the blanks around them, empty ones left out. -/
def docText? (s : String) : Option String :=
  nonEmpty? (Text.join "\n" (trimmedLines s))

theorem docstringRest_congr {line line' : String} (h : Text.trim line = Text.trim line') (rest : List String) :
    docstringRest quote (line :: rest) = docstringRest quote (line' :: rest) := by
  rw [docstringRest, docstringRest, h]

theorem notMem_newline (hquote : ∀ c ∈ quote.toList, Text.isBlank c = false) : '\n' ∉ quote.toList :=
  fun h => Bool.false_ne_true ((hquote _ h).symm.trans (by decide))

section Quote

variable (hne : quote ≠ "") (hquote : ∀ c ∈ quote.toList, Text.isBlank c = false)

include hne hquote

theorem docstringRest_cons (line : String) (rest : List String) :
    docstringRest quote (line :: rest) =
      (((Text.before? quote line).map Text.trim).map ([·])).getD (Text.trim line :: docstringRest quote rest) := by
  rw [← Text.before?_trim hquote hne]
  unfold Text.before?
  rw [docstringRest]
  cases Text.cutFirst? quote (Text.trim line) <;> rfl

/-- The parts of a docstring in one line. -/
theorem filter_docstringRest_singleton (h : '\n' ∉ s.toList) :
    (docstringRest quote [s]).filter (fun p => !p.isEmpty) = trimmedLines (Text.upTo quote s) := by
  rw [docstringRest_cons hne hquote]
  cases hs : Text.before? quote s with
  | none => rw [Text.upTo_of_none hs, trimmedLines_of_notMem h]; rfl
  | some front =>
    rw [Text.upTo_of_some hs, trimmedLines_of_notMem fun hmem => h (Text.subset_of_before? hs hmem)]
    rfl

/-- One more line before the parts of a docstring. -/
theorem filter_docstringRest_cons (h : '\n' ∉ s.toList) {text : String}
    (hrest : (docstringRest quote rest).filter (fun p => !p.isEmpty) = trimmedLines (Text.upTo quote text)) :
    (docstringRest quote (s :: rest)).filter (fun p => !p.isEmpty) =
      trimmedLines (Text.upTo quote (s ++ "\n" ++ text)) := by
  have hnewline := notMem_newline hquote
  rw [docstringRest_cons hne hquote]
  cases hs : Text.before? quote s with
  | none =>
    rw [Text.upTo_append_line_of_none hne hnewline hs, trimmedLines_append_line h, ← hrest, ← List.filter_append]
    rfl
  | some front =>
    rw [Text.upTo_append_line_of_some hne hnewline hs,
      trimmedLines_of_notMem fun hmem => h (Text.subset_of_before? hs hmem)]
    rfl

/-- The parts of a docstring are the lines up to the closing quotes. -/
theorem filter_docstringRest (text : String) :
    (docstringRest quote (Text.lines text)).filter (fun p => !p.isEmpty) = trimmedLines (Text.upTo quote text) := by
  induction text using Text.lines_induction with
  | last s h =>
    by_cases hs : s = ""
    · rw [hs, Text.upTo_of_none (Text.before?_empty hne)]
      rfl
    · rw [Text.lines_of_notMem h, if_neg hs, filter_docstringRest_singleton hne hquote h]
  | line s text h ih =>
    rw [Text.lines_append_line h, docstringRest_congr (Text.trim_stripCarriage s),
      filter_docstringRest_cons hne hquote h ih]

end Quote

/-! ## The quotes that open it -/

/-- The quotes of docstrings. -/
def quotes : List String :=
  ["\"\"\"", "'''"]

theorem of_mem_quotes (h : quote ∈ quotes) : quote ≠ "" ∧ ∀ c ∈ quote.toList, Text.isBlank c = false := by
  unfold quotes at h
  rcases List.mem_pair.mp h with rfl | rfl
  · refine ⟨by decide, fun c hc => ?_⟩
    rw [List.eq_of_mem_replicate (show c ∈ List.replicate 3 '"' from hc)]
    decide
  · refine ⟨by decide, fun c hc => ?_⟩
    rw [List.eq_of_mem_replicate (show c ∈ List.replicate 3 '\'' from hc)]
    decide

/-- A text that begins with quotes begins with these only. -/
theorem find?_quotes (h : quote ∈ quotes) (rest : String) : quotes.find? (Text.startsWith (quote ++ rest)) = some quote := by
  have hself : Text.startsWith (quote ++ rest) quote = true := Text.startsWith_iff.mpr ⟨rest, rfl⟩
  unfold quotes at h ⊢
  rcases List.mem_pair.mp h with rfl | rfl
  · rw [List.find?_cons_of_pos hself]
  · have hother : ¬ Text.startsWith ("'''" ++ rest) "\"\"\"" = true := by
      unfold Text.startsWith
      rw [String.toList_append]
      exact Bool.false_ne_true
    rw [List.find?_cons_of_neg hother, List.find?_cons_of_pos hself]

theorem join_filter_singleton (s : String) : Text.join "\n" ([s].filter fun p => !p.isEmpty) = s := by
  by_cases h : s = ""
  · rw [h]
    rfl
  · rw [List.filter_cons_of_pos (by simpa using h), List.filter_nil, Text.join_singleton]

/-- A docstring has the parts of the lines behind all copies of the quotes that open it. -/
theorem docstring?_eq (hquote : quote ∈ quotes) (h : Text.trim line = quote ++ Text.trimEnd opening)
    (rest : List String) :
    docstring? (line :: rest) = nonEmpty? (Text.join "\n"
      ((docstringRest quote (Text.dropStart opening quote :: rest)).filter fun p => !p.isEmpty)) := by
  obtain ⟨hne, hblank⟩ := of_mem_quotes hquote
  have hbefore := Text.before?_trimEnd hblank hne (Text.dropStart opening quote)
  have htrim := Text.trim_trimEnd (Text.dropStart opening quote)
  unfold docstring?
  dsimp only
  rw [h, show ["\"\"\"", "'''"] = quotes from rfl, find?_quotes hquote]
  dsimp only
  rw [docstringRest_cons hne hblank, ← hbefore, ← htrim, Text.dropStart_append hne, Text.dropStart_trimEnd hne hblank]
  unfold Text.before?
  cases Text.cutFirst? quote (Text.trimEnd (Text.dropStart opening quote)) with
  | none => rfl
  | some cut => exact congrArg nonEmpty? (join_filter_singleton _).symm

/-- A docstring is read from behind all copies of the quotes that open it to the next copy. -/
theorem docstring?_lines (hquote : quote ∈ quotes) {indent : String}
    (hindent : ∀ c ∈ indent.toList, Text.isBlank c = true ∧ c ≠ '\n') (tail : String) :
    docstring? (Text.lines (indent ++ quote ++ tail)) = docText? (Text.upTo quote (Text.dropStart tail quote)) := by
  obtain ⟨hne, hblank⟩ := of_mem_quotes hquote
  have hnewline := notMem_newline hblank
  have htrim (opening : String) : Text.trim (indent ++ quote ++ opening) = quote ++ Text.trimEnd opening := by
    rw [String.append_assoc, Text.trim_append_left fun c hc => (hindent c hc).1, Text.trim_append_of_forall hblank hne]
  have hline {opening : String} (h : '\n' ∉ opening.toList) : '\n' ∉ (indent ++ quote ++ opening).toList := by
    rw [String.toList_append, String.toList_append, List.mem_append, List.mem_append]
    rintro ((hmem | hmem) | hmem)
    · exact (hindent _ hmem).2 rfl
    · exact hnewline hmem
    · exact h hmem
  have hnonempty (opening : String) : indent ++ quote ++ opening ≠ "" := by
    intro hempty
    exact hne (String.append_eq_empty_iff.mp (String.append_eq_empty_iff.mp hempty).1).2
  unfold docText?
  induction tail using Text.lines_induction with
  | last opening h =>
    rw [Text.lines_of_notMem (hline h), if_neg (hnonempty opening), docstring?_eq hquote (htrim opening),
      filter_docstringRest_singleton hne hblank fun hmem => h (Text.subset_dropStart _ _ hmem)]
  | line opening text h _ =>
    have hassoc : indent ++ quote ++ (opening ++ "\n" ++ text) = indent ++ quote ++ opening ++ "\n" ++ text := by
      simp only [String.append_assoc]
    rw [hassoc, Text.lines_append_line (hline h),
      docstring?_eq hquote ((Text.trim_stripCarriage _).trans (htrim opening)),
      filter_docstringRest_cons hne hblank (fun hmem => h (Text.subset_dropStart _ _ hmem))
        (filter_docstringRest hne hblank text),
      Text.dropStart_append_line hne hnewline]

/-! ## The line behind a declaration -/

/-- The line behind line `line` of a text begins with quotes after blanks, and `tail` is the text behind the quotes. -/
structure OpensDocstring (content : String) (line : Nat) (quote tail : String) : Prop where
  mem : quote ∈ quotes
  split : ∃ above indent, content = above ++ "\n" ++ (indent ++ quote ++ tail) ∧ line = above.toList.count '\n' + 1 ∧
    ∀ c ∈ indent.toList, Text.isBlank c = true ∧ c ≠ '\n'

/-- A text whose first line begins with quotes, trimmed. -/
theorem exists_opening_of_head? {content next : String} (hnext : (Text.lines content).head? = some next)
    (hstarts : Text.startsWith (Text.trim next) quote = true) :
    ∃ indent tail, content = indent ++ quote ++ tail ∧ ∀ c ∈ indent.toList, Text.isBlank c = true ∧ c ≠ '\n' := by
  have hopening {s : String} (h : '\n' ∉ s.toList) (hs : Text.trim s = Text.trim next) :
      ∃ indent tail, s = indent ++ quote ++ tail ∧ ∀ c ∈ indent.toList, Text.isBlank c = true ∧ c ≠ '\n' := by
    obtain ⟨front, back, heq, hblank, -⟩ := Text.exists_blanks_trim s
    obtain ⟨text, htext⟩ := Text.startsWith_iff.mp hstarts
    refine ⟨front, text ++ back, ?_, fun c hc => ⟨hblank c hc, ?_⟩⟩
    · rw [hs, htext] at heq
      rw [heq]
      simp only [String.append_assoc]
    · rintro rfl
      rw [heq, String.toList_append, String.toList_append] at h
      exact h (List.mem_append_left _ (List.mem_append_left _ hc))
  induction content using Text.lines_induction with
  | last s h =>
    rw [Text.lines_of_notMem h] at hnext
    split at hnext
    · cases hnext
    · exact hopening h (congrArg Text.trim (Option.some.inj hnext))
  | line s rest h _ =>
    rw [Text.lines_append_line h, List.head?_cons] at hnext
    obtain ⟨indent, tail, rfl, hindent⟩ :=
      hopening h ((Text.trim_stripCarriage s).symm.trans (congrArg Text.trim (Option.some.inj hnext)))
    exact ⟨indent, tail ++ "\n" ++ rest, by simp only [String.append_assoc], hindent⟩

/-- Where the line behind a line begins with quotes, trimmed, it opens a docstring. -/
theorem exists_opensDocstring (hquote : quote ∈ quotes) {content next : String} {line : Nat} (hpos : 0 < line)
    (hnext : (Text.lines content)[line]? = some next) (hstarts : Text.startsWith (Text.trim next) quote = true) :
    ∃ tail, OpensDocstring content line quote tail := by
  induction content using Text.lines_induction generalizing line with
  | last s h =>
    rw [Text.lines_of_notMem h] at hnext
    have hlt := (List.getElem?_eq_some_iff.mp hnext).1
    split at hlt <;> simp only [List.length_nil, List.length_singleton] at hlt <;> omega
  | line s rest h ih =>
    obtain ⟨line, rfl⟩ := Nat.exists_eq_add_one.mpr hpos
    rw [Text.lines_append_line h, List.getElem?_cons_succ] at hnext
    rcases Nat.eq_zero_or_pos line with rfl | hline
    · rw [← List.head?_eq_getElem?] at hnext
      obtain ⟨indent, tail, rfl, hindent⟩ := exists_opening_of_head? hnext hstarts
      exact ⟨tail, hquote, s, indent, rfl, by rw [List.count_eq_zero.mpr h], hindent⟩
    · obtain ⟨tail, -, above, indent, rfl, hcount, hindent⟩ := ih hline hnext
      refine ⟨tail, hquote, s ++ "\n" ++ above, indent, by simp only [String.append_assoc], ?_, hindent⟩
      rw [Text.toList_append_newline, List.count_append, List.count_eq_zero.mpr h, List.count_cons_self, hcount]
      omega

theorem OpensDocstring.le_length {content tail : String} {line : Nat} (h : OpensDocstring content line quote tail) :
    line ≤ (Text.lines content).length := by
  obtain ⟨above, indent, rfl, rfl, -⟩ := h.split
  have hle := Text.count_newline_le (above ++ "\n" ++ (indent ++ quote ++ tail))
  rw [Text.toList_append_newline, List.count_append, List.count_cons_self] at hle
  omega

/-- The docstring in the lines behind the line. -/
theorem OpensDocstring.docstring?_eq {content tail : String} {line : Nat} (h : OpensDocstring content line quote tail) :
    docstring? ((Text.lines content).drop line) = docText? (Text.upTo quote (Text.dropStart tail quote)) := by
  obtain ⟨above, indent, rfl, rfl, hindent⟩ := h.split
  rw [Text.drop_lines_append, docstring?_lines h.mem hindent]

/-- Without a comment line, an attribute or a decorator directly above it, the documentation of a declaration in Python is
the docstring in the lines behind its own. -/
theorem leadingDocs?_python (hpython : job.extraction.language = some .python) {lines : List String} {line : Nat}
    (hpos : 0 < line) (hle : line ≤ lines.length + 1) (hcomment : ¬ job.comments.CommentAt lines (line - 1))
    (hattribute : ¬ AttributeAt lines (line - 1)) : leadingDocs? job lines line = docstring? (lines.drop line) := by
  have hrun : job.comments.RunAbove lines line line :=
    ⟨hpos, Nat.le_refl _, fun k hle hlt => absurd hlt (Nat.not_lt_of_le hle), hcomment⟩
  have hplain : ∀ k, line ≤ k + 1 → k < line → ¬ AttributeAt lines k := by
    intro k hk hlt
    obtain rfl : k = line - 1 := by omega
    exact hattribute
  unfold leadingDocs?
  rw [docsUpward_reverse hrun hle hplain, Text.lineRange_eq_nil (Nat.sub_lt hpos Nat.one_pos), hpython]
  rfl

/-- The docstring of a declaration in Python, one without a comment line, an attribute or a decorator directly above it,
begins behind all copies of the quotes in front and ends at the next copy.  So it is the text between the first two copies
exactly if no copy directly follows the first one, or nothing but blanks is read behind the copies. -/
theorem docstrings_end_at_quotes_iff (job : Job) {line : Nat} {next quote : String}
    (hpython : job.extraction.language = some .python) (hpos : 0 < line)
    (hcomment : ¬ job.comments.CommentAt job.lines (line - 1)) (hattribute : ¬ AttributeAt job.lines (line - 1))
    (hnext : job.lines[line]? = some next) (hquote : quote ∈ quotes)
    (hstarts : Text.startsWith (Text.trim next) quote = true) :
    (∃ tail, OpensDocstring job.extraction.content line quote tail) ∧
      ∀ tail, OpensDocstring job.extraction.content line quote tail →
        leadingDocs? job job.lines line = docText? (Text.upTo quote (Text.dropStart tail quote)) ∧
          (leadingDocs? job job.lines line = docText? (Text.upTo quote tail) ↔
            Text.startsWith tail quote = false ∨ docText? (Text.upTo quote (Text.dropStart tail quote)) = none) := by
  refine ⟨exists_opensDocstring hquote hpos hnext hstarts, fun tail hopens => ?_⟩
  have hdocs : leadingDocs? job job.lines line = docText? (Text.upTo quote (Text.dropStart tail quote)) :=
    (leadingDocs?_python hpython hpos (Nat.le_succ_of_le hopens.le_length) hcomment hattribute).trans hopens.docstring?_eq
  refine ⟨hdocs, ?_⟩
  rw [hdocs]
  cases hcopy : Text.startsWith tail quote with
  | false =>
    have hsame : Text.dropStart tail quote = tail := by
      unfold Text.dropStart
      rw [Text.dropLeads_eq_self hcopy, String.ofList_toList]
    exact iff_of_true (by rw [hsame]) (Or.inl rfl)
  | true =>
    -- the docstring between the first two copies is empty
    have hempty : docText? (Text.upTo quote tail) = none := by
      obtain ⟨rest, rfl⟩ := Text.startsWith_iff.mp hcopy
      rw [Text.upTo_of_some (Text.before?_append_self (of_mem_quotes hquote).1 rest)]
      rfl
    rw [hempty]
    simp

/-- A function with an empty docstring. -/
def emptyDocstringText : String :=
  "def f():\n    \"\"\"\"\"\"\n    return 1\n"

/-- The code behind an empty docstring is taken for its text. -/
theorem docstrings_end_at_quotes_iff_empty :
    OpensDocstring emptyDocstringText 1 "\"\"\"" "\"\"\"\n    return 1\n" ∧
      leadingDocs? (jobFor (some .python) .hash emptyDocstringText) (Text.lines emptyDocstringText) 1 = some "return 1" ∧
      docText? (Text.upTo "\"\"\"" "\"\"\"\n    return 1\n") = none := by
  have hopens : OpensDocstring emptyDocstringText 1 "\"\"\"" "\"\"\"\n    return 1\n" := by
    refine ⟨by decide, "def f():", "    ", by decide, by decide, fun c hc => ?_⟩
    rw [List.eq_of_mem_replicate (show c ∈ List.replicate 4 ' ' from hc)]
    decide
  have hnext : (jobFor (some .python) .hash emptyDocstringText).lines[1]? = some "    \"\"\"\"\"\"" := by decide
  have h := (docstrings_end_at_quotes_iff (jobFor (some .python) .hash emptyDocstringText) rfl Nat.one_pos
    (fun h => absurd h.1 (by decide)) (fun h => absurd h.1 (by decide)) hnext hopens.mem (by decide)).2 _ hopens
  refine ⟨hopens, h.1.trans ?_, ?_⟩
  · decide +kernel
  · decide +kernel

end Chunk

end CodeAtlas
