/-
  The documentation above a declaration.

  Reading upward from a declaration collects the comment lines directly above it, as long as no attribute comes between
  (`docsUpward_reverse`).  They are the comment block that ends above the declaration, unless its own line is a comment line
  too and continues the block.  The main result is `docs_above_agree_with_blocks`.
-/
import CodeAtlas.Chunk.Basic
import CodeAtlas.Proofs.Comment
import CodeAtlas.Proofs.Text.Split

namespace CodeAtlas

open CommentStyle

instance (style : CommentStyle) (line : String) : Decidable (style.IsComment line) :=
  inferInstanceAs (Decidable (Text.trim line ≠ "" ∧ style.isCommentLine (Text.trim line) = true))

namespace CommentStyle

/-- The comment lines directly above line `line` are those from `first` on; there are none if the two are the same. -/
structure RunAbove (style : CommentStyle) (lines : List String) (line first : Nat) : Prop where
  pos : 0 < first
  le : first ≤ line
  comments : ∀ k, first ≤ k → k < line → style.CommentAt lines k
  before : ¬ style.CommentAt lines (first - 1)

variable {style : CommentStyle} {lines : List String} {line first : Nat} {b : CommentBlock}

/-- The run above a line that is no comment line is maximal. -/
theorem RunAbove.isRun (h : style.RunAbove lines line first) (hlt : first < line) (hline : ¬ style.CommentAt lines line) :
    style.IsRun lines first (line - 1) where
  le := by omega
  comments k hle hge := h.comments k hle (by omega)
  before := h.before
  after := by rwa [Nat.sub_add_cancel (by omega)]

/-- A block that ends above a line is the run above it. -/
theorem RunAbove.startLine_eq (h : style.RunAbove lines line first) (hb : CommentBlock.OfRun style lines b)
    (hend : b.endLine + 1 = line) : b.startLine = first := by
  have hle := hb.run.le
  have hlast := hb.run.comments _ hle (Nat.le_refl _)
  have hpos := (hb.run.comments _ (Nat.le_refl _) hle).1
  rcases Nat.lt_trichotomy b.startLine first with hlt | heq | hgt
  · exact absurd (hb.run.comments (first - 1) (by omega) (by have hfirst := h.le; omega)) h.before
  · exact heq
  · exact absurd (h.comments (b.startLine - 1) (by omega) (by omega)) hb.run.before

end CommentStyle

namespace Chunk

/-- The lines of the file. -/
def Job.lines (job : Job) : List String :=
  Text.lines job.extraction.content

variable {style : CommentStyle} {lines run rest : List String} {job : Job} {line first : Nat}

/-- Whether a line begins with an attribute or a decorator. -/
def IsAttribute (line : String) : Prop :=
  Text.startsWith (Text.trim line) "#[" = true ∨ Text.startsWith (Text.trim line) "@" = true

instance (line : String) : Decidable (IsAttribute line) :=
  inferInstanceAs (Decidable (_ ∨ _))

/-- Whether a line of a text, counted from 1, begins with an attribute or a decorator. -/
def AttributeAt (lines : List String) (k : Nat) : Prop :=
  0 < k ∧ ∃ line, lines[k - 1]? = some line ∧ IsAttribute line

/-! ## Reading upward -/

theorem docsUpward_append (hplain : ∀ l ∈ run, ¬ IsAttribute l) (hcomments : ∀ l ∈ run, style.IsComment l) :
    docsUpward style (run ++ rest) = (run.map style.textOf).filter (fun t => !t.isEmpty) ++ docsUpward style rest := by
  induction run with
  | nil => rfl
  | cons l run ih =>
    obtain ⟨hl, hplain⟩ := List.forall_mem_cons.mp hplain
    obtain ⟨hcomment, hcomments⟩ := List.forall_mem_cons.mp hcomments
    have hattribute : (Text.startsWith (Text.trim l) "#[" || Text.startsWith (Text.trim l) "@") = false := by
      rw [Bool.eq_false_iff, Ne, Bool.or_eq_true]
      exact hl
    rw [List.cons_append, docsUpward, hattribute, if_neg Bool.false_ne_true,
      CommentBlock.commentText?_of_isComment hcomment, List.map_cons]
    dsimp only
    cases htext : (style.textOf l).isEmpty with
    | true => rw [if_pos rfl, ih hplain hcomments, List.filter_cons_of_neg (by rw [htext]; exact Bool.noConfusion)]
    | false =>
      rw [if_neg Bool.false_ne_true, ih hplain hcomments, List.filter_cons_of_pos (by rw [htext]; rfl), List.cons_append]

/-- A line that is neither an attribute nor a comment line ends the documentation. -/
theorem docsUpward_eq_nil (hplain : ∀ l ∈ lines.head?, ¬ IsAttribute l) (hother : ∀ l ∈ lines.head?, ¬ style.IsComment l) :
    docsUpward style lines = [] := by
  cases lines with
  | nil => rfl
  | cons l lines =>
    have hattribute : (Text.startsWith (Text.trim l) "#[" || Text.startsWith (Text.trim l) "@") = false := by
      rw [Bool.eq_false_iff, Ne, Bool.or_eq_true]
      exact hplain l rfl
    rw [docsUpward, hattribute, if_neg Bool.false_ne_true, CommentBlock.commentText?_eq_none (hother l rfl)]

theorem exists_at_of_mem_lineRange {l : String} {last : Nat} (hpos : 0 < first) (hle : first ≤ last + 1)
    (h : l ∈ Text.lineRange lines first last) : ∃ k, first ≤ k ∧ k ≤ last ∧ lines[k - 1]? = some l := by
  rw [Text.lineRange_eq hpos hle] at h
  obtain ⟨i, hi⟩ := List.mem_iff_getElem?.mp h
  rw [List.getElem?_drop, List.getElem?_take] at hi
  split at hi
  · exact ⟨first + i, Nat.le_add_right _ _, by omega, by rw [← hi]; congr 1; omega⟩
  · cases hi

theorem at_of_mem_getLast?_take {l : String} {n : Nat} (hle : n ≤ lines.length) (h : l ∈ (lines.take n).getLast?) :
    0 < n ∧ lines[n - 1]? = some l := by
  rw [List.getLast?_eq_getElem?, List.length_take, Nat.min_eq_left hle, Option.mem_def, List.getElem?_take] at h
  split at h
  · exact ⟨by omega, h⟩
  · cases h

/-- What is read upward from a line are the texts of the comment lines directly above it. -/
theorem docsUpward_reverse (h : style.RunAbove lines line first) (hle : line ≤ lines.length + 1)
    (hplain : ∀ k, first ≤ k + 1 → k < line → ¬ AttributeAt lines k) :
    (docsUpward style (lines.take (line - 1)).reverse).reverse =
      ((Text.lineRange lines first (line - 1)).map style.textOf).filter fun t => !t.isEmpty := by
  have hpos := h.pos
  have hfirst := h.le
  have hsplit : lines.take (line - 1) = lines.take (first - 1) ++ Text.lineRange lines first (line - 1) := by
    have hfront : lines.take (first - 1) = (lines.take (line - 1)).take (first - 1) := by
      rw [List.take_take, Nat.min_eq_left (by omega)]
    rw [Text.lineRange_eq hpos (by omega), hfront, List.take_append_drop]
  have hrun {l : String} (hl : l ∈ (Text.lineRange lines first (line - 1)).reverse) :
      ¬ IsAttribute l ∧ style.IsComment l := by
    obtain ⟨k, hk, hk', hat⟩ := exists_at_of_mem_lineRange hpos (by omega) (List.mem_reverse.mp hl)
    obtain ⟨hkpos, l', hl', hcomment⟩ := h.comments k hk (by omega)
    rw [hat] at hl'
    cases hl'
    exact ⟨fun hattribute => hplain k (by omega) (by omega) ⟨hkpos, l, hat, hattribute⟩, hcomment⟩
  have hbefore {l : String} (hl : l ∈ (lines.take (first - 1)).reverse.head?) : ¬ IsAttribute l ∧ ¬ style.IsComment l := by
    rw [List.head?_reverse] at hl
    obtain ⟨hkpos, hat⟩ := at_of_mem_getLast?_take (by omega) hl
    exact ⟨fun hattribute => hplain (first - 1) (by omega) (by omega) ⟨hkpos, l, hat, hattribute⟩,
      fun hcomment => h.before ⟨hkpos, l, hat, hcomment⟩⟩
  rw [hsplit, List.reverse_append, docsUpward_append (fun l hl => (hrun hl).1) (fun l hl => (hrun hl).2),
    docsUpward_eq_nil (fun l hl => (hbefore hl).1) (fun l hl => (hbefore hl).2), List.append_nil, List.map_reverse,
    List.filter_reverse, List.reverse_reverse]

/-! ## Comment blocks -/

/-- The texts that are not empty make a text exactly if there is one. -/
theorem nonEmpty?_join (texts : List String) :
    nonEmpty? (Text.join "\n" (texts.filter fun t => !t.isEmpty)) =
      if (texts.filter fun t => !t.isEmpty).isEmpty then none
      else some (Text.join "\n" (texts.filter fun t => !t.isEmpty)) := by
  unfold nonEmpty?
  cases h : texts.filter fun t => !t.isEmpty with
  | nil => rfl
  | cons t rest =>
    have ht : t ≠ "" := by
      have hmem : t ∈ texts.filter fun t => !t.isEmpty := h ▸ List.mem_cons_self
      simpa using (List.mem_filter.mp hmem).2
    rw [if_neg, if_neg (by simp)]
    rw [String.isEmpty_iff]
    exact Text.join_cons_ne_empty ht rest

theorem nonEmpty?_eq_none_iff {s : String} : nonEmpty? s = none ↔ s = "" := by
  unfold nonEmpty?
  split
  · rename_i hempty
    exact iff_of_true rfl (String.isEmpty_iff.mp hempty)
  · rename_i hne
    exact iff_of_false (Option.some_ne_none s) (mt String.isEmpty_iff.mpr hne)

/-- Outside of Python the documentation is the text of the comment lines directly above. -/
theorem leadingDocs?_eq (hlanguage : job.extraction.language ≠ some .python) (h : job.comments.RunAbove lines line first)
    (hle : line ≤ lines.length + 1) (hplain : ∀ k, first ≤ k + 1 → k < line → ¬ AttributeAt lines k) :
    leadingDocs? job lines line = nonEmpty? (job.comments.textOfAll (Text.lineRange lines first (line - 1))) := by
  unfold leadingDocs? textOfAll
  dsimp only
  rw [docsUpward_reverse h hle hplain, nonEmpty?_join, beq_eq_false_iff_ne.mpr hlanguage]
  cases (((Text.lineRange lines first (line - 1)).map job.comments.textOf).filter fun t => !t.isEmpty).isEmpty <;> rfl

/-- The documentation above a line, of a file in another language than Python and without attributes in between, is the text
of the comment lines directly above it, so that of the comment block that ends there if one does.  If the line itself is no
comment line, there is no documentation exactly if no block ends there or its text is empty. -/
theorem docs_above_agree_with_blocks (job : Job) {line first : Nat} (hlanguage : job.extraction.language ≠ some .python)
    (hpos : 1 ≤ line) (hle : line ≤ job.lines.length) (hrun : job.comments.RunAbove job.lines line first)
    (hplain : ∀ k, first ≤ k + 1 → k < line → ¬ AttributeAt job.lines k) :
    leadingDocs? job job.lines line = nonEmpty? (job.comments.textOfAll (Text.lineRange job.lines first (line - 1))) ∧
      (∀ b ∈ CommentBlock.all job.extraction.content job.comments, b.endLine + 1 = line →
        leadingDocs? job job.lines line = nonEmpty? b.text) ∧
      (¬ job.comments.CommentAt job.lines line → (leadingDocs? job job.lines line = none ↔
        ∀ b ∈ CommentBlock.all job.extraction.content job.comments, b.endLine + 1 = line → b.text = "")) := by
  have hdocs := leadingDocs?_eq hlanguage hrun (by omega) hplain
  have hblocks := (CommentBlock.listsRuns_all job.extraction.content job.comments).mem_iff
  have hblock : ∀ b ∈ CommentBlock.all job.extraction.content job.comments, b.endLine + 1 = line →
      leadingDocs? job job.lines line = nonEmpty? b.text := by
    intro b hb hend
    have hof := (hblocks b).mp hb
    have hlast : b.endLine = line - 1 := by omega
    rw [hdocs, hof.text, hrun.startLine_eq hof hend, hlast]
    rfl
  refine ⟨hdocs, hblock, fun hline => ⟨fun hnone b hb hend => ?_, fun hempty => ?_⟩⟩
  · rw [hblock b hb hend] at hnone
    exact nonEmpty?_eq_none_iff.mp hnone
  · rcases Nat.eq_or_lt_of_le hrun.le with rfl | hlt
    · -- no comment line stands directly above
      rw [hdocs, Text.lineRange_eq_nil (Nat.sub_lt hpos Nat.one_pos)]
      rfl
    · have hmem := (hblocks ⟨first, line - 1, job.comments.textOfAll (Text.lineRange job.lines first (line - 1))⟩).mpr
        ⟨hrun.isRun hlt hline, rfl⟩
      rw [hdocs, nonEmpty?_eq_none_iff]
      exact hempty _ hmem (Nat.sub_add_cancel hpos)

/-- A text to be cut, of a language with a style of comments. -/
def jobFor (language : Option Language) (comments : CommentStyle) (content : String) : Job :=
  ⟨{ (default : Extraction) with language, content }, {}, comments, false⟩

/-- A function below a comment of two lines. -/
def addText : String :=
  "// Adds\n//\nfunction add() \x7b\x7d\n"

/-- The comment is the documentation of the function. -/
theorem docs_above_agree_with_blocks_add :
    (jobFor (some .javascript) .cFamily addText).comments.RunAbove (jobFor (some .javascript) .cFamily addText).lines 3 1 ∧
      leadingDocs? (jobFor (some .javascript) .cFamily addText) (jobFor (some .javascript) .cFamily addText).lines 3 =
        some "Adds" := by
  have hlines : (jobFor (some .javascript) .cFamily addText).lines = ["// Adds", "//", "function add() \x7b\x7d"] := by
    decide
  have hrun : CommentStyle.cFamily.RunAbove (jobFor (some .javascript) .cFamily addText).lines 3 1 := by
    rw [hlines]
    refine ⟨by decide, by decide, fun k hle hlt => ?_, fun h => absurd h.1 (by decide)⟩
    obtain rfl | rfl : k = 1 ∨ k = 2 := by omega
    · exact ⟨by decide, _, rfl, by decide⟩
    · exact ⟨by decide, _, rfl, by decide⟩
  have hplain : ∀ k, 1 ≤ k + 1 → k < 3 → ¬ AttributeAt (jobFor (some .javascript) .cFamily addText).lines k := by
    rw [hlines]
    rintro k - hlt ⟨hpos, l, hl, hattribute⟩
    obtain rfl | rfl : k = 1 ∨ k = 2 := by omega
    · cases hl
      exact absurd hattribute (by decide)
    · cases hl
      exact absurd hattribute (by decide)
  have h := docs_above_agree_with_blocks (jobFor (some .javascript) .cFamily addText) (by decide) (by decide)
    (by decide) hrun hplain
  refine ⟨hrun, h.1.trans ?_⟩
  decide +kernel

/-- A function between two comments, the second one in its own line. -/
def betweenText : String :=
  "// A\nfunction f() \x7b\x7d /* b */\n"

/-- The line of the function continues the block of the comment above it, so that no block ends above the function, which has
documentation all the same. -/
theorem docs_above_without_block :
    (jobFor (some .javascript) .cFamily betweenText).comments.RunAbove
        (jobFor (some .javascript) .cFamily betweenText).lines 2 1 ∧
      (∀ k, 1 ≤ k + 1 → k < 2 → ¬ AttributeAt (jobFor (some .javascript) .cFamily betweenText).lines k) ∧
      leadingDocs? (jobFor (some .javascript) .cFamily betweenText)
        (jobFor (some .javascript) .cFamily betweenText).lines 2 = some "A" ∧
      ∀ b ∈ CommentBlock.all betweenText .cFamily, b.endLine + 1 ≠ 2 := by
  have hlines : (jobFor (some .javascript) .cFamily betweenText).lines = ["// A", "function f() \x7b\x7d /* b */"] := by
    decide
  rw [hlines]
  refine ⟨⟨by decide, by decide, fun k hle hlt => ?_, fun h => absurd h.1 (by decide)⟩, ?_, by decide +kernel,
    by decide +kernel⟩
  · obtain rfl : k = 1 := by omega
    exact ⟨by decide, _, rfl, by decide⟩
  · rintro k - hlt ⟨hpos, l, hl, hattribute⟩
    obtain rfl : k = 1 := by omega
    cases hl
    exact absurd hattribute (by decide)

end Chunk

end CodeAtlas
