/-
  Comment blocks are the maximal runs of comment lines.

  While the lines are read, the lines since the first one of the current run are comment lines and the line before them is
  none (`Reads`).  A line that is no comment line closes the run as a block (`Lists.close`); what is listed then are the
  runs from there on (`lists_scan`).  Two runs with a common line are the same (`IsRun.unique`), so the blocks of a text
  are exactly its runs (`listsRuns_all`).
-/
import CodeAtlas.Comment
import CodeAtlas.Proofs.Text.Lines

namespace CodeAtlas

namespace CommentStyle

/-- Whether a line is not blank and belongs to a comment. -/
def IsComment (style : CommentStyle) (line : String) : Prop :=
  Text.trim line ≠ "" ∧ style.isCommentLine (Text.trim line) = true

/-- A line without the blanks around it and without its comment marks. -/
def textOf (style : CommentStyle) (line : String) : String :=
  style.stripMarkers (Text.trim line)

/-- The texts of some lines that are not empty, a line each. -/
def textOfAll (style : CommentStyle) (lines : List String) : String :=
  Text.join "\n" ((lines.map style.textOf).filter fun t => !t.isEmpty)

/-- Whether a line of a text, counted from 1, is a comment line. -/
def CommentAt (style : CommentStyle) (lines : List String) (k : Nat) : Prop :=
  0 < k ∧ ∃ line, lines[k - 1]? = some line ∧ style.IsComment line

/-- The lines from `first` to `last` are a maximal run of comment lines. -/
structure IsRun (style : CommentStyle) (lines : List String) (first last : Nat) : Prop where
  le : first ≤ last
  comments : ∀ k, first ≤ k → k ≤ last → style.CommentAt lines k
  before : ¬ style.CommentAt lines (first - 1)
  after : ¬ style.CommentAt lines (last + 1)

variable {style : CommentStyle} {lines : List String} {line : String} {first last first' last' k n : Nat}

theorem commentAt_succ (h : lines[k]? = some line) : style.CommentAt lines (k + 1) ↔ style.IsComment line := by
  unfold CommentAt
  rw [Nat.add_sub_cancel, h]
  simp

theorem CommentAt.le_length (h : style.CommentAt lines k) : k ≤ lines.length := by
  obtain ⟨hpos, line, hline, -⟩ := h
  have hlt := (List.getElem?_eq_some_iff.mp hline).1
  omega

/-- Runs with a common line are the same. -/
theorem IsRun.unique (h : style.IsRun lines first last) (h' : style.IsRun lines first' last') (hle : first ≤ k)
    (hge : k ≤ last) (hle' : first' ≤ k) (hge' : k ≤ last') : first = first' ∧ last = last' := by
  have hfirst {i j i' j' : Nat} (h : style.IsRun lines i j) (h' : style.IsRun lines i' j') (hi : i ≤ k) (hj : k ≤ j)
      (hi' : i' ≤ k) : i' ≤ i := by
    by_contra hlt
    exact h'.before (h.comments _ (by omega) (by omega))
  have hlast {i j i' j' : Nat} (h : style.IsRun lines i j) (h' : style.IsRun lines i' j') (hi : i ≤ k) (hj : k ≤ j)
      (hj' : k ≤ j') : j ≤ j' := by
    by_contra hlt
    exact h'.after (h.comments _ (by omega) (by omega))
  exact ⟨Nat.le_antisymm (hfirst h' h hle' hge' hle) (hfirst h h' hle hge hle'),
    Nat.le_antisymm (hlast h h' hle hge hge') (hlast h' h hle' hge' hge)⟩

end CommentStyle

open CommentStyle

namespace CommentBlock

variable {style : CommentStyle} {lines run rest : List String} {blocks : List CommentBlock} {b b' : CommentBlock}
  {line : String} {first n : Nat}

theorem commentText?_of_isComment (h : style.IsComment line) : commentText? style line = some (style.textOf line) := by
  unfold commentText?
  dsimp only
  rw [if_pos]
  · rfl
  · simp [h.1, h.2]

theorem commentText?_eq_none (h : ¬ style.IsComment line) : commentText? style line = none := by
  unfold commentText?
  dsimp only
  rw [if_neg]
  intro hboth
  rw [Bool.and_eq_true] at hboth
  exact h ⟨by simpa using hboth.1, hboth.2⟩

/-- A block is a maximal run of comment lines with its first and its last line and the text of its lines. -/
structure OfRun (style : CommentStyle) (lines : List String) (b : CommentBlock) : Prop where
  run : style.IsRun lines b.startLine b.endLine
  text : b.text = style.textOfAll (Text.lineRange lines b.startLine b.endLine)

theorem OfRun.unique (h : OfRun style lines b) (h' : OfRun style lines b') {k : Nat} (hk : b.startLine ≤ k)
    (hk' : k ≤ b.endLine) (hle : b'.startLine ≤ k) (hge : k ≤ b'.endLine) : b = b' := by
  obtain ⟨hstart, hend⟩ := h.run.unique h'.run hk hk' hle hge
  have htext : b.text = b'.text := by rw [h.text, h'.text, hstart, hend]
  cases b
  cases b'
  simp only at hstart hend htext
  rw [hstart, hend, htext]

/-- The first `n` lines are read, and those from `first` on are the run so far, whose texts are `run`, the last one
first. -/
structure Reads (style : CommentStyle) (lines : List String) (n first : Nat) (run : List String) : Prop where
  pos : 0 < first
  le : first ≤ n + 1
  inside : n ≤ lines.length
  comments : ∀ k, first ≤ k → k ≤ n → style.CommentAt lines k
  before : ¬ style.CommentAt lines (first - 1)
  texts : run.reverse = (Text.lineRange lines first n).map style.textOf

namespace Reads

theorem start : Reads style lines 0 1 [] where
  pos := Nat.one_pos
  le := Nat.le_refl 1
  inside := Nat.zero_le _
  comments k hle hge := absurd hge (by omega)
  before h := absurd h.1 (Nat.lt_irrefl 0)
  texts := rfl

theorem length_run (h : Reads style lines n first run) : run.length = n + 1 - first := by
  rw [← List.length_reverse, h.texts, List.length_map, Text.length_lineRange h.pos h.le h.inside]

/-- A comment line is added to the run. -/
theorem push (h : Reads style lines n first run) (hline : lines[n]? = some line) (hcomment : style.IsComment line) :
    Reads style lines (n + 1) first (style.textOf line :: run) where
  pos := h.pos
  le := Nat.le_succ_of_le h.le
  inside := (List.getElem?_eq_some_iff.mp hline).1
  comments k hle hge := by
    rcases Nat.le_or_eq_of_le_succ hge with hlt | rfl
    · exact h.comments k hle hlt
    · exact (commentAt_succ hline).mpr hcomment
  before := h.before
  texts := by
    rw [Text.lineRange_succ h.pos h.le hline, List.reverse_cons, h.texts, List.map_append, List.map_singleton]

/-- Behind another line a run can begin. -/
theorem skip (hline : lines[n]? = some line) (hother : ¬ style.IsComment line) :
    Reads style lines (n + 1) (n + 2) [] where
  pos := Nat.succ_pos _
  le := Nat.le_refl _
  inside := (List.getElem?_eq_some_iff.mp hline).1
  comments k hle hge := absurd hge (by omega)
  before := mt (commentAt_succ hline).mp hother
  texts := by
    rw [Text.lineRange_eq_nil (Nat.lt_succ_self _)]
    rfl

/-- The run is a block when the next line is no comment line. -/
theorem ofRun (h : Reads style lines n first run) (hnext : ¬ style.CommentAt lines (n + 1)) (hrun : run ≠ []) :
    (ofRun (n + 1 - run.length) run.reverse).startLine = first ∧ (ofRun (n + 1 - run.length) run.reverse).endLine = n ∧
      OfRun style lines (ofRun (n + 1 - run.length) run.reverse) := by
  have hlength := h.length_run
  have hle := h.le
  have hpos := List.length_pos_iff.mpr hrun
  have hstart : (CommentBlock.ofRun (n + 1 - run.length) run.reverse).startLine = first := by
    show n + 1 - run.length = first
    omega
  have hend : (CommentBlock.ofRun (n + 1 - run.length) run.reverse).endLine = n := by
    show n + 1 - run.length + run.reverse.length - 1 = n
    rw [List.length_reverse]
    omega
  refine ⟨hstart, hend, ?_, ?_⟩
  · rw [hstart, hend]
    exact ⟨by omega, h.comments, h.before, hnext⟩
  · rw [hstart, hend]
    show Text.join "\n" (run.reverse.filter fun t => !t.isEmpty) = _
    rw [h.texts]
    rfl

end Reads

/-- The blocks are the runs from line `first` on, in order, with a line between any two. -/
structure Lists (style : CommentStyle) (lines : List String) (first : Nat) (blocks : List CommentBlock) : Prop where
  runs : ∀ b ∈ blocks, OfRun style lines b ∧ first ≤ b.startLine
  apart : blocks.Pairwise fun a b => a.endLine + 1 < b.startLine
  covers : ∀ k, first ≤ k → style.CommentAt lines k → ∃ b ∈ blocks, b.startLine ≤ k ∧ k ≤ b.endLine

/-- Behind the last line there is no run. -/
theorem Lists.nil (h : lines.length < first) : Lists style lines first [] where
  runs _ hb := absurd hb List.not_mem_nil
  apart := .nil
  covers _ hle hcomment := absurd hcomment.le_length (by omega)

/-- The run that is read is listed before those behind the next line. -/
theorem Lists.close (h : Lists style lines (n + 2) blocks) (hread : Reads style lines n first run)
    (hnext : ¬ style.CommentAt lines (n + 1)) :
    Lists style lines first ((if run.isEmpty then [] else [ofRun (n + 1 - run.length) run.reverse]) ++ blocks) := by
  have hle := hread.le
  -- a comment line from `first` on is in the run or behind the next line
  have hlines {k : Nat} (hk : first ≤ k) (hcomment : style.CommentAt lines k) : k ≤ n ∨ n + 2 ≤ k := by
    have hne : k ≠ n + 1 := by
      rintro rfl
      exact hnext hcomment
    omega
  split
  · rename_i hempty
    have hlength := hread.length_run
    rw [List.isEmpty_iff.mp hempty, List.length_nil] at hlength
    rw [List.nil_append]
    refine ⟨fun b hb => ⟨(h.runs b hb).1, ?_⟩, h.apart, fun k hk hcomment => h.covers k ?_ hcomment⟩
    · have hstart := (h.runs b hb).2
      omega
    · have hcases := hlines hk hcomment
      omega
  · rename_i hne
    obtain ⟨hstart, hend, hrun⟩ := hread.ofRun hnext (mt List.isEmpty_iff.mpr hne)
    refine ⟨List.forall_mem_cons.mpr ⟨⟨hrun, Nat.le_of_eq hstart.symm⟩, fun b hb => ⟨(h.runs b hb).1, ?_⟩⟩,
      List.pairwise_cons.mpr ⟨fun b hb => ?_, h.apart⟩, fun k hk hcomment => ?_⟩
    · have hlater := (h.runs b hb).2
      omega
    · have hlater := (h.runs b hb).2
      omega
    · rcases hlines hk hcomment with hin | hlater
      · exact ⟨_, List.mem_cons_self, by omega, by omega⟩
      · obtain ⟨b, hb, hcovers⟩ := h.covers k hlater hcomment
        exact ⟨b, List.mem_cons_of_mem _ hb, hcovers⟩

/-- Reading the rest of the lines lists the runs from that on that is being read. -/
theorem lists_scan (h : Reads style lines n first run) (hrest : lines.drop n = rest) :
    Lists style lines first (scan style (n + 1) run rest) := by
  induction rest generalizing n first run with
  | nil =>
    have hlength := List.drop_eq_nil_iff.mp hrest
    have hclose := (Lists.nil (by omega)).close h fun hcomment => absurd hcomment.le_length (by omega)
    unfold scan
    rwa [List.append_nil] at hclose
  | cons line rest ih =>
    have hline : lines[n]? = some line := by
      rw [← List.head?_drop, hrest]
      rfl
    have hrest : lines.drop (n + 1) = rest := by
      rw [← List.tail_drop, hrest]
      rfl
    unfold scan
    by_cases hcomment : style.IsComment line
    · rw [commentText?_of_isComment hcomment]
      exact ih (h.push hline hcomment) hrest
    · rw [commentText?_eq_none hcomment]
      exact (ih (.skip hline hcomment) hrest).close h (mt (commentAt_succ hline).mp hcomment)

/-- The blocks are exactly the maximal runs of comment lines, in order, with a line between any two, so that every comment
line is in one of them. -/
structure ListsRuns (style : CommentStyle) (lines : List String) (blocks : List CommentBlock) : Prop where
  mem_iff : ∀ b, b ∈ blocks ↔ OfRun style lines b
  apart : blocks.Pairwise fun a b => a.endLine + 1 < b.startLine
  covers : ∀ k, style.CommentAt lines k → ∃! b, b ∈ blocks ∧ b.startLine ≤ k ∧ k ≤ b.endLine

/-- The comment blocks of a text are the runs of its lines. -/
theorem listsRuns_all (content : String) (style : CommentStyle) :
    ListsRuns style (Text.lines content) (all content style) := by
  have hlists : Lists style (Text.lines content) 1 (all content style) := lists_scan .start List.drop_zero
  refine ⟨fun b => ⟨fun hb => (hlists.runs b hb).1, fun hrun => ?_⟩, hlists.apart, fun k hcomment => ?_⟩
  · -- the block of the first line of the run is the run
    have hfirst := hrun.run.comments _ (Nat.le_refl _) hrun.run.le
    obtain ⟨b', hb', hle, hge⟩ := hlists.covers _ hfirst.1 hfirst
    rwa [hrun.unique (hlists.runs b' hb').1 (Nat.le_refl _) hrun.run.le hle hge]
  · obtain ⟨b, hb, hle, hge⟩ := hlists.covers k hcomment.1 hcomment
    refine ⟨b, ⟨hb, hle, hge⟩, ?_⟩
    rintro b' ⟨hb', hle', hge'⟩
    exact (hlists.runs b' hb').1.unique (hlists.runs b hb).1 hle' hge' hle hge

/-- The comment blocks of a text start in lines of their own, in order. -/
theorem pairwise_startLine (content : String) (style : CommentStyle) :
    (all content style).Pairwise fun a b => a.startLine < b.startLine := by
  have hruns := listsRuns_all content style
  refine hruns.apart.imp_of_mem fun {a b} ha _ hlt => ?_
  have hle := ((hruns.mem_iff a).mp ha).run.le
  omega

end CommentBlock

end CodeAtlas
