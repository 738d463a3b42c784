/-
  Chunks of comment blocks.

  The comment blocks of a text are the maximal runs of its comment lines (`CommentBlock.listsRuns_all`).  Those that are
  long enough have a chunk each, in their order (`forall₂_documentation`), with an identifier of its own
  (`nodup_documentation`).  The main result is `comment_blocks_are_runs`.
-/
import CodeAtlas.Proofs.Chunk.Identity
import CodeAtlas.Proofs.Comment

namespace CodeAtlas

namespace Chunk

variable {job : Job}

/-- A chunk with the text and the lines of a comment block. -/
structure Documents (c : Chunk) (b : CommentBlock) : Prop where
  type : c.type = .documentation
  content : c.content = b.text
  startLine : c.startLine = b.startLine
  endLine : c.endLine = b.endLine

/-- The comment blocks of so many characters and lines, one by one, and their chunks. -/
theorem forall₂_documentation (h : job.extraction.Extracted) :
    List.Forall₂ (fun b c => c.Documents b)
      ((CommentBlock.all job.extraction.content job.comments).filter fun b =>
        job.config.minDocChars ≤ b.text.toList.length ∧ job.config.minDocLines ≤ b.endLine + 1 - b.startLine)
      (documentation job) := by
  obtain ⟨file, hfile, -, -⟩ := h.fileNode?_eq
  have hlong : (CommentBlock.all job.extraction.content job.comments).filter (fun b =>
        job.config.minDocChars ≤ b.text.toList.length && job.config.minDocLines ≤ b.lineCount) =
      (CommentBlock.all job.extraction.content job.comments).filter fun b =>
        job.config.minDocChars ≤ b.text.toList.length ∧ job.config.minDocLines ≤ b.endLine + 1 - b.startLine := by
    refine List.filter_congr fun b hb => ?_
    have hle := (((CommentBlock.listsRuns_all _ _).mem_iff b).mp hb).run.le
    have hcount : b.lineCount = b.endLine + 1 - b.startLine := by
      unfold CommentBlock.lineCount
      omega
    rw [hcount, Bool.decide_and]
  unfold documentation
  rw [hfile]
  dsimp only
  rw [hlong]
  exact List.forall₂_map_right_iff.mpr (List.forall₂_same.mpr fun b _ => ⟨rfl, rfl, rfl, rfl⟩)

/-- The comment blocks of a text are exactly the maximal runs of its comment lines, in order, with a line between any two.
Cutting a file by comment blocks gives a chunk for each of them that has enough characters and lines, in the same order,
with identifiers of their own where no two of the digested texts collide. -/
theorem comment_blocks_are_runs (content : String) (style : CommentStyle) :
    CommentBlock.ListsRuns style (Text.lines content) (CommentBlock.all content style) ∧
      ∀ job : Job, job.extraction.Extracted →
        NoCollision ((CommentBlock.all job.extraction.content job.comments).map (partsOfBlock job.extraction.path)) →
        List.Forall₂ (fun b c => c.Documents b)
            ((CommentBlock.all job.extraction.content job.comments).filter fun b =>
              job.config.minDocChars ≤ b.text.toList.length ∧ job.config.minDocLines ≤ b.endLine + 1 - b.startLine)
            (ChunkStrategy.documentation.cut job) ∧
          ((ChunkStrategy.documentation.cut job).map (·.id)).Nodup :=
  ⟨CommentBlock.listsRuns_all content style, fun _ h hcollision =>
    ⟨forall₂_documentation h, nodup_documentation h hcollision⟩⟩

/-- A text with a comment of two lines and one of one line. -/
def remarksText : String :=
  "# first\n#\nx = 1\n# last"

/-- A file with the text, of no known language. -/
def remarks : Extraction :=
  .ofUnknown ⟨"todo.txt", some remarksText, false, none, none, none⟩ remarksText "demo" none

theorem extracted_remarks : remarks.Extracted := by
  refine ⟨.ofConfig {}, .empty, 0, ⟨"todo.txt", some remarksText, false, none, none, none⟩, "demo", none, ?_⟩
  have hunknown : Language.ofPath? "todo.txt" = none := by decide
  unfold Extractor.extract Engine.language
  dsimp only [SourceFile.load, Option.none_or]
  rw [hunknown]
  rfl

theorem all_remarksText : CommentBlock.all remarksText .hash = [⟨1, 2, "first"⟩, ⟨4, 4, "last"⟩] := by
  decide +kernel

/-- Of the two comments one has enough lines. -/
theorem comment_blocks_are_runs_remarks :
    remarks.Extracted ∧
      NoCollision ((CommentBlock.all remarks.content .hash).map (partsOfBlock remarks.path)) ∧
      ∃ c, ChunkStrategy.documentation.cut ⟨remarks, { minDocChars := 1 }, .hash, false⟩ = [c] ∧
        c.Documents ⟨1, 2, "first"⟩ := by
  have hcollision : NoCollision ((CommentBlock.all remarks.content .hash).map (partsOfBlock remarks.path)) := by
    rw [show remarks.content = remarksText from rfl, all_remarksText]
    decide +kernel
  have h := ((comment_blocks_are_runs remarksText .hash).2 ⟨remarks, { minDocChars := 1 }, .hash, false⟩
    extracted_remarks hcollision).1
  dsimp only at h
  rw [show remarks.content = remarksText from rfl, all_remarksText] at h
  obtain ⟨c, rest, hc, hrest, hcut⟩ := List.forall₂_cons_left_iff.mp h
  rw [List.forall₂_nil_left_iff.mp hrest] at hcut
  exact ⟨extracted_remarks, hcollision, c, hcut, hc⟩

end Chunk

end CodeAtlas
