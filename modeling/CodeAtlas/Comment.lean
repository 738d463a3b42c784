/-
  Comments as lines.  A comment style says which trimmed lines belong to a comment and what remains of them without the
  comment marks.  A comment block is a maximal run of such lines.
-/
import CodeAtlas.Text.Blank
import CodeAtlas.Text.Lines

namespace CodeAtlas

/-- How a language writes comments. -/
inductive CommentStyle where
  /-- Slashes and stars. -/
  | cFamily
  /-- Number signs. -/
  | hash
  deriving DecidableEq, Repr, Inhabited

namespace CommentStyle

/-- The tag of a style. -/
def name : CommentStyle → String
  | .cFamily => "c-family"
  | .hash => "hash"

/-- Whether a trimmed line belongs to a comment. -/
def isCommentLine (style : CommentStyle) (trimmed : String) : Bool :=
  match style with
  | .cFamily =>
    Text.startsWith trimmed "//" || Text.startsWith trimmed "/*" || Text.startsWith trimmed "*"
      || Text.endsWith trimmed "*/"
  | .hash => Text.startsWith trimmed "#" && !Text.startsWith trimmed "#!"

/-- A trimmed line without its comment marks. -/
def stripMarkers (style : CommentStyle) (trimmed : String) : String :=
  match style with
  | .cFamily =>
    let bare := ["/**", "/*", "///", "//!", "//"].foldl Text.dropStart trimmed
    Text.trim (Text.dropStart (Text.dropEnd bare "*/") "*")
  | .hash => Text.trim (Text.dropStart trimmed "#")

end CommentStyle

/-- A run of comment lines, both ends counted from 1 and included. -/
structure CommentBlock where
  startLine : Nat
  endLine : Nat
  /-- The lines without marks, empty ones left out. -/
  text : String
  deriving DecidableEq, Repr

namespace CommentBlock

/-- The number of lines of a block. -/
def lineCount (b : CommentBlock) : Nat :=
  b.endLine - b.startLine + 1

/-- The block of the given stripped lines from a line on. -/
def ofRun (startLine : Nat) (texts : List String) : CommentBlock :=
  ⟨startLine, startLine + texts.length - 1, Text.join "\n" (texts.filter fun t => !t.isEmpty)⟩

/-- What remains of a line without comment marks; none for a line outside comments. -/
def commentText? (style : CommentStyle) (line : String) : Option String :=
  let trimmed := Text.trim line
  if !trimmed.isEmpty && style.isCommentLine trimmed then some (style.stripMarkers trimmed) else none

/-- The blocks among the lines from number `line` on, where `run` holds the stripped lines directly before it that
belong to a block, the last one first. -/
def scan (style : CommentStyle) : (line : Nat) → (run : List String) → List String → List CommentBlock
  | line, run, [] => if run.isEmpty then [] else [ofRun (line - run.length) run.reverse]
  | line, run, l :: rest =>
    match commentText? style l with
    | some text => scan style (line + 1) (text :: run) rest
    | none =>
      (if run.isEmpty then [] else [ofRun (line - run.length) run.reverse]) ++ scan style (line + 1) [] rest

/-- The comment blocks of a text in order. -/
def all (content : String) (style : CommentStyle) : List CommentBlock :=
  scan style 1 [] (Text.lines content)

end CommentBlock

end CodeAtlas
