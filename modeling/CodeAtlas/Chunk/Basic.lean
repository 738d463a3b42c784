/-
  Chunks: excerpts of a file prepared for retrieval.  The chunk of a symbol holds its signature, the documentation above
  it, an excerpt of its body and examples of its use.
-/
import CodeAtlas.Extraction

namespace CodeAtlas

/-- What a chunk is cut from. -/
inductive ChunkType where
  | symbol
  | function
  | context
  | documentation
  deriving DecidableEq, Repr, Inhabited

/-- The tag of a type of chunk. -/
def ChunkType.name : ChunkType → String
  | .symbol => "symbol"
  | .function => "function"
  | .context => "context"
  | .documentation => "documentation"

/-- An excerpt of a file. -/
structure Chunk where
  id : String
  nodeId : String
  content : String
  type : ChunkType
  language : Option Language
  symbolName : String
  filePath : String
  startLine : Nat
  endLine : Nat
  hasDocumentation : Bool
  usageCount : Nat
  /-- From 1 to 10. -/
  complexity : Nat
  visibility : String
  /-- Whether a test file is about the file. -/
  testCoverage : Bool
  /-- The names of the symbols of a chunk of several symbols. -/
  members : List String
  deriving DecidableEq, Repr, Inhabited

namespace Chunk

/-- A file to be cut, and how. -/
structure Job where
  extraction : Extraction
  config : ChunkingConfig
  comments : CommentStyle
  /-- Whether a test file is about the file. -/
  tested : Bool

/-- The word for a node that can be seen from outside, and for one that cannot. -/
def visibilityOf (n : Node) : String :=
  if n.isVisible then "public" else "private"

/-- The documentation in the lines above a declaration, given from the nearest one upward, in that order. Attributes and
decorators are passed over; the first other line that is no comment ends it. -/
def docsUpward (style : CommentStyle) : List String → List String
  | [] => []
  | line :: rest =>
    let trimmed := Text.trim line
    if Text.startsWith trimmed "#[" || Text.startsWith trimmed "@" then docsUpward style rest
    else match CommentBlock.commentText? style line with
      | none => []
      | some text => if text.isEmpty then docsUpward style rest else text :: docsUpward style rest

/-- The parts of a docstring in the lines after its first one, up to the closing quotes. -/
def docstringRest (quote : String) : List String → List String
  | [] => []
  | line :: rest =>
    let trimmed := Text.trim line
    match Text.cutFirst? quote trimmed with
    | some (before, _) => [Text.trim before]
    | none => trimmed :: docstringRest quote rest

/-- A text, unless it is empty. -/
def nonEmpty? (s : String) : Option String :=
  if s.isEmpty then none else some s

/-- The docstring that begins the given lines, if one does. -/
def docstring? : List String → Option String
  | [] => none
  | line :: rest =>
    let first := Text.trim line
    match ["\"\"\"", "'''"].find? (Text.startsWith first) with
    | none => none
    | some quote =>
      let opening := Text.dropStart first quote
      match Text.cutFirst? quote opening with
      | some (before, _) => nonEmpty? (Text.trim before)
      | none =>
        let parts := Text.trim opening :: docstringRest quote rest
        nonEmpty? (Text.join "\n" (parts.filter fun p => !p.isEmpty))

/-- The documentation of the declaration that starts at a line: the comment above it, or in Python else the docstring
below that line. -/
def leadingDocs? (job : Job) (lines : List String) (startLine : Nat) : Option String :=
  let above := (docsUpward job.comments (lines.take (startLine - 1)).reverse).reverse
  if !above.isEmpty then some (Text.join "\n" above)
  else if job.extraction.language == some .python then docstring? (lines.drop startLine)
  else none

/-- The lines of a symbol that are shown: the whole declaration when it has one line, and else the lines after the first
up to a limit. -/
def excerpt (job : Job) (lines : List String) (n : Node) : List String :=
  if n.startLine == n.endLine then (Text.lineRange lines n.startLine n.endLine).map Text.trim
  else
    let limit := match n.type with
      | .classNode | .interfaceNode => job.config.maxClassLines
      | _ => job.config.maxImplementationLines
    (Text.lineRange lines (n.startLine + 1) (min n.endLine lines.length)).take limit

/-- A figure from 1 to 10 for the length of a symbol, the blocks it opens and its documentation. -/
def complexityScore (lineCount : Nat) (excerpt : List String) (docs : Option String) : Nat :=
  let opens := excerpt.filter fun line =>
    let bare := Text.trimEnd line
    Text.endsWith bare "\x7b" || Text.endsWith bare ":"
  let bonus := match docs with
    | some d => if 100 < d.utf8ByteSize then 2 else 1
    | none => 0
  min (1 + min (lineCount / 10) 4 + min opens.length 4 + bonus) 10

/-- The chunk of a symbol; none when its lines are not in the file. -/
def ofNode? (job : Job) (lines : List String) (type : ChunkType) (n : Node) : Option Chunk :=
  if n.startLine = 0 ∨ lines.length < n.startLine ∨ n.endLine < n.startLine then none
  else
    let docs := leadingDocs? job lines n.startLine
    let body := excerpt job lines n
    let uses := job.extraction.references.filter fun r => r.symbolName == n.name
    let examples := (uses.take job.config.maxUsageExamples).map (·.context)
    let signature := n.signature.getD (Text.trim ((lines[n.startLine - 1]?).getD ""))
    let content := signature
      ++ (match docs with
        | some d => "\n\n" ++ d
        | none => "")
      ++ (if body.isEmpty then "" else "\n\n" ++ Text.join "\n" body)
      ++ (if examples.isEmpty then "" else "\n\nUsage:\n" ++ Text.join "\n---\n" examples)
    some
      { id := stableId ["chunk", n.id, type.name, toString n.startLine]
        nodeId := n.id, content, type, language := n.language
        symbolName := n.name, filePath := n.path, startLine := n.startLine, endLine := n.endLine
        hasDocumentation := docs.isSome, usageCount := uses.length
        complexity := complexityScore n.lineCount body docs
        visibility := visibilityOf n, testCoverage := job.tested, members := [] }

/-- The chunks of the symbols that satisfy a condition. -/
def ofSymbols (job : Job) (type : ChunkType) (keep : Node → Bool) : List Chunk :=
  let lines := Text.lines job.extraction.content
  (job.extraction.symbolNodes.filter keep).filterMap (ofNode? job lines type)

end Chunk

end CodeAtlas
