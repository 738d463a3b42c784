/-
  The ways of cutting a file into chunks: by symbol, by function, by groups of related symbols, and by comment blocks.
-/
import CodeAtlas.Chunk.Basic
import CodeAtlas.Chunk.Forest
import CodeAtlas.Chunk.Similarity

namespace CodeAtlas

namespace Chunk

/-- Whether two symbols belong together: they have the same parent, start close to each other, or have similar names. -/
def related (config : ChunkingConfig) (a b : Node) : Bool :=
  (a.parent.isSome && a.parent == b.parent)
    || (a.startLine - b.startLine) + (b.startLine - a.startLine) ≤ config.contextualLineDistance
    || config.nameSimilarityThreshold.atMost (nameSimilarity a.name b.name)

/-- The pairs of positions in a list, the first before the second, in order. -/
def positionPairs (size : Nat) : List (Nat × Nat) :=
  (List.range size).flatMap fun i => (List.range (size - (i + 1))).map fun k => (i, i + 1 + k)

/-- Whether the nodes at two positions belong together. -/
def relatedAt (config : ChunkingConfig) (nodes : Array Node) (pair : Nat × Nat) : Bool :=
  match nodes[pair.1]?, nodes[pair.2]? with
  | some a, some b => related config a b
  | _, _ => false

/-- The positions of nodes in groups of those that are related directly or through others. -/
def group (config : ChunkingConfig) (nodes : List Node) : List (List Nat) :=
  let size := nodes.length
  let links := (positionPairs size).filter (relatedAt config nodes.toArray)
  (links.foldl (fun f pair => f.union pair.1 pair.2) (Forest.discrete size)).groups size

/-- One chunk of several, which are in the order of the file. -/
def merge (first : Chunk) (rest : List Chunk) : Chunk :=
  let all := first :: rest
  let members := all.map (·.symbolName)
  { id := stableId ("contextual" :: all.map (·.id))
    nodeId := first.nodeId
    content := Text.join "\n\n" (all.map (·.content))
    type := .context
    language := first.language
    symbolName := Text.join ", " members
    filePath := first.filePath
    startLine := rest.foldl (fun n c => min n c.startLine) first.startLine
    endLine := rest.foldl (fun n c => max n c.endLine) first.endLine
    hasDocumentation := all.any (·.hasDocumentation)
    usageCount := all.foldl (fun n c => n + c.usageCount) 0
    complexity := rest.foldl (fun n c => max n c.complexity) first.complexity
    visibility := first.visibility
    testCoverage := first.testCoverage
    members }

/-- The first node that a chunk can be the chunk of. -/
def nodeOf? (nodes : List Node) (c : Chunk) : Option Node :=
  nodes.find? fun n => n.id == c.nodeId && n.startLine == c.startLine

/-- The chunks of related symbols. -/
def contextual (job : Job) : List Chunk :=
  let nodes := job.extraction.symbolNodes
  let pairs := (ofSymbols job .context fun _ => true).filterMap fun c => (nodeOf? nodes c).map fun n => (n, c)
  let chunks := (pairs.map (·.2)).toArray
  (group job.config (pairs.map (·.1))).filterMap fun positions =>
    match positions.filterMap fun i => chunks[i]? with
    | first :: rest => some (merge first rest)
    | [] => none

/-- The chunk of a comment block; it belongs to a symbol that starts within two lines after it, or else to the file. -/
def ofBlock (job : Job) (fileNode : Node) (b : CommentBlock) : Chunk :=
  let owner := job.extraction.symbolNodes.find? fun n => b.endLine < n.startLine && n.startLine ≤ b.endLine + 2
  { id := stableId ["documentation", fileNode.id, toString b.startLine]
    nodeId := (owner.map (·.id)).getD fileNode.id
    content := b.text
    type := .documentation
    language := job.extraction.language
    symbolName := (owner.map (·.name)).getD ""
    filePath := job.extraction.path
    startLine := b.startLine
    endLine := b.endLine
    hasDocumentation := true
    usageCount := 0
    complexity := 1
    visibility := (owner.map visibilityOf).getD "public"
    testCoverage := job.tested
    members := [] }

/-- The chunks of the comment blocks that are long enough. -/
def documentation (job : Job) : List Chunk :=
  match job.extraction.fileNode? with
  | none => []
  | some fileNode =>
    let blocks := (CommentBlock.all job.extraction.content job.comments).filter fun b =>
      job.config.minDocChars ≤ b.text.toList.length && job.config.minDocLines ≤ b.lineCount
    blocks.map (ofBlock job fileNode)

end Chunk

/-- A way of cutting files into chunks. -/
inductive ChunkStrategy where
  | contextual
  | documentation
  | oneFunction
  | oneSymbol
  deriving DecidableEq, Repr

namespace ChunkStrategy

/-- Every strategy in the order of their names. -/
def all : List ChunkStrategy :=
  [.contextual, .documentation, .oneFunction, .oneSymbol]

/-- The name of a strategy. -/
def name : ChunkStrategy → String
  | .contextual => "contextual-chunks"
  | .documentation => "documentation-chunks"
  | .oneFunction => "one-function-per-chunk"
  | .oneSymbol => "one-symbol-per-chunk"

/-- The strategy with a name. -/
def ofName? (s : String) : Option ChunkStrategy :=
  all.find? fun t => t.name == s

/-- The chunks of a file. -/
def cut (strategy : ChunkStrategy) (job : Chunk.Job) : List Chunk :=
  match strategy with
  | .oneSymbol => Chunk.ofSymbols job .symbol fun _ => true
  | .oneFunction => Chunk.ofSymbols job .function fun n => n.type == .function
  | .contextual => Chunk.contextual job
  | .documentation => Chunk.documentation job

end ChunkStrategy

/-- Cuts files into chunks. -/
structure Chunker where
  config : ChunkingConfig
  /-- The files that some test file is about. -/
  testedFiles : List String

namespace Chunker

/-- A chunker that knows of no tested files. -/
def new (config : ChunkingConfig) : Chunker :=
  ⟨config, []⟩

/-- The chunker with other tested files in place of those it knew. -/
def setTestedFiles (c : Chunker) (files : List String) : Chunker :=
  { c with testedFiles := files }

/-- The comment style of the files of a language. -/
def commentsOf (language : Option Language) : CommentStyle :=
  match language with
  | some l => (Registry.builtin.getD l).comments
  | none => .cFamily

/-- The chunks of a file by the strategy with a name. -/
def cut (c : Chunker) (e : Extraction) (strategy : String) : Except Failure (List Chunk) :=
  match ChunkStrategy.ofName? strategy with
  | none => .error (.unknownStrategy strategy)
  | some s =>
    .ok (s.cut
      { extraction := e, config := c.config, comments := commentsOf e.language
        tested := c.testedFiles.contains e.path })

/-- The chunks of a file by the strategy of the configuration. -/
def cutDefault (c : Chunker) (e : Extraction) : Except Failure (List Chunk) :=
  c.cut e c.config.strategy

end Chunker

end CodeAtlas
