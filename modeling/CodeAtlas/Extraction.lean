/-
  What is extracted from one file: its node, the nodes of its symbols, and the edges to them.

  A symbol is joined to its file by a `contains` edge; a reference to a function of the file by a `call` or `reference`
  edge.  A file without a known language gives its node only.  Symbols are cached under the path and the digest of the
  content.
-/
import CodeAtlas.Cache
import CodeAtlas.Graph.Basic
import CodeAtlas.Reference
import CodeAtlas.SourceFile

namespace CodeAtlas

/-- All that is extracted from a file. -/
structure Extraction where
  path : String
  language : Option Language
  /-- The node of the file, then those of its symbols in order. -/
  nodes : List Node
  edges : List Edge
  references : List Reference
  symbols : SymbolSet
  content : String
  entryPoint : Bool
  /-- Whether the language is unknown. -/
  degraded : Bool
  deriving Inhabited

namespace Extraction

/-- The node of the file. -/
def fileNode? (e : Extraction) : Option Node :=
  e.nodes.head?.filter Node.isFile

/-- The nodes of the symbols. -/
def symbolNodes (e : Extraction) : List Node :=
  e.nodes.filter fun n => !n.isFile

/-- The number of lines of the file. -/
def lineCount (e : Extraction) : Nat :=
  (Text.lines e.content).length

/-- The first node of a file for a path. -/
def fileIdOf? (nodes : List Node) (path : String) : Option String :=
  (nodes.find? fun n => n.isFile && n.path == path).map (·.id)

/-- The first node of a function for a name. -/
def functionIdOf? (nodes : List Node) (name : String) : Option String :=
  (nodes.find? fun n => n.type == .function && n.name == name).map (·.id)

/-- The edge of a reference; none when the file or the function has no node. -/
def referenceEdge? (nodes : List Node) (r : Reference) : Option Edge := do
  let source ← fileIdOf? nodes r.filePath
  let target ← functionIdOf? nodes r.symbolName
  let (relationship, confidence) := match r.kind with
    | .call => (Relationship.call, Double.ofRat (mkRat 9 10))
    | .reference => (Relationship.reference, Double.ofRat (mkRat 6 10))
  let edge := Edge.new source target relationship (some r.line)
  some { edge with
    id := stableId [edge.id, toString r.column]
    confidence
    column := some r.column
    context := some r.context }

/-- The extraction of a file whose language is unknown. -/
def ofUnknown (file : SourceFile) (content project : String) (commit : Option String) : Extraction :=
  { path := file.path, language := none
    nodes := [{ Node.ofFile file.path none content project commit with degraded := true }]
    edges := [], references := [], symbols := .empty, content, entryPoint := file.entryPoint, degraded := true }

/-- The extraction of a file with the given symbols. -/
def ofSymbols (engine : Engine) (contextLines : Nat) (file : SourceFile) (parsed : Parsed) (symbols : SymbolSet)
    (project : String) (commit : Option String) : Extraction :=
  let fileNode := Node.ofFile file.path (some parsed.language) parsed.content project commit
  let symbolNodes := symbols.symbols.map fun s => Node.ofSymbol s file.path parsed.language project commit
  let contained := symbols.symbols.zipWith
    (fun s n => Edge.new fileNode.id n.id .contains (some s.startLine)) symbolNodes
  let nodes := fileNode :: symbolNodes
  let references := Reference.scan (engine.registry.getD parsed.language) parsed.content parsed.tree
    { filePath := file.path
      known := symbols.symbols.map (·.name)
      definitionSites := symbols.symbols.map (·.nameByteStart)
      contextLines }
  { path := file.path, language := some parsed.language, nodes
    edges := contained ++ references.filterMap (referenceEdge? nodes)
    references, symbols, content := parsed.content, entryPoint := file.entryPoint, degraded := false }

end Extraction

/-- The cached symbols by path and digest. -/
abbrev SymbolCache : Type := Cache String SymbolSet

/-- Extracts files, keeping the symbols of those it has seen. -/
structure Extractor where
  engine : Engine
  cache : SymbolCache
  contextLines : Nat

namespace Extractor

/-- A fresh extractor for a configuration. -/
def ofConfig (config : Config) : Extractor :=
  { engine := ⟨.builtin, config.parse.tolerateSyntaxErrors⟩
    cache := .new config.cache.symbolCapacity
      (if config.cache.symbolTtlSecs = 0 then none else some (config.cache.symbolTtlSecs * 1000))
    contextLines := config.chunking.referenceContextLines }

/-- The key of a file in the cache of symbols. -/
def cacheKey (path content : String) : String :=
  path ++ "\x00" ++ contentHash content

/-- The cached symbols of a file, or those of its tree, which are then cached.  The cache is locked once for the lookup and
once more for the insertion after a miss; both are taken as one step at one time here, in which no other worker uses the
cache. -/
def cachedSymbols (x : Extractor) (path : String) (parsed : Parsed) (now : Nat) : SymbolSet × Extractor :=
  let key := cacheKey path parsed.content
  match x.cache.get key now with
  | (some symbols, cache) => (symbols, { x with cache })
  | (none, cache) =>
    let symbols := x.engine.symbols parsed
    (symbols, { x with cache := cache.put key symbols now })

/-- The extraction of a file at a time. -/
def extract (x : Extractor) (disk : Disk) (now : Nat) (file : SourceFile) (project : String)
    (commit : Option String) : Except Failure Extraction × Extractor :=
  match file.load disk with
  | .error e => (.error e, x)
  | .ok loaded =>
    match Engine.language file.path file.hint with
    | .error _ => (.ok (.ofUnknown file loaded.content project commit), x)
    | .ok language =>
      match x.engine.parse file.path loaded.content (some language) file.tree with
      | .error e => (.error e, x)
      | .ok parsed =>
        let (symbols, x) := x.cachedSymbols file.path parsed now
        (.ok (.ofSymbols x.engine x.contextLines file parsed symbols project commit), x)

end Extractor

end CodeAtlas
