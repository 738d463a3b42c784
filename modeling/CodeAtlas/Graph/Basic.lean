/-
  The graph of files and symbols.

  The identifier of a node depends on its name, type and path only, that of an edge on its ends, relationship and line.
  `Graph.dedup` keeps the first of several nodes with one identifier, widened to the last line of all of them, and the
  first of several edges; `Graph.retainConnected` keeps the edges whose two ends are there.
-/
import CodeAtlas.Digest.StableId
import CodeAtlas.Graph.Relationship
import CodeAtlas.Symbol.Basic

namespace CodeAtlas

/-- The category of a node. -/
inductive NodeType where
  | file
  | function
  | classNode
  | variableNode
  | typeNode
  | interfaceNode
  deriving DecidableEq, Repr, Inhabited

namespace NodeType

/-- Every category. -/
def all : List NodeType :=
  [.file, .function, .classNode, .variableNode, .typeNode, .interfaceNode]

/-- The tag of a category. -/
def name : NodeType → String
  | .file => "File"
  | .function => "Function"
  | .classNode => "Class"
  | .variableNode => "Variable"
  | .typeNode => "Type"
  | .interfaceNode => "Interface"

/-- The category with a given tag. -/
def ofName? (s : String) : Option NodeType :=
  all.find? fun t => t.name == s

/-- The category of a kind of symbol. -/
def ofKind : SymbolKind → NodeType
  | .function | .method => .function
  | .classDef => .classNode
  | .interfaceDef => .interfaceNode
  | .enumDef | .typeAlias => .typeNode
  | .variableDef | .constantDef => .variableNode

end NodeType

/-- A file or a symbol. -/
structure Node where
  id : String
  type : NodeType
  name : String
  path : String
  language : Option Language
  signature : Option String
  fqn : Option String
  parent : Option String
  symbolKind : Option SymbolKind
  startLine : Nat
  startCol : Nat
  endLine : Nat
  endCol : Nat
  byteStart : Nat
  byteEnd : Nat
  isAsync : Bool
  isPublic : Bool
  isExported : Bool
  /-- Whether a file was read without a grammar. -/
  degraded : Bool
  projectId : String
  commit : Option String
  deriving DecidableEq, Repr, Inhabited

namespace Node

/-- The identifier of the node with a name, category and path. -/
def idFor (name : String) (type : NodeType) (path : String) : String :=
  stableId [name, type.name, path]

/-- The node of a file with the given content. -/
def ofFile (path : String) (language : Option Language) (content project : String) (commit : Option String) : Node :=
  { id := idFor path .file path, type := .file, name := path, path, language
    signature := none, fqn := none, parent := none, symbolKind := none
    startLine := 1, startCol := 0, endLine := max (Text.lines content).length 1, endCol := 0
    byteStart := 0, byteEnd := content.utf8ByteSize
    isAsync := false, isPublic := true, isExported := false, degraded := false
    projectId := project, commit }

/-- The node of a symbol in a file. -/
def ofSymbol (s : Symbol) (path : String) (language : Language) (project : String) (commit : Option String) : Node :=
  { id := idFor s.name (.ofKind s.kind) path, type := .ofKind s.kind, name := s.name, path, language := some language
    signature := if s.signature.isEmpty then none else some s.signature
    fqn := some s.fqn, parent := s.parent, symbolKind := some s.kind
    startLine := s.startLine, startCol := s.startCol, endLine := s.endLine, endCol := s.endCol
    byteStart := s.byteStart, byteEnd := s.byteEnd
    isAsync := s.isAsync, isPublic := s.isPublic, isExported := s.isExported, degraded := false
    projectId := project, commit }

/-- Whether the node is a file. -/
def isFile (n : Node) : Bool :=
  n.type == .file

/-- The number of lines from the first to the last line of the node. -/
def lineCount (n : Node) : Nat :=
  n.endLine - n.startLine + 1

/-- Whether the node can be seen from outside. -/
def isVisible (n : Node) : Bool :=
  n.isPublic || n.isExported

end Node

/-- A directed relationship between two nodes. -/
structure Edge where
  id : String
  source : String
  target : String
  relationship : Relationship
  weight : Double
  confidence : Double
  line : Option Nat
  column : Option Nat
  context : Option String
  isCircular : Bool
  /-- The number of imports on the way, for indirect dependencies. -/
  hops : Option Nat
  strength : Option Strength
  deriving DecidableEq, Inhabited

namespace Edge

/-- An edge of full weight and confidence. -/
def new (source target : String) (relationship : Relationship) (line : Option Nat) : Edge :=
  { id := stableId [source, target, relationship.name, (line.map toString).getD ""]
    source, target, relationship
    weight := .ofRat 1, confidence := .ofRat 1
    line, column := none, context := none, isCircular := false, hops := none, strength := none }

end Edge

/-- `r * base ^ b` by repeated squaring in double precision, for at most `fuel` binary digits of `b`. -/
def powerLoop : (fuel : Nat) → (r base : Rat) → (b : Nat) → Rat
  | 0, r, _, _ => r
  | fuel + 1, r, base, b =>
    let r := if b % 2 = 1 then nearest (r * base) else r
    if b / 2 = 0 then r else powerLoop fuel r (nearest (base * base)) (b / 2)

/-- The power of a number in double precision; the exponent is a whole number of 32 bits with sign. -/
def power (base : Rat) (exponent : Int) : Double :=
  let r := powerLoop 32 1 base exponent.natAbs
  if 0 ≤ exponent then .ofRat r
  else if r = 0 then .infinite false
  else .ofRat (1 / r)

/-- The weight of a dependency over a number of imports: 0.8 for each import after the first. -/
def hopWeight (hops : Nat) : Double :=
  power (nearest (mkRat 4 5)) (Int.bmod (hops - 1 : Nat) 0x100000000)

/-- Nodes and edges. -/
structure Graph where
  nodes : List Node
  edges : List Edge
  deriving Inhabited

namespace Graph

/-- A node with a later one of the same identifier merged into it. -/
def absorb (kept later : Node) : Node :=
  { kept with endLine := max kept.endLine later.endLine, isExported := kept.isExported || later.isExported }

/-- The list of merged nodes after one more node. -/
def mergeNode (merged : List Node) (n : Node) : List Node :=
  if merged.any fun m => m.id == n.id then merged.map fun m => if m.id == n.id then absorb m n else m
  else merged ++ [n]

/-- One node for each identifier, in the order of first occurrence. -/
def mergeNodes (nodes : List Node) : List Node :=
  nodes.foldl mergeNode []

/-- The first edge of each identifier, in order. -/
def firstEdges (edges : List Edge) : List Edge :=
  edges.foldl (fun kept e => if kept.any fun k => k.id == e.id then kept else kept ++ [e]) []

/-- The graph without repeated identifiers, and how many nodes and edges that removed. -/
def dedup (g : Graph) : Graph × Nat × Nat :=
  let nodes := mergeNodes g.nodes
  let edges := firstEdges g.edges
  (⟨nodes, edges⟩, g.nodes.length - nodes.length, g.edges.length - edges.length)

/-- Whether a node with the identifier is there. -/
def hasNode (g : Graph) (id : String) : Bool :=
  g.nodes.any fun n => n.id == id

/-- The graph without the edges of which an end is missing, and how many they were. -/
def retainConnected (g : Graph) : Graph × Nat :=
  let edges := g.edges.filter fun e => g.hasNode e.source && g.hasNode e.target
  ({ g with edges }, g.edges.length - edges.length)

end Graph

end CodeAtlas
