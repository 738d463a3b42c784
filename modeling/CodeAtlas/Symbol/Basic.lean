/-
  What is read off a source file: symbols, imports and exported names.

  A `Symbol` spans a declaration and knows where its name stands; lines count from 1, columns and bytes from 0.  An
  `Import` spans its statement.  `SymbolSet.collect` puts the findings of a walk into a set: symbols in the order of
  their positions, one per name position and kind, each export once.
-/
import CodeAtlas.Language
import CodeAtlas.Symbol.Scope
import CodeAtlas.Text.Blank
import CodeAtlas.Text.Bytes
import CodeAtlas.Text.Lines

namespace CodeAtlas

open Syntax (Tree Site)

/-- The kind of a symbol, the same for all languages. -/
inductive SymbolKind where
  | function
  | method
  | classDef
  | interfaceDef
  | enumDef
  | typeAlias
  | variableDef
  | constantDef
  deriving DecidableEq, Repr, Inhabited

namespace SymbolKind

/-- Every kind. -/
def all : List SymbolKind :=
  [.function, .method, .classDef, .interfaceDef, .enumDef, .typeAlias, .variableDef, .constantDef]

/-- The tag of a kind. -/
def name : SymbolKind → String
  | .function => "function"
  | .method => "method"
  | .classDef => "class"
  | .interfaceDef => "interface"
  | .enumDef => "enum"
  | .typeAlias => "type-alias"
  | .variableDef => "variable"
  | .constantDef => "constant"

/-- The kind with a given tag. -/
def ofName? (s : String) : Option SymbolKind :=
  all.find? fun k => k.name == s

/-- The kinds whose body is code. -/
def isCallable : SymbolKind → Bool
  | .function | .method => true
  | _ => false

end SymbolKind

/-- A declared symbol. -/
structure Symbol where
  name : String
  kind : SymbolKind
  /-- The name with the enclosing scopes in front. -/
  fqn : String
  /-- The innermost enclosing scope. -/
  parent : Option String
  /-- The declaration up to its body, on one line. -/
  signature : String
  byteStart : Nat
  byteEnd : Nat
  nameByteStart : Nat
  startLine : Nat
  startCol : Nat
  endLine : Nat
  endCol : Nat
  isAsync : Bool
  isPublic : Bool
  isExported : Bool
  deriving DecidableEq, Repr, Inhabited

/-- The text of a node. -/
def Syntax.Tree.text (t : Tree) (source : String) : String :=
  Text.slice source t.start t.stop

/-- The line of the first byte of a node, counted from 1. -/
def Syntax.Tree.startLine (t : Tree) (source : String) : Nat :=
  (Text.Position.of (Text.bytes source) t.start).row + 1

/-- The line of the byte after a node, counted from 1. -/
def Syntax.Tree.endLine (t : Tree) (source : String) : Nat :=
  (Text.Position.of (Text.bytes source) t.stop).row + 1

namespace Symbol

/-- The longest signature that is kept whole. -/
def signatureLimit : Nat := 200

/-- The declaration up to its body, or its first line when it has none, on one line and cut to the limit. -/
def signatureOf (node : Tree) (source : String) : String :=
  let head := match node.child? "body" with
    | some body => Text.slice source node.start body.start
    | none => ((Text.lines (node.text source)).head?).getD ""
  let bare := Text.dropEndWhile (fun c => c == '\x7b' || c == ':') (Text.trimEnd head).toList
  Text.truncate (Text.collapse (.ofList bare)) signatureLimit

/-- The symbol that a node declares under the name in another node; none when that name is blank. -/
def at? (source : String) (node nameNode : Tree) (kind : SymbolKind) : Option Symbol :=
  let name := Text.trim (nameNode.text source)
  if name.isEmpty then none
  else
    let bytes := Text.bytes source
    let first := Text.Position.of bytes node.start
    let last := Text.Position.of bytes node.stop
    some
      { name, kind, fqn := name, parent := none, signature := signatureOf node source
        byteStart := node.start, byteEnd := node.stop, nameByteStart := nameNode.start
        startLine := first.row + 1, startCol := first.column, endLine := last.row + 1, endCol := last.column
        isAsync := false, isPublic := false, isExported := false }

/-- The symbol placed in a scope. -/
def within (s : Symbol) (scope : Scope) : Symbol :=
  { s with fqn := scope.qualify s.name, parent := scope.innermost? }

/-- The number of lines from the first to the last line of the declaration. -/
def lineCount (s : Symbol) : Nat :=
  s.endLine - s.startLine + 1

end Symbol

/-- How an import is written. -/
inductive ImportKind where
  | static
  | dynamic
  | typeOnly
  | require
  | inclusion
  deriving DecidableEq, Repr, Inhabited

namespace ImportKind

/-- Every kind of import. -/
def all : List ImportKind :=
  [.static, .dynamic, .typeOnly, .require, .inclusion]

/-- The tag of a kind of import. -/
def name : ImportKind → String
  | .static => "static"
  | .dynamic => "dynamic"
  | .typeOnly => "type-only"
  | .require => "require"
  | .inclusion => "include"

/-- The kind of import with a given tag. -/
def ofName? (s : String) : Option ImportKind :=
  all.find? fun k => k.name == s

end ImportKind

/-- An import statement. -/
structure Import where
  /-- The module as written, without quotes. -/
  specifier : String
  names : List String
  kind : ImportKind
  line : Nat
  endLine : Nat
  /-- Whether the statement stands in a branch. -/
  isConditional : Bool
  deriving DecidableEq, Repr, Inhabited

namespace Import

/-- An import of a module by the statement at a node. -/
def ofNode (source : String) (node : Tree) (specifier : String) (kind : ImportKind) : Import :=
  { specifier, names := [], kind, line := node.startLine source, endLine := node.endLine source
    isConditional := false }

/-- The import with its lines widened to those of another node. -/
def widen (i : Import) (source : String) (node : Tree) : Import :=
  { i with line := min i.line (node.startLine source), endLine := max i.endLine (node.endLine source) }

/-- Whether a line belongs to the statement. -/
def spansLine (i : Import) (line : Nat) : Bool :=
  i.line ≤ line && line ≤ max i.endLine i.line

/-- Whether the module is written as a path relative to the importing file. -/
def isRelative (i : Import) : Bool :=
  Text.startsWith i.specifier "./" || Text.startsWith i.specifier "../" || i.specifier == "."

end Import

/-- Something that a walk finds in a file. -/
inductive Finding where
  | symbol (s : Symbol)
  | imported (i : Import)
  | exported (name : String)
  deriving DecidableEq, Repr

/-- All that is read off one file. -/
structure SymbolSet where
  language : Option Language
  symbols : List Symbol
  imports : List Import
  exports : List String
  nodeCount : Nat
  namedNodeCount : Nat
  /-- Whether only nodes were counted, for want of rules for the language. -/
  generic : Bool
  deriving DecidableEq, Repr, Inhabited

/-- The elements without those that agree with the last one kept before them. -/
def dropRepeats {α : Type} (same : α → α → Bool) : (last : Option α) → List α → List α
  | _, [] => []
  | none, a :: rest => a :: dropRepeats same (some a) rest
  | some last, a :: rest =>
    if same a last then dropRepeats same (some last) rest else a :: dropRepeats same (some a) rest

/-- The elements in order of their first occurrence, each once. -/
def firstOccurrences {α : Type} [BEq α] (l : List α) : List α :=
  l.foldl (fun seen a => if seen.contains a then seen else seen ++ [a]) []

namespace SymbolSet

/-- The set of a file about which nothing is known. -/
def empty : SymbolSet :=
  ⟨none, [], [], [], 0, 0, false⟩

/-- The set that only counts nodes. -/
def counted (language : Language) (root : Tree) : SymbolSet :=
  let counts := (Site.mk root []).countNodes
  ⟨some language, [], [], [], counts.1, counts.2, true⟩

/-- The order of symbols: by the first byte of the declaration, then by that of the name. -/
def before (a b : Symbol) : Bool :=
  a.byteStart < b.byteStart || (a.byteStart == b.byteStart && a.nameByteStart ≤ b.nameByteStart)

/-- The findings of a walk put in order: symbols by position and without repetition, a symbol outside all scopes marked
as exported when its name is, every export once. -/
def collect (language : Language) (root : Tree) (findings : List Finding) : SymbolSet :=
  let exports := firstOccurrences (findings.filterMap fun
    | .exported name => if name.isEmpty then none else some name
    | _ => none)
  let symbols := findings.filterMap fun
    | .symbol s => some s
    | _ => none
  let sorted := symbols.mergeSort before
  let distinct := dropRepeats (fun a b => a.nameByteStart == b.nameByteStart && a.kind == b.kind) none sorted
  let counts := (Site.mk root []).countNodes
  { language := some language
    symbols := distinct.map fun s =>
      if exports.contains s.name && s.parent.isNone then { s with isExported := true } else s
    imports := findings.filterMap fun
      | .imported i => some i
      | _ => none
    exports
    nodeCount := counts.1
    namedNodeCount := counts.2
    generic := false }

end SymbolSet

end CodeAtlas
