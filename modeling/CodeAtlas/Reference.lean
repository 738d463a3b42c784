/-
  The places where known names are used.  A call of a known name is reported once, at the name it calls; any other node
  that uses a known name is reported unless the name was already reported as called there or is being defined there.
-/
import CodeAtlas.Extract.Support

namespace CodeAtlas

open Syntax (Tree Site Visit)

/-- Whether a name is called or merely used. -/
inductive ReferenceKind where
  | call
  | reference
  deriving DecidableEq, Repr, Inhabited

/-- The tag of a kind of reference. -/
def ReferenceKind.name : ReferenceKind → String
  | .call => "call"
  | .reference => "reference"

/-- The kind of reference with a given tag. -/
def ReferenceKind.ofName? : String → Option ReferenceKind
  | "call" => some .call
  | "reference" => some .reference
  | _ => none

/-- A place where a name is used. -/
structure Reference where
  symbolName : String
  filePath : String
  /-- Counted from 1. -/
  line : Nat
  /-- In bytes, counted from 0. -/
  column : Nat
  kind : ReferenceKind
  /-- The lines around the place. -/
  context : String
  byteStart : Nat
  deriving DecidableEq, Repr, Inhabited

namespace Reference

/-- What to look for in a file. -/
structure Request where
  filePath : String
  /-- The names that count. -/
  known : List String
  /-- The first bytes of the names that are being defined. -/
  definitionSites : List Nat
  /-- How many lines of context to keep on each side. -/
  contextLines : Nat

/-- The reference at a node. -/
def ofNode (source : String) (request : Request) (node : Tree) (kind : ReferenceKind) : Reference :=
  let position := Text.Position.of (Text.bytes source) node.start
  { symbolName := node.text source
    filePath := request.filePath
    line := position.row + 1
    column := position.column
    kind
    context := Text.lineWindow (Text.lines source) (position.row + 1) request.contextLines
    byteStart := node.start }

/-- The references found so far and the first bytes of the names already reported as called. -/
structure Scan where
  found : List Reference
  consumed : List Nat

/-- What one node adds. -/
def visit (support : Support) (source : String) (request : Request) (s : Scan) (node : Tree) : Scan :=
  if node.tag.isError then s
  else match support.callTarget node with
    | some target =>
      if request.known.contains (target.text source) && !s.consumed.contains target.start then
        { found := s.found ++ [ofNode source request target .call], consumed := s.consumed ++ [target.start] }
      else s
    | none =>
      if support.identifiers.contains node.kind && !s.consumed.contains node.start
          && !request.definitionSites.contains node.start && request.known.contains (node.text source) then
        { s with found := s.found ++ [ofNode source request node .reference] }
      else s

/-- The references of a file in the order in which a walk in pre-order meets them. -/
def scan (support : Support) (source : String) (root : Tree) (request : Request) : List Reference :=
  ((Site.mk root []).walk (fun s _ site => (visit support source request s site.tree, .descend)) ⟨[], []⟩).found

end Reference

end CodeAtlas
