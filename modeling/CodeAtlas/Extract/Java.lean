/-
  Symbols, imports and exports of Java files.  Qualified names begin with the package of the file.
-/
import CodeAtlas.Symbol.Basic

namespace CodeAtlas.Java

open Syntax (Tree Site Visit)

/-- The first child that is a simple or a dotted name. -/
def nameChild? (node : Tree) : Option Tree :=
  node.namedChildren.find? fun c => c.kind == "scoped_identifier" || c.kind == "identifier"

/-- The package that a file declares. -/
def packageName? (source : String) (root : Tree) : Option String := do
  let package ← root.childOfKind? "package_declaration"
  (nameChild? package).map (·.text source)

/-- The types around a node. -/
def scopeOf (source : String) (site : Site) : Scope :=
  Scope.around site .dot fun a =>
    if ["class_declaration", "interface_declaration", "enum_declaration", "record_declaration"].contains a.kind then
      (a.child? "name").map (·.text source)
    else none

/-- The modifier words of a declaration, without its annotations. -/
def modifiers (source : String) (node : Tree) : List String :=
  match node.childOfKind? "modifiers" with
  | some m => (m.children.filter fun c => !Text.contains c.kind "annotation").map (·.text source)
  | none => []

/-- The symbol with the package in front of its qualified name. -/
def inPackage (package : Option String) (s : Symbol) : Symbol :=
  match package with
  | some p => { s with fqn := p ++ "." ++ s.fqn }
  | none => s

/-- A type or method; members of an interface are public. -/
def declaration? (source : String) (package : Option String) (site : Site) (kind : SymbolKind) : Option Symbol := do
  let nameNode ← site.tree.child? "name"
  let symbol ← Symbol.at? source site.tree nameNode kind
  let symbol := symbol.within (scopeOf source site)
  let inInterface := site.ancestors[1]?.any fun owner => owner.kind == "interface_declaration"
  let isPublic := (modifiers source site.tree).contains "public" || inInterface
  some (inPackage package { symbol with isPublic, isExported := isPublic && symbol.parent.isNone })

/-- The fields of a declaration, one symbol each; static final ones are constants. -/
def fields (source : String) (package : Option String) (site : Site) : List Symbol :=
  let words := modifiers source site.tree
  let kind := if words.contains "static" && words.contains "final" then SymbolKind.constantDef else .variableDef
  (site.tree.childrenIn "declarator").filterMap fun declarator => do
    let nameNode ← declarator.child? "name"
    let symbol ← Symbol.at? source site.tree nameNode kind
    some (inPackage package { symbol.within (scopeOf source site) with isPublic := words.contains "public" })

/-- The import of a class, of all classes of a package, or of a static member. -/
def import? (source : String) (site : Site) : Option Import := do
  let path ← (nameChild? site.tree).map (·.text source)
  let name := if site.tree.hasChildOfKind "asterisk" then "*" else Text.afterLast "." path
  some { Import.ofNode source site.tree path .static with names := [name] }

/-- The kind of symbol that a node declares. -/
def symbolKind? : String → Option SymbolKind
  | "class_declaration" | "record_declaration" => some .classDef
  | "interface_declaration" | "annotation_type_declaration" => some .interfaceDef
  | "enum_declaration" => some .enumDef
  | "method_declaration" | "constructor_declaration" => some .method
  | _ => none

/-- The findings at one node. -/
def rule (source : String) (package : Option String) (site : Site) : List Finding × Visit :=
  match site.tree.kind with
  | "field_declaration" => ((fields source package site).map Finding.symbol, .descend)
  | "import_declaration" => (((import? source site).map Finding.imported).toList, .skip)
  | kind =>
    match (symbolKind? kind).bind (declaration? source package site) with
    | some s => (.symbol s :: (if s.isExported then [.exported s.name] else []), .descend)
    | none => ([], .descend)

/-- The name that a method call or a construction calls. -/
def callTarget? (node : Tree) : Option Tree :=
  match node.kind with
  | "method_invocation" => node.child? "name"
  | "object_creation_expression" => (node.child? "type").bind fun t =>
    match t.kind with
    | "type_identifier" => some t
    | "generic_type" => t.childOfKind? "type_identifier"
    | _ => none
  | _ => none

/-- Kinds of nodes that use a name. -/
def identifiers : List String :=
  ["identifier", "type_identifier"]

end CodeAtlas.Java
