/-
  Symbols, imports and exports of Rust files.

  Items are symbols wherever they stand, constants outside functions only.  A use declaration imports the path before
  its first group; `useTree` splits the text of its argument into that path and the names it binds.  A module
  declaration without a body imports the file of that module.
-/
import CodeAtlas.Symbol.Basic

namespace CodeAtlas.Rust

open Syntax (Tree Site Visit)

/-- The last segment of the type that an implementation is for, without its type arguments. -/
def implTarget (source : String) (type : Tree) : String :=
  let base := if type.kind == "generic_type" then (type.child? "type").getD type else type
  Text.afterLast "::" (base.text source)

/-- The modules, traits and implementations around a node. -/
def scopeOf (source : String) (site : Site) : Scope :=
  Scope.around site .doubleColon fun a =>
    match a.kind with
    | "mod_item" | "trait_item" => (a.child? "name").map (·.text source)
    | "impl_item" => (a.child? "type").map (implTarget source)
    | _ => none

/-- Whether a node carries the plain modifier `pub`. -/
def isPub (source : String) (node : Tree) : Bool :=
  (node.childOfKind? "visibility_modifier").any fun v => v.text source == "pub"

/-- An item under its name; what stands in a trait is as visible as the trait. -/
def item? (source : String) (site : Site) (kind : SymbolKind) : Option Symbol := do
  let nameNode ← site.tree.child? "name"
  let symbol ← Symbol.at? source site.tree nameNode kind
  let isPublic := isPub source site.tree || site.tree.kind == "function_signature_item" || site.inside ["trait_item"]
  some { symbol.within (scopeOf source site) with
    isAsync := (site.tree.childOfKind? "function_modifiers").any fun m => (Text.words (m.text source)).contains "async"
    isPublic
    isExported := isPublic && !site.inside ["impl_item", "trait_item", "function_item"] }

/-- The name that one entry of a group binds: its alias, or its last segment; none for a blank entry. -/
def boundName? (entry : String) : Option String :=
  if entry.isEmpty then none
  else match Text.cutFirst? " as " entry with
    | some (_, bound) => some (Text.trim bound)
    | none =>
      if entry == "self" then some "self"
      else
        let leaf := Text.afterLast "::" (Text.dropEnd entry "::*")
        let isBrace := fun c => c == '\x7b' || c == '\x7d'
        some (Text.trim (.ofList (Text.dropEndWhile isBrace (leaf.toList.dropWhile isBrace))))

/-- The path before the first group of a use declaration and the names that the declaration binds. -/
def useTree (argument : String) : String × List String :=
  let path := Text.collapse argument
  match Text.cutFirst? "\x7b" path with
  | some (base, rest) =>
    let inner := match Text.cutLast? "\x7d" path with
      | some (before, _) => if base.toList.length < before.toList.length
          then (before.toList.drop (base.toList.length + 1)) else []
      | none => rest.toList
    (Text.dropEnd (Text.trim base) "::",
      (Text.splitChar ',' (.ofList inner)).filterMap fun entry => boundName? (Text.trim entry))
  | none =>
    match Text.stripEnd? path "::*" with
    | some base => (Text.trim base, ["*"])
    | none =>
      match Text.cutFirst? " as " path with
      | some (module, bound) => (Text.trim module, [Text.trim bound])
      | none => (Text.trim path, [Text.afterLast "::" (Text.trim path)])

/-- The import of a use declaration, and the names that a public one exports. -/
def useDeclaration (source : String) (site : Site) : List Finding :=
  match site.tree.child? "argument" with
  | none => []
  | some argument =>
    let (specifier, names) := useTree (argument.text source)
    if specifier.isEmpty then []
    else
      let exports := if isPub source site.tree then (names.filter (· != "*")).map Finding.exported else []
      exports ++ [.imported { Import.ofNode source site.tree specifier .static with names }]

/-- The import of the file of a module that is declared without a body. -/
def moduleDeclaration (source : String) (site : Site) : List Finding :=
  match site.tree.child? "body", site.tree.child? "name" with
  | none, some nameNode =>
    let name := nameNode.text source
    [.imported { Import.ofNode source site.tree ("self::" ++ name) .static with names := [name] }]
  | _, _ => []

/-- The kind of symbol that an item declares. -/
def symbolKind? (site : Site) : Option SymbolKind :=
  match site.tree.kind with
  | "function_item" | "function_signature_item" =>
    some (if site.inside ["impl_item", "trait_item"] then .method else .function)
  | "struct_item" | "union_item" => some .classDef
  | "enum_item" => some .enumDef
  | "trait_item" => some .interfaceDef
  | "type_item" => some .typeAlias
  | "const_item" | "static_item" => if site.inside ["function_item"] then none else some .constantDef
  | _ => none

/-- The findings at one node. -/
def rule (source : String) (site : Site) : List Finding × Visit :=
  match site.tree.kind with
  | "use_declaration" => (useDeclaration source site, .skip)
  | "mod_item" => (moduleDeclaration source site, .descend)
  | _ =>
    match (symbolKind? site).bind (item? source site) with
    | some s => ((if s.isExported then [.exported s.name] else []) ++ [.symbol s], .descend)
    | none => ([], .descend)

mutual

/-- The last name of a callee, through member accesses, paths and type arguments. -/
def calleeName? : Tree → Option Tree
  | .node tag children =>
    match tag.kind with
    | "identifier" => some (.node tag children)
    | "field_expression" => children.find? fun c => c.tag.field == "field"
    | "scoped_identifier" => children.find? fun c => c.tag.field == "name"
    | "generic_function" => calleeNameIn? children
    | _ => none

/-- The last name inside the first tree of the field that holds the function. -/
def calleeNameIn? : List Tree → Option Tree
  | [] => none
  | t :: rest => if t.tag.field == "function" then calleeName? t else calleeNameIn? rest

end

/-- The name that a call calls. -/
def callTarget? (node : Tree) : Option Tree :=
  if node.kind == "call_expression" then (node.child? "function").bind calleeName? else none

/-- Kinds of nodes that use a name. -/
def identifiers : List String :=
  ["identifier", "field_identifier", "type_identifier"]

end CodeAtlas.Rust
