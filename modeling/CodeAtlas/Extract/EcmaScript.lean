/-
  Symbols, imports and exports of JavaScript and TypeScript files.

  Functions, classes, methods, interfaces, type aliases and enumerations are symbols wherever they stand; bindings only
  at module level.  Imports are import statements, re-exports, and calls of `require` and `import`.
-/
import CodeAtlas.Symbol.Basic

namespace CodeAtlas.EcmaScript

open Syntax (Tree Site Visit)

/-- Enclosing nodes that make an import conditional. -/
def branches : List String :=
  ["if_statement", "try_statement", "catch_clause", "ternary_expression", "switch_case", "conditional_expression"]

/-- Nodes that open a scope under their name. -/
def scopes : List String :=
  ["class_declaration", "class", "abstract_class_declaration", "interface_declaration"]

/-- The classes and interfaces around a node. -/
def scopeOf (source : String) (site : Site) : Scope :=
  Scope.around site .dot fun a =>
    if scopes.contains a.kind then (a.child? "name").map (·.text source) else none

/-- Whether a declaration is the subject of an export statement. -/
def isExportedDeclaration (site : Site) : Bool :=
  site.parentIs "export_statement"

/-- Whether a declaration stands at the top of the module, by itself or in an export statement. -/
def isModuleLevel (site : Site) : Bool :=
  match site.ancestors with
  | p :: rest =>
    p.kind == "program" || (p.kind == "export_statement" && rest.head?.any fun g => g.kind == "program")
  | [] => false

/-- A function or class under its name. -/
def named? (source : String) (site : Site) (kind : SymbolKind) : Option Symbol := do
  let nameNode ← site.tree.child? "name"
  let symbol ← Symbol.at? source site.tree nameNode kind
  some { symbol.within (scopeOf source site) with
    isAsync := site.tree.hasChildOfKind "async"
    isExported := isExportedDeclaration site
    isPublic := true }

/-- A method; it is public unless its name or a modifier says otherwise. -/
def method? (source : String) (site : Site) : Option Symbol := do
  let nameNode ← site.tree.child? "name"
  let symbol ← Symbol.at? source site.tree nameNode .method
  let restricted := (site.tree.childOfKind? "accessibility_modifier").any fun m => m.text source != "public"
  some { symbol.within (scopeOf source site) with
    isAsync := site.tree.hasChildOfKind "async"
    isPublic := nameNode.kind != "private_property_identifier" && !restricted }

/-- An interface, type alias or enumeration. -/
def typed? (source : String) (site : Site) : Option Symbol := do
  let kind ← match site.tree.kind with
    | "interface_declaration" => some SymbolKind.interfaceDef
    | "type_alias_declaration" => some .typeAlias
    | "enum_declaration" => some .enumDef
    | _ => none
  let nameNode ← site.tree.child? "name"
  let symbol ← Symbol.at? source site.tree nameNode kind
  some { symbol with isPublic := true, isExported := isExportedDeclaration site }

/-- Nodes that make a binding a function. -/
def functionValues : List String :=
  ["arrow_function", "function_expression", "function"]

/-- The binding of one declarator; a pattern binds no single name. -/
def binding? (source : String) (isConst exported : Bool) (declarator : Tree) : Option Symbol := do
  if declarator.kind != "variable_declarator" then none
  let nameNode ← declarator.child? "name"
  if nameNode.kind != "identifier" then none
  let value := declarator.child? "value"
  let kind :=
    if value.any fun v => functionValues.contains v.kind then SymbolKind.function
    else if isConst then .constantDef
    else .variableDef
  let symbol ← Symbol.at? source declarator nameNode kind
  some { symbol with
    isAsync := value.any fun v => v.hasChildOfKind "async"
    isExported := exported
    isPublic := true }

/-- The bindings of a declaration at module level. -/
def bindings (source : String) (site : Site) : List Finding :=
  let isConst := site.tree.children.head?.any fun first => first.text source == "const"
  let exported := isExportedDeclaration site
  site.tree.children.flatMap fun declarator =>
    match binding? source isConst exported declarator with
    | some s => (if exported then [.exported s.name] else []) ++ [.symbol s]
    | none => []

/-- The names that an import clause binds: the default name, the namespace, and the alias or name of each specifier. -/
def clauseNames (source : String) (clause : Site) : List String :=
  clause.gather fun site =>
    match site.tree.kind with
    | "identifier" => (if site.parentIs "import_clause" then [site.tree.text source] else [], .descend)
    | "namespace_import" => (((site.tree.childOfKind? "identifier").map (·.text source)).toList, .skip)
    | "import_specifier" =>
      (((site.tree.child? "alias").or (site.tree.child? "name")).map (·.text source) |>.toList, .skip)
    | _ => ([], .descend)

/-- The import of an import statement. -/
def importStatement (source : String) (site : Site) : List Finding :=
  match site.tree.child? "source" with
  | none => []
  | some module =>
    let kind := if site.tree.hasChildOfKind "type" then ImportKind.typeOnly else .static
    let names := match site.tree.childOfKind? "import_clause" with
      | some clause => clauseNames source (site.below clause)
      | none => []
    [.imported { Import.ofNode source site.tree (Text.unquote (module.text source)) kind with names }]

/-- The names that an export statement exports, and the import that a re-export makes. -/
def exportStatement (source : String) (site : Site) : List Finding :=
  let declared := (site.tree.child? "declaration").bind (·.child? "name")
  let default := (site.tree.child? "value").filter fun v => v.kind == "identifier"
  let listed := match site.tree.childOfKind? "export_clause" with
    | some clause => clause.children.filterMap fun specifier =>
      if specifier.kind == "export_specifier" then (specifier.child? "alias").or (specifier.child? "name") else none
    | none => []
  let reexport := (site.tree.child? "source").map fun module =>
    Finding.imported (Import.ofNode source site.tree (Text.unquote (module.text source)) .static)
  (declared.toList ++ default.toList ++ listed).map (fun n => .exported (n.text source)) ++ reexport.toList

/-- The names that the left side of a `require` binds. -/
def patternNames (source : String) (pattern : Site) : List String :=
  pattern.gather fun site =>
    (if site.tree.kind == "identifier" || site.tree.kind == "shorthand_property_identifier_pattern"
      then [site.tree.text source] else [], .descend)

/-- The import that a call of `require` or `import` with a string makes. -/
def callImport? (source : String) (site : Site) : Option Import := do
  let function ← site.tree.child? "function"
  let kind ← match function.kind with
    | "import" => some ImportKind.dynamic
    | "identifier" => if function.text source == "require" then some .require else none
    | _ => none
  let arguments ← site.tree.child? "arguments"
  let first ← arguments.namedChildren.head?
  if first.kind != "string" && first.kind != "template_string" then none
  let found :=
    { Import.ofNode source site.tree (Text.unquote (first.text source)) kind with
      isConditional := site.inside branches }
  match kind, site.parent? with
  | .require, some declarator =>
    if declarator.tree.kind == "variable_declarator" then
      let found := found.widen source declarator.tree
      match declarator.tree.child? "name" with
      | some name => some { found with names := patternNames source (declarator.below name) }
      | none => some found
    else some found
  | _, _ => some found

/-- The findings at one node. -/
def rule (source : String) (site : Site) : List Finding × Visit :=
  let findings := match site.tree.kind with
    | "function_declaration" | "generator_function_declaration" =>
      ((named? source site .function).map Finding.symbol).toList
    | "class_declaration" | "abstract_class_declaration" => ((named? source site .classDef).map Finding.symbol).toList
    | "method_definition" => ((method? source site).map Finding.symbol).toList
    | "lexical_declaration" | "variable_declaration" => if isModuleLevel site then bindings source site else []
    | "import_statement" => importStatement source site
    | "export_statement" => exportStatement source site
    | "call_expression" => ((callImport? source site).map Finding.imported).toList
    | _ => ((typed? source site).map Finding.symbol).toList
  (findings, .descend)

/-- The name that a call or a construction calls: the callee, or the property of a member access. -/
def callTarget? (node : Tree) : Option Tree := do
  let callee ← match node.kind with
    | "call_expression" => node.child? "function"
    | "new_expression" => node.child? "constructor"
    | _ => none
  match callee.kind with
  | "identifier" => some callee
  | "member_expression" => callee.child? "property"
  | _ => none

/-- Kinds of nodes that use a name. -/
def identifiers : List String :=
  ["identifier", "property_identifier", "shorthand_property_identifier"]

end CodeAtlas.EcmaScript
