/-
  Symbols and inclusions of C and C++ files.

  Functions are found through their declarators; a qualified name defines a member outside its class.  Records count
  when they have a body.  What is exported is what is visible outside the file and outside all scopes.
-/
import CodeAtlas.Symbol.Basic

namespace CodeAtlas.CFamily

open Syntax (Tree Site Visit)

/-- Enclosing nodes that make an inclusion conditional. -/
def conditionals : List String :=
  ["preproc_if", "preproc_ifdef", "preproc_else", "preproc_elif"]

/-- The namespaces and records around a node. -/
def scopeOf (source : String) (site : Site) : Scope :=
  Scope.around site .doubleColon fun a =>
    if ["namespace_definition", "class_specifier", "struct_specifier", "union_specifier"].contains a.kind then
      (a.child? "name").map (·.text source)
    else none

/-- Whether a declaration stands outside functions, blocks and records. -/
def isFileScope (site : Site) : Bool :=
  !site.inside ["function_definition", "field_declaration_list", "compound_statement"]

mutual

/-- The name inside a declarator, going through pointers, references and parentheses to the function declarator. -/
def declaratorName? : Tree → Option Tree
  | .node tag children =>
    if tag.kind == "function_declarator" then children.find? fun c => c.tag.field == "declarator"
    else if ["pointer_declarator", "reference_declarator", "parenthesized_declarator"].contains tag.kind then
      match declaratorNameIn? (fun t => t.field == "declarator") children with
      | some found => found
      | none => (declaratorNameIn? (fun t => t.isNamed) children).join
    else none

/-- The name inside the first tree whose mark is chosen; none at all when no tree is chosen. -/
def declaratorNameIn? (chosen : Syntax.Tag → Bool) : List Tree → Option (Option Tree)
  | [] => none
  | t :: rest => if chosen t.tag then some (declaratorName? t) else declaratorNameIn? chosen rest

end

/-- The name that a function definition declares. -/
def functionName? (node : Tree) : Option Tree :=
  (node.child? "declarator").bind declaratorName?

/-- Whether a declaration is `static`. -/
def isStatic (source : String) (node : Tree) : Bool :=
  node.children.any fun c => c.kind == "storage_class_specifier" && c.text source == "static"

/-- Whether a member of a record is public: the nearest access label before it decides, and without one the kind of the
record. None for a node that is no member. -/
def memberAccess? (source : String) (site : Site) : Option Bool := do
  let body ← site.ancestors.head?
  if body.kind != "field_declaration_list" then none
  let owner ← site.ancestors[1]?
  let earlier := body.children.takeWhile fun c => c.start < site.tree.start
  let label := (earlier.filter fun c => c.kind == "access_specifier").getLast?
  match label with
  | some l =>
    let word := String.ofList (Text.dropEndWhile (· == ':') (l.text source).toList)
    some (Text.trim word == "public")
  | none => some (owner.kind != "class_specifier")

mutual

/-- The owners that a qualified name spells, outermost first, and its last name. -/
def unqualify? (source : String) : Tree → Option (List String × Tree)
  | .node tag children =>
    if tag.kind == "qualified_identifier" then
      let owner := (children.find? fun c => c.tag.field == "scope").map (·.text source)
      (unqualifyIn? source children).map fun (owners, leaf) => (owner.toList ++ owners, leaf)
    else some ([], .node tag children)

/-- The owners and the last name inside the first tree of the field that holds the name. -/
def unqualifyIn? (source : String) : List Tree → Option (List String × Tree)
  | [] => none
  | t :: rest => if t.tag.field == "name" then unqualify? source t else unqualifyIn? source rest

end

/-- A function, or a method when it is defined in a record or under a qualified name. -/
def function? (source : String) (site : Site) : Option Symbol := do
  let nameNode ← functionName? site.tree
  let (owners, leaf) ← unqualify? source nameNode
  let scope := owners.foldl Scope.push (scopeOf source site)
  let isMember := nameNode.kind == "qualified_identifier" || site.inside ["field_declaration_list"]
  let kind := if isMember then SymbolKind.method else .function
  let symbol ← Symbol.at? source site.tree leaf kind
  let isPublic := (memberAccess? source site).getD (!isStatic source site.tree)
  some { symbol.within scope with isPublic, isExported := isPublic && kind == .function }

/-- A record or enumeration with a body. -/
def record? (source : String) (site : Site) : Option Symbol := do
  let _ ← site.tree.child? "body"
  let nameNode ← site.tree.child? "name"
  let kind := if site.tree.kind == "enum_specifier" then SymbolKind.enumDef else .classDef
  let symbol ← Symbol.at? source site.tree nameNode kind
  let symbol := symbol.within (scopeOf source site)
  let isPublic := (memberAccess? source site).getD true
  some { symbol with isPublic, isExported := isPublic && symbol.parent.isNone }

/-- The type names that a type definition introduces. -/
def typeNames (source : String) (site : Site) : List Symbol :=
  (site.tree.childrenIn "declarator").filterMap fun declarator => do
    if declarator.kind != "type_identifier" then none
    let symbol ← Symbol.at? source site.tree declarator .typeAlias
    let symbol := symbol.within (scopeOf source site)
    some { symbol with isPublic := true, isExported := symbol.parent.isNone }

/-- The variables that a declaration outside functions and records introduces; prototypes are none. -/
def fileVariables (source : String) (site : Site) : List Symbol :=
  let isConst := site.tree.children.any fun c => c.kind == "type_qualifier" && c.text source == "const"
  let isPublic := !isStatic source site.tree
  (site.tree.childrenIn "declarator").filterMap fun declarator => do
    let nameNode ← match declarator.kind with
      | "identifier" => some declarator
      | "init_declarator" => (declarator.child? "declarator").filter fun d => d.kind == "identifier"
      | _ => none
    let symbol ← Symbol.at? source site.tree nameNode (if isConst then .constantDef else .variableDef)
    some { symbol.within (scopeOf source site) with isPublic }

/-- The file that an inclusion names: as written between angle brackets, and as a relative path between quotes. -/
def includedPath (source : String) (path : Tree) : String :=
  let raw := path.text source
  if path.kind == "system_lib_string" then Text.dropEnd (Text.dropStart raw "<") ">"
  else
    let written := Text.unquote raw
    if Text.startsWith written "./" || Text.startsWith written "../" then written else "./" ++ written

/-- The import that an inclusion makes. -/
def inclusion? (source : String) (site : Site) : Option Import := do
  let path ← site.tree.child? "path"
  some { Import.ofNode source site.tree (includedPath source path) .inclusion with
    isConditional := site.inside conditionals }

/-- The finding of a symbol, and of its export when it is exported. -/
def declared (s : Symbol) : List Finding :=
  .symbol s :: if s.isExported then [.exported s.name] else []

/-- The findings at one node. -/
def rule (source : String) (site : Site) : List Finding × Visit :=
  match site.tree.kind with
  | "function_definition" => ((function? source site).toList.flatMap declared, .descend)
  | "struct_specifier" | "union_specifier" | "class_specifier" | "enum_specifier" =>
    ((record? source site).toList.flatMap declared, .descend)
  | "type_definition" => ((typeNames source site).flatMap declared, .descend)
  | "declaration" => (if isFileScope site then (fileVariables source site).flatMap declared else [], .descend)
  | "preproc_include" => (((inclusion? source site).map Finding.imported).toList, .skip)
  | _ => ([], .descend)

mutual

/-- The last name of a callee, through member accesses, qualified names and template arguments. -/
def calleeName? : Tree → Option Tree
  | .node tag children =>
    match tag.kind with
    | "identifier" | "field_identifier" => some (.node tag children)
    | "field_expression" => children.find? fun c => c.tag.field == "field"
    | "qualified_identifier" | "template_function" => calleeNameIn? children
    | _ => none

/-- The last name inside the first tree of the field that holds the name. -/
def calleeNameIn? : List Tree → Option Tree
  | [] => none
  | t :: rest => if t.tag.field == "name" then calleeName? t else calleeNameIn? rest

end

/-- The name that a C call calls. -/
def callTarget? (node : Tree) : Option Tree :=
  if node.kind == "call_expression" then (node.child? "function").bind calleeName? else none

/-- The name that a C++ call or construction calls. -/
def callOrNewTarget? (node : Tree) : Option Tree :=
  if node.kind == "new_expression" then (node.child? "type").filter fun t => t.kind == "type_identifier"
  else callTarget? node

/-- Kinds of nodes that use a name in C. -/
def identifiers : List String :=
  ["identifier", "field_identifier", "type_identifier"]

end CodeAtlas.CFamily
