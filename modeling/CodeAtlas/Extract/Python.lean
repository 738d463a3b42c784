/-
  Symbols, imports and exports of Python files.  Functions and classes are symbols wherever they stand, assignments at
  module level; the list assigned to `__all__` names the exports.
-/
import CodeAtlas.Symbol.Basic

namespace CodeAtlas.Python

open Syntax (Tree Site Visit)

/-- Enclosing nodes that make an import conditional. -/
def branches : List String :=
  ["if_statement", "try_statement", "except_clause", "conditional_expression", "function_definition"]

/-- Nodes that open a scope under their name. -/
def isDefinition (node : Tree) : Bool :=
  node.kind == "class_definition" || node.kind == "function_definition"

/-- The classes and functions around a node. -/
def scopeOf (source : String) (site : Site) : Scope :=
  Scope.around site .dot fun a => if isDefinition a then (a.child? "name").map (·.text source) else none

/-- Whether the nearest definition around a node is a class. -/
def isMethod (site : Site) : Bool :=
  (site.ancestors.find? isDefinition).any fun a => a.kind == "class_definition"

/-- Names are public unless they begin with an underscore; names with two underscores on both sides are. -/
def isPublicName (name : String) : Bool :=
  !Text.startsWith name "_" || (Text.startsWith name "__" && Text.endsWith name "__")

/-- A function, method or class under its name. -/
def definition? (source : String) (site : Site) (kind : SymbolKind) : Option Symbol := do
  let nameNode ← site.tree.child? "name"
  let symbol ← Symbol.at? source site.tree nameNode kind
  let symbol := symbol.within (scopeOf source site)
  let isPublic := isPublicName symbol.name
  some { symbol with
    isAsync := kind.isCallable && site.tree.hasChildOfKind "async"
    isPublic
    isExported := symbol.parent.isNone && isPublic }

/-- Whether an assignment is a statement of the module itself. -/
def isModuleLevel (site : Site) : Bool :=
  site.parentIs "expression_statement" && site.ancestors[1]?.any fun g => g.kind == "module"

/-- The texts of the strings at and below a node. -/
def strings (source : String) (site : Site) : List String :=
  site.gather fun s =>
    if s.tree.kind == "string" then ([Text.unquote (s.tree.text source)], .skip) else ([], .descend)

/-- Names in capitals: some capital letter, and nothing but capitals, digits and underscores. -/
def isConstantName (name : String) : Bool :=
  name.toList.any Char.isUpper && name.toList.all fun c => c.isUpper || c.isDigit || c == '_'

/-- What an assignment at module level introduces: exports for `__all__`, nothing for other names with two underscores
in front, and otherwise a constant or variable. -/
def assignment (source : String) (site : Site) : List Finding :=
  match isModuleLevel site, site.tree.child? "left" with
  | true, some left =>
    if left.kind != "identifier" then []
    else
      let name := left.text source
      if name == "__all__" then
        match site.tree.child? "right" with
        | some right => (strings source (site.below right)).map Finding.exported
        | none => []
      else if Text.startsWith name "__" then []
      else
        let kind := if isConstantName name then SymbolKind.constantDef else .variableDef
        match Symbol.at? source site.tree left kind with
        | some s => [.symbol { s with isPublic := isPublicName s.name, isExported := isPublicName s.name }]
        | none => []
  | _, _ => []

/-- The imports of an import statement, one for each module it names. -/
def importStatement (source : String) (site : Site) : List Import :=
  (site.tree.childrenIn "name").filterMap fun name =>
    let (module, bound) :=
      if name.kind == "aliased_import" then
        let module := ((name.child? "name").map (·.text source)).getD ""
        (module, ((name.child? "alias").map (·.text source)).getD module)
      else
        let module := name.text source
        (module, ((Text.splitChar '.' module).head?).getD module)
    if module.isEmpty then none
    else some { Import.ofNode source site.tree module .static with
      names := [bound]
      isConditional := site.inside branches }

/-- The import of a statement that imports names from a module. -/
def importFrom? (source : String) (site : Site) : Option Import := do
  let module ← site.tree.child? "module_name"
  let names := (site.tree.childrenIn "name").filterMap fun name =>
    if name.kind == "aliased_import" then (name.child? "alias").map (·.text source) else some (name.text source)
  let star := if site.tree.hasChildOfKind "wildcard_import" then ["*"] else []
  some { Import.ofNode source site.tree (module.text source) .static with
    names := names ++ star
    isConditional := site.inside branches }

/-- The functions that import the module named by their first argument. -/
def importers : List String :=
  ["importlib.import_module", "import_module", "__import__"]

/-- The import that a call of an importing function with a string makes. -/
def callImport? (source : String) (site : Site) : Option Import := do
  let function ← site.tree.child? "function"
  if !importers.contains (function.text source) then none
  let arguments ← site.tree.child? "arguments"
  let first ← arguments.namedChildren.head?
  if first.kind != "string" then none
  some { Import.ofNode source site.tree (Text.unquote (first.text source)) .dynamic with
    isConditional := site.inside branches }

/-- The findings at one node. -/
def rule (source : String) (site : Site) : List Finding × Visit :=
  let findings := match site.tree.kind with
    | "function_definition" =>
      ((definition? source site (if isMethod site then .method else .function)).map Finding.symbol).toList
    | "class_definition" => ((definition? source site .classDef).map Finding.symbol).toList
    | "assignment" => assignment source site
    | "import_statement" => (importStatement source site).map Finding.imported
    | "import_from_statement" => ((importFrom? source site).map Finding.imported).toList
    | "call" => ((callImport? source site).map Finding.imported).toList
    | _ => []
  (findings, .descend)

/-- The name that a call calls. -/
def callTarget? (node : Tree) : Option Tree :=
  if node.kind == "call" then (node.child? "function").bind fun f =>
    match f.kind with
    | "identifier" => some f
    | "attribute" => f.child? "attribute"
    | _ => none
  else none

end CodeAtlas.Python
