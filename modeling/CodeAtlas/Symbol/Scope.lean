/-
  The names of the scopes around a symbol, outermost first, and the qualified names built from them.
-/
import CodeAtlas.Syntax.Walk
import CodeAtlas.Text.Split

namespace CodeAtlas

/-- What stands between the parts of a qualified name. -/
inductive Separator where
  | doubleColon
  | dot
  deriving DecidableEq, Repr

/-- The text of a separator. -/
def Separator.text : Separator → String
  | .doubleColon => "::"
  | .dot => "."

/-- The scopes around a symbol. -/
structure Scope where
  /-- Outermost first. -/
  names : List String
  separator : Separator
  deriving DecidableEq, Repr

namespace Scope

/-- A scope added inside the others. -/
def push (s : Scope) (name : String) : Scope :=
  { s with names := s.names ++ [name] }

/-- The scope without its innermost name. -/
def pop (s : Scope) : Scope :=
  { s with names := s.names.dropLast }

/-- The innermost name. -/
def innermost? (s : Scope) : Option String :=
  s.names.getLast?

/-- The qualified name of the scope itself. -/
def current (s : Scope) : String :=
  Text.join s.separator.text s.names

/-- The qualified name of something in the scope. -/
def qualify (s : Scope) (name : String) : String :=
  let current := s.current
  if current.isEmpty then name
  else if name.isEmpty then current
  else current ++ s.separator.text ++ name

/-- The scopes that the ancestors of a node open. -/
def around (site : Syntax.Site) (separator : Separator) (scopeName : Syntax.Tree → Option String) : Scope :=
  ⟨(site.ancestors.filterMap scopeName).reverse, separator⟩

end Scope

end CodeAtlas
