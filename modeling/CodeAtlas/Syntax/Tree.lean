/-
  Concrete syntax trees.  A node carries its kind, the field under which its parent holds it, its byte range and its
  error marks.  `ofPreorder?` rebuilds a tree from the list of its nodes in pre-order with their numbers of children.
-/
namespace CodeAtlas.Syntax

/-- What is known about a node apart from its children. -/
structure Tag where
  kind : String
  /-- The field of the parent that holds the node, empty for none. -/
  field : String
  start : Nat
  stop : Nat
  isNamed : Bool
  isError : Bool
  isMissing : Bool
  /-- The node or one below it is in error. -/
  hasError : Bool
  deriving DecidableEq, Repr, Inhabited

/-- A syntax tree. -/
inductive Tree where
  | node (tag : Tag) (children : List Tree)
  deriving Inhabited

namespace Tree

/-- The mark of the root. -/
def tag : Tree → Tag
  | .node tag _ => tag

/-- The trees directly below the root. -/
def children : Tree → List Tree
  | .node _ children => children

@[simp] theorem tag_node (t : Tag) (cs : List Tree) : (node t cs).tag = t := rfl

@[simp] theorem children_node (t : Tag) (cs : List Tree) : (node t cs).children = cs := rfl

/-- The kind of the root. -/
def kind (t : Tree) : String :=
  t.tag.kind

/-- The first byte of the root. -/
def start (t : Tree) : Nat :=
  t.tag.start

/-- The byte after the root. -/
def stop (t : Tree) : Nat :=
  t.tag.stop

/-- The first child in a field. -/
def child? (t : Tree) (field : String) : Option Tree :=
  t.children.find? fun c => c.tag.field == field

/-- All children in a field. -/
def childrenIn (t : Tree) (field : String) : List Tree :=
  t.children.filter fun c => c.tag.field == field

/-- The first child of a kind. -/
def childOfKind? (t : Tree) (kind : String) : Option Tree :=
  t.children.find? fun c => c.kind == kind

/-- Whether some child is of a kind. -/
def hasChildOfKind (t : Tree) (kind : String) : Bool :=
  t.children.any fun c => c.kind == kind

/-- The children that the grammar names. -/
def namedChildren (t : Tree) : List Tree :=
  t.children.filter fun c => c.tag.isNamed

/-- The stack of finished trees after a node with `count` children, which are the topmost ones. -/
def reduce (entry : Tag × Nat) (stack : Option (List Tree)) : Option (List Tree) :=
  match stack with
  | some trees =>
    if entry.2 ≤ trees.length then some (.node entry.1 (trees.take entry.2) :: trees.drop entry.2) else none
  | none => none

/-- The tree whose nodes in pre-order are the given ones with their numbers of children. -/
def ofPreorder? (entries : List (Tag × Nat)) : Option Tree :=
  match entries.foldr reduce (some []) with
  | some [t] => some t
  | _ => none

mutual

/-- The nodes in pre-order with their numbers of children. -/
def preorder : Tree → List (Tag × Nat)
  | .node tag children => (tag, children.length) :: preorderAll children

/-- The nodes of several trees one after the other. -/
def preorderAll : List Tree → List (Tag × Nat)
  | [] => []
  | t :: rest => preorder t ++ preorderAll rest

end

end Tree

end CodeAtlas.Syntax
