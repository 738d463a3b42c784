/-
  Walking a syntax tree.  A `Site` is a node together with its ancestors, nearest first.  `Site.walk` visits the nodes
  below a site in pre-order, threading a state through the visits; a visit may keep the walk away from the children.
-/
import CodeAtlas.Syntax.Tree

namespace CodeAtlas.Syntax

/-- A node in its place. -/
structure Site where
  tree : Tree
  /-- The enclosing nodes, nearest first. -/
  ancestors : List Tree
  deriving Inhabited

/-- Whether a walk goes on below the node just visited. -/
inductive Visit where
  | descend
  | skip
  deriving DecidableEq, Repr

namespace Site

/-- The enclosing node in its place. -/
def parent? (s : Site) : Option Site :=
  match s.ancestors with
  | [] => none
  | p :: rest => some ⟨p, rest⟩

/-- Whether the enclosing node is of a kind. -/
def parentIs (s : Site) (kind : String) : Bool :=
  s.ancestors.head?.any fun p => p.kind == kind

/-- Whether some ancestor is of one of the kinds. -/
def inside (s : Site) (kinds : List String) : Bool :=
  s.ancestors.any fun a => kinds.contains a.kind

/-- A child in its place. -/
def below (s : Site) (child : Tree) : Site :=
  ⟨child, s.tree :: s.ancestors⟩

end Site

/-- One visit: the state so far, the distance from the start of the walk and the node; it gives the next state and
says whether to go on below the node. -/
abbrev Visitor (σ : Type) : Type :=
  σ → Nat → Site → σ × Visit

mutual

/-- The walk through one tree. -/
def walkTree {σ : Type} (f : Visitor σ) (ancestors : List Tree) (depth : Nat) : Tree → σ → σ
  | .node tag children, s =>
    match f s depth ⟨.node tag children, ancestors⟩ with
    | (s, .descend) => walkForest f (.node tag children :: ancestors) (depth + 1) children s
    | (s, .skip) => s

/-- The walk through neighbouring trees. -/
def walkForest {σ : Type} (f : Visitor σ) (ancestors : List Tree) (depth : Nat) : List Tree → σ → σ
  | [], s => s
  | t :: rest, s => walkForest f ancestors depth rest (walkTree f ancestors depth t s)

end

namespace Site

/-- The state after visiting the site and what lies below it, in pre-order. -/
def walk {σ : Type} (start : Site) (f : Visitor σ) (s : σ) : σ :=
  walkTree f start.ancestors 0 start.tree s

/-- What the visits of a walk find, in the order of the walk. -/
def gather {α : Type} (start : Site) (f : Site → List α × Visit) : List α :=
  start.walk (fun found _ site => (found ++ (f site).1, (f site).2)) []

/-- How many nodes there are at and below the site, and how many of them the grammar names. -/
def countNodes (start : Site) : Nat × Nat :=
  start.walk (fun (total, named) _ site =>
    ((total + 1, if site.tree.tag.isNamed then named + 1 else named), .descend)) (0, 0)

end Site

/-- The first node in error or missing, looking only below nodes that are marked as having an error. -/
def Tree.firstError? (t : Tree) : Option Tree :=
  (Site.mk t []).walk (fun found _ site =>
    match found with
    | some e => (some e, .skip)
    | none =>
      if site.tree.tag.isError || site.tree.tag.isMissing then (some site.tree, .skip)
      else (none, if site.tree.tag.hasError then .descend else .skip)) none

end CodeAtlas.Syntax
