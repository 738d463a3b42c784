/-
  Walking a syntax tree with a cursor, which moves from node to node and needs no call stack.  A cursor stays at and below the
  node where it was put.  A walk counts how deep it is.  After each visit it moves to the first child, if it goes on below
  the node and there is one, and else to the next sibling, of the node or of the nearest node around it that has one
  (`Cursor.next?`).  `Runs` lists the visits of a walk up to its end.
-/
import CodeAtlas.Syntax.Walk

namespace CodeAtlas.Syntax

/-- Where a node stands at or below another one: the numbers of the children on the way down. -/
abbrev Place : Type :=
  List Nat

/-- Where a node stands among the children of its parent. -/
structure Level where
  /-- How many siblings come before the node. -/
  index : Nat
  /-- The siblings behind the node. -/
  later : List Tree

/-- A cursor on a node at or below the node where it was put, its start. -/
structure Cursor where
  site : Site
  /-- The level of the node and those of the nodes around it, nearest first; the start itself has none. -/
  levels : List Level

/-- A cursor that is put on a node. -/
def Site.cursor (start : Site) : Cursor :=
  ⟨start, []⟩

namespace Cursor

/-- The place of the node below the start. -/
def place (c : Cursor) : Place :=
  (c.levels.map (·.index)).reverse

/-- The cursor on a child at some level. -/
def below (c : Cursor) (level : Level) (t : Tree) : Cursor :=
  ⟨c.site.below t, level :: c.levels⟩

@[simp] theorem place_below (c : Cursor) (level : Level) (t : Tree) : (c.below level t).place = c.place ++ [level.index] := by
  simp [place, below]

/-- The cursor on the first child. -/
def firstChild? (c : Cursor) : Option Cursor :=
  match c.site.tree.children with
  | [] => none
  | t :: later => some (c.below ⟨0, later⟩ t)

/-- The cursor on the sibling behind the node. -/
def nextSibling? (c : Cursor) : Option Cursor :=
  match c.levels with
  | ⟨index, t :: later⟩ :: outer => some ⟨⟨t, c.site.ancestors⟩, ⟨index + 1, later⟩ :: outer⟩
  | _ => none

/-- The cursor on the parent, which a cursor on its start does not move to. -/
def parent? (c : Cursor) : Option Cursor :=
  match c.levels with
  | [] => none
  | _ :: outer => c.site.parent?.map fun p => ⟨p, outer⟩

/-- The cursor on the next sibling, of the node or of the nearest node around it that has one, with its depth.  The walk
ends when there is none below depth 0. -/
def advance? (c : Cursor) : Nat → Option (Cursor × Nat)
  | 0 => none
  | depth + 1 =>
    match c.nextSibling? with
    | some next => some (next, depth + 1)
    | none =>
      match c.parent? with
      | some outer => outer.advance? depth
      | none => none

/-- Where a walk goes on after a visit, with the depth there. -/
def next? (c : Cursor) (depth : Nat) (visit : Visit) : Option (Cursor × Nat) :=
  match visit, c.firstChild? with
  | .descend, some child => some (child, depth + 1)
  | _, _ => c.advance? depth

end Cursor

/-- A visit of a walk: the node, the depth that has been counted, and the state so far. -/
structure Call (σ : Type) where
  cursor : Cursor
  depth : Nat
  state : σ

namespace Call

variable {σ : Type}

/-- The place of the visited node. -/
def place (call : Call σ) : Place :=
  call.cursor.place

/-- Whether the visit lets the walk go on below the node. -/
def answer (f : Visitor σ) (call : Call σ) : Visit :=
  (f call.state call.depth call.cursor.site).2

end Call

/-- A walk that is about to visit a node at some depth, or has come to its end, makes these visits and ends in this state. -/
inductive Runs {σ : Type} (f : Visitor σ) : Option (Cursor × Nat) → σ → List (Call σ) → σ → Prop where
  | finish (s : σ) : Runs f none s [] s
  | visit {c : Cursor} {depth : Nat} {s out : σ} {calls : List (Call σ)}
      (rest : Runs f (c.next? depth (f s depth c.site).2) (f s depth c.site).1 calls out) :
      Runs f (some (c, depth)) s (⟨c, depth, s⟩ :: calls) out

end CodeAtlas.Syntax
