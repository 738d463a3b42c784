/-
  Trees in which every node spans its children, and walks through them.

  A tree is `Within` a range when it lies there and every node below it lies in the range of its parent; so does each of its
  children (`Within.child`).  What every visit of a walk keeps, as long as it goes from nodes to their children, the whole
  walk keeps (`walk_keeps`), and what a walk gathers was found at some visited node (`exists_site_of_mem_gather`).
-/
import CodeAtlas.Syntax.Walk

namespace CodeAtlas.Syntax

namespace Tree

/-- Every node ends after its start, and its children lie in its range. -/
inductive Nested : Tree → Prop where
  | node {tag : Tag} {children : List Tree} (ordered : tag.start ≤ tag.stop)
      (spans : ∀ c ∈ children, tag.start ≤ c.start ∧ c.stop ≤ tag.stop)
      (below : ∀ c ∈ children, Nested c) : Nested (.node tag children)

/-- A tree in a range of bytes whose nodes lie in the ranges of their parents. -/
structure Within (first last : Nat) (t : Tree) : Prop where
  nested : t.Nested
  first_le : first ≤ t.start
  le_last : t.stop ≤ last

/-- A tree over a text of so many bytes. -/
def Fits (t : Tree) (size : Nat) : Prop :=
  t.Within 0 size

variable {t c : Tree} {first last size : Nat}

/-- A child lies in the range of its parent. -/
theorem Nested.child (h : t.Nested) (hc : c ∈ t.children) : c.Within t.start t.stop := by
  cases h with
  | node _ spans below => exact ⟨below c hc, (spans c hc).1, (spans c hc).2⟩

theorem Within.child (h : t.Within first last) (hc : c ∈ t.children) : c.Within first last := by
  obtain ⟨hnested, hfirst, hlast⟩ := h.nested.child hc
  exact ⟨hnested, Nat.le_trans h.first_le hfirst, Nat.le_trans hlast h.le_last⟩

theorem Fits.child (h : t.Fits size) (hc : c ∈ t.children) : c.Fits size :=
  Within.child h hc

theorem mem_of_child? {field : String} (h : t.child? field = some c) : c ∈ t.children :=
  List.mem_of_find?_eq_some h

theorem mem_of_childrenIn {field : String} (h : c ∈ t.childrenIn field) : c ∈ t.children :=
  (List.mem_filter.mp h).1

/-! ### Deciding -/

mutual

/-- Whether every node of a tree ends after its start and spans its children. -/
def isNested : Tree → Bool
  | .node tag children => decide (tag.start ≤ tag.stop) && areWithin tag.start tag.stop children

/-- Whether all trees are nested and lie in a range. -/
def areWithin (first last : Nat) : List Tree → Bool
  | [] => true
  | t :: rest => decide (first ≤ t.start) && decide (t.stop ≤ last) && isNested t && areWithin first last rest

end

mutual

theorem isNested_iff (t : Tree) : t.isNested = true ↔ t.Nested := by
  cases t with
  | node tag children =>
    rw [isNested, Bool.and_eq_true, decide_eq_true_eq, areWithin_iff]
    constructor
    · rintro ⟨hordered, hall⟩
      exact .node hordered (fun c hc => ⟨(hall c hc).first_le, (hall c hc).le_last⟩) fun c hc => (hall c hc).nested
    · rintro h
      cases h with
      | node hordered hspans hbelow =>
        exact ⟨hordered, fun c hc => ⟨hbelow c hc, (hspans c hc).1, (hspans c hc).2⟩⟩

theorem areWithin_iff (first last : Nat) (trees : List Tree) :
    areWithin first last trees = true ↔ ∀ c ∈ trees, c.Within first last := by
  cases trees with
  | nil => exact iff_of_true rfl fun c hc => absurd hc List.not_mem_nil
  | cons t rest =>
    rw [areWithin, Bool.and_eq_true, Bool.and_eq_true, Bool.and_eq_true, decide_eq_true_eq, decide_eq_true_eq,
      isNested_iff, areWithin_iff, List.forall_mem_cons]
    exact and_congr_left fun _ => ⟨fun ⟨⟨hfirst, hlast⟩, h⟩ => ⟨h, hfirst, hlast⟩, fun h =>
      ⟨⟨h.first_le, h.le_last⟩, h.nested⟩⟩

end

instance (t : Tree) : Decidable t.Nested :=
  decidable_of_iff _ (isNested_iff t)

instance (first last : Nat) (t : Tree) : Decidable (t.Within first last) :=
  decidable_of_iff (t.Nested ∧ first ≤ t.start ∧ t.stop ≤ last)
    ⟨fun h => ⟨h.1, h.2.1, h.2.2⟩, fun h => ⟨h.nested, h.first_le, h.le_last⟩⟩

instance (size : Nat) (t : Tree) : Decidable (t.Fits size) :=
  inferInstanceAs (Decidable (t.Within 0 size))

/-- A node that the grammar names, without errors. -/
def plain (kind field : String) (start stop : Nat) (children : List Tree) : Tree :=
  .node ⟨kind, field, start, stop, true, false, false, false⟩ children

end Tree

/-! ## Walks -/

section Walk

variable {σ : Type} {f : Visitor σ} {P : Site → Prop} {Q : σ → Prop}

mutual

theorem walkTree_keeps (hbelow : ∀ site, P site → ∀ c ∈ site.tree.children, P (site.below c))
    (hvisit : ∀ s depth site, P site → Q s → Q (f s depth site).1) (ancestors : List Tree) (depth : Nat) (t : Tree) (s : σ)
    (hsite : P ⟨t, ancestors⟩) (hs : Q s) : Q (walkTree f ancestors depth t s) := by
  cases t with
  | node tag children =>
    have hnext := hvisit s depth ⟨.node tag children, ancestors⟩ hsite hs
    unfold walkTree
    generalize f s depth ⟨.node tag children, ancestors⟩ = visited at hnext ⊢
    obtain ⟨s', visit⟩ := visited
    cases visit with
    | descend =>
      exact walkForest_keeps hbelow hvisit (.node tag children :: ancestors) (depth + 1) children s'
        (fun c hc => hbelow _ hsite c hc) hnext
    | skip => exact hnext

theorem walkForest_keeps (hbelow : ∀ site, P site → ∀ c ∈ site.tree.children, P (site.below c))
    (hvisit : ∀ s depth site, P site → Q s → Q (f s depth site).1) (ancestors : List Tree) (depth : Nat)
    (forest : List Tree) (s : σ) (hsites : ∀ c ∈ forest, P ⟨c, ancestors⟩) (hs : Q s) :
    Q (walkForest f ancestors depth forest s) := by
  cases forest with
  | nil => exact hs
  | cons t rest =>
    unfold walkForest
    exact walkForest_keeps hbelow hvisit ancestors depth rest _ (fun c hc => hsites c (List.mem_cons_of_mem t hc))
      (walkTree_keeps hbelow hvisit ancestors depth t s (hsites t List.mem_cons_self) hs)

end

namespace Site

/-- What holds of the start and goes over to children holds of all visited nodes, and what their visits keep is kept. -/
theorem walk_keeps {start : Site} (hbelow : ∀ site, P site → ∀ c ∈ site.tree.children, P (site.below c))
    (hvisit : ∀ s depth site, P site → Q s → Q (f s depth site).1) (hstart : P start) {s : σ} (hs : Q s) :
    Q (start.walk f s) :=
  walkTree_keeps hbelow hvisit start.ancestors 0 start.tree s hstart hs

/-- What a walk gathers was found at a visited node. -/
theorem exists_site_of_mem_gather {α : Type} {g : Site → List α × Visit} {start : Site}
    (hbelow : ∀ site, P site → ∀ c ∈ site.tree.children, P (site.below c)) (hstart : P start) {a : α}
    (h : a ∈ start.gather g) : ∃ site, P site ∧ a ∈ (g site).1 := by
  have hall : ∀ a ∈ start.gather g, ∃ site, P site ∧ a ∈ (g site).1 := by
    refine walk_keeps (Q := fun found => ∀ a ∈ found, ∃ site, P site ∧ a ∈ (g site).1) hbelow ?_ hstart
      (fun a ha => absurd ha List.not_mem_nil)
    intro found depth site hsite hfound a ha
    rcases List.mem_append.mp ha with ha | ha
    · exact hfound a ha
    · exact ⟨site, hsite, ha⟩
  exact hall a h

end Site

end Walk

end CodeAtlas.Syntax
