/-
  The nodes of a tree in pre-order.

  A walk that goes on below every node folds over them (`Site.walk_eq_foldl`).  When siblings stand one after the other,
  a leaf ends before any node that follows it in pre-order starts (`Nested.pairwise_nodes`).
-/
import CodeAtlas.Proofs.Syntax.Nested

namespace CodeAtlas.Syntax

namespace Tree

mutual

/-- The nodes of a tree in pre-order. -/
def nodes : Tree → List Tree
  | .node tag children => .node tag children :: nodesOf children

/-- The nodes of neighbouring trees in pre-order. -/
def nodesOf : List Tree → List Tree
  | [] => []
  | t :: rest => nodes t ++ nodesOf rest

end

/-- Siblings stand one after the other. -/
inductive Apart : Tree → Prop where
  | node {tag : Tag} {children : List Tree} (inTurn : children.Pairwise fun a b => a.stop ≤ b.start)
      (below : ∀ c ∈ children, Apart c) : Apart (.node tag children)

variable {t x : Tree} {first last : Nat}

theorem nodesOf_eq (trees : List Tree) : nodesOf trees = trees.flatMap nodes := by
  induction trees with
  | nil => rfl
  | cons t rest ih => rw [nodesOf, ih, List.flatMap_cons]

theorem nodes_node (tag : Tag) (children : List Tree) :
    nodes (.node tag children) = .node tag children :: children.flatMap nodes := by
  rw [nodes, nodesOf_eq]

mutual

/-- The entries of a tree in pre-order are as many as its nodes. -/
theorem length_preorder (t : Tree) : t.preorder.length = t.nodes.length := by
  cases t with
  | node tag children => rw [preorder, nodes, List.length_cons, List.length_cons, length_preorderAll]

theorem length_preorderAll (forest : List Tree) : (preorderAll forest).length = (nodesOf forest).length := by
  cases forest with
  | nil => rfl
  | cons t rest =>
    rw [preorderAll, nodesOf, List.length_append, List.length_append, length_preorder, length_preorderAll]

end

/-- Every node of a nested tree lies in the range of the root. -/
theorem Nested.within_of_mem_nodes (h : t.Nested) (hx : x ∈ t.nodes) : x.Within t.start t.stop := by
  induction h with
  | @node tag children ordered spans below ih =>
    rw [nodes_node, List.mem_cons, List.mem_flatMap] at hx
    rcases hx with rfl | ⟨c, hc, hx⟩
    · exact ⟨.node ordered spans below, Nat.le_refl _, Nat.le_refl _⟩
    · obtain ⟨hnested, hfirst, hlast⟩ := ih c hc hx
      exact ⟨hnested, Nat.le_trans (spans c hc).1 hfirst, Nat.le_trans hlast (spans c hc).2⟩

/-- A leaf ends before any later node starts. -/
theorem Nested.pairwise_nodes (h : t.Nested) (hapart : t.Apart) :
    t.nodes.Pairwise fun x y => x.children = [] → x.stop ≤ y.start := by
  induction h with
  | @node tag children ordered spans below ih =>
    cases hapart with
    | node inTurn apart =>
      rw [nodes_node, List.pairwise_cons, List.pairwise_flatMap]
      refine ⟨fun y hy hleaf => ?_, fun c hc => ih c hc (apart c hc), ?_⟩
      · rw [show children = [] from hleaf] at hy
        exact absurd hy List.not_mem_nil
      · refine inTurn.imp_of_mem fun {a b} ha hb hturn x hx y hy _ => ?_
        calc x.stop ≤ a.stop := ((below a ha).within_of_mem_nodes hx).le_last
          _ ≤ b.start := hturn
          _ ≤ y.start := ((below b hb).within_of_mem_nodes hy).first_le

/-! ### Deciding -/

mutual

/-- Whether all siblings in a tree stand one after the other. -/
def isApart : Tree → Bool
  | .node _ children => decide (children.Pairwise fun a b => a.stop ≤ b.start) && areApart children

/-- Whether all siblings in neighbouring trees stand one after the other. -/
def areApart : List Tree → Bool
  | [] => true
  | t :: rest => isApart t && areApart rest

end

mutual

theorem isApart_iff (t : Tree) : t.isApart = true ↔ t.Apart := by
  cases t with
  | node tag children =>
    rw [isApart, Bool.and_eq_true, decide_eq_true_eq, areApart_iff]
    constructor
    · rintro ⟨hturn, hbelow⟩
      exact .node hturn hbelow
    · rintro ⟨hturn, hbelow⟩
      exact ⟨hturn, hbelow⟩

theorem areApart_iff (trees : List Tree) : areApart trees = true ↔ ∀ c ∈ trees, c.Apart := by
  cases trees with
  | nil => exact iff_of_true rfl fun c hc => absurd hc List.not_mem_nil
  | cons t rest => rw [areApart, Bool.and_eq_true, isApart_iff, areApart_iff, List.forall_mem_cons]

end

instance (t : Tree) : Decidable t.Apart :=
  decidable_of_iff _ (isApart_iff t)

end Tree

/-! ## Walks -/

section Walk

variable {σ : Type} {f : Visitor σ} {g : σ → Tree → σ}

mutual

theorem walkTree_eq_foldl (h : ∀ s depth site, f s depth site = (g s site.tree, .descend)) (ancestors : List Tree)
    (depth : Nat) (t : Tree) (s : σ) : walkTree f ancestors depth t s = t.nodes.foldl g s := by
  cases t with
  | node tag children =>
    rw [walkTree, h, Tree.nodes, List.foldl_cons]
    exact walkForest_eq_foldl h (.node tag children :: ancestors) (depth + 1) children _

theorem walkForest_eq_foldl (h : ∀ s depth site, f s depth site = (g s site.tree, .descend)) (ancestors : List Tree)
    (depth : Nat) (forest : List Tree) (s : σ) :
    walkForest f ancestors depth forest s = (Tree.nodesOf forest).foldl g s := by
  cases forest with
  | nil => rfl
  | cons t rest =>
    rw [walkForest, walkTree_eq_foldl h, walkForest_eq_foldl h, Tree.nodesOf, List.foldl_append]

end

/-- A walk that goes on below every node folds over the nodes in pre-order. -/
theorem Site.walk_eq_foldl (h : ∀ s depth site, f s depth site = (g s site.tree, .descend)) (start : Site) (s : σ) :
    start.walk f s = start.tree.nodes.foldl g s :=
  walkTree_eq_foldl h start.ancestors 0 start.tree s

end Walk

/-! ### Counting -/

/-- The counts after one more node. -/
def countNode (counts : Nat × Nat) (t : Tree) : Nat × Nat :=
  (counts.1 + 1, if t.tag.isNamed then counts.2 + 1 else counts.2)

theorem foldl_countNode (nodes : List Tree) (counts : Nat × Nat) :
    nodes.foldl countNode counts = (counts.1 + nodes.length, counts.2 + nodes.countP fun t => t.tag.isNamed) := by
  induction nodes generalizing counts with
  | nil => rfl
  | cons t nodes ih =>
    simp only [List.foldl_cons, ih, countNode, List.length_cons, List.countP_cons, Prod.mk.injEq]
    refine ⟨Nat.add_right_comm .., ?_⟩
    cases t.tag.isNamed with
    | true => exact Nat.add_right_comm ..
    | false => rfl

/-- All nodes are counted, and those that the grammar names. -/
theorem Site.countNodes_eq (start : Site) :
    start.countNodes = (start.tree.nodes.length, start.tree.nodes.countP fun t => t.tag.isNamed) := by
  have hwalk : start.countNodes = start.tree.nodes.foldl countNode (0, 0) := by
    unfold Site.countNodes
    exact Site.walk_eq_foldl (g := countNode) (fun _ _ _ => rfl) start (0, 0)
  rw [hwalk, foldl_countNode, Nat.zero_add, Nat.zero_add]

end CodeAtlas.Syntax
