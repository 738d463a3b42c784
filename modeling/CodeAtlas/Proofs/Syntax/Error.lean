/-
  The first error of a tree.

  When the flag of a node tells just whether it or a child is in error, it tells whether any node below is
  (`Flagged.hasError_eq`), and so a search that passes by nodes without the flag passes no error by
  (`Flagged.firstError?_eq`).  Without tolerance a file is therefore rejected just when its tree has an error, with the
  place of the first one in pre-order (`rejected_at_first_error`), which is also the first in the text.
-/
import CodeAtlas.Proofs.Syntax.Preorder
import CodeAtlas.SourceFile

namespace CodeAtlas.Syntax

namespace Tree

/-- Whether the root is in error or missing. -/
def isFaulty (t : Tree) : Bool :=
  t.tag.isError || t.tag.isMissing

/-- Every node has the flag just when it is in error or missing, or some child has the flag. -/
def Flagged (t : Tree) : Prop :=
  ∀ x ∈ t.nodes, x.tag.hasError = true ↔ x.isFaulty = true ∨ ∃ c ∈ x.children, c.tag.hasError = true

instance (t : Tree) : Decidable t.Flagged :=
  inferInstanceAs (Decidable (∀ x ∈ t.nodes, _ ↔ _))

variable {t x : Tree}

theorem Flagged.child {tag : Tag} {children : List Tree} (h : (node tag children).Flagged) {c : Tree}
    (hc : c ∈ children) : c.Flagged := by
  intro x hx
  apply h
  rw [nodes_node]
  exact List.mem_cons_of_mem _ (List.mem_flatMap.mpr ⟨c, hc, hx⟩)

theorem Flagged.root {tag : Tag} {children : List Tree} (h : (node tag children).Flagged) :
    tag.hasError = ((node tag children).isFaulty || children.any fun c => c.tag.hasError) := by
  have hroot := h (node tag children) (by rw [nodes_node]; exact List.mem_cons_self)
  rw [Bool.eq_iff_iff, Bool.or_eq_true, List.any_eq_true]
  exact hroot

mutual

/-- The flag of a tree tells whether one of its nodes is in error or missing. -/
theorem Flagged.hasError_eq {t : Tree} (h : t.Flagged) : t.tag.hasError = t.nodes.any isFaulty := by
  cases t with
  | node tag children =>
    have hbelow := hasError_eq_forest children fun c hc => h.child hc
    rw [tag_node, h.root, nodes, List.any_cons, hbelow]

theorem hasError_eq_forest (forest : List Tree) (h : ∀ c ∈ forest, c.Flagged) :
    (forest.any fun c => c.tag.hasError) = (nodesOf forest).any isFaulty := by
  cases forest with
  | nil => rfl
  | cons t rest =>
    have hfirst := (h t List.mem_cons_self).hasError_eq
    have hrest := hasError_eq_forest rest fun c hc => h c (List.mem_cons_of_mem t hc)
    rw [List.any_cons, nodesOf, List.any_append, hfirst, hrest]

end

theorem Nested.start_le_stop (h : t.Nested) : t.start ≤ t.stop := by
  cases h with
  | node ordered _ _ => exact ordered

/-- Nodes start in the order in which they come in pre-order. -/
theorem Nested.pairwise_start (h : t.Nested) (hapart : t.Apart) : t.nodes.Pairwise fun x y => x.start ≤ y.start := by
  induction h with
  | @node tag children ordered spans below ih =>
    cases hapart with
    | node inTurn apart =>
      rw [nodes_node, List.pairwise_cons, List.pairwise_flatMap]
      refine ⟨?_, fun c hc => ih c hc (apart c hc), ?_⟩
      · intro y hy
        obtain ⟨c, hc, hy⟩ := List.mem_flatMap.mp hy
        exact Nat.le_trans (spans c hc).1 ((below c hc).within_of_mem_nodes hy).first_le
      · refine inTurn.imp_of_mem ?_
        intro a b ha hb hturn x hx y hy
        have hx' := (below a ha).within_of_mem_nodes hx
        calc x.start ≤ x.stop := hx'.nested.start_le_stop
          _ ≤ a.stop := hx'.le_last
          _ ≤ b.start := hturn
          _ ≤ y.start := ((below b hb).within_of_mem_nodes hy).first_le

end Tree

/-! ## The search -/

open CodeAtlas.Syntax.Tree

/-- One visit of the search for an error: it goes on below a node with the flag, as long as nothing has been found. -/
def probe : Visitor (Option Tree) := fun found _ site =>
  match found with
  | some e => (some e, .skip)
  | none =>
    if site.tree.tag.isError || site.tree.tag.isMissing then (some site.tree, .skip)
    else (none, if site.tree.tag.hasError then .descend else .skip)

theorem probe_of_faulty {site : Site} (h : site.tree.isFaulty = true) (depth : Nat) :
    probe none depth site = (some site.tree, .skip) :=
  if_pos h

theorem probe_of_flag {site : Site} (h : site.tree.isFaulty = false) (hflag : site.tree.tag.hasError = true)
    (depth : Nat) : probe none depth site = (none, .descend) := by
  have hsound : ¬ (site.tree.tag.isError || site.tree.tag.isMissing) = true := Bool.eq_false_iff.mp h
  simp only [probe, if_neg hsound, if_pos hflag]

theorem probe_of_no_flag {site : Site} (h : site.tree.isFaulty = false) (hflag : site.tree.tag.hasError = false)
    (depth : Nat) : probe none depth site = (none, .skip) := by
  have hsound : ¬ (site.tree.tag.isError || site.tree.tag.isMissing) = true := Bool.eq_false_iff.mp h
  simp only [probe, if_neg hsound, if_neg (Bool.eq_false_iff.mp hflag)]

/-- What has been found stays, whatever is visited. -/
theorem walkTree_probe_some (ancestors : List Tree) (depth : Nat) (t e : Tree) :
    walkTree probe ancestors depth t (some e) = some e := by
  cases t with
  | node tag children => rfl

theorem walkForest_probe_some (ancestors : List Tree) (depth : Nat) (forest : List Tree) (e : Tree) :
    walkForest probe ancestors depth forest (some e) = some e := by
  induction forest with
  | nil => rfl
  | cons t rest ih => rw [walkForest, walkTree_probe_some, ih]

mutual

theorem walkTree_probe (ancestors : List Tree) (depth : Nat) (t : Tree) (h : t.Flagged) :
    walkTree probe ancestors depth t none = t.nodes.find? isFaulty := by
  cases t with
  | node tag children =>
    have hany := h.hasError_eq
    have hforest := walkForest_probe (.node tag children :: ancestors) (depth + 1) children fun c hc => h.child hc
    rw [nodes, List.any_cons] at hany
    rw [walkTree, nodes, List.find?_cons]
    cases hroot : (node tag children).isFaulty with
    | true => rw [probe_of_faulty hroot]
    | false =>
      rw [hroot, Bool.false_or] at hany
      cases hflag : (node tag children).tag.hasError with
      | true =>
        rw [probe_of_flag hroot hflag]
        exact hforest
      | false =>
        -- the search passes by the children, among whose nodes there is nothing to find
        rw [probe_of_no_flag hroot hflag]
        rw [hflag] at hany
        refine (List.find?_eq_none.mpr ?_).symm
        intro x hx
        exact List.any_eq_false.mp hany.symm x hx

theorem walkForest_probe (ancestors : List Tree) (depth : Nat) (forest : List Tree) (h : ∀ c ∈ forest, c.Flagged) :
    walkForest probe ancestors depth forest none = (nodesOf forest).find? isFaulty := by
  cases forest with
  | nil => rfl
  | cons t rest =>
    have hrest := walkForest_probe ancestors depth rest fun c hc => h c (List.mem_cons_of_mem t hc)
    rw [walkForest, walkTree_probe ancestors depth t (h t List.mem_cons_self), nodesOf, List.find?_append]
    cases t.nodes.find? isFaulty with
    | none => exact hrest
    | some e => exact walkForest_probe_some ancestors depth rest e

end

/-- The search finds the first node of all in pre-order that is in error or missing. -/
theorem Tree.Flagged.firstError?_eq {t : Tree} (h : t.Flagged) : t.firstError? = t.nodes.find? isFaulty :=
  walkTree_probe [] 0 t h

end CodeAtlas.Syntax

namespace CodeAtlas

open Syntax Syntax.Tree

/-- The reason that gives a place in a text, its line counted from 1 and its column from 0. -/
def placeText (content : String) (offset : Nat) : String :=
  "syntax error at " ++ toString ((Text.Position.of (Text.bytes content) offset).row + 1) ++ ":" ++
    toString (Text.Position.of (Text.bytes content) offset).column

theorem Engine.syntaxError_of_firstError? {t e : Tree} (h : t.firstError? = some e) (content : String) :
    Engine.syntaxError content t = placeText content e.start := by
  unfold Engine.syntaxError
  rw [h]
  rfl

/-- Let the flag of every node of a tree tell whether the node is in error or missing, or a child has the flag. Then the
search for an error finds the first node in pre-order that is in error or missing, which no other such node precedes in
the text, and it finds one whenever the root has the flag. Without tolerance a file with such a tree is accepted if no
node is in error or missing, and otherwise rejected with the line and the column of the first of them. -/
theorem Engine.rejected_at_first_error {t : Tree} (h : t.Flagged) :
    t.firstError? = t.nodes.find? isFaulty ∧
    (t.Nested → t.Apart → ∀ e, t.firstError? = some e → ∀ x ∈ t.nodes, x.isFaulty = true → e.start ≤ x.start) ∧
    (t.tag.hasError = true → ∃ e, t.firstError? = some e) ∧
    ∀ (engine : Engine) (path content : String) (hint : Option Language) (language : Language),
      engine.tolerant = false → Engine.language path hint = .ok language →
      engine.parse path content hint (some t) =
        match t.nodes.find? isFaulty with
        | none => .ok ⟨path, language, t, content⟩
        | some e => .error (.parseFailure path (placeText content e.start)) := by
  have hfirst := h.firstError?_eq
  refine ⟨hfirst, ?_, ?_, ?_⟩
  · intro hnested hapart e he x hx hfaulty
    rw [hfirst] at he
    obtain ⟨-, before, after, hnodes, hbefore⟩ := List.find?_eq_some_iff_append.mp he
    have hstart := hnested.pairwise_start hapart
    rw [hnodes] at hx hstart
    rcases List.mem_append.mp hx with hx | hx
    · have hsound := hbefore x hx
      rw [hfaulty] at hsound
      cases hsound
    · rcases List.mem_cons.mp hx with heq | hx
      · exact Nat.le_of_eq (congrArg Tree.start heq.symm)
      · exact (List.pairwise_cons.mp (List.pairwise_append.mp hstart).2.1).1 x hx
  · intro hflag
    rw [h.hasError_eq, List.any_eq_true] at hflag
    rw [hfirst]
    exact Option.isSome_iff_exists.mp (List.find?_isSome.mpr hflag)
  · intro engine path content hint language hstrict hlanguage
    have hflag : t.tag.hasError = (t.nodes.find? isFaulty).isSome := by
      rw [h.hasError_eq, Bool.eq_iff_iff, List.any_eq_true, List.find?_isSome]
    unfold Engine.parse
    rw [hlanguage]
    show (if (t.tag.hasError && !engine.tolerant) = true then
        Except.error (Failure.parseFailure path (Engine.syntaxError content t))
      else .ok (⟨path, language, t, content⟩ : Parsed)) = _
    rw [hflag, hstrict]
    cases hfound : t.nodes.find? isFaulty with
    | none => rfl
    | some e =>
      have hplace := Engine.syntaxError_of_firstError? (hfirst.trans hfound) content
      show Except.error (Failure.parseFailure path (Engine.syntaxError content t)) = _
      rw [hplace]

/-- A text with an open call and a stray sign. -/
def brokenText : String :=
  "ok;\nf(;\n@\n"

/-- A node with a child that is in error or missing below it. -/
def marked (kind : String) (start stop : Nat) (children : List Tree) : Tree :=
  .node ⟨kind, "", start, stop, true, false, false, true⟩ children

/-- The tree of that text, without the signs that are in place: a statement without error, one with a missing parenthesis,
and what the grammar does not know. -/
def brokenTree : Tree :=
  marked "program" 0 10
    [.plain "expression_statement" "" 0 3 [.plain "identifier" "" 0 2 []],
     marked "expression_statement" 4 7
       [marked "call_expression" 4 6
         [.plain "identifier" "function" 4 5 [],
          marked "arguments" 5 6 [.node ⟨")", "", 6, 6, false, false, true, true⟩ []]]],
     .node ⟨"ERROR", "", 8, 9, true, true, false, true⟩ []]

/-- The file is rejected where the parenthesis is missing, which comes before what the grammar does not know. -/
theorem Engine.rejected_at_first_error_broken :
    brokenTree.Flagged ∧ brokenTree.Nested ∧ brokenTree.Apart ∧ Engine.strict.tolerant = false ∧
      Engine.language "broken.js" (some .javascript) = .ok .javascript ∧
      (∃ e, brokenTree.firstError? = some e ∧ e.tag.kind = ")" ∧
        ∀ x ∈ brokenTree.nodes, x.isFaulty = true → e.start ≤ x.start) ∧
      Engine.strict.parse "broken.js" brokenText (some .javascript) (some brokenTree) =
        .error (.parseFailure "broken.js" "syntax error at 2:2") := by
  have hflagged : brokenTree.Flagged := by decide +kernel
  have hnested : brokenTree.Nested := by decide +kernel
  have hapart : brokenTree.Apart := by decide +kernel
  have hlanguage : Engine.language "broken.js" (some .javascript) = .ok .javascript := rfl
  have hfound : brokenTree.nodes.find? isFaulty = some (.node ⟨")", "", 6, 6, false, false, true, true⟩ []) := rfl
  have hplace : placeText brokenText 6 = "syntax error at 2:2" := by decide +kernel
  obtain ⟨hfirst, hearliest, -, hparse⟩ := Engine.rejected_at_first_error hflagged
  refine ⟨hflagged, hnested, hapart, rfl, hlanguage, ?_, ?_⟩
  · exact ⟨_, hfirst.trans hfound, rfl, hearliest hnested hapart _ (hfirst.trans hfound)⟩
  · rw [hparse Engine.strict "broken.js" brokenText (some .javascript) .javascript rfl hlanguage, hfound, ← hplace]
    rfl

end CodeAtlas
