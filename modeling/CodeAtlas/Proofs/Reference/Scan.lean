/-
  What a scan for known names reports.

  A scan folds `visit` over the nodes in pre-order.  The positions that it has consumed are those of the calls that it has
  reported (`callStarts`).  By `Accounted` these are the positions at which the nodes met so far call a known name, and
  every use at another position has been reported.  None is reported at a position that a later node calls: a use is a
  leaf that ends before later nodes start, and what a node calls lies in its range.  This rests on names with some text: a
  parser adds a node without text where a name is missing, and nothing keeps such a node off the next one
  (`empty_names_repeat_positions`).
-/
import CodeAtlas.Proofs.Reference.Target
import CodeAtlas.Proofs.Syntax.Preorder
import CodeAtlas.Proofs.Text.Lines
import CodeAtlas.Reference
import Mathlib.Data.List.Forall2
import Mathlib.Data.List.Induction
import Mathlib.Data.List.Nodup

namespace CodeAtlas.Reference

open Syntax (Tree)

section Account

variable (support : Support) (source : String) (request : Request)

/-- The known name that a node calls; an error calls nothing. -/
def callee? (node : Tree) : Option Tree :=
  if node.tag.isError then none
  else (support.callTarget node).filter fun target => request.known.contains (target.text source)

/-- The first bytes of the known names that the nodes call. -/
def called (nodes : List Tree) : List Nat :=
  nodes.filterMap fun node => (callee? support source request node).map Tree.start

/-- Whether a node that is no error uses a known name where no name is defined. -/
def isUse (node : Tree) : Bool :=
  !node.tag.isError && support.identifiers.contains node.kind && request.known.contains (node.text source)
    && !request.definitionSites.contains node.start

/-- The nodes that use a known name where none of the nodes calls one and none is defined. -/
def uses (nodes : List Tree) : List Tree :=
  nodes.filter fun x => isUse support source request x && !(called support source request nodes).contains x.start

/-- All nodes that use a known name start before a position. -/
def Passed (nodes : List Tree) (p : Nat) : Prop :=
  ∀ x ∈ nodes, isUse support source request x = true → x.start < p

/-- A reference is what a node gives rise to: a call of the name that it calls or a use of the name that it is. -/
inductive Reports (node : Tree) : Reference → Prop where
  | call {target : Tree} (calls : callee? support source request node = some target) :
      Reports node (ofNode source request target .call)
  | use (uses : isUse support source request node = true) : Reports node (ofNode source request node .reference)

/-- The first bytes of the reported calls. -/
def callStarts (facts : List Reference) : List Nat :=
  (facts.filter fun f => f.kind == .call).map Reference.byteStart

/-- The references to uses of names where none of the nodes calls one. -/
def usesIn (nodes : List Tree) (facts : List Reference) : List Reference :=
  facts.filter fun f => f.kind == .reference && !(called support source request nodes).contains f.byteStart

/-- The references are what some nodes give rise to, one after the other: each known name that is called is reported once
as called, each other known name that is used and not defined is reported once as used, and nothing else is reported. -/
structure Accounted (nodes : List Tree) (facts : List Reference) : Prop where
  inOrder : ∃ reporting : List Tree, reporting.Sublist nodes ∧
    List.Forall₂ (Reports support source request) reporting facts
  calls_once : (callStarts facts).Nodup
  mem_calls_iff : ∀ s, s ∈ callStarts facts ↔ s ∈ called support source request nodes
  uses_eq : usesIn support source request nodes facts =
    (uses support source request nodes).map fun x => ofNode source request x .reference
  uncalled : ∀ f ∈ facts, f.kind = .reference → f.byteStart ∉ called support source request nodes
  /-- No position is reported twice. -/
  apart : (facts.map Reference.byteStart).Nodup
  undefined : ∀ f ∈ facts, f.kind = .reference → f.byteStart ∉ request.definitionSites

end Account

variable {support : Support} {source : String} {request : Request} {nodes : List Tree} {facts : List Reference}
  {node target : Tree}

@[simp] theorem kind_ofNode (kind : ReferenceKind) : (ofNode source request node kind).kind = kind := rfl

@[simp] theorem byteStart_ofNode (kind : ReferenceKind) : (ofNode source request node kind).byteStart = node.start := rfl

/-! ### Nodes -/

theorem called_concat_of_none (nodes : List Tree) (hcallee : callee? support source request node = none) :
    called support source request (nodes ++ [node]) = called support source request nodes := by
  unfold called
  rw [List.filterMap_append, List.filterMap_cons_none (by rw [hcallee]; rfl), List.filterMap_nil, List.append_nil]

theorem called_concat_of_callee? (hcallee : callee? support source request node = some target) :
    called support source request (nodes ++ [node]) = called support source request nodes ++ [target.start] := by
  unfold called
  rw [List.filterMap_append, List.filterMap_cons_some (by rw [hcallee]; rfl), List.filterMap_nil]

theorem callee?_eq_some_iff : callee? support source request node = some target ↔
    node.tag.isError = false ∧ support.callTarget node = some target ∧ target.text source ∈ request.known := by
  unfold callee?
  cases node.tag.isError <;> simp [Option.filter_eq_some_iff]

theorem isUse_iff : isUse support source request node = true ↔
    node.tag.isError = false ∧ node.kind ∈ support.identifiers ∧ node.text source ∈ request.known ∧
      node.start ∉ request.definitionSites := by
  simp [isUse, and_assoc]

/-- A use calls nothing. -/
theorem callee?_eq_none_of_isUse (hsupport : support.CallsWithin) (h : isUse support source request node = true) :
    callee? support source request node = none := by
  cases hcallee : callee? support source request node with
  | none => rfl
  | some target =>
    have hname := hsupport.callTarget_eq_none (List.contains_iff_mem.mpr (isUse_iff.mp h).2.1)
    rw [(callee?_eq_some_iff.mp hcallee).2.1] at hname
    cases hname

/-- What a node calls starts no earlier than the node. -/
theorem start_le_of_callee? (hsupport : support.CallsWithin) (hnode : node.Nested)
    (h : callee? support source request node = some target) : node.start ≤ target.start :=
  (hsupport.within ⟨hnode, Nat.le_refl _, Nat.le_refl _⟩ (callee?_eq_some_iff.mp h).2.1).first_le

/-- One more excluded position is excluded afterwards. -/
theorem filter_contains_concat {α : Type} (keep : α → Bool) (position : α → Nat) (l : List α) (excluded : List Nat)
    (p : Nat) :
    (l.filter fun a => keep a && !(excluded ++ [p]).contains (position a)) =
      (l.filter fun a => keep a && !excluded.contains (position a)).filter fun a => position a != p := by
  rw [List.filter_filter]
  refine List.filter_congr fun a _ => Bool.eq_iff_iff.mpr ?_
  simp only [Bool.and_eq_true, Bool.not_eq_true', bne_iff_ne, List.contains_eq_mem, decide_eq_false_iff_not,
    List.mem_append, List.mem_singleton, not_or]
  exact ⟨fun ⟨h, hexcluded, hne⟩ => ⟨hne, h, hexcluded⟩, fun ⟨hne, h, hexcluded⟩ => ⟨h, hexcluded, hne⟩⟩

/-- A node that calls leaves the uses that it does not call. -/
theorem uses_concat_of_callee? (hsupport : support.CallsWithin)
    (hcallee : callee? support source request node = some target) :
    uses support source request (nodes ++ [node]) =
      (uses support source request nodes).filter fun x => x.start != target.start := by
  have hnode : isUse support source request node ≠ true := fun huse =>
    Option.some_ne_none target (hcallee.symm.trans (callee?_eq_none_of_isUse hsupport huse))
  unfold uses
  rw [List.filter_append, List.filter_cons_of_neg (by simp [hnode]), List.filter_nil, List.append_nil,
    called_concat_of_callee? hcallee, filter_contains_concat]

theorem usesIn_concat_of_callee? (hcallee : callee? support source request node = some target) :
    usesIn support source request (nodes ++ [node]) facts =
      (usesIn support source request nodes facts).filter fun f => f.byteStart != target.start := by
  unfold usesIn
  rw [called_concat_of_callee? hcallee, filter_contains_concat]

/-! ### One visit -/

theorem visit_of_callee? {s : Scan} (h : callee? support source request node = some target) :
    visit support source request s node =
      if target.start ∈ s.consumed then s
      else ⟨s.found ++ [ofNode source request target .call], s.consumed ++ [target.start]⟩ := by
  obtain ⟨hsound, htarget, hknown⟩ := callee?_eq_some_iff.mp h
  by_cases hmem : target.start ∈ s.consumed <;> simp [visit, hsound, htarget, hknown, hmem]

theorem visit_of_isUse (hsupport : support.CallsWithin) {s : Scan} (h : isUse support source request node = true) :
    visit support source request s node =
      if node.start ∈ s.consumed then s else { s with found := s.found ++ [ofNode source request node .reference] } := by
  obtain ⟨hsound, hname, hknown, hsite⟩ := isUse_iff.mp h
  have hnone := hsupport.callTarget_eq_none (List.contains_iff_mem.mpr hname)
  by_cases hmem : node.start ∈ s.consumed <;> simp [visit, hsound, hnone, hname, hknown, hsite, hmem]

theorem visit_of_neither {s : Scan} (hcallee : callee? support source request node = none)
    (huse : isUse support source request node = false) : visit support source request s node = s := by
  unfold visit
  cases hsound : node.tag.isError with
  | true => rfl
  | false =>
    rw [if_neg Bool.false_ne_true]
    cases htarget : support.callTarget node with
    | some target =>
      have hunknown : target.text source ∉ request.known := fun hknown =>
        Option.some_ne_none _ ((callee?_eq_some_iff.mpr ⟨hsound, htarget, hknown⟩).symm.trans hcallee)
      simp [hunknown]
    | none =>
      refine if_neg fun h => Bool.false_ne_true (huse.symm.trans (isUse_iff.mpr ?_))
      simp only [Bool.and_eq_true, Bool.not_eq_true', List.contains_eq_mem, decide_eq_true_eq,
        decide_eq_false_iff_not] at h
      exact ⟨hsound, h.1.1.1, h.2, h.1.2⟩

/-! ### What has been reported -/

theorem callStarts_concat_call :
    callStarts (facts ++ [ofNode source request node .call]) = callStarts facts ++ [node.start] := by
  simp [callStarts]

theorem callStarts_concat_use : callStarts (facts ++ [ofNode source request node .reference]) = callStarts facts := by
  simp [callStarts]

theorem usesIn_concat_call : usesIn support source request nodes (facts ++ [ofNode source request node .call]) =
    usesIn support source request nodes facts := by
  simp [usesIn]

theorem exists_of_mem_right {α β : Type} {R : α → β → Prop} {l : List α} {l' : List β} {b : β} (h : List.Forall₂ R l l')
    (hb : b ∈ l') : ∃ a ∈ l, R a b := by
  induction h with
  | nil => cases hb
  | cons hab _ ih =>
    rcases List.mem_cons.mp hb with rfl | hb
    · exact ⟨_, List.mem_cons_self, hab⟩
    · obtain ⟨a, ha, hab⟩ := ih hb
      exact ⟨a, List.mem_cons_of_mem _ ha, hab⟩

namespace Accounted

theorem nil : Accounted support source request [] [] where
  inOrder := ⟨[], .slnil, .nil⟩
  calls_once := List.nodup_nil
  mem_calls_iff _ := Iff.rfl
  uses_eq := rfl
  uncalled _ h := absurd h List.not_mem_nil
  apart := List.nodup_nil
  undefined _ h := absurd h List.not_mem_nil

/-- Reported uses start before a position that all uses have passed. -/
theorem start_lt (h : Accounted support source request nodes facts) {p : Nat}
    (hpast : Passed support source request nodes p) {f : Reference} (hf : f ∈ facts) (hkind : f.kind = .reference) :
    f.byteStart < p := by
  obtain ⟨reporting, hsub, hreports⟩ := h.inOrder
  obtain ⟨x, hx, hreport⟩ := exists_of_mem_right hreports hf
  cases hreport with
  | call _ => cases hkind
  | use huse => exact hpast x (hsub.subset hx) huse

/-- A position at which no call is reported, behind all uses, is not reported. -/
theorem start_fresh (h : Accounted support source request nodes facts) {p : Nat} (hcalls : p ∉ callStarts facts)
    (hpast : Passed support source request nodes p) : p ∉ facts.map Reference.byteStart := by
  intro hp
  obtain ⟨f, hf, hstart⟩ := List.mem_map.mp hp
  cases hkind : f.kind with
  | call => exact hcalls (List.mem_map.mpr ⟨f, List.mem_filter.mpr ⟨hf, beq_iff_eq.mpr hkind⟩, hstart⟩)
  | reference => exact Nat.ne_of_lt (h.start_lt hpast hf hkind) hstart

/-- One more node reports one more reference. -/
theorem inOrder_concat (h : Accounted support source request nodes facts) {f : Reference}
    (hf : Reports support source request node f) : ∃ reporting : List Tree, reporting.Sublist (nodes ++ [node]) ∧
      List.Forall₂ (Reports support source request) reporting (facts ++ [f]) := by
  obtain ⟨reporting, hsub, hreports⟩ := h.inOrder
  exact ⟨reporting ++ [node], hsub.append (.refl _), List.rel_append hreports (.cons hf .nil)⟩

/-- One more node may report nothing. -/
theorem inOrder_skip (h : Accounted support source request nodes facts) (node : Tree) :
    ∃ reporting : List Tree, reporting.Sublist (nodes ++ [node]) ∧
      List.Forall₂ (Reports support source request) reporting facts := by
  obtain ⟨reporting, hsub, hreports⟩ := h.inOrder
  exact ⟨reporting, hsub.trans (List.sublist_append_left _ _), hreports⟩

theorem apart_concat (h : Accounted support source request nodes facts) {f : Reference}
    (hcalls : f.byteStart ∉ callStarts facts) (hpast : Passed support source request nodes f.byteStart) :
    ((facts ++ [f]).map Reference.byteStart).Nodup := by
  rw [List.map_append]
  exact h.apart.append (List.nodup_singleton _) (List.disjoint_singleton.mpr (h.start_fresh hcalls hpast))

/-- A call takes its position from the uses and from the references to them. -/
theorem uses_eq_of_callee? (h : Accounted support source request nodes facts) (hsupport : support.CallsWithin)
    (hcallee : callee? support source request node = some target) :
    usesIn support source request (nodes ++ [node]) facts =
      (uses support source request (nodes ++ [node])).map fun x => ofNode source request x .reference := by
  rw [usesIn_concat_of_callee? hcallee, uses_concat_of_callee? hsupport hcallee, h.uses_eq, List.filter_map]
  rfl

/-- A call behind all uses calls none of them. -/
theorem uncalled_of_callee? (h : Accounted support source request nodes facts)
    (hcallee : callee? support source request node = some target)
    (hpast : Passed support source request nodes target.start) {f : Reference} (hf : f ∈ facts)
    (hkind : f.kind = .reference) : f.byteStart ∉ called support source request (nodes ++ [node]) := by
  rw [called_concat_of_callee? hcallee, List.mem_append, List.mem_singleton]
  rintro (hcalled | hstart)
  · exact h.uncalled f hf hkind hcalled
  · exact Nat.ne_of_lt (h.start_lt hpast hf hkind) hstart

/-- A call that is not reported yet is reported. -/
theorem call (h : Accounted support source request nodes facts) (hsupport : support.CallsWithin)
    (hcallee : callee? support source request node = some target) (hnew : target.start ∉ callStarts facts)
    (hpast : Passed support source request nodes target.start) :
    Accounted support source request (nodes ++ [node]) (facts ++ [ofNode source request target .call]) where
  inOrder := h.inOrder_concat (.call hcallee)
  calls_once := by
    rw [callStarts_concat_call]
    exact h.calls_once.append (List.nodup_singleton _) (List.disjoint_singleton.mpr hnew)
  mem_calls_iff p := by
    rw [callStarts_concat_call, called_concat_of_callee? hcallee, List.mem_append, List.mem_append, h.mem_calls_iff]
  uses_eq := usesIn_concat_call.trans (h.uses_eq_of_callee? hsupport hcallee)
  uncalled f hf hkind := by
    rcases List.mem_append.mp hf with hf | hf
    · exact h.uncalled_of_callee? hcallee hpast hf hkind
    · rw [List.mem_singleton.mp hf] at hkind
      cases hkind
  apart := h.apart_concat hnew hpast
  undefined f hf hkind := by
    rcases List.mem_append.mp hf with hf | hf
    · exact h.undefined f hf hkind
    · rw [List.mem_singleton.mp hf] at hkind
      cases hkind

/-- A call that is reported already adds nothing. -/
theorem again (h : Accounted support source request nodes facts) (hsupport : support.CallsWithin)
    (hcallee : callee? support source request node = some target) (hold : target.start ∈ callStarts facts)
    (hpast : Passed support source request nodes target.start) :
    Accounted support source request (nodes ++ [node]) facts where
  inOrder := h.inOrder_skip node
  calls_once := h.calls_once
  mem_calls_iff p := by
    rw [called_concat_of_callee? hcallee, List.mem_append, List.mem_singleton, h.mem_calls_iff]
    refine ⟨.inl, fun hp => hp.elim id ?_⟩
    rintro rfl
    exact (h.mem_calls_iff _).mp hold
  uses_eq := h.uses_eq_of_callee? hsupport hcallee
  uncalled _ hf := h.uncalled_of_callee? hcallee hpast hf
  apart := h.apart
  undefined := h.undefined

/-- A use where no call is reported is reported. -/
theorem use (h : Accounted support source request nodes facts) (hsupport : support.CallsWithin)
    (huse : isUse support source request node = true) (hnew : node.start ∉ callStarts facts)
    (hpast : Passed support source request nodes node.start) :
    Accounted support source request (nodes ++ [node]) (facts ++ [ofNode source request node .reference]) := by
  have hsame := called_concat_of_none nodes (callee?_eq_none_of_isUse hsupport huse)
  have huncalled : node.start ∉ called support source request nodes :=
    fun hcalled => hnew ((h.mem_calls_iff _).mpr hcalled)
  refine ⟨h.inOrder_concat (.use huse), ?_, fun p => ?_, ?_, fun f hf hkind => ?_, h.apart_concat hnew hpast,
    fun f hf hkind => ?_⟩
  · rw [callStarts_concat_use]
    exact h.calls_once
  · rw [callStarts_concat_use, hsame, h.mem_calls_iff]
  · have hold := h.uses_eq
    unfold usesIn uses at hold ⊢
    rw [hsame, List.filter_append, hold, List.filter_append, List.map_append]
    simp [huse, huncalled]
  · rw [hsame]
    rcases List.mem_append.mp hf with hf | hf
    · exact h.uncalled f hf hkind
    · rw [List.mem_singleton.mp hf]
      exact huncalled
  · rcases List.mem_append.mp hf with hf | hf
    · exact h.undefined f hf hkind
    · rw [List.mem_singleton.mp hf]
      exact (isUse_iff.mp huse).2.2.2

/-- A node that calls nothing, and is no use unless a call is reported there, adds nothing. -/
theorem skip (h : Accounted support source request nodes facts) (hcallee : callee? support source request node = none)
    (huse : isUse support source request node = true → node.start ∈ callStarts facts) :
    Accounted support source request (nodes ++ [node]) facts := by
  have hsame := called_concat_of_none nodes hcallee
  refine ⟨h.inOrder_skip node, h.calls_once, fun p => ?_, ?_, fun f hf => ?_, h.apart, h.undefined⟩
  · rw [hsame, h.mem_calls_iff]
  · have hold := h.uses_eq
    unfold usesIn uses at hold ⊢
    rw [hsame, hold, List.filter_append, List.filter_cons_of_neg, List.filter_nil, List.append_nil]
    intro hnode
    rw [Bool.and_eq_true, Bool.not_eq_true', List.contains_eq_mem, decide_eq_false_iff_not] at hnode
    exact hnode.2 ((h.mem_calls_iff _).mp (huse hnode.1))
  · rw [hsame]
    exact h.uncalled f hf

/-- What a visit reports accounts for its node. -/
theorem visit (hsupport : support.CallsWithin) {s : Scan} (h : Accounted support source request nodes s.found)
    (hconsumed : s.consumed = callStarts s.found) (hnode : node.Nested)
    (hpast : Passed support source request nodes node.start) :
    Accounted support source request (nodes ++ [node]) (visit support source request s node).found ∧
      (visit support source request s node).consumed = callStarts (visit support source request s node).found := by
  cases hcallee : callee? support source request node with
  | some target =>
    have hbehind : Passed support source request nodes target.start :=
      fun x hx huse => Nat.lt_of_lt_of_le (hpast x hx huse) (start_le_of_callee? hsupport hnode hcallee)
    rw [visit_of_callee? hcallee, hconsumed]
    split
    case isTrue hold => exact ⟨h.again hsupport hcallee hold hbehind, hconsumed⟩
    case isFalse hnew => exact ⟨h.call hsupport hcallee hnew hbehind, callStarts_concat_call.symm⟩
  | none =>
    cases huse : isUse support source request node with
    | true =>
      rw [visit_of_isUse hsupport huse, hconsumed]
      split
      case isTrue hold => exact ⟨h.skip hcallee fun _ => hold, hconsumed⟩
      case isFalse hnew => exact ⟨h.use hsupport huse hnew hpast, callStarts_concat_use.symm⟩
    | false =>
      rw [visit_of_neither hcallee huse]
      exact ⟨h.skip hcallee fun htrue => absurd (huse.symm.trans htrue) Bool.false_ne_true, hconsumed⟩

/-- What the visits of some nodes report accounts for them. -/
theorem foldl_visit (hsupport : support.CallsWithin) (hnested : ∀ x ∈ nodes, x.Nested)
    (hturn : nodes.Pairwise fun x y => isUse support source request x = true → x.start < y.start) :
    let s := nodes.foldl (Reference.visit support source request) ⟨[], []⟩
    Accounted support source request nodes s.found ∧ s.consumed = callStarts s.found := by
  induction nodes using List.reverseRecOn with
  | nil => exact ⟨.nil, rfl⟩
  | append_singleton nodes node ih =>
    obtain ⟨hturn, -, hpast⟩ := List.pairwise_append.mp hturn
    obtain ⟨h, hconsumed⟩ := ih (fun x hx => hnested x (List.mem_append_left _ hx)) hturn
    rw [List.foldl_append]
    exact h.visit hsupport hconsumed (hnested node (List.mem_append_right _ List.mem_cons_self))
      fun x hx => hpast x hx node List.mem_cons_self

end Accounted

/-! ### The scan -/

/-- In a tree whose nodes span their children, with siblings one after the other and names at its leaves, every known name
that is called is reported once as called, and every other known name that is used and not defined once as used, provided
that the empty text is no known name. -/
theorem scan_accounts_for_all_nodes {root : Tree}
    (hsupport : ∃ language, support = .builtin language ∨ support = .grammarOnly language) (hnested : root.Nested)
    (hapart : root.Apart) (hleaves : ∀ x ∈ root.nodes, x.kind ∈ support.identifiers → x.children = [])
    (hnamed : "" ∉ request.known) :
    Accounted support source request root.nodes (scan support source root request) := by
  have hcalls : support.CallsWithin := by
    obtain ⟨language, rfl | rfl⟩ := hsupport
    · exact Support.callsWithin_builtin language
    · exact Support.callsWithin_grammarOnly language
  -- a use is a leaf with text, so it ends after it starts and before the nodes that follow it start
  have hturn : root.nodes.Pairwise fun x y => isUse support source request x = true → x.start < y.start := by
    refine (hnested.pairwise_nodes hapart).imp_of_mem fun {x y} hx _ hstop huse => ?_
    obtain ⟨-, hkind, hknown, -⟩ := isUse_iff.mp huse
    have htext : x.text source ≠ "" := fun hempty => hnamed (hempty ▸ hknown)
    calc x.start < x.stop := (Text.lt_of_slice htext).1
      _ ≤ y.start := hstop (hleaves x hx hkind)
  have hscan : scan support source root request =
      (root.nodes.foldl (visit support source request) ⟨[], []⟩).found :=
    congrArg Scan.found (Syntax.Site.walk_eq_foldl (fun _ _ _ => rfl) (Syntax.Site.mk root []) (Scan.mk [] []))
  rw [hscan]
  exact (Accounted.foldl_visit hcalls (fun x hx => (hnested.within_of_mem_nodes hx).nested) hturn).1

/-- The tree of a function that calls itself on itself. -/
def selfCall : Tree :=
  .plain "program" "" 0 22
    [.plain "function_declaration" "" 0 22
      [.plain "identifier" "name" 9 10 [],
       .plain "formal_parameters" "parameters" 10 12 [],
       .plain "statement_block" "body" 13 22
        [.plain "expression_statement" "" 15 20
          [.plain "call_expression" "" 15 19
            [.plain "identifier" "function" 15 16 [],
             .plain "arguments" "arguments" 16 19 [.plain "identifier" "" 17 18 []]]]]]]

/-- The name of the function is not reported, its call once and its use in the call once. -/
theorem scan_accounts_for_all_nodes_selfCall :
    let request : Request := ⟨"self.js", ["f"], [9], 0⟩
    let facts := scan (.builtin .javascript) "function f() \x7b f(f); \x7d" selfCall request
    (∃ language, Support.builtin .javascript = .builtin language ∨ Support.builtin .javascript = .grammarOnly language) ∧
      selfCall.Nested ∧ selfCall.Apart ∧
      (∀ x ∈ selfCall.nodes, x.kind ∈ (Support.builtin .javascript).identifiers → x.children = []) ∧
      "" ∉ request.known ∧
      facts.map (fun f => (f.symbolName, f.kind, f.line, f.column, f.byteStart)) =
        [("f", .call, 1, 15, 15), ("f", .reference, 1, 17, 17)] ∧
      Accounted (.builtin .javascript) "function f() \x7b f(f); \x7d" request selfCall.nodes facts :=
  ⟨⟨.javascript, .inl rfl⟩, by decide, by decide, by decide, by decide, by decide +kernel,
    scan_accounts_for_all_nodes ⟨.javascript, .inl rfl⟩ (by decide) (by decide) (by decide) (by decide)⟩

/-- A name that a parser adds at a position where it is missing. -/
def missingName (field : String) (p : Nat) : Tree :=
  .node ⟨"identifier", field, p, p, true, false, true, true⟩ []

/-- A node that the grammar names, with an error below it. -/
def faulty (kind field : String) (start stop : Nat) (children : List Tree) : Tree :=
  .node ⟨kind, field, start, stop, true, false, false, true⟩ children

/-- A minus sign without operand and, many lines below, a remainder without first operand. -/
def lackingText : String :=
  "-" ++ String.ofList (List.replicate 100 '\n') ++ "% y\n"

/-- The tree of the two operators: both missing operands are added behind the minus sign. -/
def lackingOperands : Tree :=
  faulty "module" "" 0 105
    [faulty "expression_statement" "" 0 1
      [faulty "unary_operator" "" 0 1
        [.node ⟨"-", "operator", 0, 1, false, false, false, false⟩ [], missingName "argument" 1]],
     faulty "expression_statement" "" 1 104
      [faulty "binary_operator" "" 1 104
        [missingName "left" 1, .node ⟨"%", "operator", 101, 102, false, false, false, false⟩ [],
         .plain "identifier" "right" 103 104 []]]]

/-- A tree in which a name is missing right before a call. -/
def lackingName : Tree :=
  faulty "program" "" 0 3
    [missingName "" 0,
     .plain "call_expression" "" 0 3 [.plain "identifier" "function" 0 1 [], .plain "arguments" "arguments" 1 3 []]]

/-- Where the empty text counts as a known name, missing names may be reported twice at one position, and at the position of
a call that is reported as well. -/
theorem empty_names_repeat_positions :
    let lacking := scan (.builtin .python) lackingText lackingOperands ⟨"lacking.py", [""], [], 0⟩
    let call := scan (.builtin .javascript) "f()" lackingName ⟨"call.js", ["", "f"], [], 0⟩
    (lackingOperands.Nested ∧ lackingOperands.Apart ∧
      (∀ x ∈ lackingOperands.nodes, x.kind ∈ (Support.builtin .python).identifiers → x.children = []) ∧
      lacking.map (fun f => (f.symbolName, f.kind, f.byteStart)) = [("", .reference, 1), ("", .reference, 1)] ∧
      ¬(lacking.map Reference.byteStart).Nodup) ∧
    (lackingName.Nested ∧ lackingName.Apart ∧
      (∀ x ∈ lackingName.nodes, x.kind ∈ (Support.builtin .javascript).identifiers → x.children = []) ∧
      call.map (fun f => (f.symbolName, f.kind, f.byteStart)) = [("", .reference, 0), ("f", .call, 0)] ∧
      ¬(call.map Reference.byteStart).Nodup) := by
  intro lacking call
  have hlacking : lacking.map (fun f => (f.symbolName, f.kind, f.byteStart)) =
      [("", .reference, 1), ("", .reference, 1)] := by decide +kernel
  have hcall : call.map (fun f => (f.symbolName, f.kind, f.byteStart)) = [("", .reference, 0), ("f", .call, 0)] := by
    decide +kernel
  have hstarts {facts : List Reference} {shown : List (String × ReferenceKind × Nat)}
      (hfacts : facts.map (fun f => (f.symbolName, f.kind, f.byteStart)) = shown) :
      facts.map Reference.byteStart = shown.map fun fact => fact.2.2 := by
    rw [← hfacts, List.map_map]
    rfl
  refine ⟨⟨by decide, by decide, by decide, hlacking, ?_⟩, by decide, by decide, by decide, hcall, ?_⟩
  · rw [hstarts hlacking]
    decide
  · rw [hstarts hcall]
    decide

end CodeAtlas.Reference
