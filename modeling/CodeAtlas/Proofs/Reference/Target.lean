/-
  The names that calls call.

  In every language only nodes of certain kinds call a name, and that name lies in the range of the call (`Calls`): it is
  reached from the call by going down, in some grammars through any number of callees inside callees.  No use of a
  name is of such a kind (`Support.CallsWithin`).
-/
import CodeAtlas.Extract.Support
import CodeAtlas.Proofs.Syntax.Nested

namespace CodeAtlas

open Syntax (Tree)

/-- A node of one of the kinds with the name that it calls, which lies wherever the node does. -/
structure Calls (kinds : List String) (node target : Tree) : Prop where
  kind_mem : node.kind ∈ kinds
  within : ∀ {first last : Nat}, node.Within first last → target.Within first last

variable {node target : Tree} {kinds : List String} {first last : Nat}

/-- A call calls its callee or a part of it. -/
theorem calls_of_callee {callee : Tree} (hkind : node.kind ∈ kinds) (hcallee : callee ∈ node.children)
    (htarget : target = callee ∨ target ∈ callee.children) : Calls kinds node target where
  kind_mem := hkind
  within hnode := by
    rcases htarget with rfl | htarget
    · exact hnode.child hcallee
    · exact (hnode.child hcallee).child htarget

namespace EcmaScript

/-- The name that a callee spells. -/
def calleeName? (callee : Tree) : Option Tree :=
  match callee.kind with
  | "identifier" => some callee
  | "member_expression" => callee.child? "property"
  | _ => none

theorem eq_or_mem_of_calleeName? {callee : Tree} (h : calleeName? callee = some target) :
    target = callee ∨ target ∈ callee.children := by
  unfold calleeName? at h
  split at h
  case h_1 => exact .inl (Option.some.inj h).symm
  case h_2 => exact .inr (Tree.mem_of_child? h)
  case h_3 => cases h

theorem calls_of_callTarget? (h : callTarget? node = some target) :
    Calls ["call_expression", "new_expression"] node target := by
  unfold callTarget? at h
  split at h
  case h_1 hkind =>
    obtain ⟨callee, hcallee, htarget⟩ := Option.bind_eq_some_iff.mp h
    exact calls_of_callee (by rw [hkind]; decide) (Tree.mem_of_child? hcallee) (eq_or_mem_of_calleeName? htarget)
  case h_2 hkind =>
    obtain ⟨callee, hcallee, htarget⟩ := Option.bind_eq_some_iff.mp h
    exact calls_of_callee (by rw [hkind]; decide) (Tree.mem_of_child? hcallee) (eq_or_mem_of_calleeName? htarget)
  case h_3 => cases h

end EcmaScript

namespace Python

theorem calls_of_callTarget? (h : callTarget? node = some target) : Calls ["call"] node target := by
  unfold callTarget? at h
  split at h
  case isTrue hkind =>
    obtain ⟨callee, hcallee, htarget⟩ := Option.bind_eq_some_iff.mp h
    refine calls_of_callee (List.mem_singleton.mpr (eq_of_beq hkind)) (Tree.mem_of_child? hcallee) ?_
    split at htarget
    case h_1 => exact .inl (Option.some.inj htarget).symm
    case h_2 => exact .inr (Tree.mem_of_child? htarget)
    case h_3 => cases htarget
  case isFalse => cases h

end Python

namespace Java

theorem calls_of_callTarget? (h : callTarget? node = some target) :
    Calls ["method_invocation", "object_creation_expression"] node target := by
  unfold callTarget? at h
  split at h
  case h_1 hkind => exact calls_of_callee (by rw [hkind]; decide) (Tree.mem_of_child? h) (.inl rfl)
  case h_2 hkind =>
    obtain ⟨created, hcreated, htarget⟩ := Option.bind_eq_some_iff.mp h
    refine calls_of_callee (by rw [hkind]; decide) (Tree.mem_of_child? hcreated) ?_
    split at htarget
    case h_1 => exact .inl (Option.some.inj htarget).symm
    case h_2 => exact .inr (List.mem_of_find?_eq_some htarget)
    case h_3 => cases htarget
  case h_3 => cases h

end Java

namespace Rust

mutual

theorem within_of_calleeName? {t : Tree} (ht : t.Within first last) (h : calleeName? t = some target) :
    target.Within first last := by
  cases t with
  | node tag children =>
    unfold calleeName? at h
    split at h
    · cases h; exact ht
    · exact ht.child (List.mem_of_find?_eq_some h)
    · exact ht.child (List.mem_of_find?_eq_some h)
    · exact within_of_calleeNameIn? (fun c hc => ht.child hc) h
    · cases h

theorem within_of_calleeNameIn? {trees : List Tree} (htrees : ∀ c ∈ trees, c.Within first last)
    (h : calleeNameIn? trees = some target) : target.Within first last := by
  cases trees with
  | nil => cases h
  | cons t rest =>
    obtain ⟨ht, hrest⟩ := List.forall_mem_cons.mp htrees
    unfold calleeNameIn? at h
    split at h
    · exact within_of_calleeName? ht h
    · exact within_of_calleeNameIn? hrest h

end

theorem calls_of_callTarget? (h : callTarget? node = some target) : Calls ["call_expression"] node target := by
  unfold callTarget? at h
  split at h
  case isTrue hkind =>
    obtain ⟨callee, hcallee, htarget⟩ := Option.bind_eq_some_iff.mp h
    exact ⟨List.mem_singleton.mpr (eq_of_beq hkind),
      fun hnode => within_of_calleeName? (hnode.child (Tree.mem_of_child? hcallee)) htarget⟩
  case isFalse => cases h

end Rust

namespace CFamily

mutual

theorem within_of_calleeName? {t : Tree} (ht : t.Within first last) (h : calleeName? t = some target) :
    target.Within first last := by
  cases t with
  | node tag children =>
    unfold calleeName? at h
    split at h
    · cases h; exact ht
    · cases h; exact ht
    · exact ht.child (List.mem_of_find?_eq_some h)
    · exact within_of_calleeNameIn? (fun c hc => ht.child hc) h
    · exact within_of_calleeNameIn? (fun c hc => ht.child hc) h
    · cases h

theorem within_of_calleeNameIn? {trees : List Tree} (htrees : ∀ c ∈ trees, c.Within first last)
    (h : calleeNameIn? trees = some target) : target.Within first last := by
  cases trees with
  | nil => cases h
  | cons t rest =>
    obtain ⟨ht, hrest⟩ := List.forall_mem_cons.mp htrees
    unfold calleeNameIn? at h
    split at h
    · exact within_of_calleeName? ht h
    · exact within_of_calleeNameIn? hrest h

end

theorem calls_of_callTarget? (h : callTarget? node = some target) : Calls ["call_expression"] node target := by
  unfold callTarget? at h
  split at h
  case isTrue hkind =>
    obtain ⟨callee, hcallee, htarget⟩ := Option.bind_eq_some_iff.mp h
    exact ⟨List.mem_singleton.mpr (eq_of_beq hkind),
      fun hnode => within_of_calleeName? (hnode.child (Tree.mem_of_child? hcallee)) htarget⟩
  case isFalse => cases h

theorem calls_of_callOrNewTarget? (h : callOrNewTarget? node = some target) :
    Calls ["call_expression", "new_expression"] node target := by
  unfold callOrNewTarget? at h
  split at h
  case isTrue hkind =>
    have hcreated := Tree.mem_of_child? (Option.eq_some_of_filter_eq_some h)
    exact calls_of_callee (by rw [eq_of_beq hkind]; decide) hcreated (.inl rfl)
  case isFalse =>
    obtain ⟨hkind, hwithin⟩ := calls_of_callTarget? h
    exact ⟨List.mem_cons.mpr (.inl (List.mem_singleton.mp hkind)), hwithin⟩

end CFamily

namespace Support

/-- No use of a name calls one, and the name that a call calls lies in the range of the call. -/
structure CallsWithin (support : Support) : Prop where
  callTarget_eq_none : ∀ {node : Tree}, support.identifiers.contains node.kind = true → support.callTarget node = none
  within : ∀ {node target : Tree} {first last : Nat}, node.Within first last → support.callTarget node = some target →
    target.Within first last

/-- It is enough that the kinds of calls are not kinds of names. -/
theorem CallsWithin.of_kinds {support : Support}
    (hcalls : ∀ {node target : Tree}, support.callTarget node = some target → Calls kinds node target)
    (hkinds : ∀ kind ∈ kinds, support.identifiers.contains kind = false) : support.CallsWithin where
  callTarget_eq_none {node} hname := by
    cases htarget : support.callTarget node with
    | none => rfl
    | some target =>
      rw [hkinds _ (hcalls htarget).kind_mem] at hname
      cases hname
  within hnode h := (hcalls h).within hnode

theorem callsWithin_builtin (language : Language) : (builtin language).CallsWithin := by
  cases language with
  | javascript | typescript | tsx => exact .of_kinds EcmaScript.calls_of_callTarget? (by decide)
  | python => exact .of_kinds Python.calls_of_callTarget? (by decide)
  | rust => exact .of_kinds Rust.calls_of_callTarget? (by decide)
  | java => exact .of_kinds Java.calls_of_callTarget? (by decide)
  | c => exact .of_kinds CFamily.calls_of_callTarget? (by decide)
  | cpp => exact .of_kinds CFamily.calls_of_callOrNewTarget? (by decide)

theorem callsWithin_grammarOnly (language : Language) : (grammarOnly language).CallsWithin where
  callTarget_eq_none _ := rfl
  within _ h := nomatch h

end Support

end CodeAtlas
