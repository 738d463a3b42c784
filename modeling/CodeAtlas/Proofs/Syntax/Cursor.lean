/-
  Walks with a cursor.

  The nodes at and below a start are told apart by their places (`Site.at?`), and pre-order is an order of places
  (`Place.Before`).  After a visit a cursor goes on at the first later place that was not skipped, and the walk has come to
  its end only when there is none (`Cursor.On.goesOn_next?`).  Hence its visits come in pre-order, none of them below a
  node that was skipped (`Runs.pairwise_after`), and no other place is left out (`Runs.exists_call`).  It always comes to
  its end, and in the state of the walk by recursion on the tree (`ends_walk`, `Site.walk_visits_unskipped_once`).
-/
import Mathlib.Data.List.Lex
import CodeAtlas.Proofs.Syntax.Preorder
import CodeAtlas.Syntax.Cursor

namespace CodeAtlas.Syntax

variable {p q r : Place} {start : Site} {c : Cursor}

/-! ## Places -/

namespace Place

/-- Pre-order: a node comes before those below it, and these before the ones below later siblings. -/
def Before (p q : Place) : Prop :=
  List.Lex (fun i j => i < j) p q

theorem Before.irrefl (p : Place) : ¬ p.Before p :=
  List.lex_irrefl (fun _ => Nat.lt_irrefl _) p

theorem Before.trans (hpq : p.Before q) (hqr : q.Before r) : p.Before r :=
  List.lex_trans Nat.lt_trans hpq hqr

theorem Before.ne (h : p.Before q) : p ≠ q := by
  rintro rfl
  exact Before.irrefl p h

theorem before_append_iff (base : Place) : Before (base ++ p) (base ++ q) ↔ p.Before q := by
  induction base with
  | nil => exact Iff.rfl
  | cons i base ih => rw [List.cons_append, List.cons_append, ← ih, Before, List.lex_cons_iff, Before]

theorem before_append_cons (p : Place) (i : Nat) (rest : Place) : p.Before (p ++ i :: rest) := by
  have h : Before (p ++ []) (p ++ i :: rest) := (before_append_iff p).mpr .nil
  rwa [List.append_nil] at h

/-- What lies below a place comes after it. -/
theorem before_of_isPrefix (h : p <+: q) (hne : p ≠ q) : p.Before q := by
  obtain ⟨rest, rfl⟩ := h
  cases rest with
  | nil => exact absurd (List.append_nil p).symm hne
  | cons i rest => exact before_append_cons p i rest

theorem Before.of_append {rest : Place} (h : Before (p ++ rest) q) : p.Before q := by
  cases rest with
  | nil => rwa [List.append_nil] at h
  | cons i rest => exact (before_append_cons p i rest).trans h

/-- What comes after a place and all that is below it. -/
def Behind (p q : Place) : Prop :=
  p.Before q ∧ ¬ p <+: q

theorem Behind.append (h : p.Behind q) (rest : Place) : Behind (p ++ rest) q := by
  obtain ⟨hbefore, hout⟩ := h
  refine ⟨?_, fun hin => hout ((List.prefix_append p rest).trans hin)⟩
  induction hbefore with
  | nil => exact absurd List.nil_prefix hout
  | rel hlt => exact .rel hlt
  | @cons i p q _ ih => exact .cons (ih fun hin => hout (List.cons_prefix_cons.mpr ⟨rfl, hin⟩))

theorem Behind.trans_before (hpq : p.Behind q) (hqr : q.Before r) : p.Behind r := by
  refine ⟨hpq.1.trans hqr, ?_⟩
  rintro ⟨rest, rfl⟩
  exact Before.irrefl _ ((hpq.append rest).1.trans hqr)

/-- What comes after a place is below it or behind it. -/
theorem before_iff : p.Before q ↔ p.Behind q ∨ ∃ j rest, q = p ++ j :: rest := by
  constructor
  · intro h
    by_cases hin : p <+: q
    · obtain ⟨rest, rfl⟩ := hin
      cases rest with
      | nil => exact absurd (List.append_nil p).symm h.ne
      | cons j rest => exact .inr ⟨j, rest, rfl⟩
    · exact .inl ⟨h, hin⟩
  · rintro (h | ⟨j, rest, rfl⟩)
    · exact h.1
    · exact before_append_cons p j rest

/-- What is behind a child is behind the parent, or at or below a later child. -/
theorem behind_concat_iff {i : Nat} :
    Behind (p ++ [i]) q ↔ p.Behind q ∨ ∃ j rest, i < j ∧ q = p ++ j :: rest := by
  constructor
  · rintro ⟨hbefore, hout⟩
    rcases before_iff.mp hbefore.of_append with h | ⟨j, rest, rfl⟩
    · exact .inl h
    · cases (before_append_iff p).mp hbefore with
      | rel hlt => exact .inr ⟨j, rest, hlt, rfl⟩
      | cons _ => exact absurd ⟨rest, List.append_assoc p [_] rest⟩ hout
  · rintro (h | ⟨j, rest, hlt, rfl⟩)
    · exact h.append [i]
    · refine ⟨(before_append_iff p).mpr (.rel hlt), ?_⟩
      rw [List.prefix_append_right_inj, List.cons_prefix_cons]
      exact fun hin => absurd hin.1 (Nat.ne_of_lt hlt)

/-- A child comes first among what lies at and below it and its later siblings. -/
theorem concat_eq_or_before {i j : Nat} (h : i ≤ j) (rest : Place) :
    p ++ [i] = p ++ j :: rest ∨ Before (p ++ [i]) (p ++ j :: rest) := by
  rcases Nat.lt_or_eq_of_le h with hlt | rfl
  · exact .inr ((before_append_iff p).mpr (.rel hlt))
  · cases rest with
    | nil => exact .inl rfl
    | cons k rest =>
      have h := before_append_cons (p ++ [i]) k rest
      rw [List.append_assoc] at h
      exact .inr h

/-- The places to which a walk may come after a visit: the later ones, without those below the node if it is skipped. -/
def After (p : Place) (visit : Visit) (q : Place) : Prop :=
  match visit with
  | .descend => p.Before q
  | .skip => p.Behind q

theorem After.before {visit : Visit} (h : p.After visit q) : p.Before q := by
  cases visit with
  | descend => exact h
  | skip => exact h.1

theorem After.trans_before {visit : Visit} (hpq : p.After visit q) (hqr : q.Before r) : p.After visit r := by
  cases visit with
  | descend => exact Before.trans hpq hqr
  | skip => exact Behind.trans_before hpq hqr

end Place

namespace Site

/-- The node at a place below a start. -/
def at? (start : Site) : Place → Option Site
  | [] => some start
  | i :: rest => start.tree.children[i]?.bind fun t => (start.below t).at? rest

theorem at?_append (start : Site) (p q : Place) : start.at? (p ++ q) = (start.at? p).bind (·.at? q) := by
  induction p generalizing start with
  | nil => rfl
  | cons i p ih =>
    rw [List.cons_append, at?, at?, Option.bind_assoc]
    exact congrArg _ (funext fun t => ih (start.below t))

theorem at?_concat {site : Site} (h : start.at? p = some site) (i : Nat) :
    start.at? (p ++ [i]) = site.tree.children[i]?.map site.below := by
  rw [at?_append, h, Option.bind_some, at?]
  cases site.tree.children[i]? with
  | none => rfl
  | some t => rfl

/-- What is below a node is at or below one of its children. -/
theorem lt_of_isSome_at? {site : Site} (h : start.at? p = some site) {i : Nat} {rest : Place}
    (hrest : (start.at? (p ++ i :: rest)).isSome) : i < site.tree.children.length := by
  rw [at?_append, h, Option.bind_some, at?] at hrest
  by_contra hge
  rw [List.getElem?_eq_none (Nat.le_of_not_lt hge)] at hrest
  cases hrest

end Site

/-! ## Cursors -/

namespace Cursor

/-- Cursors that have been put on a start and moved about. -/
inductive On (start : Site) : Cursor → Prop where
  | start : On start start.cursor
  | child {c : Cursor} {before later : List Tree} {t : Tree} (outer : On start c)
      (split : c.site.tree.children = before ++ t :: later) : On start (c.below ⟨before.length, later⟩ t)

theorem On.at?_place (h : On start c) : start.at? c.place = some c.site := by
  induction h with
  | start => rfl
  | @child c before later t _ split ih =>
    rw [place_below, Site.at?_concat ih, split, List.getElem?_append_right (Nat.le_refl _), Nat.sub_self]
    rfl

theorem length_place (c : Cursor) : c.place.length = c.levels.length := by
  rw [place, List.length_reverse, List.length_map]

/-- A walk has come to its end, or it stands at a place below its start with some property and has counted its depth. -/
def Stands (start : Site) (P : Place → Prop) (position : Option (Cursor × Nat)) : Prop :=
  ∀ c depth, position = some (c, depth) → On start c ∧ depth = c.levels.length ∧ P c.place

/-- A walk stands at the first of the places below its start with some property, or it has come to its end and there are
none. -/
structure GoesOn (start : Site) (P : Place → Prop) (position : Option (Cursor × Nat)) : Prop where
  stands : Stands start P position
  first : ∀ q, (start.at? q).isSome → P q → ∃ c depth, position = some (c, depth) ∧ (c.place = q ∨ c.place.Before q)

theorem GoesOn.some {P : Place → Prop} (h : On start c) (hP : P c.place)
    (hfirst : ∀ q, (start.at? q).isSome → P q → c.place = q ∨ c.place.Before q) :
    GoesOn start P (some (c, c.levels.length)) where
  stands := by
    rintro _ _ ⟨⟩
    exact ⟨h, rfl, hP⟩
  first q hq hPq := ⟨c, _, rfl, hfirst q hq hPq⟩

theorem GoesOn.congr {P Q : Place → Prop} {position : Option (Cursor × Nat)} (h : GoesOn start P position)
    (hPQ : ∀ q, P q ↔ Q q) : GoesOn start Q position where
  stands c depth hc := (h.stands c depth hc).imp_right (·.imp_right (hPQ _).mp)
  first q hq hQq := h.first q hq ((hPQ q).mpr hQq)

/-- A walk that is put on its start stands at the first of all places. -/
theorem goesOn_start (start : Site) : GoesOn start (fun _ => True) (some (start.cursor, 0)) := by
  refine .some .start trivial ?_
  intro q _ _
  exact (List.lex_nil_or_eq_nil q).symm.imp_left Eq.symm

/-- Where a walk goes on when the last ones of the children of a node are left. -/
def resume (c : Cursor) (depth index : Nat) : List Tree → Option (Cursor × Nat)
  | [] => c.advance? depth
  | t :: later => some (c.below ⟨index, later⟩ t, depth + 1)

theorem next?_descend (c : Cursor) (depth : Nat) : c.next? depth .descend = c.resume depth 0 c.site.tree.children := by
  unfold next? firstChild?
  cases c.site.tree.children with
  | nil => rfl
  | cons t later => rfl

theorem advance?_below (c : Cursor) (t : Tree) (index depth : Nat) (later : List Tree) :
    (c.below ⟨index, later⟩ t).advance? (depth + 1) = c.resume depth (index + 1) later := by
  cases later with
  | nil => rfl
  | cons u later => rfl

/-- A walk resumes at the first child that is left, and else where it goes on behind the parent. -/
theorem On.goesOn_resume (h : On start c) (hadvance : GoesOn start c.place.Behind (c.advance? c.levels.length))
    {before later : List Tree} (hsplit : c.site.tree.children = before ++ later) :
    GoesOn start (fun q => c.place.Behind q ∨ ∃ j rest, before.length ≤ j ∧ q = c.place ++ j :: rest)
      (c.resume c.levels.length before.length later) := by
  cases later with
  | nil =>
    refine ⟨fun c' depth hc' => (hadvance.stands c' depth hc').imp_right (·.imp_right .inl), ?_⟩
    rintro q hq (hbehind | ⟨j, rest, hle, rfl⟩)
    · exact hadvance.first q hq hbehind
    · have hj := Site.lt_of_isSome_at? h.at?_place hq
      rw [hsplit, List.append_nil] at hj
      exact absurd hle (Nat.not_le.mpr hj)
  | cons t later =>
    refine .some (h.child hsplit) ?_ ?_
    · rw [place_below]
      exact .inr ⟨before.length, [], Nat.le_refl _, rfl⟩
    · rw [place_below]
      rintro q _ (hbehind | ⟨j, rest, hle, rfl⟩)
      · exact .inr (hbehind.append _).1
      · exact Place.concat_eq_or_before hle rest

/-- A cursor advances to the first place behind its node. -/
theorem On.goesOn_advance? (h : On start c) : GoesOn start c.place.Behind (c.advance? c.levels.length) := by
  induction h with
  | start => exact ⟨nofun, fun q _ hq => absurd List.nil_prefix hq.2⟩
  | @child c before later t outer split ih =>
    have hsplit : c.site.tree.children = (before ++ [t]) ++ later := by rw [split, List.append_assoc]; rfl
    have hresume := outer.goesOn_resume ih hsplit
    rw [List.length_append, List.length_singleton, ← c.advance?_below t] at hresume
    refine hresume.congr fun q => ?_
    rw [place_below, Place.behind_concat_iff]
    exact Iff.rfl

/-- After a visit a walk goes on at the first place that comes after it. -/
theorem On.goesOn_next? (h : On start c) (visit : Visit) :
    GoesOn start (c.place.After visit) (c.next? c.levels.length visit) := by
  cases visit with
  | skip => exact h.goesOn_advance?
  | descend =>
    have hresume := h.goesOn_resume h.goesOn_advance? (List.nil_append c.site.tree.children).symm
    rw [next?_descend]
    refine hresume.congr fun q => ?_
    simp only [List.length_nil, Nat.zero_le, true_and, ← Place.before_iff]
    exact Iff.rfl

end Cursor

/-! ## Runs -/

variable {σ : Type} {f : Visitor σ} {position : Option (Cursor × Nat)} {s out : σ} {calls : List (Call σ)}
  {P : Place → Prop}

namespace Runs

open Cursor

/-- A run is determined by where it begins. -/
theorem unique (h : Runs f position s calls out) {calls' : List (Call σ)} {out' : σ}
    (h' : Runs f position s calls' out') : calls' = calls ∧ out' = out := by
  induction h generalizing calls' out' with
  | finish s =>
    cases h'
    exact ⟨rfl, rfl⟩
  | visit _ ih =>
    cases h' with
    | visit rest' =>
      obtain ⟨rfl, rfl⟩ := ih rest'
      exact ⟨rfl, rfl⟩

/-- All visits are at or below the start, at their depth, and keep a property that passes on to later places. -/
theorem stand (h : Runs f position s calls out) (hstands : Stands start P position)
    (hlater : ∀ p q, P p → p.Before q → P q) :
    ∀ call ∈ calls, On start call.cursor ∧ call.depth = call.place.length ∧ P call.place := by
  induction h with
  | finish s => exact nofun
  | @visit c depth s out calls rest ih =>
    obtain ⟨hon, rfl, hc⟩ := hstands c depth rfl
    refine List.forall_mem_cons.mpr ⟨⟨hon, (length_place c).symm, hc⟩, ih ?_⟩
    intro c' depth' hc'
    obtain ⟨hon', hdepth', hafter⟩ := (hon.goesOn_next? _).stands c' depth' hc'
    exact ⟨hon', hdepth', hlater _ _ hc hafter.before⟩

/-- The visits come in pre-order, and none is below a node that an earlier one skipped. -/
theorem pairwise_after (h : Runs f position s calls out) (hstands : Stands start P position) :
    calls.Pairwise fun a b => a.place.After (a.answer f) b.place := by
  induction h generalizing P with
  | finish s => exact .nil
  | @visit c depth s out calls rest ih =>
    obtain ⟨hon, rfl, -⟩ := hstands c depth rfl
    have hnext := (hon.goesOn_next? (f s c.levels.length c.site).2).stands
    refine List.pairwise_cons.mpr ⟨?_, ih hnext⟩
    intro b hb
    exact (rest.stand hnext (fun _ _ => Place.After.trans_before) b hb).2.2

/-- Visits around a visited node let the walk go on below. -/
theorem answer_of_around (h : Runs f position s calls out) (hstands : Stands start P position) {a b : Call σ}
    (ha : a ∈ calls) (hb : b ∈ calls) (hin : a.place <+: b.place) (hne : a.place ≠ b.place) : a.answer f = .descend := by
  have hafter := h.pairwise_after hstands
  have hall : ∀ a ∈ calls, ∀ b ∈ calls, a.place <+: b.place → a.place ≠ b.place → a.answer f = .descend := by
    refine List.Pairwise.forall_of_forall_of_flip (fun _ _ _ hne => absurd rfl hne) ?_ ?_
    · refine hafter.imp fun {a b} hab hin _ => ?_
      cases hanswer : a.answer f with
      | descend => rfl
      | skip =>
        rw [hanswer] at hab
        exact absurd hin hab.2
    · -- a node comes before what lies below it, so it is not visited afterwards
      refine hafter.imp fun {a b} hab hin hne => ?_
      exact absurd (hab.before.trans (Place.before_of_isPrefix hin hne)) (Place.Before.irrefl _)
  exact hall a ha b hb hin hne

/-- A place that is still to come is visited, unless a visit around it skips what is below. -/
theorem exists_call (h : Runs f position s calls out) (hgoes : GoesOn start P position) (hq : (start.at? q).isSome)
    (hPq : P q) (hopen : ∀ call ∈ calls, call.place <+: q → call.place ≠ q → call.answer f = .descend) :
    ∃ call ∈ calls, call.place = q := by
  induction h generalizing P with
  | finish s =>
    obtain ⟨c, depth, hnone, -⟩ := hgoes.first q hq hPq
    cases hnone
  | @visit c depth s out calls rest ih =>
    obtain ⟨hon, rfl, -⟩ := hgoes.stands c depth rfl
    obtain ⟨_, _, ⟨⟩, hfirst⟩ := hgoes.first q hq hPq
    rcases hfirst with heq | hbefore
    · exact ⟨_, List.mem_cons_self, heq⟩
    · obtain ⟨hhere, hlater⟩ := List.forall_mem_cons.mp hopen
      have hafter : c.place.After (f s c.levels.length c.site).2 q := by
        cases hanswer : (f s c.levels.length c.site).2 with
        | descend => exact hbefore
        | skip =>
          refine ⟨hbefore, fun hin => ?_⟩
          have hdescend : (f s c.levels.length c.site).2 = .descend := hhere hin hbefore.ne
          rw [hanswer] at hdescend
          cases hdescend
      obtain ⟨call, hcall, hplace⟩ := ih (hon.goesOn_next? _) hafter hlater
      exact ⟨call, List.mem_cons_of_mem _ hcall, hplace⟩

end Runs

/-! ### The end of a walk -/

/-- A walk comes to its end, in some state. -/
def Ends (f : Visitor σ) (position : Option (Cursor × Nat)) (s out : σ) : Prop :=
  ∃ calls, Runs f position s calls out

theorem Ends.visit {depth : Nat} (h : Ends f (c.next? depth (f s depth c.site).2) (f s depth c.site).1 out) :
    Ends f (some (c, depth)) s out := by
  obtain ⟨calls, hcalls⟩ := h
  exact ⟨_, .visit hcalls⟩

mutual

/-- A walk that comes to a tree ends as it does behind the tree, from the state that the tree leaves. -/
theorem ends_tree (t : Tree) (ancestors : List Tree) (levels : List Level) (depth : Nat) (s : σ)
    (h : Ends f ((Cursor.mk ⟨t, ancestors⟩ levels).advance? depth) (walkTree f ancestors depth t s) out) :
    Ends f (some (⟨⟨t, ancestors⟩, levels⟩, depth)) s out := by
  cases t with
  | node tag children =>
    rw [walkTree] at h
    refine .visit ?_
    generalize f s depth ⟨.node tag children, ancestors⟩ = visited at h ⊢
    obtain ⟨s', visit⟩ := visited
    cases visit with
    | skip => exact h
    | descend =>
      rw [Cursor.next?_descend]
      exact ends_forest children ⟨⟨.node tag children, ancestors⟩, levels⟩ 0 depth s' h

theorem ends_forest (forest : List Tree) (c : Cursor) (index depth : Nat) (s : σ)
    (h : Ends f (c.advance? depth) (walkForest f (c.site.tree :: c.site.ancestors) (depth + 1) forest s) out) :
    Ends f (c.resume depth index forest) s out := by
  cases forest with
  | nil => exact h
  | cons t rest =>
    rw [walkForest] at h
    have hrest := ends_forest rest c (index + 1) depth _ h
    rw [← c.advance?_below t index] at hrest
    exact ends_tree t _ _ _ s hrest

end

/-- Every walk comes to its end, in the state of the walk by recursion on the tree. -/
theorem ends_walk (f : Visitor σ) (start : Site) (s : σ) : Ends f (some (start.cursor, 0)) s (start.walk f s) :=
  ends_tree start.tree start.ancestors [] 0 s ⟨[], .finish _⟩

theorem Ends.unique {out' : σ} (h : Ends f position s out) (h' : Ends f position s out') : out = out' := by
  obtain ⟨calls, hcalls⟩ := h
  obtain ⟨calls', hcalls'⟩ := h'
  exact (hcalls'.unique hcalls).2

/-- What a visit is told: the state so far, the depth and the node. -/
def Call.told (call : Call σ) : σ × Nat × Site :=
  (call.state, call.depth, call.cursor.site)

/-- The same visits, which also keep a list of what they have been told. -/
def recording (f : Visitor σ) : Visitor (σ × List (σ × Nat × Site)) :=
  fun s depth site => (((f s.1 depth site).1, s.2 ++ [(s.1, depth, site)]), (f s.1 depth site).2)

theorem Runs.ends_recording (h : Runs f position s calls out) (told : List (σ × Nat × Site)) :
    Ends (recording f) position (s, told) (out, told ++ calls.map Call.told) := by
  induction h generalizing told with
  | finish s =>
    rw [List.map_nil, List.append_nil]
    exact ⟨[], .finish _⟩
  | @visit c depth s out calls _ ih =>
    have hrest := ih (told ++ [(s, depth, c.site)])
    rw [List.append_assoc] at hrest
    exact .visit hrest

/-- A walk with a cursor, whatever its visits answer and whichever state they build up, comes to its end after visits that
are determined by its start. Walking by recursion on the tree ends in the same state, after visits that are told the same.
The visits come in pre-order, so no place is visited twice. Each is at or below the start, and its depth is the distance
from there. A place is visited just when there is a node, and all visits around it, up to the start, let the walk go on
below. So as many nodes are counted as there are at and below the start. -/
theorem Site.walk_visits_unskipped_once (f : Visitor σ) (start : Site) (s : σ) : ∃ calls : List (Call σ),
    (∀ calls' out, Runs f (some (start.cursor, 0)) s calls' out ↔ calls' = calls ∧ out = start.walk f s) ∧
    start.walk (recording f) (s, []) = (start.walk f s, calls.map Call.told) ∧
    (calls.Pairwise fun a b => a.place.Before b.place) ∧
    (∀ call ∈ calls, start.at? call.place = some call.cursor.site ∧ call.depth = call.place.length) ∧
    (∀ place : Place, (∃ call ∈ calls, call.place = place) ↔ (start.at? place).isSome ∧
      ∀ call ∈ calls, call.place <+: place → call.place ≠ place → call.answer f = .descend) ∧
    start.countNodes.1 = start.tree.nodes.length := by
  obtain ⟨calls, hruns⟩ := ends_walk f start s
  have hgoes := Cursor.goesOn_start start
  have hstand := hruns.stand hgoes.stands fun _ _ _ _ => trivial
  refine ⟨calls, ?_, ?_, (hruns.pairwise_after hgoes.stands).imp Place.After.before, ?_, ?_, ?_⟩
  · intro calls' out
    constructor
    · exact hruns.unique
    · rintro ⟨rfl, rfl⟩
      exact hruns
  · exact (ends_walk (recording f) start (s, [])).unique (hruns.ends_recording [])
  · intro call hcall
    obtain ⟨hon, hdepth, -⟩ := hstand call hcall
    exact ⟨hon.at?_place, hdepth⟩
  · intro place
    constructor
    · rintro ⟨call, hcall, rfl⟩
      have hsite := (hstand call hcall).1.at?_place
      exact ⟨Option.isSome_of_eq_some hsite, fun a ha => hruns.answer_of_around hgoes.stands ha hcall⟩
    · rintro ⟨hplace, hopen⟩
      exact hruns.exists_call hgoes hplace trivial hopen
  · rw [countNodes_eq]

end CodeAtlas.Syntax
