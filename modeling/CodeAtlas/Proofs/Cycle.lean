/-
  Cycles and reachability.

  `reach` finds exactly what can be reached (`mem_reach`): the search never leaves the reachable nodes, and it cannot run
  out of fuel, because each step expands another node and all but the first are targets of edges (`Search`).  From there
  the report is read off: its cycles are the classes of mutual reachability that hold an edge, and an edge is circular
  exactly when its target reaches its source.  Without its circular edges a graph has no cycle left.
-/
import CodeAtlas.Analysis
import CodeAtlas.Proofs.Increasing
import Mathlib.Data.Finset.Card
import Mathlib.Data.List.Lex
import Mathlib.Logic.Relation

namespace CodeAtlas.Cycle

/-- There is an edge from one node to another. -/
def Step (arcs : List Arc) (a b : String) : Prop :=
  (a, b) ∈ arcs

/-- A node can be reached from another in zero or more steps. -/
def Reaches (arcs : List Arc) : String → String → Prop :=
  Relation.ReflTransGen (Step arcs)

/-- Two nodes reach each other. -/
def Mutual (arcs : List Arc) (a b : String) : Prop :=
  Reaches arcs a b ∧ Reaches arcs b a

theorem Mutual.refl (arcs : List Arc) (a : String) : Mutual arcs a a :=
  ⟨Relation.ReflTransGen.refl, Relation.ReflTransGen.refl⟩

theorem Mutual.symm {arcs : List Arc} {a b : String} (h : Mutual arcs a b) : Mutual arcs b a :=
  ⟨h.2, h.1⟩

theorem Mutual.trans {arcs : List Arc} {a b c : String} (h : Mutual arcs a b) (h' : Mutual arcs b c) :
    Mutual arcs a c :=
  ⟨h.1.trans h'.1, h'.2.trans h.2⟩

/-! ## The search -/

theorem mem_successors {arcs : List Arc} {a b : String} : b ∈ successors arcs a ↔ Step arcs a b := by
  simp [successors, Step]

theorem mem_unseen {a : String} {seen l : List String} : a ∈ unseen seen l ↔ a ∈ l ∧ a ∉ seen := by
  induction l generalizing seen with
  | nil => simp [unseen]
  | cons b l ih =>
    unfold unseen
    by_cases hb : b ∈ seen
    · rw [if_pos (by simpa using hb), ih]
      constructor
      · rintro ⟨hl, hs⟩
        exact ⟨List.mem_cons_of_mem b hl, hs⟩
      · rintro ⟨hl, hs⟩
        refine ⟨(List.mem_cons.mp hl).resolve_left ?_, hs⟩
        rintro rfl
        exact hs hb
    · rw [if_neg (by simpa using hb), List.mem_cons, ih, List.mem_cons, List.mem_cons]
      by_cases hab : a = b
      · simp [hab, hb]
      · simp [hab]

theorem nodup_unseen (seen l : List String) : (unseen seen l).Nodup := by
  induction l generalizing seen with
  | nil => exact List.nodup_nil
  | cons b l ih =>
    unfold unseen
    by_cases hb : seen.contains b
    · rw [if_pos hb]
      exact ih seen
    · rw [if_neg hb]
      refine List.nodup_cons.mpr ⟨?_, ih (b :: seen)⟩
      intro hmem
      exact (mem_unseen.mp hmem).2 (List.mem_cons_self ..)

/-- The targets of the edges. -/
def targets (arcs : List Arc) : Finset String :=
  (arcs.map (·.2)).toFinset

theorem mem_targets {arcs : List Arc} {a b : String} (h : Step arcs a b) : b ∈ targets arcs := by
  simp only [targets, List.mem_toFinset, List.mem_map]
  exact ⟨(a, b), h, rfl⟩

/-- The state of a search from `a`: what is seen is reachable, the successors of seen nodes are seen unless the node
still waits, and the fuel pays for the waiting nodes and for the targets that are not seen yet. -/
structure Search (arcs : List Arc) (a : String) (fuel : Nat) (todo seen : List String) : Prop where
  start : a ∈ seen
  sound : ∀ b ∈ seen, Reaches arcs a b
  waiting : ∀ b ∈ todo, b ∈ seen
  closed : ∀ b ∈ seen, b ∉ todo → ∀ c, Step arcs b c → c ∈ seen
  paid : todo.length + (targets arcs \ seen.toFinset).card ≤ fuel

theorem search_start (arcs : List Arc) (a : String) : Search arcs a (arcs.length + 1) [a] [a] := by
  refine ⟨List.mem_singleton_self a, ?_, fun b hb => hb, ?_, ?_⟩
  · intro b hb
    rw [List.mem_singleton.mp hb]
    exact Relation.ReflTransGen.refl
  · intro b hb hnot
    exact absurd hb hnot
  · have hsub : (targets arcs \ [a].toFinset).card ≤ (targets arcs).card :=
      Finset.card_le_card Finset.sdiff_subset
    have hlen : (targets arcs).card ≤ arcs.length := by
      have := List.toFinset_card_le (arcs.map (·.2))
      rwa [List.length_map] at this
    rw [List.length_singleton]
    omega

/-- Expanding a node adds as many seen targets as waiting nodes, so that one unit of fuel is used. -/
theorem Search.expand {arcs : List Arc} {a b : String} {fuel : Nat} {todo seen : List String}
    (h : Search arcs a (fuel + 1) (b :: todo) seen) :
    Search arcs a fuel (todo ++ unseen seen (successors arcs b)) (seen ++ unseen seen (successors arcs b)) := by
  have hb : b ∈ seen := h.waiting b (List.mem_cons_self ..)
  refine ⟨List.mem_append_left _ h.start, ?_, ?_, ?_, ?_⟩
  · intro c hc
    rcases List.mem_append.mp hc with hc | hc
    · exact h.sound c hc
    · exact (h.sound b hb).tail (mem_successors.mp (mem_unseen.mp hc).1)
  · intro c hc
    rcases List.mem_append.mp hc with hc | hc
    · exact List.mem_append_left _ (h.waiting c (List.mem_cons_of_mem b hc))
    · exact List.mem_append_right _ hc
  · intro c hc hnot d hcd
    have hd : d ∈ seen ∨ d ∉ seen := em _
    have hct : c ∉ todo := fun hct => hnot (List.mem_append_left _ hct)
    have hcn : c ∉ unseen seen (successors arcs b) := fun hcn => hnot (List.mem_append_right _ hcn)
    have hcs : c ∈ seen := (List.mem_append.mp hc).resolve_right hcn
    rcases hd with hd | hd
    · exact List.mem_append_left _ hd
    · by_cases hcb : c = b
      · subst hcb
        exact List.mem_append_right _ (mem_unseen.mpr ⟨mem_successors.mpr hcd, hd⟩)
      · have hcw : c ∉ b :: todo := by simp [hcb, hct]
        exact absurd (h.closed c hcs hcw d hcd) hd
  · have hnew : (unseen seen (successors arcs b)).toFinset ⊆ targets arcs \ seen.toFinset := by
      intro c hc
      obtain ⟨hsucc, hns⟩ := mem_unseen.mp (List.mem_toFinset.mp hc)
      rw [Finset.mem_sdiff, List.mem_toFinset]
      exact ⟨mem_targets (mem_successors.mp hsucc), hns⟩
    have hsplit : targets arcs \ (seen ++ unseen seen (successors arcs b)).toFinset =
        (targets arcs \ seen.toFinset) \ (unseen seen (successors arcs b)).toFinset := by
      rw [List.toFinset_append, Finset.sdiff_union_distrib, Finset.sdiff_sdiff_left', Finset.inter_comm]
    have hcard := Finset.card_sdiff_add_card_eq_card hnew
    have hlen : (unseen seen (successors arcs b)).toFinset.card = (unseen seen (successors arcs b)).length :=
      List.toFinset_card_of_nodup (nodup_unseen seen _)
    have hpaid := h.paid
    rw [List.length_cons] at hpaid
    rw [hsplit, List.length_append]
    omega

/-- A search that has its fuel ends with nothing waiting. -/
theorem Search.finish {arcs : List Arc} {a : String} {fuel : Nat} {todo seen : List String}
    (h : Search arcs a fuel todo seen) : ∃ left, Search arcs a left [] (Cycle.expand arcs fuel todo seen) := by
  induction fuel generalizing todo seen with
  | zero =>
    have hpaid := h.paid
    have htodo : todo = [] := List.eq_nil_of_length_eq_zero (by omega)
    subst htodo
    exact ⟨0, h⟩
  | succ fuel ih =>
    cases todo with
    | nil => exact ⟨fuel + 1, h⟩
    | cons b todo => exact ih h.expand

/-- The search finds what can be reached, and nothing else. -/
theorem mem_reach {arcs : List Arc} {a b : String} : b ∈ reach arcs a ↔ Reaches arcs a b := by
  obtain ⟨left, h⟩ := (search_start arcs a).finish
  constructor
  · intro hb
    exact h.sound b hb
  · intro hab
    induction hab with
    | refl => exact h.start
    | tail _ hcd ih => exact h.closed _ ih List.not_mem_nil _ hcd

/-! ## Classes -/

theorem mem_nodes {arcs : List Arc} {a : String} : a ∈ nodes arcs ↔ ∃ b, Step arcs a b ∨ Step arcs b a := by
  unfold nodes Step
  rw [mem_sortedDistinct]
  simp only [List.mem_flatMap, List.mem_cons, List.not_mem_nil, or_false]
  constructor
  · rintro ⟨⟨x, y⟩, he, rfl | rfl⟩
    · exact ⟨y, Or.inl he⟩
    · exact ⟨x, Or.inr he⟩
  · rintro ⟨b, he | he⟩
    · exact ⟨(a, b), he, Or.inl rfl⟩
    · exact ⟨(b, a), he, Or.inr rfl⟩

/-- The class of a node, as read off the table of what each node reaches. -/
def classIn (arcs : List Arc) (a : String) : List String :=
  classOf (reachTable arcs) (a, reach arcs a)

theorem classIn_eq (arcs : List Arc) (a : String) :
    classIn arcs a = (nodes arcs).filter fun b => (reach arcs a).contains b && (reach arcs b).contains a := by
  unfold classIn classOf reachTable
  rw [List.filter_map, List.map_map]
  exact List.map_id _

theorem increasing_classIn (arcs : List Arc) (a : String) : Increasing (classIn arcs a) := by
  rw [classIn_eq]
  exact List.Pairwise.filter _ (increasing_sortedDistinct _)

theorem mem_classIn {arcs : List Arc} {a b : String} : b ∈ classIn arcs a ↔ b ∈ nodes arcs ∧ Mutual arcs a b := by
  rw [classIn_eq, List.mem_filter, Bool.and_eq_true, List.contains_iff_mem, List.contains_iff_mem, mem_reach, mem_reach]
  rfl

/-- A node with an edge to another one it reaches, or to itself, is a node of the graph. -/
theorem mem_nodes_of_reaches {arcs : List Arc} {a b : String} (h : Reaches arcs a b) (hne : a ≠ b) :
    a ∈ nodes arcs := by
  rcases Relation.ReflTransGen.cases_head h with hab | ⟨c, hac, _⟩
  · exact absurd hab hne
  · exact mem_nodes.mpr ⟨c, Or.inl hac⟩

/-- A strictly increasing list of all nodes that reach a given node and are reached by it, of which there are several
unless the node has an edge to itself. -/
def IsCycle (arcs : List Arc) (c : List String) : Prop :=
  Increasing c ∧ ∃ a, (∀ b, b ∈ c ↔ Mutual arcs a b) ∧ (2 ≤ c.length ∨ Step arcs a a)

theorem IsCycle.mem_nodes {arcs : List Arc} {c : List String} (h : IsCycle arcs c) {b : String} (hb : b ∈ c) :
    b ∈ nodes arcs := by
  obtain ⟨hinc, a, hmem, hsize⟩ := h
  have hab : Mutual arcs a b := (hmem b).mp hb
  by_cases hne : b = a
  · subst hne
    rcases hsize with hlen | hloop
    · -- a second member is reached by `b` and differs from it
      have hcard : 1 < c.toFinset.card := by
        rw [List.toFinset_card_of_nodup hinc.nodup]
        exact hlen
      obtain ⟨d, hd, hdb⟩ := Finset.exists_mem_ne hcard b
      exact mem_nodes_of_reaches ((hmem d).mp (List.mem_toFinset.mp hd)).1 (Ne.symm hdb)
    · exact Cycle.mem_nodes.mpr ⟨b, Or.inl hloop⟩
  · exact mem_nodes_of_reaches hab.2 hne

/-- A cycle is the class of each of its members. -/
theorem IsCycle.eq_classIn {arcs : List Arc} {c : List String} (h : IsCycle arcs c) {b : String} (hb : b ∈ c) :
    c = classIn arcs b := by
  have hnodes : ∀ d ∈ c, d ∈ nodes arcs := fun d hd => h.mem_nodes hd
  obtain ⟨hinc, a, hmem, _⟩ := h
  have hab : Mutual arcs a b := (hmem b).mp hb
  refine eq_of_increasing hinc (increasing_classIn arcs b) fun d => ?_
  rw [mem_classIn]
  constructor
  · intro hd
    exact ⟨hnodes d hd, hab.symm.trans ((hmem d).mp hd)⟩
  · rintro ⟨_, hbd⟩
    exact (hmem d).mpr (hab.trans hbd)

/-! ## The report -/

theorem cycleAt?_eq_some {arcs : List Arc} {a : String} {c : List String} :
    cycleAt? arcs (reachTable arcs) (a, reach arcs a) = some c ↔
      c = classIn arcs a ∧ c.head? = some a ∧ (2 ≤ c.length ∨ Step arcs a a) := by
  show (if (classIn arcs a).head? == some a && (decide (1 < (classIn arcs a).length) || arcs.contains (a, a))
    then some (classIn arcs a) else none) = some c ↔ _
  rw [Option.ite_none_right_eq_some, Option.some_inj, Bool.and_eq_true, Bool.or_eq_true, beq_iff_eq,
    decide_eq_true_eq, List.contains_iff_mem]
  constructor
  · rintro ⟨⟨hhead, hsize⟩, rfl⟩
    exact ⟨rfl, hhead, hsize⟩
  · rintro ⟨rfl, hhead, hsize⟩
    exact ⟨⟨hhead, hsize⟩, rfl⟩

theorem cycles_eq (arcs : List Arc) :
    (detect arcs).cycles = (nodes arcs).filterMap fun a => cycleAt? arcs (reachTable arcs) (a, reach arcs a) := by
  show (reachTable arcs).filterMap (cycleAt? arcs (reachTable arcs)) = _
  conv_lhs => rw [reachTable]
  rw [List.filterMap_map]
  rfl

/-- The cycles of the report are the cycles of the graph. -/
theorem mem_cycles {arcs : List Arc} {c : List String} : c ∈ (detect arcs).cycles ↔ IsCycle arcs c := by
  rw [cycles_eq, List.mem_filterMap]
  constructor
  · rintro ⟨a, ha, hc⟩
    obtain ⟨rfl, hhead, hsize⟩ := cycleAt?_eq_some.mp hc
    refine ⟨increasing_classIn arcs a, a, fun b => ?_, hsize⟩
    rw [mem_classIn, and_iff_right_iff_imp]
    intro hab
    by_cases hne : b = a
    · exact hne ▸ ha
    · exact mem_nodes_of_reaches hab.2 hne
  · intro h
    obtain ⟨a, hmem, hsize⟩ := h.2
    cases c with
    | nil => exact absurd ((hmem a).mpr (Mutual.refl arcs a)) List.not_mem_nil
    | cons m c =>
      have hm : m ∈ m :: c := List.mem_cons_self ..
      refine ⟨m, h.mem_nodes hm, cycleAt?_eq_some.mpr ⟨h.eq_classIn hm, rfl, ?_⟩⟩
      rcases hsize with hlen | hloop
      · exact Or.inl hlen
      · cases c with
        | nil =>
          have ha : a = m := List.mem_singleton.mp ((hmem a).mpr (Mutual.refl arcs a))
          exact Or.inr (ha ▸ hloop)
        | cons d c => exact Or.inl (by simp)

/-- Two cycles of a report, the first one found at a smaller node, have nothing in common. -/
theorem disjoint_of_lt {arcs : List Arc} {a b : String} (hab : a < b) {c d : List String}
    (hc : cycleAt? arcs (reachTable arcs) (a, reach arcs a) = some c)
    (hd : cycleAt? arcs (reachTable arcs) (b, reach arcs b) = some d) : List.Disjoint c d := by
  obtain ⟨rfl, hca, _⟩ := cycleAt?_eq_some.mp hc
  obtain ⟨rfl, hdb, _⟩ := cycleAt?_eq_some.mp hd
  intro x hxc hxd
  have hax : Mutual arcs a x := (mem_classIn.mp hxc).2
  have hbx : Mutual arcs b x := (mem_classIn.mp hxd).2
  have ha : a ∈ classIn arcs b := by
    have hmem : a ∈ classIn arcs a := List.mem_of_mem_head? hca
    exact mem_classIn.mpr ⟨(mem_classIn.mp hmem).1, hbx.trans hax.symm⟩
  -- `b` is the least member of its class
  obtain ⟨rest, hrest⟩ := List.head?_eq_some_iff.mp hdb
  have hinc := increasing_classIn arcs b
  rw [hrest] at hinc ha
  exact absurd hab (not_lt_of_ge (hinc.head_le ha))

theorem disjoint_cycles (arcs : List Arc) : (detect arcs).cycles.Pairwise List.Disjoint := by
  rw [cycles_eq, List.pairwise_filterMap]
  exact (increasing_sortedDistinct _).imp fun hab c hc d hd => disjoint_of_lt hab hc hd

theorem increasing_cycles (arcs : List Arc) : Increasing (detect arcs).cycles := by
  unfold Increasing
  rw [cycles_eq, List.pairwise_filterMap]
  refine (increasing_sortedDistinct _).imp fun hab c hc d hd => ?_
  obtain ⟨c', rfl⟩ := List.head?_eq_some_iff.mp (cycleAt?_eq_some.mp hc).2.1
  obtain ⟨d', rfl⟩ := List.head?_eq_some_iff.mp (cycleAt?_eq_some.mp hd).2.1
  exact List.cons_lt_cons_iff.mpr (Or.inl hab)

/-- A list of all cycles of a graph, pairwise disjoint and in increasing order. -/
structure ListsCycles (arcs : List Arc) (cycles : List (List String)) : Prop where
  mem_iff : ∀ c, c ∈ cycles ↔ IsCycle arcs c
  disjoint : cycles.Pairwise List.Disjoint
  increasing : Increasing cycles

theorem listsCycles_detect (arcs : List Arc) : ListsCycles arcs (detect arcs).cycles :=
  ⟨fun _ => mem_cycles, disjoint_cycles arcs, increasing_cycles arcs⟩

/-- The source of an edge whose target leads back to it lies on a cycle. -/
theorem isCycle_of_step {arcs : List Arc} {a b : String} (hab : Step arcs a b) (hba : Reaches arcs b a) :
    IsCycle arcs (classIn arcs a) := by
  have hnode : ∀ x, Mutual arcs a x → x ∈ nodes arcs := by
    intro x hax
    by_cases hne : x = a
    · exact hne ▸ mem_nodes.mpr ⟨b, Or.inl hab⟩
    · exact mem_nodes_of_reaches hax.2 hne
  have hmem : ∀ x, x ∈ classIn arcs a ↔ Mutual arcs a x := fun x =>
    mem_classIn.trans (and_iff_right_of_imp (hnode x))
  refine ⟨increasing_classIn arcs a, a, hmem, ?_⟩
  by_cases hne : a = b
  · exact Or.inr (hne ▸ hab)
  · have ha : a ∈ classIn arcs a := (hmem a).mpr (Mutual.refl arcs a)
    have hb : b ∈ classIn arcs a := (hmem b).mpr ⟨Relation.ReflTransGen.single hab, hba⟩
    have hcard : 1 < (classIn arcs a).toFinset.card :=
      Finset.one_lt_card.mpr ⟨a, List.mem_toFinset.mpr ha, b, List.mem_toFinset.mpr hb, hne⟩
    rw [List.toFinset_card_of_nodup (increasing_classIn arcs a).nodup] at hcard
    exact Or.inl hcard

theorem share_iff {arcs : List Arc} {a b : String} :
    share (detect arcs).cycles a b = true ↔ ∃ c, IsCycle arcs c ∧ a ∈ c ∧ b ∈ c := by
  simp only [share, List.any_eq_true, Bool.and_eq_true, List.contains_iff_mem, mem_cycles]

/-- An edge is circular exactly when its target reaches its source. -/
theorem isCircular_iff {arcs : List Arc} {a b : String} :
    (detect arcs).isCircular a b = true ↔ Step arcs a b ∧ Reaches arcs b a := by
  have hcirc : (detect arcs).isCircular a b = true ↔ Step arcs a b ∧ share (detect arcs).cycles a b = true := by
    unfold Report.isCircular
    rw [List.contains_iff_mem]
    exact List.mem_filter
  rw [hcirc, share_iff]
  constructor
  · rintro ⟨hab, c, ⟨_, x, hmem, _⟩, ha, hb⟩
    exact ⟨hab, (((hmem b).mp hb).symm.trans ((hmem a).mp ha)).1⟩
  · rintro ⟨hab, hba⟩
    have hnodes : a ∈ nodes arcs ∧ b ∈ nodes arcs := ⟨mem_nodes.mpr ⟨b, Or.inl hab⟩, mem_nodes.mpr ⟨a, Or.inr hab⟩⟩
    refine ⟨hab, classIn arcs a, isCycle_of_step hab hba, ?_, ?_⟩
    · exact mem_classIn.mpr ⟨hnodes.1, Mutual.refl arcs a⟩
    · exact mem_classIn.mpr ⟨hnodes.2, Relation.ReflTransGen.single hab, hba⟩

/-- The relation of the edges that are not circular. -/
def Forward (arcs : List Arc) : String → String → Prop :=
  Step (arcs.filter fun e => !(detect arcs).isCircular e.1 e.2)

theorem forward_iff {arcs : List Arc} {a b : String} : Forward arcs a b ↔ Step arcs a b ∧ ¬ Reaches arcs b a := by
  unfold Forward Step
  rw [List.mem_filter, Bool.not_eq_true', ← Bool.not_eq_true, isCircular_iff]
  unfold Step
  tauto

theorem not_forward_cycle (arcs : List Arc) (a : String) : ¬ Relation.TransGen (Forward arcs) a a := by
  intro h
  obtain ⟨b, hab, hba⟩ := Relation.TransGen.head'_iff.mp h
  have hle : Forward arcs ≤ Step arcs := fun _ _ hxy => (forward_iff.mp hxy).1
  have hback : Reaches arcs b a := Relation.ReflTransGen.mono hle b a hba
  exact (forward_iff.mp hab).2 hback

/-- The report depends on the set of edges alone. -/
theorem detect_congr {arcs arcs' : List Arc} (h : ∀ e, e ∈ arcs' ↔ e ∈ arcs) :
    (detect arcs').cycles = (detect arcs).cycles ∧
      ∀ a b, (detect arcs').isCircular a b = (detect arcs).isCircular a b := by
  have hstep : Step arcs' = Step arcs := funext fun a => funext fun b => propext (h (a, b))
  have hreach : Reaches arcs' = Reaches arcs := congrArg Relation.ReflTransGen hstep
  have hcycle : ∀ c, IsCycle arcs' c ↔ IsCycle arcs c := by
    intro c
    unfold IsCycle Mutual
    rw [hreach, hstep]
  refine ⟨eq_of_increasing (increasing_cycles arcs') (increasing_cycles arcs) fun c => ?_, fun a b => ?_⟩
  · rw [mem_cycles, mem_cycles, hcycle]
  · rw [Bool.eq_iff_iff, isCircular_iff, isCircular_iff, hreach, hstep]

end CodeAtlas.Cycle

namespace CodeAtlas.Analysis

open CodeAtlas.Cycle

/-! ## The dependencies of a project -/

theorem arcs_markCircular (report : Report) (dependencies : List Dependency) :
    arcs (markCircular report dependencies) = arcs dependencies := by
  induction dependencies with
  | nil => rfl
  | cons d rest ih =>
    unfold arcs markCircular at ih ⊢
    cases hd : d.external with
    | true => simpa [hd] using ih
    | false => simpa [hd] using ih

/-- Dependencies are not marked before the cycles are known. -/
theorem isCircular_of_mem_resolveImports {extractions : List Extraction} {profiles : List FileProfile} {d : Dependency}
    (h : d ∈ (resolveImports extractions profiles).1) : d.isCircular = false := by
  simp only [resolveImports, List.mem_filterMap, List.mem_flatMap, List.mem_map, id] at h
  obtain ⟨_, ⟨e, _, i, _, rfl⟩, hd⟩ := h
  unfold dependency? at hd
  dsimp only at hd
  split at hd <;> cases hd <;> rfl

/-- The marks and the cycles of an analysis agree with the reachability along its internal dependencies. -/
structure CyclesReported (r : Analysis) : Prop where
  internal : ∀ d ∈ r.dependencies, d.external = false →
    (d.isCircular = true ↔ Reaches (arcs r.dependencies) d.target d.source)
  external : ∀ d ∈ r.dependencies, d.external = true → d.isCircular = false
  quality : ListsCycles (arcs r.dependencies) r.quality.cycles

theorem cyclesReported_ofExtractions (config : AnalysisConfig) (extractions : List Extraction) :
    CyclesReported (ofExtractions config extractions) := by
  let resolved := (resolveImports extractions (FileProfile.markTested (extractions.map FileProfile.of))).1
  have hdeps : (ofExtractions config extractions).dependencies = markCircular (detect (arcs resolved)) resolved := rfl
  have hcycles : (ofExtractions config extractions).quality.cycles = (detect (arcs resolved)).cycles := rfl
  have harcs : arcs (ofExtractions config extractions).dependencies = arcs resolved := by
    rw [hdeps, arcs_markCircular]
  have hmark : ∀ d ∈ (ofExtractions config extractions).dependencies, ∃ d₀ ∈ resolved,
      (if d₀.external then d₀ else { d₀ with isCircular := (detect (arcs resolved)).isCircular d₀.source d₀.target }) =
        d := by
    intro d hd
    rw [hdeps] at hd
    exact List.mem_map.mp hd
  refine ⟨?_, ?_, ?_⟩
  · intro d hd hint
    obtain ⟨d₀, hd₀, rfl⟩ := hmark d hd
    by_cases hext : d₀.external = true
    · rw [if_pos hext, hext] at hint
      cases hint
    · rw [if_neg hext, harcs]
      have hstep : Step (arcs resolved) d₀.source d₀.target := by
        refine List.mem_map.mpr ⟨d₀, List.mem_filter.mpr ⟨hd₀, ?_⟩, rfl⟩
        simpa using hext
      exact isCircular_iff.trans (and_iff_right hstep)
  · intro d hd hext
    obtain ⟨d₀, hd₀, rfl⟩ := hmark d hd
    by_cases hext₀ : d₀.external = true
    · rw [if_pos hext₀]
      exact isCircular_of_mem_resolveImports hd₀
    · rw [if_neg hext₀] at hext
      exact absurd hext hext₀
  · rw [harcs, hcycles]
    exact listsCycles_detect _

end CodeAtlas.Analysis

namespace CodeAtlas.Cycle

/-- Circular edges are those whose target reaches their source, and the cycles are the classes of mutual reachability
that hold an edge.  The order and the repetition of the edges do not matter, without the circular edges no cycle is left,
and every analysis marks its dependencies and lists its cycles accordingly. -/
theorem detect_reports_mutual_reachability (arcs : List Arc) :
    (∀ a b, (detect arcs).isCircular a b = true ↔ Step arcs a b ∧ Reaches arcs b a) ∧
    ListsCycles arcs (detect arcs).cycles ∧
    (∀ arcs', (∀ e, e ∈ arcs' ↔ e ∈ arcs) →
      (detect arcs').cycles = (detect arcs).cycles ∧
      ∀ a b, (detect arcs').isCircular a b = (detect arcs).isCircular a b) ∧
    (∀ a, ¬ Relation.TransGen (Forward arcs) a a) ∧
    (∀ config extractions, Analysis.CyclesReported (Analysis.ofExtractions config extractions)) :=
  ⟨fun _ _ => isCircular_iff, listsCycles_detect arcs, fun _ h => detect_congr h, not_forward_cycle arcs,
    Analysis.cyclesReported_ofExtractions⟩

/-- A graph with two overlapping loops and a tail, its edges listed once in order and once shuffled with a repetition. -/
theorem detect_reports_mutual_reachability_tail :
    (∀ e, e ∈ [("b", "leaf"), ("b", "a"), ("a", "b"), ("b", "a"), ("b", "b")] ↔
      e ∈ [("a", "b"), ("b", "a"), ("b", "b"), ("b", "leaf")]) ∧
    (detect [("b", "leaf"), ("b", "a"), ("a", "b"), ("b", "a"), ("b", "b")]).cycles =
      (detect [("a", "b"), ("b", "a"), ("b", "b"), ("b", "leaf")]).cycles := by
  have hsame : ∀ e, e ∈ [("b", "leaf"), ("b", "a"), ("a", "b"), ("b", "a"), ("b", "b")] ↔
      e ∈ [("a", "b"), ("b", "a"), ("b", "b"), ("b", "leaf")] := by
    intro e
    simp only [List.mem_cons, List.not_mem_nil]
    tauto
  exact ⟨hsame, ((detect_reports_mutual_reachability _).2.2.1 _ hsame).1⟩

example : (detect [("a", "b"), ("b", "a"), ("b", "b"), ("b", "leaf")]).cycles = [["a", "b"]] := by
  cbv

end CodeAtlas.Cycle
