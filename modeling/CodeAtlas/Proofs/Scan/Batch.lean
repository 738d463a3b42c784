/-
  The life of one batch.

  `Coordinator.only` is what the coordinator knows of one batch; an announcement changes that of its own batch, and of no
  other (`only_receive`, `only_receive_of_ne`).  A batch waits, is announced, runs, and is then completed, failed or given
  up (`Stage`); while it runs, the announcements on their way and the work of its worker together still owe one outcome
  for each of its other files, in order (`Owed`).  Whatever a worker or the coordinator does takes a batch from stage to
  stage.
-/
import CodeAtlas.Scan.Pool
import Mathlib.Data.List.Basic

namespace CodeAtlas.Scan

variable {σ α : Type}

/-- The batch that an announcement is about. -/
def Event.batch : Event α → Nat
  | .started batch | .file batch _ _ | .finished batch | .brokeDown batch _ _ => batch

/-- The batch that a report is about. -/
def Report.batch : Report α → Nat
  | .completed batch _ _ _ | .timedOut batch _ _ | .failed batch _ _ _ => batch

/-- The files of a batch that a worker has taken and not announced yet. -/
def Worker.heldOf (k : Nat) : Worker → Option (List Nat)
  | .taking batch files => if batch = k then some files else none
  | _ => none

/-- The files of a batch whose outcomes a worker has still to announce, if it works on that batch. -/
def Worker.restOf (k : Nat) : Worker → Option (List Nat)
  | .busy batch rest => if batch = k then some rest else none
  | .scanning batch index rest => if batch = k then some (index :: rest) else none
  | _ => none

/-! ## The coordinator and one batch -/

/-- What is known about the scan of each file, given by its position: how it may end, and how it may break down. -/
structure Promise (α : Type) where
  outcome : Nat → Except Failure α → Prop
  breakdown : Nat → String → Prop

/-- The results among outcomes. -/
def valuesOf (outs : List (Nat × Except Failure α)) : List (Nat × α) :=
  outs.filterMap fun o => o.2.toOption.map fun a => (o.1, a)

/-- The failures among outcomes, recorded against the files. -/
def failuresOf (pathOf : Nat → String) (outs : List (Nat × Except Failure α)) : List FileError :=
  outs.filterMap fun o =>
    match o.2 with
    | .ok _ => none
    | .error f => some (.atPath (pathOf o.1) f)

namespace Coordinator

/-- What a batch has yielded when these are its outcomes so far. -/
def Running.of (pathOf : Nat → String) (k : Nat) (outs : List (Nat × Except Failure α)) : Running α :=
  ⟨k, valuesOf outs, failuresOf pathOf outs⟩

theorem Running.add_of (pathOf : Nat → String) (k : Nat) (outs : List (Nat × Except Failure α)) (i : Nat)
    (o : Except Failure α) : Running.add pathOf (Running.of pathOf k outs) i o = Running.of pathOf k (outs ++ [(i, o)]) := by
  cases o with
  | ok a => simp [Running.add, Running.of, valuesOf, failuresOf, Except.toOption]
  | error f => simp [Running.add, Running.of, valuesOf, failuresOf, Except.toOption]

theorem Running.batch_add (pathOf : Nat → String) (r : Running α) (i : Nat) (o : Except Failure α) :
    (Running.add pathOf r i o).batch = r.batch := by
  cases o <;> rfl

/-- What the coordinator knows of one batch. -/
def only (c : Coordinator α) (k : Nat) : Coordinator α :=
  { inFlight := c.inFlight.filter fun r => r.batch == k
    abandoned := c.abandoned.filter fun b => b == k
    reports := c.reports.filter fun r => r.batch == k }

theorem running?_only (c : Coordinator α) (k : Nat) : (c.only k).running? k = c.running? k := by
  unfold running? only
  rw [← List.head?_filter, ← List.head?_filter, List.filter_filter]
  simp

theorem contains_only (c : Coordinator α) (k : Nat) : (c.only k).abandoned.contains k = c.abandoned.contains k := by
  simp [only, List.contains_eq_mem]

theorem only_dismiss (c : Coordinator α) (k : Nat) : (c.dismiss k).only k = (c.only k).dismiss k := by
  simp [dismiss, only, List.filter_filter, Bool.and_comm]

theorem only_dismiss_of_ne (c : Coordinator α) {b k : Nat} (h : b ≠ k) : (c.dismiss b).only k = c.only k := by
  simp only [dismiss, only, List.filter_filter]
  congr 1
  refine List.filter_congr fun r _ => ?_
  grind

theorem only_report (c : Coordinator α) {r : Report α} {k : Nat} (h : r.batch = k) :
    (c.report r).only k = (c.only k).report r := by
  simp [report, only, h]

theorem only_report_of_ne (c : Coordinator α) {r : Report α} {k : Nat} (h : r.batch ≠ k) :
    (c.report r).only k = c.only k := by
  simp [report, only, h]

theorem filter_map_add (pathOf : Nat → String) (b i : Nat) (o : Except Failure α) (k : Nat) (l : List (Running α)) :
    (l.map fun r => if r.batch == b then Running.add pathOf r i o else r).filter (fun r => r.batch == k) =
      (l.filter fun r => r.batch == k).map fun r => if r.batch == b then Running.add pathOf r i o else r := by
  rw [List.filter_map]
  congr 1
  refine List.filter_congr fun r _ => ?_
  simp only [Function.comp]
  split
  · rw [Running.batch_add]
  · rfl

/-- What an announcement does to its own batch, it does from what is known of that batch. -/
theorem only_receive (c : Coordinator α) (filesOf : Nat → List Nat) (pathOf : Nat → String) (e : Event α) :
    (c.receive filesOf pathOf e).only e.batch = (c.only e.batch).receive filesOf pathOf e := by
  cases e with
  | started b =>
    show (receive c filesOf pathOf (.started b)).only b = (c.only b).receive filesOf pathOf (.started b)
    simp [receive, only, dismiss, List.filter_filter, Bool.and_comm]
  | file b i o =>
    show (receive c filesOf pathOf (.file b i o)).only b = (c.only b).receive filesOf pathOf (.file b i o)
    simp only [receive, only, filter_map_add]
  | finished b =>
    show (receive c filesOf pathOf (.finished b)).only b = (c.only b).receive filesOf pathOf (.finished b)
    simp only [receive, contains_only, running?_only]
    split
    · rfl
    · split
      · exact (only_report _ (by rfl)).trans (by rw [only_dismiss])
      · rfl
  | brokeDown b w m =>
    show (receive c filesOf pathOf (.brokeDown b w m)).only b = (c.only b).receive filesOf pathOf (.brokeDown b w m)
    simp only [receive, contains_only]
    split
    · rfl
    · exact (only_report _ (by rfl)).trans (by rw [only_dismiss])

/-- An announcement changes nothing about other batches. -/
theorem only_receive_of_ne (c : Coordinator α) (filesOf : Nat → List Nat) (pathOf : Nat → String) {e : Event α} {k : Nat}
    (h : e.batch ≠ k) : (c.receive filesOf pathOf e).only k = c.only k := by
  cases e with
  | started b =>
    replace h : b ≠ k := h
    rw [← only_dismiss_of_ne c h]
    simp [receive, only, dismiss, h]
  | file b i o =>
    replace h : b ≠ k := h
    simp only [receive, only, filter_map_add]
    congr 1
    refine (List.map_congr_left fun r hr => ?_).trans (List.map_id _)
    have hr' : r.batch = k := by simpa using List.of_mem_filter hr
    rw [if_neg (by rw [beq_iff_eq, hr']; exact Ne.symm h)]
    rfl
  | finished b =>
    replace h : b ≠ k := h
    simp only [receive]
    split
    · rfl
    · split
      · exact (only_report_of_ne _ (by exact h)).trans (only_dismiss_of_ne c h)
      · rfl
  | brokeDown b w m =>
    replace h : b ≠ k := h
    simp only [receive]
    split
    · rfl
    · exact (only_report_of_ne _ (by exact h)).trans (only_dismiss_of_ne c h)

/-- Giving a batch up changes what is known of that batch, from what is known of it. -/
theorem only_abandon (c : Coordinator α) (filesOf : Nat → List Nat) (k t : Nat) :
    (c.abandon filesOf (k, t)).only k = (c.only k).abandon filesOf (k, t) := by
  simp only [abandon, running?_only]
  split
  · simp [only, dismiss, report, Report.batch, List.filter_filter, Bool.and_comm]
  · rfl

/-- Giving a batch up changes nothing about other batches. -/
theorem only_abandon_of_ne (c : Coordinator α) (filesOf : Nat → List Nat) {b k : Nat} (h : b ≠ k) (t : Nat) :
    (c.abandon filesOf (b, t)).only k = c.only k := by
  simp only [abandon]
  split
  · rw [← only_dismiss_of_ne c h]
    simp [only, dismiss, report, Report.batch, h]
  · rfl

/-- What is known of a batch in progress with these outcomes. -/
def during (pathOf : Nat → String) (k : Nat) (outs : List (Nat × Except Failure α)) : Coordinator α :=
  ⟨[Running.of pathOf k outs], [], []⟩

/-- What is known of a batch that ended with a report. -/
def after (r : Report α) : Coordinator α :=
  ⟨[], [], [r]⟩

/-- What is known of a batch that was given up. -/
def gaveUp (k : Nat) (members : List Nat) (nanos : Nat) : Coordinator α :=
  ⟨[], [k], [.timedOut k members nanos]⟩

section Reactions

variable (filesOf : Nat → List Nat) (pathOf : Nat → String) (k : Nat) (outs : List (Nat × Except Failure α))

theorem start_receive_started : (start : Coordinator α).receive filesOf pathOf (.started k) = during pathOf k [] := rfl

theorem during_receive_file (i : Nat) (o : Except Failure α) :
    (during pathOf k outs).receive filesOf pathOf (.file k i o) = during pathOf k (outs ++ [(i, o)]) := by
  unfold during
  rw [← Running.add_of]
  simp [receive, Running.of]

theorem during_receive_finished :
    (during pathOf k outs).receive filesOf pathOf (.finished k) =
      after (.completed k (filesOf k) (valuesOf outs) (failuresOf pathOf outs)) := by
  simp [during, after, receive, running?, dismiss, report, Running.of]

theorem during_receive_brokeDown (worker : Nat) (message : String) :
    (during pathOf k outs).receive filesOf pathOf (.brokeDown k worker message) =
      after (.failed k worker (filesOf k) message) := by
  simp [during, after, receive, dismiss, report, Running.of]

theorem during_abandon (nanos : Nat) :
    (during pathOf k outs).abandon filesOf (k, nanos) = gaveUp k (filesOf k) nanos := by
  simp [during, gaveUp, abandon, running?, dismiss, report, Running.of]

/-- Nothing more is heard of a batch that was given up. -/
theorem gaveUp_receive (members : List Nat) (nanos : Nat) {e : Event α} (hs : ∀ b, e ≠ .started b) :
    (gaveUp e.batch members nanos).receive filesOf pathOf e = gaveUp e.batch members nanos := by
  cases e with
  | started b => exact absurd rfl (hs b)
  | file => rfl
  | finished => simp [gaveUp, receive, Event.batch]
  | brokeDown => simp [gaveUp, receive, Event.batch]

end Reactions

end Coordinator

/-! ## Stages -/

/-- All that a pool knows of one batch. -/
structure View (α : Type) where
  /-- Its files, while it waits to be announced. -/
  waiting : List (List Nat)
  /-- The files whose outcomes its worker has still to announce. -/
  working : List (List Nat)
  /-- The announcements about it that have not arrived. -/
  coming : List (Event α)
  desk : Coordinator α

/-- The announcements on their way and the work of a worker, which together still owe the outcomes of some files. -/
inductive Owed (y : Promise α) (k : Nat) : List Nat → List (Event α) → List (List Nat) → Prop where
  | working (rest : List Nat) : Owed y k rest [] [rest]
  | finished : Owed y k [] [.finished k] []
  | brokeDown {i : Nat} (rest : List Nat) (worker : Nat) {message : String} (h : y.breakdown i message) :
      Owed y k (i :: rest) [.brokeDown k worker message] []
  | file {i : Nat} {o : Except Failure α} {rest : List Nat} {coming : List (Event α)} {working : List (List Nat)}
      (h : y.outcome i o) (owed : Owed y k rest coming working) : Owed y k (i :: rest) (.file k i o :: coming) working

/-- The stages of a batch with its members; there is nothing to know of a batch that does not exist. -/
inductive Stage (y : Promise α) (pathOf : Nat → String) (k : Nat) : Option (List Nat) → View α → Prop where
  | absent : Stage y pathOf k none ⟨[], [], [], .start⟩
  | waiting {members : List Nat} : Stage y pathOf k (some members) ⟨[members], [], [], .start⟩
  | announced {members : List Nat} {coming : List (Event α)} {working : List (List Nat)}
      (owed : Owed y k members coming working) :
      Stage y pathOf k (some members) ⟨[], working, .started k :: coming, .start⟩
  | running {members rest : List Nat} {outs : List (Nat × Except Failure α)} {coming : List (Event α)}
      {working : List (List Nat)} (split : members = outs.map (·.1) ++ rest) (kept : ∀ o ∈ outs, y.outcome o.1 o.2)
      (owed : Owed y k rest coming working) :
      Stage y pathOf k (some members) ⟨[], working, coming, .during pathOf k outs⟩
  | givenUp {members : List Nat} {coming : List (Event α)} {working : List (List Nat)} {nanos : Nat}
      (started : ∀ b, Event.started b ∉ coming) :
      Stage y pathOf k (some members) ⟨[], working, coming, .gaveUp k members nanos⟩
  | completed {members : List Nat} {outs : List (Nat × Except Failure α)} (all : members = outs.map (·.1))
      (kept : ∀ o ∈ outs, y.outcome o.1 o.2) :
      Stage y pathOf k (some members)
        ⟨[], [], [], .after (.completed k members (valuesOf outs) (failuresOf pathOf outs))⟩
  | failed {members : List Nat} {i worker : Nat} {message : String} (hi : i ∈ members) (h : y.breakdown i message) :
      Stage y pathOf k (some members) ⟨[], [], [], .after (.failed k worker members message)⟩

section Transitions

variable {y : Promise α} {pathOf : Nat → String} {k : Nat} {m : Option (List Nat)} {v : View α}

/-- A worker that goes on pays some of what is owed by announcing it. -/
theorem Owed.extend {rest cur : List Nat} {coming last : List (Event α)} {working : List (List Nat)}
    (h : Owed y k rest coming [cur]) (hlast : Owed y k cur last working) : Owed y k rest (coming ++ last) working := by
  generalize hcur : [cur] = w at h
  -- down the announcements, of which the worker is behind the last
  induction h with
  | working rest =>
    cases hcur
    exact hlast
  | finished => cases hcur
  | brokeDown => cases hcur
  | file ho _ ih => exact .file ho (ih hcur)

theorem Owed.working_eq {rest cur : List Nat} {coming : List (Event α)} {l r : List (List Nat)}
    (h : Owed y k rest coming (l ++ cur :: r)) : l = [] ∧ r = [] ∧ ∀ i ∈ cur, i ∈ rest := by
  generalize hw : l ++ cur :: r = w at h
  induction h with
  | working rest =>
    obtain ⟨rfl, hcons⟩ | ⟨_, hcons⟩ := List.append_eq_singleton_iff.mp hw
    · cases hcons
      exact ⟨rfl, rfl, fun _ hi => hi⟩
    · cases hcons
  | finished => simp at hw
  | brokeDown => simp at hw
  | file _ _ ih =>
    obtain ⟨hl, hr, hmem⟩ := ih hw
    exact ⟨hl, hr, fun i hi => List.mem_cons_of_mem _ (hmem i hi)⟩

theorem Owed.started_notMem {rest : List Nat} {coming : List (Event α)} {working : List (List Nat)}
    (h : Owed y k rest coming working) (b : Nat) : Event.started b ∉ coming := by
  induction h with
  | working => exact List.not_mem_nil
  | finished => simp
  | brokeDown => simp
  | file _ _ ih => simpa using ih

/-- A batch waits in one place only. -/
theorem Stage.waiting_eq {files : List Nat} {l r : List (List Nat)} (h : Stage y pathOf k m v)
    (hv : v.waiting = l ++ files :: r) : l = [] ∧ r = [] := by
  cases h with
  | waiting =>
    obtain ⟨rfl, hcons⟩ | ⟨_, hcons⟩ := List.append_eq_singleton_iff.mp hv.symm
    · cases hcons
      exact ⟨rfl, rfl⟩
    · cases hcons
  | absent => simp at hv
  | announced => simp at hv
  | running => simp at hv
  | givenUp => simp at hv
  | completed => simp at hv
  | failed => simp at hv

/-- The worker that has taken a batch announces it. -/
theorem Stage.announce {files : List Nat} {before after l r : List (List Nat)} (h : Stage y pathOf k m v)
    (hv : v.waiting = before ++ files :: after) (hw : v.working = l ++ r) :
    Stage y pathOf k m
      { v with waiting := before ++ after, working := l ++ files :: r, coming := v.coming ++ [.started k] } := by
  obtain ⟨rfl, rfl⟩ := h.waiting_eq hv
  cases h with
  | waiting =>
    cases hv
    obtain ⟨rfl, rfl⟩ := List.append_eq_nil_iff.mp hw.symm
    exact .announced (.working _)
  | absent => cases hv
  | announced => cases hv
  | running => cases hv
  | givenUp => cases hv
  | completed => cases hv
  | failed => cases hv

/-- A worker that goes on with a batch that was not given up announces what it owes. -/
theorem Stage.extend {cur : List Nat} {last : List (Event α)} {l r new : List (List Nat)} (h : Stage y pathOf k m v)
    (hw : v.working = l ++ cur :: r) (hkept : v.desk.abandoned = []) (hlast : Owed y k cur last new) :
    Stage y pathOf k m { v with working := l ++ new ++ r, coming := v.coming ++ last } := by
  cases h with
  | announced owed =>
    subst hw
    obtain ⟨rfl, rfl, _⟩ := owed.working_eq
    simpa using Stage.announced (owed.extend hlast)
  | running split kept owed =>
    subst hw
    obtain ⟨rfl, rfl, _⟩ := owed.working_eq
    simpa using Stage.running split kept (owed.extend hlast)
  | givenUp => cases hkept
  | absent => simp at hw
  | waiting => simp at hw
  | completed => simp at hw
  | failed => simp at hw

theorem Stage.mem_members {cur : List Nat} {l r : List (List Nat)} (h : Stage y pathOf k m v)
    (hw : v.working = l ++ cur :: r) (hkept : v.desk.abandoned = []) :
    ∃ members, m = some members ∧ ∀ i ∈ cur, i ∈ members := by
  cases h with
  | announced owed =>
    subst hw
    exact ⟨_, rfl, owed.working_eq.2.2⟩
  | running split kept owed =>
    subst hw
    exact ⟨_, rfl, fun i hi => split ▸ List.mem_append_right _ (owed.working_eq.2.2 i hi)⟩
  | givenUp => cases hkept
  | absent => simp at hw
  | waiting => simp at hw
  | completed => simp at hw
  | failed => simp at hw

/-- What the worker of a batch that was given up still does, nobody hears. -/
theorem Stage.late {events : List (Event α)} {working : List (List Nat)} (h : Stage y pathOf k m v)
    (hgone : v.desk.abandoned ≠ []) (hevents : ∀ b, Event.started b ∉ events) :
    Stage y pathOf k m { v with working, coming := v.coming ++ events } := by
  cases h with
  | givenUp started =>
    refine .givenUp fun b hb => ?_
    rcases List.mem_append.mp hb with hb | hb
    · exact started b hb
    · exact hevents b hb
  | absent => exact absurd rfl hgone
  | waiting => exact absurd rfl hgone
  | announced => exact absurd rfl hgone
  | running => exact absurd rfl hgone
  | completed => exact absurd rfl hgone
  | failed => exact absurd rfl hgone

/-- An announcement arrives. -/
theorem Stage.receive {filesOf : Nat → List Nat} {e : Event α} {coming : List (Event α)} (h : Stage y pathOf k m v)
    (hc : v.coming = e :: coming) (he : e.batch = k) (hfiles : ∀ members, m = some members → filesOf k = members) :
    Stage y pathOf k m { v with coming, desk := v.desk.receive filesOf pathOf e } := by
  cases h with
  | announced owed =>
    cases hc
    dsimp only
    rw [Coordinator.start_receive_started]
    exact .running rfl (fun _ ho => absurd ho List.not_mem_nil) owed
  | @running members rest outs _ _ split kept owed =>
    dsimp only
    cases owed with
    | working => cases hc
    | finished =>
      cases hc
      rw [Coordinator.during_receive_finished, hfiles members rfl]
      exact .completed (by rw [split, List.append_nil]) kept
    | brokeDown rest worker hm =>
      cases hc
      rw [Coordinator.during_receive_brokeDown, hfiles members rfl]
      exact .failed (by rw [split]; simp) hm
    | file ho owed =>
      cases hc
      rw [Coordinator.during_receive_file]
      refine .running (by rw [split]; simp) (fun o' ho' => ?_) owed
      rcases List.mem_append.mp ho' with ho' | ho'
      · exact kept o' ho'
      · rw [List.mem_singleton.mp ho']
        exact ho
  | givenUp started =>
    subst he
    dsimp only at hc ⊢
    rw [Coordinator.gaveUp_receive]
    · exact .givenUp fun b hb => started b (hc ▸ List.mem_cons_of_mem _ hb)
    · rintro b rfl
      exact started b (hc ▸ List.mem_cons_self)
  | absent => cases hc
  | waiting => cases hc
  | completed => cases hc
  | failed => cases hc

/-- A batch is found overdue. -/
theorem Stage.abandon {filesOf : Nat → List Nat} (nanos : Nat) (h : Stage y pathOf k m v)
    (hfiles : ∀ members, m = some members → filesOf k = members) :
    Stage y pathOf k m { v with desk := v.desk.abandon filesOf (k, nanos) } := by
  cases h with
  | @running members rest outs coming working split kept owed =>
    dsimp only
    rw [Coordinator.during_abandon, hfiles members rfl]
    exact .givenUp owed.started_notMem
  | absent => exact .absent
  | waiting => exact .waiting
  | announced owed => exact .announced owed
  | givenUp started => exact .givenUp started
  | completed all kept => exact .completed all kept
  | failed hi hm => exact .failed hi hm

end Transitions

end CodeAtlas.Scan
