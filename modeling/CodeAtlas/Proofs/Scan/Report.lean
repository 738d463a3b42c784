/-
  Every batch is reported once.

  A batch that was given up stays so, and nothing that arrives about it afterwards changes anything
  (`Coordinator.receive_of_gaveUp`, `Pool.isCancelled_run`).  With the stages of batches this says all that the coordinator
  can report, for every scan and under every schedule (`Pool.batches_reported_once`): at the end each batch has exactly one
  report, a completed batch comes with one outcome for each of its files in their order, and a batch that was given up is
  reported to have taken too long and nothing else.
-/
import CodeAtlas.Proofs.Scan.Outcome
import CodeAtlas.Proofs.Scan.Progress

namespace CodeAtlas.Scan

variable {σ α : Type}

/-- The ends of scans that a scan has in some shared state. -/
def Promise.ofScan (scan : Scanner σ α) (files : Array SourceFile) : Promise α :=
  { outcome := fun i o => ∃ file s, files[i]? = some file ∧ (scan file s).1 = .ofOutcome o
    breakdown := fun i message => ∃ file s, files[i]? = some file ∧ (scan file s).1 = .breakdown message }

theorem keeps_ofScan (scan : Scanner σ α) (files : Array SourceFile) :
    Keeps scan files (fun _ => True) (.ofScan scan files) := by
  intro i file s hfile _
  refine ⟨?_, trivial⟩
  cases hattempt : (scan file s).1 with
  | value a => exact ⟨file, s, hfile, hattempt⟩
  | failure f => exact ⟨file, s, hfile, hattempt⟩
  | breakdown message => exact ⟨file, s, hfile, hattempt⟩

/-- Whatever the scan does, every batch of every run is at one of its stages. -/
theorem sound_run (scan : Scanner σ α) {files : Array SourceFile} {pending : List Nat}
    (hpending : ∀ i ∈ pending, i < files.size) (batchSize workers : Nat) (shared : σ) (schedule : List Choice) :
    Sound (.ofScan scan files) (fun _ => True)
      ((Pool.start files pending batchSize workers shared : Pool σ α).run scan schedule) :=
  (Sound.start hpending batchSize workers trivial).run (keeps_ofScan scan files) schedule

/-! ## Batches that were given up -/

/-- Nothing that arrives about a batch that was given up changes anything, about this batch or another. -/
theorem Coordinator.receive_of_gaveUp {c : Coordinator α} {k nanos : Nat} {members : List Nat}
    (h : c.only k = gaveUp k members nanos) (filesOf : Nat → List Nat) (pathOf : Nat → String) {e : Event α}
    (he : e.batch = k) (hs : ∀ b, e ≠ .started b) : c.receive filesOf pathOf e = c := by
  have hnone : c.inFlight.filter (fun r => r.batch == k) = [] := congrArg inFlight h
  have habandoned : c.abandoned.contains k = true := by
    rw [← contains_only, h]
    simp [gaveUp]
  cases e with
  | started b => exact absurd rfl (hs b)
  | file b i o =>
    obtain rfl : b = k := he
    have hsame : (c.inFlight.map fun r => if r.batch == b then Running.add pathOf r i o else r) = c.inFlight := by
      refine (List.map_congr_left fun r hr => ?_).trans (List.map_id _)
      rw [if_neg (List.filter_eq_nil_iff.mp hnone r hr)]
      rfl
    simp only [receive, hsame]
  | finished b =>
    obtain rfl : b = k := he
    rw [receive, if_pos habandoned]
  | brokeDown b w m =>
    obtain rfl : b = k := he
    rw [receive, if_pos habandoned]

/-- A batch that is reported to have taken too long was given up, and its announcement has arrived. -/
theorem Stage.of_timedOut {y : Promise α} {pathOf : Nat → String} {k : Nat} {m : Option (List Nat)} {v : View α}
    (h : Stage y pathOf k m v) {b nanos : Nat} {members : List Nat} (hr : .timedOut b members nanos ∈ v.desk.reports) :
    v.desk = .gaveUp k members nanos ∧ ∀ b, Event.started b ∉ v.coming := by
  cases h with
  | givenUp started =>
    cases List.mem_singleton.mp hr
    exact ⟨rfl, started⟩
  | absent => cases hr
  | waiting => cases hr
  | announced => cases hr
  | running => cases hr
  | completed => cases List.mem_singleton.mp hr
  | failed => cases List.mem_singleton.mp hr

/-- A batch that was given up is reported to have taken too long. -/
theorem Stage.of_abandoned {y : Promise α} {pathOf : Nat → String} {k : Nat} {m : Option (List Nat)} {v : View α}
    (h : Stage y pathOf k m v) (hgone : v.desk.abandoned ≠ []) :
    ∃ members nanos, m = some members ∧ v.desk.reports = [.timedOut k members nanos] := by
  cases h with
  | givenUp => exact ⟨_, _, rfl, rfl⟩
  | absent => exact absurd rfl hgone
  | waiting => exact absurd rfl hgone
  | announced => exact absurd rfl hgone
  | running => exact absurd rfl hgone
  | completed => exact absurd rfl hgone
  | failed => exact absurd rfl hgone

namespace Pool

/-- Raising a flag lowers no other. -/
theorem raised_set {flags : List Bool} {k : Nat} (h : flags[k]?.getD false = true) (b : Nat) :
    (flags.set b true)[k]?.getD false = true := by
  rw [List.getElem?_set]
  split
  case isTrue hsame =>
    have hraised : flags[k]? = some true := by simpa [Option.getD_eq_iff] using h
    obtain ⟨hk, -⟩ := List.getElem?_eq_some_iff.mp hraised
    rw [hsame, if_pos hk]
    rfl
  case isFalse => exact h

theorem isCancelled_giveUp {p : Pool σ α} {k : Nat} (h : p.isCancelled k = true) (overdue : Nat × Nat) :
    (p.giveUp overdue).isCancelled k = true := by
  unfold giveUp
  split
  · exact raised_set h overdue.1
  · exact h

/-- One choice of the scheduler takes no flag back. -/
theorem isCancelled_step (scan : Scanner σ α) {p : Pool σ α} {k : Nat} (h : p.isCancelled k = true) (c : Choice) :
    (p.step scan c).isCancelled k = true := by
  cases c with
  | work i =>
    obtain ⟨-, -, hcancel⟩ := p.work_fixed scan i
    show (p.work scan i).cancel[k]?.getD false = true
    rwa [hcancel]
  | deliver =>
    unfold step
    cases p.channel <;> exact h
  | wake overdue =>
    show (overdue.foldl giveUp p).isCancelled k = true
    induction overdue generalizing p with
    | nil => exact h
    | cons o overdue ih => exact ih (isCancelled_giveUp h o)

theorem isCancelled_run (scan : Scanner σ α) {p : Pool σ α} {k : Nat} (h : p.isCancelled k = true)
    (schedule : List Choice) : (p.run scan schedule).isCancelled k = true := by
  induction schedule generalizing p with
  | nil => exact h
  | cons c schedule ih => exact ih (isCancelled_step scan h c)

/-- The reports about a batch. -/
def reportsOf (p : Pool σ α) (k : Nat) : List (Report α) :=
  p.coordinator.reports.filter fun r => r.batch == k

end Pool

section Reports

variable {y : Promise α} {good : σ → Prop} {p : Pool σ α}

/-- What arrives about a batch after the report that it took too long changes nothing. -/
theorem Sound.deliver_late (h : Sound y good p) (scan : Scanner σ α) {k nanos : Nat} {members : List Nat}
    (hr : .timedOut k members nanos ∈ p.coordinator.reports) {e : Event α} {channel : List (Event α)}
    (hc : p.channel = e :: channel) (he : e.batch = k) : p.step scan .deliver = { p with channel } := by
  have hdesk : Report.timedOut k members nanos ∈ (p.view k).desk.reports :=
    List.mem_filter.mpr ⟨hr, by simp [Report.batch]⟩
  obtain ⟨hgone, hstarted⟩ := (h.stage k).of_timedOut hdesk
  have hcoming : e ∈ (p.view k).coming := List.mem_filter.mpr ⟨by simp [hc], by simp [he]⟩
  have hsame : p.coordinator.receive p.filesOf p.pathOf e = p.coordinator := by
    refine Coordinator.receive_of_gaveUp hgone _ _ he ?_
    rintro b rfl
    exact hstarted b hcoming
  unfold Pool.step
  rw [hc]
  dsimp only
  rw [hsame]

/-- A batch that was given up has one report: that it took too long. -/
theorem Sound.reportsOf_isCancelled (h : Sound y good p) {k : Nat} (hk : p.isCancelled k = true) :
    ∃ nanos, p.reportsOf k = [.timedOut k (p.filesOf k) nanos] := by
  obtain ⟨members, nanos, hmembers, hreports⟩ := (h.stage k).of_abandoned ((h.isCancelled_iff k).mp hk)
  exact ⟨nanos, (p.filesOf_eq k members hmembers).symm ▸ hreports⟩

end Reports

/-! ## The reports of a run -/

/-- Let a pool scan files in batches, with whatever results, failures and breakdowns, and let the workers, the
announcements and the coordinator go on in any order. When nothing is left to do, and some way to go on always leads
there, each batch has exactly one report: that it is completed with one outcome for each of its files in their order, that
it took too long, or that the scan of one of its files broke down. What arrives about a batch after the report that it
took too long changes nothing but the channel. The flags that the workers look at are raised for just the batches that the
coordinator gave up, and such a batch is, from then on and for good, reported to have taken too long and nothing else. -/
theorem Pool.batches_reported_once (scan : Scanner σ α) (files : Array SourceFile) {pending : List Nat}
    (hpending : ∀ i ∈ pending, i < files.size) (batchSize workers : Nat) (shared : σ) (schedule : List Choice) :
    let batches := batchesOf batchSize pending.length pending
    let p := (Pool.start files pending batchSize workers shared : Pool σ α).run scan schedule
    batches.flatten = pending ∧
    (p.isDone = true →
      (∀ k members, batches[k]? = some members →
        ∃ r, p.reportsOf k = [r] ∧ Ended (.ofScan scan files) p.pathOf k members r) ∧
      ∀ r ∈ p.coordinator.reports, r.batch < batches.length) ∧
    (∃ later, (p.run scan later).isDone = true) ∧
    (∀ k members nanos, .timedOut k members nanos ∈ p.coordinator.reports → ∀ e channel, p.channel = e :: channel →
      e.batch = k → p.step scan .deliver = { p with channel }) ∧
    (∀ k, p.isCancelled k = p.coordinator.abandoned.contains k) ∧
    ∀ k, p.isCancelled k = true → ∀ later, ∃ nanos, (p.run scan later).reportsOf k = [.timedOut k (p.filesOf k) nanos] := by
  intro batches p
  have hsound : Sound (.ofScan scan files) (fun _ => True) p := sound_run scan hpending batchSize workers shared schedule
  have hbatches : p.batches = batches := (Pool.run_fixed scan _ schedule).2
  refine ⟨flatten_batchesOf batchSize (Nat.le_refl _), fun hd => ⟨fun k members hk => ?_, fun r hr => ?_⟩, ?_, ?_,
    hsound.isCancelled_eq, ?_⟩
  · rw [← hbatches] at hk
    obtain ⟨r, hr, hended, -⟩ := hsound.reported_of_isDone hd hk
    exact ⟨r, hr, hended⟩
  · rw [← hbatches]
    exact hsound.batch_lt_of_mem_reports hr
  · have hstaff : p.workers.length = max workers 1 :=
      (length_workers_run scan _ schedule).trans (List.length_replicate ..)
    refine exists_run_isDone scan fun hnil => ?_
    rw [hnil, List.length_nil] at hstaff
    omega
  · exact fun k members nanos hr e channel hc he => hsound.deliver_late scan hr hc he
  · intro k hk later
    have hlater : Sound (.ofScan scan files) (fun _ => True) (p.run scan later) := by
      have hrun := sound_run scan hpending batchSize workers shared (schedule ++ later)
      rwa [Pool.run_append] at hrun
    obtain ⟨nanos, hreports⟩ := hlater.reportsOf_isCancelled (Pool.isCancelled_run scan hk later)
    have hfiles : (p.run scan later).filesOf k = p.filesOf k := by
      unfold Pool.filesOf
      rw [(Pool.run_fixed scan p later).2]
    exact ⟨nanos, hfiles ▸ hreports⟩

/-- Of three batches of one file the first is found overdue while its file is scanned, the second is completed by another
worker, and the scan of the third breaks down. -/
theorem Pool.batches_reported_once_overdue :
    let file (path : String) (flag : Bool) : SourceFile := ⟨path, none, flag, none, none, none⟩
    let files := #[file "slow.js" false, file "plain.js" false, file "broken.js" true]
    let scan : Scanner Unit String := fun f s => (if f.entryPoint then .breakdown "gave in" else .value f.path, s)
    let schedule : List Choice :=
      [.work 0, .work 0, .deliver, .work 0, .wake [(0, 7)], .work 1, .work 1, .work 0, .work 1, .deliver, .deliver,
        .work 0, .work 1, .work 1, .work 0, .deliver, .work 0, .work 0, .work 0, .deliver, .deliver, .deliver, .deliver]
    let p := (Pool.start files [0, 1, 2] 1 2 () : Pool Unit String).run scan schedule
    p.isDone = true ∧ p.isCancelled 0 = true ∧
      (∀ k members, (batchesOf 1 3 [0, 1, 2])[k]? = some members →
        ∃ r, p.reportsOf k = [r] ∧ Ended (.ofScan scan files) p.pathOf k members r) ∧
      ∃ nanos, p.reportsOf 0 = [.timedOut 0 [0] nanos] := by
  intro file files scan schedule p
  have hpending : ∀ i ∈ [0, 1, 2], i < files.size := by decide
  have hdone : p.isDone = true := by decide +kernel
  have hcancelled : p.isCancelled 0 = true := by decide +kernel
  have hfiles : p.filesOf 0 = [0] := by decide +kernel
  obtain ⟨-, hend, -, -, -, hgone⟩ := Pool.batches_reported_once scan files hpending 1 2 () schedule
  have hp : (Pool.start files [0, 1, 2] 1 2 () : Pool Unit String).run scan schedule = p := rfl
  rw [hp] at hend hgone
  clear_value p
  obtain ⟨nanos, hreports⟩ := hgone 0 hcancelled []
  rw [hfiles] at hreports
  exact ⟨hdone, hcancelled, (hend hdone).1, nanos, hreports⟩

end CodeAtlas.Scan
