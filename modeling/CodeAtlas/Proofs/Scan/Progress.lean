/-
  The workers come to an end.

  What is left to do (`Pool.load`) shrinks with every step of a worker that has something to do, whichever worker that is
  (`Pool.work_nearer`).  So a pool can always be brought to its end (`Pool.exists_run_isDone`), workers with a clock bring
  it there (`Pool.drive_ends`), and for a single worker whose announcements arrive at once five rounds for each file are
  enough, in which no batch is given up (`Pool.run_rounds`).
-/
import CodeAtlas.Proofs.Scan.Pool

namespace CodeAtlas.Scan

variable {σ α : Type}

/-- The steps that a worker still takes on its batch. -/
def Worker.load : Worker → Nat
  | .idle => 0
  | .taking _ files => 2 * files.length + 2
  | .busy _ rest => 2 * rest.length + 1
  | .scanning _ _ rest => 2 * rest.length + 2

/-- The steps that some workers still take. -/
def loadOf (workers : List Worker) : Nat :=
  workers.foldr (fun w n => w.load + n) 0

theorem loadOf_set {workers : List Worker} {i : Nat} {w : Worker} (h : workers[i]? = some w) (w' : Worker) :
    loadOf (workers.set i w') + w.load = loadOf workers + w'.load := by
  induction workers generalizing i with
  | nil => simp at h
  | cons head workers ih =>
    cases i with
    | zero =>
      cases h
      simp only [loadOf, List.set_cons_zero, List.foldr_cons]
      omega
    | succ i =>
      have hrest := ih (i := i) h
      simp only [loadOf, List.set_cons_succ, List.foldr_cons] at hrest ⊢
      omega

namespace Pool

/-- The steps that the workers still take. -/
def load (p : Pool σ α) : Nat :=
  p.queue.foldr (fun b n => 2 * b.2.length + 3 + n) 0 + loadOf p.workers

/-! ## One step of a worker -/

/-- What a step of a worker does that has something to do: the workers are one step nearer to the end, and there is at
most one announcement more. -/
structure Nearer (p p' : Pool σ α) : Prop where
  staff : p'.workers.length = p.workers.length
  announced : p'.channel.length ≤ p.channel.length + 1
  coordinator : p'.coordinator = p.coordinator
  load : p'.load < p.load

theorem nearer_advance {p : Pool σ α} {i : Nat} {w w' : Worker} (hw : p.workers[i]? = some w)
    (hless : w'.load < w.load) {events : List (Event α)} (hevents : events.length ≤ 1) (shared : σ) :
    Nearer p { p.advance i w' events with shared } := by
  refine ⟨?_, ?_, rfl, ?_⟩
  · simp [advance]
  · simp only [advance, List.length_append]
    omega
  · have hload := loadOf_set hw w'
    simp only [Pool.load, advance]
    omega

theorem nearer_take {p : Pool σ α} {i b : Nat} {files : List Nat} {queue : List (Nat × List Nat)}
    (hw : p.workers[i]? = some .idle) (hq : p.queue = (b, files) :: queue) :
    Nearer p { p.advance i (.taking b files) [] with queue } := by
  refine ⟨?_, ?_, rfl, ?_⟩
  · simp [advance]
  · simp [advance]
  · have hload := loadOf_set hw (.taking b files)
    simp only [Worker.load] at hload
    simp only [Pool.load, advance, hq, List.foldr_cons]
    omega

theorem work_nearer {p : Pool σ α} {i : Nat} (h : p.hasWork i = true) (scan : Scanner σ α) :
    Nearer p (p.work scan i) := by
  unfold hasWork at h
  unfold work
  cases hw : p.workers[i]? with
  | none => rw [hw] at h; cases h
  | some w =>
    cases w with
    | idle =>
      rw [hw] at h
      cases hq : p.queue with
      | nil => rw [hq] at h; cases h
      | cons head queue => exact nearer_take hw hq
    | taking b files => exact nearer_advance hw (by simp [Worker.load]) (by simp) p.shared
    | busy b rest =>
      cases rest with
      | nil => exact nearer_advance hw (by simp [Worker.load]) (by simp) p.shared
      | cons index rest =>
        dsimp only
        split
        · exact nearer_advance hw (by simp [Worker.load]) (by simp) p.shared
        · refine nearer_advance hw ?_ (by simp) p.shared
          simp only [Worker.load, List.length_cons]
          omega
    | scanning b index rest =>
      dsimp only
      split
      · exact nearer_advance hw (by simp [Worker.load]) (by simp) p.shared
      · split
        · exact nearer_advance hw (by simp [Worker.load]) (by simp) _
        · exact nearer_advance hw (by simp [Worker.load]) (by simp) _
        · exact nearer_advance hw (by simp [Worker.load]) (by simp) _

theorem work_of_not_hasWork {p : Pool σ α} {i : Nat} (h : p.hasWork i = false) (scan : Scanner σ α) :
    p.work scan i = p := by
  unfold hasWork at h
  unfold work
  cases hw : p.workers[i]? with
  | none => rfl
  | some w =>
    rw [hw] at h
    cases w with
    | idle =>
      cases hq : p.queue with
      | nil => rfl
      | cons head queue => rw [hq] at h; cases h
    | taking | busy | scanning => cases h

theorem not_hasWork_of_load {p : Pool σ α} (h : p.load = 0) (scan : Scanner σ α) (i : Nat) : p.hasWork i = false := by
  cases hwork : p.hasWork i with
  | false => rfl
  | true =>
    have hless := (work_nearer hwork scan).load
    omega

theorem workers_deliver (scan : Scanner σ α) (p : Pool σ α) : (p.step scan .deliver).workers = p.workers := by
  unfold step
  cases p.channel <;> rfl

/-! ## Rounds -/

/-- There are workers, and all that they have announced has arrived. -/
structure Quiet (p : Pool σ α) : Prop where
  staffed : p.workers ≠ []
  heard : p.channel = []

/-- After a step of a worker its announcement arrives, perhaps after a look at the clock. -/
theorem Quiet.round {p : Pool σ α} (h : Quiet p) {i : Nat} (hi : p.hasWork i = true) (scan : Scanner σ α)
    (overdue : List (Nat × Nat)) :
    Quiet (((p.step scan (.work i)).step scan (.wake overdue)).step scan .deliver) ∧
      (((p.step scan (.work i)).step scan (.wake overdue)).step scan .deliver).load < p.load := by
  obtain ⟨hstaff, hannounced, -, hload⟩ := work_nearer hi scan
  have hstaffed : (p.work scan i).workers ≠ [] := by
    intro hnil
    rw [hnil, List.length_nil] at hstaff
    exact h.staffed (List.length_eq_zero_iff.mp hstaff.symm)
  rw [h.heard, List.length_nil, Nat.zero_add] at hannounced
  obtain ⟨cancel, coordinator, hwake⟩ := (p.work scan i).step_wake_eq scan overdue
  show Quiet (((p.work scan i).step scan (.wake overdue)).step scan .deliver) ∧
    (((p.work scan i).step scan (.wake overdue)).step scan .deliver).load < p.load
  rw [hwake]
  unfold step
  dsimp only
  cases hc : (p.work scan i).channel with
  | nil => exact ⟨⟨hstaffed, rfl⟩, hload⟩
  | cons e channel =>
    have hrest : channel = [] := by
      rw [hc, List.length_cons] at hannounced
      exact List.length_eq_zero_iff.mp (by omega)
    exact ⟨⟨hstaffed, hrest⟩, hload⟩

/-- When no worker has anything to do, nothing is left. -/
theorem Quiet.isDone {p : Pool σ α} (h : Quiet p) (hnone : ∀ i < p.workers.length, p.hasWork i = false) :
    p.isDone = true := by
  have hidle : ∀ w ∈ p.workers, w = .idle := by
    intro w hw
    obtain ⟨i, hi, hget⟩ := List.mem_iff_getElem.mp hw
    have hwork := hnone i hi
    unfold hasWork at hwork
    rw [List.getElem?_eq_getElem hi, hget] at hwork
    cases w with
    | idle => rfl
    | taking | busy | scanning => cases hwork
  have hqueue : p.queue = [] := by
    have hpos : 0 < p.workers.length := List.length_pos_iff.mpr h.staffed
    have hwork := hnone 0 hpos
    unfold hasWork at hwork
    rw [List.getElem?_eq_getElem hpos, hidle _ (List.getElem_mem hpos)] at hwork
    simpa using hwork
  have hall : p.workers.all (· == .idle) = true := by
    simpa [List.all_eq_true] using hidle
  rw [Pool.isDone, hqueue, h.heard, hall]
  rfl

/-! ## Workers with a clock -/

theorem earlier_eq {clock : Clock} {workers : List Nat} {best : Option Nat} :
    (workers.foldl clock.earlier best = none → best = none ∧ workers = []) ∧
      ∀ w, workers.foldl clock.earlier best = some w → best = some w ∨ w ∈ workers := by
  induction workers generalizing best with
  | nil => exact ⟨fun h => ⟨h, rfl⟩, fun w h => Or.inl h⟩
  | cons head workers ih =>
    obtain ⟨hnone, hsome⟩ := @ih (clock.earlier best head)
    have hstep : clock.earlier best head = some head ∨ clock.earlier best head = best ∧ best ≠ none := by
      cases best with
      | none => exact Or.inl rfl
      | some b =>
        simp only [Clock.earlier]
        split
        · exact Or.inl rfl
        · exact Or.inr ⟨rfl, by simp⟩
    refine ⟨fun h => ?_, fun w h => ?_⟩
    · have hbest := (hnone h).1
      rcases hstep with hhead | ⟨hsame, hne⟩
      · rw [hhead] at hbest
        cases hbest
      · exact absurd (hsame ▸ hbest) hne
    · rcases hsome w h with hbest | hmem
      · rcases hstep with hhead | ⟨hsame, -⟩
        · rw [hhead] at hbest
          cases hbest
          exact Or.inr List.mem_cons_self
        · exact Or.inl (hsame ▸ hbest)
      · exact Or.inr (List.mem_cons_of_mem _ hmem)

theorem hasWork_of_next? {p : Pool σ α} {clock : Clock} {i : Nat} (h : p.next? clock = some i) :
    p.hasWork i = true := by
  rcases earlier_eq.2 i h with hbest | hmem
  · cases hbest
  · exact (List.mem_filter.mp hmem).2

theorem not_hasWork_of_next? {p : Pool σ α} {clock : Clock} (h : p.next? clock = none) :
    ∀ i < p.workers.length, p.hasWork i = false := by
  intro i hi
  have hnil := (earlier_eq.1 h).2
  exact Bool.eq_false_iff.mpr (List.filter_eq_nil_iff.mp hnil i (List.mem_range.mpr hi))

/-- Workers with a clock follow one of the schedules, and bring all batches to their end. -/
theorem drive_ends (scan : Scanner σ α) (duration : SourceFile → Nat) (timeoutPerFileMs : Nat) {fuel : Nat}
    (clock : Clock) {p : Pool σ α} (h : Quiet p) (hfuel : p.load ≤ fuel) :
    ∃ schedule, p.drive scan duration timeoutPerFileMs fuel clock = p.run scan schedule ∧
      (p.run scan schedule).isDone = true := by
  induction fuel generalizing p clock with
  | zero =>
    have hload : p.load = 0 := by omega
    exact ⟨[], rfl, h.isDone fun i _ => not_hasWork_of_load hload scan i⟩
  | succ fuel ih =>
    unfold drive
    cases hnext : p.next? clock with
    | none => exact ⟨[], rfl, h.isDone (not_hasWork_of_next? hnext)⟩
    | some i =>
      dsimp only
      generalize (p.step scan (.work i)).overdue timeoutPerFileMs (p.tick duration clock i) (clock.timeOf i) = overdue
      obtain ⟨hquiet, hless⟩ := h.round (hasWork_of_next? hnext) scan overdue
      obtain ⟨schedule, hdrive, hdone⟩ := ih (p.tick duration clock i) hquiet (by omega)
      exact ⟨.work i :: .wake overdue :: .deliver :: schedule, hdrive, hdone⟩

/-- Announcements on their way can all arrive. -/
theorem exists_run_quiet (scan : Scanner σ α) {p : Pool σ α} (h : p.workers ≠ []) :
    ∃ schedule, Quiet (p.run scan schedule) := by
  generalize hchannel : p.channel = channel
  induction channel generalizing p with
  | nil => exact ⟨[], h, hchannel⟩
  | cons e channel ih =>
    have hstep : (p.step scan .deliver).workers = p.workers ∧ (p.step scan .deliver).channel = channel := by
      simp [step, hchannel]
    obtain ⟨schedule, hquiet⟩ := ih (p := p.step scan .deliver) (hstep.1 ▸ h) hstep.2
    exact ⟨.deliver :: schedule, hquiet⟩

theorem run_append (scan : Scanner σ α) (p : Pool σ α) (schedule later : List Choice) :
    p.run scan (schedule ++ later) = (p.run scan schedule).run scan later :=
  List.foldl_append

/-- Nobody joins the workers, and nobody leaves. -/
theorem length_workers_run (scan : Scanner σ α) (p : Pool σ α) (schedule : List Choice) :
    (p.run scan schedule).workers.length = p.workers.length := by
  induction schedule generalizing p with
  | nil => rfl
  | cons c schedule ih =>
    have hstep : (p.step scan c).workers.length = p.workers.length := by
      cases c with
      | work i =>
        cases hwork : p.hasWork i with
        | true => exact (work_nearer hwork scan).staff
        | false => exact congrArg (fun p => p.workers.length) (work_of_not_hasWork hwork scan)
      | deliver => rw [workers_deliver]
      | wake overdue =>
        obtain ⟨cancel, coordinator, hwake⟩ := p.step_wake_eq scan overdue
        rw [hwake]
    exact (ih (p.step scan c)).trans hstep

/-- From every state a pool with workers can be brought to its end. -/
theorem exists_run_isDone (scan : Scanner σ α) {p : Pool σ α} (h : p.workers ≠ []) :
    ∃ schedule, (p.run scan schedule).isDone = true := by
  obtain ⟨first, hquiet⟩ := exists_run_quiet scan h
  obtain ⟨second, -, hdone⟩ := drive_ends scan (fun _ => 0) 0 (.start 0) hquiet (Nat.le_refl _)
  refine ⟨first ++ second, ?_⟩
  rw [run_append]
  exact hdone

/-! ## A single worker whose announcements arrive at once -/

/-- The worker takes a step, and its announcement arrives. -/
def round : List Choice :=
  [.work 0, .deliver]

/-- The state before a round: one worker, nothing on its way, no batch given up. -/
structure Alone (p : Pool σ α) : Prop where
  single : p.workers.length = 1
  heard : p.channel = []
  kept : p.coordinator.abandoned = []

theorem Alone.quiet {p : Pool σ α} (h : Alone p) : Quiet p := by
  refine ⟨fun hnil => ?_, h.heard⟩
  have hsingle := h.single
  rw [hnil] at hsingle
  cases hsingle

theorem Alone.load_eq_zero {p : Pool σ α} (h : Alone p) (hnone : p.hasWork 0 = false) : p.load = 0 := by
  obtain ⟨w, hw⟩ := List.length_eq_one_iff.mp h.single
  unfold hasWork at hnone
  rw [hw] at hnone
  cases w with
  | idle =>
    have hqueue : p.queue = [] := by simpa using hnone
    simp [Pool.load, hqueue, hw, loadOf, Worker.load]
  | taking | busy | scanning => cases hnone

theorem step_wake_nil (scan : Scanner σ α) (p : Pool σ α) : p.step scan (.wake []) = p := rfl

theorem abandoned_deliver (scan : Scanner σ α) (p : Pool σ α) :
    (p.step scan .deliver).coordinator.abandoned = p.coordinator.abandoned := by
  unfold step
  cases p.channel with
  | nil => rfl
  | cons e channel => exact Coordinator.abandoned_receive ..

theorem Alone.round {p : Pool σ α} (h : Alone p) (scan : Scanner σ α) :
    Alone (p.run scan round) ∧ (p.run scan round).load ≤ p.load - 1 := by
  show Alone ((p.work scan 0).step scan .deliver) ∧ ((p.work scan 0).step scan .deliver).load ≤ p.load - 1
  cases hwork : p.hasWork 0 with
  | false =>
    have hload := h.load_eq_zero hwork
    have hsame : p.step scan .deliver = p := by simp [step, h.heard]
    rw [work_of_not_hasWork hwork, hsame]
    exact ⟨h, by omega⟩
  | true =>
    obtain ⟨hstaff, -, hcoordinator, -⟩ := work_nearer hwork scan
    obtain ⟨hquiet, hless⟩ := h.quiet.round hwork scan []
    rw [step_wake_nil] at hquiet hless
    refine ⟨⟨?_, hquiet.heard, ?_⟩, Nat.le_sub_one_of_lt hless⟩
    · rw [workers_deliver, hstaff, h.single]
    · rw [abandoned_deliver, hcoordinator, h.kept]

theorem Alone.rounds {p : Pool σ α} (h : Alone p) (scan : Scanner σ α) (n : Nat) :
    Alone (p.run scan (List.replicate n Pool.round).flatten) ∧
      (p.run scan (List.replicate n Pool.round).flatten).load ≤ p.load - n := by
  induction n generalizing p with
  | zero => exact ⟨h, Nat.le_refl _⟩
  | succ n ih =>
    obtain ⟨hnext, hload⟩ := h.round scan
    obtain ⟨hend, hload'⟩ := ih hnext
    rw [List.replicate_succ, List.flatten_cons, run_append]
    exact ⟨hend, by omega⟩

/-! ## The load at the start -/

theorem load_start (files : Array SourceFile) (pending : List Nat) (batchSize workers : Nat) (shared : σ) :
    (start files pending batchSize workers shared : Pool σ α).load =
      (batchesOf batchSize pending.length pending).foldr (fun b n => 2 * b.length + 3 + n) 0 := by
  have hqueue : (batchesOf batchSize pending.length pending).zipIdx.map (·.1) =
      batchesOf batchSize pending.length pending := List.zipIdx_map_fst 0 _
  have hidle (n : Nat) : loadOf (List.replicate n .idle) = 0 := by
    induction n with
    | zero => rfl
    | succ n ih => simpa [loadOf, List.replicate_succ, Worker.load] using ih
  rw [← hqueue, List.foldr_map]
  simp only [load, start, List.foldr_map, hidle]
  rfl

theorem load_batchesOf (size fuel : Nat) (pending : List Nat) :
    (batchesOf size fuel pending).foldr (fun b n => 2 * b.length + 3 + n) 0 ≤ 5 * pending.length := by
  induction fuel generalizing pending with
  | zero => exact Nat.zero_le _
  | succ fuel ih =>
    unfold batchesOf
    split
    · exact Nat.zero_le _
    · rename_i hpending
      have hpos : 0 < pending.length := List.length_pos_iff.mpr (by simpa using hpending)
      have hrest := ih (pending.drop (max size 1))
      rw [List.length_drop] at hrest
      rw [List.foldr_cons, List.length_take]
      omega

theorem quiet_start (files : Array SourceFile) (pending : List Nat) (batchSize workers : Nat) (shared : σ) :
    Quiet (start files pending batchSize workers shared : Pool σ α) := by
  refine ⟨fun hnil => ?_, rfl⟩
  have hlength : max workers 1 = 0 := by simpa [start] using congrArg List.length hnil
  omega

/-- The fuel of a pool is what its workers need. -/
theorem fuel_start (files : Array SourceFile) (pending : List Nat) (batchSize workers : Nat) (shared : σ) :
    (start files pending batchSize workers shared : Pool σ α).load =
      (start files pending batchSize workers shared : Pool σ α).fuel := by
  have hsum (batches : List (List Nat)) (n : Nat) :
      batches.foldl (fun n b => n + 2 * b.length + 3) n = n + batches.foldr (fun b n => 2 * b.length + 3 + n) 0 := by
    induction batches generalizing n with
    | nil => rfl
    | cons b batches ih =>
      rw [List.foldl_cons, List.foldr_cons, ih]
      omega
  rw [load_start]
  simp only [fuel, start, hsum, Nat.zero_add]

/-- Five rounds for each file bring the work of a single worker to its end, and no batch is given up. -/
theorem run_rounds (scan : Scanner σ α) (files : Array SourceFile) {pending : List Nat} {n : Nat}
    (hn : 5 * pending.length ≤ n) (batchSize : Nat) (shared : σ) {p : Pool σ α}
    (hp : p = (start files pending batchSize 1 shared).run scan (List.replicate n round).flatten) :
    p.isDone = true ∧ p.coordinator.abandoned = [] := by
  have halone : Alone (start files pending batchSize 1 shared : Pool σ α) := ⟨rfl, rfl, rfl⟩
  obtain ⟨hend, hload⟩ := halone.rounds scan n
  rw [← hp, load_start] at hload
  rw [← hp] at hend
  have hbound := load_batchesOf batchSize pending.length pending
  have hzero : p.load = 0 := by omega
  exact ⟨hend.quiet.isDone fun i _ => not_hasWork_of_load hzero scan i, hend.kept⟩

end Pool

end CodeAtlas.Scan
