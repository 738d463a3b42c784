/-
  The batches of a pool, under every schedule.

  `Pool.view` is all that a pool knows of one batch.  One choice of the scheduler changes the view of one batch only, and
  takes that batch from stage to stage (`Sound.step`); so every batch of every run is at some stage (`Sound.run`), and at
  the end each has exactly one report (`Sound.reported_of_isDone`).  All along the flags that the workers look at and the
  batches that the coordinator knows to be given up agree (`Sound.isCancelled_eq`).
-/
import CodeAtlas.Proofs.Scan.Batch

namespace CodeAtlas.Scan

variable {σ α : Type}

/-! ## Steps of a pool -/

/-- Whether a scan of the file at a position may end like this. -/
def Promise.Allows (y : Promise α) (i : Nat) : Attempt α → Prop
  | .value a => y.outcome i (.ok a)
  | .failure f => y.outcome i (.error f)
  | .breakdown message => y.breakdown i message

/-- From every good shared state a scan ends as promised and leaves a good state. -/
def Keeps (scan : Scanner σ α) (files : Array SourceFile) (good : σ → Prop) (y : Promise α) : Prop :=
  ∀ i file s, files[i]? = some file → good s → y.Allows i (scan file s).1 ∧ good (scan file s).2

/-- A worker that changes what it is doing changes its own place among the workers. -/
theorem filterMap_set {β : Type} {workers : List Worker} {i : Nat} {w : Worker} (h : workers[i]? = some w)
    (f : Worker → Option β) :
    ∃ l r, workers.filterMap f = l ++ (f w).toList ++ r ∧
      ∀ w', (workers.set i w').filterMap f = l ++ (f w').toList ++ r := by
  obtain ⟨hi, hget⟩ := List.getElem?_eq_some_iff.mp h
  have hold : workers = workers.take i ++ w :: workers.drop (i + 1) := by
    rw [← hget, List.getElem_cons_drop, List.take_append_drop]
  have hnew (w' : Worker) : workers.set i w' = workers.take i ++ w' :: workers.drop (i + 1) := by
    rw [List.set_eq_take_append_cons_drop, if_pos hi]
  have hsplit (w : Worker) : (workers.take i ++ w :: workers.drop (i + 1)).filterMap f =
      (workers.take i).filterMap f ++ (f w).toList ++ (workers.drop (i + 1)).filterMap f := by
    rw [List.filterMap_append, List.filterMap_cons, List.append_assoc]
    cases f w <;> rfl
  refine ⟨(workers.take i).filterMap f, (workers.drop (i + 1)).filterMap f, ?_, fun w' => ?_⟩
  · rw [← hsplit, ← hold]
  · rw [hnew, hsplit]

namespace Pool

/-- All that the pool knows of one batch. -/
def view (p : Pool σ α) (k : Nat) : View α :=
  { waiting := (p.queue.filter fun b => b.1 == k).map (·.2) ++ p.workers.filterMap (Worker.heldOf k)
    working := p.workers.filterMap (Worker.restOf k)
    coming := p.channel.filter fun e => e.batch == k
    desk := p.coordinator.only k }

/-- A worker that goes on with what it has announced changes its own place, and adds to the announcements. -/
theorem view_advance {p : Pool σ α} {i : Nat} {w w' : Worker} (h : p.workers[i]? = some w) {k : Nat}
    (hheld : w'.heldOf k = w.heldOf k) (events : List (Event α)) :
    ∃ l r, (p.view k).working = l ++ (w.restOf k).toList ++ r ∧
      (p.advance i w' events).view k = { p.view k with
        working := l ++ (w'.restOf k).toList ++ r
        coming := (p.view k).coming ++ events.filter fun e => e.batch == k } := by
  obtain ⟨l, r, hold, hnew⟩ := filterMap_set h (Worker.restOf k)
  obtain ⟨before, after, hold', hnew'⟩ := filterMap_set h (Worker.heldOf k)
  have hwaiting : (p.workers.set i w').filterMap (Worker.heldOf k) = p.workers.filterMap (Worker.heldOf k) := by
    rw [hnew', hheld, ← hold']
  refine ⟨l, r, hold, ?_⟩
  simp only [view, advance, hnew, hwaiting, List.filter_append]

theorem view_advance_of_ne {p : Pool σ α} {i : Nat} {w w' : Worker} (h : p.workers[i]? = some w)
    {events : List (Event α)} {k : Nat} (hheld : w'.heldOf k = w.heldOf k) (hw : w.restOf k = none)
    (hw' : w'.restOf k = none) (he : ∀ e ∈ events, e.batch ≠ k) : (p.advance i w' events).view k = p.view k := by
  obtain ⟨l, r, hold, hnew⟩ := view_advance h hheld events
  have hevents : events.filter (fun e => e.batch == k) = [] := by
    simpa using he
  rw [hw] at hold
  rw [hnew, hw', hevents, List.append_nil, ← hold]

end Pool

/-- Every batch is at one of its stages, the shared state is good, the members of batches are positions of files, and the
flags of just those batches are raised that the coordinator gave up. -/
structure Sound (y : Promise α) (good : σ → Prop) (p : Pool σ α) : Prop where
  valid : ∀ members ∈ p.batches, ∀ i ∈ members, i < p.files.size
  good : good p.shared
  stage : ∀ k, Stage y p.pathOf k p.batches[k]? (p.view k)
  flags : p.cancel = (List.range p.batches.length).map p.coordinator.abandoned.contains

namespace Worker

/-- Whether a worker works on one batch at most, which it has announced. -/
def Serves (b : Nat) (w : Worker) : Prop :=
  (∀ k, b ≠ k → w.restOf k = none) ∧ ∀ k, w.heldOf k = none

theorem serves_idle (b : Nat) : Serves b .idle :=
  ⟨fun _ _ => rfl, fun _ => rfl⟩

theorem serves_busy (b : Nat) (rest : List Nat) : Serves b (.busy b rest) := by
  refine ⟨fun k hk => ?_, fun _ => rfl⟩
  simp [restOf, hk]

theorem serves_scanning (b index : Nat) (rest : List Nat) : Serves b (.scanning b index rest) := by
  refine ⟨fun k hk => ?_, fun _ => rfl⟩
  simp [restOf, hk]

theorem restOf_busy (k : Nat) (rest : List Nat) : (Worker.busy k rest).restOf k = some rest := by
  simp [restOf]

theorem restOf_scanning (k index : Nat) (rest : List Nat) :
    (Worker.scanning k index rest).restOf k = some (index :: rest) := by
  simp [restOf]

theorem heldOf_taking (k : Nat) (files : List Nat) : (Worker.taking k files).heldOf k = some files := by
  simp [heldOf]

theorem heldOf_taking_of_ne {b k : Nat} (h : b ≠ k) (files : List Nat) : (Worker.taking b files).heldOf k = none := by
  simp [heldOf, h]

end Worker

section Steps

variable {y : Promise α} {good : σ → Prop} {p : Pool σ α} {scan : Scanner σ α}

/-- An idle worker takes the next batch, which then waits with that worker. -/
theorem Sound.take (h : Sound y good p) {i b : Nat} {files : List Nat} {queue : List (Nat × List Nat)}
    (hw : p.workers[i]? = some .idle) (hq : p.queue = (b, files) :: queue) :
    Sound y good { p.advance i (.taking b files) [] with queue } := by
  refine ⟨h.valid, h.good, fun k => ?_, h.flags⟩
  obtain ⟨l, r, hrest, hrest'⟩ := filterMap_set hw (Worker.restOf k)
  obtain ⟨before, after, hheld, hheld'⟩ := filterMap_set hw (Worker.heldOf k)
  have hworking : (p.workers.set i (.taking b files)).filterMap (Worker.restOf k) = (p.view k).working := by
    rw [hrest']
    exact hrest.symm
  have hwaiting : (queue.filter fun q => q.1 == k).map (·.2) ++
      (p.workers.set i (.taking b files)).filterMap (Worker.heldOf k) = (p.view k).waiting := by
    by_cases hb : b = k
    · subst hb
      have hold : (p.view b).waiting =
          [] ++ files :: ((queue.filter fun q => q.1 == b).map (·.2) ++ (before ++ after)) := by
        simpa [Pool.view, hq, Worker.heldOf] using hheld
      -- the batch waited in the queue, so it waits nowhere else
      have hnone := ((h.stage b).waiting_eq hold).2
      obtain ⟨hqueue, hworkers⟩ := List.append_eq_nil_iff.mp hnone
      obtain ⟨rfl, rfl⟩ := List.append_eq_nil_iff.mp hworkers
      rw [hold, hheld', hqueue, Worker.heldOf_taking]
      rfl
    · have hold : (p.view k).waiting = (queue.filter fun q => q.1 == k).map (·.2) ++ p.workers.filterMap (Worker.heldOf k) := by
        simp [Pool.view, hq, hb]
      rw [hold, hheld', hheld, Worker.heldOf_taking_of_ne hb]
      rfl
  have hview : Pool.view { p.advance i (.taking b files) [] with queue } k = p.view k := by
    show View.mk _ _ (p.channel ++ [] |>.filter _) _ = _
    rw [List.append_nil]
    exact congrArg₂ (fun waiting working => View.mk waiting working (p.view k).coming (p.view k).desk) hwaiting hworking
  rw [hview]
  exact h.stage k

/-- The worker that has taken a batch announces it. -/
theorem Sound.announce (h : Sound y good p) {i b : Nat} {files : List Nat} (hw : p.workers[i]? = some (.taking b files)) :
    Sound y good (p.advance i (.busy b files) [.started b]) := by
  refine ⟨h.valid, h.good, fun k => ?_, h.flags⟩
  show Stage y p.pathOf k p.batches[k]? _
  by_cases hb : b = k
  · subst hb
    obtain ⟨l, r, hrest, hrest'⟩ := filterMap_set hw (Worker.restOf b)
    obtain ⟨before, after, hheld, hheld'⟩ := filterMap_set hw (Worker.heldOf b)
    have hwaiting : (p.view b).waiting =
        ((p.queue.filter fun q => q.1 == b).map (·.2) ++ before) ++ files :: after := by
      simp [Pool.view, hheld, Worker.heldOf_taking]
    have hworking : (p.view b).working = l ++ r := by
      simpa [Worker.restOf, Pool.view] using hrest
    have hview : (p.advance i (.busy b files) [.started b]).view b =
        { p.view b with
          waiting := ((p.queue.filter fun q => q.1 == b).map (·.2) ++ before) ++ after
          working := l ++ files :: r
          coming := (p.view b).coming ++ [.started b] } := by
      simp [Pool.view, Pool.advance, hrest', hheld', Worker.restOf, Worker.heldOf, Event.batch]
    rw [hview]
    exact (h.stage b).announce hwaiting hworking
  · have hheld : (Worker.busy b files).heldOf k = (Worker.taking b files).heldOf k :=
      (Worker.heldOf_taking_of_ne hb files).symm
    have hbusy : (Worker.busy b files).restOf k = none := (Worker.serves_busy b files).1 k hb
    rw [Pool.view_advance_of_ne hw hheld rfl hbusy (by simpa [Event.batch] using hb)]
    exact h.stage k

/-- A worker goes on with its batch `b`, or stops: as long as the batch was not given up, it announces what it owes. -/
theorem Sound.advance (h : Sound y good p) {i b : Nat} {w w' : Worker} {cur : List Nat} (hw : p.workers[i]? = some w)
    (hserves : w.Serves b) (hcur : w.restOf b = some cur) (hserves' : w'.Serves b) {events : List (Event α)}
    (he : ∀ e ∈ events, e.batch = b) (hstarted : ∀ k, Event.started k ∉ events) {shared : σ} (hshared : good shared)
    (howed : (p.view b).desk.abandoned = [] → Owed y b cur events (w'.restOf b).toList) :
    Sound y good { p.advance i w' events with shared } := by
  refine ⟨h.valid, hshared, fun k => ?_, h.flags⟩
  show Stage y p.pathOf k p.batches[k]? ((p.advance i w' events).view k)
  have hheld : w'.heldOf k = w.heldOf k := (hserves'.2 k).trans (hserves.2 k).symm
  by_cases hb : b = k
  · subst hb
    obtain ⟨l, r, hold, hnew⟩ := Pool.view_advance hw hheld events
    have hevents : events.filter (fun e => e.batch == b) = events := by
      simpa using he
    have hworking : (p.view b).working = l ++ cur :: r := by simpa [hcur] using hold
    rw [hnew, hevents]
    by_cases hgone : (p.view b).desk.abandoned = []
    · exact (h.stage b).extend hworking hgone (howed hgone)
    · exact (h.stage b).late hgone hstarted
  · rw [Pool.view_advance_of_ne hw hheld (hserves.1 k hb) (hserves'.1 k hb) fun e hmem => he e hmem ▸ hb]
    exact h.stage k

/-- The flag of a batch is raised exactly when the coordinator has given the batch up. -/
theorem Sound.isCancelled_eq (h : Sound y good p) (k : Nat) : p.isCancelled k = p.coordinator.abandoned.contains k := by
  unfold Pool.isCancelled
  rw [h.flags, List.getElem?_map]
  by_cases hk : k < p.batches.length
  case pos =>
    rw [List.getElem?_range hk]
    rfl
  case neg =>
    have hstage := h.stage k
    rw [List.getElem?_eq_none (Nat.le_of_not_lt hk)] at hstage
    have hnone : (p.view k).desk.abandoned = [] := by
      generalize p.view k = v at hstage
      cases hstage
      rfl
    have hfree : p.coordinator.abandoned.contains k = false := by
      rw [← Coordinator.contains_only, show (p.coordinator.only k).abandoned = [] from hnone]
      rfl
    rw [List.getElem?_eq_none (by simpa using hk), hfree]
    rfl

theorem Sound.isCancelled_iff (h : Sound y good p) (k : Nat) :
    p.isCancelled k = true ↔ (p.view k).desk.abandoned ≠ [] := by
  rw [h.isCancelled_eq]
  simp [Pool.view, Coordinator.only, List.filter_eq_nil_iff]

/-- A worker works on files only. -/
theorem Sound.file_of_working (h : Sound y good p) {i b index : Nat} {w : Worker} {rest : List Nat}
    (hw : p.workers[i]? = some w) (hcur : w.restOf b = some (index :: rest))
    (hkept : (p.view b).desk.abandoned = []) : ∃ file, p.files[index]? = some file := by
  obtain ⟨l, r, hold, -⟩ := filterMap_set hw (Worker.restOf b)
  have hworking : (p.view b).working = l ++ (index :: rest) :: r := by
    simpa [hcur, Pool.view] using hold
  obtain ⟨members, hmembers, hmem⟩ := (h.stage b).mem_members hworking hkept
  have hindex := h.valid members (List.mem_of_getElem? hmembers) index (hmem index List.mem_cons_self)
  exact ⟨p.files[index], Array.getElem?_eq_getElem hindex⟩

/-- A worker ends its batch when no file is left, or when the batch was given up. -/
theorem Sound.finish (h : Sound y good p) {i b : Nat} {rest : List Nat} (hw : p.workers[i]? = some (.busy b rest))
    (hend : rest = [] ∨ p.isCancelled b = true) : Sound y good (p.advance i .idle [.finished b]) := by
  refine h.advance hw (Worker.serves_busy b rest) (Worker.restOf_busy b rest) (Worker.serves_idle b)
    (by simp [Event.batch]) (by simp) h.good fun hkept => ?_
  have hrest : rest = [] := hend.resolve_right fun hc => (h.isCancelled_iff b).mp hc hkept
  subst hrest
  exact .finished

/-- A worker turns to the next file of its batch. -/
theorem Sound.turn (h : Sound y good p) {i b index : Nat} {rest : List Nat}
    (hw : p.workers[i]? = some (.busy b (index :: rest))) :
    Sound y good (p.advance i (.scanning b index rest) []) := by
  refine h.advance hw (Worker.serves_busy b _) (Worker.restOf_busy b _) (Worker.serves_scanning b index rest)
    (by simp) (by simp) h.good fun _ => ?_
  rw [Worker.restOf_scanning]
  exact .working _

/-- A worker has scanned a file. -/
theorem Sound.scanNext (h : Sound y good p) (hscan : Keeps scan p.files good y) {i b index : Nat} {rest : List Nat}
    (hw : p.workers[i]? = some (.scanning b index rest)) {file : SourceFile} (hfile : p.files[index]? = some file) :
    Sound y good
      (match scan file p.shared with
      | (.value a, shared) => { p.advance i (.busy b rest) [.file b index (.ok a)] with shared }
      | (.failure f, shared) => { p.advance i (.busy b rest) [.file b index (.error f)] with shared }
      | (.breakdown message, shared) => { p.advance i .idle [.brokeDown b i message] with shared }) := by
  obtain ⟨hallowed, hgood⟩ := hscan index file p.shared hfile h.good
  have hserves := Worker.serves_scanning b index rest
  have hcur := Worker.restOf_scanning b index rest
  generalize scan file p.shared = result at hallowed hgood ⊢
  obtain ⟨attempt, shared⟩ := result
  cases attempt with
  | value a =>
    refine h.advance hw hserves hcur (Worker.serves_busy b rest) (by simp [Event.batch]) (by simp) hgood fun _ => ?_
    rw [Worker.restOf_busy]
    exact .file hallowed (.working rest)
  | failure f =>
    refine h.advance hw hserves hcur (Worker.serves_busy b rest) (by simp [Event.batch]) (by simp) hgood fun _ => ?_
    rw [Worker.restOf_busy]
    exact .file hallowed (.working rest)
  | breakdown message =>
    refine h.advance hw hserves hcur (Worker.serves_idle b) (by simp [Event.batch]) (by simp) hgood fun _ => ?_
    exact .brokeDown _ i hallowed

/-- A worker passes over a position without a file; unless the batch was given up, there is none. -/
theorem Sound.skip (h : Sound y good p) {i b index : Nat} {rest : List Nat}
    (hw : p.workers[i]? = some (.scanning b index rest)) (hfile : p.files[index]? = none) :
    Sound y good (p.advance i (.busy b rest) []) := by
  refine h.advance hw (Worker.serves_scanning b index rest) (Worker.restOf_scanning b index rest)
    (Worker.serves_busy b rest) (by simp) (by simp) h.good fun hkept => ?_
  obtain ⟨file, hsome⟩ := h.file_of_working hw (Worker.restOf_scanning b index rest) hkept
  rw [hfile] at hsome
  cases hsome

/-- One step of a worker. -/
theorem Sound.work (h : Sound y good p) (hscan : Keeps scan p.files good y) (i : Nat) :
    Sound y good (p.work scan i) := by
  unfold Pool.work
  cases hw : p.workers[i]? with
  | none => exact h
  | some w =>
    cases w with
    | idle =>
      dsimp only
      cases hq : p.queue with
      | nil => exact h
      | cons head queue => exact h.take hw hq
    | taking b files => exact h.announce hw
    | busy b rest =>
      cases rest with
      | nil => exact h.finish hw (Or.inl rfl)
      | cons index rest =>
        dsimp only
        split
        · rename_i hcancelled
          exact h.finish hw (Or.inr hcancelled)
        · exact h.turn hw
    | scanning b index rest =>
      dsimp only
      cases hfile : p.files[index]? with
      | none => exact h.skip hw hfile
      | some file => exact h.scanNext hscan hw hfile

theorem Pool.filesOf_eq (p : Pool σ α) (k : Nat) (members : List Nat) (h : p.batches[k]? = some members) :
    p.filesOf k = members := by
  unfold Pool.filesOf
  rw [h]
  rfl

theorem Coordinator.abandoned_receive (c : Coordinator α) (filesOf : Nat → List Nat) (pathOf : Nat → String)
    (e : Event α) : (c.receive filesOf pathOf e).abandoned = c.abandoned := by
  cases e with
  | started => rfl
  | file => rfl
  | finished =>
    simp only [receive]
    split
    · rfl
    · split <;> rfl
  | brokeDown =>
    simp only [receive]
    split <;> rfl

/-- One announcement arrives. -/
theorem Sound.deliver (h : Sound y good p) : Sound y good (p.step scan .deliver) := by
  unfold Pool.step
  cases hc : p.channel with
  | nil => exact h
  | cons e channel =>
    refine ⟨h.valid, h.good, fun k => ?_, h.flags.trans (by rw [Coordinator.abandoned_receive])⟩
    show Stage y p.pathOf k p.batches[k]?
      { p.view k with
        coming := channel.filter fun e => e.batch == k
        desk := (p.coordinator.receive p.filesOf p.pathOf e).only k }
    by_cases he : e.batch = k
    · subst he
      have hcoming : (p.view e.batch).coming = e :: channel.filter fun e' => e'.batch == e.batch := by
        simp [Pool.view, hc]
      rw [Coordinator.only_receive]
      exact (h.stage e.batch).receive hcoming rfl (p.filesOf_eq e.batch)
    · have hcoming : (p.view k).coming = channel.filter fun e => e.batch == k := by
        simp [Pool.view, hc, he]
      rw [Coordinator.only_receive_of_ne _ _ _ he, ← hcoming]
      exact h.stage k

/-- The flags after one more batch was given up. -/
theorem set_map_contains (n b : Nat) (abandoned : List Nat) : ((List.range n).map abandoned.contains).set b true =
    (List.range n).map (abandoned ++ [b]).contains := by
  refine List.ext_getElem (by simp) fun k hk _ => ?_
  rw [List.getElem_set, List.getElem_map, List.getElem_map, List.getElem_range]
  split
  case isTrue hsame => simp [hsame]
  case isFalse hother => simp [List.contains_eq_mem, Ne.symm hother]

/-- The coordinator finds a batch overdue. -/
theorem Sound.giveUp (h : Sound y good p) (overdue : Nat × Nat) : Sound y good (p.giveUp overdue) := by
  obtain ⟨b, nanos⟩ := overdue
  unfold Pool.giveUp
  cases hrunning : p.coordinator.running? b with
  | none => exact h
  | some r =>
    refine ⟨h.valid, h.good, fun k => ?_, ?_⟩
    · show Stage y p.pathOf k p.batches[k]?
        { p.view k with desk := (p.coordinator.abandon p.filesOf (b, nanos)).only k }
      by_cases hb : b = k
      · subst hb
        rw [Coordinator.only_abandon]
        exact (h.stage b).abandon nanos (p.filesOf_eq b)
      · rw [Coordinator.only_abandon_of_ne _ _ hb]
        exact h.stage k
    · have habandoned : (p.coordinator.abandon p.filesOf (b, nanos)).abandoned = p.coordinator.abandoned ++ [b] := by
        unfold Coordinator.abandon
        rw [hrunning]
      show p.cancel.set b true = (List.range p.batches.length).map _
      rw [habandoned, h.flags, set_map_contains]

/-- The coordinator finds batches overdue, one after the other. -/
theorem Sound.wake (h : Sound y good p) (overdue : List (Nat × Nat)) :
    Sound y good (p.step scan (.wake overdue)) := by
  show Sound y good (overdue.foldl Pool.giveUp p)
  induction overdue generalizing p with
  | nil => exact h
  | cons o overdue ih => exact ih (h.giveUp o)

/-- One choice of the scheduler. -/
theorem Sound.step (h : Sound y good p) (hscan : Keeps scan p.files good y) (c : Choice) :
    Sound y good (p.step scan c) := by
  cases c with
  | work i => exact h.work hscan i
  | deliver => exact h.deliver
  | wake overdue => exact h.wake overdue

end Steps

/-! ## Runs of a pool -/

namespace Pool

/-- A worker changes neither the files and the batches nor the flags. -/
theorem work_fixed (scan : Scanner σ α) (p : Pool σ α) (i : Nat) :
    (p.work scan i).files = p.files ∧ (p.work scan i).batches = p.batches ∧ (p.work scan i).cancel = p.cancel := by
  unfold work
  split
  · exact ⟨rfl, rfl, rfl⟩
  · split <;> exact ⟨rfl, rfl, rfl⟩
  · exact ⟨rfl, rfl, rfl⟩
  · exact ⟨rfl, rfl, rfl⟩
  · split <;> exact ⟨rfl, rfl, rfl⟩
  · split
    · exact ⟨rfl, rfl, rfl⟩
    · split <;> exact ⟨rfl, rfl, rfl⟩

/-- Finding batches overdue changes nothing but the flags and the coordinator. -/
theorem step_wake_eq (scan : Scanner σ α) (p : Pool σ α) (overdue : List (Nat × Nat)) :
    ∃ cancel coordinator, p.step scan (.wake overdue) = { p with cancel, coordinator } := by
  show ∃ cancel coordinator, overdue.foldl giveUp p = { p with cancel, coordinator }
  induction overdue generalizing p with
  | nil => exact ⟨p.cancel, p.coordinator, rfl⟩
  | cons o overdue ih =>
    obtain ⟨cancel, coordinator, hrest⟩ := ih (p.giveUp o)
    refine ⟨cancel, coordinator, hrest.trans ?_⟩
    unfold giveUp
    split <;> rfl

/-- The files and the batches stay as they are. -/
theorem step_fixed (scan : Scanner σ α) (p : Pool σ α) (c : Choice) :
    (p.step scan c).files = p.files ∧ (p.step scan c).batches = p.batches := by
  cases c with
  | work i =>
    obtain ⟨hfiles, hbatches, -⟩ := p.work_fixed scan i
    exact ⟨hfiles, hbatches⟩
  | deliver =>
    unfold step
    cases p.channel <;> exact ⟨rfl, rfl⟩
  | wake overdue =>
    obtain ⟨cancel, coordinator, hwake⟩ := p.step_wake_eq scan overdue
    rw [hwake]
    exact ⟨rfl, rfl⟩

theorem run_fixed (scan : Scanner σ α) (p : Pool σ α) (schedule : List Choice) :
    (p.run scan schedule).files = p.files ∧ (p.run scan schedule).batches = p.batches := by
  induction schedule generalizing p with
  | nil => exact ⟨rfl, rfl⟩
  | cons c schedule ih =>
    obtain ⟨hfiles, hbatches⟩ := ih (p.step scan c)
    obtain ⟨hfiles', hbatches'⟩ := p.step_fixed scan c
    exact ⟨hfiles.trans hfiles', hbatches.trans hbatches'⟩

end Pool

section Runs

variable {y : Promise α} {good : σ → Prop} {p : Pool σ α} {scan : Scanner σ α}

/-- Every schedule. -/
theorem Sound.run (h : Sound y good p) (hscan : Keeps scan p.files good y) (schedule : List Choice) :
    Sound y good (p.run scan schedule) := by
  induction schedule generalizing p with
  | nil => exact h
  | cons c schedule ih =>
    have hfiles := (p.step_fixed scan c).1
    exact ih (h.step hscan c) (hfiles ▸ hscan)

/-- The batches hold the pending files in order. -/
theorem flatten_batchesOf (size : Nat) {fuel : Nat} {pending : List Nat} (h : pending.length ≤ fuel) :
    (batchesOf size fuel pending).flatten = pending := by
  induction fuel generalizing pending with
  | zero =>
    have hnil : pending = [] := List.length_eq_zero_iff.mp (Nat.le_zero.mp h)
    rw [hnil]
    rfl
  | succ fuel ih =>
    unfold batchesOf
    split
    · rename_i hempty
      rw [List.isEmpty_iff.mp hempty]
      rfl
    · rw [List.flatten_cons, ih, List.take_append_drop]
      rw [List.length_drop]
      omega

/-- A pool keeps its files, and its batches share out those that were pending. -/
theorem Pool.run_start_fixed (scan : Scanner σ α) (files : Array SourceFile) (pending : List Nat) (batchSize workers : Nat)
    (shared : σ) (schedule : List Choice) :
    ((Pool.start files pending batchSize workers shared : Pool σ α).run scan schedule).files = files ∧
      ((Pool.start files pending batchSize workers shared : Pool σ α).run scan schedule).batches.flatten = pending := by
  obtain ⟨hfiles, hbatches⟩ := Pool.run_fixed scan (Pool.start files pending batchSize workers shared) schedule
  refine ⟨hfiles, ?_⟩
  rw [hbatches]
  exact flatten_batchesOf batchSize (Nat.le_refl pending.length)

theorem waiting_zipIdx (batches : List (List Nat)) (n k : Nat) :
    (((batches.zipIdx n).map fun (files, batch) => (batch, files)).filter fun b => b.1 == k).map (·.2) =
      if n ≤ k then batches[k - n]?.toList else [] := by
  induction batches generalizing n with
  | nil => simp
  | cons members batches ih =>
    rw [List.zipIdx_cons, List.map_cons, List.filter_cons]
    by_cases hk : n = k
    · subst hk
      have hrest := ih (n + 1)
      rw [if_neg (by omega)] at hrest
      simp [hrest]
    · have hrest := ih (n + 1)
      have hhead : ((n == k) = true) = False := by simp [hk]
      simp only [hhead, if_false, hrest]
      by_cases hle : n ≤ k
      · have hpos : k - n = (k - (n + 1)) + 1 := by omega
        rw [if_pos (by omega), if_pos hle, hpos, List.getElem?_cons_succ]
      · rw [if_neg (by omega), if_neg hle]

theorem Sound.start {files : Array SourceFile} {pending : List Nat} (hpending : ∀ i ∈ pending, i < files.size)
    (batchSize workers : Nat) {shared : σ} (hgood : good shared) :
    Sound y good (Pool.start files pending batchSize workers shared : Pool σ α) := by
  refine ⟨fun members hmem i hi => hpending i ?_, hgood, fun k => ?_, ?_⟩
  · rw [← flatten_batchesOf batchSize (Nat.le_refl pending.length)]
    exact List.mem_flatten.mpr ⟨members, hmem, hi⟩
  · have hview : (Pool.start files pending batchSize workers shared : Pool σ α).view k =
        ⟨(batchesOf batchSize pending.length pending)[k]?.toList, [], [], .start⟩ := by
      have hwaiting := waiting_zipIdx (batchesOf batchSize pending.length pending) 0 k
      rw [if_pos (Nat.zero_le k), Nat.sub_zero] at hwaiting
      have hworking : (List.replicate (max workers 1) Worker.idle).filterMap (Worker.restOf k) = [] := by
        simp [Worker.restOf]
      have hheld : (List.replicate (max workers 1) Worker.idle).filterMap (Worker.heldOf k) = [] := by
        simp [Worker.heldOf]
      show View.mk (_ ++ (List.replicate (max workers 1) Worker.idle).filterMap (Worker.heldOf k)) _ _ _ = _
      rw [hheld, List.append_nil, ← hwaiting, ← hworking]
      rfl
    rw [hview]
    show Stage y _ k (batchesOf batchSize pending.length pending)[k]? _
    cases (batchesOf batchSize pending.length pending)[k]? with
    | none => exact .absent
    | some members => exact .waiting
  · show List.replicate _ false = (List.range _).map fun _ => false
    rw [List.map_const', List.length_range]
    rfl

theorem Pool.view_of_isDone (hd : p.isDone = true) (k : Nat) : p.view k = ⟨[], [], [], p.coordinator.only k⟩ := by
  simp only [Pool.isDone, Bool.and_eq_true, List.isEmpty_iff, List.all_eq_true, beq_iff_eq] at hd
  obtain ⟨⟨hqueue, hchannel⟩, hworkers⟩ := hd
  have hworking : p.workers.filterMap (Worker.restOf k) = [] := by
    rw [List.filterMap_eq_nil_iff]
    intro w hw
    rw [hworkers w hw]
    rfl
  have hheld : p.workers.filterMap (Worker.heldOf k) = [] := by
    rw [List.filterMap_eq_nil_iff]
    intro w hw
    rw [hworkers w hw]
    rfl
  simp [Pool.view, hqueue, hchannel, hworking, hheld]

/-- The reports that a batch with these members may end with. -/
inductive Ended (y : Promise α) (pathOf : Nat → String) (k : Nat) (members : List Nat) : Report α → Prop where
  | completed {outs : List (Nat × Except Failure α)} (all : members = outs.map (·.1))
      (kept : ∀ o ∈ outs, y.outcome o.1 o.2) :
      Ended y pathOf k members (.completed k members (valuesOf outs) (failuresOf pathOf outs))
  | timedOut (nanos : Nat) : Ended y pathOf k members (.timedOut k members nanos)
  | failed (worker : Nat) {i : Nat} {message : String} (hi : i ∈ members) (h : y.breakdown i message) :
      Ended y pathOf k members (.failed k worker members message)

/-- When nothing is left to do, each batch has exactly one report; it says that the batch took too long exactly when the
batch was given up. -/
theorem Sound.reported_of_isDone (h : Sound y good p) (hd : p.isDone = true) {k : Nat} {members : List Nat}
    (hk : p.batches[k]? = some members) :
    ∃ r, (p.coordinator.reports.filter fun r => r.batch == k) = [r] ∧ Ended y p.pathOf k members r ∧
      (k ∈ p.coordinator.abandoned ↔ ∃ nanos, r = .timedOut k members nanos) := by
  have hstage := h.stage k
  rw [p.view_of_isDone hd, hk] at hstage
  have habandoned : k ∈ p.coordinator.abandoned ↔ k ∈ (p.coordinator.only k).abandoned := by
    simp [Coordinator.only]
  show ∃ r, (p.coordinator.only k).reports = [r] ∧ _
  generalize p.coordinator.only k = desk at hstage habandoned ⊢
  cases hstage with
  | givenUp =>
    refine ⟨_, rfl, .timedOut _, ?_⟩
    simp [habandoned, Coordinator.gaveUp]
  | completed all kept =>
    refine ⟨_, rfl, .completed all kept, ?_⟩
    simp [habandoned, Coordinator.after]
  | failed hi hm =>
    refine ⟨_, rfl, .failed _ hi hm, ?_⟩
    simp [habandoned, Coordinator.after]
  | running split kept owed => cases owed

theorem Sound.batch_lt_of_mem_reports (h : Sound y good p) {r : Report α} (hr : r ∈ p.coordinator.reports) :
    r.batch < p.batches.length := by
  by_contra hlt
  have hstage := h.stage r.batch
  rw [List.getElem?_eq_none (Nat.le_of_not_lt hlt)] at hstage
  have hmem : r ∈ (p.view r.batch).desk.reports := List.mem_filter.mpr ⟨hr, by simp⟩
  generalize p.view r.batch = v at hstage hmem
  cases hstage
  exact absurd hmem List.not_mem_nil

/-- When nothing is left to do, every report is about a batch of the pool, whose members it carries. -/
theorem Sound.ended_of_mem_reports (h : Sound y good p) (hd : p.isDone = true) {r : Report α}
    (hr : r ∈ p.coordinator.reports) :
    ∃ members, p.batches[r.batch]? = some members ∧ Ended y p.pathOf r.batch members r := by
  have hmembers := List.getElem?_eq_getElem (h.batch_lt_of_mem_reports hr)
  obtain ⟨r', hr', hended, -⟩ := h.reported_of_isDone hd hmembers
  have hmem : r ∈ p.coordinator.reports.filter fun r' => r'.batch == r.batch := List.mem_filter.mpr ⟨hr, by simp⟩
  rw [hr', List.mem_singleton] at hmem
  rw [← hmem] at hended
  exact ⟨_, hmembers, hended⟩

end Runs

end CodeAtlas.Scan
