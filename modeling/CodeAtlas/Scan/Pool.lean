/-
  Workers that process batches of files, and the coordinator that collects what they find.

  All batches wait in a queue.  An idle worker takes the next one, announces it, processes its files one after the other
  and announces its end; a worker whose scan of a file breaks down announces that instead.  The announcements arrive at
  the coordinator in the order in which they were made.  It hands a batch over when the batch is finished, and gives a
  batch up when it is found overdue.  The flag of such a batch is raised, so that its worker stops before the next file, and
  what that worker announces is no longer heard.

  `Pool.step` performs one choice of a scheduler, and a list of choices is a schedule.  A worker takes a batch, announces
  it, looks whether it was given up and scans a file in separate steps, between which all others may go on.  `Pool.drive`
  is the schedule of workers whose scans take known times.
-/
import CodeAtlas.Failure
import CodeAtlas.SourceFile

namespace CodeAtlas

/-- How the scan of one file ends. -/
inductive Attempt (α : Type) where
  | value (a : α)
  | failure (f : Failure)
  /-- The scan broke down with a message. -/
  | breakdown (message : String)
  deriving DecidableEq, Repr

/-- A scan of one file, with a state that all scans share. -/
abbrev Scanner (σ α : Type) : Type :=
  SourceFile → σ → Attempt α × σ

namespace Scan

/-- What a worker announces. -/
inductive Event (α : Type) where
  | started (batch : Nat)
  | file (batch index : Nat) (outcome : Except Failure α)
  | finished (batch : Nat)
  | brokeDown (batch worker : Nat) (message : String)

/-- What became of a batch, whose files are given by their positions. -/
inductive Report (α : Type) where
  | completed (batch : Nat) (files : List Nat) (results : List (Nat × α)) (errors : List FileError)
  | timedOut (batch : Nat) (files : List Nat) (elapsedNanos : Nat)
  | failed (batch worker : Nat) (files : List Nat) (message : String)

/-- What a batch in progress has yielded so far. -/
structure Running (α : Type) where
  batch : Nat
  results : List (Nat × α)
  errors : List FileError

/-- The state of the coordinator. -/
structure Coordinator (α : Type) where
  inFlight : List (Running α)
  /-- The batches that were given up. -/
  abandoned : List Nat
  /-- What became of the batches so far. -/
  reports : List (Report α)

/-- What a worker is doing. -/
inductive Worker where
  | idle
  /-- It has taken a batch and not announced it yet. -/
  | taking (batch : Nat) (files : List Nat)
  /-- It is between two files of a batch, of which these are still to be scanned. -/
  | busy (batch : Nat) (rest : List Nat)
  /-- It scans a file, and has found before that the batch was not given up. -/
  | scanning (batch index : Nat) (rest : List Nat)
  deriving DecidableEq, Repr

/-- The workers, the announcements on their way, and the coordinator. -/
structure Pool (σ α : Type) where
  files : Array SourceFile
  /-- The files of each batch. -/
  batches : List (List Nat)
  /-- The batches that no worker has taken yet. -/
  queue : List (Nat × List Nat)
  workers : List Worker
  /-- The announcements that have not arrived, oldest first. -/
  channel : List (Event α)
  /-- The flags of the batches, raised where the worker is to stop. -/
  cancel : List Bool
  coordinator : Coordinator α
  shared : σ

/-- A choice of the scheduler. -/
inductive Choice where
  /-- A worker goes one step further. -/
  | work (worker : Nat)
  /-- The oldest announcement arrives. -/
  | deliver
  /-- The coordinator finds batches overdue, each after the given time. -/
  | wake (overdue : List (Nat × Nat))
  deriving DecidableEq, Repr

/-- The positions in runs of `size`, the last one perhaps shorter. -/
def batchesOf (size : Nat) : (fuel : Nat) → List Nat → List (List Nat)
  | 0, _ => []
  | fuel + 1, pending =>
    if pending.isEmpty then [] else pending.take (max size 1) :: batchesOf size fuel (pending.drop (max size 1))

namespace Coordinator

variable {α : Type}

/-- The coordinator before anything has arrived. -/
def start : Coordinator α :=
  ⟨[], [], []⟩

/-- What a batch in progress has yielded. -/
def running? (c : Coordinator α) (batch : Nat) : Option (Running α) :=
  c.inFlight.find? fun r => r.batch == batch

/-- The coordinator without a batch in progress. -/
def dismiss (c : Coordinator α) (batch : Nat) : Coordinator α :=
  { c with inFlight := c.inFlight.filter fun r => r.batch != batch }

/-- The coordinator after a report. -/
def report (c : Coordinator α) (r : Report α) : Coordinator α :=
  { c with reports := c.reports ++ [r] }

/-- What a batch in progress has yielded after one more file. -/
def Running.add (pathOf : Nat → String) (r : Running α) (index : Nat) : Except Failure α → Running α
  | .ok value => { r with results := r.results ++ [(index, value)] }
  | .error f => { r with errors := r.errors ++ [.atPath (pathOf index) f] }

/-- The coordinator after an announcement. -/
def receive (c : Coordinator α) (filesOf : Nat → List Nat) (pathOf : Nat → String) : Event α → Coordinator α
  | .started batch => { c.dismiss batch with inFlight := (c.dismiss batch).inFlight ++ [⟨batch, [], []⟩] }
  | .file batch index outcome =>
    { c with
      inFlight := c.inFlight.map fun r => if r.batch == batch then Running.add pathOf r index outcome else r }
  | .finished batch =>
    if c.abandoned.contains batch then c
    else match c.running? batch with
      | some r => (c.dismiss batch).report (.completed batch (filesOf batch) r.results r.errors)
      | none => c
  | .brokeDown batch worker message =>
    if c.abandoned.contains batch then c
    else (c.dismiss batch).report (.failed batch worker (filesOf batch) message)

/-- The coordinator after finding a batch overdue; a batch that is not in progress is not given up. -/
def abandon (c : Coordinator α) (filesOf : Nat → List Nat) (overdue : Nat × Nat) : Coordinator α :=
  match c.running? overdue.1 with
  | some _ =>
    { (c.dismiss overdue.1).report (.timedOut overdue.1 (filesOf overdue.1) overdue.2) with
      abandoned := c.abandoned ++ [overdue.1] }
  | none => c

end Coordinator

namespace Pool

variable {σ α : Type}

/-- Workers before they have begun on the pending files. -/
def start (files : Array SourceFile) (pending : List Nat) (batchSize workers : Nat) (shared : σ) : Pool σ α :=
  let batches := batchesOf batchSize pending.length pending
  { files, batches
    queue := batches.zipIdx.map fun (files, batch) => (batch, files)
    workers := List.replicate (max workers 1) .idle
    channel := []
    cancel := List.replicate batches.length false
    coordinator := .start
    shared }

/-- The files of a batch. -/
def filesOf (p : Pool σ α) (batch : Nat) : List Nat :=
  p.batches[batch]?.getD []

/-- The path of a file. -/
def pathOf (p : Pool σ α) (index : Nat) : String :=
  (p.files[index]?.map (·.path)).getD ""

/-- Whether the flag of a batch is raised. -/
def isCancelled (p : Pool σ α) (batch : Nat) : Bool :=
  p.cancel[batch]?.getD false

/-- The pool after a worker has changed what it is doing and perhaps announced something. -/
def advance (p : Pool σ α) (worker : Nat) (w : Worker) (events : List (Event α)) : Pool σ α :=
  { p with workers := p.workers.set worker w, channel := p.channel ++ events }

/-- The pool after a step of a worker. -/
def work (scan : Scanner σ α) (p : Pool σ α) (worker : Nat) : Pool σ α :=
  match p.workers[worker]? with
  | none => p
  | some .idle =>
    match p.queue with
    | [] => p
    | (batch, files) :: queue => { p.advance worker (.taking batch files) [] with queue }
  | some (.taking batch files) => p.advance worker (.busy batch files) [.started batch]
  | some (.busy batch []) => p.advance worker .idle [.finished batch]
  | some (.busy batch (index :: rest)) =>
    if p.isCancelled batch then p.advance worker .idle [.finished batch]
    else p.advance worker (.scanning batch index rest) []
  | some (.scanning batch index rest) =>
    match p.files[index]? with
    | none => p.advance worker (.busy batch rest) []
    | some file =>
      match scan file p.shared with
      | (.value a, shared) => { p.advance worker (.busy batch rest) [.file batch index (.ok a)] with shared }
      | (.failure f, shared) => { p.advance worker (.busy batch rest) [.file batch index (.error f)] with shared }
      | (.breakdown message, shared) => { p.advance worker .idle [.brokeDown batch worker message] with shared }

/-- The pool after finding a batch overdue: if it is in progress, its flag is raised and the coordinator gives it up. -/
def giveUp (p : Pool σ α) (overdue : Nat × Nat) : Pool σ α :=
  match p.coordinator.running? overdue.1 with
  | some _ =>
    { p with cancel := p.cancel.set overdue.1 true, coordinator := p.coordinator.abandon p.filesOf overdue }
  | none => p

/-- The pool after a choice of the scheduler. -/
def step (scan : Scanner σ α) (p : Pool σ α) : Choice → Pool σ α
  | .work worker => p.work scan worker
  | .deliver =>
    match p.channel with
    | [] => p
    | event :: channel => { p with channel, coordinator := p.coordinator.receive p.filesOf p.pathOf event }
  | .wake overdue => overdue.foldl giveUp p

/-- The pool after a schedule. -/
def run (scan : Scanner σ α) (p : Pool σ α) (schedule : List Choice) : Pool σ α :=
  schedule.foldl (step scan) p

/-- Whether nothing is left to do. -/
def isDone (p : Pool σ α) : Bool :=
  p.queue.isEmpty && p.channel.isEmpty && p.workers.all (· == .idle)

/-- Whether a worker has something to do. -/
def hasWork (p : Pool σ α) (worker : Nat) : Bool :=
  match p.workers[worker]? with
  | none => false
  | some .idle => !p.queue.isEmpty
  | some _ => true

end Pool

/-- How far the time of each worker has come, and when each batch was announced, in milliseconds. -/
structure Clock where
  times : List Nat
  announced : List (Nat × Nat)

namespace Clock

/-- The clock before so many workers have begun. -/
def start (workers : Nat) : Clock :=
  ⟨List.replicate workers 0, []⟩

/-- How far the time of a worker has come. -/
def timeOf (c : Clock) (worker : Nat) : Nat :=
  c.times[worker]?.getD 0

/-- When a batch was announced. -/
def announcedAt (c : Clock) (batch : Nat) : Nat :=
  (c.announced.lookup batch).getD 0

/-- Of two workers the one whose time has come less far, and of two as far the first. -/
def earlier (c : Clock) (best : Option Nat) (worker : Nat) : Option Nat :=
  match best with
  | none => some worker
  | some b => if c.timeOf worker < c.timeOf b then some worker else some b

end Clock

namespace Pool

variable {σ α : Type}

/-- The worker that goes on next: of those with something to do the one whose time has come least far. -/
def next? (p : Pool σ α) (clock : Clock) : Option Nat :=
  ((List.range p.workers.length).filter p.hasWork).foldl clock.earlier none

/-- The clock after a worker has gone one step further; a scan takes its time as soon as it begins. -/
def tick (duration : SourceFile → Nat) (p : Pool σ α) (clock : Clock) (worker : Nat) : Clock :=
  match p.workers[worker]? with
  | some (.taking batch _) => { clock with announced := (batch, clock.timeOf worker) :: clock.announced }
  | some (.busy batch (index :: _)) =>
    if p.isCancelled batch then clock
    else { clock with times := clock.times.set worker (clock.timeOf worker + (p.files[index]?.map duration).getD 0) }
  | _ => clock

/-- The batches in progress that are overdue at a time. -/
def overdue (timeoutPerFileMs : Nat) (p : Pool σ α) (clock : Clock) (now : Nat) : List (Nat × Nat) :=
  (p.coordinator.inFlight.filter fun r =>
    timeoutPerFileMs * (p.filesOf r.batch).length < now - clock.announcedAt r.batch).map
    fun r => (r.batch, (now - clock.announcedAt r.batch) * 1000000)

/-- The pool when its workers go on as their scans take their times, in at most `fuel` steps: whatever a worker
announces arrives before anyone goes on, after a look at the clock. -/
def drive (scan : Scanner σ α) (duration : SourceFile → Nat) (timeoutPerFileMs : Nat) :
    (fuel : Nat) → Clock → Pool σ α → Pool σ α
  | 0, _, p => p
  | fuel + 1, clock, p =>
    match p.next? clock with
    | none => p
    | some worker =>
      let now := clock.timeOf worker
      let clock := p.tick duration clock worker
      let p := p.step scan (.work worker)
      let p := p.step scan (.wake (p.overdue timeoutPerFileMs clock now))
      drive scan duration timeoutPerFileMs fuel clock (p.step scan .deliver)

/-- Steps enough for every batch to be taken, announced, scanned and ended. -/
def fuel (p : Pool σ α) : Nat :=
  p.batches.foldl (fun n b => n + 2 * b.length + 3) 0

end Pool

end Scan

end CodeAtlas
