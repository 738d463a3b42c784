/-
  Scanning many files: results of unchanged files come from a cache, the others are scanned one by one, or in batches
  when there are many.

  Results come back in the order of the files whatever the order in which they were found.  Files that fail, and all
  files of batches that fail or take too long, are recorded with their paths.
-/
import CodeAtlas.Cache
import CodeAtlas.Scan.Pool

namespace CodeAtlas

/-- Whether files are scanned one by one or in batches. -/
inductive ScanMode where
  | sequential
  | parallel
  deriving DecidableEq, Repr

/-- The tag of a mode. -/
def ScanMode.name : ScanMode → String
  | .sequential => "sequential"
  | .parallel => "parallel"

/-- How far a scan has come. -/
structure ScanProgress where
  processed : Nat
  total : Nat
  currentFile : Option String
  deriving DecidableEq, Repr

/-- The share of the files that are processed, in percent. -/
def ScanProgress.percent (p : ScanProgress) : Rat :=
  if p.total = 0 then 100 else quotient (p.processed * 100) p.total

/-- What a scan did. -/
structure ScanStats where
  mode : ScanMode
  total : Nat
  scanned : Nat
  cached : Nat
  failed : Nat
  timedOutBatches : Nat
  failedBatches : Nat
  cache : CacheStats
  deriving DecidableEq, Repr

/-- The result of a scan. -/
structure ScanOutcome (α : Type) where
  /-- The results in the order of the files. -/
  results : List α
  errors : List FileError
  stats : ScanStats
  progress : List ScanProgress

namespace Scan

/-- What the scan of the files that are not cached has yielded so far. -/
structure Tally (α : Type) where
  /-- Results with the positions of their files. -/
  fresh : List (Nat × α)
  errors : List FileError
  timedOutBatches : Nat
  failedBatches : Nat
  processed : Nat
  progress : List ScanProgress

namespace Tally

variable {α : Type}

/-- The tally after so many more files have been processed, the last of them given. -/
def advance (t : Tally α) (total count : Nat) (currentFile : Option String) : Tally α :=
  let processed := t.processed + count
  { t with processed, progress := t.progress ++ [⟨processed, total, currentFile⟩] }

/-- The tally of a scan that begins with some files cached. -/
def start (total cached : Nat) : Tally α :=
  let t : Tally α := ⟨[], [], 0, 0, cached, []⟩
  if 0 < cached then t.advance total 0 none else t

/-- The tally with one failure recorded for each of some files. -/
def recordAll (t : Tally α) (paths : List String) (f : Failure) : Tally α :=
  { t with errors := t.errors ++ paths.map fun path => .atPath path f }

/-- The tally after one file. -/
def addFile (t : Tally α) (total index : Nat) (path : String) (attempt : Attempt α) : Tally α :=
  let t := match attempt with
    | .value a => { t with fresh := t.fresh ++ [(index, a)] }
    | .failure f => t.recordAll [path] f
    | .breakdown message => t.recordAll [path] (.workerFailed 0 message)
  t.advance total 1 (some path)

/-- The tally after the report about a batch. -/
def addReport (t : Tally α) (total : Nat) (pathOf : Nat → String) : Report α → Tally α
  | .completed _ files results errors =>
    { t with fresh := t.fresh ++ results, errors := t.errors ++ errors }.advance total files.length
      (files.getLast?.map pathOf)
  | .timedOut batch files elapsedNanos =>
    { t.recordAll (files.map pathOf) (.batchTimeout batch elapsedNanos) with
      timedOutBatches := t.timedOutBatches + 1 }
  | .failed batch worker files message =>
    { t.recordAll (files.map pathOf) (.workerFailed worker ("batch " ++ toString batch ++ ": " ++ message)) with
      failedBatches := t.failedBatches + 1 }

/-- The tally after all reports of a pool. -/
def ofReports (t : Tally α) (total : Nat) (pathOf : Nat → String) (reports : List (Report α)) : Tally α :=
  reports.foldl (fun t r => t.addReport total pathOf r) t

end Tally

/-- The tally after scanning files, given by their positions, one by one. -/
def oneByOne {σ α : Type} (scan : Scanner σ α) (files : Array SourceFile) :
    (pending : List Nat) → Tally α → σ → Tally α × σ
  | [], t, shared => (t, shared)
  | index :: rest, t, shared =>
    match files[index]? with
    | none => oneByOne scan files rest t shared
    | some file =>
      let (attempt, shared) := scan file shared
      oneByOne scan files rest (t.addFile files.size index file.path attempt) shared

/-- The results of scans by path and version. -/
abbrev ResultCache (α : Type) : Type := Cache (String × String) α

/-- The cached results for some keys, and the cache after those lookups. -/
def lookup {α : Type} (cache : ResultCache α) : List (String × String) → List (Option α) × ResultCache α
  | [] => ([], cache)
  | key :: rest =>
    let (hit, cache) := cache.get key 0
    let (hits, cache) := lookup cache rest
    (hit :: hits, cache)

/-- The positions of the files without a result. -/
def missing {α : Type} (slots : List (Option α)) : List Nat :=
  slots.zipIdx.filterMap fun (slot, index) => if slot.isNone then some index else none

/-- The slots with the new results filled in. -/
def fill {α : Type} (slots : List (Option α)) (fresh : List (Nat × α)) : List (Option α) :=
  fresh.foldl (fun slots (index, a) => slots.set index (some a)) slots

/-- The cache with the new results put in. -/
def store {α : Type} (cache : ResultCache α) (keys : Array (String × String)) (fresh : List (Nat × α)) :
    ResultCache α :=
  fresh.foldl (fun cache (index, a) =>
    match keys[index]? with
    | some key => cache.put key a 0
    | none => cache) cache

end Scan

/-- The settings of scans and the results they keep. -/
structure ScanStore (α : Type) where
  config : BatchConfig
  cache : Scan.ResultCache α

namespace ScanStore

variable {σ α : Type}

/-- A store without results. -/
def new (config : BatchConfig) (cache : CacheConfig) : ScanStore α :=
  ⟨config, .new cache.resultCapacity none⟩

/-- How so many files are scanned. -/
def modeFor (s : ScanStore α) (count : Nat) : ScanMode :=
  if count < s.config.parallelThreshold then .sequential else .parallel

/-- The key of a file. -/
def keyOf (disk : Disk) (file : SourceFile) : String × String :=
  (file.path, file.versionKey disk)

/-- The cached results of the files, one slot for each, and the store after those lookups. -/
def openSlots (s : ScanStore α) (disk : Disk) (files : List SourceFile) : List (Option α) × ScanStore α :=
  if s.config.enableCache then
    let (slots, cache) := Scan.lookup s.cache (files.map (keyOf disk))
    (slots, { s with cache })
  else (files.map fun _ => none, s)

/-- The outcome of a scan whose new results are tallied, and the store with those results. -/
def close (s : ScanStore α) (disk : Disk) (files : List SourceFile) (slots : List (Option α))
    (tally : Scan.Tally α) : ScanOutcome α × ScanStore α :=
  let keys := (files.map (keyOf disk)).toArray
  let s := if s.config.enableCache then { s with cache := Scan.store s.cache keys tally.fresh } else s
  let stats : ScanStats :=
    { mode := s.modeFor files.length
      total := files.length
      scanned := tally.fresh.length
      cached := files.length - (Scan.missing slots).length
      failed := tally.errors.length
      timedOutBatches := tally.timedOutBatches
      failedBatches := tally.failedBatches
      cache := s.cache.stats }
  ({ results := (Scan.fill slots tally.fresh).filterMap id
     errors := tally.errors
     stats
     progress := tally.progress }, s)

/-- The pool for the files without results. -/
def pool (s : ScanStore α) (files : List SourceFile) (slots : List (Option α)) (workers : Nat) (shared : σ) :
    Scan.Pool σ α :=
  .start files.toArray (Scan.missing slots) s.config.batchSize workers shared

/-- The tally of the files without results; where they are scanned in batches, the pool takes the given course. -/
def tallyOn (s : ScanStore α) (scan : Scanner σ α) (workers : Nat) (course : Scan.Pool σ α → Scan.Pool σ α)
    (files : List SourceFile) (slots : List (Option α)) (shared : σ) : Scan.Tally α × σ :=
  let total := files.length
  let pending := Scan.missing slots
  let start : Scan.Tally α := .start total (total - pending.length)
  match s.modeFor total with
  | .sequential => Scan.oneByOne scan files.toArray pending start shared
  | .parallel =>
    let done := course (s.pool files slots workers shared)
    (start.ofReports total done.pathOf done.coordinator.reports, done.shared)

/-- The outcome of scanning files when the pool takes the given course, and the store and the shared state after it. -/
def scanOn (s : ScanStore α) (disk : Disk) (scan : Scanner σ α) (workers : Nat)
    (course : Scan.Pool σ α → Scan.Pool σ α) (files : List SourceFile) (shared : σ) :
    ScanOutcome α × ScanStore α × σ :=
  let (slots, s) := s.openSlots disk files
  let (tally, shared) := s.tallyOn scan workers course files slots shared
  let (outcome, s) := s.close disk files slots tally
  (outcome, s, shared)

/-- The outcome of scanning files when the scan of each takes the given time in milliseconds. There are four workers
unless the settings say otherwise. -/
def scan (s : ScanStore α) (disk : Disk) (scan : Scanner σ α) (duration : SourceFile → Nat)
    (files : List SourceFile) (shared : σ) : ScanOutcome α × ScanStore α × σ :=
  s.scanOn disk scan (s.config.workers?.getD 4)
    (fun pool => pool.drive scan duration s.config.timeoutPerFileMs pool.fuel (.start pool.workers.length)) files shared

end ScanStore

end CodeAtlas
