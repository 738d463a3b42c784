/-
  Progress is honest.

  Every report of progress counts more files than the one before it, whether one more file has been scanned or a whole
  batch, which is never empty (`Counted.addFile`, `Counted.addReport`).  A batch that took too long or failed is not
  counted.  Each batch has one report, so the files that are counted and those that are lost with their batches are
  together the files that were pending (`length_handled_add_lost`).
-/
import CodeAtlas.Proofs.Scan.Account

namespace CodeAtlas

variable {σ α : Type}

namespace Scan

/-! ## Reports of progress -/

/-- The reports of a scan that has come so far: each counts more files than the one before, the first of them the cached
files if there are any, and the last all files that are processed. -/
structure Counted (total cached processed : Nat) (progress : List ScanProgress) : Prop where
  outOf : ∀ r ∈ progress, r.total = total
  bounded : ∀ n ∈ progress.map (·.processed), n ≤ processed
  increasing : (progress.map (·.processed)).Pairwise (· < ·)
  first : 0 < cached → (progress.map (·.processed)).head? = some cached
  last : (progress.map (·.processed)).getLast?.getD 0 = processed

/-- The reports of a whole scan, of whose files some were cached and some were lost with their batches: the number of
processed files grows with each report and never exceeds the number of files; it begins with the cached files if there are
any, and at the end nothing but the lost files is missing. -/
structure Honest (total cached lost : Nat) (progress : List ScanProgress) : Prop where
  outOf : ∀ r ∈ progress, r.total = total
  bounded : ∀ n ∈ progress.map (·.processed), n ≤ total
  increasing : (progress.map (·.processed)).Pairwise (· < ·)
  first : 0 < cached → (progress.map (·.processed)).head? = some cached
  last : (progress.map (·.processed)).getLast?.getD 0 + lost = total

section Counted

variable {total cached processed lost : Nat} {progress : List ScanProgress}

theorem Counted.honest (h : Counted total cached processed progress) (hsum : processed + lost = total) :
    Honest total cached lost progress := by
  refine ⟨h.outOf, ?_, h.increasing, h.first, ?_⟩
  · intro n hn
    have hle := h.bounded n hn
    omega
  · rw [h.last]
    exact hsum

/-- One more report, about more files. -/
theorem Counted.concat (h : Counted total cached processed progress) {count : Nat} (hcount : 0 < count)
    (currentFile : Option String) :
    Counted total cached (processed + count) (progress ++ [⟨processed + count, total, currentFile⟩]) := by
  have hmap : (progress ++ [(⟨processed + count, total, currentFile⟩ : ScanProgress)]).map (·.processed) =
      progress.map (·.processed) ++ [processed + count] := List.map_append
  refine ⟨?_, ?_, ?_, ?_, ?_⟩
  · intro r hr
    obtain hr | hr := List.mem_append.mp hr
    · exact h.outOf r hr
    · rw [List.mem_singleton.mp hr]
  · intro n hn
    rw [hmap] at hn
    obtain hn | hn := List.mem_append.mp hn
    · have hle := h.bounded n hn
      omega
    · exact Nat.le_of_eq (List.mem_singleton.mp hn)
  · rw [hmap, List.pairwise_append]
    refine ⟨h.increasing, List.pairwise_singleton _ _, ?_⟩
    intro n hn m hm
    have hle := h.bounded n hn
    have heq := List.mem_singleton.mp hm
    omega
  · intro hcached
    rw [hmap, List.head?_append, h.first hcached]
    rfl
  · rw [hmap, List.getLast?_concat]
    rfl

theorem Tally.processed_start (total cached : Nat) : (Tally.start total cached : Tally α).processed = cached := by
  unfold Tally.start
  split <;> rfl

/-- A scan begins with the cached files, and reports them if there are any. -/
theorem counted_start (total cached : Nat) :
    Counted total cached (Tally.start total cached : Tally α).processed (Tally.start total cached : Tally α).progress := by
  rw [Tally.processed_start]
  unfold Tally.start
  split
  · refine ⟨?_, ?_, List.pairwise_singleton _ _, fun _ => rfl, rfl⟩
    · intro r hr
      rw [List.mem_singleton.mp hr]
    · intro n hn
      exact Nat.le_of_eq (List.mem_singleton.mp hn)
  · rename_i hnone
    have hzero : cached = 0 := by omega
    rw [hzero]
    exact ⟨fun _ hr => absurd hr List.not_mem_nil, fun _ hn => absurd hn List.not_mem_nil, .nil,
      fun hpos => absurd hpos (Nat.lt_irrefl 0), rfl⟩

end Counted

/-! ## One by one -/

section OneByOne

variable {files : List SourceFile} {total cached : Nat}

theorem Tally.processed_addFile (t : Tally α) (total index : Nat) (path : String) (attempt : Attempt α) :
    (t.addFile total index path attempt).processed = t.processed + 1 := by
  cases attempt <;> rfl

/-- Every file that is scanned counts, whatever comes of it. -/
theorem Counted.addFile {t : Tally α} (h : Counted total cached t.processed t.progress) (index : Nat) (path : String)
    (attempt : Attempt α) :
    Counted total cached (t.processed + 1) (t.addFile total index path attempt).progress := by
  have hreport : (t.addFile total index path attempt).progress =
      t.progress ++ [⟨t.processed + 1, total, some path⟩] := by
    cases attempt <;> rfl
  rw [hreport]
  exact h.concat Nat.zero_lt_one (some path)

/-- Files that are scanned one by one all count. -/
theorem Counted.oneByOne (scan : Scanner σ α) {pending : List Nat} (hpending : ∀ i ∈ pending, i < files.length)
    {t : Tally α} (h : Counted files.length cached t.processed t.progress) (shared : σ) :
    Counted files.length cached (t.processed + pending.length)
      (Scan.oneByOne scan files.toArray pending t shared).1.progress := by
  induction pending generalizing t shared with
  | nil => exact h
  | cons index pending ih =>
    obtain ⟨file, hfile⟩ : ∃ file, files[index]? = some file :=
      ⟨_, List.getElem?_eq_getElem (hpending index List.mem_cons_self)⟩
    unfold Scan.oneByOne
    rw [List.getElem?_toArray, hfile]
    dsimp only
    have hsum : t.processed + (index :: pending).length =
        (t.addFile files.toArray.size index file.path (scan file shared).1).processed + pending.length := by
      rw [Tally.processed_addFile, List.length_cons]
      omega
    rw [hsum]
    refine ih (fun i hi => hpending i (List.mem_cons_of_mem _ hi)) ?_ (scan file shared).2
    rw [Tally.processed_addFile]
    exact h.addFile index file.path (scan file shared).1

end OneByOne

/-! ## In batches -/

/-- Whether a report says that its batch took too long or failed. -/
def Report.isLost : Report α → Bool
  | .completed _ _ _ _ => false
  | .timedOut _ _ _ | .failed _ _ _ _ => true

/-- The files that a report counts as processed. -/
def Report.handled (r : Report α) : List Nat :=
  if r.isLost then [] else r.files

/-- Whether a batch is reported to have taken too long or to have failed. -/
def Pool.isLost (p : Pool σ α) (k : Nat) : Bool :=
  (p.reportsOf k).any Report.isLost

/-- The files of the batches that took too long or failed. -/
def Pool.lost (p : Pool σ α) : List Nat :=
  ((List.range p.batches.length).filter p.isLost).flatMap p.filesOf

section Batches

variable {total cached : Nat}

theorem Tally.processed_addReport (t : Tally α) (total : Nat) (pathOf : Nat → String) (r : Report α) :
    (t.addReport total pathOf r).processed = t.processed + r.handled.length := by
  cases r <;> rfl

/-- The files of a completed batch count together, those of any other batch do not count. -/
theorem Counted.addReport {t : Tally α} (h : Counted total cached t.processed t.progress) (pathOf : Nat → String)
    {r : Report α} (hfull : r.files ≠ []) :
    Counted total cached (t.processed + r.handled.length) (t.addReport total pathOf r).progress := by
  cases r with
  | completed batch files results errors => exact h.concat (List.length_pos_iff.mpr hfull) (files.getLast?.map pathOf)
  | timedOut batch files nanos => exact h
  | failed batch worker files message => exact h

theorem Counted.ofReports {t : Tally α} (h : Counted total cached t.processed t.progress) (pathOf : Nat → String)
    {reports : List (Report α)} (hfull : ∀ r ∈ reports, r.files ≠ []) :
    Counted total cached (t.processed + (reports.flatMap Report.handled).length)
      (t.ofReports total pathOf reports).progress := by
  induction reports generalizing t with
  | nil => exact h
  | cons r reports ih =>
    have hfirst := h.addReport pathOf (hfull r List.mem_cons_self)
    rw [← t.processed_addReport total pathOf r] at hfirst
    have hrest := ih hfirst fun r' hr' => hfull r' (List.mem_cons_of_mem _ hr')
    rw [t.processed_addReport total pathOf r, Nat.add_assoc] at hrest
    rw [List.flatMap_cons, List.length_append]
    exact hrest

theorem ne_nil_of_mem_batchesOf {size fuel : Nat} {pending members : List Nat}
    (h : members ∈ batchesOf size fuel pending) : members ≠ [] := by
  induction fuel generalizing pending with
  | zero => exact absurd h List.not_mem_nil
  | succ fuel ih =>
    unfold batchesOf at h
    split at h
    · exact absurd h List.not_mem_nil
    · rename_i hsome
      obtain h | h := List.mem_cons.mp h
      · intro hnil
        have hpos : 0 < pending.length := List.length_pos_iff.mpr fun hempty => hsome (List.isEmpty_iff.mpr hempty)
        have hlength := congrArg List.length (h.symm.trans hnil)
        rw [List.length_take, List.length_nil] at hlength
        omega
      · exact ih h

theorem Ended.files_eq {y : Promise α} {pathOf : Nat → String} {k : Nat} {members : List Nat} {r : Report α}
    (h : Ended y pathOf k members r) : r.files = members := by
  cases h <;> rfl

/-- What the kept elements of a list stand for, and what the others stand for, is what all stand for. -/
theorem length_flatMap_filter {β γ : Type} (l : List β) (q : β → Bool) (f : β → List γ) :
    (l.flatMap fun b => if q b then [] else f b).length + ((l.filter q).flatMap f).length = (l.flatMap f).length := by
  induction l with
  | nil => rfl
  | cons b l ih =>
    rw [List.flatMap_cons, List.flatMap_cons, List.length_append, List.length_append, List.filter_cons]
    split
    · rw [List.flatMap_cons, List.length_append, List.length_nil]
      omega
    · omega

/-- The files that a finished pool counts, and those that are lost, are the files that were pending. -/
theorem Sound.length_handled_add_lost {y : Promise α} {good : σ → Prop} {p : Pool σ α} (h : Sound y good p)
    (hd : p.isDone = true) :
    (p.coordinator.reports.flatMap Report.handled).length + p.lost.length = p.batches.flatten.length := by
  have hhandled : (p.coordinator.reports.flatMap Report.handled).Perm
      ((List.range p.batches.length).flatMap fun k => if p.isLost k then [] else p.filesOf k) := by
    refine h.flatMap_reports_by_batch hd Report.handled _ fun k members r hmembers hone hended _ => ?_
    have hlost : p.isLost k = r.isLost := by
      unfold Pool.isLost Pool.reportsOf
      rw [hone, List.any_cons, List.any_nil, Bool.or_false]
    rw [hlost, p.filesOf_eq k members hmembers, Report.handled, hended.files_eq]
  have hall := p.flatMap_filesOf id
  rw [List.flatMap_id] at hall
  rw [hhandled.length_eq, ← hall]
  exact length_flatMap_filter (List.range p.batches.length) p.isLost p.filesOf

/-- Every report of a finished pool is about some files, and what the reports do not count of the pending files is lost. -/
theorem pool_handled (scan : Scanner σ α) {files : Array SourceFile} {pending : List Nat}
    (hpending : ∀ i ∈ pending, i < files.size) (batchSize workers : Nat) (shared : σ) (schedule : List Choice)
    {p : Pool σ α} (hp : p = (Pool.start files pending batchSize workers shared).run scan schedule)
    (hd : p.isDone = true) :
    (∀ r ∈ p.coordinator.reports, r.files ≠ []) ∧
      (p.coordinator.reports.flatMap Report.handled).length + p.lost.length = pending.length := by
  have hsound : Sound (.ofScan scan files) (fun _ => True) p := by
    rw [hp]
    exact sound_run scan hpending batchSize workers shared schedule
  have hbatches : p.batches = batchesOf batchSize pending.length pending := by
    rw [hp]
    exact (Pool.run_fixed scan _ schedule).2
  constructor
  · intro r hr
    obtain ⟨members, hmembers, hended⟩ := hsound.ended_of_mem_reports hd hr
    rw [hended.files_eq]
    rw [hbatches] at hmembers
    exact ne_nil_of_mem_batchesOf (List.mem_of_getElem? hmembers)
  · have hsum := hsound.length_handled_add_lost hd
    rwa [hbatches, flatten_batchesOf batchSize (Nat.le_refl pending.length)] at hsum

end Batches

end Scan

namespace ScanStore

open Scan

/-- How many files belong to batches of a pool that took too long or failed; files that are scanned one by one belong to
none. -/
def lostIn (s : ScanStore α) (p : Pool σ α) (files : List SourceFile) : Nat :=
  match s.modeFor files.length with
  | .sequential => 0
  | .parallel => p.lost.length

variable {disk : Disk} {scan : Scanner σ α} {files : List SourceFile} {s : ScanStore α}

/-- Whether files are scanned one by one or in batches, what is not counted in the end is lost. -/
theorem tallyOn_honest {slots : List (Option α)} (hslots : slots.length = files.length) (workers : Nat)
    (schedule : List Choice) (shared : σ)
    (hdone : s.modeFor files.length = .parallel → ((s.pool files slots workers shared).run scan schedule).isDone = true) :
    Honest files.length (slots.countP Option.isSome)
      (s.lostIn ((s.pool files slots workers shared).run scan schedule) files)
      (s.tallyOn scan workers (fun pool => pool.run scan schedule) files slots shared).1.progress := by
  have hpending : ∀ i ∈ missing slots, i < files.length := fun i hi => hslots ▸ lt_of_mem_missing hi
  have hall := countP_isSome_add_missing slots
  have hcached : files.length - (missing slots).length = slots.countP Option.isSome := by omega
  have hstart := counted_start (α := α) files.length (slots.countP Option.isSome)
  unfold tallyOn lostIn
  dsimp only
  rw [hcached]
  cases hmode : s.modeFor files.length with
  | sequential =>
    have hcounted := hstart.oneByOne scan hpending shared
    rw [Tally.processed_start] at hcounted
    exact hcounted.honest (hall.trans hslots)
  | parallel =>
    generalize hp : (s.pool files slots workers shared).run scan schedule = p at hdone
    obtain ⟨hfull, hsum⟩ := pool_handled scan hpending s.config.batchSize workers shared schedule hp.symm (hdone hmode)
    have hcounted := hstart.ofReports p.pathOf hfull
    rw [Tally.processed_start] at hcounted
    have htotal : slots.countP Option.isSome + (p.coordinator.reports.flatMap Report.handled).length + p.lost.length =
        files.length := by omega
    exact hcounted.honest htotal

/-- The progress of a scan that is taken to its end. -/
theorem honest_scanOn (workers : Nat) (schedule : List Choice) (shared : σ)
    (hdone : s.modeFor files.length = .parallel →
      (s.poolAfter disk scan workers schedule files shared).isDone = true) :
    Honest files.length ((s.openSlots disk files).1.countP Option.isSome)
      (s.lostIn (s.poolAfter disk scan workers schedule files shared) files)
      (s.scanOn disk scan workers (fun pool => pool.run scan schedule) files shared).1.progress := by
  have hmode := s.modeFor_openSlots disk files files.length
  have hhonest := tallyOn_honest (s := (s.openSlots disk files).2) (s.length_openSlots disk files) workers schedule shared
    fun h => hdone (hmode ▸ h)
  unfold lostIn at hhonest ⊢
  rw [hmode] at hhonest
  exact hhonest

end ScanStore

/-- Let files be scanned one by one, or in batches under any schedule that is taken to its end, with whatever results,
failures and breakdowns, and with whatever batches given up. The number of processed files grows with each report of
progress and never exceeds the number of files. It begins with the files whose results were cached, if there are any, and
at the end, where it is zero without a report, nothing is missing but the files of batches that took too long or failed. A
scan whose files take known times is one of these. -/
theorem ScanStore.progress_is_honest (s : ScanStore α) (disk : Disk) (scan : Scanner σ α) (workers : Nat)
    (schedule : List Scan.Choice) (files : List SourceFile) (shared : σ)
    (hdone : s.modeFor files.length = .parallel →
      (s.poolAfter disk scan workers schedule files shared).isDone = true) :
    let cached := (s.openSlots disk files).1.countP Option.isSome
    Scan.Honest files.length cached (s.lostIn (s.poolAfter disk scan workers schedule files shared) files)
      (s.scanOn disk scan workers (fun pool => pool.run scan schedule) files shared).1.progress ∧
    ∀ duration, ∃ workers' schedule', (s.poolAfter disk scan workers' schedule' files shared).isDone = true ∧
      Scan.Honest files.length cached (s.lostIn (s.poolAfter disk scan workers' schedule' files shared) files)
        (s.scan disk scan duration files shared).1.progress := by
  intro cached
  refine ⟨honest_scanOn workers schedule shared hdone, ?_⟩
  intro duration
  obtain ⟨workers', schedule', hend, hscan⟩ := s.exists_schedule disk scan duration files shared
  rw [hscan]
  exact ⟨workers', schedule', hend, honest_scanOn workers' schedule' shared fun _ => hend⟩

/-- One of four files is cached, a batch is given up while its file is scanned, a batch is completed, and the scan of the
last file breaks down: two files are counted and two are lost. -/
theorem ScanStore.progress_is_honest_two_lost :
    let file (path : String) (flag : Bool) : SourceFile := ⟨path, none, flag, none, none, none⟩
    let files := [file "kept.js" false, file "slow.js" false, file "plain.js" false, file "broken.js" true]
    let scan : Scanner Unit String := fun f s => (if f.entryPoint then .breakdown "gave in" else .value f.path, s)
    let s : ScanStore String :=
      ⟨{ parallelThreshold := 2, batchSize := 1 }, (Cache.new 8 none).put (keyOf .empty (file "kept.js" false)) "kept" 0⟩
    let schedule : List Scan.Choice :=
      [.work 0, .work 0, .deliver, .work 0, .wake [(0, 7)], .work 1, .work 1, .work 0, .work 1, .deliver, .deliver,
        .work 0, .work 1, .work 1, .work 0, .deliver, .work 0, .work 0, .work 0, .deliver, .deliver, .deliver, .deliver]
    let outcome := (s.scanOn .empty scan 2 (fun pool => pool.run scan schedule) files ()).1
    s.modeFor files.length = .parallel ∧ (s.poolAfter .empty scan 2 schedule files ()).isDone = true ∧
      outcome.progress.map (·.processed) = [1, 2] ∧ Scan.Honest 4 1 2 outcome.progress := by
  intro file files scan s schedule outcome
  have hdone : (s.poolAfter .empty scan 2 schedule files ()).isDone = true := by decide +kernel
  have hmode : s.modeFor files.length = .parallel := by decide +kernel
  have hcounts : outcome.progress.map (·.processed) = [1, 2] := by decide +kernel
  have hcached : (s.openSlots .empty files).1.countP Option.isSome = 1 := by decide +kernel
  have hlost : s.lostIn (s.poolAfter .empty scan 2 schedule files ()) files = 2 := by decide +kernel
  obtain ⟨hhonest, -⟩ := ScanStore.progress_is_honest s .empty scan 2 schedule files () fun _ => hdone
  rw [hcached, hlost] at hhonest
  exact ⟨hmode, hdone, hcounts, hhonest⟩

end CodeAtlas
