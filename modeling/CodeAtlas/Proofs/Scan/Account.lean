/-
  A scan loses no file and counts none twice.

  Each file has one fate: its result comes from the cache, or from a scan, or it has one error that carries its path
  (`Fate`).  Files scanned one by one end one after the other (`oneByOne_endings`); in batches each report brings one end
  for each file of its batch, whether the batch is completed, fails or is given up (`Ended.endings`), and the reports share
  out the files among them.  So results, errors and figures of every scan are those of the fates
  (`ScanStore.accounted_scanOn`).
-/
import CodeAtlas.Proofs.Build
import CodeAtlas.Proofs.Scan.Report

namespace CodeAtlas

variable {σ α : Type}

/-- What becomes of a file. -/
inductive Fate (α : Type) where
  | cached (a : α)
  | scanned (a : α)
  | failed (e : FileError)

namespace Fate

/-- The result of a file. -/
def value? : Fate α → Option α
  | .cached a | .scanned a => some a
  | .failed _ => none

/-- The error of a file. -/
def error? : Fate α → Option FileError
  | .failed e => some e
  | .cached _ | .scanned _ => none

/-- Whether the result comes from the cache. -/
def isCached : Fate α → Bool
  | .cached _ => true
  | .scanned _ | .failed _ => false

/-- Whether the result comes from a scan. -/
def isScanned : Fate α → Bool
  | .scanned _ => true
  | .cached _ | .failed _ => false

/-- Whether the file has an error. -/
def isFailed : Fate α → Bool
  | .failed _ => true
  | .cached _ | .scanned _ => false

theorem length_values (fates : List (Fate α)) :
    (fates.filterMap value?).length = fates.countP isCached + fates.countP isScanned := by
  induction fates with
  | nil => rfl
  | cons fate fates ih =>
    cases fate <;> simp only [List.filterMap_cons, List.countP_cons, value?, isCached, isScanned, List.length_cons] <;>
      simp <;> omega

theorem length_errors (fates : List (Fate α)) : (fates.filterMap error?).length = fates.countP isFailed := by
  induction fates with
  | nil => rfl
  | cons fate fates ih =>
    cases fate <;> simp only [List.filterMap_cons, List.countP_cons, error?, isFailed, List.length_cons] <;> simp [ih]

theorem length_eq (fates : List (Fate α)) :
    fates.length = fates.countP isCached + fates.countP isScanned + fates.countP isFailed := by
  induction fates with
  | nil => rfl
  | cons fate fates ih =>
    cases fate <;> simp only [List.length_cons, List.countP_cons, isCached, isScanned, isFailed] <;> simp <;> omega

end Fate

namespace Scan

/-! ## How the scan of a file ends -/

/-- How a file that is scanned may end: as its own scan does; in a batch also with the whole batch, which is given up or
in which a scan breaks down. -/
inductive EndsAs (scan : Scanner σ α) (file : SourceFile) : ScanMode → Except FileError α → Prop where
  | value {mode : ScanMode} {s : σ} {a : α} (h : (scan file s).1 = .value a) : EndsAs scan file mode (.ok a)
  | failure {mode : ScanMode} {s : σ} {f : Failure} (h : (scan file s).1 = .failure f) :
      EndsAs scan file mode (.error (.atPath file.path f))
  | breakdown {s : σ} {message : String} (h : (scan file s).1 = .breakdown message) :
      EndsAs scan file .sequential (.error (.atPath file.path (.workerFailed 0 message)))
  | timedOut (batch nanos : Nat) :
      EndsAs scan file .parallel (.error (.atPath file.path (.batchTimeout batch nanos)))
  | brokenBatch (batch worker : Nat) (message : String) :
      EndsAs scan file .parallel
        (.error (.atPath file.path (.workerFailed worker ("batch " ++ toString batch ++ ": " ++ message))))

/-- The result of an end, with the position of the file. -/
def freshOf (o : Nat × Except FileError α) : Option (Nat × α) :=
  o.2.toOption.map fun a => (o.1, a)

/-- The error of an end. -/
def errorOf (o : Nat × Except FileError α) : Option FileError :=
  match o.2 with
  | .ok _ => none
  | .error e => some e

/-- The files of the batch that a report is about. -/
def Report.files : Report α → List Nat
  | .completed _ files _ _ | .timedOut _ files _ | .failed _ _ files _ => files

/-- The files at some positions have come to these ends, of which fresh results and errors are tallied. -/
structure Endings (scan : Scanner σ α) (mode : ScanMode) (files : List SourceFile) (positions : List Nat)
    (outs : List (Nat × Except FileError α)) (fresh : List (Nat × α)) (errors : List FileError) : Prop where
  positions : outs.map (·.1) = positions
  ends : ∀ o ∈ outs, ∀ file, files[o.1]? = some file → EndsAs scan file mode o.2
  fresh : fresh = outs.filterMap freshOf
  errors : errors = outs.filterMap errorOf

variable {scan : Scanner σ α} {mode : ScanMode} {files : List SourceFile}

theorem endings_nil : Endings scan mode files [] [] [] [] :=
  ⟨rfl, fun _ ho => absurd ho List.not_mem_nil, rfl, rfl⟩

theorem Endings.append {positions positions' : List Nat} {outs outs' : List (Nat × Except FileError α)}
    {fresh fresh' : List (Nat × α)} {errors errors' : List FileError}
    (h : Endings scan mode files positions outs fresh errors)
    (h' : Endings scan mode files positions' outs' fresh' errors') :
    Endings scan mode files (positions ++ positions') (outs ++ outs') (fresh ++ fresh') (errors ++ errors') := by
  refine ⟨?_, fun o ho => ?_, ?_, ?_⟩
  · rw [List.map_append, h.positions, h'.positions]
  · rcases List.mem_append.mp ho with ho | ho
    · exact h.ends o ho
    · exact h'.ends o ho
  · rw [List.filterMap_append, h.fresh, h'.fresh]
  · rw [List.filterMap_append, h.errors, h'.errors]

/-! ## One by one -/

/-- The end of a file that is scanned alone. -/
def ending (path : String) : Attempt α → Except FileError α
  | .value a => .ok a
  | .failure f => .error (.atPath path f)
  | .breakdown message => .error (.atPath path (.workerFailed 0 message))

theorem Tally.addFile_eq (t : Tally α) (total index : Nat) (path : String) (attempt : Attempt α) :
    (t.addFile total index path attempt).fresh = t.fresh ++ (freshOf (index, ending path attempt)).toList ∧
      (t.addFile total index path attempt).errors = t.errors ++ (errorOf (index, ending path attempt)).toList := by
  cases attempt <;>
    simp [addFile, advance, recordAll, freshOf, errorOf, ending, Except.toOption]

theorem endsAs_ending (scan : Scanner σ α) (file : SourceFile) (s : σ) :
    EndsAs scan file .sequential (ending file.path (scan file s).1) := by
  cases hattempt : (scan file s).1 with
  | value a => exact .value hattempt
  | failure f => exact .failure hattempt
  | breakdown message => exact .breakdown hattempt

/-- Files that are scanned one by one end one after the other. -/
theorem oneByOne_endings (scan : Scanner σ α) {pending : List Nat} (hpending : ∀ i ∈ pending, i < files.length)
    (t : Tally α) (shared : σ) :
    ∃ outs fresh errors, Endings scan .sequential files pending outs fresh errors ∧
      (oneByOne scan files.toArray pending t shared).1.fresh = t.fresh ++ fresh ∧
      (oneByOne scan files.toArray pending t shared).1.errors = t.errors ++ errors := by
  induction pending generalizing t shared with
  | nil => exact ⟨[], [], [], endings_nil, by simp [oneByOne], by simp [oneByOne]⟩
  | cons index pending ih =>
    obtain ⟨file, hfile⟩ : ∃ file, files[index]? = some file :=
      ⟨_, List.getElem?_eq_getElem (hpending index List.mem_cons_self)⟩
    unfold oneByOne
    rw [List.getElem?_toArray, hfile]
    dsimp only
    obtain ⟨outs, fresh, errors, hrest, hfresh, herrors⟩ := ih (fun i hi => hpending i (List.mem_cons_of_mem _ hi))
      (t.addFile files.toArray.size index file.path (scan file shared).1) (scan file shared).2
    obtain ⟨hfirst, hfirst'⟩ := t.addFile_eq files.toArray.size index file.path (scan file shared).1
    have hone : Endings scan .sequential files [index] [(index, ending file.path (scan file shared).1)]
        (freshOf (index, ending file.path (scan file shared).1)).toList
        (errorOf (index, ending file.path (scan file shared).1)).toList := by
      refine ⟨rfl, fun o ho file' hfile' => ?_, ?_, ?_⟩
      · cases List.mem_singleton.mp ho
        cases hfile.symm.trans hfile'
        exact endsAs_ending scan file shared
      · rw [List.filterMap_cons, List.filterMap_nil]
        cases freshOf (index, ending file.path (scan file shared).1) <;> rfl
      · rw [List.filterMap_cons, List.filterMap_nil]
        cases errorOf (index, ending file.path (scan file shared).1) <;> rfl
    refine ⟨_, _, _, hone.append hrest, ?_, ?_⟩
    · rw [hfresh, hfirst, List.append_assoc]
    · rw [herrors, hfirst', List.append_assoc]

/-! ## In batches -/

/-- The files of a batch that fails as a whole end with one error each. -/
theorem endings_of_error {f : Failure} {pathOf : Nat → String} {members : List Nat}
    (hends : ∀ i file, files[i]? = some file → EndsAs scan file mode (.error (.atPath (pathOf i) f))) :
    Endings scan mode files members (members.map fun i => (i, .error (.atPath (pathOf i) f))) []
      (members.map fun i => .atPath (pathOf i) f) := by
  refine ⟨?_, fun o ho file hfile => ?_, ?_, ?_⟩
  · rw [List.map_map]
    exact List.map_id _
  · obtain ⟨i, _, rfl⟩ := List.mem_map.mp ho
    exact hends i file hfile
  · rw [List.filterMap_map]
    exact (List.filterMap_eq_nil_iff.mpr fun _ _ => rfl).symm
  · rw [List.filterMap_map]
    exact (List.filterMap_eq_map (f := fun i => FileError.atPath (pathOf i) f)).symm ▸ rfl

/-- A report brings one end for each file of its batch. -/
theorem Ended.endings {pathOf : Nat → String} (hpath : ∀ i file, files[i]? = some file → pathOf i = file.path) {k : Nat}
    {members : List Nat} {r : Report α} (h : Ended (.ofScan scan files.toArray) pathOf k members r) :
    ∃ outs, Endings scan .parallel files r.files outs r.fresh (r.errors pathOf) := by
  cases h with
  | @completed outs all kept =>
    refine ⟨outs.map fun o => (o.1, o.2.mapError (.atPath (pathOf o.1))), ?_, fun o' ho' file hfile => ?_, ?_, ?_⟩
    · rw [List.map_map]
      exact all.symm
    · obtain ⟨o, ho, rfl⟩ := List.mem_map.mp ho'
      obtain ⟨file', s, hfile', hattempt⟩ := kept o ho
      rw [List.getElem?_toArray] at hfile'
      cases hfile.symm.trans hfile'
      cases hout : o.2 with
      | ok a =>
        rw [hout] at hattempt
        exact .value hattempt
      | error f =>
        rw [hout] at hattempt
        have hend : EndsAs scan file .parallel (.error (.atPath file.path f)) := .failure hattempt
        rw [← hpath o.1 file hfile] at hend
        exact hend
    · rw [List.filterMap_map]
      refine List.filterMap_congr fun o _ => ?_
      cases hout : o.2 <;> simp [freshOf, hout, Except.mapError, Except.toOption]
    · rw [List.filterMap_map]
      refine List.filterMap_congr fun o _ => ?_
      cases hout : o.2 <;> simp [errorOf, hout, Except.mapError]
  | timedOut nanos =>
    refine ⟨_, endings_of_error fun i file hfile => ?_⟩
    rw [hpath i file hfile]
    exact .timedOut k nanos
  | failed worker hi hm =>
    refine ⟨_, endings_of_error fun i file hfile => ?_⟩
    rw [hpath i file hfile]
    exact .brokenBatch k worker _

/-- The reports about batches that have ended bring the ends of all their files. -/
theorem endings_of_reports {pathOf : Nat → String} (hpath : ∀ i file, files[i]? = some file → pathOf i = file.path)
    {reports : List (Report α)}
    (hall : ∀ r ∈ reports, ∃ k members, Ended (.ofScan scan files.toArray) pathOf k members r) :
    ∃ outs, Endings scan .parallel files (reports.flatMap Report.files) outs (reports.flatMap Report.fresh)
      (reports.flatMap (Report.errors pathOf)) := by
  induction reports with
  | nil => exact ⟨[], endings_nil⟩
  | cons r reports ih =>
    obtain ⟨k, members, hended⟩ := hall r List.mem_cons_self
    obtain ⟨outs, hfirst⟩ := hended.endings hpath
    obtain ⟨outs', hrest⟩ := ih fun r' hr' => hall r' (List.mem_cons_of_mem _ hr')
    exact ⟨outs ++ outs', hfirst.append hrest⟩

/-- The reports of a finished pool bring one end for each file that was pending. -/
theorem pool_endings (scan : Scanner σ α) {pending : List Nat} (hpending : ∀ i ∈ pending, i < files.length)
    (batchSize workers : Nat) (shared : σ) (schedule : List Choice) {p : Pool σ α}
    (hp : p = (Pool.start files.toArray pending batchSize workers shared).run scan schedule) (hd : p.isDone = true) :
    ∃ positions outs, positions.Perm pending ∧
      Endings scan .parallel files positions outs (p.coordinator.reports.flatMap Report.fresh)
        (p.coordinator.reports.flatMap (Report.errors p.pathOf)) := by
  have hsound : Sound (.ofScan scan files.toArray) (fun _ => True) p := by
    rw [hp]
    exact sound_run scan hpending batchSize workers shared schedule
  obtain ⟨hpfiles, hflatten⟩ := Pool.run_start_fixed scan files.toArray pending batchSize workers shared schedule
  rw [← hp] at hpfiles hflatten
  have hall : ∀ r ∈ p.coordinator.reports, ∃ k members, Ended (.ofScan scan files.toArray) p.pathOf k members r := by
    intro r hr
    obtain ⟨members, -, hended⟩ := hsound.ended_of_mem_reports hd hr
    exact ⟨_, _, hended⟩
  have hpositions : (p.coordinator.reports.flatMap Report.files).Perm pending := by
    have hperm := hsound.flatMap_reports hd Report.files some fun k members r hended _ => by
      rw [List.filterMap_some]
      cases hended <;> rfl
    rwa [List.filterMap_some, hflatten] at hperm
  obtain ⟨outs, hends⟩ := endings_of_reports (fun i file => Pool.pathOf_eq hpfiles) hall
  exact ⟨_, outs, hpositions, hends⟩

/-! ## One end for each file -/

theorem missing_eq (slots : List (Option α)) : missing slots = (slots.zipIdx.filter (·.1.isNone)).map (·.2) := by
  unfold missing
  rw [← List.filterMap_eq_map, List.filterMap_filter]
  rfl

/-- Every slot is filled or missing. -/
theorem countP_isSome_add_missing (slots : List (Option α)) :
    slots.countP Option.isSome + (missing slots).length = slots.length := by
  have hmissing : (missing slots).length = slots.countP Option.isNone := by
    have hslots : slots.countP Option.isNone = (slots.zipIdx.map (·.1)).countP Option.isNone := by
      rw [List.zipIdx_map_fst]
    rw [missing_eq, List.length_map, ← List.countP_eq_length_filter, hslots, List.countP_map]
    rfl
  have hfilled : slots.countP Option.isSome = slots.countP fun slot => decide ¬slot.isNone = true :=
    List.countP_congr fun slot _ => by cases slot <;> simp
  have hall := List.length_eq_countP_add_countP Option.isNone (l := slots)
  omega

theorem nodup_missing (slots : List (Option α)) : (missing slots).Nodup := by
  have hsub : (missing slots).Sublist (slots.zipIdx.map (·.2)) := by
    rw [missing_eq]
    exact List.filter_sublist.map _
  rw [List.zipIdx_map_snd] at hsub
  exact hsub.nodup List.nodup_range'

theorem filterMap_missing {β : Type} (slots : List (Option α)) (f : Nat → Option β) :
    (missing slots).filterMap f = slots.zipIdx.filterMap fun s => if s.1.isNone then f s.2 else none := by
  rw [missing_eq, List.filterMap_map, List.filterMap_filter]
  rfl

/-- Ends at different positions are one function of the position. -/
theorem exists_ends {outs : List (Nat × Except FileError α)} (h : (outs.map (·.1)).Nodup) :
    ∃ ends : Nat → Except FileError α, ∀ o ∈ outs, o = (o.1, ends o.1) := by
  induction outs with
  | nil => exact ⟨fun _ => .error default, fun o ho => absurd ho List.not_mem_nil⟩
  | cons first outs ih =>
    obtain ⟨hfirst, hrest⟩ := List.nodup_cons.mp h
    obtain ⟨ends, hends⟩ := ih hrest
    refine ⟨fun i => if i = first.1 then first.2 else ends i, fun o ho => ?_⟩
    rcases List.mem_cons.mp ho with rfl | ho
    · simp
    · have hne : o.1 ≠ first.1 := fun heq => hfirst (List.mem_map.mpr ⟨o, ho, heq⟩)
      dsimp only
      rw [if_neg hne]
      exact hends o ho

/-- Ends of the files at some positions, as a function of the position. -/
structure EndsBy (scan : Scanner σ α) (mode : ScanMode) (files : List SourceFile) (pending : List Nat)
    (ends : Nat → Except FileError α) (fresh : List (Nat × α)) (errors : List FileError) : Prop where
  each : ∀ i ∈ pending, ∀ file, files[i]? = some file → EndsAs scan file mode (ends i)
  results : fresh.Perm (pending.filterMap fun i => freshOf (i, ends i))
  failures : errors.Perm (pending.filterMap fun i => errorOf (i, ends i))
  ordered : mode = .sequential → errors = pending.filterMap fun i => errorOf (i, ends i)

theorem Endings.endsBy {positions pending : List Nat} {outs : List (Nat × Except FileError α)} {fresh : List (Nat × α)}
    {errors : List FileError} (h : Endings scan mode files positions outs fresh errors) (hperm : positions.Perm pending)
    (hnodup : pending.Nodup) (hordered : mode = .sequential → positions = pending) :
    ∃ ends, EndsBy scan mode files pending ends fresh errors := by
  obtain ⟨ends, hends⟩ := exists_ends (h.positions ▸ hperm.nodup_iff.mpr hnodup)
  have houts {β : Type} (f : Nat × Except FileError α → Option β) :
      outs.filterMap f = positions.filterMap fun i => f (i, ends i) := by
    rw [← h.positions, List.filterMap_map]
    exact List.filterMap_congr fun o ho => congrArg f (hends o ho)
  refine ⟨ends, fun i hi file hfile => ?_, ?_, ?_, fun hmode => ?_⟩
  · have hmem : i ∈ outs.map (·.1) := h.positions ▸ hperm.mem_iff.mpr hi
    obtain ⟨o, ho, rfl⟩ := List.mem_map.mp hmem
    have hend := h.ends o ho file hfile
    rwa [hends o ho] at hend
  · rw [h.fresh, houts]
    exact hperm.filterMap _
  · rw [h.errors, houts]
    exact hperm.filterMap _
  · rw [h.errors, houts, hordered hmode]

/-! ## The fates of the files -/

/-- The fate of a file with a slot that is filled or not, and with an end if it is scanned. -/
def fateOf (ends : Nat → Except FileError α) : Option α × Nat → Fate α
  | (some a, _) => .cached a
  | (none, i) =>
    match ends i with
    | .ok a => .scanned a
    | .error e => .failed e

/-- What may become of a file: a filled slot is left as it is, and else the file is scanned. -/
inductive Fits (scan : Scanner σ α) (mode : ScanMode) (file : SourceFile) : Option α → Fate α → Prop where
  | cached (a : α) : Fits scan mode file (some a) (.cached a)
  | scanned {a : α} (h : EndsAs scan file mode (.ok a)) : Fits scan mode file none (.scanned a)
  | failed {e : FileError} (h : EndsAs scan file mode (.error e)) : Fits scan mode file none (.failed e)

/-- Each file has one fate, and the outcome of the scan consists of those fates: the results in the order of the files, the
errors up to their order unless files were scanned one by one, and the figures. -/
structure Accounted (scan : Scanner σ α) (mode : ScanMode) (files : List SourceFile) (slots : List (Option α))
    (fates : List (Fate α)) (outcome : ScanOutcome α) : Prop where
  length : fates.length = files.length
  fits : ∀ (i : Nat) file slot, files[i]? = some file → slots[i]? = some slot →
    ∃ fate, fates[i]? = some fate ∧ Fits scan mode file slot fate
  results : outcome.results = fates.filterMap Fate.value?
  errors : outcome.errors.Perm (fates.filterMap Fate.error?)
  ordered : mode = .sequential → outcome.errors = fates.filterMap Fate.error?
  cached : outcome.stats.cached = fates.countP Fate.isCached
  scanned : outcome.stats.scanned = fates.countP Fate.isScanned
  failed : outcome.stats.failed = fates.countP Fate.isFailed
  total : outcome.stats.total = files.length

/-- The figures of a scan add up. -/
theorem Accounted.figures {slots : List (Option α)} {fates : List (Fate α)} {outcome : ScanOutcome α}
    (h : Accounted scan mode files slots fates outcome) :
    outcome.results.length = outcome.stats.cached + outcome.stats.scanned ∧
      outcome.errors.length = outcome.stats.failed ∧
      outcome.stats.total = outcome.stats.cached + outcome.stats.scanned + outcome.stats.failed := by
  refine ⟨?_, ?_, ?_⟩
  · rw [h.results, h.cached, h.scanned, Fate.length_values]
  · rw [h.errors.length_eq, h.failed, Fate.length_errors]
  · rw [h.total, h.cached, h.scanned, h.failed, ← h.length, Fate.length_eq]

section Fates

variable {slots : List (Option α)} {ends : Nat → Except FileError α} {fresh : List (Nat × α)} {errors : List FileError}

theorem filterMap_fresh (slots : List (Option α)) (ends : Nat → Except FileError α) :
    ((missing slots).filterMap fun i => freshOf (i, ends i)).length =
      (slots.zipIdx.map (fateOf ends)).countP Fate.isScanned := by
  rw [filterMap_missing, List.length_filterMap_eq_countP, List.countP_map]
  refine List.countP_congr fun ⟨slot, i⟩ _ => ?_
  cases slot with
  | some a => simp [fateOf, Fate.isScanned]
  | none => cases hend : ends i <;> simp [fateOf, Fate.isScanned, freshOf, hend, Except.toOption]

theorem filterMap_errors (slots : List (Option α)) (ends : Nat → Except FileError α) :
    ((missing slots).filterMap fun i => errorOf (i, ends i)) =
      (slots.zipIdx.map (fateOf ends)).filterMap Fate.error? := by
  rw [filterMap_missing, List.filterMap_map]
  refine List.filterMap_congr fun ⟨slot, i⟩ _ => ?_
  cases slot with
  | some a => simp [fateOf, Fate.error?]
  | none => cases hend : ends i <;> simp [fateOf, Fate.error?, errorOf, hend]

theorem count_cached (slots : List (Option α)) (ends : Nat → Except FileError α) :
    slots.length - (missing slots).length = (slots.zipIdx.map (fateOf ends)).countP Fate.isCached := by
  have hcached : (slots.zipIdx.map (fateOf ends)).countP Fate.isCached = slots.countP Option.isSome := by
    have hslots : slots.countP Option.isSome = (slots.zipIdx.map (·.1)).countP Option.isSome := by
      rw [List.zipIdx_map_fst]
    rw [hslots, List.countP_map, List.countP_map]
    refine List.countP_congr fun ⟨slot, i⟩ _ => ?_
    cases slot with
    | some a => simp [fateOf, Fate.isCached]
    | none => cases hend : ends i <;> simp [fateOf, Fate.isCached, hend]
  have hall := countP_isSome_add_missing slots
  omega

/-- The results of the fates are what the slots hold in the end. -/
theorem EndsBy.fill_eq (h : EndsBy scan mode files (missing slots) ends fresh errors) :
    (fill slots fresh).filterMap id = (slots.zipIdx.map (fateOf ends)).filterMap Fate.value? := by
  have hfill : fill slots fresh = slots.zipIdx.map fun s => s.1.or (ends s.2).toOption := Scan.fill_eq h.results
  rw [hfill, List.filterMap_map, List.filterMap_map]
  refine List.filterMap_congr fun ⟨slot, i⟩ _ => ?_
  cases slot with
  | some a => rfl
  | none => cases hend : ends i <;> simp [fateOf, Fate.value?, hend, Except.toOption]

theorem EndsBy.fits (h : EndsBy scan mode files (missing slots) ends fresh errors) {i : Nat} {file : SourceFile}
    {slot : Option α} (hfile : files[i]? = some file) (hslot : slots[i]? = some slot) :
    Fits scan mode file slot (fateOf ends (slot, i)) := by
  cases slot with
  | some a => exact .cached a
  | none =>
    have hend := h.each i (mem_missing.mpr hslot) file hfile
    cases hends : ends i with
    | ok a =>
      have hfate : fateOf ends (none, i) = .scanned a := by simp [fateOf, hends]
      rw [hfate]
      exact .scanned (hends ▸ hend)
    | error e =>
      have hfate : fateOf ends (none, i) = .failed e := by simp [fateOf, hends]
      rw [hfate]
      exact .failed (hends ▸ hend)

end Fates

end Scan

namespace ScanStore

open Scan

variable {disk : Disk} {scan : Scanner σ α} {files : List SourceFile} {s : ScanStore α}

/-- Every file without a result comes to one end, whether files are scanned one by one or in batches. -/
theorem tallyOn_endsBy {slots : List (Option α)} (hslots : slots.length = files.length) (workers : Nat)
    (schedule : List Choice) (shared : σ)
    (hdone : s.modeFor files.length = .parallel → ((s.pool files slots workers shared).run scan schedule).isDone = true)
    {result : Tally α × σ}
    (hresult : s.tallyOn scan workers (fun pool => pool.run scan schedule) files slots shared = result) :
    ∃ ends, EndsBy scan (s.modeFor files.length) files (missing slots) ends result.1.fresh result.1.errors := by
  have hpending : ∀ i ∈ missing slots, i < files.length := fun i hi => hslots ▸ lt_of_mem_missing hi
  unfold tallyOn at hresult
  dsimp only at hresult
  cases hmode : s.modeFor files.length with
  | sequential =>
    rw [hmode] at hresult
    subst hresult
    obtain ⟨outs, fresh, errors, hends, hfresh, herrors⟩ := oneByOne_endings scan hpending
      (.start files.length (files.length - (missing slots).length)) shared
    rw [hfresh, herrors, Tally.fresh_start, Tally.errors_start, List.nil_append, List.nil_append]
    exact hends.endsBy (.refl _) (nodup_missing slots) fun _ => rfl
  | parallel =>
    rw [hmode] at hresult
    subst hresult
    obtain ⟨positions, outs, hperm, hends⟩ := pool_endings scan hpending s.config.batchSize workers shared schedule rfl
      (hdone hmode)
    obtain ⟨hfresh, herrors⟩ := Tally.ofReports_eq (.start files.length (files.length - (missing slots).length))
      files.length ((s.pool files slots workers shared).run scan schedule).pathOf
      ((s.pool files slots workers shared).run scan schedule).coordinator.reports
    rw [hfresh, herrors, Tally.fresh_start, Tally.errors_start, List.nil_append, List.nil_append]
    exact hends.endsBy hperm (nodup_missing slots) fun h => (nomatch h)

/-- A scan that is taken to its end has one fate for each file. -/
theorem accounted_scanOn (workers : Nat) (schedule : List Choice) (shared : σ)
    (hdone : s.modeFor files.length = .parallel →
      (s.poolAfter disk scan workers schedule files shared).isDone = true) :
    ∃ fates, Accounted scan (s.modeFor files.length) files (s.openSlots disk files).1 fates
      (s.scanOn disk scan workers (fun pool => pool.run scan schedule) files shared).1 := by
  have hmode := s.modeFor_openSlots disk files files.length
  have hlength := s.length_openSlots disk files
  generalize htally : (s.openSlots disk files).2.tallyOn scan workers (fun pool => pool.run scan schedule) files
    (s.openSlots disk files).1 shared = tallied
  obtain ⟨ends, hends⟩ := tallyOn_endsBy hlength workers schedule shared (fun h => hdone (hmode ▸ h)) htally
  rw [hmode] at hends
  rw [scanOn_eq htally]
  refine ⟨(s.openSlots disk files).1.zipIdx.map (fateOf ends), ?_, ?_, ?_, ?_, ?_, ?_, ?_, ?_, rfl⟩
  · rw [List.length_map, List.length_zipIdx, hlength]
  · intro i file slot hfile hslot
    refine ⟨_, ?_, hends.fits hfile hslot⟩
    rw [List.getElem?_map, List.getElem?_zipIdx, hslot, Nat.zero_add]
    rfl
  · exact hends.fill_eq
  · rw [← filterMap_errors]
    exact hends.failures
  · intro h
    rw [← filterMap_errors]
    exact hends.ordered h
  · rw [← count_cached, hlength]
    rfl
  · rw [← filterMap_fresh]
    exact hends.results.length_eq
  · rw [← Fate.length_errors, ← filterMap_errors]
    exact hends.failures.length_eq

/-- A scan whose files take known times follows a schedule that is taken to its end. -/
theorem exists_schedule (s : ScanStore α) (disk : Disk) (scan : Scanner σ α) (duration : SourceFile → Nat)
    (files : List SourceFile) (shared : σ) :
    ∃ workers schedule, (s.poolAfter disk scan workers schedule files shared).isDone = true ∧
      s.scan disk scan duration files shared =
        s.scanOn disk scan workers (fun pool => pool.run scan schedule) files shared := by
  generalize hp : (s.openSlots disk files).2.pool files (s.openSlots disk files).1 (s.config.workers?.getD 4) shared = p
  have hload : p.load ≤ p.fuel := by
    rw [← hp]
    exact Nat.le_of_eq (Pool.fuel_start ..)
  have hquiet : Pool.Quiet p := by
    rw [← hp]
    exact Pool.quiet_start ..
  obtain ⟨schedule, hdrive, hdone⟩ := Pool.drive_ends scan duration s.config.timeoutPerFileMs
    (.start p.workers.length) hquiet hload
  refine ⟨s.config.workers?.getD 4, schedule, ?_, ?_⟩
  · rw [poolAfter, hp]
    exact hdone
  · unfold ScanStore.scan scanOn tallyOn
    dsimp only
    rw [hp, hdrive]

end ScanStore

/-- Let files be scanned one by one, or in batches under any schedule that is taken to its end, with whatever results,
failures and breakdowns, and with whatever batches given up. Each file has one fate: its result comes from the cache or
from a scan, or it has one error that carries its path; results, errors and figures are those of the fates, and the figures
add up. A scan whose files take known times is always taken to its end. A build therefore has no more extractions than
files, and counts as failed the files that the scan counts as failed. -/
theorem ScanStore.every_file_accounted (s : ScanStore α) (disk : Disk) (scan : Scanner σ α) (workers : Nat)
    (schedule : List Scan.Choice) (files : List SourceFile) (shared : σ)
    (hdone : s.modeFor files.length = .parallel →
      (s.poolAfter disk scan workers schedule files shared).isDone = true) :
    let outcome := (s.scanOn disk scan workers (fun pool => pool.run scan schedule) files shared).1
    (∃ fates, Scan.Accounted scan (s.modeFor files.length) files (s.openSlots disk files).1 fates outcome) ∧
    outcome.results.length = outcome.stats.cached + outcome.stats.scanned ∧
    outcome.errors.length = outcome.stats.failed ∧
    outcome.stats.total = outcome.stats.cached + outcome.stats.scanned + outcome.stats.failed ∧
    (∀ duration, ∃ fates, Scan.Accounted scan (s.modeFor files.length) files (s.openSlots disk files).1 fates
      (s.scan disk scan duration files shared).1) ∧
    ∀ (b : Builder) (c : Conditions),
      (b.store.modeFor files.length = .parallel →
        (b.store.poolAfter disk (Builder.scanner b.config disk c.clock) c.workers c.schedule files
          (b.extractor, 0)).isDone = true) →
      let stats := (b.buildUnder disk c files).1.stats
      stats.extracted ≤ stats.files ∧ stats.failed = stats.scan.failed := by
  intro outcome
  obtain ⟨fates, haccounted⟩ := accounted_scanOn workers schedule shared hdone
  obtain ⟨hresults, herrors, htotal⟩ := haccounted.figures
  refine ⟨⟨fates, haccounted⟩, hresults, herrors, htotal, fun duration => ?_, fun b c hbuilt => ?_⟩
  · obtain ⟨workers', schedule', hend, hscan⟩ := s.exists_schedule disk scan duration files shared
    rw [hscan]
    exact accounted_scanOn workers' schedule' shared fun _ => hend
  · intro stats
    obtain ⟨fates', haccounted'⟩ := accounted_scanOn c.workers c.schedule (b.extractor, 0) hbuilt
    obtain ⟨hresults', -, htotal'⟩ := haccounted'.figures
    have hfiles : stats.files = stats.scan.total := haccounted'.total.symm
    have hextracted : stats.extracted = stats.scan.cached + stats.scan.scanned := (List.length_map _).trans hresults'
    have hfailed : stats.failed = stats.files - stats.extracted := rfl
    have hsum : stats.scan.total = stats.scan.cached + stats.scan.scanned + stats.scan.failed := htotal'
    omega

/-- One of four files is cached, a batch is given up while its file is scanned, a batch is completed, and the scan of the
last file breaks down. -/
theorem ScanStore.every_file_accounted_mixed :
    let file (path : String) (flag : Bool) : SourceFile := ⟨path, none, flag, none, none, none⟩
    let files := [file "kept.js" false, file "slow.js" false, file "plain.js" false, file "broken.js" true]
    let scan : Scanner Unit String := fun f s => (if f.entryPoint then .breakdown "gave in" else .value f.path, s)
    let s : ScanStore String :=
      ⟨{ parallelThreshold := 2, batchSize := 1 }, (Cache.new 8 none).put (keyOf .empty (file "kept.js" false)) "kept" 0⟩
    let schedule : List Scan.Choice :=
      [.work 0, .work 0, .deliver, .work 0, .wake [(0, 7)], .work 1, .work 1, .work 0, .work 1, .deliver, .deliver,
        .work 0, .work 1, .work 1, .work 0, .deliver, .work 0, .work 0, .work 0, .deliver, .deliver, .deliver, .deliver]
    let outcome := (s.scanOn .empty scan 2 (fun pool => pool.run scan schedule) files ()).1
    s.modeFor files.length = .parallel ∧ (s.poolAfter .empty scan 2 schedule files ()).isDone = true ∧
      outcome.results = ["kept", "plain.js"] ∧
      (∃ fates, Scan.Accounted scan .parallel files [some "kept", none, none, none] fates outcome) ∧
      outcome.stats.total = outcome.stats.cached + outcome.stats.scanned + outcome.stats.failed := by
  intro file files scan s schedule outcome
  have hdone : (s.poolAfter .empty scan 2 schedule files ()).isDone = true := by decide +kernel
  have hmode : s.modeFor files.length = .parallel := by decide +kernel
  have hslots : (s.openSlots .empty files).1 = [some "kept", none, none, none] := by decide +kernel
  have hresults : outcome.results = ["kept", "plain.js"] := by decide +kernel
  obtain ⟨haccounted, -, -, htotal, -⟩ := ScanStore.every_file_accounted s .empty scan 2 schedule files () fun _ => hdone
  rw [hmode, hslots] at haccounted
  exact ⟨hmode, hdone, hresults, haccounted, htotal⟩

end CodeAtlas
