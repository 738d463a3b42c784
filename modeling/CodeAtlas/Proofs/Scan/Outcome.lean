/-
  What a scan yields when every file has one outcome.

  A scan is `Steady` when each file ends as an ideal scan of it would, whatever the shared state, as long as that is good.
  Then files scanned one by one are tallied in their order (`oneByOne_tallies`), and files scanned in batches, under any
  schedule that gives no batch up, are tallied alike up to the order of the batches (`pool_tallies`).  With the right
  results in its cache, a scan therefore has the results of the ideal scan in the order of the files, and its errors
  (`ScanStore.scanOn_faithful`).
-/
import CodeAtlas.Proofs.Cache.Order
import CodeAtlas.Proofs.Scan.Pool
import CodeAtlas.Scan.Basic
import Mathlib.Data.List.Perm.Basic

namespace CodeAtlas

variable {σ α : Type}

/-- How a scan ends that has this outcome. -/
def Attempt.ofOutcome : Except Failure α → Attempt α
  | .ok a => .value a
  | .error f => .failure f

namespace Scan

/-- From good states a scan gives the files their ideal outcomes, and leaves good states. -/
def Steady (scan : Scanner σ α) (ideal : SourceFile → Except Failure α) (known : Set SourceFile) (good : σ → Prop) :
    Prop :=
  ∀ file ∈ known, ∀ s, good s → (scan file s).1 = .ofOutcome (ideal file) ∧ good (scan file s).2

/-- The error of a file that fails. -/
def errorOf? (ideal : SourceFile → Except Failure α) (file : SourceFile) : Option FileError :=
  match ideal file with
  | .ok _ => none
  | .error f => some (.atPath file.path f)

/-- The result of the file at a position, with that position. -/
def freshAt? (ideal : SourceFile → Except Failure α) (files : List SourceFile) (i : Nat) : Option (Nat × α) :=
  files[i]?.bind fun file => (ideal file).toOption.map fun a => (i, a)

/-- The error of the file at a position. -/
def errorAt? (ideal : SourceFile → Except Failure α) (files : List SourceFile) (i : Nat) : Option FileError :=
  files[i]?.bind (errorOf? ideal)

variable {scan : Scanner σ α} {ideal : SourceFile → Except Failure α} {known : Set SourceFile} {good : σ → Prop}
  {files : List SourceFile}

/-! ## One by one -/

theorem Tally.fresh_start (total cached : Nat) : (Tally.start total cached : Tally α).fresh = [] := by
  unfold Tally.start
  split <;> rfl

theorem Tally.errors_start (total cached : Nat) : (Tally.start total cached : Tally α).errors = [] := by
  unfold Tally.start
  split <;> rfl

theorem Tally.fresh_addFile (t : Tally α) (total index : Nat) (file : SourceFile) :
    (t.addFile total index file.path (.ofOutcome (ideal file))).fresh =
      t.fresh ++ ((ideal file).toOption.map fun a => (index, a)).toList := by
  cases h : ideal file with
  | ok a => rfl
  | error f =>
    show t.fresh = t.fresh ++ []
    rw [List.append_nil]

theorem Tally.errors_addFile (t : Tally α) (total index : Nat) (file : SourceFile) :
    (t.addFile total index file.path (.ofOutcome (ideal file))).errors = t.errors ++ (errorOf? ideal file).toList := by
  unfold errorOf?
  cases h : ideal file with
  | ok a =>
    show t.errors = t.errors ++ []
    rw [List.append_nil]
  | error f => rfl

/-- Files that are scanned one by one are tallied in their order. -/
theorem oneByOne_tallies (hscan : Steady scan ideal known good) (hfiles : ∀ file ∈ files, file ∈ known)
    (pending : List Nat) (t : Tally α) {shared : σ} (hgood : good shared) :
    (oneByOne scan files.toArray pending t shared).1.fresh = t.fresh ++ pending.filterMap (freshAt? ideal files) ∧
      (oneByOne scan files.toArray pending t shared).1.errors = t.errors ++ pending.filterMap (errorAt? ideal files) ∧
      good (oneByOne scan files.toArray pending t shared).2 := by
  induction pending generalizing t shared with
  | nil => simp [oneByOne, hgood]
  | cons index pending ih =>
    unfold oneByOne
    rw [List.getElem?_toArray]
    cases hfile : files[index]? with
    | none => simpa [freshAt?, errorAt?, hfile] using ih t hgood
    | some file =>
      obtain ⟨hattempt, hgood'⟩ := hscan file (hfiles file (List.mem_of_getElem? hfile)) shared hgood
      dsimp only
      rw [hattempt]
      obtain ⟨hfresh, herrors, hend⟩ := ih (t.addFile files.toArray.size index file.path (.ofOutcome (ideal file))) hgood'
      have hfreshAt : (freshAt? ideal files index).toList = ((ideal file).toOption.map fun a => (index, a)).toList := by
        simp [freshAt?, hfile]
      have herrorAt : (errorAt? ideal files index).toList = (errorOf? ideal file).toList := by
        simp [errorAt?, hfile]
      refine ⟨?_, ?_, hend⟩
      · rw [hfresh, Tally.fresh_addFile, ← hfreshAt, List.append_assoc, List.filterMap_cons]
        cases freshAt? ideal files index <;> rfl
      · rw [herrors, Tally.errors_addFile, ← herrorAt, List.append_assoc, List.filterMap_cons]
        cases errorAt? ideal files index <;> rfl

/-! ## In batches -/

/-- The results that a report hands over. -/
def Report.fresh : Report α → List (Nat × α)
  | .completed _ _ results _ => results
  | .timedOut _ _ _ | .failed _ _ _ _ => []

/-- The errors that a report leads to. -/
def Report.errors (pathOf : Nat → String) : Report α → List FileError
  | .completed _ _ _ errors => errors
  | .timedOut batch files nanos => files.map fun i => .atPath (pathOf i) (.batchTimeout batch nanos)
  | .failed batch worker files message =>
    files.map fun i => .atPath (pathOf i) (.workerFailed worker ("batch " ++ toString batch ++ ": " ++ message))

theorem Tally.addReport_eq (t : Tally α) (total : Nat) (pathOf : Nat → String) (r : Report α) :
    (t.addReport total pathOf r).fresh = t.fresh ++ r.fresh ∧
      (t.addReport total pathOf r).errors = t.errors ++ r.errors pathOf := by
  cases r <;> simp [addReport, Report.fresh, Report.errors, advance, recordAll, Function.comp_def]

theorem Tally.ofReports_eq (t : Tally α) (total : Nat) (pathOf : Nat → String) (reports : List (Report α)) :
    (t.ofReports total pathOf reports).fresh = t.fresh ++ reports.flatMap Report.fresh ∧
      (t.ofReports total pathOf reports).errors = t.errors ++ reports.flatMap (Report.errors pathOf) := by
  induction reports generalizing t with
  | nil => simp [ofReports]
  | cons r reports ih =>
    obtain ⟨hfresh, herrors⟩ := ih (t.addReport total pathOf r)
    obtain ⟨hfresh', herrors'⟩ := t.addReport_eq total pathOf r
    rw [List.flatMap_cons, List.flatMap_cons, ← List.append_assoc, ← List.append_assoc, ← hfresh', ← herrors']
    exact ⟨hfresh, herrors⟩

/-- A list whose elements have numbers below a bound, sorted by those numbers. -/
theorem perm_flatMap_filter {β : Type} (number : β → Nat) (l : List β) (n : Nat) :
    (l.filter fun b => number b < n).Perm ((List.range n).flatMap fun k => l.filter fun b => number b == k) := by
  induction n with
  | zero => simp
  | succ n ih =>
    rw [List.range_succ, List.flatMap_append, List.flatMap_singleton]
    have hsplit := List.filter_append_perm (fun b => decide (number b < n)) (l.filter fun b => number b < n + 1)
    rw [List.filter_filter, List.filter_filter] at hsplit
    have hbelow : (l.filter fun b => decide (number b < n) && decide (number b < n + 1)) =
        l.filter fun b => number b < n := by
      refine List.filter_congr fun b _ => ?_
      grind
    have hat : (l.filter fun b => !decide (number b < n) && decide (number b < n + 1)) =
        l.filter fun b => number b == n := by
      refine List.filter_congr fun b _ => ?_
      grind
    rw [hbelow, hat] at hsplit
    exact hsplit.symm.trans (ih.append_right _)

theorem map_range_getElem? {β : Type} (l : List β) : ((List.range l.length).map fun k => l[k]?) = l.map some := by
  refine List.ext_getElem (by simp) fun i hi _ => ?_
  have hlt : i < l.length := by simpa using hi
  simp [hlt]

/-- What the reports of a finished pool hand over, batch by batch. -/
theorem Sound.flatMap_reports_by_batch {β : Type} {y : Promise α} {p : Pool σ α} (h : Sound y good p)
    (hd : p.isDone = true) (g : Report α → List β) (f : Nat → List β)
    (heach : ∀ k members r, p.batches[k]? = some members → (p.coordinator.reports.filter fun r => r.batch == k) = [r] →
      Ended y p.pathOf k members r → (k ∈ p.coordinator.abandoned ↔ ∃ nanos, r = .timedOut k members nanos) →
      g r = f k) :
    (p.coordinator.reports.flatMap g).Perm ((List.range p.batches.length).flatMap f) := by
  have hall : (p.coordinator.reports.filter fun r => r.batch < p.batches.length) = p.coordinator.reports :=
    List.filter_eq_self.mpr fun r hr => decide_eq_true (h.batch_lt_of_mem_reports hr)
  have hsorted := perm_flatMap_filter Report.batch p.coordinator.reports p.batches.length
  rw [hall] at hsorted
  have hbatch : ∀ k ∈ List.range p.batches.length,
      ((p.coordinator.reports.filter fun r => r.batch == k).flatMap g) = f k := by
    intro k hk
    have hlt : k < p.batches.length := List.mem_range.mp hk
    have hmembers : p.batches[k]? = some p.batches[k] := List.getElem?_eq_getElem hlt
    obtain ⟨r, hr, hended, habandoned⟩ := h.reported_of_isDone hd hmembers
    rw [hr, List.flatMap_singleton, heach k _ r hmembers hr hended habandoned]
  calc (p.coordinator.reports.flatMap g).Perm
        (((List.range p.batches.length).flatMap fun k => p.coordinator.reports.filter fun r => r.batch == k).flatMap g) :=
          hsorted.flatMap_right g
    _ = (List.range p.batches.length).flatMap f := by
          rw [List.flatMap_assoc]
          exact List.flatMap_congr hbatch

/-- The batches of a pool, taken by their numbers. -/
theorem Pool.flatMap_filesOf {β : Type} (p : Pool σ α) (f : List Nat → List β) :
    ((List.range p.batches.length).flatMap fun k => f (p.filesOf k)) = p.batches.flatMap f := by
  calc ((List.range p.batches.length).flatMap fun k => f (p.filesOf k))
      _ = ((List.range p.batches.length).map fun k => p.batches[k]?).flatMap fun members => f (members.getD []) := by
          rw [List.flatMap_map]
          rfl
      _ = p.batches.flatMap f := by
          rw [map_range_getElem?, List.flatMap_map]
          rfl

/-- What the reports of a finished pool hand over, when the report of each batch hands over something for its members. -/
theorem Sound.flatMap_reports {β : Type} {y : Promise α} {p : Pool σ α} (h : Sound y good p) (hd : p.isDone = true)
    (g : Report α → List β) (f : Nat → Option β)
    (heach : ∀ k members r, Ended y p.pathOf k members r →
      (k ∈ p.coordinator.abandoned ↔ ∃ nanos, r = .timedOut k members nanos) → g r = members.filterMap f) :
    (p.coordinator.reports.flatMap g).Perm (p.batches.flatten.filterMap f) := by
  have hbatches : (p.coordinator.reports.flatMap g).Perm
      ((List.range p.batches.length).flatMap fun k => (p.filesOf k).filterMap f) := by
    refine h.flatMap_reports_by_batch hd g _ fun k members r hmembers _ hended habandoned => ?_
    rw [p.filesOf_eq k members hmembers]
    exact heach k members r hended habandoned
  rw [p.flatMap_filesOf fun members => members.filterMap f] at hbatches
  rwa [List.filterMap_flatten, ← List.flatMap_def]

/-- Each file ends with its ideal outcome, and no scan breaks down. -/
def promise (ideal : SourceFile → Except Failure α) (files : List SourceFile) : Promise α :=
  { outcome := fun i o => ∃ file, files[i]? = some file ∧ o = ideal file
    breakdown := fun _ _ => False }

theorem Steady.keeps (hscan : Steady scan ideal known good) (hfiles : ∀ file ∈ files, file ∈ known) :
    Keeps scan files.toArray good (promise ideal files) := by
  intro i file s hfile hgood
  rw [List.getElem?_toArray] at hfile
  obtain ⟨hattempt, hgood'⟩ := hscan file (hfiles file (List.mem_of_getElem? hfile)) s hgood
  refine ⟨?_, hgood'⟩
  rw [hattempt]
  cases h : ideal file with
  | ok a => exact ⟨file, hfile, h.symm⟩
  | error f => exact ⟨file, hfile, h.symm⟩

theorem valuesOf_eq {outs : List (Nat × Except Failure α)} (h : ∀ o ∈ outs, (promise ideal files).outcome o.1 o.2) :
    valuesOf outs = (outs.map (·.1)).filterMap (freshAt? ideal files) := by
  unfold valuesOf
  rw [List.filterMap_map]
  refine List.filterMap_congr fun o ho => ?_
  obtain ⟨file, hfile, houtcome⟩ := h o ho
  simp [freshAt?, hfile, houtcome]

theorem failuresOf_eq {pathOf : Nat → String} (hpath : ∀ i file, files[i]? = some file → pathOf i = file.path)
    {outs : List (Nat × Except Failure α)} (h : ∀ o ∈ outs, (promise ideal files).outcome o.1 o.2) :
    failuresOf pathOf outs = (outs.map (·.1)).filterMap (errorAt? ideal files) := by
  unfold failuresOf
  rw [List.filterMap_map]
  refine List.filterMap_congr fun o ho => ?_
  obtain ⟨file, hfile, houtcome⟩ := h o ho
  cases hideal : ideal file with
  | ok a => simp [errorAt?, errorOf?, hfile, houtcome, hideal]
  | error f => simp [errorAt?, errorOf?, hfile, houtcome, hideal, hpath o.1 file hfile]

theorem Pool.pathOf_eq {p : Pool σ α} (hp : p.files = files.toArray) {i : Nat} {file : SourceFile}
    (h : files[i]? = some file) : p.pathOf i = file.path := by
  have hget : p.files[i]? = some file := by
    rw [hp]
    exact List.getElem?_toArray.trans h
  unfold Pool.pathOf
  rw [hget]
  rfl

/-- Files that are scanned in batches are tallied like files that are scanned one by one, up to the order of the
batches, unless a batch is given up. -/
theorem pool_tallies (hscan : Steady scan ideal known good) (hfiles : ∀ file ∈ files, file ∈ known) {pending : List Nat}
    (hpending : ∀ i ∈ pending, i < files.length) (batchSize workers : Nat) (schedule : List Choice) (t : Tally α)
    {shared : σ} (hgood : good shared) {p : Pool σ α}
    (hp : p = (Pool.start files.toArray pending batchSize workers shared).run scan schedule) (hd : p.isDone = true)
    (hkept : p.coordinator.abandoned = []) :
    (t.ofReports files.length p.pathOf p.coordinator.reports).fresh.Perm
        (t.fresh ++ pending.filterMap (freshAt? ideal files)) ∧
      (t.ofReports files.length p.pathOf p.coordinator.reports).errors.Perm
        (t.errors ++ pending.filterMap (errorAt? ideal files)) ∧
      good p.shared := by
  have hsound : Sound (promise ideal files) good p := by
    rw [hp]
    exact (Sound.start hpending batchSize workers hgood).run (hscan.keeps hfiles) schedule
  obtain ⟨hpfiles, hflatten⟩ := Pool.run_start_fixed scan files.toArray pending batchSize workers shared schedule
  rw [← hp] at hpfiles hflatten
  have hpath : ∀ i file, files[i]? = some file → p.pathOf i = file.path := fun i file => Pool.pathOf_eq hpfiles
  obtain ⟨hfresh, herrors⟩ := t.ofReports_eq files.length p.pathOf p.coordinator.reports
  rw [hfresh, herrors, ← hflatten]
  refine ⟨?_, ?_, hsound.good⟩
  · refine (hsound.flatMap_reports hd Report.fresh _ fun k members r hended habandoned => ?_).append_left _
    cases hended with
    | completed all kept => rw [all]; exact valuesOf_eq kept
    | timedOut nanos => simp [hkept] at habandoned
    | failed _ _ hm => exact hm.elim
  · refine (hsound.flatMap_reports hd (Report.errors p.pathOf) _ fun k members r hended habandoned => ?_).append_left _
    cases hended with
    | completed all kept => rw [all]; exact failuresOf_eq hpath kept
    | timedOut nanos => simp [hkept] at habandoned
    | failed _ _ hm => exact hm.elim

/-! ## Slots -/

theorem mem_missing {slots : List (Option α)} {i : Nat} : i ∈ missing slots ↔ slots[i]? = some none := by
  unfold missing
  rw [List.mem_filterMap]
  constructor
  · rintro ⟨⟨slot, index⟩, hmem, hslot⟩
    cases slot with
    | none =>
      cases hslot
      exact List.mem_zipIdx_iff_getElem?.mp hmem
    | some a => cases hslot
  · intro hi
    exact ⟨(none, i), List.mem_zipIdx_iff_getElem?.mpr hi, rfl⟩

theorem lt_of_mem_missing {slots : List (Option α)} {i : Nat} (h : i ∈ missing slots) : i < slots.length :=
  (List.getElem?_eq_some_iff.mp (mem_missing.mp h)).1

theorem length_missing_le (slots : List (Option α)) : (missing slots).length ≤ slots.length := by
  have hle : (missing slots).length ≤ slots.zipIdx.length := List.length_filterMap_le _ _
  rwa [List.length_zipIdx] at hle

/-- Every slot that is filled holds the result of its file. -/
def Right (ideal : SourceFile → Except Failure α) (files : List SourceFile) (slots : List (Option α)) : Prop :=
  slots.length = files.length ∧
    ∀ (i : Nat) file a, files[i]? = some file → slots[i]? = some (some a) → ideal file = .ok a

theorem eq_of_freshAt? {i j : Nat} {a : α} (h : freshAt? ideal files i = some (j, a)) :
    i = j ∧ ∀ file, files[j]? = some file → ideal file = .ok a := by
  obtain ⟨file, hfile, hmap⟩ := Option.bind_eq_some_iff.mp h
  obtain ⟨b, hb, heq⟩ := Option.map_eq_some_iff.mp hmap
  cases heq
  refine ⟨rfl, fun file' hfile' => ?_⟩
  rw [hfile] at hfile'
  cases hfile'
  cases hideal : ideal file with
  | ok c =>
    rw [hideal] at hb
    cases hb
    rfl
  | error f =>
    rw [hideal] at hb
    cases hb

theorem length_fill (slots : List (Option α)) (fresh : List (Nat × α)) : (fill slots fresh).length = slots.length := by
  induction fresh generalizing slots with
  | nil => rfl
  | cons r fresh ih => exact (ih _).trans List.length_set

/-- A slot without a new result keeps what it holds. -/
theorem getElem?_fill_of_notMem {slots : List (Option α)} {fresh : List (Nat × α)} {i : Nat} (h : ∀ a, (i, a) ∉ fresh) :
    (fill slots fresh)[i]? = slots[i]? := by
  induction fresh generalizing slots with
  | nil => rfl
  | cons r fresh ih =>
    obtain ⟨j, b⟩ := r
    have hne : j ≠ i := by
      rintro rfl
      exact h b List.mem_cons_self
    refine (ih fun a hmem => h a (List.mem_cons_of_mem _ hmem)).trans ?_
    exact List.getElem?_set_ne hne

/-- A slot with one new result holds that in the end. -/
theorem getElem?_fill_of_mem {slots : List (Option α)} {fresh : List (Nat × α)} {i : Nat} {a : α} (hi : i < slots.length)
    (hmem : (i, a) ∈ fresh) (hone : ∀ b, (i, b) ∈ fresh → b = a) : (fill slots fresh)[i]? = some (some a) := by
  induction fresh generalizing slots with
  | nil => cases hmem
  | cons r fresh ih =>
    obtain ⟨j, b⟩ := r
    have hone' : ∀ b, (i, b) ∈ fresh → b = a := fun b hb => hone b (List.mem_cons_of_mem _ hb)
    by_cases hlater : (i, a) ∈ fresh
    · exact ih (by rwa [List.length_set]) hlater hone'
    · -- no later result goes to this slot
      have hhead : (i, a) = (j, b) := (List.mem_cons.mp hmem).resolve_right hlater
      cases hhead
      have hnone : ∀ c, (i, c) ∉ fresh := fun c hc => hlater (hone' c hc ▸ hc)
      show (fill (slots.set i (some a)) fresh)[i]? = some (some a)
      rw [getElem?_fill_of_notMem hnone, List.getElem?_set_self hi]

/-- Slots with a result filled in for each empty one that has one. -/
theorem fill_eq {slots : List (Option α)} {fresh : List (Nat × α)} {found : Nat → Option α}
    (hfresh : fresh.Perm ((missing slots).filterMap fun i => (found i).map fun a => (i, a))) :
    fill slots fresh = slots.zipIdx.map fun s => s.1.or (found s.2) := by
  have hmem : ∀ i a, (i, a) ∈ fresh ↔ slots[i]? = some none ∧ found i = some a := by
    intro i a
    rw [hfresh.mem_iff, List.mem_filterMap, ← mem_missing]
    constructor
    · rintro ⟨j, hj, hfound⟩
      obtain ⟨b, hb, heq⟩ := Option.map_eq_some_iff.mp hfound
      cases heq
      exact ⟨hj, hb⟩
    · rintro ⟨hi, hfound⟩
      exact ⟨i, hi, by rw [hfound]; rfl⟩
  refine List.ext_getElem? fun i => ?_
  rw [List.getElem?_map, List.getElem?_zipIdx, Nat.zero_add]
  cases hslot : slots[i]? with
  | none =>
    rw [List.getElem?_eq_none_iff] at hslot
    rw [List.getElem?_eq_none (by rwa [length_fill])]
    rfl
  | some slot =>
    have hlt : i < slots.length := (List.getElem?_eq_some_iff.mp hslot).1
    cases slot with
    | some a =>
      rw [getElem?_fill_of_notMem fun b hb => ?_, hslot]
      · rfl
      · have hempty := ((hmem i b).mp hb).1
        rw [hslot] at hempty
        cases hempty
    | none =>
      cases hfound : found i with
      | none =>
        rw [getElem?_fill_of_notMem fun b hb => ?_, hslot]
        · simp [hfound]
        · have hsome := ((hmem i b).mp hb).2
          rw [hfound] at hsome
          cases hsome
      | some a =>
        rw [getElem?_fill_of_mem hlt ((hmem i a).mpr ⟨hslot, hfound⟩) fun b hb => ?_]
        · simp [hfound]
        · have hsome := ((hmem i b).mp hb).2
          rw [hfound] at hsome
          exact (Option.some.inj hsome).symm

theorem freshAt?_eq (ideal : SourceFile → Except Failure α) (files : List SourceFile) :
    freshAt? ideal files = fun i => (files[i]?.bind fun file => (ideal file).toOption).map fun a => (i, a) := by
  funext i
  rw [freshAt?, Option.map_bind]
  rfl

/-- Right slots, with the results of all other files filled in, hold the result of every file that has one. -/
theorem Right.fill_eq {slots : List (Option α)} (h : Right ideal files slots) {fresh : List (Nat × α)}
    (hfresh : fresh.Perm ((missing slots).filterMap (freshAt? ideal files))) :
    fill slots fresh = files.map fun file => (ideal file).toOption := by
  rw [freshAt?_eq] at hfresh
  rw [Scan.fill_eq hfresh]
  refine List.ext_getElem? fun i => ?_
  rw [List.getElem?_map, List.getElem?_map, List.getElem?_zipIdx, Nat.zero_add]
  cases hfile : files[i]? with
  | none =>
    rw [List.getElem?_eq_none_iff, ← h.1] at hfile
    rw [List.getElem?_eq_none hfile]
    rfl
  | some file =>
    have hlt : i < slots.length := by
      rw [h.1]
      exact (List.getElem?_eq_some_iff.mp hfile).1
    have hslot := List.getElem?_eq_getElem hlt
    cases hget : slots[i] with
    | none => simp [hslot, hget, hfile]
    | some a =>
      rw [hget] at hslot
      have hideal := h.2 i file a hfile hslot
      simp [hslot, hideal, Except.toOption]

/-- The files with errors are among those without slots. -/
theorem missing_errors {slots : List (Option α)} (h : Right ideal files slots) :
    (missing slots).filterMap (errorAt? ideal files) = files.filterMap (errorOf? ideal) := by
  have hslots : ∀ s ∈ slots.zipIdx,
      ((if s.1.isNone then some s.2 else none).bind (errorAt? ideal files)) = errorAt? ideal files s.2 := by
    rintro ⟨slot, i⟩ hmem
    have hget := List.mem_zipIdx_iff_getElem?.mp hmem
    cases slot with
    | none => rfl
    | some a =>
      have hlt : i < files.length := by
        rw [← h.1]
        exact (List.getElem?_eq_some_iff.mp hget).1
      have hideal := h.2 i files[i] a (List.getElem?_eq_getElem hlt) hget
      simp [errorAt?, errorOf?, List.getElem?_eq_getElem hlt, hideal]
  unfold missing
  rw [List.filterMap_filterMap, List.filterMap_congr hslots]
  have hpositions : slots.zipIdx.map (·.2) = List.range files.length := by
    rw [List.zipIdx_map_snd, h.1, List.range_eq_range']
  calc slots.zipIdx.filterMap (fun s => errorAt? ideal files s.2)
      _ = (slots.zipIdx.map (·.2)).filterMap (errorAt? ideal files) := by rw [List.filterMap_map]; rfl
      _ = (List.range files.length).filterMap (errorAt? ideal files) := by rw [hpositions]
      _ = ((List.range files.length).map fun i => files[i]?).filterMap (·.bind (errorOf? ideal)) := by
        rw [List.filterMap_map]
        rfl
      _ = files.filterMap (errorOf? ideal) := by
        rw [map_range_getElem?, List.filterMap_map]
        rfl

/-! ## The cache of results -/

theorem lookup_right {right : String × String → α → Prop} {cache : ResultCache α} (h : cache.Holds right)
    (keys : List (String × String)) :
    (lookup cache keys).1.length = keys.length ∧
      (∀ (i : Nat) key a, keys[i]? = some key → (lookup cache keys).1[i]? = some (some a) → right key a) ∧
      (lookup cache keys).2.Holds right := by
  induction keys generalizing cache with
  | nil => exact ⟨rfl, fun _ _ _ hkey => by simp at hkey, h⟩
  | cons key keys ih =>
    obtain ⟨hvalue, hcache⟩ := h.get key 0
    obtain ⟨hlength, hslots, hend⟩ := ih hcache
    refine ⟨?_, ?_, hend⟩
    · show (lookup (cache.get key 0).2 keys).1.length + 1 = keys.length + 1
      rw [hlength]
    · intro i key' a hkey hslot
      cases i with
      | zero =>
        cases hkey
        exact hvalue a (Option.some.inj hslot)
      | succ i => exact hslots i key' a hkey hslot

theorem store_right {right : String × String → α → Prop} {cache : ResultCache α} (h : cache.Holds right)
    {keys : Array (String × String)} {fresh : List (Nat × α)}
    (hfresh : ∀ i a, (i, a) ∈ fresh → ∀ key, keys[i]? = some key → right key a) : (store cache keys fresh).Holds right := by
  induction fresh generalizing cache with
  | nil => exact h
  | cons r fresh ih =>
    obtain ⟨i, a⟩ := r
    refine ih ?_ fun i' a' hmem => hfresh i' a' (List.mem_cons_of_mem _ hmem)
    dsimp only
    cases hkey : keys[i]? with
    | none => exact h
    | some key => exact h.put (hfresh i a List.mem_cons_self key hkey) 0

end Scan

namespace ScanStore

open Scan

/-- The results that may be cached under a key: those of every known file with that key. -/
def ResultOf (disk : Disk) (ideal : SourceFile → Except Failure α) (known : Set SourceFile) (key : String × String)
    (a : α) : Prop :=
  ∀ file ∈ known, keyOf disk file = key → ideal file = .ok a

/-- Known files with one key have one outcome. -/
def OneOutcome (disk : Disk) (ideal : SourceFile → Except Failure α) (known : Set SourceFile) : Prop :=
  ∀ f ∈ known, ∀ g ∈ known, keyOf disk f = keyOf disk g → ideal f = ideal g

/-- The pool in which the files without results are scanned, after a schedule. -/
def poolAfter (s : ScanStore α) (disk : Disk) (scan : Scanner σ α) (workers : Nat) (schedule : List Choice)
    (files : List SourceFile) (shared : σ) : Pool σ α :=
  ((s.openSlots disk files).2.pool files (s.openSlots disk files).1 workers shared).run scan schedule

/-- A scan in batches is orderly when the schedule leaves nothing to do and no batch is given up. -/
def Orderly (s : ScanStore α) (disk : Disk) (scan : Scanner σ α) (workers : Nat) (schedule : List Choice)
    (files : List SourceFile) (shared : σ) : Prop :=
  s.modeFor files.length = .parallel →
    (s.poolAfter disk scan workers schedule files shared).isDone = true ∧
      (s.poolAfter disk scan workers schedule files shared).coordinator.abandoned = []

variable {disk : Disk} {scan : Scanner σ α} {ideal : SourceFile → Except Failure α} {known : Set SourceFile}
  {good : σ → Prop} {files : List SourceFile} {s : ScanStore α}

theorem openSlots_right (hfiles : ∀ file ∈ files, file ∈ known) (h : s.cache.Holds (ResultOf disk ideal known)) :
    Right ideal files (s.openSlots disk files).1 ∧
      (s.openSlots disk files).2.cache.Holds (ResultOf disk ideal known) ∧
      (s.openSlots disk files).2.config = s.config := by
  unfold openSlots
  split
  · obtain ⟨hlength, hslots, hcache⟩ := lookup_right h (files.map (keyOf disk))
    refine ⟨⟨?_, fun i file a hfile hslot => ?_⟩, hcache, rfl⟩
    · exact hlength.trans (List.length_map _)
    · have hkey : (files.map (keyOf disk))[i]? = some (keyOf disk file) := by rw [List.getElem?_map, hfile]; rfl
      exact hslots i _ a hkey hslot file (hfiles file (List.mem_of_getElem? hfile)) rfl
  · refine ⟨⟨List.length_map _, fun i file a hfile hslot => ?_⟩, h, rfl⟩
    dsimp only at hslot
    rw [List.getElem?_map, hfile] at hslot
    cases hslot

theorem length_openSlots (s : ScanStore α) (disk : Disk) (files : List SourceFile) :
    (s.openSlots disk files).1.length = files.length := by
  unfold openSlots
  split
  · have hany : s.cache.Holds fun _ _ => True := fun _ _ => trivial
    exact (lookup_right hany (files.map (keyOf disk))).1.trans (List.length_map _)
  · exact List.length_map _

theorem modeFor_openSlots (s : ScanStore α) (disk : Disk) (files : List SourceFile) (count : Nat) :
    (s.openSlots disk files).2.modeFor count = s.modeFor count := by
  unfold openSlots
  split <;> rfl

/-- The parts of a scan. -/
theorem scanOn_eq {s : ScanStore α} {disk : Disk} {scan : Scanner σ α} {workers : Nat} {course : Pool σ α → Pool σ α}
    {files : List SourceFile} {shared : σ} {tallied : Tally α × σ}
    (h : (s.openSlots disk files).2.tallyOn scan workers course files (s.openSlots disk files).1 shared = tallied) :
    s.scanOn disk scan workers course files shared =
      (((s.openSlots disk files).2.close disk files (s.openSlots disk files).1 tallied.1).1,
        ((s.openSlots disk files).2.close disk files (s.openSlots disk files).1 tallied.1).2, tallied.2) := by
  rw [← h]
  rfl

/-- The outcome of a scan with the results of the ideal one, and with its errors, in their order unless files were
scanned in batches. -/
structure Faithful (ideal : SourceFile → Except Failure α) (mode : ScanMode) (files : List SourceFile)
    (outcome : ScanOutcome α) : Prop where
  results : outcome.results = files.filterMap fun file => (ideal file).toOption
  errors : outcome.errors.Perm (files.filterMap (errorOf? ideal))
  ordered : mode = .sequential → outcome.errors = files.filterMap (errorOf? ideal)

theorem tallyOn_tallies (hscan : Steady scan ideal known good) (hfiles : ∀ file ∈ files, file ∈ known)
    {slots : List (Option α)} (hslots : slots.length = files.length) (workers : Nat) (schedule : List Choice) {shared : σ}
    (hgood : good shared)
    (horderly : s.modeFor files.length = .parallel →
      ((s.pool files slots workers shared).run scan schedule).isDone = true ∧
        ((s.pool files slots workers shared).run scan schedule).coordinator.abandoned = [])
    {result : Tally α × σ}
    (hresult : s.tallyOn scan workers (fun pool => pool.run scan schedule) files slots shared = result) :
    result.1.fresh.Perm ((missing slots).filterMap (freshAt? ideal files)) ∧
      result.1.errors.Perm ((missing slots).filterMap (errorAt? ideal files)) ∧
      (s.modeFor files.length = .sequential → result.1.errors = (missing slots).filterMap (errorAt? ideal files)) ∧
      good result.2 := by
  unfold tallyOn at hresult
  dsimp only at hresult
  cases hmode : s.modeFor files.length with
  | sequential =>
    rw [hmode] at hresult
    subst hresult
    obtain ⟨hfresh, herrors, hend⟩ := oneByOne_tallies hscan hfiles (missing slots)
      (.start files.length (files.length - (missing slots).length)) hgood
    rw [Tally.fresh_start, List.nil_append] at hfresh
    rw [Tally.errors_start, List.nil_append] at herrors
    exact ⟨.of_eq hfresh, .of_eq herrors, fun _ => herrors, hend⟩
  | parallel =>
    rw [hmode] at hresult
    subst hresult
    have hpending : ∀ i ∈ missing slots, i < files.length := fun i hi => hslots ▸ lt_of_mem_missing hi
    obtain ⟨hfresh, herrors, hend⟩ := pool_tallies hscan hfiles hpending s.config.batchSize workers schedule
      (.start files.length (files.length - (missing slots).length)) hgood rfl (horderly hmode).1 (horderly hmode).2
    rw [Tally.fresh_start, List.nil_append] at hfresh
    rw [Tally.errors_start, List.nil_append] at herrors
    exact ⟨hfresh, herrors, fun h => (nomatch h), hend⟩

/-- Closing a scan keeps the settings, and puts right results into the cache. -/
theorem close_right (hone : OneOutcome disk ideal known) (hfiles : ∀ file ∈ files, file ∈ known)
    (h : s.cache.Holds (ResultOf disk ideal known)) (slots : List (Option α)) {tally : Tally α}
    (hfresh : ∀ i a, (i, a) ∈ tally.fresh → ∀ file, files[i]? = some file → ideal file = .ok a) :
    (s.close disk files slots tally).2.config = s.config ∧
      (s.close disk files slots tally).2.cache.Holds (ResultOf disk ideal known) := by
  unfold close
  dsimp only
  split
  · refine ⟨rfl, store_right h fun i a hmem key hkey g hg hsame => ?_⟩
    rw [List.getElem?_toArray, List.getElem?_map] at hkey
    obtain ⟨file, hfile, rfl⟩ := Option.map_eq_some_iff.mp hkey
    rw [hone g hg file (hfiles file (List.mem_of_getElem? hfile)) hsame]
    exact hfresh i a hmem file hfile
  · exact ⟨rfl, h⟩

/-- A steady scan from right results is faithful, and leaves right results. -/
theorem scanOn_faithful (hscan : Steady scan ideal known good) (hone : OneOutcome disk ideal known)
    (hfiles : ∀ file ∈ files, file ∈ known) (hcache : s.cache.Holds (ResultOf disk ideal known)) (workers : Nat)
    (schedule : List Choice) {shared : σ} (hgood : good shared)
    (horderly : s.Orderly disk scan workers schedule files shared) {result : ScanOutcome α × ScanStore α × σ}
    (hresult : s.scanOn disk scan workers (fun pool => pool.run scan schedule) files shared = result) :
    Faithful ideal (s.modeFor files.length) files result.1 ∧ result.2.1.config = s.config ∧
      result.2.1.cache.Holds (ResultOf disk ideal known) ∧ good result.2.2 := by
  obtain ⟨hslots, hopen, hconfig⟩ := openSlots_right hfiles hcache
  have hmode := s.modeFor_openSlots disk files files.length
  generalize htally : (s.openSlots disk files).2.tallyOn scan workers (fun pool => pool.run scan schedule) files
    (s.openSlots disk files).1 shared = tallied
  obtain ⟨hfresh, herrors, hordered, hend⟩ :=
    tallyOn_tallies hscan hfiles hslots.1 workers schedule hgood (fun h => horderly (hmode ▸ h)) htally
  rw [missing_errors hslots] at herrors hordered
  obtain ⟨hconfig', hcache'⟩ := close_right hone hfiles hopen (s.openSlots disk files).1
    fun i a hmem => by
      obtain ⟨j, _, hj⟩ := List.mem_filterMap.mp (hfresh.mem_iff.mp hmem)
      exact (eq_of_freshAt? hj).2
  rw [← hresult, scanOn_eq htally]
  refine ⟨⟨?_, herrors, fun h => hordered (hmode.trans h)⟩, hconfig'.trans hconfig, hcache', hend⟩
  show ((fill (s.openSlots disk files).1 tallied.1.fresh).filterMap id) = _
  rw [hslots.fill_eq hfresh, List.filterMap_map]
  rfl

end ScanStore

end CodeAtlas
