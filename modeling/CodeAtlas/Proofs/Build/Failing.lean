/-
  Files that fail do not show in what is built from the others.

  When no two files have one path, no two of them meet in a cache, and every file has the outcome that a fresh extractor
  gives it, whether its content is at hand or on disk (`scanner_steady_of_paths`).  So a scan of all files and a scan of
  those that can be extracted have the same results (`filterMap_extractable`), whichever of the two goes on in batches, and
  all but the errors of a build is made of the results (`failures_leave_no_trace`).
-/
import CodeAtlas.Proofs.Build

namespace CodeAtlas

open Scan (Steady errorOf?)

/-! ## Files on disk -/

namespace SourceFile

/-- The file with its content at hand. -/
def withContent (f : SourceFile) (content : String) : SourceFile :=
  { f with content := some content }

/-- The loadable ones of some files, with their contents at hand. -/
def loadedFrom (disk : Disk) (files : List SourceFile) : Set SourceFile :=
  { g | ∃ f ∈ files, ∃ loaded, f.load disk = .ok loaded ∧ g = f.withContent loaded.content }

end SourceFile

namespace Extractor

variable {disk : Disk} {file : SourceFile} {project : String} {commit : Option String}

/-- A file is extracted from what it is loaded with. -/
theorem extract_of_load (x : Extractor) {loaded : Loaded} (h : file.load disk = .ok loaded) (now : Nat) :
    x.extract disk now file project commit = x.extract disk now (file.withContent loaded.content) project commit := by
  unfold extract
  rw [h, SourceFile.load_of_content (f := file.withContent loaded.content) rfl]
  rfl

theorem extract_of_load_error (x : Extractor) {f : Failure} (h : file.load disk = .error f) (now : Nat) :
    x.extract disk now file project commit = (.error f, x) := by
  unfold extract
  rw [h]

end Extractor

namespace Builder

variable {config : Config} {disk : Disk} {files : List SourceFile} {now : Nat} {b : Builder}

/-- What a fresh extractor makes of a file. -/
def outcome (config : Config) (disk : Disk) (now : Nat) (file : SourceFile) : Except Failure Extraction :=
  Extraction.fresh config disk now config.projectId config.commit file

/-- The files that can be extracted. -/
def extractable (config : Config) (disk : Disk) (now : Nat) (files : List SourceFile) : List SourceFile :=
  files.filter fun file => (outcome config disk now file).isOk

/-! ## Distinct paths -/

section Paths

variable (hpaths : (files.map (·.path)).Nodup)

include hpaths

theorem oneTree_of_paths : Extractor.OneTree (SourceFile.loadedFrom disk files) := by
  rintro _ ⟨f, hf, loaded, hload, rfl⟩ _ ⟨g, hg, loaded', hload', rfl⟩ content content' hcontent hcontent' hkey
  obtain rfl : f = g := List.inj_on_of_nodup_map hpaths hf hg (cacheKey_inj hkey).1
  rw [hload] at hload'
  cases hload'
  rw [hcontent] at hcontent'
  exact ⟨Option.some.inj hcontent', rfl, fun _ _ => rfl⟩

theorem oneOutcome_of_paths (now : Nat) : ScanStore.OneOutcome disk (outcome config disk now) { f | f ∈ files } := by
  intro f hf g hg hkey
  rw [List.inj_on_of_nodup_map hpaths hf hg (congrArg Prod.fst hkey)]

/-- Whatever an extractor has seen of files with distinct paths, each of them has the outcome that it has alone. -/
theorem scanner_steady_of_paths (now : Nat) (clock : Nat → Nat) :
    Steady (scanner config disk clock) (outcome config disk now) { f | f ∈ files }
      fun s => GoodExtractor config (SourceFile.loadedFrom disk files) s.1 := by
  rintro file hfile ⟨x, count⟩ hx
  have hproduced : (x.extract disk (clock count) file config.projectId config.commit).1 = outcome config disk now file ∧
      GoodExtractor config (SourceFile.loadedFrom disk files)
        (x.extract disk (clock count) file config.projectId config.commit).2 := by
    unfold outcome Extraction.fresh
    cases hload : file.load disk with
    | error f =>
      rw [Extractor.extract_of_load_error _ hload, Extractor.extract_of_load_error _ hload]
      exact ⟨rfl, hx⟩
    | ok loaded =>
      have hknown : file.withContent loaded.content ∈ SourceFile.loadedFrom disk files :=
        ⟨file, hfile, loaded, hload, rfl⟩
      obtain ⟨cache, hextract, hcache⟩ := Extractor.extract_eq (oneTree_of_paths hpaths) (hx.engine ▸ hx.symbols) hknown
        rfl disk (clock count) config.projectId config.commit
      rw [Extractor.extract_of_load x hload, Extractor.extract_of_load _ hload, hextract]
      refine ⟨?_, hx.engine, hx.contextLines, hx.engine ▸ hcache⟩
      rw [hx.engine, hx.contextLines]
      exact (Extraction.fresh_eq rfl config disk now config.projectId config.commit).symm
  unfold scanner
  dsimp only
  generalize x.extract disk (clock count) file config.projectId config.commit = produced at hproduced ⊢
  obtain ⟨result, x'⟩ := produced
  obtain ⟨rfl, hgood⟩ := hproduced
  cases outcome config disk now file with
  | ok e => exact ⟨rfl, hgood⟩
  | error f => exact ⟨rfl, hgood⟩

/-- A fresh builder builds from the outcomes of the files. -/
theorem build_of_paths (hnew : Builder.new config = .ok b) (now : Nat) {c : Conditions} (horderly : b.Orderly disk c files) :
    ∃ scanned stats, ScanStore.Faithful (outcome config disk now) (b.store.modeFor files.length) files scanned ∧
      (b.buildUnder disk c files).1 = (assemble config b.chunker files.length scanned stats).1 := by
  obtain ⟨-, -, rfl⟩ := new_eq_ok_iff.mp hnew
  generalize hscanned : (ScanStore.new config.batch config.cache).scanOn disk (scanner config disk c.clock) c.workers
    (fun pool => pool.run (scanner config disk c.clock) c.schedule) files (.ofConfig config, 0) = scanned
  obtain ⟨hfaithful, -⟩ := ScanStore.scanOn_faithful (scanner_steady_of_paths hpaths now c.clock)
    (oneOutcome_of_paths hpaths now) (fun _ h => h) (Cache.holds_new _ _) c.workers c.schedule
    ⟨rfl, rfl, Cache.holds_new _ _⟩ horderly hscanned
  refine ⟨scanned.1, scanned.2.2.1.cache.stats, hfaithful, ?_⟩
  rw [← hscanned]
  rfl

end Paths

/-! ## What is extracted -/

theorem filterMap_extractable (files : List SourceFile) :
    ((extractable config disk now files).filterMap fun file => (outcome config disk now file).toOption) =
      files.filterMap fun file => (outcome config disk now file).toOption := by
  unfold extractable
  rw [List.filterMap_filter]
  refine List.filterMap_congr fun file _ => ?_
  cases outcome config disk now file with
  | ok e => rfl
  | error f => rfl

theorem length_extractable (files : List SourceFile) :
    (files.filterMap fun file => (outcome config disk now file).toOption).length =
      (extractable config disk now files).length := by
  unfold extractable
  induction files with
  | nil => rfl
  | cons file files ih =>
    rw [List.filterMap_cons, List.filter_cons]
    cases outcome config disk now file with
    | ok e => exact congrArg (· + 1) ih
    | error f => exact ih

/-- No file that can be extracted has an error. -/
theorem errors_extractable (files : List SourceFile) :
    (extractable config disk now files).filterMap (errorOf? (outcome config disk now)) = [] := by
  refine List.filterMap_eq_nil_iff.mpr fun file hfile => ?_
  have hok := List.of_mem_filter hfile
  unfold errorOf?
  cases h : outcome config disk now file with
  | ok e => rfl
  | error f =>
    rw [h] at hok
    cases hok

/-! ## Builds -/

/-- No file is without chunks when the strategy is known. -/
theorem errors_chunksOf {chunker : Chunker} (h : (ChunkStrategy.ofName? chunker.config.strategy).isNone = false)
    (extractions : List Extraction) : (chunksOf chunker extractions).2 = [] := by
  obtain ⟨strategy, hstrategy⟩ := Option.isSome_iff_exists.mp (Option.isNone_eq_false_iff.mp h)
  induction extractions with
  | nil => rfl
  | cons e extractions ih =>
    unfold chunksOf Chunker.cutDefault Chunker.cut
    rw [hstrategy]
    exact ih

/-- A build of files some of which fail, beside a build of the others. -/
structure RecordsFailures (config : Config) (disk : Disk) (now : Nat) (files : List SourceFile) (r r' : Build) : Prop where
  graph : r.graph = r'.graph
  chunks : r.chunks = r'.chunks
  analysis : { r.analysis with errors := [] } = { r'.analysis with errors := [] }
  /-- One error for each file that fails, with its path and the code and the message of the failure. -/
  errors : r.errors.Perm (files.filterMap (errorOf? (outcome config disk now)))
  noErrors : r'.errors = []
  extracted : r.stats.extracted = (extractable config disk now files).length
  failed : r.stats.failed = files.length - (extractable config disk now files).length

/-- A fresh builder records the files that fail, and builds from the others what it builds when only those are given,
whether files are scanned one by one or in batches. -/
theorem failures_leave_no_trace (disk : Disk) (now : Nat) {config : Config} {b : Builder} (hnew : Builder.new config = .ok b)
    {files : List SourceFile} (hpaths : (files.map (·.path)).Nodup) {c c' : Conditions}
    (horderly : b.Orderly disk c files) (horderly' : b.Orderly disk c' (extractable config disk now files)) :
    RecordsFailures config disk now files (b.buildUnder disk c files).1
      (b.buildUnder disk c' (extractable config disk now files)).1 := by
  have hpaths' : ((extractable config disk now files).map (·.path)).Nodup :=
    hpaths.sublist (List.filter_sublist.map _)
  obtain ⟨scanned, stats, hscanned, hbuild⟩ := build_of_paths hpaths hnew now horderly
  obtain ⟨scanned', stats', hscanned', hbuild'⟩ := build_of_paths hpaths' hnew now horderly'
  obtain ⟨-, hstrategy, rfl⟩ := new_eq_ok_iff.mp hnew
  have hresults : scanned'.results = scanned.results :=
    hscanned'.results.trans ((filterMap_extractable files).trans hscanned.results.symm)
  have hcount : scanned.results.length = (extractable config disk now files).length := by
    rw [hscanned.results, length_extractable]
  have herrors' : scanned'.errors = [] := by
    rw [← List.perm_nil, ← errors_extractable files]
    exact hscanned'.errors
  rw [hbuild, hbuild']
  unfold assemble
  dsimp only
  rw [hresults, herrors', List.length_map, hcount, errors_chunksOf hstrategy, errors_chunksOf hstrategy, List.append_nil]
  exact ⟨rfl, rfl, rfl, hscanned.errors, rfl, rfl, rfl⟩

/-- Of three files one has no tree and one does not exist; they are scanned in batches, and the one that is left alone. -/
theorem failures_leave_no_trace_notes :
    let notes : SourceFile := ⟨"notes.txt", some "", false, none, none, none⟩
    let broken : SourceFile := ⟨"broken.py", some "", false, none, none, none⟩
    let missing : SourceFile := ⟨"missing.txt", none, false, none, none, none⟩
    let config : Config := { batch := { parallelThreshold := 2, batchSize := 1 } }
    extractable config .empty 0 [notes, broken, missing] = [notes] ∧
      ∃ b, Builder.new config = .ok b ∧ b.store.modeFor 3 = .parallel ∧ b.store.modeFor 1 = .sequential ∧
        RecordsFailures config .empty 0 [notes, broken, missing] (b.build .empty [notes, broken, missing]).1
          (b.build .empty [notes]).1 := by
  intro notes broken missing config
  have hnotes : (outcome config .empty 0 notes).isOk = true := by decide +kernel
  have hbroken : (outcome config .empty 0 broken).isOk = false := by decide +kernel
  have hmissing : (outcome config .empty 0 missing).isOk = false := by decide +kernel
  have hextractable : extractable config .empty 0 [notes, broken, missing] = [notes] := by
    simp only [extractable, List.filter_cons, List.filter_nil, hnotes, hbroken, hmissing, if_true, Bool.false_eq_true,
      if_false]
  obtain ⟨b, hnew⟩ : ∃ b, Builder.new config = .ok b := ⟨_, new_eq_ok_iff.mpr ⟨by decide +kernel, by decide, rfl⟩⟩
  obtain ⟨-, -, hb⟩ := new_eq_ok_iff.mp hnew
  have hpaths : ([notes, broken, missing].map (·.path)).Nodup := by decide
  have hbuilds := failures_leave_no_trace .empty 0 hnew hpaths (b.orderly_plain .empty _) (b.orderly_plain .empty _)
  rw [hextractable] at hbuilds
  exact ⟨hextractable, b, hnew, by rw [hb]; rfl, by rw [hb]; rfl, hbuilds⟩

end Builder

end CodeAtlas
