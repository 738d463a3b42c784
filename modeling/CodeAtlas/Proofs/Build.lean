/-
  What a builder keeps from earlier builds does not show.

  A builder is `Intact` when its caches hold what the extraction of the files at hand gives, and its chunker differs from a
  fresh one in its tested files only.  A build by an intact builder is that of a fresh one (`Intact.build`), and leaves it
  intact, whatever was evicted, whatever ran out, and in whichever order the workers went on.  So all builds of a sequence
  are those of fresh builders (`builds_agree_with_fresh`).
-/
import CodeAtlas.Build
import CodeAtlas.Proofs.Extraction
import CodeAtlas.Proofs.Scan.Outcome
import CodeAtlas.Proofs.Scan.Progress

namespace CodeAtlas

open Scan (Steady errorOf?)

/-! ## Files that keys tell apart -/

/-- The files of a sequence of builds: their contents are at hand with the trees of a grammar, no two contents have one
digest, and files with the same path and content have the same entry mark and the same hint. -/
structure Settled (grammar : Grammar) (known : Set SourceFile) : Prop where
  parsed : ∀ f ∈ known, ∃ content, f.ParsedBy grammar content
  digests : ∀ f ∈ known, ∀ g ∈ known, ∀ cf cg, f.content = some cf → g.content = some cg → shortHash cf = shortHash cg →
    cf = cg
  marks : ∀ f ∈ known, ∀ g ∈ known, f.path = g.path → f.content = g.content →
    f.entryPoint = g.entryPoint ∧ f.hint = g.hint

namespace Settled

variable {grammar : Grammar} {known : Set SourceFile}

theorem exists_content (h : Settled grammar known) {f : SourceFile} (hf : f ∈ known) :
    ∃ content, f.content = some content := by
  obtain ⟨content, hparsed⟩ := h.parsed f hf
  exact ⟨content, hparsed.1⟩

/-- Two files with the same path and the same content are extracted alike. -/
theorem alike (h : Settled grammar known) {f g : SourceFile} (hf : f ∈ known) (hg : g ∈ known) (hpath : f.path = g.path)
    (hcontent : f.content = g.content) :
    f.language? = g.language? ∧ (∀ l, f.language? = some l → f.tree = g.tree) ∧ f.entryPoint = g.entryPoint := by
  obtain ⟨hentry, hhint⟩ := h.marks f hf g hg hpath hcontent
  have hlang : f.language? = g.language? := by
    unfold SourceFile.language?
    rw [hpath, hhint]
  obtain ⟨cf, hcf⟩ := h.parsed f hf
  obtain ⟨cg, hcg⟩ := h.parsed g hg
  have hsame : cf = cg := by
    have hsome := hcontent
    rw [hcf.1, hcg.1] at hsome
    exact Option.some.inj hsome
  subst hsame
  exact ⟨hlang, fun l hl => hcf.tree_eq hcg hlang hl, hentry⟩

theorem oneTree (h : Settled grammar known) : Extractor.OneTree known := by
  intro f hf g hg content content' hcf hcg hkey
  obtain ⟨hpath, hhash⟩ := cacheKey_inj hkey
  have hcontent := h.digests f hf g hg content content' hcf hcg (shortHash_eq_of_contentHash_eq hhash)
  obtain ⟨hlang, htree, _⟩ := h.alike hf hg hpath (by rw [hcf, hcg, hcontent])
  exact ⟨hcontent, hlang, htree⟩

end Settled

namespace Builder

/-- The extraction of a file with its content at hand, without a cache. -/
def ideal (config : Config) (file : SourceFile) : Except Failure Extraction :=
  Extraction.ofLoaded ⟨.builtin, config.parse.tolerateSyntaxErrors⟩ config.chunking.referenceContextLines file
    (file.content.getD "") config.projectId config.commit

variable {grammar : Grammar} {known : Set SourceFile} {config : Config} {disk : Disk}

theorem oneOutcome (h : Settled grammar known) : ScanStore.OneOutcome disk (ideal config) known := by
  intro f hf g hg hkey
  obtain ⟨cf, hcf⟩ := h.exists_content hf
  obtain ⟨cg, hcg⟩ := h.exists_content hg
  obtain ⟨hpath, hversion⟩ := Prod.ext_iff.mp hkey
  -- the key holds a digest of the content; path and content then settle the entry mark, the language and the tree
  have hcontent := h.digests f hf g hg cf cg hcf hcg (shortHash_eq_of_versionKey_eq hcf hcg hversion)
  subst hcontent
  obtain ⟨hlang, htree, hentry⟩ := h.alike hf hg hpath (hcf.trans hcg.symm)
  unfold ideal
  rw [hcf, hcg]
  exact Extraction.ofLoaded_congr hpath hlang htree hentry

/-- An extractor with the settings of a configuration, whose cache holds the symbols of the known files. -/
structure GoodExtractor (config : Config) (known : Set SourceFile) (x : Extractor) : Prop where
  engine : x.engine = ⟨.builtin, config.parse.tolerateSyntaxErrors⟩
  contextLines : x.contextLines = config.chunking.referenceContextLines
  symbols : x.cache.Holds (Extractor.SymbolsOf ⟨.builtin, config.parse.tolerateSyntaxErrors⟩ known)

theorem scanner_steady (h : Settled grammar known) (clock : Nat → Nat) :
    Steady (scanner config disk clock) (ideal config) known fun s => GoodExtractor config known s.1 := by
  rintro file hfile ⟨x, count⟩ hx
  obtain ⟨content, hcontent⟩ := h.exists_content hfile
  have hsymbols : x.cache.Holds (Extractor.SymbolsOf x.engine known) := hx.engine ▸ hx.symbols
  obtain ⟨cache, hextract, hcache⟩ :=
    Extractor.extract_eq h.oneTree hsymbols hfile hcontent disk (clock count) config.projectId config.commit
  have hideal : Extraction.ofLoaded x.engine x.contextLines file content config.projectId config.commit =
      ideal config file := by
    unfold ideal
    rw [hx.engine, hx.contextLines, hcontent]
    rfl
  unfold scanner
  dsimp only at hextract ⊢
  rw [hextract, hideal]
  have hgood : GoodExtractor config known { x with cache } := ⟨hx.engine, hx.contextLines, hx.engine ▸ hcache⟩
  cases ideal config file with
  | ok e => exact ⟨rfl, hgood⟩
  | error f => exact ⟨rfl, hgood⟩

end Builder

/-! ## One build -/

/-- Two builds agree in graph, chunks and analysis, and in their errors: in the order of these as well, unless files were
scanned in batches. -/
structure Build.Agrees (mode : ScanMode) (r r' : Build) : Prop where
  graph : r.graph = r'.graph
  chunks : r.chunks = r'.chunks
  analysis : { r.analysis with errors := [] } = { r'.analysis with errors := [] }
  analysisErrors : r.analysis.errors.Perm r'.analysis.errors
  errors : r.errors.Perm r'.errors
  ordered : mode = .sequential → r.analysis = r'.analysis ∧ r.errors = r'.errors

namespace Builder

variable {grammar : Grammar} {known : Set SourceFile} {config : Config} {disk : Disk} {files : List SourceFile}
  {b : Builder}

/-- A build is decided by what was scanned and by the settings of the chunker. -/
theorem assemble_agrees {mode : ScanMode} {o o' : ScanOutcome Extraction}
    (ho : ScanStore.Faithful (ideal config) mode files o) (ho' : ScanStore.Faithful (ideal config) mode files o')
    {chunker chunker' : Chunker} (hchunker : chunker.config = chunker'.config) (count : Nat) (stats stats' : CacheStats) :
    (assemble config chunker count o stats).1.Agrees mode (assemble config chunker' count o' stats').1 := by
  have hresults : o.results = o'.results := ho.results.trans ho'.results.symm
  have htested (tested : List String) : chunker.setTestedFiles tested = chunker'.setTestedFiles tested := by
    unfold Chunker.setTestedFiles
    rw [hchunker]
  have herrors : o.errors.Perm o'.errors := ho.errors.trans ho'.errors.symm
  unfold assemble
  dsimp only
  rw [hresults]
  refine ⟨rfl, ?_, rfl, herrors, ?_, fun hmode => ?_⟩
  · dsimp only [Analysis.testedFiles]
    rw [htested]
  · dsimp only [Analysis.testedFiles]
    rw [htested]
    exact herrors.append_right _
  · have hordered : o.errors = o'.errors := (ho.ordered hmode).trans (ho'.ordered hmode).symm
    dsimp only [Analysis.testedFiles]
    rw [htested, hordered]
    exact ⟨rfl, rfl⟩

/-- A builder whose caches hold what the extraction of the known files gives. -/
structure Intact (config : Config) (disk : Disk) (known : Set SourceFile) (b : Builder) : Prop where
  settings : b.config = config
  batch : b.store.config = config.batch
  chunking : b.chunker.config = config.chunking
  results : b.store.cache.Holds (ScanStore.ResultOf disk (ideal config) known)
  extractor : GoodExtractor config known b.extractor

/-- A builder is made from every usable configuration with a known strategy. -/
theorem new_eq_ok_iff : Builder.new config = .ok b ↔
    config.complaint? = none ∧ (ChunkStrategy.ofName? config.chunking.strategy).isNone = false ∧
      b = ⟨config, .ofConfig config, .new config.chunking, .new config.batch config.cache⟩ := by
  unfold Builder.new Config.validate
  cases config.complaint? with
  | some complaint =>
    constructor
    · intro h
      cases h
    · rintro ⟨h, -⟩
      cases h
  | none =>
    show (if (ChunkStrategy.ofName? config.chunking.strategy).isNone then Except.error _ else Except.ok _) = .ok b ↔ _
    split
    · rename_i hnone
      constructor
      · intro h
        cases h
      · rintro ⟨-, hsome, -⟩
        rw [hnone] at hsome
        cases hsome
    · rename_i hsome
      constructor
      · intro h
        cases h
        exact ⟨rfl, Bool.not_eq_true _ ▸ hsome, rfl⟩
      · rintro ⟨-, -, rfl⟩
        rfl

theorem intact_of_new (h : Builder.new config = .ok b) : Intact config disk known b := by
  obtain ⟨-, -, rfl⟩ := new_eq_ok_iff.mp h
  exact ⟨rfl, rfl, rfl, Cache.holds_new _ _, ⟨rfl, rfl, Cache.holds_new _ _⟩⟩

/-- The workers take every batch to its end, and no batch is given up. -/
def Orderly (b : Builder) (disk : Disk) (c : Conditions) (files : List SourceFile) : Prop :=
  b.store.Orderly disk (scanner b.config disk c.clock) c.workers c.schedule files (b.extractor, 0)

/-- A build by an intact builder is assembled from a faithful scan, and leaves the builder intact. -/
theorem Intact.build (h : Intact config disk known b) (hsettled : Settled grammar known)
    (hfiles : ∀ file ∈ files, file ∈ known) {c : Conditions} (horderly : b.Orderly disk c files) :
    Intact config disk known (b.buildUnder disk c files).2 ∧
      ∃ outcome stats, ScanStore.Faithful (ideal config) (b.store.modeFor files.length) files outcome ∧
        (b.buildUnder disk c files).1 = (assemble config b.chunker files.length outcome stats).1 := by
  obtain rfl := h.settings
  generalize hscanned : b.store.scanOn disk (scanner b.config disk c.clock) c.workers
    (fun pool => pool.run (scanner b.config disk c.clock) c.schedule) files (b.extractor, 0) = scanned
  obtain ⟨hfaithful, hbatch, hresults, hextractor⟩ := ScanStore.scanOn_faithful (scanner_steady hsettled c.clock)
    (oneOutcome hsettled) hfiles h.results c.workers c.schedule h.extractor horderly hscanned
  have hparts : b.buildUnder disk c files =
      ((assemble b.config b.chunker files.length scanned.1 scanned.2.2.1.cache.stats).1,
        { b with
          store := scanned.2.1
          chunker := (assemble b.config b.chunker files.length scanned.1 scanned.2.2.1.cache.stats).2
          extractor := scanned.2.2.1 }) := by
    rw [← hscanned]
    rfl
  rw [hparts]
  exact ⟨⟨rfl, hbatch.trans h.batch, h.chunking, hresults, hextractor⟩, scanned.1, _, hfaithful, rfl⟩

theorem Intact.modeFor_eq {b' : Builder} (h : Intact config disk known b) (h' : Intact config disk known b') (n : Nat) :
    b.store.modeFor n = b'.store.modeFor n := by
  unfold ScanStore.modeFor
  rw [h.batch, h'.batch]

/-- Two intact builders build the same from the same files, under all conditions. -/
theorem Intact.agrees {b' : Builder} (h : Intact config disk known b) (h' : Intact config disk known b')
    (hsettled : Settled grammar known) (hfiles : ∀ file ∈ files, file ∈ known) {c c' : Conditions}
    (horderly : b.Orderly disk c files) (horderly' : b'.Orderly disk c' files) :
    (b.buildUnder disk c files).1.Agrees (b'.store.modeFor files.length) (b'.buildUnder disk c' files).1 := by
  obtain ⟨_, outcome, stats, hfaithful, hbuild⟩ := h.build hsettled hfiles horderly
  obtain ⟨_, outcome', stats', hfaithful', hbuild'⟩ := h'.build hsettled hfiles horderly'
  rw [h.modeFor_eq h'] at hfaithful
  rw [hbuild, hbuild']
  exact assemble_agrees hfaithful hfaithful' (h.chunking.trans h'.chunking.symm) _ _ _

/-- A single worker whose announcements arrive at once is orderly. -/
theorem orderly_plain (b : Builder) (disk : Disk) (files : List SourceFile) :
    b.Orderly disk (.plain files.length) files := by
  intro _
  have hpending : (Scan.missing (b.store.openSlots disk files).1).length ≤ files.length := by
    rw [← b.store.length_openSlots disk files]
    exact Scan.length_missing_le _
  exact Scan.Pool.run_rounds _ files.toArray (Nat.mul_le_mul_left 5 hpending) _ _ rfl

/-! ## Sequences of builds -/

/-- The builds of lists of files by one builder, one after the other. -/
def builds (b : Builder) (disk : Disk) : List (Conditions × List SourceFile) → List Build
  | [] => []
  | (c, files) :: rest => (b.buildUnder disk c files).1 :: (b.buildUnder disk c files).2.builds disk rest

/-- Every build of a sequence is orderly. -/
def OrderlyAll (b : Builder) (disk : Disk) : List (Conditions × List SourceFile) → Prop
  | [] => True
  | (c, files) :: rest => b.Orderly disk c files ∧ (b.buildUnder disk c files).2.OrderlyAll disk rest

theorem orderlyAll_plain (b : Builder) (disk : Disk) (lists : List (List SourceFile)) :
    b.OrderlyAll disk (lists.map fun files => (.plain files.length, files)) := by
  induction lists generalizing b with
  | nil => trivial
  | cons files lists ih => exact ⟨b.orderly_plain disk files, ih _⟩

/-- Every build of a sequence by an intact builder is that of any other intact builder. -/
theorem Intact.builds {b' : Builder} (h : Intact config disk known b) (h' : Intact config disk known b')
    (hsettled : Settled grammar known) {runs : List (Conditions × List SourceFile)}
    (hfiles : ∀ run ∈ runs, ∀ file ∈ run.2, file ∈ known) (horderly : b.OrderlyAll disk runs) :
    List.Forall₂ (fun run r => ∀ c, b'.Orderly disk c run.2 →
      r.Agrees (b'.store.modeFor run.2.length) (b'.buildUnder disk c run.2).1) runs (b.builds disk runs) := by
  induction runs generalizing b with
  | nil => exact .nil
  | cons run runs ih =>
    obtain ⟨c, files⟩ := run
    obtain ⟨hfirst, hrest⟩ := horderly
    have hhere : ∀ file ∈ files, file ∈ known := hfiles (c, files) List.mem_cons_self
    refine .cons (fun c' hc' => h.agrees h' hsettled hhere hfirst hc') (ih ?_ ?_ hrest)
    · exact (h.build hsettled hhere hfirst).1
    · exact fun run hrun => hfiles run (List.mem_cons_of_mem _ hrun)

/-- Each build of a sequence by one builder agrees with the build of the same files by a fresh builder with the same
configuration, whatever the builder still has in its caches: with the plain build, and with the build under any
conditions under which every batch is taken to its end. -/
theorem builds_agree_with_fresh (grammar : Grammar) (disk : Disk) {config : Config} {b : Builder}
    (hnew : Builder.new config = .ok b) {runs : List (Conditions × List SourceFile)}
    (hsettled : Settled grammar { file | ∃ run ∈ runs, file ∈ run.2 }) (horderly : b.OrderlyAll disk runs) :
    List.Forall₂ (fun run r =>
      r.Agrees (b.store.modeFor run.2.length) (b.build disk run.2).1 ∧
        ∀ c, b.Orderly disk c run.2 → r.Agrees (b.store.modeFor run.2.length) (b.buildUnder disk c run.2).1)
      runs (b.builds disk runs) := by
  have hintact : Intact config disk { file | ∃ run ∈ runs, file ∈ run.2 } b := intact_of_new hnew
  have hall := hintact.builds hintact hsettled (fun run hrun file hfile => ⟨run, hrun, hfile⟩) horderly
  exact hall.imp fun run r hr => ⟨hr _ (b.orderly_plain disk run.2), hr⟩

/-- A text is built alone, and then twice with a file that cannot be parsed; the later builds go on in batches. -/
theorem builds_agree_with_fresh_notes :
    let notes : SourceFile := ⟨"notes.txt", some "", false, none, none, none⟩
    let broken : SourceFile := ⟨"broken.py", some "", false, none, none, none⟩
    let runs := [[notes], [notes, broken], [notes, broken]].map fun files => (Conditions.plain files.length, files)
    ∃ b, Builder.new { batch := { parallelThreshold := 2, batchSize := 1 } } = .ok b ∧
      b.store.modeFor 1 = .sequential ∧ b.store.modeFor 2 = .parallel ∧
      List.Forall₂ (fun run r => r.Agrees (b.store.modeFor run.2.length) (b.build .empty run.2).1)
        runs (b.builds .empty runs) := by
  intro notes broken runs
  obtain ⟨b, hnew⟩ : ∃ b, Builder.new { batch := { parallelThreshold := 2, batchSize := 1 } } = .ok b :=
    ⟨_, new_eq_ok_iff.mpr ⟨by decide +kernel, by decide, rfl⟩⟩
  obtain ⟨-, -, hb⟩ := new_eq_ok_iff.mp hnew
  have hknown : ∀ file ∈ { file | ∃ run ∈ runs, file ∈ run.2 }, file = notes ∨ file = broken := by
    rintro file ⟨run, hrun, hfile⟩
    obtain ⟨files, hfiles, rfl⟩ := List.mem_map.mp hrun
    rcases List.mem_cons.mp hfiles with rfl | hfiles
    · exact Or.inl (List.mem_singleton.mp hfile)
    · have hpair : files = [notes, broken] := by simpa using hfiles
      rw [hpair] at hfile
      simpa using hfile
  have hsettled : Settled (fun _ _ => none) { file | ∃ run ∈ runs, file ∈ run.2 } := by
    refine ⟨fun f hf => ⟨"", ?_⟩, fun f hf g hg cf cg hcf hcg _ => ?_, fun f hf g hg hpath _ => ?_⟩
    · rcases hknown f hf with rfl | rfl <;> exact ⟨rfl, fun _ _ => rfl⟩
    · rcases hknown f hf with rfl | rfl <;> rcases hknown g hg with rfl | rfl <;> cases hcf <;> cases hcg <;> rfl
    · rcases hknown f hf with rfl | rfl <;> rcases hknown g hg with rfl | rfl <;> exact ⟨rfl, rfl⟩
  have hagree := builds_agree_with_fresh (fun _ _ => none) .empty hnew hsettled (orderlyAll_plain b .empty _)
  exact ⟨b, hnew, by rw [hb]; rfl, by rw [hb]; rfl, hagree.imp fun run r hr => hr.1⟩

end Builder

end CodeAtlas
