/-
  Builds of a whole project: the files are extracted, analysed and joined into a graph, and cut into chunks.

  A builder keeps what it has extracted, so that a later build takes unchanged files from there.  Files that fail are
  recorded, and all else is still built.
-/
import CodeAtlas.Chunk.Strategy
import CodeAtlas.Graph.Build
import CodeAtlas.Scan.Basic

namespace CodeAtlas

/-- The figures of a build. -/
structure BuildStats where
  files : Nat
  extracted : Nat
  /-- Files without a known language. -/
  degraded : Nat
  failed : Nat
  nodes : Nat
  edges : Nat
  chunks : Nat
  scan : ScanStats
  symbolCache : CacheStats

/-- The result of a build. -/
structure Build where
  graph : Graph
  chunks : List Chunk
  analysis : Analysis
  errors : List FileError
  stats : BuildStats
  progress : List ScanProgress

/-- Builds projects, keeping the extractions of the files it has seen. -/
structure Builder where
  config : Config
  extractor : Extractor
  chunker : Chunker
  store : ScanStore Extraction

/-- What a build does not decide itself: what the clock shows at the first, second, … extraction, how many workers there
are, and in which order they and their coordinator take their steps. -/
structure Conditions where
  clock : Nat → Nat
  workers : Nat
  schedule : List Scan.Choice

namespace Conditions

/-- One worker goes on while the clock stands still, and what it announces arrives at once; the schedule is long enough
for so many files. -/
def plain (files : Nat) : Conditions :=
  ⟨fun _ => 0, 1, (List.replicate (5 * files) [Scan.Choice.work 0, Scan.Choice.deliver]).flatten⟩

end Conditions

namespace Builder

/-- A fresh builder for a usable configuration with a known strategy of cutting chunks. -/
def new (config : Config) : Except Failure Builder := do
  let config ← config.validate
  if (ChunkStrategy.ofName? config.chunking.strategy).isNone then .error (.unknownStrategy config.chunking.strategy)
  else .ok ⟨config, .ofConfig config, .new config.chunking, .new config.batch config.cache⟩

/-- The scan that extracts a file at the time that the clock shows. The number of times that the clock was read is kept
beside the extractor.  A file is extracted in one step of a worker, so that the symbols it looks for in the cache and those
it puts there belong to one time (`Extractor.cachedSymbols`). -/
def scanner (config : Config) (disk : Disk) (clock : Nat → Nat) : Scanner (Extractor × Nat) Extraction :=
  fun file shared =>
    match shared.1.extract disk (clock shared.2) file config.projectId config.commit with
    | (.ok e, x) => (.value e, (x, shared.2 + 1))
    | (.error f, x) => (.failure f, (x, shared.2 + 1))

/-- The extraction with its nodes stamped with a commit. -/
def stamp (commit : Option String) (e : Extraction) : Extraction :=
  { e with nodes := e.nodes.map fun n => { n with commit } }

/-- The chunks of files one after the other, up to the first failure. -/
def chunksOf (chunker : Chunker) : List Extraction → List Chunk × List FileError
  | [] => ([], [])
  | e :: rest =>
    match chunker.cutDefault e with
    | .ok chunks =>
      let (more, errors) := chunksOf chunker rest
      (chunks ++ more, errors)
    | .error f => ([], [.of f])

/-- The build of files that have been scanned, and the chunker that knows their tests. -/
def assemble (config : Config) (chunker : Chunker) (count : Nat) (outcome : ScanOutcome Extraction)
    (symbolCache : CacheStats) : Build × Chunker :=
  let extractions := outcome.results.map (stamp config.commit)
  let analysis := { Analysis.ofExtractions config.analysis extractions with errors := outcome.errors }
  let graph := Graph.build extractions analysis.dependencies config.analysis.transitiveHops
  let chunker := chunker.setTestedFiles analysis.testedFiles
  let (chunks, errors) := chunksOf chunker extractions
  let build : Build :=
    { graph, chunks, analysis
      errors := outcome.errors ++ errors
      progress := outcome.progress
      stats :=
        { files := count
          extracted := extractions.length
          degraded := (extractions.filter (·.degraded)).length
          failed := count - extractions.length
          nodes := graph.nodes.length
          edges := graph.edges.length
          chunks := chunks.length
          scan := outcome.stats
          symbolCache } }
  (build, chunker)

/-- The build of files under some conditions, and the builder after it. -/
def buildUnder (b : Builder) (disk : Disk) (c : Conditions) (files : List SourceFile) : Build × Builder :=
  let scan := scanner b.config disk c.clock
  let (outcome, store, shared) :=
    b.store.scanOn disk scan c.workers (fun pool => pool.run scan c.schedule) files (b.extractor, 0)
  let (build, chunker) := assemble b.config b.chunker files.length outcome shared.1.cache.stats
  (build, { b with store, chunker, extractor := shared.1 })

/-- The build of files, and the builder after it. -/
def build (b : Builder) (disk : Disk) (files : List SourceFile) : Build × Builder :=
  b.buildUnder disk (.plain files.length) files

end Builder

end CodeAtlas
