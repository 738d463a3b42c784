/-
  The settings of a build, section by section, with their defaults and the conditions that a build needs.
-/
import CodeAtlas.Failure
import CodeAtlas.Text.Blank

namespace CodeAtlas

/-- How strictly files are read. -/
structure ParseConfig where
  /-- Accept files with syntax errors. -/
  tolerateSyntaxErrors : Bool := false
  deriving DecidableEq, Inhabited

/-- The bounds of the caches. -/
structure CacheConfig where
  /-- The lifetime of cached symbols in seconds, 0 for no end. -/
  symbolTtlSecs : Nat := 3600
  symbolCapacity : Nat := 10000
  resultCapacity : Nat := 10000
  deriving DecidableEq, Inhabited

/-- How many files are processed at once. -/
structure BatchConfig where
  /-- The number of files from which on batches are processed side by side. -/
  parallelThreshold : Nat := 1000
  batchSize : Nat := 100
  maxWorkers : Option Nat := none
  /-- The time for one file; a batch has as many times that as it has files. -/
  timeoutPerFileMs : Nat := 5000
  memoryLimitMb : Nat := 512
  /-- Whether results are kept for unchanged files. -/
  enableCache : Bool := true
  deriving DecidableEq, Inhabited

/-- The bounds of the dependency analysis. -/
structure AnalysisConfig where
  maxFlowDepth : Nat := 8
  /-- Flows with fewer files are dropped. -/
  minFlowFiles : Nat := 3
  /-- How many imports an indirect dependency may take. -/
  transitiveHops : Nat := 2
  largeFileLines : Nat := 500
  couplingThreshold : Nat := 10
  deriving DecidableEq, Inhabited

/-- How chunks are cut. -/
structure ChunkingConfig where
  strategy : String := "one-symbol-per-chunk"
  maxImplementationLines : Nat := 20
  maxClassLines : Nat := 10
  maxUsageExamples : Nat := 3
  /-- Lines of context on each side of a reference. -/
  referenceContextLines : Nat := 2
  /-- The distance in lines up to which symbols are grouped. -/
  contextualLineDistance : Nat := 50
  /-- The similarity of names from which on symbols are grouped. -/
  nameSimilarityThreshold : Double := .ofRat (mkRat 7 10)
  minDocChars : Nat := 50
  minDocLines : Nat := 2
  deriving DecidableEq, Inhabited

/-- Which files of a directory are read. -/
structure FilterConfig where
  /-- Patterns of which one must match, unless there are none. -/
  includes : List String := []
  /-- Patterns of which none may match. -/
  excludes : List String := []
  respectIgnoreFiles : Bool := true
  deriving DecidableEq, Inhabited

/-- All settings. -/
structure Config where
  projectId : String := "default"
  commit : Option String := none
  parse : ParseConfig := {}
  cache : CacheConfig := {}
  batch : BatchConfig := {}
  analysis : AnalysisConfig := {}
  chunking : ChunkingConfig := {}
  filter : FilterConfig := {}
  deriving DecidableEq, Inhabited

namespace Config

/-- The conditions of a usable configuration with the complaint about each. -/
def conditions (c : Config) : List (Bool × String) :=
  [ (!(Text.trim c.projectId).isEmpty, "project_id must not be empty"),
    (c.batch.batchSize != 0, "optimizer.batch_size must be greater than 0"),
    (c.batch.maxWorkers != some 0, "optimizer.max_workers must be greater than 0"),
    (c.batch.timeoutPerFileMs != 0, "optimizer.timeout_per_file_ms must be greater than 0"),
    (c.cache.symbolCapacity != 0 && c.cache.resultCapacity != 0, "cache capacities must be greater than 0"),
    (c.chunking.nameSimilarityThreshold.isFraction,
      "chunking.name_similarity_threshold must be within 0.0..=1.0"),
    (c.chunking.maxImplementationLines != 0, "chunking.max_implementation_lines must be greater than 0"),
    (c.analysis.maxFlowDepth != 0, "analysis.max_flow_depth must be greater than 0") ]

/-- The complaint about the first condition that does not hold. -/
def complaint? (c : Config) : Option String :=
  (c.conditions.find? fun condition => !condition.1).map (·.2)

/-- The configuration, if it is usable. -/
def validate (c : Config) : Except Failure Config :=
  match c.complaint? with
  | some complaint => .error (.invalidConfig complaint)
  | none => .ok c

end Config

/-- The number of workers that a setting allows, at least one. -/
def BatchConfig.workers? (c : BatchConfig) : Option Nat :=
  c.maxWorkers.map fun n => max n 1

end CodeAtlas
