/-
  How the files of a project hang together: coupling, unused files, and a score of maintainability from 0 to 100.
-/
import CodeAtlas.Architecture
import CodeAtlas.Cycle

namespace CodeAtlas

/-- How many files depend on a file and on how many it depends. -/
structure Coupling where
  file : String
  fanIn : Nat
  fanOut : Nat
  deriving DecidableEq, Repr

namespace Coupling

/-- The pairs of files with an internal dependency, each once. -/
def pairs (dependencies : List Dependency) : List (String × String) :=
  firstOccurrences ((dependencies.filter fun d => !d.external).map fun d => (d.source, d.target))

/-- The row of each profiled file and of each end of an internal dependency, in increasing order. -/
def table (profiles : List FileProfile) (dependencies : List Dependency) : List Coupling :=
  let pairs := pairs dependencies
  let files := sortedDistinct (profiles.map (·.path) ++ pairs.flatMap fun p => [p.1, p.2])
  files.map fun file =>
    { file
      fanIn := (pairs.filter fun p => p.2 == file).length
      fanOut := (pairs.filter fun p => p.1 == file).length }

/-- The order of hotspots: by decreasing fan-in, then by path. -/
def hotter (a b : Coupling) : Bool :=
  b.fanIn < a.fanIn || (a.fanIn == b.fanIn && decide (a.file ≤ b.file))

end Coupling

/-- The quality of a project. -/
structure Quality where
  cycles : List (List String)
  /-- Files that nothing depends on and that are no entry points, tests or configuration. -/
  unusedFiles : List String
  highlyCoupled : List Coupling
  layerViolations : Nat
  /-- From 0, the worst, to 100. -/
  maintainability : Rat

namespace Quality

/-- A hundred less the penalties for cycles, violations, coupling, unused files and complexity. -/
def maintainabilityOf (profiles : List FileProfile) (cycles violations coupled unused : Nat) : Rat :=
  let measured := profiles.filter fun p => p.fileType != .test
  let average := if measured.isEmpty then 1 else quotient (total (measured.map (·.complexity))) measured.length
  let excess := nearest (nearest (average - 1) * 2)
  let capped := if excess ≤ 20 then excess else 20
  let penalty := nearest (((cycles * 5 + violations * 2 + coupled * 3 + unused : Nat) : Rat) + capped)
  let score := nearest (100 - penalty)
  if score < 0 then 0 else if 100 < score then 100 else score

/-- Whether a file counts as unused by the table. -/
def isUnused (table : List Coupling) (p : FileProfile) : Bool :=
  !p.isEntryPoint && p.fileType != .test && p.fileType != .config
    && table.any fun c => c.file == p.path && c.fanIn == 0

/-- The quality of a project with the given cycles and number of layer violations. -/
def of (profiles : List FileProfile) (dependencies : List Dependency) (cycles : List (List String))
    (violations : Nat) (config : AnalysisConfig) : Quality :=
  let table := Coupling.table profiles dependencies
  let unusedFiles := (profiles.filter (isUnused table)).map (·.path)
  let highlyCoupled := table.filter fun c => config.couplingThreshold < c.fanIn + c.fanOut
  { cycles, unusedFiles, highlyCoupled, layerViolations := violations
    maintainability :=
      maintainabilityOf profiles cycles.length violations highlyCoupled.length unusedFiles.length }

end Quality

/-- The size of a project. -/
structure Performance where
  fileCount : Nat
  totalLines : Nat
  internalDependencies : Nat
  externalDependencies : Nat
  unresolvedImports : Nat
  averageFanOut : Rat
  largeFiles : List String
  /-- The files that most others depend on. -/
  hotspots : List Coupling

namespace Performance

/-- How many hotspots are listed. -/
def hotspotLimit : Nat := 5

/-- The size of a project with the given number of unresolved imports. -/
def of (profiles : List FileProfile) (dependencies : List Dependency) (unresolved : Nat) (config : AnalysisConfig) :
    Performance :=
  let table := Coupling.table profiles dependencies
  let internal := (dependencies.filter fun d => !d.external).length
  { fileCount := profiles.length
    totalLines := total (profiles.map (·.lines))
    internalDependencies := internal
    externalDependencies := dependencies.length - internal
    unresolvedImports := unresolved
    averageFanOut := if profiles.isEmpty then 0 else quotient (total (table.map (·.fanOut))) profiles.length
    largeFiles := (profiles.filter fun p => config.largeFileLines < p.lines).map (·.path)
    hotspots := ((table.filter fun c => 0 < c.fanIn).mergeSort Coupling.hotter).take hotspotLimit }

end Performance

end CodeAtlas
