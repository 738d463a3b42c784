/-
  The JSON form of scans and builds.
-/
import CodeAtlas.Build
import CodeAtlas.Json.Analysis

namespace CodeAtlas

/-- The object of the progress of a scan. -/
def ScanProgress.toJson (p : ScanProgress) : Json :=
  .obj
    [ ("progress", .decimal p.percent), ("processed", .nat p.processed), ("total", .nat p.total),
      ("currentFile", .ofOption .str p.currentFile) ]

/-- The object of the figures of a scan. -/
def ScanStats.toJson (s : ScanStats) : Json :=
  .obj
    [ ("mode", .str s.mode.name), ("total", .nat s.total), ("scanned", .nat s.scanned), ("cached", .nat s.cached),
      ("failed", .nat s.failed), ("timedOutBatches", .nat s.timedOutBatches),
      ("failedBatches", .nat s.failedBatches), ("cache", s.cache.toJson) ]

/-- The object of the figures of a build. -/
def BuildStats.toJson (s : BuildStats) : Json :=
  .obj
    [ ("files", .nat s.files), ("extracted", .nat s.extracted), ("degraded", .nat s.degraded),
      ("failed", .nat s.failed), ("nodes", .nat s.nodes), ("edges", .nat s.edges), ("chunks", .nat s.chunks),
      ("scan", s.scan.toJson), ("symbolCache", s.symbolCache.toJson) ]

/-- The object of a build. -/
def Build.toJson (b : Build) : Json :=
  .obj
    [ ("nodes", .arr (b.graph.nodes.map Node.toJson)), ("edges", .arr (b.graph.edges.map Edge.toJson)),
      ("chunks", .arr (b.chunks.map Chunk.toJson)), ("analysis", b.analysis.toJson),
      ("errors", .arr (b.errors.map FileError.toJson)), ("stats", b.stats.toJson),
      ("progress", .arr (b.progress.map ScanProgress.toJson)) ]

end CodeAtlas
