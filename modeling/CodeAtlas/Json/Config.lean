/-
  The JSON form of the configuration.  A setting that is missing takes its default; unknown settings are passed over.
  A section may also be an array with the values of its first settings in order.
-/
import CodeAtlas.Config
import CodeAtlas.Json.Basic

namespace CodeAtlas

/-- The settings of an object about reading. -/
def ParseConfig.ofJson? (j : Json) : Option ParseConfig := do
  let j ← j.record? ["tolerate_syntax_errors"] 0
  let d : ParseConfig := {}
  some { tolerateSyntaxErrors := ← j.getD? "tolerate_syntax_errors" Json.truth? d.tolerateSyntaxErrors }

/-- The settings of an object about caches. -/
def CacheConfig.ofJson? (j : Json) : Option CacheConfig := do
  let j ← j.record? ["symbol_ttl_secs", "symbol_capacity", "result_capacity"] 0
  let d : CacheConfig := {}
  some
    { symbolTtlSecs := ← j.getD? "symbol_ttl_secs" Json.nat? d.symbolTtlSecs
      symbolCapacity := ← j.getD? "symbol_capacity" Json.nat? d.symbolCapacity
      resultCapacity := ← j.getD? "result_capacity" Json.nat? d.resultCapacity }

/-- The settings of an object about batches. -/
def BatchConfig.ofJson? (j : Json) : Option BatchConfig := do
  let j ← j.record?
    ["parallel_threshold", "batch_size", "max_workers", "timeout_per_file_ms", "memory_limit_mb", "enable_cache"] 0
  let d : BatchConfig := {}
  some
    { parallelThreshold := ← j.getD? "parallel_threshold" Json.nat? d.parallelThreshold
      batchSize := ← j.getD? "batch_size" Json.nat? d.batchSize
      maxWorkers := ← j.getOpt? "max_workers" Json.nat?
      timeoutPerFileMs := ← j.getD? "timeout_per_file_ms" Json.nat? d.timeoutPerFileMs
      memoryLimitMb := ← j.getD? "memory_limit_mb" Json.nat? d.memoryLimitMb
      enableCache := ← j.getD? "enable_cache" Json.truth? d.enableCache }

/-- The settings of an object about the analysis. -/
def AnalysisConfig.ofJson? (j : Json) : Option AnalysisConfig := do
  let j ← j.record?
    ["max_flow_depth", "min_flow_files", "transitive_hops", "large_file_lines", "coupling_threshold"] 0
  let d : AnalysisConfig := {}
  some
    { maxFlowDepth := ← j.getD? "max_flow_depth" Json.nat? d.maxFlowDepth
      minFlowFiles := ← j.getD? "min_flow_files" Json.nat? d.minFlowFiles
      transitiveHops := ← j.getD? "transitive_hops" Json.nat? d.transitiveHops
      largeFileLines := ← j.getD? "large_file_lines" Json.nat? d.largeFileLines
      couplingThreshold := ← j.getD? "coupling_threshold" Json.nat? d.couplingThreshold }

/-- The settings of an object about chunks. -/
def ChunkingConfig.ofJson? (j : Json) : Option ChunkingConfig := do
  let j ← j.record?
    ["strategy", "max_implementation_lines", "max_class_lines", "max_usage_examples", "reference_context_lines",
      "contextual_line_distance", "name_similarity_threshold", "min_doc_chars", "min_doc_lines"] 0
  let d : ChunkingConfig := {}
  some
    { strategy := ← j.getD? "strategy" Json.text? d.strategy
      maxImplementationLines := ← j.getD? "max_implementation_lines" Json.nat? d.maxImplementationLines
      maxClassLines := ← j.getD? "max_class_lines" Json.nat? d.maxClassLines
      maxUsageExamples := ← j.getD? "max_usage_examples" Json.nat? d.maxUsageExamples
      referenceContextLines := ← j.getD? "reference_context_lines" Json.nat? d.referenceContextLines
      contextualLineDistance := ← j.getD? "contextual_line_distance" Json.nat? d.contextualLineDistance
      nameSimilarityThreshold := ← j.getD? "name_similarity_threshold" Json.double? d.nameSimilarityThreshold
      minDocChars := ← j.getD? "min_doc_chars" Json.nat? d.minDocChars
      minDocLines := ← j.getD? "min_doc_lines" Json.nat? d.minDocLines }

/-- The settings of an object about the files that are read. -/
def FilterConfig.ofJson? (j : Json) : Option FilterConfig := do
  let j ← j.record? ["include", "exclude", "respect_gitignore"] 0
  let d : FilterConfig := {}
  some
    { includes := ← j.getD? "include" (Json.list? Json.text?) d.includes
      excludes := ← j.getD? "exclude" (Json.list? Json.text?) d.excludes
      respectIgnoreFiles := ← j.getD? "respect_gitignore" Json.truth? d.respectIgnoreFiles }

/-- The settings of an object. -/
def Config.ofJson? (j : Json) : Option Config := do
  let j ← j.record? ["project_id", "commit_ref", "parse", "cache", "optimizer", "analysis", "chunking", "scan"] 0
  let d : Config := {}
  some
    { projectId := ← j.getD? "project_id" Json.text? d.projectId
      commit := ← j.getOpt? "commit_ref" Json.text?
      parse := ← j.getD? "parse" ParseConfig.ofJson? d.parse
      cache := ← j.getD? "cache" CacheConfig.ofJson? d.cache
      batch := ← j.getD? "optimizer" BatchConfig.ofJson? d.batch
      analysis := ← j.getD? "analysis" AnalysisConfig.ofJson? d.analysis
      chunking := ← j.getD? "chunking" ChunkingConfig.ofJson? d.chunking
      filter := ← j.getD? "scan" FilterConfig.ofJson? d.filter }

/-- The object of all settings. -/
def Config.toJson (c : Config) : Json :=
  .obj
    [ ("project_id", .str c.projectId),
      ("commit_ref", .ofOption .str c.commit),
      ("parse", .obj [("tolerate_syntax_errors", .bool c.parse.tolerateSyntaxErrors)]),
      ("cache", .obj
        [ ("symbol_ttl_secs", .nat c.cache.symbolTtlSecs), ("symbol_capacity", .nat c.cache.symbolCapacity),
          ("result_capacity", .nat c.cache.resultCapacity) ]),
      ("optimizer", .obj
        [ ("parallel_threshold", .nat c.batch.parallelThreshold), ("batch_size", .nat c.batch.batchSize),
          ("max_workers", .ofOption .nat c.batch.maxWorkers),
          ("timeout_per_file_ms", .nat c.batch.timeoutPerFileMs), ("memory_limit_mb", .nat c.batch.memoryLimitMb),
          ("enable_cache", .bool c.batch.enableCache) ]),
      ("analysis", .obj
        [ ("max_flow_depth", .nat c.analysis.maxFlowDepth), ("min_flow_files", .nat c.analysis.minFlowFiles),
          ("transitive_hops", .nat c.analysis.transitiveHops), ("large_file_lines", .nat c.analysis.largeFileLines),
          ("coupling_threshold", .nat c.analysis.couplingThreshold) ]),
      ("chunking", .obj
        [ ("strategy", .str c.chunking.strategy),
          ("max_implementation_lines", .nat c.chunking.maxImplementationLines),
          ("max_class_lines", .nat c.chunking.maxClassLines),
          ("max_usage_examples", .nat c.chunking.maxUsageExamples),
          ("reference_context_lines", .nat c.chunking.referenceContextLines),
          ("contextual_line_distance", .nat c.chunking.contextualLineDistance),
          ("name_similarity_threshold", .str (c.chunking.nameSimilarityThreshold.fixed 6)),
          ("min_doc_chars", .nat c.chunking.minDocChars), ("min_doc_lines", .nat c.chunking.minDocLines) ]),
      ("scan", .obj
        [ ("include", .texts c.filter.includes), ("exclude", .texts c.filter.excludes),
          ("respect_gitignore", .bool c.filter.respectIgnoreFiles) ]) ]

end CodeAtlas
