import CodeAtlas.Analysis
import CodeAtlas.Architecture
import CodeAtlas.Build
import CodeAtlas.Cache
import CodeAtlas.Chunk.Basic
import CodeAtlas.Chunk.Forest
import CodeAtlas.Chunk.Similarity
import CodeAtlas.Chunk.Strategy
import CodeAtlas.Comment
import CodeAtlas.Config
import CodeAtlas.Config.Document
import CodeAtlas.Cycle
import CodeAtlas.Dependency.Basic
import CodeAtlas.Dependency.Usage
import CodeAtlas.Digest.Sha256
import CodeAtlas.Digest.StableId
import CodeAtlas.Extract.CFamily
import CodeAtlas.Extract.EcmaScript
import CodeAtlas.Extract.Java
import CodeAtlas.Extract.Python
import CodeAtlas.Extract.Rust
import CodeAtlas.Extract.Support
import CodeAtlas.Extraction
import CodeAtlas.Failure
import CodeAtlas.FileFilter.Basic
import CodeAtlas.FileFilter.Ignore
import CodeAtlas.Flow
import CodeAtlas.Glob.Basic
import CodeAtlas.Glob.Parser
import CodeAtlas.Graph.Basic
import CodeAtlas.Graph.Build
import CodeAtlas.Graph.Relationship
import CodeAtlas.Json.Analysis
import CodeAtlas.Json.Basic
import CodeAtlas.Json.Build
import CodeAtlas.Json.Config
import CodeAtlas.Json.Graph
import CodeAtlas.Json.Parser
import CodeAtlas.Json.Printer
import CodeAtlas.Json.SourceFile
import CodeAtlas.Json.Symbol
import CodeAtlas.Language
import CodeAtlas.Number.Double
import CodeAtlas.Number.Round
import CodeAtlas.Path
import CodeAtlas.Profile.Basic
import CodeAtlas.Profile.Behavior
import CodeAtlas.Profile.FileType
import CodeAtlas.Profile.Layer
import CodeAtlas.Quality
import CodeAtlas.Reference
import CodeAtlas.Resolve.Basic
import CodeAtlas.Resolve.Index
import CodeAtlas.Resolve.Paths
import CodeAtlas.Scan.Basic
import CodeAtlas.Scan.Pool
import CodeAtlas.SourceFile
import CodeAtlas.Symbol.Basic
import CodeAtlas.Symbol.Scope
import CodeAtlas.Syntax.Tree
import CodeAtlas.Syntax.Walk
import CodeAtlas.Syntax.Cursor
import CodeAtlas.Text.Alphabet
import CodeAtlas.Text.Blank
import CodeAtlas.Text.Bytes
import CodeAtlas.Text.Hex
import CodeAtlas.Text.Lines
import CodeAtlas.Text.Split
import CodeAtlas.Toml.Parser
import CodeAtlas.Toml.Scalar
import CodeAtlas.Toml.Table
import CodeAtlas.Proofs.Increasing
import CodeAtlas.Proofs.Cache.Order
import CodeAtlas.Proofs.Cycle
import CodeAtlas.Proofs.Cache.Fifo
import CodeAtlas.Proofs.Extraction
import CodeAtlas.Proofs.Scan.Batch
import CodeAtlas.Proofs.Scan.Pool
import CodeAtlas.Proofs.Scan.Outcome
import CodeAtlas.Proofs.Scan.Progress
import CodeAtlas.Proofs.Build
import CodeAtlas.Proofs.Scan.Report
import CodeAtlas.Proofs.Scan.Account
import CodeAtlas.Proofs.Cache.Refill
import CodeAtlas.Proofs.Scan.Agreement
import CodeAtlas.Proofs.Dependency
import CodeAtlas.Proofs.Extraction.Shape
import CodeAtlas.Proofs.Graph.Complete
import CodeAtlas.Proofs.Analysis.Order
import CodeAtlas.Proofs.Graph.Order
import CodeAtlas.Proofs.Build.Failing
import CodeAtlas.Proofs.Symbol.Place
import CodeAtlas.Proofs.Extraction.Placed
import CodeAtlas.Proofs.Chunk.Symbols
import CodeAtlas.Proofs.Chain
import CodeAtlas.Proofs.Graph.Distance
import CodeAtlas.Proofs.Flow.Search
import CodeAtlas.Proofs.Flow.Trace
import CodeAtlas.Proofs.Symbol.WellFormed
import CodeAtlas.Proofs.Chunk.Forest
import CodeAtlas.Proofs.Chunk.Group
import CodeAtlas.Proofs.Chunk.Similarity
import CodeAtlas.Proofs.Chunk.Contextual
import CodeAtlas.Proofs.Chunk.Related
import CodeAtlas.Proofs.Syntax.Preorder
import CodeAtlas.Proofs.Reference.Target
import CodeAtlas.Proofs.Reference.Scan
import CodeAtlas.Proofs.Digest.StableId
import CodeAtlas.Proofs.Extraction.Edges
import CodeAtlas.Proofs.Path
import CodeAtlas.Proofs.Resolve.Relative
import CodeAtlas.Proofs.Resolve.Directory
import CodeAtlas.Proofs.Resolve.Rerooted
import CodeAtlas.Proofs.Resolve.Module
import CodeAtlas.Proofs.Syntax.Visits
import CodeAtlas.Proofs.Text.Blank
import CodeAtlas.Proofs.Resolve.Group
import CodeAtlas.Proofs.Resolve.Inline
import CodeAtlas.Proofs.Resolve.SourceRoot
import CodeAtlas.Proofs.Resolve.Crate
import CodeAtlas.Proofs.Resolve.Dotted
import CodeAtlas.Proofs.Digest.Family
import CodeAtlas.Proofs.Graph.Dedup
import CodeAtlas.Proofs.Graph.Cover
import CodeAtlas.Proofs.Chunk.Identity
import CodeAtlas.Proofs.Chunk.Edit
import CodeAtlas.Proofs.Comment
import CodeAtlas.Proofs.Chunk.Docs
import CodeAtlas.Proofs.Chunk.Documentation
import CodeAtlas.Proofs.Chunk.Docstring
import CodeAtlas.Proofs.Text.Runs
import CodeAtlas.Proofs.Dependency.Usage
import CodeAtlas.Proofs.Dependency.Identifier
import CodeAtlas.Proofs.Dependency.Strength
import CodeAtlas.Proofs.Coupling
import CodeAtlas.Proofs.Text.Case
import CodeAtlas.Proofs.Profile.TestName
import CodeAtlas.Proofs.Flow.Entry
import CodeAtlas.Proofs.Symbol.Export
import CodeAtlas.Proofs.Use.Tree
import CodeAtlas.Proofs.Use.Line
import CodeAtlas.Proofs.Use.Entry
import CodeAtlas.Proofs.Use.Read
import CodeAtlas.Proofs.Cache.Balance
import CodeAtlas.Proofs.Cache.Queue
import CodeAtlas.Proofs.Scan.Processed
import CodeAtlas.Proofs.Syntax.Error
import CodeAtlas.Proofs.Syntax.Cursor
