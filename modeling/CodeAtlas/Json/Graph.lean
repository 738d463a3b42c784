/-
  The JSON form of nodes, edges, extractions and chunks.  Fields that describe nothing are left out.
-/
import CodeAtlas.Chunk.Basic
import CodeAtlas.Json.Symbol

namespace CodeAtlas

/-- A double as a text with six decimals. -/
def Json.double (x : Double) : Json :=
  .str (x.fixed 6)

/-- The node that an object describes. -/
def Node.ofJson? (j : Json) : Option Node := do
  let j ← j.record? ["id", "type", "name", "path", "language", "metadata", "project_id", "commit_ref"] 8
  let m ← j.get? "metadata" (Json.record?
    ["signature", "fqn", "parent", "symbolKind", "startLine", "startCol", "endLine", "endCol", "byteStart", "byteEnd",
      "isAsync", "isPublic", "isExported", "degraded"] 14)
  some
    { id := ← j.get? "id" Json.text?
      type := ← j.get? "type" (Json.named? NodeType.ofName?)
      name := ← j.get? "name" Json.text?
      path := ← j.get? "path" Json.text?
      language := ← j.getOpt? "language" (Json.named? Language.ofName?)
      signature := ← m.getOpt? "signature" Json.text?
      fqn := ← m.getOpt? "fqn" Json.text?
      parent := ← m.getOpt? "parent" Json.text?
      symbolKind := ← m.getOpt? "symbolKind" (Json.named? SymbolKind.ofName?)
      startLine := ← m.get? "startLine" Json.nat?
      startCol := ← m.get? "startCol" Json.nat?
      endLine := ← m.get? "endLine" Json.nat?
      endCol := ← m.get? "endCol" Json.nat?
      byteStart := ← m.get? "byteStart" Json.nat?
      byteEnd := ← m.get? "byteEnd" Json.nat?
      isAsync := ← m.get? "isAsync" Json.truth?
      isPublic := ← m.get? "isPublic" Json.truth?
      isExported := ← m.get? "isExported" Json.truth?
      degraded := ← m.get? "degraded" Json.truth?
      projectId := ← j.get? "project_id" Json.text?
      commit := ← j.getOpt? "commit_ref" Json.text? }

/-- The object of a node. -/
def Node.toJson (n : Node) : Json :=
  let metadata :=
    Json.optField "signature" .str n.signature ++ Json.optField "fqn" .str n.fqn
      ++ Json.optField "parent" .str n.parent ++ Json.optField "symbolKind" (fun k => .str k.name) n.symbolKind
      ++ [ ("startLine", .nat n.startLine), ("startCol", .nat n.startCol), ("endLine", .nat n.endLine),
        ("endCol", .nat n.endCol), ("byteStart", .nat n.byteStart), ("byteEnd", .nat n.byteEnd),
        ("isAsync", .bool n.isAsync), ("isPublic", .bool n.isPublic), ("isExported", .bool n.isExported) ]
      ++ (if n.degraded then [("degraded", .bool true)] else [])
  .obj
    ([ ("id", .str n.id), ("type", .str n.type.name), ("name", .str n.name), ("path", .str n.path),
      ("language", .language n.language), ("metadata", .obj metadata), ("project_id", .str n.projectId) ]
      ++ Json.optField "commit_ref" .str n.commit)

/-- The object of an edge. -/
def Edge.toJson (e : Edge) : Json :=
  let metadata :=
    Json.optField "line" .nat e.line ++ Json.optField "column" .nat e.column
      ++ Json.optField "context" .str e.context ++ [("isCircular", .bool e.isCircular)]
      ++ Json.optField "hops" .nat e.hops ++ Json.optField "strength" (fun s => .str s.name) e.strength
  .obj
    [ ("id", .str e.id), ("from_node", .str e.source), ("to_node", .str e.target),
      ("relationship", .str e.relationship.name), ("weight", .double e.weight),
      ("confidence", .double e.confidence), ("metadata", .obj metadata) ]

/-- The object of a graph. -/
def Graph.toJson (g : Graph) : Json :=
  .obj [("nodes", .arr (g.nodes.map Node.toJson)), ("edges", .arr (g.edges.map Edge.toJson))]

/-- The object of an extraction. -/
def Extraction.toJson (e : Extraction) : Json :=
  .obj
    [ ("path", .str e.path), ("language", .language e.language), ("nodes", .arr (e.nodes.map Node.toJson)),
      ("edges", .arr (e.edges.map Edge.toJson)), ("references", .arr (e.references.map Reference.toJson)),
      ("symbols", e.symbols.toJson), ("entryPoint", .bool e.entryPoint), ("degraded", .bool e.degraded),
      ("lineCount", .nat e.lineCount) ]

/-- The object of a chunk. -/
def Chunk.toJson (c : Chunk) : Json :=
  let metadata :=
    [ ("symbolName", Json.str c.symbolName), ("filePath", .str c.filePath), ("startLine", .nat c.startLine),
      ("endLine", .nat c.endLine), ("hasDocumentation", .bool c.hasDocumentation), ("usageCount", .nat c.usageCount),
      ("complexity", .nat c.complexity), ("visibility", .str c.visibility), ("testCoverage", .bool c.testCoverage) ]
      ++ (if c.members.isEmpty then [] else [("members", .texts c.members)])
  .obj
    [ ("id", .str c.id), ("node_id", .str c.nodeId), ("content", .str c.content), ("chunk_type", .str c.type.name),
      ("language", .language c.language), ("metadata", .obj metadata) ]

/-- The object of a failure recorded against a file. -/
def FileError.toJson (e : FileError) : Json :=
  .obj [("path", .str e.path), ("code", .str e.code), ("message", .str e.message)]

/-- The object of the statistics of a cache. -/
def CacheStats.toJson (s : CacheStats) : Json :=
  .obj
    [ ("hits", .nat s.hits), ("misses", .nat s.misses), ("size", .nat s.size), ("evictions", .nat s.evictions),
      ("expirations", .nat s.expirations) ]

end CodeAtlas
