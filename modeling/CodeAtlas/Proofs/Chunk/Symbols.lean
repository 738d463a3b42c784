/-
  Chunks by symbol and by function.

  A node has a chunk exactly when its lines are in the file (`Chunk.isSome_ofNode?_iff`), and that is so for every symbol that
  is extracted from a tree over the content.  So a file has one chunk for each of its symbols
  (`Chunker.one_chunk_for_each_symbol`), and its chunks by function are those of its functions among them.
-/
import CodeAtlas.Chunk.Strategy
import CodeAtlas.Proofs.Extraction.Placed
import CodeAtlas.Proofs.Extraction.Shape
import Mathlib.Data.List.Forall2

namespace CodeAtlas

namespace Extraction

/-- The nodes of symbols are those of the symbols in their order. -/
theorem symbolNodes_ofSymbols (engine : Engine) (contextLines : Nat) (file : SourceFile) (parsed : Parsed)
    (symbols : SymbolSet) (project : String) (commit : Option String) :
    (ofSymbols engine contextLines file parsed symbols project commit).symbolNodes =
      symbols.symbols.map fun s => Node.ofSymbol s file.path parsed.language project commit := by
  refine (List.filter_cons_of_neg (by exact Bool.false_ne_true)).trans (List.filter_eq_self.mpr fun n hn => ?_)
  obtain ⟨s, -, rfl⟩ := List.mem_map.mp hn
  exact bne_iff_ne.mpr (NodeType.ofKind_ne_file s.kind)

/-- The node of a symbol of a file, as far as chunks are made of it. -/
structure NodeOf (path : String) (s : Symbol) (n : Node) : Prop where
  id : n.id = Node.idFor s.name (.ofKind s.kind) path
  name : n.name = s.name
  type : n.type = .ofKind s.kind
  parent : n.parent = s.parent
  startLine : n.startLine = s.startLine
  endLine : n.endLine = s.endLine

/-- The nodes of symbols come in the order of the symbols. -/
theorem Extracted.symbolNodes_eq {e : Extraction} (h : e.Extracted) :
    ∃ node, e.symbolNodes = e.symbols.symbols.map node ∧ ∀ s, NodeOf e.path s (node s) := by
  rcases h.cases with ⟨file, content, project, commit, rfl⟩ | ⟨engine, lines, file, parsed, symbols, project, commit, rfl⟩
  · exact ⟨fun s => Node.ofSymbol s file.path .python project commit, rfl, fun s => ⟨rfl, rfl, rfl, rfl, rfl, rfl⟩⟩
  · exact ⟨_, symbolNodes_ofSymbols engine lines file parsed symbols project commit, fun s => ⟨rfl, rfl, rfl, rfl, rfl, rfl⟩⟩

/-- The lines of the nodes of placed symbols are in the file. -/
theorem Extracted.lines_of_mem_symbolNodes {e : Extraction} (h : e.Extracted)
    (hplaced : ∀ s ∈ e.symbols.symbols, s.Placed e.content) {n : Node} (hn : n ∈ e.symbolNodes) :
    0 < n.startLine ∧ n.startLine ≤ e.lineCount ∧ n.startLine ≤ n.endLine := by
  obtain ⟨node, hnodes, hnode⟩ := h.symbolNodes_eq
  rw [hnodes] at hn
  obtain ⟨s, hs, rfl⟩ := List.mem_map.mp hn
  have hplace := hplaced s hs
  rw [(hnode s).startLine, (hnode s).endLine]
  exact ⟨hplace.startLine_pos, hplace.startLine_le_lines, hplace.startLine_le_endLine⟩

end Extraction

namespace Chunk

variable {job : Job} {lines : List String} {type : ChunkType} {n : Node} {c : Chunk}

theorem isSome_ofNode?_iff : (ofNode? job lines type n).isSome = true ↔
    0 < n.startLine ∧ n.startLine ≤ lines.length ∧ n.startLine ≤ n.endLine := by
  unfold ofNode?
  split
  · simp only [Option.isSome_none, Bool.false_eq_true, false_iff]
    omega
  · simp only [Option.isSome_some, true_iff]
    omega

/-- The chunk of a node carries its identifier, its name and its lines. -/
theorem of_ofNode? (h : ofNode? job lines type n = some c) :
    c.nodeId = n.id ∧ c.symbolName = n.name ∧ c.startLine = n.startLine ∧ c.endLine = n.endLine := by
  unfold ofNode? at h
  split at h
  · cases h
  · rw [← Option.some.inj h]
    exact ⟨rfl, rfl, rfl, rfl⟩

/-- The chunk as one of a function. -/
def asFunction (c : Chunk) : Chunk :=
  { c with id := stableId ["chunk", c.nodeId, ChunkType.function.name, toString c.startLine], type := .function }

/-- The chunk as one of another type. -/
def asType (type : ChunkType) (c : Chunk) : Chunk :=
  { c with id := stableId ["chunk", c.nodeId, type.name, toString c.startLine], type }

section

variable (type : ChunkType) (c : Chunk)

@[simp] theorem asType_symbolName : (asType type c).symbolName = c.symbolName := by
  simp only [asType]

@[simp] theorem asType_content : (asType type c).content = c.content := by
  simp only [asType]

@[simp] theorem asType_startLine : (asType type c).startLine = c.startLine := by
  simp only [asType]

@[simp] theorem asType_endLine : (asType type c).endLine = c.endLine := by
  simp only [asType]

@[simp] theorem asType_usageCount : (asType type c).usageCount = c.usageCount := by
  simp only [asType]

@[simp] theorem asType_complexity : (asType type c).complexity = c.complexity := by
  simp only [asType]

end

/-- As one of another type a node has the same chunk, but for the type and the identifier. -/
theorem ofNode?_asType (job : Job) (lines : List String) (type : ChunkType) (n : Node) :
    ofNode? job lines type n = (ofNode? job lines .symbol n).map (asType type) := by
  unfold ofNode?
  split
  · rfl
  · rfl

theorem ofNode?_function (job : Job) (lines : List String) (n : Node) :
    ofNode? job lines .function n = (ofNode? job lines .symbol n).map asFunction :=
  ofNode?_asType job lines .function n

theorem forall₂_filterMap {α β : Type} {f : α → Option β} {l : List α} (h : ∀ a ∈ l, (f a).isSome = true) :
    List.Forall₂ (fun a b => f a = some b) l (l.filterMap f) := by
  induction l with
  | nil => exact .nil
  | cons a l ih =>
    obtain ⟨b, hb⟩ := Option.isSome_iff_exists.mp (h a List.mem_cons_self)
    rw [List.filterMap_cons_some hb]
    exact .cons hb (ih fun a ha => h a (List.mem_cons_of_mem _ ha))

/-- The chunks by function are those chunks by symbol that belong to functions. -/
theorem filterMap_function {nodes : List Node} {chunks : List Chunk} (keep : Node → Bool)
    (h : List.Forall₂ (fun n c => ofNode? job lines .symbol n = some c) nodes chunks) :
    (nodes.filter keep).filterMap (ofNode? job lines .function) =
      ((nodes.zip chunks).filter fun p => keep p.1).map fun p => p.2.asFunction := by
  induction h with
  | nil => rfl
  | cons hchunk _ ih =>
    rw [List.zip_cons_cons, List.filter_cons, List.filter_cons]
    split
    · rw [List.filterMap_cons, ofNode?_function, hchunk, List.map_cons, ih]
      rfl
    · exact ih

/-- The chunk of a symbol. -/
structure ChunkOf (path : String) (s : Symbol) (c : Chunk) : Prop where
  nodeId : c.nodeId = Node.idFor s.name (.ofKind s.kind) path
  symbolName : c.symbolName = s.name
  startLine : c.startLine = s.startLine
  endLine : c.endLine = s.endLine

end Chunk

namespace Chunker

open Chunk (ChunkOf ofNode?)

/-- A file with a tree over its content has one chunk for each symbol, in the order of the symbols, and by function it has
those of its functions, whatever else was extracted before.  No two contents are taken to have one digest. -/
theorem one_chunk_for_each_symbol (config : Config) (chunker : Chunker) (r : Request) (history : List Request)
    (hfits : ∀ r' ∈ r :: history, r'.Fits)
    (hdigests : ∀ r' ∈ history, ∀ content content', r'.Loads content → r.Loads content' →
      contentHash content = contentHash content' → content = content')
    {e : Extraction} (he : (((Extractor.ofConfig config).after history).answer r).1 = .ok e) :
    ∃ chunks functions, chunker.cut e "one-symbol-per-chunk" = .ok chunks ∧
      chunker.cut e "one-function-per-chunk" = .ok functions ∧
      List.Forall₂ (ChunkOf e.path) e.symbols.symbols chunks ∧ chunks.map (·.nodeId) = e.symbolNodes.map (·.id) ∧
      functions = ((e.symbolNodes.zip chunks).filter fun p => p.1.type == .function).map fun p => p.2.asFunction := by
  have hextracted : e.Extracted := ⟨_, r.disk, r.now, r.file, r.project, r.commit, he⟩
  have hplaced := Extractor.placed_of_answer config hfits hdigests he
  obtain ⟨node, hnodes, hnode⟩ := hextracted.symbolNodes_eq
  have hsome (job : Chunk.Job) : ∀ n ∈ e.symbolNodes, (ofNode? job (Text.lines e.content) .symbol n).isSome = true :=
    fun n hn => Chunk.isSome_ofNode?_iff.mpr (hextracted.lines_of_mem_symbolNodes hplaced hn)
  have hchunks (job : Chunk.Job) := Chunk.forall₂_filterMap (hsome job)
  refine ⟨(e.symbolNodes.filter fun _ => true).filterMap _, _, rfl, rfl, ?_, ?_, ?_⟩
  · rw [List.filter_true, hnodes]
    refine (List.forall₂_map_left_iff.mp (hnodes ▸ hchunks _)).imp fun s c hc => ?_
    obtain ⟨hid, hname, hstart, hend⟩ := Chunk.of_ofNode? hc
    exact ⟨hid.trans (hnode s).id, hname.trans (hnode s).name, hstart.trans (hnode s).startLine,
      hend.trans (hnode s).endLine⟩
  · rw [List.filter_true, ← List.forall₂_eq_eq_eq, List.forall₂_map_left_iff, List.forall₂_map_right_iff]
    exact (hchunks _).flip.imp fun c n hc => (Chunk.of_ofNode? hc).1
  · rw [List.filter_true]
    exact Chunk.filterMap_function _ (hchunks _)

/-- A function in the second line, which ends the file; the first line is ended by a carriage return and a newline. -/
def secondLine : Request :=
  let leaf (kind field : String) (start stop : Nat) : Syntax.Tree :=
    .node ⟨kind, field, start, stop, true, false, false, false⟩ []
  let tree : Syntax.Tree := .node ⟨"module", "", 0, 15, true, false, false, false⟩
    [.node ⟨"function_definition", "", 2, 15, true, false, false, false⟩
      [leaf "identifier" "name" 6 7, leaf "parameters" "parameters" 7 9, leaf "block" "body" 11 15]]
  { disk := .empty, now := 0, project := "demo", commit := none
    file := ⟨"m.py", some "\r\ndef f(): pass", false, none, none, some tree⟩ }

theorem fits_secondLine : secondLine.Fits := by
  rintro content tree ⟨loaded, hload, rfl⟩ htree
  cases hload
  cases htree
  decide

/-- The function in the second line has its chunk also when it comes from the cache. -/
theorem one_chunk_for_each_symbol_cached :
    ∃ e chunks functions,
      (((Extractor.ofConfig {}).after [secondLine]).answer secondLine).1 = .ok e ∧
        e.symbols.symbols.map (fun s => (s.name, s.startLine)) = [("f", 2)] ∧
        (new {}).cut e "one-symbol-per-chunk" = .ok chunks ∧ (new {}).cut e "one-function-per-chunk" = .ok functions ∧
        List.Forall₂ (ChunkOf e.path) e.symbols.symbols chunks ∧
        functions = ((e.symbolNodes.zip chunks).filter fun p => p.1.type == .function).map fun p => p.2.asFunction := by
  have hfits : ∀ r ∈ [secondLine, secondLine], r.Fits :=
    List.forall_mem_cons.mpr ⟨fits_secondLine, List.forall_mem_singleton.mpr fits_secondLine⟩
  have hsymbols : ((((Extractor.ofConfig {}).after [secondLine]).answer secondLine).1.toOption.map
      fun e => e.symbols.symbols.map fun s => (s.name, s.startLine)) = some [("f", 2)] := by
    decide +kernel
  generalize hresult : (((Extractor.ofConfig {}).after [secondLine]).answer secondLine).1 = result at hsymbols
  cases result with
  | error f => cases hsymbols
  | ok e =>
    have hdigests : ∀ r ∈ [secondLine], ∀ content content', r.Loads content → secondLine.Loads content' →
        contentHash content = contentHash content' → content = content' := by
      intro r hr content content' h h' _
      rw [List.mem_singleton.mp hr] at h
      exact h.unique h'
    obtain ⟨chunks, functions, hchunks, hfunctions, hall, -, hsub⟩ :=
      one_chunk_for_each_symbol {} (new {}) secondLine [secondLine] hfits hdigests hresult
    exact ⟨e, chunks, functions, rfl, Option.some.inj hsymbols, hchunks, hfunctions, hall, hsub⟩

end Chunker

end CodeAtlas
