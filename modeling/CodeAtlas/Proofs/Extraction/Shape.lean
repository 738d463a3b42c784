/-
  The nodes and edges that an extraction can have.

  An extraction holds the node of its file and those of symbols in it (`of_mem_nodes`).  Its edges leave the node of the
  file, one to each symbol and one for each reference to a function, and end at nodes of the extraction (`of_mem_edges`).
-/
import CodeAtlas.Extraction

namespace CodeAtlas

theorem NodeType.ofKind_ne_file (kind : SymbolKind) : NodeType.ofKind kind ≠ .file := by
  cases kind <;> exact NodeType.noConfusion

namespace Extraction

/-- What some extractor makes of some file. -/
def Extracted (e : Extraction) : Prop :=
  ∃ (x : Extractor) (disk : Disk) (now : Nat) (file : SourceFile) (project : String) (commit : Option String),
    (x.extract disk now file project commit).1 = .ok e

/-- A request extracts a file of unknown language, or a parsed file with some symbols. -/
theorem of_extract_eq_ok {x : Extractor} {disk : Disk} {now : Nat} {file : SourceFile} {project : String}
    {commit : Option String} {e : Extraction} (h : (x.extract disk now file project commit).1 = .ok e) :
    (∃ content, e = ofUnknown file content project commit) ∨
      ∃ engine contextLines parsed symbols,
        e = ofSymbols engine contextLines file parsed symbols project commit := by
  unfold Extractor.extract at h
  split at h
  · cases h
  · split at h
    · exact Or.inl ⟨_, (Except.ok.inj h).symm⟩
    · split at h
      · cases h
      · exact Or.inr ⟨_, _, _, _, (Except.ok.inj h).symm⟩

/-- An extraction is that of a file of unknown language, or that of a parsed file with some symbols. -/
theorem Extracted.cases {e : Extraction} (h : e.Extracted) :
    (∃ file content project commit, e = ofUnknown file content project commit) ∨
      ∃ engine contextLines file parsed symbols project commit,
        e = ofSymbols engine contextLines file parsed symbols project commit := by
  obtain ⟨x, disk, now, file, project, commit, hextract⟩ := h
  rcases of_extract_eq_ok hextract with ⟨content, he⟩ | ⟨engine, lines, parsed, symbols, he⟩
  · exact Or.inl ⟨_, _, _, _, he⟩
  · exact Or.inr ⟨_, _, _, _, _, _, _, he⟩

/-- The identifier of the node of a file. -/
def fileIdAt (path : String) : String :=
  Node.idFor path .file path

/-! ## Nodes -/

/-- The node of a file comes first. -/
theorem Extracted.fileNode?_eq {e : Extraction} (h : e.Extracted) :
    ∃ n, e.fileNode? = some n ∧ n ∈ e.nodes ∧ n.id = fileIdAt e.path := by
  rcases h.cases with ⟨file, content, project, commit, rfl⟩ | ⟨engine, lines, file, parsed, symbols, project, commit, rfl⟩
  · exact ⟨_, rfl, List.mem_cons_self, rfl⟩
  · exact ⟨_, rfl, List.mem_cons_self, rfl⟩

/-- Every node belongs to the file, and its identifier tells its name, its category and the path. -/
theorem Extracted.of_mem_nodes {e : Extraction} (h : e.Extracted) {n : Node} (hn : n ∈ e.nodes) :
    n.path = e.path ∧ n.id = Node.idFor n.name n.type n.path := by
  rcases h.cases with ⟨file, content, project, commit, rfl⟩ | ⟨engine, lines, file, parsed, symbols, project, commit, rfl⟩
  · rw [List.mem_singleton.mp hn]
    exact ⟨rfl, rfl⟩
  · rcases List.mem_cons.mp hn with rfl | hsymbol
    · exact ⟨rfl, rfl⟩
    · obtain ⟨s, -, rfl⟩ := List.mem_map.mp hsymbol
      exact ⟨rfl, rfl⟩

/-! ## Edges -/

theorem mem_of_fileIdOf? {nodes : List Node} {path id : String} (h : fileIdOf? nodes path = some id) :
    ∃ n ∈ nodes, n.isFile = true ∧ n.path = path ∧ n.id = id := by
  obtain ⟨n, hn, rfl⟩ := Option.map_eq_some_iff.mp h
  have hfound := List.find?_some hn
  rw [Bool.and_eq_true, beq_iff_eq] at hfound
  exact ⟨n, List.mem_of_find?_eq_some hn, hfound.1, hfound.2, rfl⟩

theorem mem_of_functionIdOf? {nodes : List Node} {name id : String} (h : functionIdOf? nodes name = some id) :
    ∃ n ∈ nodes, n.type = .function ∧ n.name = name ∧ n.id = id := by
  obtain ⟨n, hn, rfl⟩ := Option.map_eq_some_iff.mp h
  have hfound := List.find?_some hn
  rw [Bool.and_eq_true, beq_iff_eq, beq_iff_eq] at hfound
  exact ⟨n, List.mem_of_find?_eq_some hn, hfound.1, hfound.2, rfl⟩

/-- The edge of a reference goes from the node of the file to that of the function that is named. -/
theorem ends_of_referenceEdge? {nodes : List Node} {r : Reference} {edge : Edge}
    (h : referenceEdge? nodes r = some edge) :
    fileIdOf? nodes r.filePath = some edge.source ∧
      ∃ n ∈ nodes, n.type = .function ∧ n.name = r.symbolName ∧ n.id = edge.target := by
  unfold referenceEdge? at h
  obtain ⟨source, hsource, h⟩ := Option.bind_eq_some_iff.mp h
  obtain ⟨target, htarget, h⟩ := Option.bind_eq_some_iff.mp h
  rw [← Option.some.inj h]
  exact ⟨hsource, mem_of_functionIdOf? htarget⟩

/-- A file node among those of an extraction is the node of its file. -/
theorem Extracted.id_of_isFile {e : Extraction} (h : e.Extracted) {n : Node} (hn : n ∈ e.nodes)
    (hfile : n.isFile = true) : n.id = fileIdAt e.path := by
  rcases h.cases with ⟨file, content, project, commit, rfl⟩ | ⟨engine, lines, file, parsed, symbols, project, commit, rfl⟩
  · rw [List.mem_singleton.mp hn]
    rfl
  · rcases List.mem_cons.mp hn with rfl | hsymbol
    · rfl
    · obtain ⟨s, -, rfl⟩ := List.mem_map.mp hsymbol
      exact absurd (beq_iff_eq.mp hfile) (NodeType.ofKind_ne_file s.kind)

/-- Every edge goes from the node of the file to a node of the extraction. -/
theorem Extracted.of_mem_edges {e : Extraction} (h : e.Extracted) {edge : Edge} (hedge : edge ∈ e.edges) :
    edge.source = fileIdAt e.path ∧ ∃ n ∈ e.nodes, n.id = edge.target := by
  have hfile := fun n => h.id_of_isFile (n := n)
  rcases h.cases with ⟨file, content, project, commit, rfl⟩ | ⟨engine, lines, file, parsed, symbols, project, commit, rfl⟩
  · exact absurd hedge List.not_mem_nil
  · rcases List.mem_append.mp hedge with hcontained | hreference
    · rw [List.zipWith_map_right, List.zipWith_self] at hcontained
      obtain ⟨s, hs, rfl⟩ := List.mem_map.mp hcontained
      exact ⟨rfl, _, List.mem_cons_of_mem _ (List.mem_map_of_mem hs), rfl⟩
    · obtain ⟨r, -, hr⟩ := List.mem_filterMap.mp hreference
      obtain ⟨hsource, target, htarget, -, -, htargetId⟩ := ends_of_referenceEdge? hr
      obtain ⟨n, hn, hkind, -, hid⟩ := mem_of_fileIdOf? hsource
      exact ⟨hid ▸ hfile n hn hkind, target, htarget, htargetId⟩

end Extraction

end CodeAtlas
