/-
  How an extraction joins its nodes.

  The file contains its symbols, one edge each, and uses those of its functions that its references name, one edge for
  each such reference and none for any other (`extraction_joins_symbols_and_references`).  Functions of one name share an
  identifier, so that it does not matter which of them a reference finds.
-/
import CodeAtlas.Proofs.Dependency
import CodeAtlas.Proofs.Digest.StableId
import CodeAtlas.Proofs.Extraction.Shape
import CodeAtlas.Proofs.Syntax.Nested

namespace CodeAtlas

namespace Relationship

theorem mem_all (r : Relationship) : r ∈ all := by
  cases r <;> decide

/-- The tag of a relationship tells it. -/
theorem name_inj {r r' : Relationship} (h : r.name = r'.name) : r = r' :=
  List.inj_on_of_nodup_map (by decide) (mem_all r) (mem_all r') h

theorem nulFree_name (r : Relationship) : NulFree r.name := by
  unfold NulFree
  cases r <;> decide

end Relationship

/-! ## References -/

namespace Reference

variable {support : Support} {source : String} {request : Request}

theorem filePath_of_mem_visit {s : Scan} (hs : ∀ r ∈ s.found, r.filePath = request.filePath) (node : Syntax.Tree) :
    ∀ r ∈ (visit support source request s node).found, r.filePath = request.filePath := by
  have hadd (target : Syntax.Tree) (kind : ReferenceKind) :
      ∀ r ∈ s.found ++ [ofNode source request target kind], r.filePath = request.filePath :=
    List.forall_mem_append.mpr ⟨hs, List.forall_mem_singleton.mpr rfl⟩
  unfold visit
  split
  · exact hs
  · split
    · split
      · exact hadd _ .call
      · exact hs
    · split
      · exact hadd node .reference
      · exact hs

/-- All references that a scan finds are in the file that is scanned. -/
theorem filePath_of_mem_scan {root : Syntax.Tree} {r : Reference} (h : r ∈ scan support source root request) :
    r.filePath = request.filePath :=
  Syntax.Site.walk_keeps (P := fun _ => True) (Q := fun s : Scan => ∀ r ∈ s.found, r.filePath = request.filePath)
    (fun _ _ _ _ => trivial) (fun _ _ site _ hs => filePath_of_mem_visit hs site.tree) trivial
    (fun _ hr => absurd hr List.not_mem_nil) r h

end Reference

/-- The relationship that a kind of reference stands for. -/
def ReferenceKind.relationship : ReferenceKind → Relationship
  | .call => .call
  | .reference => .reference

/-- How much a kind of reference is relied on: nine tenths for a call, six tenths for a mere use. -/
def ReferenceKind.confidence : ReferenceKind → Double
  | .call => .ofRat (mkRat 9 10)
  | .reference => .ofRat (mkRat 6 10)

namespace Edge

/-- What the identifier of an edge is made of. -/
def parts (e : Edge) : List String :=
  [e.source, e.target, e.relationship.name, (e.line.map toString).getD ""]

/-- What the identifier of the edge of a reference is made of. -/
def useParts (e : Edge) : List String :=
  [stableId e.parts, (e.column.map toString).getD ""]

/-- All that is digested for the identifier of the edge of a reference. -/
def digested (e : Edge) : List (List String) :=
  [e.parts, e.useParts]

/-- The edge of a reference between two nodes. -/
def ofUse (source target : String) (r : Reference) : Edge :=
  { new source target r.kind.relationship (some r.line) with
    id := stableId [(new source target r.kind.relationship (some r.line)).id, toString r.column]
    confidence := r.kind.confidence
    column := some r.column
    context := some r.context }

/-- An edge by which a file contains a symbol, from its first line on. -/
structure Contains (file symbol : Node) (edge : Edge) : Prop where
  source : edge.source = file.id
  target : edge.target = symbol.id
  relationship : edge.relationship = .contains
  line : edge.line = some symbol.startLine

/-- An edge by which a file uses the function that a reference names, where and as the reference does. -/
structure Uses (file : Node) (nodes : List Node) (r : Reference) (edge : Edge) : Prop where
  source : edge.source = file.id
  target : ∃ n ∈ nodes, n.type = .function ∧ n.name = r.symbolName ∧ n.id = edge.target
  unique : ∀ n ∈ nodes, n.type = .function → n.name = r.symbolName → n.id = edge.target
  relationship : edge.relationship = r.kind.relationship
  confidence : edge.confidence = r.kind.confidence
  line : edge.line = some r.line
  column : edge.column = some r.column
  context : edge.context = some r.context
  id : edge.id = stableId edge.useParts

section Identifiers

variable {file : Node} {nodes : List Node} {r r' : Reference} {a b : Edge}

theorem nulFree_text (n : Option Nat) : NulFree ((n.map toString).getD "") := by
  cases n with
  | none => exact List.not_mem_nil
  | some n => exact nulFree_repr n

theorem Uses.nulFree_parts (h : a.Uses file nodes r) (hfile : NulFree file.id) (hnodes : ∀ n ∈ nodes, NulFree n.id) :
    ∀ s ∈ a.parts, NulFree s := by
  obtain ⟨n, hn, -, -, hid⟩ := h.target
  have hsource : NulFree a.source := h.source ▸ hfile
  have htarget : NulFree a.target := hid ▸ hnodes n hn
  unfold parts
  simp only [List.forall_mem_cons]
  exact ⟨hsource, htarget, a.relationship.nulFree_name, nulFree_text a.line, List.forall_mem_nil _⟩

theorem nulFree_useParts (e : Edge) : ∀ s ∈ e.useParts, NulFree s := by
  unfold useParts
  simp only [List.forall_mem_cons]
  exact ⟨nulFree_stableId _, nulFree_text e.column, List.forall_mem_nil _⟩

/-- Uses with one identifier have one target, kind and place. -/
theorem Uses.eq_of_id_eq (ha : a.Uses file nodes r) (hb : b.Uses file nodes r') (hfile : NulFree file.id)
    (hnodes : ∀ n ∈ nodes, NulFree n.id) {identified : List (List String)} (hcollision : NoCollision identified)
    (hidentifiedA : ∀ p ∈ a.digested, p ∈ identified) (hidentifiedB : ∀ p ∈ b.digested, p ∈ identified)
    (h : a.id = b.id) :
    a.target = b.target ∧ a.relationship = b.relationship ∧ a.line = b.line ∧ a.column = b.column := by
  obtain ⟨hpartsA, huseA, -⟩ := List.forall_mem_cons.mp hidentifiedA |>.imp_right List.forall_mem_cons.mp
  obtain ⟨hpartsB, huseB, -⟩ := List.forall_mem_cons.mp hidentifiedB |>.imp_right List.forall_mem_cons.mp
  rw [ha.id, hb.id] at h
  have huse : a.useParts = b.useParts := hcollision.eq_of_stableId_eq huseA huseB (List.cons_ne_nil _ _)
    (List.cons_ne_nil _ _) a.nulFree_useParts b.nulFree_useParts h
  obtain ⟨hinner, hcolumn⟩ := List.cons_eq_cons.mp huse
  have hparts : a.parts = b.parts := hcollision.eq_of_stableId_eq hpartsA hpartsB (List.cons_ne_nil _ _)
    (List.cons_ne_nil _ _) (ha.nulFree_parts hfile hnodes) (hb.nulFree_parts hfile hnodes) hinner
  unfold parts at hparts
  rw [ha.line, hb.line] at hparts
  rw [ha.column, hb.column] at hcolumn
  simp only [List.cons.injEq, Option.map_some, Option.getD_some, and_true] at hparts hcolumn
  obtain ⟨-, htarget, hname, hline⟩ := hparts
  rw [ha.line, hb.line, ha.column, hb.column]
  exact ⟨htarget, Relationship.name_inj hname, congrArg some (eq_of_toString_eq hline),
    congrArg some (eq_of_toString_eq hcolumn)⟩

end Identifiers

end Edge

namespace Extraction

variable {nodes : List Node} {r : Reference} {edge : Edge}

theorem isSome_fileIdOf?_iff {path : String} :
    (fileIdOf? nodes path).isSome = true ↔ ∃ n ∈ nodes, n.isFile = true ∧ n.path = path := by
  unfold fileIdOf?
  rw [Option.isSome_map, List.find?_isSome]
  simp only [Bool.and_eq_true, beq_iff_eq]

theorem isSome_functionIdOf?_iff {name : String} :
    (functionIdOf? nodes name).isSome = true ↔ ∃ n ∈ nodes, n.type = .function ∧ n.name = name := by
  unfold functionIdOf?
  rw [Option.isSome_map, List.find?_isSome]
  simp only [Bool.and_eq_true, beq_iff_eq]

theorem referenceEdge?_eq :
    referenceEdge? nodes r = (fileIdOf? nodes r.filePath).bind fun source =>
      (functionIdOf? nodes r.symbolName).map fun target => Edge.ofUse source target r := by
  unfold referenceEdge?
  cases fileIdOf? nodes r.filePath with
  | none => simp
  | some source =>
    cases functionIdOf? nodes r.symbolName with
    | none => simp
    | some target =>
      cases hkind : r.kind with
      | call => simp [Edge.ofUse, ReferenceKind.relationship, ReferenceKind.confidence, hkind]
      | reference => simp [Edge.ofUse, ReferenceKind.relationship, ReferenceKind.confidence, hkind]

/-- Among the nodes of one file the edge of a reference is that of a use. -/
theorem uses_of_referenceEdge? {file : Node} {path : String} (hfile : ∀ n ∈ nodes, n.isFile = true → n.id = file.id)
    (hids : ∀ n ∈ nodes, n.id = Node.idFor n.name n.type path) (h : referenceEdge? nodes r = some edge) :
    edge.Uses file nodes r := by
  rw [referenceEdge?_eq] at h
  obtain ⟨source, hsource, h⟩ := Option.bind_eq_some_iff.mp h
  obtain ⟨target, htarget, h⟩ := Option.map_eq_some_iff.mp h
  obtain ⟨m, hm, hkind, -, hsourceId⟩ := mem_of_fileIdOf? hsource
  obtain ⟨n, hn, hfunction, hname, htargetId⟩ := mem_of_functionIdOf? htarget
  rw [← h]
  exact
    { source := hsourceId.symm.trans (hfile m hm hkind)
      target := ⟨n, hn, hfunction, hname, htargetId⟩
      unique := by
        -- the identifier depends on the name, the category and the path only
        intro n' hn' hfunction' hname'
        rw [hids n' hn', hfunction', hname', ← hfunction, ← hname, ← hids n hn]
        exact htargetId
      relationship := rfl
      confidence := rfl
      line := rfl
      column := rfl
      context := rfl
      id := rfl }

/-- Whether a reference names a function or a method of the file. -/
def namesFunction (e : Extraction) (r : Reference) : Bool :=
  e.symbols.symbols.any fun s => s.kind.isCallable && s.name == r.symbolName

/-- How an extraction joins the node of its file to the others: it contains the nodes of the symbols and uses the functions
that are named.  Where no two of the texts digested for the uses collide, their identifiers tell their targets, kinds and
places. -/
structure Linked (e : Extraction) (fileNode : Node) (symbolNodes : List Node) (contained used : List Edge) : Prop where
  nodes : e.nodes = fileNode :: symbolNodes
  edges : e.edges = contained ++ used
  contains : List.Forall₂ (Edge.Contains fileNode) symbolNodes contained
  uses : List.Forall₂ (Edge.Uses fileNode e.nodes) (e.references.filter e.namesFunction) used
  ends : ∀ edge ∈ e.edges, (∃ n ∈ e.nodes, n.id = edge.source) ∧ ∃ n ∈ e.nodes, n.id = edge.target
  identified : NoCollision (used.flatMap Edge.digested) → ∀ a ∈ used, ∀ b ∈ used, a.id = b.id →
    a.target = b.target ∧ a.relationship = b.relationship ∧ a.line = b.line ∧ a.column = b.column

theorem isCallable_iff (kind : SymbolKind) : kind.isCallable = true ↔ NodeType.ofKind kind = .function := by
  cases kind <;> decide

section OfSymbols

variable {engine : Engine} {contextLines : Nat} {file : SourceFile} {parsed : Parsed} {symbols : SymbolSet}
  {project : String} {commit : Option String} {e : Extraction}
  (he : e = ofSymbols engine contextLines file parsed symbols project commit)

include he

/-- The references that have an edge are those that name a function or a method. -/
theorem isSome_referenceEdge?_eq {r : Reference} (hr : r ∈ e.references) :
    (referenceEdge? e.nodes r).isSome = e.namesFunction r := by
  subst he
  have hfile : ∃ n ∈ (ofSymbols engine contextLines file parsed symbols project commit).nodes,
      n.isFile = true ∧ n.path = r.filePath :=
    ⟨_, List.mem_cons_self, rfl, (Reference.filePath_of_mem_scan hr).symm⟩
  obtain ⟨source, hsource⟩ := Option.isSome_iff_exists.mp (isSome_fileIdOf?_iff.mpr hfile)
  rw [referenceEdge?_eq, hsource, Option.bind_some, Option.isSome_map, Bool.eq_iff_iff, isSome_functionIdOf?_iff,
    namesFunction, List.any_eq_true]
  simp only [Bool.and_eq_true, beq_iff_eq]
  constructor
  · rintro ⟨n, hn, hfunction, hname⟩
    rcases List.mem_cons.mp hn with rfl | hsymbol
    · cases hfunction
    · obtain ⟨s, hs, rfl⟩ := List.mem_map.mp hsymbol
      exact ⟨s, hs, (isCallable_iff s.kind).mpr hfunction, hname⟩
  · rintro ⟨s, hs, hcallable, hname⟩
    exact ⟨_, List.mem_cons_of_mem _ (List.mem_map_of_mem hs), (isCallable_iff s.kind).mp hcallable, hname⟩

/-- The edges of an extraction: one to each symbol, and those of the references that have one. -/
theorem exists_contained : ∃ contained,
    e.edges = contained ++ e.references.filterMap (referenceEdge? e.nodes) ∧
      List.Forall₂ (Edge.Contains (Node.ofFile e.path (some parsed.language) e.content project commit))
        (e.symbols.symbols.map fun s => Node.ofSymbol s e.path parsed.language project commit) contained := by
  subst he
  refine ⟨_, rfl, ?_⟩
  rw [List.zipWith_map_right, List.zipWith_self, List.forall₂_map_left_iff, List.forall₂_map_right_iff]
  exact List.forall₂_same.mpr fun s _ => ⟨rfl, rfl, rfl, rfl⟩

/-- The extraction of a file with some symbols joins its nodes. -/
theorem exists_linked (h : e.Extracted) :
    ∃ contained used, e.Linked (Node.ofFile e.path (some parsed.language) e.content project commit)
      (e.symbols.symbols.map fun s => Node.ofSymbol s e.path parsed.language project commit) contained used := by
  have hids : ∀ n ∈ e.nodes, n.id = Node.idFor n.name n.type e.path := by
    intro n hn
    obtain ⟨hpath, hid⟩ := h.of_mem_nodes hn
    rw [← hpath]
    exact hid
  have hfree : ∀ n ∈ e.nodes, NulFree n.id := fun n hn => hids n hn ▸ nulFree_stableId _
  have huses : ∀ r edge, referenceEdge? e.nodes r = some edge →
      edge.Uses (Node.ofFile e.path (some parsed.language) e.content project commit) e.nodes r :=
    fun _ _ => uses_of_referenceEdge? (fun _ hn hkind => h.id_of_isFile hn hkind) hids
  obtain ⟨contained, hedges, hcontained⟩ := exists_contained he
  refine ⟨contained, _, by rw [he]; rfl, hedges, hcontained, ?_, fun edge hedge => ?_, fun hcollision a ha b hb => ?_⟩
  · rw [← List.filter_congr fun r hr => isSome_referenceEdge?_eq he hr]
    exact forall₂_filter_isSome huses _
  · obtain ⟨fileNode, -, hfile, hfileId⟩ := h.fileNode?_eq
    obtain ⟨hsource, htarget⟩ := h.of_mem_edges hedge
    exact ⟨⟨fileNode, hfile, hfileId.trans hsource.symm⟩, htarget⟩
  · obtain ⟨ra, -, hra⟩ := List.mem_filterMap.mp ha
    obtain ⟨rb, -, hrb⟩ := List.mem_filterMap.mp hb
    exact (huses ra a hra).eq_of_id_eq (huses rb b hrb) (nulFree_stableId _) hfree hcollision
      (fun p hp => List.mem_flatMap.mpr ⟨a, ha, hp⟩) fun p hp => List.mem_flatMap.mpr ⟨b, hb, hp⟩

end OfSymbols

/-- Whatever is in the cache, an extraction of a file in a language consists of the node of the file and those of its
symbols in their order; of one edge from the file to each symbol, in the same order; and of one edge from the file to the
function that is named for each reference that names a function or a method of the file, in the order of the references.
So every edge has both ends, and uses that differ in target, kind, line or column have different identifiers. -/
theorem extraction_joins_symbols_and_references {x : Extractor} {disk : Disk} {now : Nat} {file : SourceFile}
    {project : String} {commit : Option String} {e : Extraction} {language : Language}
    (h : (x.extract disk now file project commit).1 = .ok e) (hlanguage : e.language = some language) :
    e.path = file.path ∧
      ∃ contained used, e.Linked (Node.ofFile e.path (some language) e.content project commit)
        (e.symbols.symbols.map fun s => Node.ofSymbol s e.path language project commit) contained used := by
  have hextracted : e.Extracted := ⟨x, disk, now, file, project, commit, h⟩
  rcases of_extract_eq_ok h with ⟨content, he⟩ | ⟨engine, contextLines, parsed, symbols, he⟩
  · rw [he] at hlanguage
    cases hlanguage
  · have hparsed : e.language = some parsed.language := by
      rw [he]
      rfl
    obtain rfl : parsed.language = language := Option.some.inj (hparsed.symm.trans hlanguage)
    exact ⟨congrArg path he, exists_linked he hextracted⟩

/-- A module with a function that calls itself on itself. -/
def selfPassing : SourceFile :=
  { path := "m.py", content := some "def f():\n  f(f)\n", entryPoint := false, hint := none, diskPath := none
    tree := some (.plain "module" "" 0 16
      [.plain "function_definition" "" 0 15
        [.plain "identifier" "name" 4 5 [],
          .plain "call" "body" 11 15
            [.plain "identifier" "function" 11 12 [],
              .plain "argument_list" "arguments" 12 15 [.plain "identifier" "" 13 14 []]]]]) }

/-- The call and the use beside it have an edge each, and no two of the texts digested for them collide. -/
theorem extraction_joins_symbols_and_references_passing : ∃ e,
    ((Extractor.ofConfig {}).extract .empty 0 selfPassing "demo" none).1 = .ok e ∧ e.language = some .python ∧
      (e.references.filter e.namesFunction).map (fun r => (r.symbolName, r.kind, r.line, r.column)) =
        [("f", .call, 2, 2), ("f", .reference, 2, 4)] ∧
      ∃ contained used, e.Linked (Node.ofFile e.path (some .python) e.content "demo" none)
        (e.symbols.symbols.map fun s => Node.ofSymbol s e.path .python "demo" none) contained used ∧
        NoCollision (used.flatMap Edge.digested) := by
  have hextract : ∃ e, ((Extractor.ofConfig {}).extract .empty 0 selfPassing "demo" none).1 = .ok e ∧
      e.language = some .python ∧ e.symbols.symbols.length = 1 ∧
      (e.references.filter e.namesFunction).map (fun r => (r.symbolName, r.kind, r.line, r.column)) =
        [("f", .call, 2, 2), ("f", .reference, 2, 4)] ∧
      NoCollision ((e.edges.drop 1).flatMap Edge.digested) :=
    ⟨_, rfl, rfl, by decide +kernel, by decide +kernel, by decide +kernel⟩
  obtain ⟨e, he, hlanguage, hsymbols, hreferences, hcollision⟩ := hextract
  obtain ⟨-, contained, used, h⟩ := extraction_joins_symbols_and_references he hlanguage
  have hused : e.edges.drop 1 = used := by
    rw [h.edges, List.drop_left' (h.contains.length_eq.symm.trans ((List.length_map _).trans hsymbols))]
  exact ⟨e, he, hlanguage, hreferences, contained, used, h, hused ▸ hcollision⟩

end Extraction

end CodeAtlas
