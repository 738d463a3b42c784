/-
  Chains of related symbols.

  The groups of a file are made of stand-ins, the first nodes with the identifiers and the first lines of its nodes.  A
  node and its stand-in start in one line, so they are related, and what the stand-ins link is linked by the nodes
  themselves (`linked_of_standIns`).  The converse fails for two symbols with one parent when one of them is taken for a
  symbol of another parent (`Misread`); `Chunker.chains_share_a_chunk` says exactly when it holds.
-/
import CodeAtlas.Proofs.Chunk.Contextual
import CodeAtlas.Proofs.Chunk.Similarity

namespace CodeAtlas

namespace Chunk

variable {config : ChunkingConfig} {nodes : List Node} {a b n : Node} {i j : Nat}

/-! ## Relatedness -/

/-- Two nodes of one parent. -/
def Siblings (a b : Node) : Prop :=
  a.parent.isSome = true ∧ a.parent = b.parent

/-- Two nodes with similar names. -/
def AlikeNamed (config : ChunkingConfig) (a b : Node) : Prop :=
  config.nameSimilarityThreshold.atMost (nameSimilarity a.name b.name) = true

/-- Two nodes that start close to each other. -/
def Near (config : ChunkingConfig) (a b : Node) : Prop :=
  (a.startLine - b.startLine) + (b.startLine - a.startLine) ≤ config.contextualLineDistance

theorem related_iff : related config a b = true ↔ Siblings a b ∨ Near config a b ∨ AlikeNamed config a b := by
  unfold related Siblings Near AlikeNamed
  simp only [Bool.or_eq_true, Bool.and_eq_true, beq_iff_eq, decide_eq_true_eq, or_assoc]

theorem related_comm : related config a b = true ↔ related config b a = true := by
  have hsiblings : Siblings a b ↔ Siblings b a := by
    unfold Siblings
    constructor
    · rintro ⟨hsome, heq⟩
      exact ⟨heq ▸ hsome, heq.symm⟩
    · rintro ⟨hsome, heq⟩
      exact ⟨heq ▸ hsome, heq.symm⟩
  rw [related_iff, related_iff, hsiblings]
  unfold Near AlikeNamed
  rw [Nat.add_comm, nameSimilarity_comm]

theorem related_of_startLine_eq (h : a.startLine = b.startLine) : related config a b = true := by
  refine related_iff.mpr (Or.inr (Or.inl ?_))
  unfold Near
  omega

/-! ## Chains -/

/-- Related nodes lead from one position to another. -/
def Linked (config : ChunkingConfig) (nodes : List Node) : Nat → Nat → Prop :=
  Relation.EqvGen (RelatedAt config nodes)

theorem linked_of_related (ha : nodes[i]? = some a) (hb : nodes[j]? = some b) (h : related config a b = true) :
    Linked config nodes i j := by
  rcases Nat.lt_trichotomy i j with hij | rfl | hij
  · exact .rel i j ⟨hij, a, b, ha, hb, h⟩
  · exact .refl i
  · exact .symm j i (.rel j i ⟨hij, b, a, hb, ha, related_comm.mp h⟩)

theorem standIn_mem (hn : n ∈ nodes) :
    standIn nodes n ∈ nodes ∧ (standIn nodes n).id = n.id ∧ (standIn nodes n).startLine = n.startLine := by
  unfold standIn
  cases hfind : nodes.find? fun m => m.id == n.id && m.startLine == n.startLine with
  | none => exact ⟨hn, rfl, rfl⟩
  | some m =>
    have hkeys := List.find?_some hfind
    rw [Bool.and_eq_true, beq_iff_eq, beq_iff_eq] at hkeys
    exact ⟨List.mem_of_find?_eq_some hfind, hkeys⟩

/-- A node and its stand-in start in one line. -/
theorem exists_linked_standIn (config : ChunkingConfig) (hn : nodes[i]? = some n) :
    ∃ k, nodes[k]? = some (standIn nodes n) ∧ Linked config nodes i k := by
  obtain ⟨hmem, -, hline⟩ := standIn_mem (List.mem_of_getElem? hn)
  obtain ⟨k, hk⟩ := List.mem_iff_getElem?.mp hmem
  exact ⟨k, hk, linked_of_related hn hk (related_of_startLine_eq hline.symm)⟩

/-- What the stand-ins link is linked. -/
theorem linked_of_standIns (h : Linked config (nodes.map (standIn nodes)) i j) : Linked config nodes i j := by
  induction h with
  | rel i j h =>
    obtain ⟨-, a, b, ha, hb, hrelated⟩ := h
    rw [List.getElem?_map, Option.map_eq_some_iff] at ha hb
    obtain ⟨a, ha, rfl⟩ := ha
    obtain ⟨b, hb, rfl⟩ := hb
    obtain ⟨k, hk, hik⟩ := exists_linked_standIn config ha
    obtain ⟨l, hl, hjl⟩ := exists_linked_standIn config hb
    exact hik.trans _ _ _ ((linked_of_related hk hl hrelated).trans _ _ _ hjl.symm)
  | refl i => exact .refl i
  | symm _ _ _ ih => exact ih.symm
  | trans _ _ _ _ _ ih ih' => exact ih.trans _ _ _ ih'

/-- Nodes that start close to each other have stand-ins that do. -/
theorem linked_standIns_of_near (ha : nodes[i]? = some a) (hb : nodes[j]? = some b) (h : Near config a b) :
    Linked config (nodes.map (standIn nodes)) i j := by
  have ha' : (nodes.map (standIn nodes))[i]? = some (standIn nodes a) := by rw [List.getElem?_map, ha]; rfl
  have hb' : (nodes.map (standIn nodes))[j]? = some (standIn nodes b) := by rw [List.getElem?_map, hb]; rfl
  refine linked_of_related ha' hb' (related_iff.mpr (Or.inr (Or.inl ?_)))
  unfold Near at h ⊢
  rwa [(standIn_mem (List.mem_of_getElem? ha)).2.2, (standIn_mem (List.mem_of_getElem? hb)).2.2]

/-- The stand-in of a node has another name or another parent. -/
def Misread (nodes : List Node) (n : Node) : Prop :=
  (standIn nodes n).name ≠ n.name ∨ (standIn nodes n).parent ≠ n.parent

/-- Nodes that are not misread have stand-ins that are related as they are. -/
theorem related_standIns (ha : a ∈ nodes) (hb : b ∈ nodes) (hreada : ¬Misread nodes a) (hreadb : ¬Misread nodes b) :
    related config (standIn nodes a) (standIn nodes b) = related config a b := by
  obtain ⟨hnamea, hparenta⟩ := not_or.mp hreada
  obtain ⟨hnameb, hparentb⟩ := not_or.mp hreadb
  unfold related
  rw [not_not.mp hnamea, not_not.mp hparenta, (standIn_mem ha).2.2, not_not.mp hnameb, not_not.mp hparentb,
    (standIn_mem hb).2.2]

/-- No two nodes of one identifier and one first line differ in their names or parents. -/
def Unambiguous (nodes : List Node) : Prop :=
  ∀ a ∈ nodes, ∀ b ∈ nodes, a.id = b.id → a.startLine = b.startLine → a.name = b.name ∧ a.parent = b.parent

/-- Nodes that start in lines of their own are not confused. -/
theorem unambiguous_of_nodup (h : (nodes.map (·.startLine)).Nodup) : Unambiguous nodes := by
  intro a ha b hb _ hline
  rw [List.inj_on_of_nodup_map h ha hb hline]
  exact ⟨rfl, rfl⟩

theorem not_misread (h : Unambiguous nodes) (hn : n ∈ nodes) : ¬Misread nodes n := by
  obtain ⟨hmem, hid, hline⟩ := standIn_mem hn
  obtain ⟨hname, hparent⟩ := h _ hmem _ hn hid hline
  exact not_or.mpr ⟨not_not.mpr hname, not_not.mpr hparent⟩

/-! ## Groups -/

/-- Two positions are in one group. -/
def Together (groups : List (List Nat)) (i j : Nat) : Prop :=
  ∃ g ∈ groups, i ∈ g ∧ j ∈ g

/-- The nodes at two positions, the first before the second, have one parent or similar names, and one of them is misread. -/
def MisreadAt (config : ChunkingConfig) (nodes : List Node) (i j : Nat) : Prop :=
  i < j ∧ ∃ a b, nodes[i]? = some a ∧ nodes[j]? = some b ∧ (Siblings a b ∨ AlikeNamed config a b) ∧
    (Misread nodes a ∨ Misread nodes b)

/-- Groups of the positions of some nodes.  Those are together that the stand-ins link.  Only linked nodes are together; all
linked nodes are exactly if misread ones are linked as well to the nodes with their parents or similar names, and so whenever
no two nodes are confused. -/
structure Chained (config : ChunkingConfig) (nodes : List Node) (groups : List (List Nat)) : Prop where
  once : groups.flatten.Perm (List.range nodes.length)
  standIns : ∀ i j, i < nodes.length → j < nodes.length →
    (Together groups i j ↔ Linked config (nodes.map (standIn nodes)) i j)
  linked : ∀ i j, Together groups i j → Linked config nodes i j
  together_iff : (∀ i j, i < nodes.length → j < nodes.length → (Together groups i j ↔ Linked config nodes i j)) ↔
    ∀ i j, MisreadAt config nodes i j → Linked config (nodes.map (standIn nodes)) i j
  together_of_unambiguous : Unambiguous nodes →
    ∀ i j, i < nodes.length → j < nodes.length → (Together groups i j ↔ Linked config nodes i j)

/-- What is linked is linked by the stand-ins, if that holds where one of two nodes is misread. -/
theorem linked_standIns (h : ∀ i j, MisreadAt config nodes i j → Linked config (nodes.map (standIn nodes)) i j)
    (hij : Linked config nodes i j) : Linked config (nodes.map (standIn nodes)) i j := by
  induction hij with
  | rel i j hrelated =>
    obtain ⟨hij, a, b, ha, hb, hrelated⟩ := hrelated
    have hakin (hakin : Siblings a b ∨ AlikeNamed config a b) : Linked config (nodes.map (standIn nodes)) i j := by
      by_cases hread : Misread nodes a ∨ Misread nodes b
      case pos => exact h i j ⟨hij, a, b, ha, hb, hakin, hread⟩
      case neg =>
        obtain ⟨hreada, hreadb⟩ := not_or.mp hread
        refine linked_of_related (List.getElem?_map.trans (congrArg _ ha)) (List.getElem?_map.trans (congrArg _ hb)) ?_
        rwa [related_standIns (List.mem_of_getElem? ha) (List.mem_of_getElem? hb) hreada hreadb]
    rcases related_iff.mp hrelated with hsiblings | hnear | halike
    · exact hakin (Or.inl hsiblings)
    · exact linked_standIns_of_near ha hb hnear
    · exact hakin (Or.inr halike)
  | refl i => exact .refl i
  | symm _ _ _ ih => exact ih.symm
  | trans _ _ _ _ _ ih ih' => exact ih.trans _ _ _ ih'

theorem chained_group (config : ChunkingConfig) (nodes : List Node) :
    Chained config nodes (group config (nodes.map (standIn nodes))) := by
  have hlists := listsComponents_group config (nodes.map (standIn nodes))
  rw [List.length_map] at hlists
  have hlinked : ∀ i j, Together (group config (nodes.map (standIn nodes))) i j → Linked config nodes i j := by
    rintro i j ⟨g, hg, hi, hj⟩
    have htogether := hlists.together i j (hlists.lt_of_mem hg hi) (hlists.lt_of_mem hg hj)
    exact linked_of_standIns (htogether.mp ⟨g, hg, hi, hj⟩)
  have hcomplete (h : ∀ i j, MisreadAt config nodes i j → Linked config (nodes.map (standIn nodes)) i j) :
      ∀ i j, i < nodes.length → j < nodes.length →
        (Together (group config (nodes.map (standIn nodes))) i j ↔ Linked config nodes i j) :=
    fun i j hi hj => ⟨hlinked i j, fun hij => (hlists.together i j hi hj).mpr (linked_standIns h hij)⟩
  refine ⟨hlists.once, hlists.together, hlinked, ⟨fun h i j hmisread => ?_, hcomplete⟩, fun hclear => hcomplete ?_⟩
  · obtain ⟨-, a, b, ha, hb, hakin, -⟩ := hmisread
    have hi : i < nodes.length := (List.getElem?_eq_some_iff.mp ha).1
    have hj : j < nodes.length := (List.getElem?_eq_some_iff.mp hb).1
    have hrelated : related config a b = true := related_iff.mpr (hakin.imp_right Or.inr)
    exact (hlists.together i j hi hj).mp ((h i j hi hj).mpr (linked_of_related ha hb hrelated))
  · rintro i j ⟨-, a, b, ha, hb, -, hmisread⟩
    exact absurd hmisread
      (not_or.mpr ⟨not_misread hclear (List.mem_of_getElem? ha), not_misread hclear (List.mem_of_getElem? hb)⟩)

/-- In an extraction whose symbols are all placed in the content every node has a chunk. -/
theorem shown_eq {e : Extraction} (h : e.Extracted) (hplaced : ∀ s ∈ e.symbols.symbols, s.Placed e.content) :
    shown e = e.symbolNodes :=
  List.filter_eq_self.mpr fun _ hn => decide_eq_true (h.lines_of_mem_symbolNodes hplaced hn)

end Chunk

namespace Chunker

open Chunk

/-- In a file with a tree over its content the chunks of related symbols are merged from the chunks by symbol, and two
symbols share one only if chains of related symbols link them.  All linked ones do exactly if chains of stand-ins lead as
well from each misread symbol to those with its parent or a similar name; no symbol is misread unless two symbols of one
name, category and line have different parents.  No two contents are taken to have one digest. -/
theorem chains_share_a_chunk (config : Config) (chunker : Chunker) (r : Request) (history : List Request)
    (hfits : ∀ r' ∈ r :: history, r'.Fits)
    (hdigests : ∀ r' ∈ history, ∀ content content', r'.Loads content → r.Loads content' →
      contentHash content = contentHash content' → content = content')
    {e : Extraction} (he : (((Extractor.ofConfig config).after history).answer r).1 = .ok e) :
    ∃ singles chunks groups,
      chunker.cut e "one-symbol-per-chunk" = .ok singles ∧ chunker.cut e "contextual-chunks" = .ok chunks ∧
      List.Forall₂ (Extraction.NodeOf e.path) e.symbols.symbols e.symbolNodes ∧
      List.Forall₂ (fun n c => c.Shows n) e.symbolNodes singles ∧
      List.Forall₂ (fun g c => MergedFrom (atPositions singles g) c) groups chunks ∧
      Chained chunker.config e.symbolNodes groups := by
  have hextracted : e.Extracted := ⟨_, r.disk, r.now, r.file, r.project, r.commit, he⟩
  have hshown := shown_eq hextracted (Extractor.placed_of_answer config hfits hdigests he)
  obtain ⟨singles, chunks, hsingles, hchunks, hshows, hmerged⟩ := cut_contextual chunker e
  obtain ⟨node, hnodes, hnode⟩ := hextracted.symbolNodes_eq
  have hchained := chained_group chunker.config e.symbolNodes
  unfold groupsOf at hmerged
  rw [hshown] at hshows hmerged
  refine ⟨singles, chunks, _, hsingles, hchunks, ?_, hshows, hmerged, hchained⟩
  rw [hnodes]
  exact List.forall₂_map_right_iff.mpr (List.forall₂_same.mpr fun s _ => hnode s)

/-- Two methods of one name in one line, of which the second has a sibling further down. -/
def confused : List Node :=
  [{ functionAt "m" (some "A") 1 with id := "m" }, { functionAt "m" (some "B") 1 with id := "m" },
   { functionAt "zeta" (some "B") 2 with id := "zeta" }]

-- the second method is taken for the first one, so its sibling stays alone
example : group { contextualLineDistance := 0 } (confused.map (standIn confused)) = [[0, 1], [2]] := by
  decide +kernel

example : relatedAt { contextualLineDistance := 0 } confused.toArray (1, 2) = true := by
  decide +kernel

/-- The tree of a method whose definition begins at a byte. -/
def methodAt (start : Nat) : Syntax.Tree :=
  .plain "function_definition" "" start (start + 13)
    [.plain "identifier" "name" (start + 4) (start + 5) [],
     .plain "parameters" "parameters" (start + 5) (start + 7) [],
     .plain "block" "body" (start + 9) (start + 13) []]

/-- The tree of a class with two methods, each in a line of its own. -/
def methodsApart : Syntax.Tree :=
  .plain "module" "" 0 40
    [.plain "class_definition" "" 0 40
      [.plain "identifier" "name" 6 7 [], .plain "block" "body" 11 40 [methodAt 11, methodAt 27]]]

/-- The text of the class. -/
def methodsText : String :=
  "class A:\n  def f(): pass\n  def g(): pass"

/-- The file of the class. -/
def methodsFile : Request :=
  { disk := .empty, now := 0, project := "demo", commit := none
    file := ⟨"m.py", some methodsText, false, none, none, some methodsApart⟩ }

theorem fits_methodsFile : methodsFile.Fits := by
  rintro content tree ⟨loaded, hload, rfl⟩ htree
  cases hload
  cases htree
  decide

theorem symbols_methodsApart :
    ((Support.builtin .python).symbols methodsText methodsApart).symbols.map
      (fun s => (s.name, s.parent, s.startLine)) = [("A", none, 1), ("f", some "A", 2), ("g", some "A", 3)] := by
  show (SymbolSet.collect .python methodsApart ((Syntax.Site.mk methodsApart []).gather _)).symbols.map _ = _
  unfold SymbolSet.collect
  dsimp only
  -- the symbols are found in the order of their positions
  rw [List.mergeSort_of_pairwise (by decide +kernel)]
  decide +kernel

/-- The extraction of the file. -/
def methodsExtraction : Extraction :=
  .ofSymbols ⟨.builtin, false⟩ 2 methodsFile.file ⟨"m.py", .python, methodsApart, methodsText⟩
    ((Support.builtin .python).symbols methodsText methodsApart) "demo" none

theorem exists_nodes_methodsExtraction :
    ∃ a b c, methodsExtraction.symbolNodes = [a, b, c] ∧ (a.name, a.parent, a.startLine) = ("A", none, 1) ∧
      (b.name, b.parent, b.startLine) = ("f", some "A", 2) ∧ (c.name, c.parent, c.startLine) = ("g", some "A", 3) := by
  have hnodes : methodsExtraction.symbolNodes.map (fun n => (n.name, n.parent, n.startLine)) =
      [("A", none, 1), ("f", some "A", 2), ("g", some "A", 3)] := by
    rw [methodsExtraction, Extraction.symbolNodes_ofSymbols, List.map_map, ← symbols_methodsApart]
    rfl
  obtain ⟨a, l, hl, ha, hnodes⟩ := List.map_eq_cons_iff.mp hnodes
  obtain ⟨b, m, rfl, hb, hnodes⟩ := List.map_eq_cons_iff.mp hnodes
  obtain ⟨c, n, rfl, hc, hnodes⟩ := List.map_eq_cons_iff.mp hnodes
  rw [List.map_eq_nil_iff.mp hnodes] at hl
  exact ⟨a, b, c, hl, ha, hb, hc⟩

/-- The two methods share a chunk for their class, which has one of its own. -/
theorem chains_share_a_chunk_methods :
    ∃ e singles chunks groups, (((Extractor.ofConfig {}).after []).answer methodsFile).1 = .ok e ∧
      e.symbolNodes.map (·.name) = ["A", "f", "g"] ∧
      (new { contextualLineDistance := 0 }).cut e "one-symbol-per-chunk" = .ok singles ∧
      (new { contextualLineDistance := 0 }).cut e "contextual-chunks" = .ok chunks ∧
      List.Forall₂ (fun g c => MergedFrom (atPositions singles g) c) groups chunks ∧
      Together groups 1 2 ∧ ¬ Together groups 0 1 := by
  have he : (((Extractor.ofConfig {}).after []).answer methodsFile).1 = .ok methodsExtraction :=
    (Extraction.fresh_eq rfl {} .empty 0 "demo" none).trans rfl
  obtain ⟨singles, chunks, groups, hsingles, hchunks, -, -, hmerged, hchained⟩ :=
    chains_share_a_chunk {} (new { contextualLineDistance := 0 }) methodsFile []
      (List.forall_mem_singleton.mpr fits_methodsFile) (fun r' hr' => absurd hr' List.not_mem_nil) he
  obtain ⟨a, b, c, hnodes, ha, hb, hc⟩ := exists_nodes_methodsExtraction
  simp only [Prod.mk.injEq] at ha hb hc
  rw [hnodes] at hchained
  have hclear : Unambiguous [a, b, c] := unambiguous_of_nodup (by simp [ha, hb, hc])
  have hrelated : ∀ y ∈ [b, c], related { contextualLineDistance := 0 } a y = false := by
    simp only [List.forall_mem_cons, related, ha, hb, hc]
    decide +kernel
  -- no related node leads away from the class
  have hapart : ∀ i j, Linked { contextualLineDistance := 0 } [a, b, c] i j → (i = 0 ↔ j = 0) := by
    intro i j h
    induction h with
    | rel i j h =>
      obtain ⟨hij, x, y, hx, hy, h⟩ := h
      refine iff_of_false ?_ (by omega)
      rintro rfl
      obtain ⟨k, rfl⟩ := Nat.exists_eq_add_of_lt hij
      rw [Nat.zero_add, List.getElem?_cons_succ] at hy
      rw [List.getElem?_cons_zero, Option.some_inj] at hx
      rw [← hx, hrelated y (List.mem_of_getElem? hy)] at h
      cases h
    | refl i => rfl
    | symm _ _ _ ih => exact ih.symm
    | trans _ _ _ _ _ ih ih' => exact ih.trans ih'
  refine ⟨methodsExtraction, singles, chunks, groups, he, ?_, hsingles, hchunks, hmerged, ?_, fun h => ?_⟩
  · rw [hnodes]
    simp [ha, hb, hc]
  · refine (hchained.together_of_unambiguous hclear 1 2 (Nat.lt_add_one_of_lt (Nat.lt_add_one 1)) (Nat.lt_add_one 2)).mpr ?_
    exact linked_of_related rfl rfl (related_iff.mpr (Or.inl ⟨by rw [hb.2.1]; rfl, by rw [hb.2.1, hc.2.1]⟩))
  · exact absurd ((hapart 0 1 (hchained.linked 0 1 h)).mp rfl) Nat.one_ne_zero

end Chunker

end CodeAtlas
