/-
  What a merged node covers.

  The symbols of a file come in the order of their positions, cached ones included (`Extraction.Produced.inOrder`), and
  nodes with one identifier come from one file.  So the first of them starts first, and what they are merged into covers
  them all in lines and at its start.  The bytes at which they end are not merged: a merged node ends where the first one
  does (`byteEnd_of_mem_build`), and so it covers the others exactly if the first one ends last (`merged_nodes_cover_iff`).
-/
import CodeAtlas.Proofs.Analysis.Order
import CodeAtlas.Proofs.Extraction.Placed
import CodeAtlas.Proofs.Graph.Dedup
import CodeAtlas.Proofs.Symbol.WellFormed

namespace CodeAtlas

/-! ## The order of symbols -/

/-- The symbols come in the order of their positions, and their lines are counted from 1. -/
structure SymbolSet.InOrder (set : SymbolSet) : Prop where
  startLine_pos : ∀ s ∈ set.symbols, 0 < s.startLine
  ordered : set.symbols.Pairwise fun a b => a.startLine ≤ b.startLine ∧ a.byteStart ≤ b.byteStart

theorem Support.inOrder_symbols (language : Language) {source : String} {root : Syntax.Tree}
    (hroot : root.Fits source.utf8ByteSize) : ((builtin language).symbols source root).InOrder := by
  have hplaced : ∀ s ∈ ((builtin language).symbols source root).symbols, s.Placed source :=
    fun _ hs => placed_of_mem_symbols hroot hs
  obtain ⟨rule, hrule⟩ := exists_rule language
  unfold symbols at hplaced ⊢
  rw [hrule] at hplaced ⊢
  refine ⟨fun s hs => (hplaced s hs).startLine_pos, ?_⟩
  refine (SymbolSet.ordered_collect _ _ _).imp_of_mem fun {a b} ha hb hab => ?_
  rw [SymbolSet.before_iff] at hab
  have hbytes : a.byteStart ≤ b.byteStart := by omega
  -- the lines are the rows of these bytes
  rw [(hplaced a ha).startLine_eq, (hplaced b hb).startLine_eq]
  exact ⟨Nat.succ_le_succ (Text.row_mono _ hbytes), hbytes⟩

namespace Node

/-- One node starts no later than another. -/
structure StartsBy (n m : Node) : Prop where
  startLine : n.startLine ≤ m.startLine
  byteStart : n.byteStart ≤ m.byteStart

/-- One node covers another, in lines and in bytes. -/
structure Covers (n m : Node) : Prop where
  startLine : n.startLine ≤ m.startLine
  endLine : m.endLine ≤ n.endLine
  byteStart : n.byteStart ≤ m.byteStart
  byteEnd : m.byteEnd ≤ n.byteEnd

/-- What ordered nodes are merged into starts first and has the last line of all. -/
theorem MergedFrom.startsBy {nodes : List Node} {n m : Node} (h : n.MergedFrom nodes) (hordered : nodes.Pairwise StartsBy)
    (hm : m ∈ nodes) : n.StartsBy m ∧ m.endLine ≤ n.endLine := by
  obtain ⟨first, hfirst, hn⟩ := h.first
  obtain ⟨rest, rfl⟩ := List.head?_eq_some_iff.mp hfirst
  refine ⟨?_, h.endLine.2 ⟨m, hm, rfl⟩⟩
  have hstarts : first.StartsBy m := by
    rcases List.mem_cons.mp hm with rfl | hrest
    · exact ⟨Nat.le_refl _, Nat.le_refl _⟩
    · exact (List.pairwise_cons.mp hordered).1 m hrest
  rw [hn]
  exact ⟨hstarts.startLine, hstarts.byteStart⟩

end Node

namespace Extraction

variable {e : Extraction}

theorem Produced.inOrder (h : e.Produced) : e.symbols.InOrder := by
  refine h.symbols ⟨fun s hs => absurd hs List.not_mem_nil, List.Pairwise.nil⟩ fun engine parsed hregistry htree => ?_
  unfold Engine.symbols
  rw [hregistry, Registry.getD_builtin]
  exact Support.inOrder_symbols _ htree

/-- The node of a file starts before those of its symbols, and these in their order. -/
theorem Produced.startsBy (h : e.Produced) : e.nodes.Pairwise Node.StartsBy := by
  have hinOrder := h.inOrder
  rcases h.extracted.cases with ⟨file, content, project, commit, rfl⟩ | ⟨_, _, file, parsed, symbols, project, commit, rfl⟩
  · exact List.pairwise_singleton _ _
  · refine List.pairwise_cons.mpr ⟨fun n hn => ?_, List.pairwise_map.mpr (hinOrder.ordered.imp fun hab => ⟨hab.1, hab.2⟩)⟩
    obtain ⟨s, hs, rfl⟩ := List.mem_map.mp hn
    exact ⟨hinOrder.startLine_pos s hs, Nat.zero_le _⟩

/-- Of the nodes with one name and category, the first one ends last. -/
def FirstEndsLast (e : Extraction) : Prop :=
  ∀ m ∈ e.nodes, ∀ first, e.nodes.find? (fun k => k.name == m.name && k.type == m.type) = some first →
    m.byteEnd ≤ first.byteEnd

end Extraction

namespace Graph

open Analysis (listed)

variable {extractions : List Extraction} {dependencies : List Dependency} {maxHops : Nat} {e : Extraction} {n m : Node}

/-- What has a property comes from one element alone, if no other one contributes any of it. -/
theorem filter_flatMap_of_mem {α β : Type} {f : α → List β} {p : β → Bool} {l : List α} {a : α} (ha : a ∈ l)
    (hnodup : l.Nodup) (hone : ∀ b ∈ l, ∀ x ∈ f b, p x = true → b = a) : (l.flatMap f).filter p = (f a).filter p := by
  obtain ⟨before, after, rfl⟩ := List.append_of_mem ha
  have hrest : ((before ++ after).flatMap f).filter p = [] := by
    refine List.filter_eq_nil_iff.mpr fun x hx hp => ?_
    obtain ⟨b, hb, hx⟩ := List.mem_flatMap.mp hx
    have hba : b = a := hone b (List.perm_middle.mem_iff.mpr (List.mem_cons_of_mem a hb)) x hx hp
    exact (List.nodup_cons.mp (List.nodup_middle.mp hnodup)).1 (hba ▸ hb)
  rw [filter_flatMap_of_perm List.perm_middle fun b hb c hc x hx y hy hpx hpy =>
      (hone b hb x hx hpx).trans (hone c hc y hy hpy).symm,
    List.flatMap_cons, List.filter_append, hrest, List.append_nil]

/-- No two identifiers of nodes collide: nodes with the same identifier have the same name, category and path. -/
def TellsNodesApart (g : Graph) : Prop :=
  ∀ m ∈ g.nodes, ∀ n ∈ g.nodes, m.id = n.id → m.name = n.name ∧ m.type = n.type ∧ m.path = n.path

section

variable (hproduced : ∀ e ∈ extractions, e.Produced) (hpaths : (listed extractions).Nodup)
  (hids : TellsNodesApart (assemble extractions dependencies maxHops))

include hproduced hpaths hids

/-- The nodes with one identifier are those of one file with one name and category. -/
theorem nodes_with_id (he : e ∈ extractions) (hm : m ∈ e.nodes) :
    (assemble extractions dependencies maxHops).nodes.filter (fun k => k.id == m.id) =
      e.nodes.filter fun k => k.name == m.name && k.type == m.type := by
  have hmem {e : Extraction} (he : e ∈ extractions) {n : Node} (hn : n ∈ e.nodes) :
      n ∈ (assemble extractions dependencies maxHops).nodes := List.mem_flatMap.mpr ⟨e, he, hn⟩
  have hpath {e : Extraction} (he : e ∈ extractions) {n : Node} (hn : n ∈ e.nodes) :=
    (hproduced e he).extracted.of_mem_nodes hn
  show (extractions.flatMap (·.nodes)).filter _ = _
  rw [filter_flatMap_of_mem he (List.Nodup.of_map _ hpaths) fun e' he' k hk hid => ?_]
  · refine List.filter_congr fun k hk => ?_
    rw [Bool.eq_iff_iff, Bool.and_eq_true, beq_iff_eq, beq_iff_eq, beq_iff_eq]
    constructor
    · intro hid
      obtain ⟨hname, htype, -⟩ := hids k (hmem he hk) m (hmem he hm) hid
      exact ⟨hname, htype⟩
    · intro ⟨hname, htype⟩
      rw [(hpath he hk).2, (hpath he hm).2, hname, htype, (hpath he hk).1, (hpath he hm).1]
  · have hsame := hids k (hmem he' hk) m (hmem he hm) (beq_iff_eq.mp hid)
    refine List.inj_on_of_nodup_map hpaths he' he ?_
    show e'.path = e.path
    rw [← (hpath he' hk).1, ← (hpath he hm).1]
    exact hsame.2.2

/-- A node of the graph is merged from the nodes of one file with one name and category. -/
theorem mergedFrom_of_mem_build (hn : n ∈ (build extractions dependencies maxHops).nodes) (he : e ∈ extractions)
    (hm : m ∈ e.nodes) (hid : m.id = n.id) :
    n.MergedFrom (e.nodes.filter fun k => k.name == m.name && k.type == m.type) := by
  have hmerged := Node.mergedFrom_absorbed (mem_mergeNodes.mp hn)
  rw [← hid] at hmerged
  rwa [← nodes_with_id hproduced hpaths hids he hm]

/-- A merged node ends at the byte where the first of its nodes does. -/
theorem byteEnd_of_mem_build (hn : n ∈ (build extractions dependencies maxHops).nodes) (he : e ∈ extractions)
    (hm : m ∈ e.nodes) (hid : m.id = n.id) :
    ∃ first, e.nodes.find? (fun k => k.name == m.name && k.type == m.type) = some first ∧ n.byteEnd = first.byteEnd := by
  obtain ⟨first, hfirst, heq⟩ := (mergedFrom_of_mem_build hproduced hpaths hids hn he hm hid).first
  rw [List.head?_filter] at hfirst
  exact ⟨first, hfirst, by rw [heq]⟩

theorem startsBy_of_mem_build (hn : n ∈ (build extractions dependencies maxHops).nodes) (he : e ∈ extractions)
    (hm : m ∈ e.nodes) (hid : m.id = n.id) : n.StartsBy m ∧ m.endLine ≤ n.endLine := by
  have hmerged := mergedFrom_of_mem_build hproduced hpaths hids hn he hm hid
  refine hmerged.startsBy ((hproduced e he).startsBy.filter _) (List.mem_filter.mpr ⟨hm, ?_⟩)
  rw [beq_self_eq_true, beq_self_eq_true]
  rfl

end

/-- In files with trees over their contents, cached or not, a merged node starts no later than any node that is merged into
it, and its last line is no earlier.  It covers all of them in bytes as well exactly if, in every file, the first of the
nodes with one name and category ends last.  No two identifiers collide. -/
theorem merged_nodes_cover_iff (extractions : List Extraction) (hproduced : ∀ e ∈ extractions, e.Produced)
    (hpaths : (listed extractions).Nodup) (dependencies : List Dependency) (maxHops : Nat)
    (hids : TellsNodesApart (assemble extractions dependencies maxHops)) :
    (∀ n ∈ (build extractions dependencies maxHops).nodes, ∀ e ∈ extractions, ∀ m ∈ e.nodes, m.id = n.id →
      n.startLine ≤ m.startLine ∧ m.endLine ≤ n.endLine ∧ n.byteStart ≤ m.byteStart) ∧
    ((∀ n ∈ (build extractions dependencies maxHops).nodes, ∀ e ∈ extractions, ∀ m ∈ e.nodes, m.id = n.id → n.Covers m) ↔
      ∀ e ∈ extractions, e.FirstEndsLast) := by
  refine ⟨fun n hn e he m hm hid => ?_, fun hcovers e he m hm first hfirst => ?_, fun hlast n hn e he m hm hid => ?_⟩
  · obtain ⟨hstarts, hend⟩ := startsBy_of_mem_build hproduced hpaths hids hn he hm hid
    exact ⟨hstarts.startLine, hend, hstarts.byteStart⟩
  · -- some node of the graph has the identifier, and it ends where the first one does
    have hgraph : m.id ∈ (assemble extractions dependencies maxHops).dedup.1.nodeIds :=
      mem_nodeIds_dedup.mpr (mem_nodeIds_assemble.mpr ⟨e, he, List.mem_map_of_mem hm⟩)
    obtain ⟨n, hn, hid⟩ := List.mem_map.mp hgraph
    obtain ⟨first', hfirst', hends⟩ := byteEnd_of_mem_build hproduced hpaths hids hn he hm hid.symm
    rw [hfirst] at hfirst'
    rw [Option.some.inj hfirst', ← hends]
    exact (hcovers n hn e he m hm hid.symm).byteEnd
  · obtain ⟨hstarts, hend⟩ := startsBy_of_mem_build hproduced hpaths hids hn he hm hid
    obtain ⟨first, hfirst, hends⟩ := byteEnd_of_mem_build hproduced hpaths hids hn he hm hid
    exact ⟨hstarts.startLine, hend, hstarts.byteStart, hends ▸ hlast e he m hm first hfirst⟩

/-- The file with two functions of one name has nodes of two kinds. -/
theorem exists_nodes_twins : ∃ file first second, Extraction.twins.nodes = [file, first, second] ∧
    (file.name, file.type, file.path) = ("m.js", .file, "m.js") ∧
    (first.name, first.type, first.path, first.byteEnd) = ("f", .function, "m.js", 15) ∧
    (second.name, second.type, second.path, second.byteEnd) = ("f", .function, "m.js", 31) := by
  obtain ⟨s, t, hsymbols, hs, ht⟩ := Extraction.exists_symbols_twins
  simp only [Prod.mk.injEq] at hs ht
  refine ⟨.ofFile "m.js" (some .javascript) Extraction.twinsText "demo" none, .ofSymbol s "m.js" .javascript "demo" none,
    .ofSymbol t "m.js" .javascript "demo" none, ?_, rfl, ?_, ?_⟩
  · show _ :: Extraction.twins.symbols.symbols.map _ = _
    rw [hsymbols]
    rfl
  · unfold Node.ofSymbol
    rw [hs.1, hs.2.1, hs.2.2.2]
    rfl
  · unfold Node.ofSymbol
    rw [ht.1, ht.2.1, ht.2.2.2]
    rfl

theorem tellsNodesApart_twins : TellsNodesApart (assemble [Extraction.twins] [] 2) := by
  obtain ⟨file, first, second, hnodes, hfile, hfirst, hsecond⟩ := exists_nodes_twins
  simp only [Prod.mk.injEq] at hfile hfirst hsecond
  have hdiffer : Node.idFor "m.js" .file "m.js" ≠ Node.idFor "f" .function "m.js" := by decide +kernel
  have hkinds : ∀ n ∈ Extraction.twins.nodes,
      n.path = "m.js" ∧ (n.name = "m.js" ∧ n.type = .file ∨ n.name = "f" ∧ n.type = .function) := by
    simp [hnodes, hfile, hfirst, hsecond]
  intro m hm n hn hid
  change m ∈ [Extraction.twins].flatMap (·.nodes) at hm
  change n ∈ [Extraction.twins].flatMap (·.nodes) at hn
  rw [List.flatMap_singleton] at hm hn
  obtain ⟨hmpath, hmkind⟩ := hkinds m hm
  obtain ⟨hnpath, hnkind⟩ := hkinds n hn
  rw [(Extraction.produced_twins.extracted.of_mem_nodes hm).2, (Extraction.produced_twins.extracted.of_mem_nodes hn).2,
    hmpath, hnpath] at hid
  rw [hmpath, hnpath]
  rcases hmkind with ⟨hmname, hmtype⟩ | ⟨hmname, hmtype⟩ <;>
    rcases hnkind with ⟨hnname, hntype⟩ | ⟨hnname, hntype⟩ <;> rw [hmname, hmtype, hnname, hntype] at hid ⊢
  · exact ⟨rfl, rfl, rfl⟩
  · exact absurd hid hdiffer
  · exact absurd hid.symm hdiffer
  · exact ⟨rfl, rfl, rfl⟩

/-- Two functions of one name are merged into the first one, which does not reach to the end of the second. -/
theorem merged_nodes_cover_iff_twins :
    Extraction.twins.Produced ∧ (listed [Extraction.twins]).Nodup ∧
      ∃ n ∈ (build [Extraction.twins] [] 2).nodes, ∃ m ∈ Extraction.twins.nodes, m.id = n.id ∧
        (n.startLine ≤ m.startLine ∧ m.endLine ≤ n.endLine ∧ n.byteStart ≤ m.byteStart) ∧ ¬ n.Covers m := by
  obtain ⟨file, first, second, hnodes, hfile, hfirst, hsecond⟩ := exists_nodes_twins
  simp only [Prod.mk.injEq] at hfile hfirst hsecond
  have hpaths : (listed [Extraction.twins]).Nodup := List.nodup_singleton _
  have hproduced := List.forall_mem_singleton.mpr Extraction.produced_twins
  obtain ⟨hlines, hcovers⟩ := merged_nodes_cover_iff [Extraction.twins] hproduced hpaths [] 2 tellsNodesApart_twins
  have hnot : ¬ ∀ e ∈ [Extraction.twins], e.FirstEndsLast := by
    intro hlast
    have hfind : Extraction.twins.nodes.find? (fun k => k.name == second.name && k.type == second.type) = some first := by
      rw [hnodes, List.find?_cons, List.find?_cons]
      simp [hfile, hfirst, hsecond]
    have hends := hlast _ List.mem_cons_self second (by simp [hnodes]) first hfind
    rw [hfirst.2.2.2, hsecond.2.2.2] at hends
    omega
  rw [← hcovers] at hnot
  push Not at hnot
  obtain ⟨n, hn, e, he, m, hm, hid, hncovers⟩ := hnot
  have hbounds := hlines n hn e he m hm hid
  rw [List.mem_singleton.mp he] at hm
  exact ⟨Extraction.produced_twins, hpaths, n, hn, m, hm, hid, hbounds, hncovers⟩

end Graph

end CodeAtlas
