/-
  What the identifiers of chunks tell.

  The nodes of a file have one path, so the chunk of a node has an identifier that tells its name, category and first line
  among them, and nothing more (`Chunk.stableId_partsOf_eq_iff`).  Chunks by symbol and by function are told apart exactly
  if no two of their nodes agree in all three.  Nodes that start in one line are related and share a chunk, so chunks of
  related symbols are always told apart (`Chunk.nodup_contextual`), and so are comment blocks, which start in lines of
  their own (`CommentBlock.pairwise_startLine`).  The main result is `Chunker.chunk_ids_distinct_iff`.
-/
import CodeAtlas.Proofs.Chunk.Related
import CodeAtlas.Proofs.Comment
import CodeAtlas.Proofs.Digest.Family
import Mathlib.Data.List.Pairwise

namespace CodeAtlas

/-- Two keys that agree on the same elements of a list are repeated in it alike. -/
theorem nodup_map_iff {α β γ : Type} {l : List α} {f : α → β} {g : α → γ}
    (h : ∀ a ∈ l, ∀ b ∈ l, (f a = f b ↔ g a = g b)) : (l.map f).Nodup ↔ (l.map g).Nodup := by
  unfold List.Nodup
  rw [List.pairwise_map, List.pairwise_map]
  constructor
  · intro hf
    exact hf.imp_of_mem fun ha hb hne heq => hne ((h _ ha _ hb).mpr heq)
  · intro hg
    exact hg.imp_of_mem fun ha hb hne heq => hne ((h _ ha _ hb).mp heq)

/-- Of lists without repetitions, among themselves neither, only one holds an element. -/
theorem eq_of_nodup_flatten {α : Type} {lists : List (List α)} (h : lists.flatten.Nodup) {l l' : List α} (hl : l ∈ lists)
    (hl' : l' ∈ lists) {a : α} (ha : a ∈ l) (ha' : a ∈ l') : l = l' := by
  have : Std.Symm (List.Disjoint : List α → List α → Prop) := ⟨fun _ _ hd _ hb hb' => hd hb' hb⟩
  by_contra hne
  exact (List.nodup_flatten.mp h).2.forall hl hl' hne ha ha'

/-! ## Nodes -/

namespace Node

/-- The parts that the identifier of a node is made of. -/
def parts (n : Node) : List String :=
  [n.name, n.type.name, n.path]

/-- The name, the category and the first line of a node. -/
def heading (n : Node) : String × NodeType × Nat :=
  (n.name, n.type, n.startLine)

end Node

/-- A tag between two parts of which the last is known tells the first one, whatever characters they have. -/
theorem eq_of_idPreimage_eq {name name' tag tag' path : String} (htag : NulFree tag) (htag' : NulFree tag')
    (h : idPreimage [name, tag, path] = idPreimage [name', tag', path]) : name = name' ∧ tag = tag' := by
  have hsep : "\x00".toList = ['\x00'] := rfl
  have hjoin (name tag : String) : idPreimage [name, tag, path] = name ++ "\x00" ++ tag ++ ("\x00" ++ path) := by
    have hlast : Text.join "\x00" ([name] ++ [tag] ++ [path]) = name ++ "\x00" ++ tag ++ "\x00" ++ path := by
      rw [Text.join_concat (by simp), Text.join_concat (by simp), Text.join_singleton]
    rw [← String.append_assoc]
    exact hlast
  rw [hjoin, hjoin, String.append_left_inj] at h
  have hcut := congrArg (Text.cutLast? "\x00") h
  rw [Text.cutLast?_append hsep name htag, Text.cutLast?_append hsep name' htag'] at hcut
  exact Prod.ext_iff.mp (Option.some.inj hcut)

namespace Chunk

variable {e : Extraction} {job : Job} {type : ChunkType} {a b n : Node} {i j : Nat}

theorem mem_nodes_of_shown (hn : n ∈ shown e) : n ∈ e.nodes :=
  List.mem_of_mem_filter (List.mem_of_mem_filter hn)

/-- The identifier of the chunk of a node tells the identifier and the first line of the node. -/
theorem eq_of_stableId_partsOf_eq (h : e.Extracted) {identified : List (List String)}
    (hcollision : NoCollision identified) (ha : a ∈ e.nodes) (hb : b ∈ e.nodes)
    (hchunks : partsOf type a ∈ identified ∧ partsOf type b ∈ identified)
    (heq : stableId (partsOf type a) = stableId (partsOf type b)) : a.id = b.id ∧ a.startLine = b.startLine := by
  have hfree {n : Node} (hn : n ∈ e.nodes) : NulFree n.id := by
    rw [(h.of_mem_nodes hn).2]
    exact nulFree_stableId _
  have hparts := hcollision.eq_of_stableId_eq hchunks.1 hchunks.2 (List.cons_ne_nil _ _) (List.cons_ne_nil _ _)
    (nulFree_partsOf type (hfree ha)) (nulFree_partsOf type (hfree hb)) heq
  unfold partsOf at hparts
  simp only [List.cons.injEq, true_and, and_true] at hparts
  exact ⟨hparts.1, eq_of_toString_eq hparts.2⟩

/-- Chunks of one type have one identifier when their nodes agree in name, category and first line. -/
theorem stableId_partsOf_eq_iff (h : e.Extracted) {identified : List (List String)} (hcollision : NoCollision identified)
    (ha : a ∈ e.nodes) (hb : b ∈ e.nodes) (hnodes : a.parts ∈ identified ∧ b.parts ∈ identified)
    (hchunks : partsOf type a ∈ identified ∧ partsOf type b ∈ identified) :
    stableId (partsOf type a) = stableId (partsOf type b) ↔ a.heading = b.heading := by
  obtain ⟨hpatha, hida⟩ := h.of_mem_nodes ha
  obtain ⟨hpathb, hidb⟩ := h.of_mem_nodes hb
  constructor
  · intro heq
    obtain ⟨hid, hline⟩ := eq_of_stableId_partsOf_eq h hcollision ha hb hchunks heq
    rw [hida, hidb] at hid
    have hpreimage := hcollision _ hnodes.1 _ hnodes.2 hid
    -- the paths are the same, so names and categories cannot be shifted against each other
    unfold Node.parts at hpreimage
    rw [hpatha, hpathb] at hpreimage
    obtain ⟨hname, htag⟩ := eq_of_idPreimage_eq a.type.nulFree_name b.type.nulFree_name hpreimage
    exact Prod.ext hname (Prod.ext (NodeType.name_inj htag) hline)
  · intro heq
    unfold Node.heading at heq
    simp only [Prod.mk.injEq] at heq
    unfold partsOf
    rw [hida, hidb, hpatha, hpathb, heq.1, heq.2.1, heq.2.2]

/-! ## Chunks of nodes -/

theorem map_id_ofSymbols (job : Job) (type : ChunkType) (keep : Node → Bool) :
    (ofSymbols job type keep).map (·.id) =
      ((shown job.extraction).filter keep).map fun n => stableId (partsOf type n) := by
  rw [← List.forall₂_eq_eq_eq, List.forall₂_map_left_iff, List.forall₂_map_right_iff]
  exact (forall₂_ofSymbols_filter job type keep).flip.imp fun c n hc => id_of_ofNode? hc

/-- The chunks of nodes are told apart exactly if no two nodes have one heading. -/
theorem nodup_ofSymbols_iff (h : job.extraction.Extracted) {keep : Node → Bool}
    (hcollision : NoCollision (((shown job.extraction).filter keep).flatMap fun n => [n.parts, partsOf type n])) :
    ((ofSymbols job type keep).map (·.id)).Nodup ↔ (((shown job.extraction).filter keep).map Node.heading).Nodup := by
  rw [map_id_ofSymbols]
  refine nodup_map_iff fun a ha b hb => ?_
  have hmem {n : Node} (hn : n ∈ (shown job.extraction).filter keep) :
      n.parts ∈ ((shown job.extraction).filter keep).flatMap (fun n => [n.parts, partsOf type n]) ∧
        partsOf type n ∈ ((shown job.extraction).filter keep).flatMap fun n => [n.parts, partsOf type n] :=
    ⟨List.mem_flatMap.mpr ⟨n, hn, List.mem_cons_self⟩,
      List.mem_flatMap.mpr ⟨n, hn, List.mem_cons_of_mem _ (List.mem_singleton_self _)⟩⟩
  exact stableId_partsOf_eq_iff h hcollision (mem_nodes_of_shown (List.mem_of_mem_filter ha))
    (mem_nodes_of_shown (List.mem_of_mem_filter hb)) ⟨(hmem ha).1, (hmem hb).1⟩ ⟨(hmem ha).2, (hmem hb).2⟩

/-! ## Chunks of related symbols -/

/-- The parts that the identifier of the chunk of a group is made of. -/
def partsOfGroup (e : Extraction) (g : List Nat) : List String :=
  "contextual" :: (atPositions (shown e) g).map fun n => stableId (partsOf .context n)

theorem nulFree_partsOfGroup (e : Extraction) (g : List Nat) : ∀ s ∈ partsOfGroup e g, NulFree s := by
  exact List.forall_mem_cons.mpr ⟨by decide, List.forall_mem_map.mpr fun n _ => nulFree_stableId _⟩

theorem map_id_contextual (job : Job) :
    (contextual job).map (·.id) =
      (groupsOf job.config job.extraction).map fun g => stableId (partsOfGroup job.extraction g) := by
  rw [← List.forall₂_eq_eq_eq, List.forall₂_map_left_iff, List.forall₂_map_right_iff]
  refine (forall₂_contextual_merge job).flip.imp fun c g hmerge => ?_
  obtain ⟨first, rest, hparts, rfl⟩ := hmerge
  show stableId ("contextual" :: (first :: rest).map (·.id)) = _
  rw [← hparts, ← atPositions_map, map_id_ofSymbols, List.filter_true, atPositions_map]
  rfl

/-- Nodes that start in one line are in one group. -/
theorem together_of_startLine_eq (config : ChunkingConfig) (ha : (shown e)[i]? = some a) (hb : (shown e)[j]? = some b)
    (h : a.startLine = b.startLine) : Together (groupsOf config e) i j := by
  have hline {n : Node} {k : Nat} (hn : (shown e)[k]? = some n) : (standIn e.symbolNodes n).startLine = n.startLine :=
    (standIn_mem (List.mem_of_mem_filter (List.mem_of_getElem? hn))).2.2
  have hstandIn {n : Node} {k : Nat} (hn : (shown e)[k]? = some n) :
      ((shown e).map (standIn e.symbolNodes))[k]? = some (standIn e.symbolNodes n) := by
    rw [List.getElem?_map, hn]
    rfl
  refine ((listsComponents_groupsOf config e).together i j (List.getElem?_eq_some_iff.mp ha).1
    (List.getElem?_eq_some_iff.mp hb).1).mpr ?_
  refine linked_of_related (hstandIn ha) (hstandIn hb) (related_of_startLine_eq ?_)
  rw [hline ha, hline hb, h]

/-- Groups with one identifier have nodes that start in one line. -/
theorem exists_startLine_eq (h : e.Extracted) {identified : List (List String)} (hcollision : NoCollision identified)
    (hchunks : ∀ n ∈ shown e, partsOf .context n ∈ identified) {g g' : List Nat} (hg : i ∈ g) (hi : i < (shown e).length)
    (heq : partsOfGroup e g = partsOfGroup e g') :
    ∃ j ∈ g', ∃ a b, (shown e)[i]? = some a ∧ (shown e)[j]? = some b ∧ a.startLine = b.startLine := by
  have ha := List.getElem?_eq_getElem hi
  have hmem : stableId (partsOf .context (shown e)[i]) ∈
      (atPositions (shown e) g').map fun n => stableId (partsOf .context n) := by
    rw [← (List.cons.inj heq).2]
    exact List.mem_map_of_mem (List.mem_filterMap.mpr ⟨i, hg, ha⟩)
  obtain ⟨b, hb, hid⟩ := List.mem_map.mp hmem
  obtain ⟨j, hj, hb⟩ := List.mem_filterMap.mp hb
  have hmema := List.mem_of_getElem? ha
  have hmemb := List.mem_of_getElem? hb
  obtain ⟨-, hline⟩ := eq_of_stableId_partsOf_eq h hcollision (mem_nodes_of_shown hmemb) (mem_nodes_of_shown hmema)
    ⟨hchunks _ hmemb, hchunks _ hmema⟩ hid
  exact ⟨j, hj, _, b, ha, hb, hline.symm⟩

/-- The chunks of related symbols are told apart. -/
theorem nodup_contextual (h : job.extraction.Extracted)
    (hcollision : NoCollision ((shown job.extraction).map (partsOf .context) ++
      (groupsOf job.config job.extraction).map (partsOfGroup job.extraction))) :
    ((contextual job).map (·.id)).Nodup := by
  have hlists := listsComponents_groupsOf job.config job.extraction
  have hnodup : (groupsOf job.config job.extraction).flatten.Nodup := hlists.once.nodup_iff.mpr List.nodup_range
  have hgroup {g : List Nat} (hg : g ∈ groupsOf job.config job.extraction) :
      partsOfGroup job.extraction g ∈ (shown job.extraction).map (partsOf .context) ++
        (groupsOf job.config job.extraction).map (partsOfGroup job.extraction) :=
    List.mem_append_right _ (List.mem_map_of_mem hg)
  rw [map_id_contextual]
  refine List.pairwise_map.mpr ((List.nodup_flatten.mp hnodup).2.imp_of_mem fun {g g'} hg hg' hapart heq => ?_)
  have hparts := hcollision.eq_of_stableId_eq (hgroup hg) (hgroup hg') (List.cons_ne_nil _ _) (List.cons_ne_nil _ _)
    (nulFree_partsOfGroup _ g) (nulFree_partsOfGroup _ g') heq
  obtain ⟨i, hi⟩ := hlists.exists_mem hg
  obtain ⟨j, hj, a, b, ha, hb, hline⟩ := exists_startLine_eq h hcollision
    (fun n hn => List.mem_append_left _ (List.mem_map_of_mem hn)) hi (hlists.lt_of_mem hg hi) hparts
  obtain ⟨both, hboth, hiboth, hjboth⟩ := together_of_startLine_eq job.config ha hb hline
  -- a position is in one group only, so both groups are the one that holds the two positions
  rw [eq_of_nodup_flatten hnodup hg hboth hi hiboth, eq_of_nodup_flatten hnodup hg' hboth hj hjboth] at hapart
  exact hapart hiboth hiboth

/-! ## Chunks of comment blocks -/

/-- The parts that the identifier of the chunk of a comment block is made of. -/
def partsOfBlock (path : String) (b : CommentBlock) : List String :=
  ["documentation", Extraction.fileIdAt path, toString b.startLine]

/-- The chunks of comment blocks are told apart. -/
theorem nodup_documentation (h : job.extraction.Extracted)
    (hcollision : NoCollision ((CommentBlock.all job.extraction.content job.comments).map
      (partsOfBlock job.extraction.path))) :
    ((documentation job).map (·.id)).Nodup := by
  obtain ⟨file, hfile, -, hid⟩ := h.fileNode?_eq
  have hfree (b : CommentBlock) : ∀ s ∈ partsOfBlock job.extraction.path b, NulFree s := by
    unfold partsOfBlock
    simp only [List.forall_mem_cons]
    exact ⟨by decide, nulFree_stableId _, nulFree_repr _, List.forall_mem_nil _⟩
  unfold documentation
  rw [hfile]
  dsimp only
  rw [List.map_map]
  refine List.pairwise_map.mpr (((CommentBlock.pairwise_startLine _ _).filter _).imp_of_mem fun {a b} ha hb hlt heq => ?_)
  have hmem {b : CommentBlock} {keep : CommentBlock → Bool}
      (hb : b ∈ (CommentBlock.all job.extraction.content job.comments).filter keep) :=
    List.mem_map_of_mem (f := partsOfBlock job.extraction.path) (List.mem_of_mem_filter hb)
  have hids : stableId (partsOfBlock job.extraction.path a) = stableId (partsOfBlock job.extraction.path b) := by
    unfold partsOfBlock
    rw [← hid]
    exact heq
  have hparts := hcollision.eq_of_stableId_eq (hmem ha) (hmem hb) (List.cons_ne_nil _ _) (List.cons_ne_nil _ _)
    (hfree a) (hfree b) hids
  unfold partsOfBlock at hparts
  simp only [List.cons.injEq, true_and, and_true] at hparts
  exact Nat.ne_of_lt hlt (eq_of_toString_eq hparts)

end Chunk

/-! ## All strategies -/

open Chunk

namespace ChunkStrategy

/-- The lists of parts that are digested for the chunks of a file and for the nodes that these are told by. -/
def digested (job : Job) : ChunkStrategy → List (List String)
  | .oneSymbol => ((shown job.extraction).filter fun _ => true).flatMap fun n => [n.parts, partsOf .symbol n]
  | .oneFunction =>
    ((shown job.extraction).filter fun n => n.type == .function).flatMap fun n => [n.parts, partsOf .function n]
  | .contextual =>
    (shown job.extraction).map (partsOf .context) ++
      (groupsOf job.config job.extraction).map (partsOfGroup job.extraction)
  | .documentation =>
    (CommentBlock.all job.extraction.content job.comments).map (partsOfBlock job.extraction.path)

/-- Whether a strategy cuts no two chunks from nodes of one name, category and first line. -/
def TellsApart (e : Extraction) : ChunkStrategy → Prop
  | .oneSymbol => ((shown e).map Node.heading).Nodup
  | .oneFunction => (((shown e).filter fun n => n.type == .function).map Node.heading).Nodup
  | .contextual | .documentation => True

theorem ofName?_name (strategy : ChunkStrategy) : ofName? strategy.name = some strategy := by
  cases strategy <;> decide

end ChunkStrategy

namespace Chunker

theorem cut_name (chunker : Chunker) (e : Extraction) (strategy : ChunkStrategy) :
    chunker.cut e strategy.name = .ok (strategy.cut (chunker.jobOf e)) := by
  unfold cut
  rw [ChunkStrategy.ofName?_name]
  rfl

/-- The chunks of a file have identifiers of their own, by symbol and by function exactly if no two of their nodes have one
name, category and first line, and always by groups of related symbols and by comment blocks.  No two of the digested texts
collide. -/
theorem chunk_ids_distinct_iff (chunker : Chunker) {e : Extraction} (h : e.Extracted) (strategy : ChunkStrategy)
    (hcollision : NoCollision (strategy.digested (chunker.jobOf e))) :
    ∃ chunks, chunker.cut e strategy.name = .ok chunks ∧
      ((chunks.map (·.id)).Nodup ↔ strategy.TellsApart e) := by
  refine ⟨_, chunker.cut_name e strategy, ?_⟩
  cases strategy with
  | contextual => exact iff_of_true (nodup_contextual h hcollision) trivial
  | documentation => exact iff_of_true (nodup_documentation h hcollision) trivial
  | oneFunction => exact nodup_ofSymbols_iff h hcollision
  | oneSymbol =>
    show ((ofSymbols (chunker.jobOf e) .symbol fun _ => true).map (·.id)).Nodup ↔ ((shown e).map Node.heading).Nodup
    rw [nodup_ofSymbols_iff h hcollision, List.filter_true]
    rfl

/-- The nodes of the file with two functions of one name have one heading and chunks with one identifier. -/
theorem shown_twins :
    (shown Extraction.twins).length = 2 ∧
      ∀ n ∈ shown Extraction.twins, n.heading = ("f", .function, 1) ∧ n.parts = ["f", "Function", "m.js"] ∧
        partsOf .symbol n = ["chunk", Node.idFor "f" .function "m.js", "symbol", toString 1] := by
  obtain ⟨s, t, hsymbols, hs, ht⟩ := Extraction.exists_symbols_twins
  simp only [Prod.mk.injEq] at hs ht
  have hplaced : ∀ s ∈ Extraction.twins.symbols.symbols, s.Placed Extraction.twinsText :=
    fun s hs => Support.placed_of_mem_symbols (by decide) hs
  have hnodes : shown Extraction.twins = [s, t].map fun s => Node.ofSymbol s "m.js" .javascript "demo" none := by
    rw [shown_eq Extraction.produced_twins.extracted hplaced, ← hsymbols]
    exact Extraction.symbolNodes_ofSymbols ..
  rw [hnodes]
  refine ⟨rfl, List.forall_mem_map.mpr fun s' hs' => ?_⟩
  have hfunction : s'.name = "f" ∧ s'.kind = .function ∧ s'.startLine = 1 := by
    rcases List.mem_pair.mp hs' with rfl | rfl
    · exact ⟨hs.1, hs.2.1, hs.2.2.1⟩
    · exact ⟨ht.1, ht.2.1, ht.2.2.1⟩
  unfold Node.heading Node.parts partsOf Node.ofSymbol
  rw [hfunction.1, hfunction.2.1, hfunction.2.2]
  exact ⟨rfl, rfl, rfl⟩

/-- Two functions of one name in one line have chunks with one identifier. -/
theorem chunk_ids_distinct_iff_twins :
    Extraction.twins.Extracted ∧ ∃ chunks, (new {}).cut Extraction.twins "one-symbol-per-chunk" = .ok chunks ∧
      chunks.length = 2 ∧ ¬ (chunks.map (·.id)).Nodup := by
  obtain ⟨hlength, hnodes⟩ := shown_twins
  obtain ⟨first, second, hshown⟩ := List.length_eq_two.mp hlength
  rw [hshown] at hnodes
  simp only [List.forall_mem_cons] at hnodes
  obtain ⟨⟨hheading, hparts, hchunk⟩, ⟨hheading', hparts', hchunk'⟩, -⟩ := hnodes
  have hextracted := Extraction.produced_twins.extracted
  have hdigested : ChunkStrategy.oneSymbol.digested ((new {}).jobOf Extraction.twins) ⊆
      [["f", "Function", "m.js"], ["chunk", Node.idFor "f" .function "m.js", "symbol", toString 1]] := by
    show ((shown Extraction.twins).filter fun _ => true).flatMap _ ⊆ _
    rw [hshown]
    simp [hparts, hchunk, hparts', hchunk']
  have hcollision : NoCollision
      [["f", "Function", "m.js"], ["chunk", Node.idFor "f" .function "m.js", "symbol", toString 1]] := by
    decide +kernel
  obtain ⟨chunks, hcut, hiff⟩ := chunk_ids_distinct_iff (new {}) hextracted .oneSymbol (hcollision.mono hdigested)
  refine ⟨hextracted, chunks, hcut, ?_, fun hnodup => ?_⟩
  · rw [← Except.ok.inj (((new {}).cut_name Extraction.twins .oneSymbol).symm.trans hcut)]
    exact (forall₂_ofSymbols ((new {}).jobOf Extraction.twins) .symbol).length_eq.symm.trans hlength
  · have hheadings : ((shown Extraction.twins).map Node.heading).Nodup := hiff.mp hnodup
    rw [hshown] at hheadings
    simp [hheading, hheading'] at hheadings

end Chunker

end CodeAtlas
