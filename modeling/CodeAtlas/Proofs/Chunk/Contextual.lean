/-
  Chunks of several symbols.

  The chunks of related symbols are merged from the chunks by symbol at the positions of a group
  (`Chunker.cut_contextual`).  The groups list every position once, so nothing is lost
  (`Chunker.contextual_chunks_lose_nothing`).
-/
import CodeAtlas.Proofs.Chunk.Group
import CodeAtlas.Proofs.Chunk.Symbols
import Mathlib.Order.Bounds.Basic

namespace CodeAtlas

namespace Chunk

/-! ## Merging -/

theorem isLeast_foldl_min (a : Nat) (l : List Nat) : IsLeast {n | n ∈ a :: l} (l.foldl min a) :=
  List.min?_eq_some_iff.mp List.min?_cons'

theorem isGreatest_foldl_max (a : Nat) (l : List Nat) : IsGreatest {n | n ∈ a :: l} (l.foldl max a) :=
  List.max?_eq_some_iff.mp List.max?_cons'

/-- A chunk that holds some chunks, in their order. -/
structure MergedFrom (parts : List Chunk) (c : Chunk) : Prop where
  members : c.members = parts.map (·.symbolName)
  content : c.content = Text.join "\n\n" (parts.map (·.content))
  startLine : IsLeast {n | n ∈ parts.map (·.startLine)} c.startLine
  endLine : IsGreatest {n | n ∈ parts.map (·.endLine)} c.endLine
  usageCount : c.usageCount = (parts.map (·.usageCount)).foldl (· + ·) 0
  complexity : IsGreatest {n | n ∈ parts.map (·.complexity)} c.complexity

theorem mergedFrom_merge (first : Chunk) (rest : List Chunk) : MergedFrom (first :: rest) (merge first rest) where
  members := rfl
  content := rfl
  startLine := by
    have h := isLeast_foldl_min first.startLine (rest.map (·.startLine))
    rwa [List.foldl_map] at h
  endLine := by
    have h := isGreatest_foldl_max first.endLine (rest.map (·.endLine))
    rwa [List.foldl_map] at h
  usageCount := List.foldl_map.symm
  complexity := by
    have h := isGreatest_foldl_max first.complexity (rest.map (·.complexity))
    rwa [List.foldl_map] at h

variable {parts : List Chunk} {c : Chunk}

/-- What a chunk is merged from does not depend on the type of the parts. -/
theorem mergedFrom_map_asType (type : ChunkType) (h : MergedFrom (parts.map (asType type)) c) : MergedFrom parts c := by
  obtain ⟨hmembers, hcontent, hstart, hend, husage, hcomplexity⟩ := h
  simp only [List.map_map, Function.comp_def, asType_symbolName, asType_content, asType_startLine, asType_endLine,
    asType_usageCount, asType_complexity] at hmembers hcontent hstart hend husage hcomplexity
  exact ⟨hmembers, hcontent, hstart, hend, husage, hcomplexity⟩

/-! ## Positions -/

section Positions

variable {α : Type} {l : List α} {g : List Nat}

/-- What stands at some positions of a list. -/
def atPositions (l : List α) (g : List Nat) : List α :=
  g.filterMap fun i => l[i]?

theorem atPositions_range (l : List α) : atPositions l (List.range l.length) = l := by
  induction l using List.reverseRecOn with
  | nil => rfl
  | append_singleton l a ih =>
    unfold atPositions at ih ⊢
    rw [List.length_append, List.length_singleton, List.range_succ, List.filterMap_append]
    congr 1
    · conv_rhs => rw [← ih]
      refine List.filterMap_congr fun i hi => ?_
      exact List.getElem?_append_left (List.mem_range.mp hi)
    · rw [List.filterMap_cons, List.getElem?_concat_length]
      rfl

theorem atPositions_map {β : Type} (f : α → β) (l : List α) (g : List Nat) :
    atPositions (l.map f) g = (atPositions l g).map f := by
  unfold atPositions
  rw [List.map_filterMap]
  simp only [List.getElem?_map]

/-- At increasing positions the order of the list is kept. -/
theorem sublist_atPositions (hg : Increasing g) (hlt : ∀ i ∈ g, i < l.length) : (atPositions l g).Sublist l := by
  have hsub : g.Sublist (List.range l.length) := by
    have heq : g = (List.range l.length).filter fun i => i ∈ g := by
      refine eq_of_increasing hg ((Forest.increasing_range _).filter _) fun i => ?_
      rw [List.mem_filter, List.mem_range, decide_eq_true_eq]
      exact ⟨fun h => ⟨hlt i h, h⟩, fun h => h.2⟩
    rw [heq]
    exact List.filter_sublist
  have h : (atPositions l g).Sublist (atPositions l (List.range l.length)) := hsub.filterMap _
  rwa [atPositions_range] at h

/-- Groups that list each position once take each element once. -/
theorem perm_flatten_atPositions {groups : List (List Nat)} (h : groups.flatten.Perm (List.range l.length)) :
    (groups.map (atPositions l)).flatten.Perm l := by
  have hflat : (groups.map (atPositions l)).flatten = atPositions l groups.flatten := by
    unfold atPositions
    rw [List.filterMap_flatten]
  rw [hflat]
  exact (h.filterMap _).trans (List.Perm.of_eq (atPositions_range l))

end Positions

/-! ## Nodes -/

/-- The nodes whose lines are in the file, so that they have chunks. -/
def shown (e : Extraction) : List Node :=
  e.symbolNodes.filter fun n => 0 < n.startLine ∧ n.startLine ≤ e.lineCount ∧ n.startLine ≤ n.endLine

/-- A chunk with the identifier, the name and the lines of a node. -/
structure Shows (c : Chunk) (n : Node) : Prop where
  nodeId : c.nodeId = n.id
  symbolName : c.symbolName = n.name
  startLine : c.startLine = n.startLine
  endLine : c.endLine = n.endLine

/-- The nodes with chunks, of those that satisfy a condition, and the chunks of one type, one by one. -/
theorem forall₂_ofSymbols_filter (job : Job) (type : ChunkType) (keep : Node → Bool) :
    List.Forall₂ (fun n c => ofNode? job (Text.lines job.extraction.content) type n = some c)
      ((shown job.extraction).filter keep) (ofSymbols job type keep) := by
  have hall : ofSymbols job type keep =
      ((shown job.extraction).filter keep).filterMap (ofNode? job (Text.lines job.extraction.content) type) := by
    unfold ofSymbols shown
    rw [List.filter_filter, List.filterMap_filter, List.filterMap_filter]
    refine List.filterMap_congr fun n _ => ?_
    by_cases hshown : 0 < n.startLine ∧ n.startLine ≤ job.extraction.lineCount ∧ n.startLine ≤ n.endLine
    · rw [decide_eq_true hshown, Bool.and_true]
    · rw [decide_eq_false hshown, Bool.and_false, Option.not_isSome_iff_eq_none.mp (mt isSome_ofNode?_iff.mp hshown)]
      split <;> rfl
  rw [hall]
  refine forall₂_filterMap fun n hn => isSome_ofNode?_iff.mpr ?_
  exact of_decide_eq_true (List.mem_filter.mp (List.mem_of_mem_filter hn)).2

/-- The nodes with chunks and the chunks of one type, one by one. -/
theorem forall₂_ofSymbols (job : Job) (type : ChunkType) :
    List.Forall₂ (fun n c => ofNode? job (Text.lines job.extraction.content) type n = some c) (shown job.extraction)
      (ofSymbols job type fun _ => true) := by
  have h := forall₂_ofSymbols_filter job type fun _ => true
  rwa [List.filter_true] at h

theorem ofSymbols_asType (job : Job) (type : ChunkType) (keep : Node → Bool) :
    ofSymbols job type keep = (ofSymbols job .symbol keep).map (asType type) := by
  unfold ofSymbols
  rw [List.map_filterMap]
  exact List.filterMap_congr fun n _ => ofNode?_asType job _ type n

/-- The node that a node is taken for: the first one with its identifier and its first line. -/
def standIn (nodes : List Node) (n : Node) : Node :=
  (nodes.find? fun m => m.id == n.id && m.startLine == n.startLine).getD n

/-- A chunk is taken for that of the stand-in of its node. -/
theorem nodeOf?_eq {job : Job} {lines : List String} {type : ChunkType} {nodes : List Node} {n : Node} (hn : n ∈ nodes)
    (hc : ofNode? job lines type n = some c) : nodeOf? nodes c = some (standIn nodes n) := by
  obtain ⟨hid, -, hstart, -⟩ := of_ofNode? hc
  unfold nodeOf? standIn
  rw [hid, hstart]
  cases hfind : nodes.find? fun m => m.id == n.id && m.startLine == n.startLine with
  | none => exact absurd (List.find?_eq_none.mp hfind n hn) (by simp)
  | some m => rfl

/-- No chunk is lost when chunks are paired with nodes. -/
theorem filterMap_nodeOf? {job : Job} {lines : List String} {type : ChunkType} {nodes own : List Node}
    {chunks : List Chunk} (hown : ∀ n ∈ own, n ∈ nodes)
    (h : List.Forall₂ (fun n c => ofNode? job lines type n = some c) own chunks) :
    (chunks.filterMap fun c => (nodeOf? nodes c).map fun n => (n, c)) = (own.map (standIn nodes)).zip chunks := by
  induction h with
  | nil => rfl
  | cons hchunk _ ih =>
    rw [List.filterMap_cons, nodeOf?_eq (hown _ List.mem_cons_self) hchunk, List.map_cons, List.zip_cons_cons,
      ih fun n hn => hown n (List.mem_cons_of_mem _ hn)]
    rfl

/-- The positions, among the nodes with chunks, of those that share a chunk. -/
def groupsOf (config : ChunkingConfig) (e : Extraction) : List (List Nat) :=
  group config ((shown e).map (standIn e.symbolNodes))

theorem listsComponents_groupsOf (config : ChunkingConfig) (e : Extraction) :
    Forest.ListsComponents (shown e).length (RelatedAt config ((shown e).map (standIn e.symbolNodes)))
      (groupsOf config e) := by
  have h := listsComponents_group config ((shown e).map (standIn e.symbolNodes))
  rwa [List.length_map] at h

/-- The chunks of related symbols are made of the chunks at the positions of one group each. -/
theorem forall₂_contextual_merge (job : Job) :
    List.Forall₂ (fun g c => ∃ first rest, atPositions (ofSymbols job .context fun _ => true) g = first :: rest ∧
      c = merge first rest) (groupsOf job.config job.extraction) (contextual job) := by
  have hchunks := forall₂_ofSymbols job .context
  have hlength := hchunks.length_eq
  have hown : ∀ n ∈ shown job.extraction, n ∈ job.extraction.symbolNodes := fun n hn => (List.mem_filter.mp hn).1
  have hzip := filterMap_nodeOf? hown hchunks
  have hlists := listsComponents_groupsOf job.config job.extraction
  unfold contextual
  dsimp only
  rw [hzip, List.map_fst_zip (by rw [List.length_map, hlength]), List.map_snd_zip (by rw [List.length_map, hlength])]
  simp only [List.getElem?_toArray]
  refine (forall₂_filterMap fun g hg => ?_).imp fun g c hmerged => ?_
  · -- some chunk stands at a position of the group
    obtain ⟨i, hi⟩ := hlists.exists_mem hg
    have hlt : i < (ofSymbols job .context fun _ => true).length := hlength ▸ hlists.lt_of_mem hg hi
    split
    · rfl
    · rename_i hnone
      have hmem := List.mem_filterMap.mpr ⟨i, hi, List.getElem?_eq_getElem hlt⟩
      rw [hnone] at hmem
      exact absurd hmem List.not_mem_nil
  · split at hmerged
    · rename_i first rest hparts
      exact ⟨first, rest, hparts, (Option.some.inj hmerged).symm⟩
    · cases hmerged

/-- Each chunk of related symbols is merged from the chunks of one group. -/
theorem forall₂_contextual (job : Job) :
    List.Forall₂ (fun g c => MergedFrom (atPositions (ofSymbols job .symbol fun _ => true) g) c)
      (groupsOf job.config job.extraction) (contextual job) := by
  refine (forall₂_contextual_merge job).imp fun g c hmerge => mergedFrom_map_asType .context ?_
  obtain ⟨first, rest, hparts, rfl⟩ := hmerge
  rw [← atPositions_map, ← ofSymbols_asType, hparts]
  exact mergedFrom_merge first rest

end Chunk

namespace Chunker

open Chunk

variable (chunker : Chunker) (e : Extraction)

/-- What a chunker cuts a file with. -/
def jobOf : Job :=
  { extraction := e, config := chunker.config, comments := commentsOf e.language
    tested := chunker.testedFiles.contains e.path }

/-- The chunks by symbol are those of the nodes whose lines are in the file, and the chunks of related symbols are merged
from them, one for each group. -/
theorem cut_contextual :
    ∃ singles chunks, chunker.cut e "one-symbol-per-chunk" = .ok singles ∧ chunker.cut e "contextual-chunks" = .ok chunks ∧
      List.Forall₂ (fun n c => c.Shows n) (shown e) singles ∧
      List.Forall₂ (fun g c => MergedFrom (atPositions singles g) c) (groupsOf chunker.config e) chunks := by
  refine ⟨ofSymbols (chunker.jobOf e) .symbol fun _ => true, contextual (chunker.jobOf e), rfl, rfl, ?_,
    forall₂_contextual (chunker.jobOf e)⟩
  refine (forall₂_ofSymbols (chunker.jobOf e) .symbol).imp fun n c hc => ?_
  obtain ⟨hid, hname, hstart, hend⟩ := of_ofNode? hc
  exact ⟨hid, hname, hstart, hend⟩

/-- The chunks of related symbols are merged from the chunks by symbol: each of these is in one of them once, in the order
of the file, and so is the name of each symbol that has a chunk. -/
theorem contextual_chunks_lose_nothing :
    ∃ singles chunks parts,
      chunker.cut e "one-symbol-per-chunk" = .ok singles ∧ chunker.cut e "contextual-chunks" = .ok chunks ∧
      List.Forall₂ (fun n c => c.Shows n) (shown e) singles ∧
      List.Forall₂ MergedFrom parts chunks ∧ (∀ p ∈ parts, p ≠ [] ∧ p.Sublist singles) ∧ parts.flatten.Perm singles ∧
      (chunks.flatMap (·.members)).Perm ((shown e).map (·.name)) := by
  obtain ⟨singles, chunks, hsingles, hchunks, hnodes, hmerged⟩ := cut_contextual chunker e
  have hlists := listsComponents_groupsOf chunker.config e
  rw [hnodes.length_eq] at hlists
  have hparts : List.Forall₂ MergedFrom ((groupsOf chunker.config e).map (atPositions singles)) chunks :=
    List.forall₂_map_left_iff.mpr hmerged
  have hperm := perm_flatten_atPositions hlists.once
  have hnames : singles.map (·.symbolName) = (shown e).map (·.name) := by
    rw [← List.forall₂_eq_eq_eq, List.forall₂_map_left_iff, List.forall₂_map_right_iff]
    exact hnodes.flip.imp fun c n hc => hc.symbolName
  have hmembers : chunks.flatMap (·.members) =
      ((groupsOf chunker.config e).map (atPositions singles)).flatten.map (·.symbolName) := by
    rw [List.map_flatten, List.flatMap_def]
    refine congrArg List.flatten ?_
    rw [← List.forall₂_eq_eq_eq, List.forall₂_map_left_iff, List.forall₂_map_right_iff]
    exact hparts.flip.imp fun c p hp => hp.members
  refine ⟨singles, chunks, _, hsingles, hchunks, hnodes, hparts, fun p hp => ?_, hperm, ?_⟩
  · obtain ⟨g, hg, rfl⟩ := List.mem_map.mp hp
    refine ⟨?_, sublist_atPositions (hlists.members g hg) fun i hi => hlists.lt_of_mem hg hi⟩
    obtain ⟨i, hi⟩ := hlists.exists_mem hg
    exact List.ne_nil_of_mem
      (List.mem_filterMap.mpr ⟨i, hi, List.getElem?_eq_getElem (hlists.lt_of_mem hg hi)⟩)
  · rw [hmembers, ← hnames]
    exact hperm.map _

end Chunker

end CodeAtlas
