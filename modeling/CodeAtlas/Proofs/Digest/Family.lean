/-
  The identifiers of different things.

  Nodes, edges, uses, flows and the three sorts of chunks take their identifiers from lists of parts of different shapes
  (`Issued`).  No part holds a NUL character, so the bytes that are digested tell the parts (`parts_eq_of_bytes_eq`), and
  the parts tell what they were made for: a first part of 32 digits, a tag in its place, and the number of parts
  (`Family.ofParts`, `Issued.ofParts_eq`).  So where the digested texts do not collide, identifiers tell nodes and edges
  apart and are never shared by two families (`identifiers_tell_apart`).
-/
import CodeAtlas.Chunk.Strategy
import CodeAtlas.Flow
import CodeAtlas.Proofs.Extraction
import CodeAtlas.Proofs.Extraction.Edges

namespace CodeAtlas

/-! ## What is digested -/

theorem Text.bytes_inj {s t : String} (h : bytes s = bytes t) : s = t := by
  have hdata : s.toByteArray.data = t.toByteArray.data := Array.toList_inj.mp h
  exact String.toByteArray_inj.mp (congrArg ByteArray.mk hdata)

/-- The bytes that are digested for an identifier tell the parts apart. -/
theorem parts_eq_of_bytes_eq {parts parts' : List String} (hne : parts ≠ []) (hne' : parts' ≠ [])
    (hfree : ∀ s ∈ parts, NulFree s) (hfree' : ∀ s ∈ parts', NulFree s)
    (h : Text.bytes (idPreimage parts) = Text.bytes (idPreimage parts')) : parts = parts' :=
  idPreimage_inj hne hne' hfree hfree' (Text.bytes_inj h)

/-- Where two lists of parts do not collide, they have one identifier only when they are equal. -/
theorem stableId_eq_iff {parts parts' : List String} (hcollision : NoCollision [parts, parts']) (hne : parts ≠ [])
    (hne' : parts' ≠ []) (hfree : ∀ s ∈ parts, NulFree s) (hfree' : ∀ s ∈ parts', NulFree s) :
    stableId parts = stableId parts' ↔ parts = parts' :=
  ⟨hcollision.eq_of_stableId_eq List.mem_cons_self (List.mem_cons_of_mem _ (List.mem_singleton_self _)) hne hne' hfree
    hfree', congrArg stableId⟩

/-! ## Tags -/

namespace NodeType

theorem mem_all (t : NodeType) : t ∈ all := by
  cases t <;> decide

/-- The tag of a category tells it. -/
theorem name_inj {t t' : NodeType} (h : t.name = t'.name) : t = t' :=
  List.inj_on_of_nodup_map (by decide) (mem_all t) (mem_all t') h

theorem nulFree_name (t : NodeType) : NulFree t.name := by
  unfold NulFree
  cases t <;> decide

/-- No tag is as long as an identifier. -/
theorem length_name (t : NodeType) : t.name.toList.length < 32 := by
  cases t <;> decide

end NodeType

theorem ChunkType.nulFree_name (t : ChunkType) : NulFree t.name := by
  unfold NulFree
  cases t <;> decide

/-- A text of 32 hexadecimal digits. -/
structure IsIdentifier (s : String) : Prop where
  length : s.toList.length = 32
  digits : ∀ c ∈ s.toList, ∃ n < 16, Text.hexDigit n = c

namespace IsIdentifier

variable {s : String}

theorem nulFree (h : IsIdentifier s) : NulFree s := by
  intro hnul
  obtain ⟨n, hn, hdigit⟩ := h.digits _ hnul
  exact hexDigit_ne_nul n hn hdigit

theorem ne_of_length {tag : String} (h : IsIdentifier s) (htag : tag.toList.length < 32) : s ≠ tag := by
  rintro rfl
  have hlength := h.length
  omega

end IsIdentifier

theorem isIdentifier_stableId (parts : List String) : IsIdentifier (stableId parts) where
  length := by
    unfold stableId
    rw [String.toList_ofList, List.length_take, length_contentHash]
    rfl
  digits := by
    intro c hc
    unfold stableId contentHash Text.hex at hc
    rw [String.toList_ofList, String.toList_ofList] at hc
    obtain ⟨b, -, hb⟩ := List.mem_flatMap.mp (List.mem_of_mem_take hc)
    have hlt : b.toNat < 256 := b.toNat_lt
    rcases List.mem_cons.mp hb with hhigh | hlow
    · exact ⟨b.toNat / 16, by omega, hhigh.symm⟩
    · exact ⟨b.toNat % 16, by omega, (List.mem_singleton.mp hlow).symm⟩

/-! ## Nodes and edges -/

/-- The identifiers of nodes tell their names, categories and paths. -/
theorem Node.idFor_eq_iff {name name' path path' : String} {type type' : NodeType} (hname : NulFree name)
    (hname' : NulFree name') (hpath : NulFree path) (hpath' : NulFree path')
    (hcollision : NoCollision [[name, type.name, path], [name', type'.name, path']]) :
    Node.idFor name type path = Node.idFor name' type' path' ↔ name = name' ∧ type = type' ∧ path = path' := by
  have hfree : ∀ s ∈ [name, type.name, path], NulFree s := by
    simp only [List.forall_mem_cons]
    exact ⟨hname, type.nulFree_name, hpath, List.forall_mem_nil _⟩
  have hfree' : ∀ s ∈ [name', type'.name, path'], NulFree s := by
    simp only [List.forall_mem_cons]
    exact ⟨hname', type'.nulFree_name, hpath', List.forall_mem_nil _⟩
  refine (stableId_eq_iff hcollision (List.cons_ne_nil _ _) (List.cons_ne_nil _ _) hfree hfree').trans ?_
  simp only [List.cons.injEq, and_true]
  exact and_congr_right fun _ => and_congr_left fun _ => ⟨NodeType.name_inj, congrArg NodeType.name⟩

/-- A line that is left out is told from every number. -/
theorem text_inj {line line' : Option Nat} (h : (line.map toString).getD "" = (line'.map toString).getD "") :
    line = line' := by
  have hne (n : Nat) : toString n ≠ "" := Nat.repr_ne_empty
  cases line with
  | none =>
    cases line' with
    | none => rfl
    | some n => exact absurd h.symm (hne n)
  | some n =>
    cases line' with
    | none => exact absurd h (hne n)
    | some m => exact congrArg some (eq_of_toString_eq h)

theorem Edge.nulFree_parts_new {source target : String} (r : Relationship) (line : Option Nat) (hsource : NulFree source)
    (htarget : NulFree target) : ∀ s ∈ (Edge.new source target r line).parts, NulFree s := by
  show ∀ s ∈ [source, target, r.name, (line.map toString).getD ""], NulFree s
  simp only [List.forall_mem_cons]
  exact ⟨hsource, htarget, r.nulFree_name, Edge.nulFree_text line, List.forall_mem_nil _⟩

/-- The identifiers of edges tell their ends, relationships and lines. -/
theorem Edge.id_new_eq_iff {source source' target target' : String} {r r' : Relationship} {line line' : Option Nat}
    (hsource : NulFree source) (hsource' : NulFree source') (htarget : NulFree target) (htarget' : NulFree target')
    (hcollision : NoCollision [(Edge.new source target r line).parts, (Edge.new source' target' r' line').parts]) :
    (Edge.new source target r line).id = (Edge.new source' target' r' line').id ↔
      source = source' ∧ target = target' ∧ r = r' ∧ line = line' := by
  refine (stableId_eq_iff hcollision (List.cons_ne_nil _ _) (List.cons_ne_nil _ _)
    (nulFree_parts_new r line hsource htarget) (nulFree_parts_new r' line' hsource' htarget')).trans ?_
  show [source, target, r.name, (line.map toString).getD ""] =
    [source', target', r'.name, (line'.map toString).getD ""] ↔ _
  simp only [List.cons.injEq, and_true]
  refine and_congr_right fun _ => and_congr_right fun _ => ?_
  constructor
  · rintro ⟨hname, htext⟩
    exact ⟨Relationship.name_inj hname, text_inj htext⟩
  · rintro ⟨rfl, rfl⟩
    exact ⟨rfl, rfl⟩

/-- The edge of a reference has an identifier of its own. -/
theorem Extraction.id_of_referenceEdge? {nodes : List Node} {r : Reference} {edge : Edge}
    (h : referenceEdge? nodes r = some edge) : edge.id = stableId edge.useParts := by
  rw [referenceEdge?_eq] at h
  obtain ⟨source, -, h⟩ := Option.bind_eq_some_iff.mp h
  obtain ⟨target, -, h⟩ := Option.map_eq_some_iff.mp h
  rw [← h]
  rfl

/-! ## Chunks -/

namespace Chunk

/-- The parts that the identifier of the chunk of a node is made of. -/
def partsOf (type : ChunkType) (n : Node) : List String :=
  ["chunk", n.id, type.name, toString n.startLine]

theorem nulFree_partsOf (type : ChunkType) {n : Node} (hn : NulFree n.id) : ∀ s ∈ partsOf type n, NulFree s := by
  unfold partsOf
  simp only [List.forall_mem_cons]
  exact ⟨by decide, hn, type.nulFree_name, nulFree_repr _, List.forall_mem_nil _⟩

theorem id_of_ofNode? {job : Job} {lines : List String} {type : ChunkType} {n : Node} {c : Chunk}
    (h : ofNode? job lines type n = some c) : c.id = stableId (partsOf type n) := by
  unfold ofNode? at h
  split at h
  · cases h
  · rw [← Option.some.inj h]
    rfl

end Chunk

/-! ## Families -/

/-- The sorts of things that have identifiers. -/
inductive Family where
  | node
  | edge
  | use
  | flow
  | symbolChunk
  | contextChunk
  | commentChunk
  deriving DecidableEq

/-- The identifiers of each family, with the parts that they are made of.  Edges join nodes, chunks belong to nodes and are
merged from chunks, all of which have identifiers. -/
inductive Issued : Family → List String → String → Prop
  | node {name path : String} (type : NodeType) (hname : NulFree name) (hpath : NulFree path) :
      Issued .node [name, type.name, path] (Node.idFor name type path)
  | edge {source target : String} (r : Relationship) (line : Option Nat) (hsource : IsIdentifier source)
      (htarget : IsIdentifier target) :
      Issued .edge [source, target, r.name, (line.map toString).getD ""] (Edge.new source target r line).id
  | use {nodes : List Node} {r : Reference} {edge : Edge} (h : Extraction.referenceEdge? nodes r = some edge) :
      Issued .use edge.useParts edge.id
  | flow {profiles : List FileProfile} {dependencies : List Dependency} {config : AnalysisConfig} {entry : FileProfile}
      {flow : Flow} (h : Flow.startingAt? profiles dependencies config entry = some flow) (hpath : NulFree entry.path) :
      Issued .flow ["flow", entry.path] flow.id
  | symbolChunk {job : Chunk.Job} {lines : List String} {type : ChunkType} {n : Node} {c : Chunk}
      (h : Chunk.ofNode? job lines type n = some c) (hnode : IsIdentifier n.id) :
      Issued .symbolChunk ["chunk", n.id, type.name, toString n.startLine] c.id
  | contextChunk {first : Chunk} {rest : List Chunk} (h : ∀ c ∈ first :: rest, IsIdentifier c.id) :
      Issued .contextChunk ("contextual" :: (first :: rest).map (·.id)) (Chunk.merge first rest).id
  | commentChunk (job : Chunk.Job) {file : Node} (b : CommentBlock) (hfile : IsIdentifier file.id) :
      Issued .commentChunk ["documentation", file.id, toString b.startLine] (Chunk.ofBlock job file b).id

/-- The family that a list of parts is made for. -/
def Family.ofParts : List String → Family
  | [first, _] => if first = "flow" then .flow else if first = "contextual" then .contextChunk else .use
  | [first, second, _] =>
    if second.toList.length < 32 then .node else if first = "contextual" then .contextChunk else .commentChunk
  | first :: _ :: _ :: _ :: _ =>
    if first = "chunk" then .symbolChunk else if first = "contextual" then .contextChunk else .edge
  | _ => .node

namespace Issued

variable {f f' : Family} {parts parts' : List String} {id id' : String}

/-- An identifier is the digest of its parts, none of which holds a NUL character. -/
theorem made_of (h : Issued f parts id) : id = stableId parts ∧ parts ≠ [] ∧ ∀ s ∈ parts, NulFree s := by
  have htag (tag : String) (htag : '\x00' ∉ tag.toList) {l : List String} (hl : ∀ s ∈ l, NulFree s) :
      ∀ s ∈ tag :: l, NulFree s := List.forall_mem_cons.mpr ⟨htag, hl⟩
  cases h with
  | node type hname hpath =>
    refine ⟨rfl, List.cons_ne_nil _ _, ?_⟩
    simp only [List.forall_mem_cons]
    exact ⟨hname, type.nulFree_name, hpath, List.forall_mem_nil _⟩
  | edge r line hsource htarget =>
    exact ⟨rfl, List.cons_ne_nil _ _, Edge.nulFree_parts_new r line hsource.nulFree htarget.nulFree⟩
  | use h => exact ⟨Extraction.id_of_referenceEdge? h, List.cons_ne_nil _ _, Edge.nulFree_useParts _⟩
  | flow h hpath =>
    refine ⟨?_, List.cons_ne_nil _ _, htag "flow" (by decide) (List.forall_mem_singleton.mpr hpath)⟩
    unfold Flow.startingAt? at h
    dsimp only at h
    split at h
    · cases h
    · rw [← Option.some.inj h]
  | symbolChunk h hnode =>
    exact ⟨Chunk.id_of_ofNode? h, List.cons_ne_nil _ _, Chunk.nulFree_partsOf _ hnode.nulFree⟩
  | contextChunk h =>
    exact ⟨rfl, List.cons_ne_nil _ _, htag "contextual" (by decide) (List.forall_mem_map.mpr fun c hc => (h c hc).nulFree)⟩
  | commentChunk job b hfile =>
    refine ⟨rfl, List.cons_ne_nil _ _, htag "documentation" (by decide) ?_⟩
    simp only [List.forall_mem_cons]
    exact ⟨hfile.nulFree, nulFree_repr _, List.forall_mem_nil _⟩

/-- The parts tell the family. -/
theorem ofParts_eq (h : Issued f parts id) : Family.ofParts parts = f := by
  cases h with
  | node type hname hpath => exact if_pos type.length_name
  | edge r line hsource htarget =>
    rw [Family.ofParts, if_neg (hsource.ne_of_length (by decide)), if_neg (hsource.ne_of_length (by decide))]
  | @use nodes r edge h =>
    have hfirst := isIdentifier_stableId edge.parts
    rw [Edge.useParts, Family.ofParts, if_neg (hfirst.ne_of_length (by decide)),
      if_neg (hfirst.ne_of_length (by decide))]
  | flow h hpath => rfl
  | symbolChunk h hnode => rfl
  | @contextChunk first rest h =>
    cases rest with
    | nil => rfl
    | cons second rest =>
      cases rest with
      | nil =>
        -- as many parts as a node has, but no category is as long as an identifier
        exact if_neg (Nat.not_lt_of_le (h first List.mem_cons_self).length.ge)
      | cons _ _ => rfl
  | commentChunk job b hfile =>
    exact if_neg (Nat.not_lt_of_le hfile.length.ge)

/-- Identifiers of different families differ, as long as their parts do not collide. -/
theorem ne_of_ne (h : Issued f parts id) (h' : Issued f' parts' id') (hne : f ≠ f')
    (hcollision : NoCollision [parts, parts']) : id ≠ id' := by
  intro heq
  obtain ⟨hid, hparts, hfree⟩ := h.made_of
  obtain ⟨hid', hparts', hfree'⟩ := h'.made_of
  have hsame : parts = parts' :=
    (stableId_eq_iff hcollision hparts hparts' hfree hfree').mp (by rw [← hid, ← hid', heq])
  exact hne (by rw [← h.ofParts_eq, ← h'.ofParts_eq, hsame])

end Issued

/-- The bytes that are digested for an identifier tell its parts, none of which holds a NUL character.  So, as long as two
lists of parts do not collide, nodes have one identifier exactly when they have one name, category and path, edges exactly
when they have the same ends, relationship and line, and things of different families never have one identifier. -/
theorem identifiers_tell_apart :
    (∀ parts parts' : List String, parts ≠ [] → parts' ≠ [] → (∀ s ∈ parts, NulFree s) → (∀ s ∈ parts', NulFree s) →
      Text.bytes (idPreimage parts) = Text.bytes (idPreimage parts') → parts = parts') ∧
    (∀ (name name' path path' : String) (type type' : NodeType),
      NulFree name → NulFree name' → NulFree path → NulFree path' →
      NoCollision [[name, type.name, path], [name', type'.name, path']] →
      (Node.idFor name type path = Node.idFor name' type' path' ↔ name = name' ∧ type = type' ∧ path = path')) ∧
    (∀ (source source' target target' : String) (r r' : Relationship) (line line' : Option Nat),
      NulFree source → NulFree source' → NulFree target → NulFree target' →
      NoCollision [(Edge.new source target r line).parts, (Edge.new source' target' r' line').parts] →
      ((Edge.new source target r line).id = (Edge.new source' target' r' line').id ↔
        source = source' ∧ target = target' ∧ r = r' ∧ line = line')) ∧
    (∀ (f f' : Family) (parts parts' : List String) (id id' : String), Issued f parts id → Issued f' parts' id' →
      f ≠ f' → NoCollision [parts, parts'] → id ≠ id') :=
  ⟨fun _ _ hne hne' hfree hfree' => parts_eq_of_bytes_eq hne hne' hfree hfree',
    fun _ _ _ _ _ _ hname hname' hpath hpath' => Node.idFor_eq_iff hname hname' hpath hpath',
    fun _ _ _ _ _ _ _ _ hsource hsource' htarget htarget' => Edge.id_new_eq_iff hsource hsource' htarget htarget',
    fun _ _ _ _ _ _ h h' => h.ne_of_ne h'⟩

/-- Parts that are cut in different places, a function and a class of one name, a call with and without a line, and a
function and a comment. -/
theorem identifiers_tell_apart_login :
    Text.bytes (idPreimage ["ab", "c"]) ≠ Text.bytes (idPreimage ["a", "bc"]) ∧
      Node.idFor "login" .function "auth.js" ≠ Node.idFor "login" .classNode "auth.js" ∧
      (Edge.new "a" "b" .call none).id ≠ (Edge.new "a" "b" .call (some 1)).id ∧
      ∀ (job : Chunk.Job) (file : Node) (b : CommentBlock), file.id = "00112233445566778899aabbccddeeff" →
        b.startLine = 1 → Node.idFor "login" .function "auth.js" ≠ (Chunk.ofBlock job file b).id := by
  obtain ⟨hparts, hnodes, hedges, hfamilies⟩ := identifiers_tell_apart
  have hcollision : NoCollision
      [["login", "Function", "auth.js"], ["login", "Class", "auth.js"], ["a", "b", "call", ""], ["a", "b", "call", "1"],
       ["documentation", "00112233445566778899aabbccddeeff", "1"]] := by
    decide +kernel
  refine ⟨fun h => ?_, fun h => ?_, fun h => ?_, fun job file b hfile hline => ?_⟩
  · exact absurd (hparts _ _ (List.cons_ne_nil _ _) (List.cons_ne_nil _ _) (by decide) (by decide) h) (by decide)
  · obtain ⟨-, htype, -⟩ := (hnodes "login" "login" "auth.js" "auth.js" .function .classNode (by decide) (by decide)
      (by decide) (by decide) (hcollision.mono (by decide))).mp h
    cases htype
  · obtain ⟨-, -, -, hsome⟩ := (hedges "a" "a" "b" "b" .call .call none (some 1) (by decide) (by decide) (by decide)
      (by decide) (hcollision.mono (by decide))).mp h
    cases hsome
  · have hdigits : ("00112233445566778899aabbccddeeff".toList.all fun c =>
        (List.range 16).any fun n => Text.hexDigit n == c) = true := by
      decide
    have hidentifier : IsIdentifier file.id := hfile ▸
      { length := by decide
        digits := fun c hc => by
          obtain ⟨n, hn, hdigit⟩ := List.any_eq_true.mp (List.all_eq_true.mp hdigits c hc)
          exact ⟨n, List.mem_range.mp hn, beq_iff_eq.mp hdigit⟩ }
    refine hfamilies .node .commentChunk _ _ _ _ (.node .function (by decide) (by decide))
      (.commentChunk job b hidentifier) (by decide) ?_
    rw [hfile, hline]
    exact hcollision.mono (by decide)

end CodeAtlas
