/-
  The groups of related nodes.

  `Chunk.group` unites the positions of every two nodes that are related, the first before the second.  So its groups are
  the components of this relation (`listsComponents_group`).
-/
import CodeAtlas.Chunk.Strategy
import CodeAtlas.Proofs.Chunk.Forest

namespace CodeAtlas.Chunk

variable {config : ChunkingConfig} {nodes : List Node} {i j size : Nat}

theorem mem_positionPairs : (i, j) ∈ positionPairs size ↔ i < j ∧ j < size := by
  simp only [positionPairs, List.mem_flatMap, List.mem_map, List.mem_range, Prod.mk.injEq]
  constructor
  · rintro ⟨a, ha, k, hk, rfl, rfl⟩
    omega
  · rintro ⟨hij, hj⟩
    exact ⟨i, by omega, j - (i + 1), by omega, rfl, by omega⟩

/-- The nodes at two positions are related, the first before the second. -/
def RelatedAt (config : ChunkingConfig) (nodes : List Node) (i j : Nat) : Prop :=
  i < j ∧ ∃ a b, nodes[i]? = some a ∧ nodes[j]? = some b ∧ related config a b = true

theorem relatedAt_eq_true : relatedAt config nodes.toArray (i, j) = true ↔
    ∃ a b, nodes[i]? = some a ∧ nodes[j]? = some b ∧ related config a b = true := by
  unfold relatedAt
  dsimp only
  rw [List.getElem?_toArray, List.getElem?_toArray]
  cases nodes[i]? with
  | none => simp
  | some a =>
    cases nodes[j]? with
    | none => simp
    | some b => simp

/-- The pairs of positions that are united. -/
def links (config : ChunkingConfig) (nodes : List Node) : List (Nat × Nat) :=
  (positionPairs nodes.length).filter (relatedAt config nodes.toArray)

theorem mem_links : (i, j) ∈ links config nodes ↔ RelatedAt config nodes i j := by
  rw [links, List.mem_filter, mem_positionPairs, relatedAt_eq_true, RelatedAt]
  constructor
  · rintro ⟨⟨hij, -⟩, h⟩
    exact ⟨hij, h⟩
  · rintro ⟨hij, a, b, ha, hb, h⟩
    exact ⟨⟨hij, (List.getElem?_eq_some_iff.mp hb).1⟩, a, b, ha, hb, h⟩

theorem RelatedAt.lt_length (h : RelatedAt config nodes i j) : i < nodes.length ∧ j < nodes.length := by
  obtain ⟨hij, a, b, ha, hb, -⟩ := h
  exact ⟨(List.getElem?_eq_some_iff.mp ha).1, (List.getElem?_eq_some_iff.mp hb).1⟩

theorem group_eq (config : ChunkingConfig) (nodes : List Node) :
    group config nodes = ((Forest.discrete nodes.length).unite (links config nodes)).groups nodes.length := rfl

theorem listsComponents_group (config : ChunkingConfig) (nodes : List Node) :
    Forest.ListsComponents nodes.length (RelatedAt config nodes) (group config nodes) := by
  have hlinks : (fun i j => (i, j) ∈ links config nodes) = RelatedAt config nodes := by
    funext i j
    exact propext mem_links
  rw [group_eq, ← hlinks]
  exact Forest.listsComponents_groups fun p hp => (mem_links.mp hp).lt_length

/-- The groups are the components of the related nodes, and the loop of a lookup ends in every forest that lookups and
unions make. -/
theorem groups_are_components (config : ChunkingConfig) (nodes : List Node) :
    Forest.ListsComponents nodes.length (RelatedAt config nodes) (group config nodes) ∧
      ∀ size f, Forest.Reached size f → ∀ i < size,
        ∃ turns, Chain Forest.Turn (f, i) turns (f.find i) ∧ (f.find i).1.parents[(f.find i).2]? = some (f.find i).2 :=
  ⟨listsComponents_group config nodes, fun _ _ hf _ hi => hf.descends.lookup hi⟩

/-- A function at a line. -/
def functionAt (name : String) (parent : Option String) (line : Nat) : Node :=
  { (default : Node) with name, parent, startLine := line }

/-- A file of three functions far from each other, the last one in the class of the first. -/
def scattered : List Node :=
  [functionAt "open" (some "File") 1, functionAt "parse" none 90, functionAt "flush" (some "File") 180]

/-- The first and the last function are grouped around the one between them, and in the forest of that union the loop of a
lookup ends. -/
theorem groups_are_components_around :
    group {} scattered = [[0, 2], [1]] ∧ Relation.EqvGen (RelatedAt {} scattered) 0 2 ∧
      ¬ Relation.EqvGen (RelatedAt {} scattered) 0 1 ∧
      Forest.Reached 3 ((Forest.discrete 3).union 0 2) ∧
      ∃ turns, Chain Forest.Turn ((Forest.discrete 3).union 0 2, 2) turns (((Forest.discrete 3).union 0 2).find 2) := by
  obtain ⟨hlists, hloops⟩ := groups_are_components {} scattered
  have hgroups : group {} scattered = [[0, 2], [1]] := by decide +kernel
  have hreached : Forest.Reached 3 ((Forest.discrete 3).union 0 2) := .union .discrete (by decide) (by decide)
  obtain ⟨turns, hchain, -⟩ := hloops 3 _ hreached 2 (by decide)
  rw [hgroups] at hlists
  refine ⟨hgroups, (hlists.together 0 2 (by decide) (by decide)).mp (by decide), fun h => ?_, hreached, turns, hchain⟩
  exact absurd ((hlists.together 0 1 (by decide) (by decide)).mpr h) (by decide)

end CodeAtlas.Chunk
