/-
  The rows of the edit distance.

  `editCount` is the distance by recursion on both texts.  Each row holds the counts of one beginning of the first text
  against all beginnings of the second (`foldl_nextRow`), so the last cell of the last row is the count of the whole texts
  (`distance_eq`).  From there the distance and the similarity of names do not depend on the order of the two.
-/
import CodeAtlas.Chunk.Similarity

namespace CodeAtlas

namespace EditDistance

/-- The distance of two texts: if both have a first character, one of the two is dropped, or one is exchanged for the other
unless they agree. -/
def editCount : List Char → List Char → Nat
  | [], b => b.length
  | a, [] => a.length
  | x :: a, y :: b =>
    min (min (editCount a (y :: b) + 1) (editCount (x :: a) b + 1)) (editCount a b + if x = y then 0 else 1)
termination_by a b => a.length + b.length

@[simp] theorem editCount_nil_left (b : List Char) : editCount [] b = b.length := by
  rw [editCount]

@[simp] theorem editCount_nil_right (a : List Char) : editCount a [] = a.length := by
  cases a with
  | nil => rw [editCount_nil_left]
  | cons x a =>
    rw [editCount]
    exact List.cons_ne_nil x a

theorem editCount_comm (a b : List Char) : editCount a b = editCount b a := by
  induction a, b using editCount.induct with
  | case1 b => rw [editCount_nil_left, editCount_nil_right]
  | case2 a _ => rw [editCount_nil_left, editCount_nil_right]
  | case3 x a y b ihUp ihLeft ihCorner =>
    rw [editCount, editCount, ihUp, ihLeft, ihCorner, Nat.min_comm (editCount (y :: b) a + 1)]
    simp only [eq_comm]

/-- The counts of a text against the beginnings of another one, each with some characters in front; both texts are
reversed. -/
def rowFrom (r front : List Char) : List Char → List Nat
  | [] => [editCount r front]
  | y :: b => editCount r front :: rowFrom r (y :: front) b

theorem exists_rowFrom (r front b : List Char) : ∃ row, rowFrom r front b = editCount r front :: row := by
  cases b with
  | nil => exact ⟨[], rfl⟩
  | cons y b => exact ⟨_, rfl⟩

/-- The cells of the next row from the row above. -/
theorem nextCells_eq (x : Char) (r front b : List Char) :
    editCount (x :: r) front :: nextCells x (editCount (x :: r) front) b (rowFrom r front b) = rowFrom (x :: r) front b := by
  induction b generalizing front with
  | nil => rfl
  | cons y b ih =>
    have hnext := ih (y :: front)
    obtain ⟨row, hrow⟩ := exists_rowFrom r (y :: front) b
    rw [rowFrom, rowFrom, ← hnext, hrow, nextCells]
    congr 2 <;> rw [editCount]

theorem nextRow_eq (x : Char) (r b : List Char) : nextRow b (rowFrom r [] b) x = rowFrom (x :: r) [] b := by
  have hfirst : (rowFrom r [] b).headD 0 + 1 = editCount (x :: r) [] := by
    obtain ⟨row, hrow⟩ := exists_rowFrom r [] b
    rw [hrow, List.headD_cons, editCount_nil_right, editCount_nil_right, List.length_cons]
  unfold nextRow
  dsimp only
  rw [hfirst, nextCells_eq]

theorem rowFrom_nil (front b : List Char) : rowFrom [] front b = List.range' front.length (b.length + 1) := by
  induction b generalizing front with
  | nil => rw [rowFrom, editCount_nil_left]; rfl
  | cons y b ih => rw [rowFrom, editCount_nil_left, ih, List.length_cons, List.length_cons, ← List.range'_succ]

/-- After some characters of the first text the row belongs to the text of these characters. -/
theorem foldl_nextRow (a r b : List Char) : a.foldl (nextRow b) (rowFrom r [] b) = rowFrom (a.reverse ++ r) [] b := by
  induction a generalizing r with
  | nil => rfl
  | cons x a ih => rw [List.foldl_cons, nextRow_eq, ih, List.reverse_cons, List.append_assoc, List.singleton_append]

theorem getLastD_rowFrom (r front b : List Char) : (rowFrom r front b).getLastD 0 = editCount r (b.reverse ++ front) := by
  induction b generalizing front with
  | nil => rfl
  | cons y b ih =>
    obtain ⟨row, hrow⟩ := exists_rowFrom r (y :: front) b
    have hlast := ih (y :: front)
    rw [hrow] at hlast
    rw [rowFrom, hrow, List.reverse_cons, List.append_assoc, List.singleton_append, ← hlast]
    rfl

theorem distance_eq (a b : List Char) : distance a b = editCount a.reverse b.reverse := by
  have hstart : List.range (b.length + 1) = rowFrom [] [] b := by
    rw [rowFrom_nil, List.range_eq_range', List.length_nil]
  unfold distance
  rw [hstart, foldl_nextRow, getLastD_rowFrom, List.append_nil, List.append_nil]

theorem distance_comm (a b : List Char) : distance a b = distance b a := by
  rw [distance_eq, distance_eq, editCount_comm]

end EditDistance

theorem editDistance_comm (a b : String) : editDistance a b = editDistance b a :=
  EditDistance.distance_comm _ _

theorem nameSimilarity_comm (a b : String) : nameSimilarity a b = nameSimilarity b a := by
  unfold nameSimilarity similarityWith
  rw [editDistance_comm, Nat.max_comm]

end CodeAtlas
