/-
  How similar two names are: one less the share of characters that must be edited to turn one into the other.

  The edit distance is computed row by row: a row holds the distances of one beginning of the first text to all beginnings
  of the second.
-/
import CodeAtlas.Number.Double

namespace CodeAtlas

namespace EditDistance

/-- The cells of a row after the first, given the cell to the left of them and the row above. -/
def nextCells (a : Char) : (left : Nat) → List Char → (above : List Nat) → List Nat
  | left, b :: bs, corner :: up :: above =>
    let cell := min (min (up + 1) (left + 1)) (corner + if a = b then 0 else 1)
    cell :: nextCells a cell bs (up :: above)
  | _, _, _ => []

/-- The row below a row, for one more character of the first text. -/
def nextRow (b : List Char) (row : List Nat) (a : Char) : List Nat :=
  let first := row.headD 0 + 1
  first :: nextCells a first b row

/-- The number of insertions, deletions and substitutions of single characters between two texts. -/
def distance (a b : List Char) : Nat :=
  (a.foldl (nextRow b) (List.range (b.length + 1))).getLastD 0

end EditDistance

/-- The edit distance of two texts. -/
def editDistance (a b : String) : Nat :=
  EditDistance.distance a.toList b.toList

/-- The similarity of two names, each operation followed by `round`; two empty names are equal. -/
def similarityWith (round : Rat → Rat) (a b : String) : Rat :=
  let longest := max a.toList.length b.toList.length
  if longest = 0 then 1 else round (1 - round (mkRat (editDistance a b) longest))

/-- The similarity of two names in double precision. -/
def nameSimilarity (a b : String) : Rat :=
  similarityWith nearest a b

end CodeAtlas
