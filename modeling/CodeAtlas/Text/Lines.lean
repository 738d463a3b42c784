/-
  Lines of a text.  A line ends at a newline, and a carriage return directly before that newline belongs to the
  end of the line; what follows the last newline is a line only if it is not empty.
-/
import CodeAtlas.Text.Split

namespace CodeAtlas.Text

/-- A line without one carriage return at its end. -/
def stripCarriage (line : List Char) : List Char :=
  if line.getLast? == some '\r' then line.dropLast else line

/-- The lines of a list of characters. -/
def lineLists (l : List Char) : List (List Char) :=
  let pieces := splitWhen (· == '\n') l
  pieces.dropLast.map stripCarriage ++ match pieces.getLast? with
    | some (c :: cs) => [c :: cs]
    | _ => []

/-- The lines of a text. -/
def lines (s : String) : List String :=
  (lineLists s.toList).map String.ofList

/-- The lines from `radius` before to `radius` after the given line (counted from 1), as far as they exist. A line
behind the last one counts as the last one; without lines, and for line 0, the window is empty. -/
def lineWindow (lines : List String) (line radius : Nat) : String :=
  if lines.isEmpty || line == 0 then ""
  else
    let idx := min (line - 1) (lines.length - 1)
    let start := idx - radius
    let stop := min (idx + radius + 1) lines.length
    join "\n" ((lines.take stop).drop start)

/-- The lines from `start` to `stop`, both counted from 1 and included, as far as they exist. -/
def lineRange (lines : List String) (start stop : Nat) : List String :=
  if start == 0 || stop < start then [] else (lines.take stop).drop (start - 1)

end CodeAtlas.Text
