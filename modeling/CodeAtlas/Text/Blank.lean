/-
  Blank space.  `isBlank` is the Unicode property White_Space.  Trimming removes the blanks at the ends of a text,
  `words` are its maximal runs without a blank, and `collapse` writes them with single spaces between.
-/
import CodeAtlas.Text.Split

namespace CodeAtlas.Text

/-- The characters with the Unicode property White_Space. -/
def isBlank (c : Char) : Bool :=
  let n := c.toNat
  (9 ≤ n && n ≤ 13) || n == 0x20 || n == 0x85 || n == 0xA0 || n == 0x1680 || (0x2000 ≤ n && n ≤ 0x200A)
    || n == 0x2028 || n == 0x2029 || n == 0x202F || n == 0x205F || n == 0x3000

/-- The text without the blanks at its end. -/
def trimEnd (s : String) : String :=
  .ofList (dropEndWhile isBlank s.toList)

/-- The text without the blanks at its two ends. -/
def trim (s : String) : String :=
  .ofList (dropEndWhile isBlank (s.toList.dropWhile isBlank))

/-- The maximal runs of characters that are not blank. -/
def words (s : String) : List String :=
  (splitAny isBlank s).filter fun w => !w.isEmpty

/-- The words of the text with single spaces between. -/
def collapse (s : String) : String :=
  join " " (words s)

/-- The text cut to `limit` characters, with an ellipsis where something was cut. -/
def truncate (s : String) (limit : Nat) : String :=
  if s.toList.length ≤ limit then s else .ofList (s.toList.take limit ++ ['…'])

/-- The text without one pair of equal quotes (double, single or back quotes) around it, and without the blanks
outside them. -/
def unquote (s : String) : String :=
  let inner := (trim s).toList
  match inner with
  | q :: rest =>
    if (q == '"' || q == '\'' || q == '\x60') && !rest.isEmpty && rest.getLast? == some q then .ofList rest.dropLast
    else .ofList inner
  | [] => ""

end CodeAtlas.Text
