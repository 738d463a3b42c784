/-
  Cutting texts at separators.

  * `splitWhen p` cuts a list at the elements that satisfy `p`; `splitSeq` cuts it at the occurrences of a
    sequence, taken from the left without overlap.
  * `breakOn?` and `breakOnLast?` cut at the first and at the last occurrence of a sequence.
  * `dropLeads` removes a leading sequence as often as it stands there.

  The functions on `String` go through the list of characters, so that every fact about them is a fact about lists.
-/
namespace CodeAtlas.Text

/-- The pieces between the elements that satisfy `p`; there is always at least one. -/
def splitWhen {α : Type} (p : α → Bool) : List α → List (List α)
  | [] => [[]]
  | c :: cs =>
    if p c then [] :: splitWhen p cs
    else match splitWhen p cs with
      | [] => [[c]]
      | piece :: rest => (c :: piece) :: rest

theorem splitWhen_ne_nil {α : Type} (p : α → Bool) (l : List α) : splitWhen p l ≠ [] := by
  cases l with
  | nil => simp [splitWhen]
  | cons c cs =>
    unfold splitWhen
    split
    · simp
    · split <;> simp

/-- Whether `needle` stands somewhere in the list. -/
def occurs {α : Type} [BEq α] (needle : List α) : List α → Bool
  | [] => needle.isEmpty
  | c :: cs => needle.isPrefixOf (c :: cs) || occurs needle cs

/-- What stands before and after the first occurrence of `needle`. -/
def breakOn? {α : Type} [BEq α] (needle : List α) : List α → Option (List α × List α)
  | [] => if needle.isEmpty then some ([], []) else none
  | c :: cs =>
    if needle.isPrefixOf (c :: cs) then some ([], (c :: cs).drop needle.length)
    else (breakOn? needle cs).map fun cut => (c :: cut.1, cut.2)

/-- What stands before and after the last occurrence of `needle`. -/
def breakOnLast? {α : Type} [BEq α] (needle l : List α) : Option (List α × List α) :=
  (breakOn? needle.reverse l.reverse).map fun cut => (cut.2.reverse, cut.1.reverse)

/-- `splitSeq` with `skip` elements of a separator still to pass over. -/
def splitSeqFrom {α : Type} [BEq α] (needle : List α) : Nat → List α → List (List α)
  | _, [] => [[]]
  | skip + 1, _ :: cs => splitSeqFrom needle skip cs
  | 0, c :: cs =>
    if needle.isPrefixOf (c :: cs) then [] :: splitSeqFrom needle (needle.length - 1) cs
    else match splitSeqFrom needle 0 cs with
      | [] => [[c]]
      | piece :: rest => (c :: piece) :: rest

/-- The pieces between the occurrences of a non-empty sequence, found from the left without overlap. -/
def splitSeq {α : Type} [BEq α] (needle l : List α) : List (List α) :=
  splitSeqFrom needle 0 l

/-- The list without the copies of `lead` at its front. -/
def dropLeads {α : Type} [BEq α] (lead l : List α) : List α :=
  if _h : lead ≠ [] ∧ l ≠ [] ∧ lead.isPrefixOf l then dropLeads lead (l.drop lead.length) else l
termination_by l.length
decreasing_by
  have h1 := List.length_pos_iff.2 _h.1
  have h2 := List.length_pos_iff.2 _h.2.1
  simp only [List.length_drop]
  omega

/-- The list without the elements at its end that satisfy `p`. -/
def dropEndWhile {α : Type} (p : α → Bool) (l : List α) : List α :=
  (l.reverse.dropWhile p).reverse

/-- The pieces of a text between the characters that satisfy `p`. -/
def splitAny (p : Char → Bool) (s : String) : List String :=
  (splitWhen p s.toList).map String.ofList

/-- The pieces of a text between the occurrences of one character. -/
def splitChar (sep : Char) (s : String) : List String :=
  splitAny (· == sep) s

/-- The pieces of a text between the occurrences of a separator. -/
def splitText (sep s : String) : List String :=
  (splitSeq sep.toList s.toList).map String.ofList

/-- The text before and after the first occurrence of `sep`. -/
def cutFirst? (sep s : String) : Option (String × String) :=
  (breakOn? sep.toList s.toList).map fun cut => (.ofList cut.1, .ofList cut.2)

/-- The text before and after the last occurrence of `sep`. -/
def cutLast? (sep s : String) : Option (String × String) :=
  (breakOnLast? sep.toList s.toList).map fun cut => (.ofList cut.1, .ofList cut.2)

/-- The text after the last occurrence of `sep`, or all of it. -/
def afterLast (sep s : String) : String :=
  match cutLast? sep s with
  | some (_, rest) => rest
  | none => s

/-- Whether `part` stands somewhere in the text. -/
def contains (s part : String) : Bool :=
  occurs part.toList s.toList

/-- Whether the text contains one of the given parts. -/
def containsAny (s : String) (parts : List String) : Bool :=
  let chars := s.toList
  parts.any fun part => occurs part.toList chars

/-- How often `part` stands in the text, found from the left without overlap. -/
def occurrences (s part : String) : Nat :=
  (splitSeq part.toList s.toList).length - 1

/-- Whether the text begins with `lead`. -/
def startsWith (s lead : String) : Bool :=
  lead.toList.isPrefixOf s.toList

/-- Whether the text ends with `tail`. -/
def endsWith (s tail : String) : Bool :=
  tail.toList.reverse.isPrefixOf s.toList.reverse

/-- The text after `lead`, if it begins with it. -/
def stripStart? (s lead : String) : Option String :=
  if startsWith s lead then some (.ofList (s.toList.drop lead.toList.length)) else none

/-- The text before `tail`, if it ends with it. -/
def stripEnd? (s tail : String) : Option String :=
  if endsWith s tail then some (.ofList (s.toList.take (s.toList.length - tail.toList.length))) else none

/-- The text without the copies of `lead` at its front. -/
def dropStart (s lead : String) : String :=
  .ofList (dropLeads lead.toList s.toList)

/-- The text without the copies of `tail` at its end. -/
def dropEnd (s tail : String) : String :=
  .ofList (dropLeads tail.toList.reverse s.toList.reverse).reverse

/-- The text with the letters A to Z in lower case. -/
def lower (s : String) : String :=
  .ofList (s.toList.map Char.toLower)

/-- The texts in order with `sep` between them. -/
def join (sep : String) (parts : List String) : String :=
  sep.intercalate parts

end CodeAtlas.Text
