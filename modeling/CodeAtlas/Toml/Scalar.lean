/-
  The strings, numbers and keys of TOML.  Each function consumes characters from the front of a list and gives the rest
  back.
-/
import CodeAtlas.Json.Basic
import CodeAtlas.Text.Hex

namespace CodeAtlas.Toml

/-- The blanks within a line. -/
def isSpace (c : Char) : Bool :=
  c == ' ' || c == '\t'

/-- The characters of comments and strings: a tab, and all that are no control characters. -/
def isPlain (c : Char) : Bool :=
  c == '\t' || (32 ≤ c.toNat && c.toNat != 127)

/-- The rest after a line break. -/
def newline? : List Char → Option (List Char)
  | '\n' :: rest => some rest
  | '\r' :: '\n' :: rest => some rest
  | _ => none

/-- The rest after the blanks, line breaks and comments at the front. -/
def skipFiller : (inComment : Bool) → List Char → List Char
  | _, [] => []
  | _, '\r' :: '\n' :: rest => skipFiller false rest
  | inComment, c :: rest =>
    if c == '\n' then skipFiller false rest
    else if inComment then if isPlain c then skipFiller true rest else c :: rest
    else if isSpace c then skipFiller false rest
    else if c == '#' then skipFiller true rest
    else c :: rest

/-- The number that digits of a base spell. -/
def digitsIn? (base : Nat) (cs : List Char) : Option Nat :=
  cs.foldlM (fun n c => (Text.hexValue? c).bind fun d => if d < base then some (n * base + d) else none) 0

/-- The character with the code point that the first `count` characters spell. -/
def codePoint? (count : Nat) (cs : List Char) : Option (Char × List Char) := do
  if cs.length < count then none
  else
    let n ← digitsIn? 16 (cs.take count)
    if n.isValidChar then some (Char.ofNat n, cs.drop count) else none

/-- The character of an escape, after the backslash. -/
def escape? : List Char → Option (Char × List Char)
  | 'b' :: rest => some ('\x08', rest)
  | 't' :: rest => some ('\t', rest)
  | 'n' :: rest => some ('\n', rest)
  | 'f' :: rest => some ('\x0c', rest)
  | 'r' :: rest => some ('\r', rest)
  | '"' :: rest => some ('"', rest)
  | '\\' :: rest => some ('\\', rest)
  | 'u' :: rest => codePoint? 4 rest
  | 'U' :: rest => codePoint? 8 rest
  | _ => none

/-- The characters of a basic string up to its closing quote, behind those already read. -/
def basicChars? : (fuel : Nat) → List Char → List Char → Option (List Char × List Char)
  | 0, _, _ => none
  | _ + 1, _, [] => none
  | fuel + 1, acc, c :: rest =>
    if c == '"' then some (acc.reverse, rest)
    else if c == '\\' then (escape? rest).bind fun (c, rest) => basicChars? fuel (c :: acc) rest
    else if isPlain c then basicChars? fuel (c :: acc) rest
    else none

/-- A literal string after its opening quote. -/
def literalChars? (cs : List Char) : Option (List Char × List Char) :=
  match cs.dropWhile fun c => isPlain c && c != '\'' with
  | '\'' :: rest => some (cs.takeWhile fun c => isPlain c && c != '\'', rest)
  | _ => none

/-- The rest after the line break at the front, if there is one. -/
def dropNewline (cs : List Char) : List Char :=
  (newline? cs).getD cs

/-- The end of a string of several lines, when three quotes or more stand at the front: up to two of them belong to the
string. -/
def closing? (quote : Char) (cs : List Char) : Option (List Char × List Char) :=
  let count := (cs.takeWhile (· == quote)).length
  if count < 3 then none
  else
    let kept := min (count - 3) 2
    some (List.replicate kept quote, cs.drop (kept + 3))

/-- The characters of a basic string of several lines, behind those already read. A backslash at the end of a line
takes away all blanks up to the next character. -/
def longBasicChars? : (fuel : Nat) → List Char → List Char → Option (List Char × List Char)
  | 0, _, _ => none
  | _ + 1, _, [] => none
  | fuel + 1, acc, c :: rest =>
    match closing? '"' (c :: rest), newline? (c :: rest) with
    | some (kept, rest), _ => some (acc.reverse ++ kept, rest)
    | none, some rest => longBasicChars? fuel ('\n' :: acc) rest
    | none, none =>
      if c == '\\' then
        match newline? (rest.dropWhile isSpace) with
        | some rest =>
          longBasicChars? fuel acc
            (rest.dropWhile fun c => isSpace c || c == '\n' || c == '\r')
        | none => (escape? rest).bind fun (c, rest) => longBasicChars? fuel (c :: acc) rest
      else if isPlain c then longBasicChars? fuel (c :: acc) rest
      else none

/-- The characters of a literal string of several lines, behind those already read. -/
def longLiteralChars? : (fuel : Nat) → List Char → List Char → Option (List Char × List Char)
  | 0, _, _ => none
  | _ + 1, _, [] => none
  | fuel + 1, acc, c :: rest =>
    match closing? '\'' (c :: rest), newline? (c :: rest) with
    | some (kept, rest), _ => some (acc.reverse ++ kept, rest)
    | none, some rest => longLiteralChars? fuel ('\n' :: acc) rest
    | none, none => if isPlain c then longLiteralChars? fuel (c :: acc) rest else none

/-- The string at the front. -/
def string? (cs : List Char) : Option (String × List Char) :=
  let fuel := cs.length
  let chars := match cs with
    | '"' :: '"' :: '"' :: rest => longBasicChars? fuel [] (dropNewline rest)
    | '"' :: rest => basicChars? fuel [] rest
    | '\'' :: '\'' :: '\'' :: rest => longLiteralChars? fuel [] (dropNewline rest)
    | '\'' :: rest => literalChars? rest
    | _ => none
  chars.map fun (chars, rest) => (.ofList chars, rest)

/-- The characters of keys without quotes. -/
def isKeyChar (c : Char) : Bool :=
  c.isAlphanum || c == '_' || c == '-'

/-- One part of a key. -/
def keyPart? (cs : List Char) : Option (String × List Char) :=
  match cs with
  | '"' :: rest => (basicChars? cs.length [] rest).map fun (chars, rest) => (.ofList chars, rest)
  | '\'' :: rest => (literalChars? rest).map fun (chars, rest) => (.ofList chars, rest)
  | _ =>
    let name := cs.takeWhile isKeyChar
    if name.isEmpty then none else some (.ofList name, cs.dropWhile isKeyChar)

/-- The parts of a key with dots between them, the last one apart, and the rest after the blanks behind it. -/
def key? : (fuel : Nat) → List Char → Option ((List String × String) × List Char)
  | 0, _ => none
  | fuel + 1, cs => do
    let (part, rest) ← keyPart? (cs.dropWhile isSpace)
    match rest.dropWhile isSpace with
    | '.' :: rest =>
      let ((path, last), rest) ← key? fuel rest
      some ((part :: path, last), rest)
    | rest => some (([], part), rest)

/-- The digits at the front; single underscores may stand between them. -/
def moreDigits? (isDigit : Char → Bool) : List Char → Option (List Char × List Char)
  | [] => some ([], [])
  | '_' :: c :: rest =>
    if isDigit c then (moreDigits? isDigit rest).map fun (digits, rest) => (c :: digits, rest) else none
  | c :: rest =>
    if isDigit c then (moreDigits? isDigit rest).map fun (digits, rest) => (c :: digits, rest)
    else some ([], c :: rest)

/-- At least one digit. -/
def digits? (isDigit : Char → Bool) : List Char → Option (List Char × List Char)
  | c :: rest =>
    if isDigit c then (moreDigits? isDigit rest).map fun (digits, rest) => (c :: digits, rest) else none
  | [] => none

/-- A whole number of 64 bits with sign. -/
def whole? (n : Int) : Option Json :=
  if -0x8000000000000000 ≤ n ∧ n < 0x8000000000000000 then some (.int n) else none

/-- A whole number in a base other than ten, after the mark of the base. -/
def basedNumber? (base : Nat) (cs : List Char) : Option (Json × List Char) := do
  let (digits, rest) ← digits? (fun c => (Text.hexValue? c).any (· < base)) cs
  let n ← digitsIn? base digits
  some (← whole? n, rest)

/-- The exponent of a number, if there is one. -/
def exponent? : List Char → Option (Option Int × List Char)
  | c :: rest =>
    if c == 'e' || c == 'E' then do
      let (sign, rest) := match rest with
        | '-' :: rest => ((-1 : Int), rest)
        | '+' :: rest => (1, rest)
        | rest => (1, rest)
      let (digits, rest) ← digits? Char.isDigit rest
      some (some (sign * (← digitsIn? 10 digits)), rest)
    else some (none, c :: rest)
  | [] => some (none, [])

/-- The fraction of a number, if there is one. -/
def fraction? : List Char → Option (Option (List Char) × List Char)
  | '.' :: rest => (digits? Char.isDigit rest).map fun (digits, rest) => (some digits, rest)
  | rest => some (none, rest)

/-- A number in base ten after its sign: whole without fraction and exponent, and else a double. -/
def decimalNumber? (negative : Bool) (cs : List Char) : Option (Json × List Char) := do
  let (digits, rest) ← match cs with
    | '0' :: rest => some (['0'], rest)
    | rest => digits? Char.isDigit rest
  let (fraction, rest) ← fraction? rest
  let (exponent, rest) ← exponent? rest
  match fraction, exponent with
  | none, none =>
    let n ← digitsIn? 10 digits
    some (← whole? (if negative then -(n : Int) else n), rest)
  | fraction, exponent =>
    let fraction := fraction.getD []
    let n ← digitsIn? 10 (digits ++ fraction)
    match Double.ofDecimal negative n (exponent.getD 0 - fraction.length) with
    | .infinite false => none
    | x => some (.real x, rest)

/-- A number after its sign. -/
def signedNumber? (negative : Bool) : List Char → Option (Json × List Char)
  | 'i' :: 'n' :: 'f' :: rest => some (.real (.infinite negative), rest)
  | 'n' :: 'a' :: 'n' :: rest => some (.real .nan, rest)
  | rest => decimalNumber? negative rest

/-- The number at the front. -/
def number? : List Char → Option (Json × List Char)
  | '0' :: 'x' :: rest => basedNumber? 16 rest
  | '0' :: 'o' :: rest => basedNumber? 8 rest
  | '0' :: 'b' :: rest => basedNumber? 2 rest
  | '-' :: rest => signedNumber? true rest
  | '+' :: rest => signedNumber? false rest
  | rest => signedNumber? false rest

end CodeAtlas.Toml
