/-
  Reading JSON texts.  Each function consumes characters from the front of a list and gives the rest back; the two
  functions that call each other carry an allowance that the length of the text bounds.
-/
import CodeAtlas.Json.Basic
import CodeAtlas.Text.Hex

namespace CodeAtlas.Json

/-- The blanks between tokens. -/
def isSpace (c : Char) : Bool :=
  c == ' ' || c == '\t' || c == '\n' || c == '\r'

/-- The number that four hexadecimal digits spell, and the rest. -/
def hexQuad? : List Char → Option (Nat × List Char)
  | a :: b :: c :: d :: rest => do
    let a ← Text.hexValue? a
    let b ← Text.hexValue? b
    let c ← Text.hexValue? c
    let d ← Text.hexValue? d
    some (((a * 16 + b) * 16 + c) * 16 + d, rest)
  | _ => none

/-- The character of an escape with a code unit; a unit of a pair needs its partner. -/
def unicodeEscape? (cs : List Char) : Option (Char × List Char) := do
  let (hi, rest) ← hexQuad? cs
  if 0xD800 ≤ hi ∧ hi < 0xDC00 then
    match rest with
    | '\\' :: 'u' :: rest =>
      let (lo, rest) ← hexQuad? rest
      if 0xDC00 ≤ lo ∧ lo < 0xE000 then
        some (Char.ofNat (0x10000 + (hi - 0xD800) * 0x400 + (lo - 0xDC00)), rest)
      else none
    | _ => none
  else if 0xDC00 ≤ hi ∧ hi < 0xE000 then none
  else some (Char.ofNat hi, rest)

/-- The character of an escape of one letter. -/
def simpleEscape? : Char → Option Char
  | '"' => some '"'
  | '\\' => some '\\'
  | '/' => some '/'
  | 'b' => some '\x08'
  | 'f' => some '\x0c'
  | 'n' => some '\n'
  | 'r' => some '\r'
  | 't' => some '\t'
  | _ => none

/-- The characters of a string up to its closing quote, in reverse order behind those already read. -/
def stringChars? : (fuel : Nat) → List Char → List Char → Option (List Char × List Char)
  | 0, _, _ => none
  | _ + 1, _, [] => none
  | fuel + 1, acc, c :: rest =>
    if c == '"' then some (acc, rest)
    else if c == '\\' then
      match rest with
      | 'u' :: rest => (unicodeEscape? rest).bind fun (c, rest) => stringChars? fuel (c :: acc) rest
      | e :: rest => (simpleEscape? e).bind fun c => stringChars? fuel (c :: acc) rest
      | [] => none
    else if c.toNat < 32 then none
    else stringChars? fuel (c :: acc) rest

/-- A string after its opening quote. -/
def string? (cs : List Char) : Option (String × List Char) :=
  (stringChars? (cs.length + 1) [] cs).map fun (chars, rest) => (.ofList chars.reverse, rest)

/-- The number that a list of decimal digits spells. -/
def digitsValue (cs : List Char) : Nat :=
  cs.foldl (fun n c => n * 10 + (c.toNat - 48)) 0

/-- The digits at the front, and the rest. -/
def spanDigits (cs : List Char) : List Char × List Char :=
  (cs.takeWhile Char.isDigit, cs.dropWhile Char.isDigit)

/-- The exponent part of a number, if there is one. -/
def exponent? (cs : List Char) : Option (Option Int × List Char) :=
  match cs with
  | c :: rest =>
    if c == 'e' || c == 'E' then
      let (sign, rest) := match rest with
        | '-' :: rest => ((-1 : Int), rest)
        | '+' :: rest => (1, rest)
        | rest => (1, rest)
      let (digits, rest) := spanDigits rest
      if digits.isEmpty then none else some (some (sign * digitsValue digits), rest)
    else some (none, cs)
  | [] => some (none, [])

/-- A number without its sign. A number with fraction or exponent, or outside 64 bits, is a double. -/
def number? (negative : Bool) (cs : List Char) : Option (Json × List Char) := do
  let (whole, rest) := spanDigits cs
  if whole.isEmpty || (whole.length > 1 && whole.head? == some '0') then none
  else
    let (fraction, rest) ← match rest with
      | '.' :: rest =>
        let (fraction, rest) := spanDigits rest
        if fraction.isEmpty then none else some (some fraction, rest)
      | rest => some (none, rest)
    let (exponent, rest) ← exponent? rest
    let n := digitsValue whole
    match fraction, exponent with
    | none, none =>
      if negative && (n == 0 || 0x8000000000000000 < n) || 0x10000000000000000 ≤ n then
        some (.real (.ofDecimal negative n 0), rest)
      else some (.int (if negative then -n else n), rest)
    | fraction, exponent =>
      let digits := fraction.getD []
      match Double.ofDecimal negative (digitsValue (whole ++ digits)) (exponent.getD 0 - digits.length) with
      | .infinite _ => none
      | x => some (.real x, rest)

mutual

/-- The value at the front, and the rest. -/
def value? : (fuel : Nat) → List Char → Option (Json × List Char)
  | 0, _ => none
  | fuel + 1, cs =>
    match cs.dropWhile isSpace with
    | '"' :: rest => (string? rest).map fun (s, rest) => (.str s, rest)
    | '[' :: rest =>
      match rest.dropWhile isSpace with
      | ']' :: rest => some (.arr [], rest)
      | rest => items? fuel [] rest
    | '{' :: rest =>
      match rest.dropWhile isSpace with
      | '}' :: rest => some (.obj [], rest)
      | rest => fields? fuel [] rest
    | 't' :: 'r' :: 'u' :: 'e' :: rest => some (.bool true, rest)
    | 'f' :: 'a' :: 'l' :: 's' :: 'e' :: rest => some (.bool false, rest)
    | 'n' :: 'u' :: 'l' :: 'l' :: rest => some (.null, rest)
    | '-' :: rest => number? true rest
    | rest => number? false rest

/-- The items of an array, behind those already read. -/
def items? : (fuel : Nat) → List Json → List Char → Option (Json × List Char)
  | 0, _, _ => none
  | fuel + 1, acc, cs =>
    match value? fuel cs with
    | none => none
    | some (v, rest) =>
      match rest.dropWhile isSpace with
      | ',' :: rest => items? fuel (v :: acc) rest
      | ']' :: rest => some (.arr (v :: acc).reverse, rest)
      | _ => none

/-- The fields of an object, behind those already read. -/
def fields? : (fuel : Nat) → List (String × Json) → List Char → Option (Json × List Char)
  | 0, _, _ => none
  | fuel + 1, acc, cs =>
    match cs.dropWhile isSpace with
    | '"' :: rest =>
      match string? rest with
      | none => none
      | some (key, rest) =>
        match rest.dropWhile isSpace with
        | ':' :: rest =>
          match value? fuel rest with
          | none => none
          | some (v, rest) =>
            match rest.dropWhile isSpace with
            | ',' :: rest => fields? fuel ((key, v) :: acc) rest
            | '}' :: rest => some (.obj ((key, v) :: acc).reverse, rest)
            | _ => none
        | _ => none
    | _ => none

end

/-- The value that a text spells, if it is JSON. -/
def parse? (s : String) : Option Json :=
  let cs := s.toList
  match value? (2 * cs.length + 2) cs with
  | some (j, rest) => if (rest.dropWhile isSpace).isEmpty then some j else none
  | none => none

end CodeAtlas.Json
