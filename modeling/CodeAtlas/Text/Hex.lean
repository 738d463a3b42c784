/-
  Hexadecimal digits: writing bytes as pairs of digits and reading them back.
-/
namespace CodeAtlas.Text

/-- A digit of base 16, in lower case. -/
def hexDigit (n : Nat) : Char :=
  if n < 10 then Char.ofNat (48 + n) else Char.ofNat (87 + n)

/-- The value of a digit of base 16, in either case. -/
def hexValue? (c : Char) : Option Nat :=
  if '0' ≤ c ∧ c ≤ '9' then some (c.toNat - 48)
  else if 'a' ≤ c ∧ c ≤ 'f' then some (c.toNat - 87)
  else if 'A' ≤ c ∧ c ≤ 'F' then some (c.toNat - 55)
  else none

/-- The digits of the bytes, two each. -/
def hex (bytes : List UInt8) : String :=
  .ofList (bytes.flatMap fun b => [hexDigit (b.toNat / 16), hexDigit (b.toNat % 16)])

/-- The bytes that pairs of digits spell. -/
def unhexChars? : List Char → Option (List UInt8)
  | [] => some []
  | a :: b :: rest => do
    let a ← hexValue? a
    let b ← hexValue? b
    let rest ← unhexChars? rest
    some (UInt8.ofNat (a * 16 + b) :: rest)
  | [_] => none

/-- The bytes that a text of digits spells. -/
def unhex? (s : String) : Option (List UInt8) :=
  unhexChars? s.toList

end CodeAtlas.Text
