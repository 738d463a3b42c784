/-
  Double precision numbers as exact rationals.

  `nearest` rounds a rational to the nearest double (53 binary digits, exponent at least -1074, ties to even), so a
  double operation is the exact operation followed by `nearest`.  `Double` is a double as data: it keeps the sign of
  zero and the two values that are no rationals.  `fixed` writes a number with a given number of decimals, rounding
  its exact value with ties to even.
-/
import CodeAtlas.Number.Round

namespace CodeAtlas

/-- The quotient `num / den` divided by `2 ^ e`, as a pair of numerator and denominator. -/
def scaleDown (num den : Nat) (e : Int) : Nat × Nat :=
  if 0 ≤ e then (num, den * Nat.pow 2 e.toNat) else (num * Nat.pow 2 (-e).toNat, den)

/-- The exponent of the last binary digit of the double nearest to `num / den`. -/
def lastDigitExponent (num den : Nat) : Int :=
  let e : Int := (num.log2 : Int) - (den.log2 : Int) - 52
  let scaled := scaleDown num den e
  let e := if scaled.1 < scaled.2 * Nat.pow 2 52 then e - 1 else e
  if e < -1074 then -1074 else e

/-- The double nearest to a rational, without regard to overflow. -/
def nearest (r : Rat) : Rat :=
  if r.num = 0 then 0
  else
    let num := r.num.natAbs
    let e := lastDigitExponent num r.den
    let scaled := scaleDown num r.den e
    let m := roundDiv scaled.1 scaled.2
    let magnitude : Rat := if 0 ≤ e then ((m * Nat.pow 2 e.toNat : Nat) : Rat) else mkRat m (Nat.pow 2 (-e).toNat)
    if r.num < 0 then -magnitude else magnitude

/-- The nearest double to a quotient of whole numbers. -/
def quotient (num den : Nat) : Rat :=
  nearest (mkRat num den)

/-- The digits of a natural number, filled up with zeros on the left to `width`. -/
def paddedDigits (width n : Nat) : String :=
  let digits := Nat.toDigits 10 n
  .ofList (List.replicate (width - digits.length) '0' ++ digits)

/-- A magnitude with `places` decimals, a half going to the even neighbour. -/
def fixedMagnitude (places : Nat) (num den : Nat) : String :=
  let units := roundDiv (num * Nat.pow 10 places) den
  toString (units / Nat.pow 10 places) ++ "." ++ paddedDigits places (units % Nat.pow 10 places)

/-- A rational with `places` decimals, a half going to the even neighbour. -/
def fixed (places : Nat) (r : Rat) : String :=
  (if r.num < 0 then "-" else "") ++ fixedMagnitude places r.num.natAbs r.den

/-- A double precision number: sign and exact magnitude, an infinity, or no number. -/
inductive Double where
  | finite (negative : Bool) (magnitude : Rat)
  | infinite (negative : Bool)
  | nan
  deriving DecidableEq, Inhabited

namespace Double

/-- The double nearest to a rational. -/
def ofRat (r : Rat) : Double :=
  let d := nearest r
  if ((Nat.pow 2 1024 : Nat) : Rat) ≤ d then .infinite false
  else if d ≤ -((Nat.pow 2 1024 : Nat) : Rat) then .infinite true
  else if d < 0 then .finite true (-d) else .finite false d

/-- The double nearest to `digits * 10 ^ exponent`. Exponents far outside the range of doubles are settled without
computing the power. -/
def ofDecimal (negative : Bool) (digits : Nat) (exponent : Int) : Double :=
  let order : Int := (Nat.toDigits 10 digits).length + exponent
  if digits = 0 ∨ order < -400 then .finite negative 0
  else if 400 < order then .infinite negative
  else
    let scale := Nat.pow 10 exponent.natAbs
    let magnitude := if 0 ≤ exponent then ((digits * scale : Nat) : Rat) else mkRat digits scale
    match ofRat magnitude with
    | .finite _ m => .finite negative m
    | .infinite _ => .infinite negative
    | .nan => .nan

/-- The exact value of a finite double. -/
def value? : Double → Option Rat
  | .finite negative magnitude => some (if negative then -magnitude else magnitude)
  | _ => none

/-- Whether the number lies between 0 and 1, both included. -/
def isFraction (x : Double) : Bool :=
  match x.value? with
  | some r => decide (0 ≤ r) && decide (r ≤ 1)
  | none => false

/-- Whether a rational is at least the given double. -/
def atMost (x : Double) (r : Rat) : Bool :=
  match x with
  | .finite negative magnitude => decide ((if negative then -magnitude else magnitude) ≤ r)
  | .infinite negative => negative
  | .nan => false

/-- The number with `places` decimals. -/
def fixed (places : Nat) : Double → String
  | .finite negative magnitude =>
    (if negative then "-" else "") ++ fixedMagnitude places magnitude.num.natAbs magnitude.den
  | .infinite negative => if negative then "-inf" else "inf"
  | .nan => "NaN"

end Double

end CodeAtlas
