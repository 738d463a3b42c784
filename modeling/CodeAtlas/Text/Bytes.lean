/-
  Byte offsets in a text.  Offsets count the bytes of the UTF-8 encoding.  `slice?` is the text whose bytes are a
  given range, which exists exactly when the range is in order, inside the text and cuts no character apart.
  `Position.of` turns an offset into a row and a column by counting newline bytes.
-/
namespace CodeAtlas.Text

/-- The text whose encoding is the bytes from `start` up to `stop`. -/
def slice? (s : String) (start stop : Nat) : Option String :=
  if start ≤ stop ∧ stop ≤ s.utf8ByteSize then String.fromUTF8? (s.toByteArray.extract start stop) else none

/-- The text of a byte range, empty where `slice?` has none. -/
def slice (s : String) (start stop : Nat) : String :=
  (slice? s start stop).getD ""

/-- The bytes of the encoding. -/
def bytes (s : String) : List UInt8 :=
  s.toByteArray.data.toList

/-- Row and column of a byte, both counted from 0. -/
structure Position where
  row : Nat
  column : Nat
  deriving Repr, DecidableEq, Inhabited

/-- The row of an offset is the number of newlines before it, its column the number of bytes since the last one. -/
def Position.of (bytes : List UInt8) (offset : Nat) : Position :=
  let before := bytes.take offset
  { row := before.count 10
    column := (before.reverse.takeWhile (· != 10)).length }

/-- How many bytes at the front form whole characters of valid UTF-8. -/
def validUpTo : (fuel : Nat) → List UInt8 → Nat
  | 0, _ => 0
  | _, [] => 0
  | fuel + 1, a :: rest =>
    let tail (b : UInt8) : Bool := 0x80 ≤ b && b ≤ 0xBF
    if a < 0x80 then 1 + validUpTo fuel rest
    else match rest with
      | [] => 0
      | b :: rest =>
        if 0xC2 ≤ a && a ≤ 0xDF && tail b then 2 + validUpTo fuel rest
        else
          let second := (a == 0xE0 && 0xA0 ≤ b && b ≤ 0xBF) || (0xE1 ≤ a && a ≤ 0xEC && tail b)
            || (a == 0xED && 0x80 ≤ b && b ≤ 0x9F) || (0xEE ≤ a && a ≤ 0xEF && tail b)
          match rest with
          | [] => 0
          | c :: rest =>
            if second && tail c then 3 + validUpTo fuel rest
            else
              let second := (a == 0xF0 && 0x90 ≤ b && b ≤ 0xBF) || (0xF1 ≤ a && a ≤ 0xF3 && tail b)
                || (a == 0xF4 && 0x80 ≤ b && b ≤ 0x8F)
              match rest with
              | [] => 0
              | d :: rest => if second && tail c && tail d then 4 + validUpTo fuel rest else 0

/-- The text that the bytes encode, or the offset of the first byte that belongs to no character. -/
def decode (bytes : List UInt8) : Except Nat String :=
  match String.fromUTF8? ⟨bytes.toArray⟩ with
  | some s => .ok s
  | none => .error (validUpTo bytes.length bytes)

end CodeAtlas.Text
