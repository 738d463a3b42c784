/-
  What an identifier tells of its parts.

  The text that is digested for an identifier tells the list of parts, as long as there is a part and none holds a NUL
  character (`idPreimage_inj`).  Identifiers themselves, numbers and tags hold none.  So where no two of the digested texts
  collide, equal identifiers have equal parts (`NoCollision.eq_of_stableId_eq`).
-/
import CodeAtlas.Digest.StableId
import CodeAtlas.Proofs.Text.Split

namespace CodeAtlas

/-- A text without NUL characters. -/
def NulFree (s : String) : Prop :=
  '\x00' ∉ s.toList

instance (s : String) : Decidable (NulFree s) :=
  inferInstanceAs (Decidable ('\x00' ∉ s.toList))

/-- The text that is digested tells the parts apart. -/
theorem idPreimage_inj {parts parts' : List String} (hne : parts ≠ []) (hne' : parts' ≠ [])
    (hfree : ∀ s ∈ parts, NulFree s) (hfree' : ∀ s ∈ parts', NulFree s) (h : idPreimage parts = idPreimage parts') :
    parts = parts' := by
  have hsep : "\x00".toList = ['\x00'] := rfl
  calc parts = Text.splitChar '\x00' (Text.join "\x00" parts) := (Text.splitChar_join hsep hfree hne).symm
    _ = Text.splitChar '\x00' (Text.join "\x00" parts') := congrArg _ h
    _ = parts' := Text.splitChar_join hsep hfree' hne'

/-! ## Texts without NUL characters -/

theorem hexDigit_ne_nul : ∀ n < 16, Text.hexDigit n ≠ '\x00' := by
  decide

theorem nulFree_hex (bytes : List UInt8) : NulFree (Text.hex bytes) := by
  unfold NulFree Text.hex
  rw [String.toList_ofList]
  intro h
  obtain ⟨b, -, hb⟩ := List.mem_flatMap.mp h
  have hlt : b.toNat < 256 := b.toNat_lt
  rcases List.mem_cons.mp hb with hhigh | hlow
  · exact hexDigit_ne_nul _ (by omega) hhigh.symm
  · exact hexDigit_ne_nul _ (by omega) (List.mem_singleton.mp hlow).symm

theorem nulFree_stableId (parts : List String) : NulFree (stableId parts) := by
  unfold NulFree stableId
  rw [String.toList_ofList]
  exact fun h => nulFree_hex _ (List.mem_of_mem_take h)

theorem nulFree_repr (n : Nat) : NulFree (toString n) := by
  intro h
  have hdigit := Nat.isDigit_of_mem_toDigits (by decide) (by decide) (Nat.toList_repr ▸ h)
  cases hdigit

/-- The digits of a number tell it. -/
theorem eq_of_toString_eq {m n : Nat} (h : toString m = toString n) : m = n := by
  have hdigits : Nat.toDigits 10 m = Nat.toDigits 10 n := by
    rw [← Nat.toList_repr, ← Nat.toList_repr]
    exact congrArg String.toList h
  rw [← Nat.ofDigitChars_ten_toDigits (n := m), hdigits, Nat.ofDigitChars_ten_toDigits]

/-! ## Collisions -/

/-- No two of the texts digested for some identifiers have one identifier. -/
def NoCollision (identified : List (List String)) : Prop :=
  ∀ p ∈ identified, ∀ q ∈ identified, stableId p = stableId q → idPreimage p = idPreimage q

instance (identified : List (List String)) : Decidable (NoCollision identified) :=
  inferInstanceAs (Decidable (∀ p ∈ identified, ∀ q ∈ identified, stableId p = stableId q → idPreimage p = idPreimage q))

theorem NoCollision.mono {identified identified' : List (List String)} (h : NoCollision identified')
    (hsubset : identified ⊆ identified') : NoCollision identified :=
  fun p hp q hq => h p (hsubset hp) q (hsubset hq)

/-- Where no texts collide, equal identifiers have equal parts. -/
theorem NoCollision.eq_of_stableId_eq {identified : List (List String)} (h : NoCollision identified)
    {p q : List String} (hp : p ∈ identified) (hq : q ∈ identified) (hne : p ≠ []) (hne' : q ≠ [])
    (hfree : ∀ s ∈ p, NulFree s) (hfree' : ∀ s ∈ q, NulFree s) (heq : stableId p = stableId q) : p = q :=
  idPreimage_inj hne hne' hfree hfree' (h p hp q hq heq)

end CodeAtlas
