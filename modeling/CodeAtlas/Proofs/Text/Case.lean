/-
  Letter case, and what stands somewhere in a text.

  A text is written in lower case letter by letter (`lower_append`), which leaves alone what is no letter
  (`toLower_eq_iff`): so the file name and its stem are found before or after (`fileName_lower`, `fileStem_lower`).
  A text contains another one when it stands between two others (`contains_iff`).
-/
import CodeAtlas.Path
import CodeAtlas.Proofs.Text.Before

namespace CodeAtlas

namespace Text

variable {s part lead rest : String}

/-! ## Parts of a text -/

theorem occurs_iff {α : Type} [BEq α] [LawfulBEq α] {needle l : List α} : occurs needle l = true ↔ needle <:+: l := by
  induction l with
  | nil => rw [occurs, List.isEmpty_iff, List.infix_nil]
  | cons c l ih => rw [occurs, Bool.or_eq_true, List.isPrefixOf_iff_prefix, ih, List.infix_cons_iff]

theorem contains_iff : contains s part = true ↔ ∃ front back, s = front ++ part ++ back := by
  unfold contains
  rw [occurs_iff]
  constructor
  · rintro ⟨front, back, h⟩
    refine ⟨.ofList front, .ofList back, String.toList_inj.mp ?_⟩
    rw [String.toList_append, String.toList_append, String.toList_ofList, String.toList_ofList, h]
  · rintro ⟨front, back, rfl⟩
    rw [String.toList_append, String.toList_append]
    exact List.infix_append _ _ _

theorem containsAny_iff {parts : List String} :
    containsAny s parts = true ↔ ∃ part ∈ parts, ∃ front back, s = front ++ part ++ back := by
  have hany : containsAny s parts = parts.any (contains s) := rfl
  rw [hany, List.any_eq_true]
  simp only [contains_iff]

/-- The pieces around the separator at which a text is cut give it back. -/
theorem eq_of_cutFirst? (h : cutFirst? part s = some (lead, rest)) : s = lead ++ part ++ rest := by
  obtain ⟨⟨front, back⟩, hcut, heq⟩ := Option.map_eq_some_iff.mp h
  cases heq
  refine String.toList_inj.mp ?_
  rw [String.toList_append, String.toList_append, String.toList_ofList, String.toList_ofList, eq_of_breakOn? hcut,
    List.append_assoc]

theorem isSome_breakOn? {α : Type} [BEq α] (needle l : List α) : (breakOn? needle l).isSome = occurs needle l := by
  induction l with
  | nil =>
    rw [breakOn?, occurs]
    cases needle.isEmpty <;> rfl
  | cons c l ih =>
    rw [breakOn?, occurs, ← ih]
    cases needle.isPrefixOf (c :: l) with
    | true => rfl
    | false => simp

/-- A text is cut at a separator exactly when it contains it. -/
theorem isSome_cutFirst?_iff : (cutFirst? part s).isSome = true ↔ ∃ front back, s = front ++ part ++ back := by
  unfold cutFirst?
  rw [Option.isSome_map, isSome_breakOn?]
  exact contains_iff

theorem stripStart?_eq_some_iff : stripStart? s lead = some rest ↔ s = lead ++ rest := by
  unfold stripStart?
  constructor
  · intro h
    split at h
    · rename_i hstarts
      obtain ⟨back, rfl⟩ := startsWith_iff.mp hstarts
      rw [← Option.some.inj h, String.toList_append, List.drop_left, String.ofList_toList]
    · cases h
  · rintro rfl
    rw [if_pos (startsWith_iff.mpr ⟨rest, rfl⟩), String.toList_append, List.drop_left, String.ofList_toList]

/-- What begins with a character outside of a text, behind another one, does not matter for its beginning. -/
theorem startsWith_append_cons {c : Char} {back : String} (hc : c ∉ lead.toList) (hback : back.toList.head? = some c)
    (s : String) : startsWith (s ++ back) lead = startsWith s lead := by
  obtain ⟨chars, hchars⟩ := List.head?_eq_some_iff.mp hback
  unfold startsWith
  rw [String.toList_append, hchars, isPrefixOf_append_cons hc]

/-! ## Lower case -/

/-- What is no letter is the lower case of itself alone. -/
theorem toLower_eq_iff {c d : Char} (h : d.isAlpha = false) : c.toLower = d ↔ c = d := by
  have halpha (c : Char) : c.isAlpha = (c.isUpper || c.isLower) := rfl
  have hupper (c : Char) : c.isUpper = decide (c.val ≥ 'A'.val ∧ c.val ≤ 'Z'.val) := rfl
  have hlower (c : Char) : c.isLower = (decide (c.val ≥ 'a'.val) && decide (c.val ≤ 'z'.val)) := rfl
  unfold Char.toLower
  split
  · rename_i hc
    constructor
    all_goals
      rintro rfl
      simp [halpha, hupper, hlower, UInt32.le_iff_toNat_le] at h hc
      omega
  · rfl

theorem toList_lower (s : String) : (lower s).toList = s.toList.map Char.toLower :=
  String.toList_ofList

theorem lower_append (s t : String) : lower (s ++ t) = lower s ++ lower t := by
  refine String.toList_inj.mp ?_
  rw [String.toList_append, toList_lower, toList_lower, toList_lower, String.toList_append, List.map_append]

theorem lower_eq_empty_iff : lower s = "" ↔ s = "" := by
  rw [← String.toList_eq_nil_iff, toList_lower, List.map_eq_nil_iff, String.toList_eq_nil_iff]

theorem mem_toList_lower_iff {c : Char} (h : c.isAlpha = false) : c ∈ (lower s).toList ↔ c ∈ s.toList := by
  rw [toList_lower, List.mem_map]
  constructor
  · rintro ⟨d, hd, hlower⟩
    exact (toLower_eq_iff h).mp hlower ▸ hd
  · exact fun hc => ⟨c, hc, (toLower_eq_iff h).mpr rfl⟩

/-- A text with a character is cut where this stands last. -/
theorem exists_last_of_mem {sep : String} {c : Char} (hsep : sep.toList = [c]) (h : c ∈ s.toList) :
    ∃ front rest, s = front ++ sep ++ rest ∧ c ∉ rest.toList := by
  obtain ⟨after, before, hreverse, hnot⟩ := List.eq_append_cons_of_mem (List.mem_reverse.mpr h)
  refine ⟨.ofList before.reverse, .ofList after.reverse, String.toList_inj.mp ?_, ?_⟩
  · rw [toList_append_char hsep, String.toList_ofList, String.toList_ofList, ← List.reverse_reverse s.toList, hreverse]
    simp
  · rw [String.toList_ofList, List.mem_reverse]
    exact hnot

/-- A text in lower case is cut at the same place, if the separator is no letter. -/
theorem cutLast?_lower {sep : String} {c : Char} (hsep : sep.toList = [c]) (hc : c.isAlpha = false) (s : String) :
    cutLast? sep (lower s) = (cutLast? sep s).map fun cut => (lower cut.1, lower cut.2) := by
  by_cases hmem : c ∈ s.toList
  · obtain ⟨front, rest, rfl, hrest⟩ := exists_last_of_mem hsep hmem
    have hlower : lower sep = sep := by
      refine String.toList_inj.mp ?_
      rw [toList_lower, hsep, List.map_singleton, (toLower_eq_iff hc).mpr rfl]
    rw [lower_append, lower_append, hlower, cutLast?_append hsep _ hrest,
      cutLast?_append hsep _ (mt (mem_toList_lower_iff hc).mp hrest)]
    rfl
  · rw [cutLast?_of_notMem hsep hmem, cutLast?_of_notMem hsep (mt (mem_toList_lower_iff hc).mp hmem)]
    rfl

end Text

/-! ## File names -/

namespace Path

theorem isSlash_toLower (c : Char) : isSlash c.toLower = isSlash c := by
  rw [Bool.eq_iff_iff]
  simp only [isSlash, Bool.or_eq_true, beq_iff_eq, Text.toLower_eq_iff (show '/'.isAlpha = false by decide),
    Text.toLower_eq_iff (show '\\'.isAlpha = false by decide)]

theorem fileName_lower (path : String) : fileName (Text.lower path) = Text.lower (fileName path) := by
  have hslash : (fun c => !isSlash c) ∘ Char.toLower = fun c => !isSlash c :=
    funext fun c => congrArg not (isSlash_toLower c)
  refine String.toList_inj.mp ?_
  unfold fileName
  rw [String.toList_ofList, Text.toList_lower, Text.toList_lower, String.toList_ofList, ← List.map_reverse,
    List.takeWhile_map, hslash, List.map_reverse]

theorem fileName_fileName (path : String) : fileName (fileName path) = fileName path := by
  unfold fileName
  simp only [String.toList_ofList, List.reverse_reverse, List.takeWhile_takeWhile, and_self,
    Bool.decide_eq_true]

theorem fileStem_lower (path : String) : fileStem (Text.lower path) = Text.lower (fileStem path) := by
  unfold fileStem
  dsimp only
  rw [fileName_lower, Text.cutLast?_lower rfl (by decide)]
  cases Text.cutLast? "." (fileName path) with
  | none => rfl
  | some cut =>
    have hempty : (Text.lower cut.1).isEmpty = cut.1.isEmpty := by
      rw [Bool.eq_iff_iff, String.isEmpty_iff, String.isEmpty_iff, Text.lower_eq_empty_iff]
    simp only [Option.map_some, hempty]
    split <;> rfl

/-- The stem of a file name is that of the path. -/
theorem fileStem_fileName (path : String) : fileStem (fileName path) = fileStem path := by
  unfold fileStem
  rw [fileName_fileName]

/-- A file name is its stem, alone or with the rest from the last dot on behind it. -/
theorem exists_rest_fileStem (path : String) :
    ∃ rest, fileName path = fileStem path ++ rest ∧ (rest = "" ∨ rest.toList.head? = some '.') := by
  unfold fileStem
  dsimp only
  cases hcut : Text.cutLast? "." (fileName path) with
  | none => exact ⟨"", String.append_empty.symm, Or.inl rfl⟩
  | some cut =>
    dsimp only
    split
    · exact ⟨"", String.append_empty.symm, Or.inl rfl⟩
    · exact ⟨"." ++ cut.2, by rw [← String.append_assoc]; exact Text.eq_of_cutLast? hcut, Or.inr (by
        rw [String.toList_append]; rfl)⟩

end Path

end CodeAtlas
