/-
  Pieces of texts.

  Cutting at one character and joining with it undo each other: the pieces of a text give it back (`join_splitChar`), and
  parts without the character are the pieces of the text that they give (`splitChar_join`).  What stands before the last
  occurrence of a character is found by cutting there (`cutLast?_append`).  The same holds of a doubled character as the
  separator (`splitText_join`, `cutLast?_append_doubled`).  A text is cut at the last occurrence of any other separator too
  (`cutLast?_of_last`, `eq_of_cutLast?`).  Dropping copies of a beginning takes off one after the other and leaves none
  (`dropLeads_append`, `not_isPrefixOf_dropLeads`).
-/
import CodeAtlas.Text.Split

namespace CodeAtlas.Text

theorem splitWhen_eq_splitOnP {α : Type} (p : α → Bool) (l : List α) : splitWhen p l = l.splitOnP p := by
  induction l with
  | nil => rfl
  | cons c cs ih =>
    rw [List.splitOnP_cons_eq_if_modifyHead, splitWhen, ih]
    split
    · rfl
    · split
      · rename_i hnil
        exact absurd hnil (List.splitOnP_ne_nil p cs)
      · rename_i hcons
        rw [hcons, List.modifyHead_cons]

/-- No piece holds an element at which the list is cut. -/
theorem not_of_mem_splitWhen {α : Type} {p : α → Bool} {l piece : List α} (h : piece ∈ splitWhen p l) {a : α}
    (ha : a ∈ piece) : p a = false := by
  induction l generalizing piece with
  | nil =>
    rw [List.mem_singleton.mp h] at ha
    cases ha
  | cons c cs ih =>
    unfold splitWhen at h
    split at h
    · rcases List.mem_cons.mp h with rfl | h
      · cases ha
      · exact ih h ha
    · rename_i hc
      split at h
      · rename_i hnil
        exact absurd hnil (splitWhen_ne_nil p cs)
      · rename_i first rest hcons
        rcases List.mem_cons.mp h with rfl | h
        · rcases List.mem_cons.mp ha with rfl | ha
          · exact Bool.eq_false_iff.mpr hc
          · exact ih (hcons ▸ List.mem_cons_self) ha
        · exact ih (hcons ▸ List.mem_cons_of_mem _ h) ha

/-- A text with one character between two others. -/
theorem toList_append_char {mark : String} {c : Char} (hmark : mark.toList = [c]) (s t : String) :
    (s ++ mark ++ t).toList = s.toList ++ c :: t.toList := by
  rw [String.toList_append, String.toList_append, hmark, List.append_assoc, List.singleton_append]

theorem toList_append_newline (s t : String) : (s ++ "\n" ++ t).toList = s.toList ++ '\n' :: t.toList :=
  toList_append_char rfl s t

/-! ## Joining -/

section Joining

variable {sep : String} {front rest : List String}

theorem join_singleton (sep part : String) : join sep [part] = part :=
  String.intercalate_singleton

theorem join_append (hfront : front ≠ []) (hrest : rest ≠ []) :
    join sep (front ++ rest) = join sep front ++ sep ++ join sep rest :=
  String.intercalate_append_of_ne_nil hfront hrest

theorem join_concat (hfront : front ≠ []) (part : String) : join sep (front ++ [part]) = join sep front ++ sep ++ part := by
  rw [join_append hfront (List.cons_ne_nil _ _), join_singleton]

theorem join_cons_ne_empty {part : String} (h : part ≠ "") (rest : List String) : join sep (part :: rest) ≠ "" := by
  cases rest with
  | nil => rwa [join_singleton]
  | cons next rest =>
    rw [join, String.intercalate_cons_cons, String.append_assoc]
    exact fun hempty => h (String.append_eq_empty_iff.mp hempty).1

/-- A joined text ends with its last part. -/
theorem exists_lead_join (sep : String) (front : List String) (part : String) :
    ∃ lead, join sep (front ++ [part]) = lead ++ part := by
  by_cases hfront : front = []
  · exact ⟨"", by rw [hfront, List.nil_append, join_singleton, String.empty_append]⟩
  · exact ⟨_, join_concat hfront part⟩

/-- Parts that are joined already can be joined with more. -/
theorem join_join (hfront : front ≠ []) (rest : List String) :
    join sep (join sep front :: rest) = join sep (front ++ rest) := by
  by_cases hrest : rest = []
  · rw [hrest, List.append_nil, join_singleton]
  · rw [join_append hfront hrest, ← List.singleton_append, join_append (List.cons_ne_nil _ _) hrest, join_singleton]

theorem length_join_le_append (sep : String) (front rest : List String) :
    (join sep front).length ≤ (join sep (front ++ rest)).length := by
  by_cases hfront : front = []
  · rw [hfront]
    exact Nat.zero_le _
  · by_cases hrest : rest = []
    · exact Nat.le_of_eq (by rw [hrest, List.append_nil])
    · rw [join_append hfront hrest, String.length_append, String.length_append]
      omega

/-- Parts in between make a joined text longer. -/
theorem length_join_insert (hsep : sep ≠ "") (hfront : front ≠ []) {between : List String} (hbetween : between ≠ [])
    (rest : List String) : (join sep (front ++ rest)).length < (join sep (front ++ (between ++ rest))).length := by
  have hpos : 0 < sep.length := Nat.pos_of_ne_zero fun hzero => hsep (String.length_eq_zero_iff.mp hzero)
  rw [join_append hfront (List.append_ne_nil_of_left_ne_nil hbetween rest)]
  by_cases hrest : rest = []
  · rw [hrest, List.append_nil, String.length_append, String.length_append]
    omega
  · rw [join_append hfront hrest, join_append hbetween hrest]
    simp only [String.length_append]
    omega

end Joining

/-! ## Cutting and joining -/

section Pieces

variable {sep : String} {c : Char}

theorem splitChar_eq (c : Char) (s : String) : splitChar c s = (s.toList.splitOn c).map String.ofList := by
  unfold splitChar splitAny
  rw [splitWhen_eq_splitOnP]
  rfl

theorem map_toList_splitChar (c : Char) (s : String) : (splitChar c s).map String.toList = s.toList.splitOn c := by
  have hid : String.toList ∘ String.ofList = id := funext fun _ => String.toList_ofList
  rw [splitChar_eq, List.map_map, hid, List.map_id]

theorem splitChar_ne_nil (c : Char) (s : String) : splitChar c s ≠ [] := by
  rw [splitChar_eq]
  exact fun h => List.splitOnP_ne_nil _ _ (List.map_eq_nil_iff.mp h)

/-- The pieces of a text, joined again, are the text. -/
theorem join_splitChar (hsep : sep.toList = [c]) (s : String) : join sep (splitChar c s) = s := by
  apply String.toList_inj.mp
  unfold join
  rw [String.toList_intercalate, map_toList_splitChar, hsep, List.intercalate_splitOn]

/-- Parts without a character are the pieces of the text that they give when joined by it. -/
theorem splitChar_join (hsep : sep.toList = [c]) {parts : List String} (hparts : ∀ part ∈ parts, c ∉ part.toList)
    (hne : parts ≠ []) : splitChar c (join sep parts) = parts := by
  have hchars : ∀ l ∈ parts.map String.toList, c ∉ l := by
    intro l hl
    obtain ⟨part, hpart, rfl⟩ := List.mem_map.mp hl
    exact hparts part hpart
  have hid : String.ofList ∘ String.toList = id := funext fun _ => String.ofList_toList
  unfold join
  rw [splitChar_eq, String.toList_intercalate, hsep,
    List.splitOn_intercalate c hchars fun h => hne (List.map_eq_nil_iff.mp h), List.map_map, hid, List.map_id]

theorem splitChar_of_notMem {s : String} (h : c ∉ s.toList) : splitChar c s = [s] := by
  have hsep : (String.ofList [c]).toList = [c] := String.toList_ofList
  have hjoin := splitChar_join hsep (List.forall_mem_singleton.mpr h) (List.cons_ne_nil s [])
  rwa [join_singleton] at hjoin

theorem splitChar_append (hsep : sep.toList = [c]) (s t : String) :
    splitChar c (s ++ sep ++ t) = splitChar c s ++ splitChar c t := by
  rw [splitChar_eq, splitChar_eq, splitChar_eq, ← List.map_append, toList_append_char hsep]
  exact congrArg _ (List.splitOnP_append_cons _ _ (beq_self_eq_true c))

theorem notMem_of_mem_splitChar {s part : String} (h : part ∈ splitChar c s) : c ∉ part.toList := by
  obtain ⟨piece, hpiece, rfl⟩ := List.mem_map.mp h
  rw [String.toList_ofList]
  intro hc
  have hfalse := not_of_mem_splitWhen hpiece hc
  rw [beq_self_eq_true] at hfalse
  cases hfalse

theorem mem_toList_join {parts : List String} (h : c ∈ (join sep parts).toList) :
    c ∈ sep.toList ∨ ∃ part ∈ parts, c ∈ part.toList := by
  induction parts with
  | nil => cases h
  | cons part parts ih =>
    cases parts with
    | nil =>
      rw [join_singleton] at h
      exact Or.inr ⟨part, List.mem_cons_self, h⟩
    | cons next parts =>
      rw [join, String.intercalate_cons_cons, String.toList_append, String.toList_append] at h
      rcases List.mem_append.mp h with h | h
      · rcases List.mem_append.mp h with h | h
        · exact Or.inr ⟨part, List.mem_cons_self, h⟩
        · exact Or.inl h
      · exact (ih h).imp_right fun ⟨p, hp, hc⟩ => ⟨p, List.mem_cons_of_mem _ hp, hc⟩

theorem mem_toList_join_of_mem {parts : List String} {part : String} (hpart : part ∈ parts) (h : c ∈ part.toList) :
    c ∈ (join sep parts).toList := by
  induction parts with
  | nil => cases hpart
  | cons first parts ih =>
    cases parts with
    | nil =>
      rw [join_singleton]
      exact List.mem_singleton.mp hpart ▸ h
    | cons next parts =>
      rw [join, String.intercalate_cons_cons, String.toList_append, List.mem_append]
      rcases List.mem_cons.mp hpart with rfl | hrest
      · exact Or.inl (String.toList_append ▸ List.mem_append_left _ h)
      · exact Or.inr (ih hrest)

end Pieces

/-! ## Beginnings -/

theorem startsWith_iff {s lead : String} : startsWith s lead = true ↔ ∃ rest, s = lead ++ rest := by
  unfold startsWith
  rw [List.isPrefixOf_iff_prefix]
  constructor
  · rintro ⟨rest, hrest⟩
    refine ⟨String.ofList rest, String.toList_inj.mp ?_⟩
    rw [String.toList_append, String.toList_ofList, hrest]
  · rintro ⟨rest, rfl⟩
    rw [String.toList_append]
    exact List.prefix_append _ _

/-- A text that is not empty decides about its beginning with one character. -/
theorem startsWith_append {lead s : String} {c : Char} (hlead : lead.toList = [c]) (hne : s ≠ "") (rest : String) :
    startsWith (s ++ rest) lead = startsWith s lead := by
  unfold startsWith
  rw [String.toList_append, hlead]
  cases hs : s.toList with
  | nil => exact absurd (String.toList_eq_nil_iff.mp hs) hne
  | cons a chars => rfl

/-! ## Copies of a beginning -/

section Leads

variable {α : Type} [BEq α] {lead : List α}

theorem dropLeads_suffix (lead l : List α) : dropLeads lead l <:+ l := by
  induction l using dropLeads.induct lead with
  | case1 l h ih =>
    rw [dropLeads, dif_pos h]
    exact ih.trans (List.drop_suffix _ _)
  | case2 l h =>
    exact ⟨[], by rw [dropLeads, dif_neg h, List.nil_append]⟩

/-- No copy is left in front. -/
theorem not_isPrefixOf_dropLeads (hlead : lead ≠ []) (l : List α) : lead.isPrefixOf (dropLeads lead l) = false := by
  induction l using dropLeads.induct lead with
  | case1 l h ih =>
    rw [dropLeads, dif_pos h]
    exact ih
  | case2 l h =>
    rw [dropLeads, dif_neg h]
    refine Bool.eq_false_iff.mpr fun hprefix => h ⟨hlead, ?_, hprefix⟩
    rintro rfl
    cases lead with
    | nil => exact hlead rfl
    | cons => cases hprefix

theorem dropLeads_eq_self {l : List α} (h : lead.isPrefixOf l = false) : dropLeads lead l = l := by
  rw [dropLeads, dif_neg]
  rintro ⟨-, -, hprefix⟩
  rw [h] at hprefix
  cases hprefix

theorem dropLeads_append [LawfulBEq α] (hlead : lead ≠ []) (l : List α) :
    dropLeads lead (lead ++ l) = dropLeads lead l := by
  rw [dropLeads, dif_pos, List.drop_left]
  exact ⟨hlead, fun h => hlead (List.append_eq_nil_iff.mp h).1, List.isPrefixOf_iff_prefix.mpr (List.prefix_append _ _)⟩

end Leads

/-! ## Ends -/

theorem endsWith_iff {s tail : String} : endsWith s tail = true ↔ ∃ front, s = front ++ tail := by
  unfold endsWith
  rw [List.isPrefixOf_iff_prefix, List.reverse_prefix]
  constructor
  · rintro ⟨front, hfront⟩
    refine ⟨String.ofList front, String.toList_inj.mp ?_⟩
    rw [String.toList_append, String.toList_ofList, hfront]
  · rintro ⟨front, rfl⟩
    rw [String.toList_append]
    exact List.suffix_append _ _

theorem endsWith_append (s tail : String) : endsWith (s ++ tail) tail = true :=
  endsWith_iff.mpr ⟨s, rfl⟩

theorem stripEnd?_append (s tail : String) : stripEnd? (s ++ tail) tail = some s := by
  unfold stripEnd?
  rw [if_pos (endsWith_append s tail), String.toList_append, List.length_append, Nat.add_sub_cancel, List.take_left,
    String.ofList_toList]

theorem stripEnd?_eq_some_iff {s tail front : String} : stripEnd? s tail = some front ↔ s = front ++ tail := by
  constructor
  · intro h
    unfold stripEnd? at h
    split at h
    · rename_i hends
      obtain ⟨other, rfl⟩ := endsWith_iff.mp hends
      have hother := stripEnd?_append other tail
      rw [stripEnd?, if_pos hends, h] at hother
      rw [Option.some.inj hother]
    · cases h
  · rintro rfl
    exact stripEnd?_append front tail

theorem stripEnd?_eq_none_iff {s tail : String} : stripEnd? s tail = none ↔ endsWith s tail = false := by
  unfold stripEnd?
  cases endsWith s tail <;> simp

theorem dropEnd_eq_self {s tail : String} (h : endsWith s tail = false) : dropEnd s tail = s := by
  unfold dropEnd
  rw [dropLeads_eq_self h, List.reverse_reverse, String.ofList_toList]

/-- A copy at the end is dropped. -/
theorem dropEnd_append {tail : String} (h : tail ≠ "") (s : String) : dropEnd (s ++ tail) tail = dropEnd s tail := by
  have hne : tail.toList.reverse ≠ [] := fun hnil => h (String.toList_eq_nil_iff.mp (List.reverse_eq_nil_iff.mp hnil))
  unfold dropEnd
  rw [String.toList_append, List.reverse_append, dropLeads_append hne]

/-! ## The first and the last occurrence of a character -/

section Occurrence

variable {α : Type} [BEq α] [LawfulBEq α] {c : α}

theorem breakOn?_append {front : List α} (h : c ∉ front) (rest : List α) :
    breakOn? [c] (front ++ c :: rest) = some (front, rest) := by
  induction front with
  | nil => simp [breakOn?]
  | cons a front ih =>
    obtain ⟨ha, hfront⟩ := not_or.mp (mt List.mem_cons.mpr h)
    rw [List.cons_append, breakOn?, if_neg (by simpa using ha), ih hfront]
    rfl

/-- A front without the first element of a sequence is passed over. -/
theorem breakOn?_append_of_notMem {front : List α} (h : c ∉ front) (needle rest : List α) :
    breakOn? (c :: needle) (front ++ rest) =
      (breakOn? (c :: needle) rest).map fun cut => (front ++ cut.1, cut.2) := by
  induction front with
  | nil => simp
  | cons a front ih =>
    obtain ⟨ha, hfront⟩ := not_or.mp (mt List.mem_cons.mpr h)
    rw [List.cons_append, breakOn?, if_neg (by simp [List.isPrefixOf, ha]), ih hfront, Option.map_map]
    rfl

/-- A sequence does not occur where its first element does not. -/
theorem breakOn?_of_notMem {l : List α} (h : c ∉ l) (needle : List α) : breakOn? (c :: needle) l = none := by
  induction l with
  | nil => rfl
  | cons a l ih =>
    obtain ⟨ha, hl⟩ := not_or.mp (mt List.mem_cons.mpr h)
    rw [breakOn?, if_neg (by simp [List.isPrefixOf, ha]), ih hl]
    rfl

end Occurrence

/-- What stands before the first occurrence of a character is found by cutting there. -/
theorem cutFirst?_append {sep : String} {c : Char} (hsep : sep.toList = [c]) {front : String} (h : c ∉ front.toList)
    (rest : String) : cutFirst? sep (front ++ sep ++ rest) = some (front, rest) := by
  unfold cutFirst?
  rw [toList_append_char hsep, hsep, breakOn?_append h, Option.map_some, String.ofList_toList, String.ofList_toList]

theorem cutFirst?_of_notMem {sep : String} {c : Char} {needle : List Char} (hsep : sep.toList = c :: needle) {s : String}
    (h : c ∉ s.toList) : cutFirst? sep s = none := by
  unfold cutFirst?
  rw [hsep, breakOn?_of_notMem h]
  rfl

theorem cutLast?_append {sep : String} {c : Char} (hsep : sep.toList = [c]) (front : String) {rest : String}
    (h : c ∉ rest.toList) : cutLast? sep (front ++ sep ++ rest) = some (front, rest) := by
  have hreverse : (front.toList ++ [c] ++ rest.toList).reverse = rest.toList.reverse ++ c :: front.toList.reverse := by
    simp
  unfold cutLast? breakOnLast?
  rw [String.toList_append, String.toList_append, hsep, hreverse, List.reverse_singleton,
    breakOn?_append (by rwa [List.mem_reverse])]
  simp

theorem cutLast?_of_notMem {sep : String} {c : Char} (hsep : sep.toList = [c]) {s : String} (h : c ∉ s.toList) :
    cutLast? sep s = none := by
  unfold cutLast? breakOnLast?
  rw [hsep, List.reverse_singleton, breakOn?_of_notMem (by rwa [List.mem_reverse])]
  rfl

/-! ## The first and the last occurrence of a sequence -/

section Sequence

variable {α : Type} [BEq α] [LawfulBEq α] {needle front rest : List α}

/-- A list is cut where the sequence occurs first. -/
theorem breakOn?_of_first (h : ∀ front' rest', front ++ (needle ++ rest) = front' ++ (needle ++ rest') →
    front.length ≤ front'.length) : breakOn? needle (front ++ (needle ++ rest)) = some (front, rest) := by
  induction front with
  | nil =>
    rw [List.nil_append]
    cases hlist : needle ++ rest with
    | nil =>
      obtain ⟨rfl, rfl⟩ := List.append_eq_nil_iff.mp hlist
      rfl
    | cons a tail =>
      have hstarts : needle.isPrefixOf (a :: tail) = true := by
        rw [← hlist]
        exact List.isPrefixOf_iff_prefix.mpr (List.prefix_append _ _)
      rw [breakOn?, if_pos hstarts, ← hlist, List.drop_left]
  | cons a front ih =>
    have hlater : ¬needle.isPrefixOf (a :: (front ++ (needle ++ rest))) = true := by
      intro hstarts
      obtain ⟨rest', hrest⟩ := List.isPrefixOf_iff_prefix.mp hstarts
      have hlength := h [] rest' hrest.symm
      rw [List.length_cons, List.length_nil] at hlength
      omega
    have hfirst : ∀ front' rest', front ++ (needle ++ rest) = front' ++ (needle ++ rest') →
        front.length ≤ front'.length := by
      intro front' rest' heq
      have hlength := h (a :: front') rest' (congrArg (a :: ·) heq)
      rw [List.length_cons, List.length_cons] at hlength
      omega
    rw [List.cons_append, breakOn?, if_neg hlater, ih hfirst]
    rfl

/-- The pieces around the sequence at which a list is cut give it back. -/
theorem eq_of_breakOn? {l : List α} (h : breakOn? needle l = some (front, rest)) : l = front ++ (needle ++ rest) := by
  induction l generalizing front with
  | nil =>
    rw [breakOn?] at h
    split at h
    · rename_i hempty
      cases h
      rw [List.isEmpty_iff.mp hempty]
      rfl
    · cases h
  | cons a l ih =>
    rw [breakOn?] at h
    split at h
    · rename_i hstarts
      obtain ⟨tail, htail⟩ := List.isPrefixOf_iff_prefix.mp hstarts
      cases h
      rw [← htail, List.drop_left, List.nil_append]
    · obtain ⟨cut, hcut, heq⟩ := Option.map_eq_some_iff.mp h
      cases heq
      rw [ih hcut]
      rfl

end Sequence

section Separator

variable {sep front rest s : String}

/-- A text is cut where the separator occurs last. -/
theorem cutLast?_of_last (h : ∀ front' rest', front ++ sep ++ rest = front' ++ sep ++ rest' →
    front'.length ≤ front.length) : cutLast? sep (front ++ sep ++ rest) = some (front, rest) := by
  have hreverse : (front ++ sep ++ rest).toList.reverse =
      rest.toList.reverse ++ (sep.toList.reverse ++ front.toList.reverse) := by
    simp only [String.toList_append, List.reverse_append]
  have hfirst : ∀ a b, rest.toList.reverse ++ (sep.toList.reverse ++ front.toList.reverse) =
      a ++ (sep.toList.reverse ++ b) → rest.toList.reverse.length ≤ a.length := by
    intro a b heq
    have htext : front ++ sep ++ rest = String.ofList b.reverse ++ sep ++ String.ofList a.reverse := by
      refine String.toList_inj.mp ?_
      rw [← List.reverse_reverse (front ++ sep ++ rest).toList, hreverse, heq]
      simp
    have hlength := congrArg String.length htext
    have hfront := h _ _ htext
    simp only [String.length_append, String.length_ofList, List.length_reverse] at hlength hfront
    rw [List.length_reverse, String.length_toList]
    omega
  unfold cutLast? breakOnLast?
  rw [hreverse, breakOn?_of_first hfirst]
  simp

/-- The texts around the separator at which a text is cut give it back. -/
theorem eq_of_cutLast? (h : cutLast? sep s = some (front, rest)) : s = front ++ sep ++ rest := by
  obtain ⟨⟨a, b⟩, hbroken, heq⟩ := Option.map_eq_some_iff.mp h
  obtain ⟨⟨c, d⟩, hcut, hreversed⟩ := Option.map_eq_some_iff.mp hbroken
  cases hreversed
  cases heq
  have hchars := eq_of_breakOn? hcut
  refine String.toList_inj.mp ?_
  rw [← List.reverse_reverse s.toList, hchars]
  simp

end Separator

/-! ## Doubled separators -/

section Doubled

variable {α : Type} [BEq α] [LawfulBEq α] {c : α}

theorem splitSeq_of_notMem {l : List α} (h : c ∉ l) : splitSeq [c, c] l = [l] := by
  unfold splitSeq
  induction l with
  | nil => rfl
  | cons a l ih =>
    obtain ⟨ha, hl⟩ := not_or.mp (mt List.mem_cons.mpr h)
    rw [splitSeqFrom, if_neg (by simp [List.isPrefixOf, ha]), ih hl]

/-- Cutting takes off the front up to the first doubled separator. -/
theorem splitSeq_append {front : List α} (h : c ∉ front) (rest : List α) :
    splitSeq [c, c] (front ++ c :: c :: rest) = front :: splitSeq [c, c] rest := by
  unfold splitSeq
  induction front with
  | nil => simp [splitSeqFrom, List.isPrefixOf]
  | cons a front ih =>
    obtain ⟨ha, hfront⟩ := not_or.mp (mt List.mem_cons.mpr h)
    rw [List.cons_append, splitSeqFrom, if_neg (by simp [List.isPrefixOf, ha]), ih hfront]

theorem breakOn?_append_doubled {front : List α} (h : c ∉ front) (rest : List α) :
    breakOn? [c, c] (front ++ c :: c :: rest) = some (front, rest) := by
  induction front with
  | nil => simp [breakOn?, List.isPrefixOf]
  | cons a front ih =>
    obtain ⟨ha, hfront⟩ := not_or.mp (mt List.mem_cons.mpr h)
    rw [List.cons_append, breakOn?, if_neg (by simp [List.isPrefixOf, ha]), ih hfront]
    rfl

end Doubled

/-- Of two ways to cut at a doubled element the later one is that with none after it. -/
theorem exists_of_append_doubled {α : Type} {c : α} {front rest front' rest' : List α} (h : c ∉ rest)
    (heq : front ++ c :: c :: rest = front' ++ c :: c :: rest') :
    ∃ more, front = front' ++ more ∧ c :: c :: rest' = more ++ c :: c :: rest := by
  rcases List.append_eq_append_iff.mp heq with ⟨more, hfront, hrest⟩ | hmore
  · match more with
    | [] => exact ⟨[], by rw [hfront, List.append_nil, List.append_nil], hrest.symm⟩
    | [_] =>
      obtain ⟨-, hrest⟩ := List.cons.inj hrest
      obtain ⟨-, rfl⟩ := List.cons.inj hrest
      exact absurd List.mem_cons_self h
    | _ :: _ :: more =>
      obtain ⟨-, hrest⟩ := List.cons.inj hrest
      obtain ⟨-, rfl⟩ := List.cons.inj hrest
      exact absurd (List.mem_append_right more List.mem_cons_self) h
  · exact hmore

/-- Parts without a character are the pieces of the text that they give when joined by it doubled. -/
theorem splitText_join {sep : String} {c : Char} (hsep : sep.toList = [c, c]) {parts : List String}
    (hparts : ∀ part ∈ parts, c ∉ part.toList) (hne : parts ≠ []) : splitText sep (join sep parts) = parts := by
  unfold splitText join
  rw [hsep]
  induction parts with
  | nil => exact absurd rfl hne
  | cons part parts ih =>
    obtain ⟨hpart, hrest⟩ := List.forall_mem_cons.mp hparts
    cases parts with
    | nil => rw [String.intercalate_singleton, splitSeq_of_notMem hpart, List.map_singleton, String.ofList_toList]
    | cons next parts =>
      have hchars : (sep.intercalate (part :: next :: parts)).toList =
          part.toList ++ c :: c :: (sep.intercalate (next :: parts)).toList := by
        rw [String.intercalate_cons_cons, String.toList_append, String.toList_append, hsep]
        simp
      rw [hchars, splitSeq_append hpart, List.map_cons, String.ofList_toList, ih hrest (List.cons_ne_nil _ _)]

/-- What stands before the last doubled character is found by cutting there. -/
theorem cutLast?_append_doubled {sep : String} {c : Char} (hsep : sep.toList = [c, c]) (front : String) {rest : String}
    (h : c ∉ rest.toList) : cutLast? sep (front ++ sep ++ rest) = some (front, rest) := by
  have hreverse : (front.toList ++ [c, c] ++ rest.toList).reverse =
      rest.toList.reverse ++ c :: c :: front.toList.reverse := by
    simp
  unfold cutLast? breakOnLast?
  rw [String.toList_append, String.toList_append, hsep, hreverse, show [c, c].reverse = [c, c] from rfl,
    breakOn?_append_doubled (by rwa [List.mem_reverse])]
  simp

end CodeAtlas.Text
