/-
  Rows of bytes and lines of text.

  A row is counted in newline bytes, a line ends at a newline character.  The encoding of a character holds a newline byte
  only if it is the newline (`count_bytes`), and a text has a line for each newline and one more if something follows the
  last one (`count_newline_le`, `count_newline_lt`).  So every byte stands in a line (`row_lt_length_lines`).  A text with a
  line before it has one line more (`lines_append_line`), and every text is read line after line (`lines_induction`).
-/
import CodeAtlas.Proofs.Text.Blank
import CodeAtlas.Text.Bytes
import CodeAtlas.Text.Lines
import Mathlib.Data.List.Basic

namespace CodeAtlas.Text

/-! ## Pieces -/

section Split

variable {α : Type} {p : α → Bool}

theorem length_splitWhen (p : α → Bool) (l : List α) : (splitWhen p l).length = l.countP p + 1 := by
  induction l with
  | nil => rfl
  | cons c cs ih =>
    unfold splitWhen
    cases hc : p c with
    | true =>
      rw [if_pos rfl, List.length_cons, ih, List.countP_cons_of_pos hc]
    | false =>
      rw [if_neg Bool.false_ne_true, List.countP_cons_of_neg (by rw [hc]; exact Bool.false_ne_true), ← ih]
      cases h : splitWhen p cs with
      | nil => exact absurd h (splitWhen_ne_nil p cs)
      | cons piece rest => rfl

/-- What stands after the last separator is not empty when the list ends with something else. -/
theorem getLast?_splitWhen_concat (l : List α) {c : α} (hc : p c = false) :
    ∃ d ds, (splitWhen p (l ++ [c])).getLast? = some (d :: ds) := by
  induction l with
  | nil => exact ⟨c, [], by simp [splitWhen, hc]⟩
  | cons a l ih =>
    obtain ⟨d, ds, hlast⟩ := ih
    rw [List.cons_append]
    unfold splitWhen
    cases h : splitWhen p (l ++ [c]) with
    | nil => exact absurd h (splitWhen_ne_nil p _)
    | cons piece rest =>
      rw [h] at hlast
      cases p a with
      | true => exact ⟨d, ds, by rw [if_pos rfl, List.getLast?_cons_cons, hlast]⟩
      | false =>
        rw [if_neg Bool.false_ne_true]
        cases rest with
        | nil => exact ⟨a, piece, rfl⟩
        | cons next rest => exact ⟨d, ds, by rw [List.getLast?_cons_cons] at hlast ⊢; exact hlast⟩

end Split

/-! ## Newlines -/

theorem length_dropLast_splitWhen (l : List Char) : ((splitWhen (· == '\n') l).dropLast).length = l.count '\n' := by
  rw [List.length_dropLast, length_splitWhen, Nat.add_sub_cancel]
  rfl

/-- Every newline ends a line. -/
theorem count_newline_le (s : String) : s.toList.count '\n' ≤ (lines s).length := by
  unfold lines lineLists
  rw [List.length_map, List.length_append, List.length_map, length_dropLast_splitWhen]
  exact Nat.le_add_right _ _

/-- What follows the last newline is one more line. -/
theorem count_newline_lt {s : String} {l : List Char} {c : Char} (hs : s.toList = l ++ [c]) (hc : c ≠ '\n') :
    s.toList.count '\n' < (lines s).length := by
  obtain ⟨d, ds, hlast⟩ := getLast?_splitWhen_concat l (p := (· == '\n')) (beq_eq_false_iff_ne.mpr hc)
  unfold lines lineLists
  rw [List.length_map, List.length_append, List.length_map, length_dropLast_splitWhen, hs, hlast]
  exact Nat.lt_add_one _

/-! ## Bytes -/

/-- No byte of a character is the newline byte unless the character is the newline. -/
theorem newline_mem_utf8EncodeChar {c : Char} (h : 10 ∈ String.utf8EncodeChar c) : c = '\n' := by
  have hten : ∀ n < 256, (10 : UInt8) = UInt8.ofNat n → n = 10 := by
    intro n hn h
    have hnat := congrArg UInt8.toNat h
    rw [UInt8.toNat_ofNat', Nat.mod_eq_of_lt hn] at hnat
    exact hnat.symm
  unfold String.utf8EncodeChar at h
  dsimp only at h
  split at h
  · rename_i hsmall
    refine Char.ext (UInt32.toNat_inj.mp ?_)
    exact hten _ (by omega) (List.mem_singleton.mp h)
  · exfalso
    have hhigh : ∀ n, 128 ≤ n → n < 256 → (10 : UInt8) ≠ UInt8.ofNat n := fun n hlow hn h => by
      have hsame := hten n hn h
      omega
    split at h
    · simp only [List.mem_cons, List.not_mem_nil, or_false] at h
      rcases h with h | h <;> exact hhigh _ (by omega) (by omega) h
    · split at h
      · simp only [List.mem_cons, List.not_mem_nil, or_false] at h
        rcases h with h | h | h <;> exact hhigh _ (by omega) (by omega) h
      · simp only [List.mem_cons, List.not_mem_nil, or_false] at h
        rcases h with h | h | h | h <;> exact hhigh _ (by omega) (by omega) h

theorem bytes_eq (s : String) : bytes s = s.toList.flatMap String.utf8EncodeChar := by
  unfold bytes
  rw [← String.utf8Encode_toList]
  unfold List.utf8Encode
  exact congrArg Array.toList (List.data_toByteArray)

theorem count_utf8EncodeChar (c : Char) : (String.utf8EncodeChar c).count 10 = if c = '\n' then 1 else 0 := by
  split
  · rename_i h
    subst h
    rfl
  · rename_i h
    exact List.count_eq_zero.mpr fun hmem => h (newline_mem_utf8EncodeChar hmem)

/-- A text has as many newline bytes as newlines. -/
theorem count_bytes (s : String) : (bytes s).count 10 = s.toList.count '\n' := by
  rw [bytes_eq]
  induction s.toList with
  | nil => rfl
  | cons c l ih =>
    rw [List.flatMap_cons, List.count_append, ih, count_utf8EncodeChar, List.count_cons, Nat.add_comm]
    simp only [beq_iff_eq]

theorem length_bytes (s : String) : (bytes s).length = s.utf8ByteSize :=
  Array.length_toList

/-- A text that ends with another byte than a newline ends with another character. -/
theorem exists_concat_of_bytes {s : String} {l : List UInt8} {b : UInt8} (hs : bytes s = l ++ [b]) (hb : b ≠ 10) :
    ∃ l c, s.toList = l ++ [c] ∧ c ≠ '\n' := by
  rw [bytes_eq] at hs
  rcases List.eq_nil_or_concat' s.toList with hnil | ⟨l', c, hconcat⟩
  · rw [hnil] at hs
    exact absurd hs.symm (List.append_ne_nil_of_right_ne_nil l (List.cons_ne_nil b []))
  · refine ⟨l', c, hconcat, fun hc => hb ?_⟩
    subst hc
    rw [hconcat, List.flatMap_append] at hs
    have hlast : String.utf8EncodeChar '\n' = [b] := by
      rw [List.flatMap_singleton] at hs
      exact List.append_inj_right' hs rfl
    exact (List.cons.inj hlast).1.symm

/-! ## Rows -/

theorem row_mono (b : List UInt8) {i j : Nat} (h : i ≤ j) : (Position.of b i).row ≤ (Position.of b j).row :=
  (List.take_sublist_take_left h).count_le 10

/-- Every byte of a text stands in one of its lines. -/
theorem row_lt_length_lines {s : String} {i : Nat} (h : i < s.utf8ByteSize) :
    (Position.of (bytes s) i).row < (lines s).length := by
  have hcount : (Position.of (bytes s) i).row + ((bytes s).drop i).count 10 = s.toList.count '\n' := by
    rw [← count_bytes]
    calc ((bytes s).take i).count 10 + ((bytes s).drop i).count 10
        = ((bytes s).take i ++ (bytes s).drop i).count 10 := List.count_append.symm
      _ = (bytes s).count 10 := by rw [List.take_append_drop]
  rcases Nat.eq_zero_or_pos (((bytes s).drop i).count 10) with hzero | hpos
  · -- no newline follows, so the text ends with another byte
    have hne : (bytes s).drop i ≠ [] := by
      rw [Ne, List.drop_eq_nil_iff, length_bytes]
      omega
    obtain ⟨l, last, hdrop⟩ := (List.eq_nil_or_concat' _).resolve_left hne
    have hlast : last ≠ 10 := by
      rintro rfl
      rw [hdrop] at hzero
      exact absurd (List.mem_append_right l List.mem_cons_self) (List.count_eq_zero.mp hzero)
    have hbytes : bytes s = ((bytes s).take i ++ l) ++ [last] := by
      rw [List.append_assoc, ← hdrop, List.take_append_drop]
    obtain ⟨l', c, hs, hc⟩ := exists_concat_of_bytes hbytes hlast
    have hlines := count_newline_lt hs hc
    omega
  · have hlines := count_newline_le s
    omega

/-! ## Line after line -/

section Induction

variable {s : String}

/-- A text is its last line, or a line before another text. -/
theorem lines_induction {motive : String → Prop} (last : ∀ s, '\n' ∉ s.toList → motive s)
    (line : ∀ s rest, '\n' ∉ s.toList → motive rest → motive (s ++ "\n" ++ rest)) (s : String) : motive s := by
  have hjoin : ∀ parts : List String, parts ≠ [] → (∀ part ∈ parts, '\n' ∉ part.toList) → motive (join "\n" parts) := by
    intro parts hne hparts
    induction parts with
    | nil => exact absurd rfl hne
    | cons part parts ih =>
      obtain ⟨hpart, hparts⟩ := List.forall_mem_cons.mp hparts
      cases parts with
      | nil => exact join_singleton "\n" part ▸ last part hpart
      | cons next parts =>
        rw [join, String.intercalate_cons_cons]
        exact line part _ hpart (ih (List.cons_ne_nil _ _) hparts)
  have hsame : join "\n" (splitChar '\n' s) = s := join_splitChar rfl s
  rw [← hsame]
  exact hjoin _ (splitChar_ne_nil _ _) fun part hpart => notMem_of_mem_splitChar hpart

theorem lines_of_notMem (h : '\n' ∉ s.toList) : lines s = if s = "" then [] else [s] := by
  have hpieces : splitWhen (· == '\n') s.toList = [s.toList] := by
    have hall : ∀ c ∈ s.toList, (c == '\n') = false := fun c hc => beq_eq_false_iff_ne.mpr fun heq => h (heq ▸ hc)
    have hsplit : splitWhen (· == '\n') (s.toList ++ []) = [s.toList ++ []] := splitWhen_of_forall hall rfl
    rwa [List.append_nil] at hsplit
  by_cases hs : s = ""
  · rw [if_pos hs, hs]
    rfl
  · obtain ⟨c, chars, hchars⟩ := List.exists_cons_of_ne_nil (mt String.toList_eq_nil_iff.mp hs)
    rw [if_neg hs]
    unfold lines lineLists
    dsimp only
    rw [hpieces, hchars]
    show [String.ofList (c :: chars)] = [s]
    rw [← hchars, String.ofList_toList]

/-- The lines of a text with a line before it. -/
theorem lines_append_line (h : '\n' ∉ s.toList) (rest : String) :
    lines (s ++ "\n" ++ rest) = .ofList (stripCarriage s.toList) :: lines rest := by
  have hall : ∀ c ∈ s.toList, (c == '\n') = false := fun c hc => beq_eq_false_iff_ne.mpr fun heq => h (heq ▸ hc)
  have hnewline : splitWhen (· == '\n') ('\n' :: rest.toList) = [] :: splitWhen (· == '\n') rest.toList := rfl
  obtain ⟨piece, pieces, hpieces⟩ := List.exists_cons_of_ne_nil (splitWhen_ne_nil (· == '\n') rest.toList)
  unfold lines lineLists
  dsimp only
  rw [toList_append_newline, splitWhen_of_forall hall hnewline, hpieces, List.append_nil]
  rfl

theorem trim_stripCarriage (s : String) : trim (.ofList (stripCarriage s.toList)) = trim s := by
  unfold stripCarriage
  split
  · rename_i hlast
    obtain ⟨front, hfront⟩ := List.getLast?_eq_some_iff.mp (beq_iff_eq.mp hlast)
    have hs : s = .ofList front ++ "\r" := by
      refine String.toList_inj.mp ?_
      rw [hfront, String.toList_append, String.toList_ofList]
      rfl
    have hblank : ∀ c ∈ "\r".toList, isBlank c = true := by
      intro c hc
      rw [List.mem_singleton.mp (show c ∈ ['\r'] from hc)]
      decide
    rw [hfront, List.dropLast_concat]
    exact ((congrArg trim hs).trans (trim_append_right hblank _)).symm
  · rw [String.ofList_toList]

/-- Behind the newlines of its first lines a text has the lines of the rest. -/
theorem drop_lines_append (front rest : String) :
    (lines (front ++ "\n" ++ rest)).drop (front.toList.count '\n' + 1) = lines rest := by
  induction front using lines_induction with
  | last s h => rw [List.count_eq_zero.mpr h, lines_append_line h, Nat.zero_add, List.drop_one, List.tail_cons]
  | line s front h ih =>
    have hcount : (s ++ "\n" ++ front).toList.count '\n' = front.toList.count '\n' + 1 := by
      rw [toList_append_newline, List.count_append, List.count_eq_zero.mpr h, Nat.zero_add, List.count_cons_self]
    have hassoc : s ++ "\n" ++ front ++ "\n" ++ rest = s ++ "\n" ++ (front ++ "\n" ++ rest) := by
      simp only [String.append_assoc]
    rw [hcount, hassoc, lines_append_line h, List.drop_succ_cons, ih]

/-- Behind a newline a text has the lines of the rest. -/
theorem lines_append_newline (front rest : String) :
    lines (front ++ "\n" ++ rest) = lines (front ++ "\n") ++ lines rest := by
  induction front using lines_induction with
  | last s h =>
    have hline : lines (s ++ "\n") = [.ofList (stripCarriage s.toList)] := by
      rw [← String.append_empty (s := s ++ "\n"), lines_append_line h]
      rfl
    rw [lines_append_line h, hline, List.singleton_append]
  | line s front h ih =>
    have hassoc (t : String) : s ++ "\n" ++ front ++ "\n" ++ t = s ++ "\n" ++ (front ++ "\n" ++ t) := by
      simp only [String.append_assoc]
    have hfront : s ++ "\n" ++ front ++ "\n" = s ++ "\n" ++ (front ++ "\n") := by simp only [String.append_assoc]
    rw [hassoc, hfront, lines_append_line h, lines_append_line h, ih, List.cons_append]

end Induction

/-! ## Ranges of lines -/

section Ranges

variable {lines : List String} {line : String} {first k : Nat}

theorem lineRange_eq_nil (h : k < first) : lineRange lines first k = [] := by
  unfold lineRange
  rw [if_pos]
  rw [decide_eq_true h, Bool.or_true]

theorem lineRange_eq (hfirst : 0 < first) (hle : first ≤ k + 1) :
    lineRange lines first k = (lines.take k).drop (first - 1) := by
  rcases Nat.lt_or_ge k first with hlt | hge
  · rw [lineRange_eq_nil hlt, List.drop_of_length_le]
    rw [List.length_take]
    omega
  · unfold lineRange
    rw [if_neg]
    rw [Bool.or_eq_true, beq_iff_eq, decide_eq_true_eq]
    omega

/-- A range of lines with the next line. -/
theorem lineRange_succ (hfirst : 0 < first) (hle : first ≤ k + 1) (hline : lines[k]? = some line) :
    lineRange lines first (k + 1) = lineRange lines first k ++ [line] := by
  have hlt := (List.getElem?_eq_some_iff.mp hline).1
  rw [lineRange_eq hfirst hle, lineRange_eq hfirst (by omega), List.take_add_one, hline, Option.toList_some,
    List.drop_append_of_le_length]
  rw [List.length_take]
  omega

theorem length_lineRange (hfirst : 0 < first) (hle : first ≤ k + 1) (hlength : k ≤ lines.length) :
    (lineRange lines first k).length = k + 1 - first := by
  rw [lineRange_eq hfirst hle, List.length_drop, List.length_take]
  omega

end Ranges

/-! ## Ranges of bytes -/

/-- A range with text lies inside the text. -/
theorem lt_of_slice {s : String} {start stop : Nat} (h : slice s start stop ≠ "") :
    start < stop ∧ stop ≤ s.utf8ByteSize := by
  unfold slice slice? at h
  split at h
  · rename_i hrange
    refine ⟨Nat.lt_of_le_of_ne hrange.1 ?_, hrange.2⟩
    rintro rfl
    rw [ByteArray.extract_same] at h
    exact h rfl
  · exact absurd rfl h

end CodeAtlas.Text
