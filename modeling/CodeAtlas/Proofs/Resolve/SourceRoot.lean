/-
  Source roots of Rust files.

  A path is cut at the last directory that ends with a word (`Path.cutLast?_join`).  The source root is looked for like this,
  and taken only when the directory found has no other characters (`afterSourceRoot_join`).  A directory below the root whose
  name ends with `src` therefore hides the root, and the module path begins at the top of the project
  (`module_paths_follow_directories_iff`).
-/
import CodeAtlas.Proofs.Path

namespace CodeAtlas

namespace Path

variable {part last word name : String} {dirs names front back : List String}

/-- A segment of a normalised path that names a directory. -/
def IsDirectory (segment : String) : Prop :=
  segment ≠ "" ∧ segment ≠ "." ∧ '/' ∉ segment.toList ∧ '\\' ∉ segment.toList

instance : DecidablePred IsDirectory :=
  fun _ => inferInstanceAs (Decidable (_ ∧ _))

/-- Of joined segments without backward slashes nothing needs to be normalised, unless the first one is `.`. -/
theorem normalize_join (hslash : ∀ s ∈ names, '/' ∉ s.toList ∧ '\\' ∉ s.toList) (hdot : names.head? ≠ some ".") :
    normalize (Text.join "/" names) = Text.join "/" names := by
  refine normalize_eq_self (fun hback => ?_) (Bool.eq_false_iff.mpr fun hstart => ?_)
  · rcases Text.mem_toList_join hback with hsep | ⟨s, hs, hmem⟩
    · exact absurd hsep (by decide)
    · exact (hslash s hs).2 hmem
  · obtain ⟨rest, hrest⟩ := Text.startsWith_iff.mp hstart
    have hne : names ≠ [] := by
      rintro rfl
      exact absurd (congrArg String.toList hrest) (by simp [Text.join])
    have hsegments : names = "." :: Text.splitChar '/' rest := by
      rw [← Text.splitChar_join toList_slash (fun s hs => (hslash s hs).1) hne, hrest,
        show "./" = "." ++ "/" from rfl, splitChar_lead (by decide)]
    exact hdot (by rw [hsegments]; rfl)

/-! ## Cutting a path at a directory -/

/-- What is appended to a text without a slash is appended to its last segment. -/
theorem exists_splitChar_append (text : String) (h : '/' ∉ word.toList) : ∃ dirs last,
    text = Text.join "/" (dirs ++ [last]) ∧ Text.splitChar '/' (text ++ word) = dirs ++ [last ++ word] := by
  obtain ⟨dirs, last, hsplit⟩ : ∃ dirs last, Text.splitChar '/' text = dirs ++ [last] :=
    ⟨_, _, (List.dropLast_append_getLast (Text.splitChar_ne_nil '/' text)).symm⟩
  have htext : text = Text.join "/" (dirs ++ [last]) := by rw [← hsplit, Text.join_splitChar toList_slash]
  have hslash : ∀ s ∈ dirs ++ [last], '/' ∉ s.toList := fun s hs => Text.notMem_of_mem_splitChar (hsplit ▸ hs)
  obtain ⟨hdirs, hlast⟩ := List.forall_mem_append.mp hslash
  have hwhole : '/' ∉ (last ++ word).toList := by
    rw [String.toList_append, List.mem_append, not_or]
    exact ⟨hlast last List.mem_cons_self, h⟩
  refine ⟨dirs, last, htext, ?_⟩
  rw [htext, join_append]
  exact Text.splitChar_join toList_slash (List.forall_mem_append.mpr ⟨hdirs, List.forall_mem_singleton.mpr hwhole⟩)
    (List.concat_ne_nil _ _)

/-- A cut behind a segment that ends with a word is no later than at the last directory that ends with it. -/
theorem prefix_of_cut {more : List String} (hmore : more ≠ []) (hback : ∀ s ∈ back, Text.endsWith s word = false)
    (heq : front ++ [part ++ word] ++ (back ++ [last]) = dirs ++ [name ++ word] ++ more) :
    dirs ++ [name ++ word] <+: front ++ [part ++ word] := by
  rcases List.append_eq_append_iff.mp heq with ⟨between, hcut, hrest⟩ | ⟨between, hcut, -⟩
  · rcases List.eq_nil_or_concat' between with rfl | ⟨inner, s, rfl⟩
    · exact ⟨[], by rw [hcut, List.append_nil, List.append_nil]⟩
    · -- a later cut would be behind one of the segments that do not end with the word
      obtain ⟨after, m, rfl⟩ := (List.eq_nil_or_concat' more).resolve_left hmore
      rw [← List.append_assoc] at hcut hrest
      have hs : name ++ word = s := List.singleton_inj.mp (List.append_inj' hcut rfl).2
      have hmem : s ∈ back := by
        rw [(List.append_inj' hrest rfl).1]
        simp
      have hends := hback s hmem
      rw [← hs, Text.endsWith_append] at hends
      cases hends
  · exact ⟨between, hcut.symm⟩

/-- A path is cut at the last directory that ends with a word. -/
theorem cutLast?_join (hslash : ∀ s ∈ front ++ (part ++ word) :: (back ++ [last]), '/' ∉ s.toList)
    (hback : ∀ s ∈ back, Text.endsWith s word = false) :
    Text.cutLast? (word ++ "/") (Text.join "/" (front ++ (part ++ word) :: (back ++ [last]))) =
      some (Text.join "/" (front ++ [part]), Text.join "/" (back ++ [last])) := by
  have hpieces : front ++ (part ++ word) :: (back ++ [last]) = front ++ [part ++ word] ++ (back ++ [last]) :=
    List.append_cons ..
  have htext : Text.join "/" (front ++ (part ++ word) :: (back ++ [last])) =
      Text.join "/" (front ++ [part]) ++ (word ++ "/") ++ Text.join "/" (back ++ [last]) := by
    rw [hpieces, Text.join_append (List.concat_ne_nil _ _) (List.concat_ne_nil _ _), ← join_append]
    simp only [String.append_assoc]
  have hword : '/' ∉ word.toList := by
    have hpart := hslash (part ++ word) (List.mem_append_right _ List.mem_cons_self)
    rw [String.toList_append, List.mem_append, not_or] at hpart
    exact hpart.2
  have hsplit := Text.splitChar_join toList_slash hslash (List.append_ne_nil_of_right_ne_nil _ (List.cons_ne_nil _ _))
  rw [htext] at hsplit ⊢
  refine Text.cutLast?_of_last fun front' rest' heq => ?_
  obtain ⟨dirs, name, hfront', hcut⟩ := exists_splitChar_append front' hword
  rw [heq, ← String.append_assoc, Text.splitChar_append toList_slash, hcut, hpieces] at hsplit
  obtain ⟨between, hbetween⟩ := prefix_of_cut (Text.splitChar_ne_nil '/' rest') hback hsplit.symm
  have hlength := Text.length_join_le_append "/" (dirs ++ [name ++ word]) between
  rw [hbetween, ← join_append, ← join_append, ← hfront', String.length_append, String.length_append] at hlength
  omega

end Path

namespace Resolve

open CodeAtlas.Path (IsDirectory)

variable {root dirs : List String} {name path : String}

/-! ## The source root -/

/-- A cut behind joined segments is at the beginning of a segment when the last of them is empty. -/
theorem isBoundary_join {front : List String} {part : String} (h : '/' ∉ part.toList) :
    ((Text.join "/" (front ++ [part])).isEmpty || Text.endsWith (Text.join "/" (front ++ [part])) "/") =
      decide (part = "") := by
  by_cases hpart : part = ""
  · rw [decide_eq_true hpart, hpart]
    by_cases hfront : front = []
    · rw [hfront]
      rfl
    · rw [Text.join_concat hfront, String.append_empty, Text.endsWith_append, Bool.or_true]
  · obtain ⟨lead, hlead⟩ := Text.exists_lead_join "/" front part
    rw [decide_eq_false hpart, hlead, Bool.or_eq_false_iff]
    refine ⟨?_, Bool.eq_false_iff.mpr fun hends => ?_⟩
    · rw [String.isEmpty_eq_false_iff]
      exact fun hempty => hpart (String.append_eq_empty_iff.mp hempty).2
    · obtain ⟨other, hother⟩ := Text.endsWith_iff.mp hends
      have hlast : (lead ++ part).toList.getLast? = (other ++ "/").toList.getLast? := by rw [hother]
      rw [String.toList_append, String.toList_append, List.getLast?_append_of_ne_nil _ (mt String.toList_eq_nil_iff.mp hpart),
        Path.toList_slash, List.getLast?_concat] at hlast
      exact h (List.mem_of_getLast? hlast)

/-- What stands below the last directory that ends with `src`, when that is its whole name; else the whole path. -/
theorem afterSourceRoot_join {front back : List String} {part last : String}
    (hslash : ∀ s ∈ front ++ (part ++ "src") :: (back ++ [last]), '/' ∉ s.toList)
    (hback : ∀ s ∈ back, Text.endsWith s "src" = false) :
    afterSourceRoot (Text.join "/" (front ++ (part ++ "src") :: (back ++ [last]))) =
      if part = "" then Text.join "/" (back ++ [last])
      else Text.join "/" (front ++ (part ++ "src") :: (back ++ [last])) := by
  have hpart := hslash (part ++ "src") (List.mem_append_right _ List.mem_cons_self)
  rw [String.toList_append, List.mem_append, not_or] at hpart
  have hcut := Path.cutLast?_join hslash hback
  unfold afterSourceRoot
  rw [show "src/" = "src" ++ "/" from rfl, hcut]
  dsimp only
  rw [isBoundary_join hpart.1]
  simp only [decide_eq_true_eq]

/-! ## Names of modules -/

/-- Names without the last one when it stands for the directory around it. -/
def withoutRole (names : List String) : List String :=
  if names.getLast?.any ["mod", "lib", "main"].contains then names.dropLast else names

theorem withoutRole_concat (dirs : List String) (name : String) :
    withoutRole (dirs ++ [name]) = if ["mod", "lib", "main"].contains name then dirs else dirs ++ [name] := by
  unfold withoutRole
  rw [List.getLast?_concat, Option.any_some, List.dropLast_concat]

/-- The module path of a file whose path below the source root is known. -/
theorem rustModulePath_of_afterSourceRoot (hpath : Path.normalize path = path)
    (hafter : afterSourceRoot path = Text.join "/" (dirs ++ [name ++ ".rs"])) (hdirs : ∀ s ∈ dirs, s ≠ "" ∧ '/' ∉ s.toList)
    (hslash : '/' ∉ name.toList) :
    rustModulePath path = Text.join "::" ("crate" :: withoutRole (dirs ++ if name = "" then [] else [name])) := by
  have hsegments : Path.segments (Text.join "/" (dirs ++ [name])) = dirs ++ if name = "" then [] else [name] := by
    have hwhole : ∀ s ∈ dirs ++ [name], '/' ∉ s.toList :=
      List.forall_mem_append.mpr ⟨fun s hs => (hdirs s hs).2, List.forall_mem_singleton.mpr hslash⟩
    have hkept : dirs.filter (fun s => !s.isEmpty) = dirs :=
      List.filter_eq_self.mpr fun s hs => by simpa using (hdirs s hs).1
    unfold Path.segments
    rw [Text.splitChar_join Path.toList_slash hwhole (List.concat_ne_nil _ _), List.filter_append, hkept]
    by_cases hname : name = ""
    · rw [if_pos hname, hname]
      rfl
    · rw [if_neg hname, List.filter_eq_self.mpr]
      simpa using hname
  unfold rustModulePath withoutRole
  dsimp only
  rw [hpath, hafter, ← Path.join_append, Text.stripEnd?_append, Option.getD_some, hsegments]
  cases hlast : (dirs ++ if name = "" then [] else [name]).getLast? with
  | none =>
    rw [List.getLast?_eq_none_iff.mp hlast]
    rfl
  | some last => rfl

/-! ## Files below a source root -/

/-- The path of a Rust file below a source root. -/
def sourcePath (root dirs : List String) (name : String) : String :=
  Text.join "/" (root ++ "src" :: (dirs ++ [name ++ ".rs"]))

/-- More directories in front make a longer module path. -/
theorem length_withoutRole_lt (root dirs : List String) (name : String) :
    (Text.join "::" ("crate" :: withoutRole (dirs ++ [name]))).length <
      (Text.join "::" ("crate" :: withoutRole (root ++ "src" :: dirs ++ [name]))).length := by
  have hlonger (rest : List String) := @Text.length_join_insert "::" ["crate"] (by decide) (List.cons_ne_nil _ _)
    (root ++ ["src"]) (List.concat_ne_nil _ _) rest
  rw [withoutRole_concat, withoutRole_concat]
  split
  · simpa using hlonger dirs
  · simpa using hlonger (dirs ++ [name])

theorem exists_last_endsWith (h : ∃ d ∈ dirs, Text.endsWith d "src" = true) : ∃ before part after,
    dirs = before ++ (part ++ "src") :: after ∧ ∀ d ∈ after, Text.endsWith d "src" = false := by
  have hsome : (dirs.reverse.find? (Text.endsWith · "src")).isSome = true := by
    simpa [List.find?_isSome] using h
  obtain ⟨d, hd⟩ := Option.isSome_iff_exists.mp hsome
  obtain ⟨hends, after, before, hsplit, hafter⟩ := List.find?_eq_some_iff_append.mp hd
  obtain ⟨part, rfl⟩ := Text.endsWith_iff.mp hends
  refine ⟨before.reverse, part, after.reverse, ?_, fun e he => ?_⟩
  · rw [← List.reverse_reverse dirs, hsplit]
    simp
  · simpa using hafter e (List.mem_reverse.mp he)

section Source

variable (hroot : ∀ s ∈ root, IsDirectory s) (hdirs : ∀ s ∈ dirs, IsDirectory s ∧ s ≠ "src")
  (hname : '/' ∉ name.toList ∧ '\\' ∉ name.toList)

include hroot hdirs hname

theorem slash_notMem_source : ∀ s ∈ root ++ "src" :: (dirs ++ [name ++ ".rs"]), '/' ∉ s.toList ∧ '\\' ∉ s.toList := by
  have hlast : '/' ∉ (name ++ ".rs").toList ∧ '\\' ∉ (name ++ ".rs").toList := by
    rw [String.toList_append, List.mem_append, List.mem_append, not_or, not_or]
    exact ⟨⟨hname.1, by decide⟩, hname.2, by decide⟩
  refine List.forall_mem_append.mpr ⟨fun s hs => (hroot s hs).2.2, List.forall_mem_cons.mpr ⟨by decide, ?_⟩⟩
  exact List.forall_mem_append.mpr ⟨fun s hs => (hdirs s hs).1.2.2, List.forall_mem_singleton.mpr hlast⟩

theorem normalize_sourcePath : Path.normalize (sourcePath root dirs name) = sourcePath root dirs name := by
  refine Path.normalize_join (slash_notMem_source hroot hdirs hname) ?_
  cases root with
  | nil => exact fun h => absurd (Option.some.inj h) (by decide)
  | cons s root => exact fun h => (hroot s List.mem_cons_self).2.1 (Option.some.inj h)

/-- The source root is found when no directory below it ends with `src`. -/
theorem afterSourceRoot_of_forall (h : ∀ d ∈ dirs, Text.endsWith d "src" = false) :
    afterSourceRoot (sourcePath root dirs name) = Text.join "/" (dirs ++ [name ++ ".rs"]) := by
  have hslash := fun s hs => (slash_notMem_source hroot hdirs hname s hs).1
  have hafter := @afterSourceRoot_join root dirs "" (name ++ ".rs") hslash h
  rwa [if_pos rfl] at hafter

/-- A directory that ends with `src` hides the source root. -/
theorem afterSourceRoot_of_exists (h : ∃ d ∈ dirs, Text.endsWith d "src" = true) :
    afterSourceRoot (sourcePath root dirs name) = sourcePath root dirs name := by
  obtain ⟨before, part, after, rfl, hafter⟩ := exists_last_endsWith h
  have hslash := fun s hs => (slash_notMem_source hroot hdirs hname s hs).1
  have hpath : root ++ "src" :: (before ++ (part ++ "src") :: after ++ [name ++ ".rs"]) =
      root ++ "src" :: before ++ (part ++ "src") :: (after ++ [name ++ ".rs"]) := by
    simp
  have hpart : part ≠ "" := by
    rintro rfl
    exact (hdirs ("" ++ "src") (List.mem_append_right _ List.mem_cons_self)).2 rfl
  unfold sourcePath
  rw [hpath] at hslash ⊢
  rw [afterSourceRoot_join hslash hafter, if_neg hpart]

/-- The module path of a file below a source root. -/
theorem rustModulePath_sourcePath : rustModulePath (sourcePath root dirs name) = Text.join "::" ("crate" ::
    withoutRole ((if ∃ d ∈ dirs, Text.endsWith d "src" = true then root ++ "src" :: dirs else dirs) ++
      if name = "" then [] else [name])) := by
  have hpath := normalize_sourcePath hroot hdirs hname
  have hbelow : ∀ s ∈ dirs, s ≠ "" ∧ '/' ∉ s.toList := fun s hs => ⟨(hdirs s hs).1.1, (hdirs s hs).1.2.2.1⟩
  have hall : ∀ s ∈ root ++ "src" :: dirs, s ≠ "" ∧ '/' ∉ s.toList :=
    List.forall_mem_append.mpr
      ⟨fun s hs => ⟨(hroot s hs).1, (hroot s hs).2.2.1⟩, List.forall_mem_cons.mpr ⟨by decide, hbelow⟩⟩
  split
  case isTrue h =>
    refine rustModulePath_of_afterSourceRoot hpath ?_ hall hname.1
    rw [afterSourceRoot_of_exists hroot hdirs hname h, sourcePath, List.append_assoc, List.cons_append]
  case isFalse h =>
    refine rustModulePath_of_afterSourceRoot hpath (afterSourceRoot_of_forall hroot hdirs hname fun d hd => ?_) hbelow hname.1
    exact Bool.eq_false_iff.mpr fun hends => h ⟨d, hd, hends⟩

end Source

/-- The module path of a Rust file below a source root consists of the names of its directories and of its own name, unless
that stands for the directory.  It begins at the root exactly when no directory below the root ends with `src`; otherwise it
begins at the top of the project. -/
theorem module_paths_follow_directories_iff {root dirs : List String} {name : String}
    (hroot : ∀ s ∈ root, IsDirectory s) (hdirs : ∀ s ∈ dirs, IsDirectory s ∧ s ≠ "src")
    (hname : '/' ∉ name.toList ∧ '\\' ∉ name.toList) :
    rustModulePath (sourcePath root dirs name) = Text.join "::" ("crate" ::
        withoutRole ((if ∃ d ∈ dirs, Text.endsWith d "src" = true then root ++ "src" :: dirs else dirs) ++
          if name = "" then [] else [name])) ∧
      (name ≠ "" →
        (rustModulePath (sourcePath root dirs name) = Text.join "::" ("crate" :: withoutRole (dirs ++ [name])) ↔
          ∀ d ∈ dirs, Text.endsWith d "src" = false)) := by
  have hvalue := rustModulePath_sourcePath hroot hdirs hname
  refine ⟨hvalue, fun hne => ?_⟩
  rw [if_neg hne] at hvalue
  constructor
  · intro heq d hd
    by_contra hends
    have hhidden : ∃ d ∈ dirs, Text.endsWith d "src" = true := ⟨d, hd, Bool.not_eq_false _ ▸ hends⟩
    rw [hvalue, if_pos hhidden] at heq
    exact absurd (congrArg String.length heq) (Nat.ne_of_gt (length_withoutRole_lt root dirs name))
  · intro h
    have hopen : ¬∃ d ∈ dirs, Text.endsWith d "src" = true := fun ⟨d, hd, hends⟩ => by
      rw [h d hd] at hends
      cases hends
    rw [hvalue, if_neg hopen]

/-- The directory `mysrc` hides the source root, and `subsrcs` does not. -/
theorem module_paths_follow_directories_iff_mysrc :
    (∀ s ∈ ["tools"], IsDirectory s) ∧ (∀ s ∈ ["mysrc"], IsDirectory s ∧ s ≠ "src") ∧
      (∀ s ∈ ["subsrcs"], IsDirectory s ∧ s ≠ "src") ∧ ('/' ∉ "x".toList ∧ '\\' ∉ "x".toList) ∧
      rustModulePath "tools/src/mysrc/x.rs" = "crate::tools::src::mysrc::x" ∧
      rustModulePath "tools/src/mysrc/x.rs" ≠ "crate::mysrc::x" ∧
      rustModulePath "tools/src/subsrcs/x.rs" = "crate::subsrcs::x" := by
  have hroot : ∀ s ∈ ["tools"], IsDirectory s := by decide
  have hmysrc : ∀ s ∈ ["mysrc"], IsDirectory s ∧ s ≠ "src" := by decide
  have hsubsrcs : ∀ s ∈ ["subsrcs"], IsDirectory s ∧ s ≠ "src" := by decide
  have hname : '/' ∉ "x".toList ∧ '\\' ∉ "x".toList := by decide
  obtain ⟨hhidden, hcondition⟩ := module_paths_follow_directories_iff hroot hmysrc hname
  obtain ⟨hopen, -⟩ := module_paths_follow_directories_iff hroot hsubsrcs hname
  exact ⟨hroot, hmysrc, hsubsrcs, hname, hhidden.trans (by decide),
    fun heq => absurd ((hcondition (by decide)).mp heq) (by decide), hopen.trans (by decide)⟩

end Resolve

end CodeAtlas
