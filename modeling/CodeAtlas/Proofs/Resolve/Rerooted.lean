/-
  Projects below a directory.

  The files of a project can also be listed by where they stand below an absolute directory.  What a relative import leads
  to is then the same file, provided that it is found at its place (`rerooted_imports_lead_to_iff`).  A Python module is,
  unless it is looked for at the top of a project that fills the whole disk.  An ECMAScript file never is, because the
  slash in front is lost when a specifier is joined; and an included file, for the same reason, only as the one file of its
  name.
-/
import CodeAtlas.Proofs.Resolve.Relative
import Mathlib.Data.List.TakeWhile

namespace CodeAtlas

namespace Path

variable {top path root specifier : String} {names steps : List String}

/-! ## Paths below a directory -/

theorem segments_append (front rest : String) : segments (front ++ "/" ++ rest) = segments front ++ segments rest := by
  unfold segments
  rw [Text.splitChar_append toList_slash, List.filter_append]

/-- The name of a file does not depend on the directories in front. -/
theorem fileName_append (front rest : String) : fileName (front ++ "/" ++ rest) = fileName rest := by
  have hreverse : (front ++ "/" ++ rest).toList.reverse = rest.toList.reverse ++ '/' :: front.toList.reverse := by
    simp
  have hstop : List.takeWhile (fun c => !isSlash c) (rest.toList.reverse ++ '/' :: front.toList.reverse) =
      List.takeWhile (fun c => !isSlash c) rest.toList.reverse := by
    rw [List.takeWhile_append, List.takeWhile_cons_of_neg (by decide), List.append_nil]
    split
    · rename_i hall
      exact ((List.takeWhile_prefix _).eq_of_length hall).symm
    · rfl
  unfold fileName
  rw [hreverse, hstop]

theorem fileName_of_notMem (hslash : '/' ∉ path.toList) (hback : '\\' ∉ path.toList) : fileName path = path := by
  have hall : ∀ c ∈ path.toList.reverse, (!isSlash c) = true := by
    intro c hc
    rw [List.mem_reverse] at hc
    simp only [isSlash, Bool.not_eq_true', Bool.or_eq_false_iff, beq_eq_false_iff_ne]
    exact ⟨fun h => hslash (h ▸ hc), fun h => hback (h ▸ hc)⟩
  unfold fileName
  rw [List.takeWhile_eq_self_iff.mpr hall, List.reverse_reverse, String.ofList_toList]

/-- The name of a file is the last name of its path. -/
theorem fileName_join (dirs : List String) (name : String) : fileName (Text.join "/" (dirs ++ [name])) = fileName name := by
  by_cases hnil : dirs = []
  · rw [hnil, List.nil_append, Text.join_singleton]
  · rw [Text.join_concat hnil, fileName_append]

theorem Plain.isName_fileName (h : Plain path) : IsName (fileName path) := by
  obtain ⟨dirs, name, hsegments⟩ : ∃ dirs name, segments path = dirs ++ [name] :=
    ⟨_, _, (List.dropLast_append_getLast h.segments_ne_nil).symm⟩
  have hmem : name ∈ segments path := hsegments ▸ List.mem_append_right _ List.mem_cons_self
  have hjoin := h.join_segments
  rw [hsegments] at hjoin
  have hback : '\\' ∉ name.toList := fun hmemBack =>
    h.forward (hjoin ▸ Text.mem_toList_join_of_mem (List.mem_append_right _ List.mem_cons_self) hmemBack)
  rw [← hjoin, fileName_join, fileName_of_notMem (of_mem_segments hmem).2 hback]
  exact h.isName hmem

/-- What a specifier with a name at its end is joined to has the same name. -/
theorem fileName_joinRelative (dir : String) (h : IsName (fileName specifier)) :
    fileName (Resolve.joinRelative dir specifier) = fileName specifier := by
  obtain ⟨inner, last, hsplit⟩ : ∃ inner last, Text.splitChar '/' specifier = inner ++ [last] :=
    ⟨_, _, (List.dropLast_append_getLast (Text.splitChar_ne_nil '/' specifier)).symm⟩
  have hname : fileName specifier = fileName last := by
    rw [← Text.join_splitChar toList_slash specifier, hsplit, fileName_join]
  have hlast : IsName last := by
    rw [hname] at h
    refine ⟨?_, ?_, ?_⟩
    · rintro rfl
      exact h.1 rfl
    · rintro rfl
      exact h.2.1 (by decide)
    · rintro rfl
      exact h.2.2 (by decide)
  have hpush (stack : List String) : Resolve.pushSegment stack last = last :: stack := by
    obtain ⟨hempty, hdot, hdots⟩ := hlast
    unfold Resolve.pushSegment
    rw [if_neg (by simp [hempty, hdot]), if_neg (by simpa using hdots)]
  unfold Resolve.joinRelative
  dsimp only
  rw [hname, hsplit, List.foldl_concat, hpush, List.reverse_cons, fileName_join]

/-- As many directories up as there are names at the end. -/
theorem repeat_parent_join (dirs up : List String) (h : ∀ name ∈ up, '/' ∉ name.toList) :
    Nat.repeat parent up.length (Text.join "/" (dirs ++ up)) = Text.join "/" dirs := by
  induction up generalizing dirs with
  | nil => rw [List.append_nil]; rfl
  | cons name up ih =>
    obtain ⟨hname, hup⟩ := List.forall_mem_cons.mp h
    rw [List.length_cons, Nat.repeat, List.append_cons, ih (dirs ++ [name]) hup, parent_join dirs hname]

/-- Directories around a directory do not change where segments lead from it. -/
theorem follow?_append (front : List String) {dir : List String} (h : follow? dir steps = some names) :
    follow? (front ++ dir) steps = some (front ++ names) := by
  induction steps generalizing dir with
  | nil => rw [follow?, Option.some.inj h]
  | cons segment rest ih =>
    unfold follow? at h ⊢
    split at h
    case isTrue hstay =>
      rw [if_pos hstay]
      exact ih h
    case isFalse hstay =>
      rw [if_neg hstay]
      split at h
      case isTrue hup =>
        rw [if_pos hup]
        split at h
        case isTrue => cases h
        case isFalse hdir =>
          have hne : front ++ dir ≠ [] := fun hnil => hdir (List.append_eq_nil_iff.mp hnil).2
          rw [if_neg hne, List.dropLast_append_of_ne_nil hdir]
          exact ih h
      case isFalse hname =>
        rw [if_neg hname, List.append_assoc]
        exact ih h

theorem join_append_ne_empty (front : List String) (h : Text.join "/" names ≠ "") : Text.join "/" (front ++ names) ≠ "" := by
  by_cases hfront : front = []
  · rwa [hfront, List.nil_append]
  · by_cases hnames : names = []
    · exact absurd (by rw [hnames]; rfl) h
    · rw [Text.join_append hfront hnames]
      exact fun hempty => h (String.append_eq_empty_iff.mp hempty).2

/-- The path of an absolute directory without a slash at its end; for the root of all paths it is empty. -/
structure IsTop (root top : String) : Prop where
  inside_eq : ∀ path, inside root path = top ++ "/" ++ path
  forward : '\\' ∉ top.toList
  absolute : top = "" ∨ Text.startsWith top "/" = true
  empty_iff : top = "" ↔ root = "/"

theorem exists_isTop (hroot : Text.startsWith root "/" = true) (hforward : '\\' ∉ root.toList) :
    ∃ top, IsTop root top := by
  by_cases hend : Text.endsWith root "/" = true
  · obtain ⟨top, rfl⟩ := Text.endsWith_iff.mp hend
    refine ⟨top, fun path => if_pos hend, ?_, ?_, ?_⟩
    · exact fun h => hforward (by rw [String.toList_append]; exact List.mem_append_left _ h)
    · by_cases hempty : top = ""
      · exact Or.inl hempty
      · rw [Text.startsWith_append toList_slash hempty] at hroot
        exact Or.inr hroot
    · constructor
      · rintro rfl
        rfl
      · intro h
        exact (String.append_left_inj "/").mp (h.trans (String.empty_append).symm)
  · refine ⟨root, fun path => if_neg hend, hforward, Or.inr hroot, ?_⟩
    constructor
    · rintro rfl
      exact absurd hroot (by decide)
    · rintro rfl
      exact absurd (by decide) hend

namespace IsTop

theorem injective (h : IsTop root top) : Function.Injective (inside root) := by
  intro path other hsame
  rw [h.inside_eq, h.inside_eq] at hsame
  exact (String.append_right_inj _).mp hsame

theorem startsWith (h : IsTop root top) (path : String) : Text.startsWith (inside root path) "/" = true := by
  rw [h.inside_eq]
  rcases h.absolute with rfl | habsolute
  · exact Text.startsWith_iff.mpr ⟨path, by rw [String.empty_append]⟩
  · obtain ⟨rest, rfl⟩ := Text.startsWith_iff.mp habsolute
    exact Text.startsWith_iff.mpr ⟨_, by rw [String.append_assoc, String.append_assoc]⟩

theorem normalize_eq (h : IsTop root top) (hpath : Plain path) : normalize (inside root path) = inside root path := by
  refine normalize_eq_self ?_ ?_
  · rw [h.inside_eq, String.toList_append, String.toList_append, List.mem_append, List.mem_append]
    rintro ((hmem | hmem) | hmem)
    · exact h.forward hmem
    · exact absurd hmem (by decide)
    · exact hpath.forward hmem
  · obtain ⟨rest, hrest⟩ := Text.startsWith_iff.mp (h.startsWith path)
    refine Bool.eq_false_iff.mpr fun hdot => ?_
    obtain ⟨other, hother⟩ := Text.startsWith_iff.mp hdot
    have hchars := congrArg String.toList (hrest.symm.trans hother)
    rw [String.toList_append, String.toList_append] at hchars
    exact absurd (List.cons.inj hchars).1 (by decide)

/-- Below a directory the names of a plain path follow the directory. -/
theorem inside_eq_join (h : IsTop root top) (hpath : Plain path) : inside root path = Text.join "/" (top :: segments path) := by
  obtain ⟨name, names, hnames⟩ := List.exists_cons_of_ne_nil hpath.segments_ne_nil
  rw [h.inside_eq, hnames, Text.join, String.intercalate_cons_cons, ← hnames]
  exact congrArg (top ++ "/" ++ ·) hpath.join_segments.symm

/-- The directory of a plain path below a directory has the names of both. -/
theorem segments_parent (h : IsTop root top) (hpath : Plain path) :
    segments (parent (inside root path)) = segments top ++ segments (parent path) := by
  obtain ⟨dirs, name, hsegments⟩ : ∃ dirs name, segments path = dirs ++ [name] :=
    ⟨_, _, (List.dropLast_append_getLast hpath.segments_ne_nil).symm⟩
  have hname : '/' ∉ name.toList := (of_mem_segments (hsegments ▸ List.mem_append_right _ List.mem_cons_self)).2
  have hdirs : ∀ s ∈ dirs, s ≠ "" ∧ '/' ∉ s.toList := fun s hs =>
    of_mem_segments (hsegments ▸ List.mem_append_left _ hs)
  rw [h.inside_eq_join hpath, hsegments, ← List.cons_append, parent_join _ hname, hpath.segments_parent, hsegments,
    List.dropLast_concat]
  cases dirs with
  | nil => rw [Text.join_singleton, List.append_nil]
  | cons dir dirs =>
    rw [Text.join, String.intercalate_cons_cons, segments_append]
    exact congrArg (segments top ++ ·) (segments_join hdirs)

/-- Where a specifier is joined below a directory. -/
theorem joinRelative_eq (h : IsTop root top) (hpath : Plain path)
    (hfollow : follow? (segments (parent path)) (Text.splitChar '/' specifier) = some names) :
    Resolve.joinRelative (parent (inside root path)) specifier = Text.join "/" (segments top ++ names) := by
  refine Path.joinRelative_eq ?_
  rw [h.segments_parent hpath]
  exact follow?_append _ hfollow

end IsTop

end Path

namespace Resolve

variable {paths : List String} {root top importer specifier path : String}

/-! ## Python modules -/

/-- The number of dots in front of a module name. -/
def leadingDots (specifier : String) : Nat :=
  (specifier.toList.takeWhile (· == '.')).length

/-- The path of a module from the directory that its leading dots mean. -/
def dottedPath (specifier : String) : String :=
  .ofList ((specifier.toList.drop (leadingDots specifier)).map fun c => if c == '.' then '/' else c)

/-- The files that hold a module. -/
def moduleFiles (base : String) : List String :=
  [base ++ ".py", base ++ "/__init__.py"]

theorem python_of_leadingDots {index : FileIndex} (h : 0 < leadingDots specifier) :
    python index importer specifier =
      .ofFile? ((moduleFiles (joinDir (packageDir importer (leadingDots specifier)) (dottedPath specifier))).find?
        index.contains) :=
  if_neg (Nat.ne_of_gt h)

theorem not_startsWith_dottedPath (hname : dottedPath specifier ≠ "") (hslash : '/' ∉ specifier.toList) :
    Text.startsWith (dottedPath specifier) "/" = false := by
  have hdrop : specifier.toList.drop (leadingDots specifier) = specifier.toList.dropWhile (· == '.') := by
    conv_lhs => rw [← List.takeWhile_append_dropWhile (p := (· == '.')) (l := specifier.toList)]
    exact List.drop_left
  unfold dottedPath at hname ⊢
  rw [hdrop] at hname ⊢
  unfold Text.startsWith
  rw [String.toList_ofList]
  cases hchars : specifier.toList.dropWhile (· == '.') with
  | nil => exact absurd (by rw [hchars]; rfl) hname
  | cons c chars =>
    have hdot := List.head?_dropWhile_not (· == '.') specifier.toList
    rw [hchars] at hdot
    have hc : c ≠ '/' := by
      rintro rfl
      exact hslash ((List.dropWhile_sublist _).subset (hchars ▸ List.mem_cons_self))
    rw [List.map_cons, if_neg (Bool.eq_false_iff.mp hdot)]
    simpa [List.isPrefixOf] using Ne.symm hc

/-- What lies in a directory lies below another one in the directory below that, unless both are at the top of all paths. -/
theorem joinDir_inside (htop : Path.IsTop root top) {dirs : List String} {rest : String} (hdirs : ∀ d ∈ dirs, d ≠ "") (hrest : rest ≠ "")
    (h : top ≠ "" ∨ dirs ≠ []) :
    joinDir (Text.join "/" (top :: dirs)) rest = Path.inside root (joinDir (Text.join "/" dirs) rest) := by
  rw [htop.inside_eq]
  cases dirs with
  | nil =>
    have htopNe : top ≠ "" := h.resolve_right fun hnil => hnil rfl
    rw [Text.join_singleton, joinDir_of_ne htopNe hrest]
    rfl
  | cons dir dirs =>
    have hjoin : Text.join "/" (dir :: dirs) ≠ "" := Text.join_cons_ne_empty (hdirs dir List.mem_cons_self) dirs
    have hbelow : Text.join "/" (top :: dir :: dirs) = top ++ "/" ++ Text.join "/" (dir :: dirs) :=
      String.intercalate_cons_cons
    have hne : top ++ "/" ++ Text.join "/" (dir :: dirs) ≠ "" := fun hempty =>
      hjoin (String.append_eq_empty_iff.mp hempty).2
    rw [hbelow, joinDir_of_ne hne hrest, joinDir_of_ne hjoin hrest]
    simp only [String.append_assoc]

/-! ## Included files -/

/-- Whether a path is the one file of a name. -/
def OnlyNamed (paths : List String) (name path : String) : Prop :=
  ∀ p, p ∈ paths ∧ Path.fileName p = name ↔ p = path

theorem named_ofPaths_iff {name : String} (hnormal : ∀ p ∈ paths, Path.normalize p = p) :
    (FileIndex.ofPaths paths).named name = [path] ↔ OnlyNamed paths name path := by
  have hnodup : ((FileIndex.ofPaths paths).named name).Nodup := (FileIndex.increasing_ofPaths paths).nodup.filter _
  have hmem (p : String) : p ∈ (FileIndex.ofPaths paths).paths ↔ p ∈ paths :=
    List.contains_iff_mem.symm.trans (FileIndex.contains_ofPaths hnormal)
  rw [← List.perm_singleton, List.perm_ext_iff_of_nodup hnodup (List.nodup_singleton path)]
  simp only [FileIndex.named, List.mem_filter, hmem, beq_iff_eq, List.mem_singleton, OnlyNamed]

theorem onlyNamed_rerooted (htop : Path.IsTop root top) {name : String} :
    OnlyNamed (paths.map (Path.inside root)) name (Path.inside root path) ↔ OnlyNamed paths name path := by
  have hname (p : String) : Path.fileName (Path.inside root p) = Path.fileName p := by
    rw [htop.inside_eq, Path.fileName_append]
  constructor
  · intro h p
    have hp := h (Path.inside root p)
    rwa [List.mem_map_of_injective htop.injective, hname, htop.injective.eq_iff] at hp
  · intro h q
    constructor
    · rintro ⟨hq, hqname⟩
      obtain ⟨p, hp, rfl⟩ := List.mem_map.mp hq
      rw [(h p).mp ⟨hp, hname p ▸ hqname⟩]
    · rintro rfl
      obtain ⟨hp, hpname⟩ := (h path).mpr rfl
      exact ⟨List.mem_map_of_mem hp, (hname path).trans hpname⟩

/-! ## Indexes below a directory -/

section Rerooted

variable (htop : Path.IsTop root top) (hplain : ∀ p ∈ paths, Path.Plain p)

include htop hplain

theorem normalize_rerooted : ∀ p ∈ paths.map (Path.inside root), Path.normalize p = p :=
  List.forall_mem_map.mpr fun p hp => htop.normalize_eq (hplain p hp)

theorem contains_rerooted : (FileIndex.ofPaths (paths.map (Path.inside root))).contains (Path.inside root path) =
    (FileIndex.ofPaths paths).contains path := by
  rw [Bool.eq_iff_iff, FileIndex.contains_ofPaths (normalize_rerooted htop hplain), FileIndex.contains_ofPaths_iff hplain,
    List.mem_map_of_injective htop.injective]

/-- Nothing is found below a directory that does not begin at the root. -/
theorem not_contains_rerooted (h : Text.startsWith path "/" = false) :
    (FileIndex.ofPaths (paths.map (Path.inside root))).contains path = false := by
  refine Bool.eq_false_iff.mpr fun hin => ?_
  obtain ⟨p, -, rfl⟩ :=
    List.mem_map.mp ((FileIndex.contains_ofPaths (normalize_rerooted htop hplain)).mp hin)
  rw [htop.startsWith] at h
  cases h

/-! ## Paths -/

/-- No path that a relative specifier means is found below a directory, since it does not begin at the root. -/
theorem ecmaScript_rerooted {language : Language} {base : String} (hlanguage : language.isEcmaScript = true)
    (hrelative : isRelative specifier = true) (himporter : importer ∈ paths)
    (hmeant : Path.meant? importer specifier = some base) (hbase : base ≠ "") (other : String) :
    (FileIndex.ofPaths (paths.map (Path.inside root))).resolve (Path.inside root importer) (some language) specifier ≠
      .internal (Path.inside root other) := by
  have hhere := hplain importer himporter
  obtain ⟨names, hfollow, hnames⟩ := Option.map_eq_some_iff.mp hmeant
  intro hinternal
  rcases resolve_cases hlanguage hrelative with hnone | ⟨path, hpath, hmeans⟩
  · rw [hnone] at hinternal
    cases hinternal
  · rw [hpath] at hinternal
    cases hinternal
    obtain ⟨rest, hrest⟩ := hmeans.exists_rest
    have hstart := htop.startsWith other
    rw [hrest, Text.startsWith_append Path.toList_slash ?_, Path.startsWith_joinRelative] at hstart
    · cases hstart
    · rw [hhere.not_startsWith, if_neg Bool.false_ne_true, String.empty_append] at hnames
      rw [htop.normalize_eq hhere, htop.joinRelative_eq hhere hfollow]
      exact Path.join_append_ne_empty _ (hnames ▸ hbase)

/-! ## Modules -/

theorem packageDir_rerooted (himporter : importer ∈ paths) {level : Nat} (hlevel : level ≤ (Path.segments importer).length) :
    ∃ dirs, (∀ d ∈ dirs, d ≠ "") ∧ packageDir importer level = Text.join "/" dirs ∧
      packageDir (Path.inside root importer) level = Text.join "/" (top :: dirs) := by
  have hhere := hplain importer himporter
  obtain ⟨dirs, up, hsegments, hup⟩ : ∃ dirs up, Path.segments importer = dirs ++ up ∧ up.length = level := by
    refine ⟨_, _, (List.take_append_drop ((Path.segments importer).length - level) _).symm, ?_⟩
    rw [List.length_drop]
    omega
  have hslash : ∀ name ∈ up, '/' ∉ name.toList := fun name hname =>
    (Path.of_mem_segments (hsegments ▸ List.mem_append_right _ hname)).2
  refine ⟨dirs, fun d hd => (Path.of_mem_segments (hsegments ▸ List.mem_append_left _ hd)).1, ?_, ?_⟩
  · unfold packageDir
    rw [← hhere.join_segments, hsegments, ← hup]
    exact Path.repeat_parent_join dirs up hslash
  · unfold packageDir
    rw [htop.inside_eq_join hhere, hsegments, ← hup, ← List.cons_append]
    exact Path.repeat_parent_join (top :: dirs) up hslash

theorem find?_moduleFiles_rerooted (base : String) :
    (moduleFiles (Path.inside root base)).find? (FileIndex.ofPaths (paths.map (Path.inside root))).contains =
      ((moduleFiles base).find? (FileIndex.ofPaths paths).contains).map (Path.inside root) := by
  have hfiles : moduleFiles (Path.inside root base) = (moduleFiles base).map (Path.inside root) := by
    simp only [moduleFiles, List.map_cons, List.map_nil, htop.inside_eq, String.append_assoc]
  have hcontains : (FileIndex.ofPaths (paths.map (Path.inside root))).contains ∘ Path.inside root =
      (FileIndex.ofPaths paths).contains := funext fun p => contains_rerooted htop hplain
  rw [hfiles, List.find?_map, hcontains]

/-- A Python module is found at its place below a directory, unless it is looked for at the root of all paths. -/
theorem python_rerooted (himporter : importer ∈ paths) (hdots : 0 < leadingDots specifier)
    (hlevels : leadingDots specifier ≤ (Path.segments importer).length) (hname : dottedPath specifier ≠ "")
    (hslash : '/' ∉ specifier.toList) :
    (FileIndex.ofPaths (paths.map (Path.inside root))).resolve (Path.inside root importer) (some .python) specifier =
        .internal (Path.inside root path) ↔
      (FileIndex.ofPaths paths).resolve importer (some .python) specifier = .internal path ∧
        (root ≠ "/" ∨ packageDir importer (leadingDots specifier) ≠ "") := by
  have hhere := hplain importer himporter
  obtain ⟨dirs, hdirs, hdir, hdirBelow⟩ := packageDir_rerooted htop hplain himporter hlevels
  rw [FileIndex.resolve_eq_internal_iff, FileIndex.resolve_eq_internal_iff, htop.normalize_eq hhere, hhere.normalize_eq,
    htop.injective.ne_iff, FileIndex.lookup, FileIndex.lookup, python_of_leadingDots hdots, python_of_leadingDots hdots,
    Resolution.ofFile?_eq_internal, Resolution.ofFile?_eq_internal, hdir, hdirBelow]
  by_cases hplace : top ≠ "" ∨ dirs ≠ []
  · have hdirNe : root ≠ "/" ∨ Text.join "/" dirs ≠ "" := by
      refine hplace.imp (mt htop.empty_iff.mpr) fun hne => ?_
      obtain ⟨d, dirs, rfl⟩ := List.exists_cons_of_ne_nil hne
      exact Text.join_cons_ne_empty (hdirs d List.mem_cons_self) dirs
    rw [joinDir_inside htop hdirs hname hplace, find?_moduleFiles_rerooted htop hplain, Option.map_eq_some_iff]
    simp [htop.injective.eq_iff, hdirNe]
  · obtain ⟨htopNil, hdirsNil⟩ := not_or.mp hplace
    obtain rfl : top = "" := not_not.mp htopNil
    obtain rfl : dirs = [] := not_not.mp hdirsNil
    have hbase : joinDir (Text.join "/" [""]) (dottedPath specifier) = dottedPath specifier := rfl
    have hmissing : (moduleFiles (dottedPath specifier)).find?
        (FileIndex.ofPaths (paths.map (Path.inside root))).contains = none := by
      have hstart (file : String) : Text.startsWith (dottedPath specifier ++ file) "/" = false := by
        rw [Text.startsWith_append Path.toList_slash hname, not_startsWith_dottedPath hname hslash]
      simp [moduleFiles, not_contains_rerooted htop hplain (hstart _)]
    have hroot : root = "/" := htop.empty_iff.mp rfl
    rw [hbase, hmissing]
    refine iff_of_false (fun h => nomatch h.1) ?_
    rintro ⟨-, hother | hdirNe⟩
    · exact hother hroot
    · exact hdirNe rfl

/-! ## Inclusions -/

/-- An included file is found below a directory only as the one file of its name. -/
theorem inclusion_rerooted {language : Language} (himporter : importer ∈ paths) (hlanguage : language = .c ∨ language = .cpp)
    (hrelative : Text.startsWith specifier "./" = true ∨ Text.startsWith specifier "../" = true) :
    (FileIndex.ofPaths (paths.map (Path.inside root))).resolve (Path.inside root importer) (some language) specifier =
        .internal (Path.inside root path) ↔
      (FileIndex.ofPaths paths).resolve importer (some language) specifier = .internal path ∧
        OnlyNamed paths (Path.fileName specifier) path := by
  have hhere := hplain importer himporter
  have hlookup (index : FileIndex) (from' : String) :
      index.lookup from' (some language) specifier = inclusion index from' specifier := by
    rcases hlanguage with rfl | rfl
    · rfl
    · rfl
  have hmissing := not_contains_rerooted htop hplain (Path.startsWith_joinRelative (Path.parent (Path.inside root importer)) specifier)
  rw [FileIndex.resolve_eq_internal_iff, FileIndex.resolve_eq_internal_iff, htop.normalize_eq hhere, hhere.normalize_eq,
    htop.injective.ne_iff, hlookup, hlookup, inclusion_of_missing hrelative hmissing,
    named_ofPaths_iff (normalize_rerooted htop hplain), onlyNamed_rerooted htop]
  constructor
  · rintro ⟨honly, hother⟩
    refine ⟨⟨?_, hother⟩, honly⟩
    obtain ⟨hpath, hname⟩ := (honly path).mpr rfl
    cases hjoined : (FileIndex.ofPaths paths).contains (joinRelative (Path.parent importer) specifier) with
    | false =>
      rw [inclusion_of_missing hrelative hjoined, named_ofPaths_iff fun p hp => (hplain p hp).normalize_eq]
      exact honly
    | true =>
      have hsame : Path.fileName (joinRelative (Path.parent importer) specifier) = Path.fileName specifier :=
        Path.fileName_joinRelative _ (hname ▸ (hplain path hpath).isName_fileName)
      rw [inclusion_of_contains hrelative hjoined,
        (honly _).mp ⟨(FileIndex.contains_ofPaths_iff hplain).mp hjoined, hsame⟩]
  · rintro ⟨⟨-, hother⟩, honly⟩
    exact ⟨honly, hother⟩

end Rerooted

/-! ## Relative imports -/

/-- A relative import that does not lead out of the project: an ECMAScript path to something in the project, a Python module
from as many directories up as there are, or an included file. -/
inductive StaysInside (importer specifier : String) : Language → Prop where
  | path {language : Language} {base : String} (ecma : language.isEcmaScript = true)
      (relative : Text.startsWith specifier "./" = true ∨ Text.startsWith specifier "../" = true)
      (meant : Path.meant? importer specifier = some base) (file : base ≠ "") : StaysInside importer specifier language
  | module (dots : 0 < leadingDots specifier) (levels : leadingDots specifier ≤ (Path.segments importer).length)
      (named : dottedPath specifier ≠ "") (dotted : '/' ∉ specifier.toList) : StaysInside importer specifier .python
  | inclusion {language : Language} {base : String} (family : language = .c ∨ language = .cpp)
      (relative : Text.startsWith specifier "./" = true ∨ Text.startsWith specifier "../" = true)
      (meant : Path.meant? importer specifier = some base) : StaysInside importer specifier language

/-- Whether a file to which a relative import leads is still found when the project stands below a directory: a Python module
unless it is looked for at the root of all paths, an included file as the one file of its name, an ECMAScript file never. -/
def FoundBelow (root : String) (paths : List String) (importer specifier path : String) (language : Language) : Prop :=
  if language = .python then root ≠ "/" ∨ packageDir importer (leadingDots specifier) ≠ ""
  else if language.isEcmaScript then False
  else OnlyNamed paths (Path.fileName specifier) path

/-- Below an absolute directory a relative import of a project of plain paths leads to the file below the directory that it
leads to in the project, exactly when that is found there. -/
theorem rerooted_imports_lead_to_iff {paths : List String} (hplain : ∀ p ∈ paths, Path.Plain p) {root : String}
    (hroot : Text.startsWith root "/" = true) (hforward : '\\' ∉ root.toList) {importer : String}
    (himporter : importer ∈ paths) {specifier : String} {language : Language}
    (hinside : StaysInside importer specifier language) (path : String) :
    (FileIndex.ofPaths (paths.map (Path.inside root))).resolve (Path.inside root importer) (some language) specifier =
        .internal (Path.inside root path) ↔
      (FileIndex.ofPaths paths).resolve importer (some language) specifier = .internal path ∧
        FoundBelow root paths importer specifier path language := by
  obtain ⟨top, htop⟩ := Path.exists_isTop hroot hforward
  cases hinside with
  | path ecma relative meant file =>
    have hnever : ¬FoundBelow root paths importer specifier path language := by
      unfold FoundBelow
      rw [if_neg (by rintro rfl; cases ecma), if_pos ecma]
      exact not_false
    exact iff_of_false
      (ecmaScript_rerooted htop hplain ecma (isRelative_of_startsWith relative) himporter meant file path)
      fun h => hnever h.2
  | module dots levels named dotted => exact python_rerooted htop hplain himporter dots levels named dotted
  | inclusion family relative meant =>
    have hnamed : FoundBelow root paths importer specifier path language = OnlyNamed paths (Path.fileName specifier) path := by
      rcases family with rfl | rfl
      · rfl
      · rfl
    rw [hnamed]
    exact inclusion_rerooted htop hplain himporter family relative

/-- In a home directory a Python module in the directory above is found, and a file that is included from beside it, but no
script beside another one. -/
theorem rerooted_imports_lead_to_iff_home :
    let paths := ["pkg/a.py", "pkg/sub/b.py", "src/a.js", "src/b.js", "src/main.c", "src/util.h"]
    let below := FileIndex.ofPaths (paths.map (Path.inside "/home/u/proj"))
    (∀ p ∈ paths, Path.Plain p) ∧ StaysInside "pkg/sub/b.py" "..a" .python ∧ StaysInside "src/a.js" "./b" .javascript ∧
      StaysInside "src/main.c" "./util.h" .c ∧
      below.resolve "/home/u/proj/pkg/sub/b.py" (some .python) "..a" = .internal "/home/u/proj/pkg/a.py" ∧
      below.resolve "/home/u/proj/src/main.c" (some .c) "./util.h" = .internal "/home/u/proj/src/util.h" ∧
      (FileIndex.ofPaths paths).resolve "src/a.js" (some .javascript) "./b" = .internal "src/b.js" ∧
      below.resolve "/home/u/proj/src/a.js" (some .javascript) "./b" ≠ .internal "/home/u/proj/src/b.js" := by
  intro paths below
  have hplain : ∀ p ∈ paths, Path.Plain p := by decide
  have hincreasing : List.Pairwise (· < ·) paths := by decide
  have hindex : FileIndex.ofPaths paths = ⟨paths⟩ := FileIndex.ofPaths_of_plain hplain hincreasing
  have hmodule : StaysInside "pkg/sub/b.py" "..a" .python := .module (by decide) (by decide) (by decide) (by decide)
  have hscriptMeant : Path.meant? "src/a.js" "./b" = some "src/b" := by decide +kernel
  have hscript : StaysInside "src/a.js" "./b" .javascript := .path rfl (by decide) hscriptMeant (by decide)
  have hincludedMeant : Path.meant? "src/main.c" "./util.h" = some "src/util.h" := by decide +kernel
  have hincluded : StaysInside "src/main.c" "./util.h" .c := .inclusion (Or.inl rfl) (by decide) hincludedMeant
  have hhere (importer : String) (h : importer ∈ paths) : Path.normalize importer = importer := (hplain importer h).normalize_eq
  have hresolve (importer : String) (h : importer ∈ paths) (language : Language) (specifier path : String)
      (hlookup : (FileIndex.mk paths).lookup importer (some language) specifier = .internal path) (hother : path ≠ importer) :
      (FileIndex.ofPaths paths).resolve importer (some language) specifier = .internal path := by
    rw [FileIndex.resolve_eq_internal_iff, hhere importer h, hindex]
    exact ⟨hlookup, hother⟩
  have hmoduleHere := hresolve "pkg/sub/b.py" (by decide) .python "..a" "pkg/a.py" (by decide +kernel) (by decide)
  have hincludedHere := hresolve "src/main.c" (by decide) .c "./util.h" "src/util.h" (by decide +kernel) (by decide)
  have hscriptHere := hresolve "src/a.js" (by decide) .javascript "./b" "src/b.js" (by decide +kernel) (by decide)
  have honly : OnlyNamed paths (Path.fileName "./util.h") "src/util.h" := by
    rw [← named_ofPaths_iff fun p hp => (hplain p hp).normalize_eq, hindex]
    decide +kernel
  have hiff {importer specifier : String} {language : Language} (himporter : importer ∈ paths)
      (hinside : StaysInside importer specifier language) (path : String) :=
    @rerooted_imports_lead_to_iff paths hplain "/home/u/proj" (by decide) (by decide) importer himporter specifier language
      hinside path
  refine ⟨hplain, hmodule, hscript, hincluded, ?_, ?_, hscriptHere, ?_⟩
  · exact (hiff (by decide) hmodule "pkg/a.py").mpr ⟨hmoduleHere, Or.inl (by decide)⟩
  · exact (hiff (by decide) hincluded "src/util.h").mpr ⟨hincludedHere, honly⟩
  · exact fun h => ((hiff (by decide) hscript "src/b.js").mp h).2

end Resolve

end CodeAtlas
