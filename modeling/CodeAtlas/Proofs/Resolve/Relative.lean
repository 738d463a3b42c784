/-
  Relative imports between files.

  In a project of plain paths every file finds every other one by a relative specifier, and in ECMAScript also without the
  extension (`relative_specifiers_lead_to_files`), unless what is left of the name means a directory
  (`dotted_name_lost_without_extension`).  In any project an ECMAScript specifier that begins with `.` or `..` follows the
  path that it means, unless it is `..` alone or leads to a file from above the top or from beside the root
  (`relative_imports_follow_paths_iff`).
-/
import CodeAtlas.Proofs.Path

namespace CodeAtlas

@[simp] theorem Resolution.ofFile?_eq_internal {found : Option String} {path : String} :
    Resolution.ofFile? found = .internal path ↔ found = some path := by
  cases found with
  | none => simp [Resolution.ofFile?]
  | some p => simp [Resolution.ofFile?]

namespace FileIndex

variable {paths : List String} {index : FileIndex} {importer specifier path : String}

/-- Normalised paths are indexed as they are. -/
theorem contains_ofPaths (h : ∀ p ∈ paths, Path.normalize p = p) :
    (ofPaths paths).contains path = true ↔ path ∈ paths := by
  unfold FileIndex.contains
  rw [List.contains_iff_mem, mem_ofPaths]
  constructor
  · rintro ⟨p, hp, rfl⟩
    rwa [h p hp]
  · intro hpath
    exact ⟨path, hpath, h path hpath⟩

/-- Plain paths are indexed as they are. -/
theorem contains_ofPaths_iff (h : ∀ p ∈ paths, Path.Plain p) : (ofPaths paths).contains path = true ↔ path ∈ paths :=
  contains_ofPaths fun p hp => (h p hp).normalize_eq

theorem ofPaths_of_plain (h : ∀ p ∈ paths, Path.Plain p) (hpaths : Increasing paths) : ofPaths paths = ⟨paths⟩ := by
  have hnormal : paths.map Path.normalize = paths :=
    (List.map_congr_left fun p hp => (h p hp).normalize_eq).trans (List.map_id' paths)
  rw [ofPaths_of_increasing (hnormal.symm ▸ hpaths), hnormal]

theorem lookup_of_isEcmaScript {language : Language} (h : language.isEcmaScript = true) :
    index.lookup importer (some language) specifier = Resolve.ecmaScript index importer specifier := by
  cases language <;> first | rfl | cases h

/-- A lookup that leads to no file is not changed. -/
theorem resolve_of_not_internal {language : Option Language} {r : Resolution}
    (h : index.lookup (Path.normalize importer) language specifier = r) (hr : ∀ path, r ≠ .internal path) :
    index.resolve importer language specifier = r := by
  unfold resolve
  dsimp only
  rw [h]
  cases r with
  | internal path => exact absurd rfl (hr path)
  | external package => rfl
  | unresolved => rfl

/-- A lookup that leads to another file is not changed either. -/
theorem resolve_of_lookup {language : Option Language}
    (h : index.lookup (Path.normalize importer) language specifier = .internal path) (hne : path ≠ Path.normalize importer) :
    index.resolve importer language specifier = .internal path := by
  unfold resolve
  dsimp only
  rw [h]
  exact if_neg (mt beq_iff_eq.mp hne)

/-- A file that is found is where an import leads, unless it is the importing one. -/
theorem resolve_of_ofFile? {language : Option Language} {found : Option String}
    (h : index.lookup (Path.normalize importer) language specifier = .ofFile? found) :
    index.resolve importer language specifier = .ofFile? (found.filter (· != Path.normalize importer)) := by
  unfold resolve
  dsimp only
  rw [h]
  cases found with
  | none => rfl
  | some path =>
    by_cases hsame : path = Path.normalize importer
    · simp [Resolution.ofFile?, Option.filter, hsame]
    · simp [Resolution.ofFile?, Option.filter, hsame]

theorem resolve_eq_internal_iff {language : Option Language} :
    index.resolve importer language specifier = .internal path ↔
      index.lookup (Path.normalize importer) language specifier = .internal path ∧ path ≠ Path.normalize importer := by
  refine ⟨fun h => ⟨?_, (leadsInto_resolve h).2⟩, fun h => resolve_of_lookup h.1 h.2⟩
  unfold resolve at h
  dsimp only at h
  split at h
  · rename_i hlookup
    split at h
    · cases h
    · rwa [hlookup]
  · exact h

end FileIndex

namespace Resolve

variable {index : FileIndex} {importer specifier path base extension : String}

theorem joinDir_of_ne {dir name : String} (hdir : dir ≠ "") (hname : name ≠ "") :
    joinDir dir name = dir ++ "/" ++ name := by
  unfold joinDir
  rw [if_neg (by simpa using hdir), if_neg (by simpa using hname)]

/-! ## Probing -/

theorem probe?_of_contains (h : index.contains base = true) : probe? index base = some base :=
  List.find?_cons_of_pos h

/-- The extension of a file that is found without it: the first one with which it is there. -/
def FirstExtension (paths : List String) (base extension : String) : Prop :=
  base ++ extension ∈ paths ∧
    ∃ before after, ecmaExtensions = before ++ extension :: after ∧ ∀ e ∈ before, base ++ e ∉ paths

theorem FirstExtension.mem {paths : List String} (h : FirstExtension paths base extension) : extension ∈ ecmaExtensions := by
  obtain ⟨-, before, after, hsplit, -⟩ := h
  rw [hsplit]
  exact List.mem_append_right _ List.mem_cons_self

/-- Of the files that extensions make of a path, the one with the first extension is found. -/
theorem find?_of_firstExtension {paths : List String} (hnormal : ∀ p ∈ paths, Path.normalize p = p)
    (h : FirstExtension paths base extension) :
    (ecmaExtensions.map (base ++ ·)).find? (FileIndex.ofPaths paths).contains = some (base ++ extension) := by
  obtain ⟨hmem, before, after, hsplit, hbefore⟩ := h
  have hmissing : ∀ e ∈ before, (!(FileIndex.ofPaths paths).contains (base ++ e)) = true := by
    intro e he
    rw [Bool.not_eq_true', Bool.eq_false_iff]
    exact mt (FileIndex.contains_ofPaths hnormal).mp (hbefore e he)
  rw [hsplit, List.map_append, List.map_cons]
  exact List.find?_eq_some_iff_append.mpr
    ⟨(FileIndex.contains_ofPaths hnormal).mpr hmem, _, _, rfl, List.forall_mem_map.mpr hmissing⟩

theorem probe?_of_firstExtension {paths : List String} (hplain : ∀ p ∈ paths, Path.Plain p) (hbase : base ∉ paths)
    (h : FirstExtension paths base extension) : probe? (.ofPaths paths) base = some (base ++ extension) := by
  have hnone : ¬(FileIndex.ofPaths paths).contains base = true := mt (FileIndex.contains_ofPaths_iff hplain).mp hbase
  unfold probe? ecmaCandidates
  dsimp only
  rw [List.cons_append, List.find?_cons_of_neg hnone, List.find?_append,
    find?_of_firstExtension (fun p hp => (hplain p hp).normalize_eq) h, Option.some_or]

/-! ## Files that refer to each other -/

/-- The languages whose files refer to each other by relative specifiers. -/
def RefersToFiles (language : Language) : Prop :=
  language.isEcmaScript = true ∨ language = .c ∨ language = .cpp

theorem startsWith_of_refers (h : Path.Refers importer path specifier) :
    Text.startsWith specifier "./" = true ∨ Text.startsWith specifier "../" = true := by
  obtain ⟨_, up, names, -, -, rfl⟩ := h
  unfold Path.specifierOf
  cases up with
  | nil => exact Or.inl (Text.startsWith_iff.mpr ⟨_, by rw [List.length_nil, if_pos rfl]⟩)
  | cons name up =>
    refine Or.inr (Text.startsWith_iff.mpr ⟨Path.climb up.length ++ Text.join "/" names, ?_⟩)
    rw [List.length_cons, if_neg (Nat.succ_ne_zero _), Path.climb, String.append_assoc]

theorem ecmaScript_of_isRelative (h : isRelative specifier = true) :
    ecmaScript index importer specifier = .ofFile? (probe? index (joinRelative (Path.parent importer) specifier)) := by
  unfold ecmaScript
  rw [if_pos h]

theorem isRelative_of_startsWith (h : Text.startsWith specifier "./" = true ∨ Text.startsWith specifier "../" = true) :
    isRelative specifier = true := by
  unfold isRelative
  rcases h with h | h
  · rw [h, Bool.true_or, Bool.true_or]
  · rw [h, Bool.or_true, Bool.true_or]

theorem isRelative_of_refers (h : Path.Refers importer path specifier) : isRelative specifier = true :=
  isRelative_of_startsWith (startsWith_of_refers h)

/-- An ECMAScript specifier that refers to a plain path leads to what is probed there. -/
theorem ecmaScript_of_refers (h : Path.Refers importer path specifier) (himporter : Path.Plain importer)
    (hpath : Path.Plain path) : ecmaScript index importer specifier = .ofFile? (probe? index path) := by
  rw [ecmaScript_of_isRelative (isRelative_of_refers h), h.joinRelative_eq himporter hpath]

section Inclusion

variable (hrelative : Text.startsWith specifier "./" = true ∨ Text.startsWith specifier "../" = true)

include hrelative

theorem not_outside_of_relative : ¬(!Text.startsWith specifier "./" && !Text.startsWith specifier "../") = true := by
  rcases hrelative with h | h
  · simp [h]
  · simp [h]

theorem inclusion_of_contains (h : index.contains (joinRelative (Path.parent importer) specifier) = true) :
    inclusion index importer specifier = .internal (joinRelative (Path.parent importer) specifier) := by
  unfold inclusion
  dsimp only
  rw [if_neg (not_outside_of_relative hrelative), if_pos h]

/-- What is not found where it is joined is looked for by its name. -/
theorem inclusion_of_missing (h : index.contains (joinRelative (Path.parent importer) specifier) = false) :
    inclusion index importer specifier = .internal path ↔ index.named (Path.fileName specifier) = [path] := by
  unfold inclusion
  dsimp only
  rw [if_neg (not_outside_of_relative hrelative), if_neg (Bool.eq_false_iff.mp h)]
  split
  case h_1 only honly => simp [honly]
  case h_2 hother => exact iff_of_false (fun h => nomatch h) (hother path)

end Inclusion

/-- An inclusion that refers to a plain path of the index leads there. -/
theorem inclusion_of_refers (h : Path.Refers importer path specifier) (himporter : Path.Plain importer)
    (hpath : Path.Plain path) (hin : index.contains path = true) : inclusion index importer specifier = .internal path := by
  have hjoined := h.joinRelative_eq himporter hpath
  rw [inclusion_of_contains (startsWith_of_refers h) (hjoined.symm ▸ hin), hjoined]

/-- No extension holds a slash or is empty. -/
theorem slash_notMem_extension (h : extension ∈ ecmaExtensions) : '/' ∉ extension.toList ∧ extension ≠ "" := by
  revert extension
  decide

/-- In a project of plain paths every file finds every other one by each relative specifier that refers to it, the
canonical one among them.  In ECMAScript it does so also without the extension, when this leaves a plain path that is not
in the project and no earlier extension makes a file of it. -/
theorem relative_specifiers_lead_to_files {paths : List String} (hplain : ∀ p ∈ paths, Path.Plain p)
    {importer target : String} (himporter : importer ∈ paths) (htarget : target ∈ paths) (hne : target ≠ importer) :
    Path.Refers importer target (Path.canonicalSpecifier importer target) ∧
      (∀ specifier language, Path.Refers importer target specifier → RefersToFiles language →
        (FileIndex.ofPaths paths).resolve importer (some language) specifier = .internal target) ∧
      ∀ base extension, target = base ++ extension → Path.Plain base → base ∉ paths → FirstExtension paths base extension →
        Path.canonicalSpecifier importer target = Path.canonicalSpecifier importer base ++ extension ∧
        ∀ bare (language : Language), Path.Refers importer target (bare ++ extension) → language.isEcmaScript = true →
          (FileIndex.ofPaths paths).resolve importer (some language) bare = .internal target := by
  have hhere := hplain importer himporter
  have hthere := hplain target htarget
  have hnormal := hhere.normalize_eq
  have hother : target ≠ Path.normalize importer := by rwa [hnormal]
  refine ⟨Path.refers_canonicalSpecifier importer target, fun specifier language hrefers hlanguage => ?_, ?_⟩
  · have hin := (FileIndex.contains_ofPaths_iff hplain).mpr htarget
    refine FileIndex.resolve_of_lookup ?_ hother
    rw [hnormal]
    rcases hlanguage with hecma | rfl | rfl
    · rw [FileIndex.lookup_of_isEcmaScript hecma, ecmaScript_of_refers hrefers hhere hthere, probe?_of_contains hin]
      rfl
    · exact inclusion_of_refers hrefers hhere hthere hin
    · exact inclusion_of_refers hrefers hhere hthere hin
  · rintro base extension rfl hbase hmissing hfirst
    obtain ⟨hslash, hempty⟩ := slash_notMem_extension hfirst.mem
    refine ⟨Path.canonicalSpecifier_append hbase hslash, fun bare language hrefers hecma => ?_⟩
    refine FileIndex.resolve_of_lookup ?_ hother
    rw [hnormal, FileIndex.lookup_of_isEcmaScript hecma,
      ecmaScript_of_refers (hrefers.dropExtension hbase hslash hempty) hhere hbase,
      probe?_of_firstExtension hplain hmissing hfirst]
    rfl

/-- From a page two directories down to a module beside them, with and without the extension. -/
theorem relative_specifiers_lead_to_files_utils :
    let paths := ["src/pages/login/Form.jsx", "src/utils/api.ts"]
    (∀ p ∈ paths, Path.Plain p) ∧
      Path.canonicalSpecifier "src/pages/login/Form.jsx" "src/utils/api.ts" = "../../utils/api.ts" ∧
      (FileIndex.ofPaths paths).resolve "src/pages/login/Form.jsx" (some .cpp) "../../utils/api.ts" =
        .internal "src/utils/api.ts" ∧
      Path.Plain "src/utils/api" ∧ "src/utils/api" ∉ paths ∧ FirstExtension paths "src/utils/api" ".ts" ∧
      (FileIndex.ofPaths paths).resolve "src/pages/login/Form.jsx" (some .javascript) "../../utils/api" =
        .internal "src/utils/api.ts" := by
  intro paths
  have hplain : ∀ p ∈ paths, Path.Plain p := by decide
  have hcanonical : Path.canonicalSpecifier "src/pages/login/Form.jsx" "src/utils/api.ts" = "../../utils/api.ts" := by
    decide +kernel
  have hfirst : FirstExtension paths "src/utils/api" ".ts" :=
    ⟨by decide, [".js", ".jsx"], [".tsx", ".mjs", ".cjs", ".mts", ".cts"], rfl, by decide⟩
  obtain ⟨hrefers, hfull, hbare⟩ := @relative_specifiers_lead_to_files paths hplain "src/pages/login/Form.jsx"
    "src/utils/api.ts" (by decide) (by decide) (by decide)
  rw [hcanonical] at hrefers
  obtain ⟨-, hleads⟩ := hbare "src/utils/api" ".ts" rfl (by decide) (by decide) hfirst
  exact ⟨hplain, hcanonical, hfull _ .cpp hrefers (Or.inr (Or.inr rfl)), by decide, by decide, hfirst,
    hleads "../../utils/api" .javascript hrefers rfl⟩

/-- Without its extension the name of the file `..js` is `.`, which means the directory. -/
theorem dotted_name_lost_without_extension :
    let paths := ["..js", "main.js"]
    (∀ p ∈ paths, Path.Plain p) ∧ Path.canonicalSpecifier "main.js" "..js" = "./." ++ ".js" ∧
      Path.extension? "..js" = some "js" ∧ "." ∉ paths ∧ FirstExtension paths "." ".js" ∧
      (FileIndex.ofPaths paths).resolve "main.js" (some .javascript) "./." = .unresolved := by
  intro paths
  have hplain : ∀ p ∈ paths, Path.Plain p := by decide
  have hresolve : (FileIndex.ofPaths paths).resolve "main.js" (some .javascript) "./." = .unresolved := by
    refine FileIndex.resolve_of_not_internal ?_ (by simp)
    rw [FileIndex.ofPaths_of_plain hplain (List.pairwise_pair.mpr (by decide)), (hplain "main.js" (by decide)).normalize_eq,
      FileIndex.lookup_of_isEcmaScript rfl, ecmaScript_of_isRelative (by decide)]
    unfold probe? ecmaCandidates
    rw [Text.dropEnd_eq_self (Path.endsWith_joinRelative _ _)]
    decide +kernel
  exact ⟨hplain, by decide +kernel, by decide +kernel, by decide,
    ⟨by decide, [], [".jsx", ".ts", ".tsx", ".mjs", ".cjs", ".mts", ".cts"], rfl, by simp⟩, hresolve⟩

/-! ## Specifiers that are paths -/

/-- Whether a specifier is a path: its first segment is `.` or `..`. -/
def IsPath (specifier : String) : Prop :=
  (Text.splitChar '/' specifier).head? = some "." ∨ (Text.splitChar '/' specifier).head? = some ".."

instance : DecidablePred IsPath :=
  fun _ => inferInstanceAs (Decidable (_ ∨ _))

/-- The files that a path may mean: itself, itself with an extension, an index file in it. -/
def MayMean (base path : String) : Prop :=
  path = base ∨ (∃ e ∈ ecmaExtensions, path = base ++ e) ∨ ∃ e ∈ ecmaExtensions, path = Path.inside base ("index" ++ e)

instance (base : String) : DecidablePred (MayMean base) :=
  fun _ => inferInstanceAs (Decidable (_ ∨ _ ∨ _))

/-- A path with more than one segment begins with the first one and a slash. -/
theorem startsWith_first {first second : String} {rest : List String}
    (h : Text.splitChar '/' path = first :: second :: rest) : Text.startsWith path (first ++ "/") = true := by
  have hjoined := Text.join_splitChar Path.toList_slash path
  rw [h, Text.join, String.intercalate_cons_cons] at hjoined
  exact Text.startsWith_iff.mpr ⟨_, hjoined.symm⟩

/-- Of the specifiers that are paths, only `..` alone does not count as relative. -/
theorem IsPath.isRelative_iff (h : IsPath specifier) : isRelative specifier = true ↔ specifier ≠ ".." := by
  constructor
  · rintro hrelative rfl
    exact absurd hrelative (by decide)
  · intro hne
    unfold IsPath at h
    unfold isRelative
    cases hsegments : Text.splitChar '/' specifier with
    | nil => exact absurd hsegments (Text.splitChar_ne_nil _ _)
    | cons first rest =>
      rw [hsegments, List.head?_cons, Option.some_inj, Option.some_inj] at h
      cases rest with
      | nil =>
        have halone := Text.join_splitChar Path.toList_slash specifier
        rw [hsegments, Text.join_singleton] at halone
        rcases halone ▸ h with rfl | rfl
        · rfl
        · exact absurd rfl hne
      | cons second rest =>
        have hstart := startsWith_first hsegments
        rcases h with rfl | rfl
        · rw [show Text.startsWith specifier "./" = true from hstart, Bool.true_or, Bool.true_or]
        · rw [show Text.startsWith specifier "../" = true from hstart, Bool.or_true, Bool.true_or]

theorem inside_index (hbase : Text.endsWith base "/" = false) (extension : String) :
    Path.inside base ("index" ++ extension) = Text.dropEnd base "/" ++ "/index" ++ extension := by
  rw [Path.inside, hbase, Text.dropEnd_eq_self hbase, if_neg Bool.false_ne_true, String.append_assoc, String.append_assoc]
  rfl

/-- The files that a path without a slash at its end may mean are probed. -/
theorem mem_ecmaCandidates (hbase : Text.endsWith base "/" = false) : path ∈ ecmaCandidates base ↔ MayMean base path := by
  unfold ecmaCandidates MayMean
  simp only [inside_index hbase, List.mem_append, List.mem_cons, List.mem_map, or_assoc, eq_comm]

theorem MayMean.exists_rest (h : MayMean base path) : ∃ rest, path = base ++ rest := by
  rcases h with rfl | ⟨e, -, rfl⟩ | ⟨e, -, rfl⟩
  · exact ⟨"", String.append_empty.symm⟩
  · exact ⟨e, rfl⟩
  · unfold Path.inside
    split
    · exact ⟨_, rfl⟩
    · exact ⟨_, String.append_assoc⟩

/-- What a path from the root may mean lies below the root. -/
theorem MayMean.startsWith (h : MayMean base path) (hbase : Text.startsWith base "/" = true) :
    Text.startsWith path "/" = true := by
  obtain ⟨rest, rfl⟩ := h.exists_rest
  obtain ⟨below, rfl⟩ := Text.startsWith_iff.mp hbase
  exact Text.startsWith_iff.mpr ⟨_, String.append_assoc⟩

/-- What lies below the root without being looked for there is an index file of the root. -/
theorem MayMean.of_startsWith (h : MayMean base path) (hbase : Text.startsWith base "/" = false)
    (hpath : Text.startsWith path "/" = true) : MayMean ("/" ++ base) path := by
  by_cases hempty : base = ""
  · subst hempty
    have hextensions : ∀ e ∈ ecmaExtensions, Text.startsWith ("" ++ e) "/" = false ∧
        Path.inside "" ("index" ++ e) = Path.inside ("/" ++ "") ("index" ++ e) := by decide
    rcases h with rfl | ⟨e, he, rfl⟩ | ⟨e, he, rfl⟩
    · rw [hbase] at hpath
      cases hpath
    · rw [(hextensions e he).1] at hpath
      cases hpath
    · exact Or.inr (Or.inr ⟨e, he, (hextensions e he).2⟩)
  · obtain ⟨rest, rfl⟩ := h.exists_rest
    rw [Text.startsWith_append Path.toList_slash hempty, hbase] at hpath
    cases hpath

/-- Where an import leads follows the path that its specifier is: to a file that the path may mean, or nowhere, but never
out of the project, and from above the top nowhere. -/
structure FollowsPath (importer specifier : String) (r : Resolution) : Prop where
  inside : ∀ package, r ≠ .external package
  meant : ∀ path, r = .internal path → ∃ base, Path.meant? importer specifier = some base ∧ MayMean base path
  outside : Path.meant? importer specifier = none → r = .unresolved

/-- A relative specifier leads to a file that may be meant where it is joined, or nowhere. -/
theorem resolve_cases {language : Language} (hlanguage : language.isEcmaScript = true) (h : isRelative specifier = true) :
    index.resolve importer (some language) specifier = .unresolved ∨
      ∃ path, index.resolve importer (some language) specifier = .internal path ∧
        MayMean (joinRelative (Path.parent (Path.normalize importer)) specifier) path := by
  unfold FileIndex.resolve
  dsimp only
  rw [FileIndex.lookup_of_isEcmaScript hlanguage, ecmaScript_of_isRelative h]
  cases hprobe : probe? index (joinRelative (Path.parent (Path.normalize importer)) specifier) with
  | none => exact Or.inl rfl
  | some path =>
    have hmeans := (mem_ecmaCandidates (Path.endsWith_joinRelative _ _)).mp (List.mem_of_find?_eq_some hprobe)
    dsimp only [Resolution.ofFile?]
    split
    · exact Or.inl rfl
    · exact Or.inr ⟨path, rfl, hmeans⟩

/-- By `..` alone an import leads out of the project. -/
theorem resolve_dots {language : Language} (hlanguage : language.isEcmaScript = true) :
    index.resolve importer (some language) ".." = .external ".." := by
  refine FileIndex.resolve_of_not_internal ?_ (by simp)
  rw [FileIndex.lookup_of_isEcmaScript hlanguage]
  rfl

/-- A file that a relative specifier leads to is one that the specifier means, when it means a path and the file lies
below the root if the importing file does. -/
theorem mayMean_of_meant? (h : MayMean (joinRelative (Path.parent importer) specifier) path)
    (hmeant : Path.meant? importer specifier = some base)
    (hroot : Text.startsWith importer "/" = true → Text.startsWith path "/" = true) : MayMean base path := by
  rw [Path.eq_of_meant? hmeant]
  split
  · rename_i himporter
    exact h.of_startsWith (Path.startsWith_joinRelative _ _) (hroot himporter)
  · rwa [String.empty_append]

/-- An ECMAScript import by a path follows the path exactly when the path is not `..` alone and a file to which it leads
is neither reached from above the top nor, by a file below the root, beside the root. -/
theorem relative_imports_follow_paths_iff (index : FileIndex) (importer : String) {language : Language}
    (hlanguage : language.isEcmaScript = true) {specifier : String} (hpath : IsPath specifier) :
    FollowsPath (Path.normalize importer) specifier (index.resolve importer (some language) specifier) ↔
      specifier ≠ ".." ∧ ∀ path, index.resolve importer (some language) specifier = .internal path →
        (Path.meant? (Path.normalize importer) specifier).isSome = true ∧
        (Text.startsWith (Path.normalize importer) "/" = true → Text.startsWith path "/" = true) := by
  constructor
  · intro hfollows
    refine ⟨?_, fun path hinternal => ?_⟩
    · rintro rfl
      exact hfollows.inside ".." (resolve_dots hlanguage)
    · obtain ⟨base, hmeant, hmeans⟩ := hfollows.meant path hinternal
      refine ⟨hmeant ▸ rfl, fun hroot => hmeans.startsWith ?_⟩
      rw [Path.eq_of_meant? hmeant, if_pos hroot]
      exact Text.startsWith_iff.mpr ⟨_, rfl⟩
  · rintro ⟨hne, hfiles⟩
    rcases resolve_cases hlanguage (hpath.isRelative_iff.mpr hne) with hnowhere | ⟨path, hto, hmeans⟩
    · rw [hnowhere]
      exact ⟨fun _ h => (nomatch h), fun _ h => (nomatch h), fun _ => rfl⟩
    · obtain ⟨hsome, hroot⟩ := hfiles path hto
      obtain ⟨base, hmeant⟩ := Option.isSome_iff_exists.mp hsome
      rw [hto]
      refine ⟨fun _ h => (nomatch h), fun p hp => ?_, fun hnone => ?_⟩
      · cases hp
        exact ⟨base, hmeant, mayMean_of_meant? hmeans hmeant hroot⟩
      · rw [hmeant] at hnone
        cases hnone

/-- From `src/a.js` the file beside it is found by its path.  The directory above is not, a file is found above the top,
and from `/src/a.js` one is found beside the root. -/
theorem relative_imports_follow_paths_iff_beside :
    let index : FileIndex := ⟨["b.js", "src/a.js", "src/b.js"]⟩
    (IsPath "./b" ∧ IsPath ".." ∧ IsPath "../../b") ∧
      FollowsPath "src/a.js" "./b" (index.resolve "src/a.js" (some .javascript) "./b") ∧
      ¬FollowsPath "src/a.js" ".." (index.resolve "src/a.js" (some .javascript) "..") ∧
      ¬FollowsPath "src/a.js" "../../b" (index.resolve "src/a.js" (some .javascript) "../../b") ∧
      ¬FollowsPath "/src/a.js" "./b" (index.resolve "/src/a.js" (some .javascript) "./b") := by
  intro index
  have hhere : Path.normalize "src/a.js" = "src/a.js" := Path.normalize_eq_self (by decide) (by decide)
  have hbelow : Path.normalize "/src/a.js" = "/src/a.js" := Path.normalize_eq_self (by decide) (by decide)
  have hbeside : index.resolve "src/a.js" (some .javascript) "./b" = .internal "src/b.js" := by
    unfold FileIndex.resolve
    rw [hhere]
    decide +kernel
  have habove : index.resolve "src/a.js" (some .javascript) "../../b" = .internal "b.js" := by
    unfold FileIndex.resolve
    rw [hhere]
    decide +kernel
  have hroot : index.resolve "/src/a.js" (some .javascript) "./b" = .internal "src/b.js" := by
    unfold FileIndex.resolve
    rw [hbelow]
    decide +kernel
  have hpaths : IsPath "./b" ∧ IsPath ".." ∧ IsPath "../../b" := by decide
  have hiff (specifier : String) (h : IsPath specifier) :=
    hhere ▸ @relative_imports_follow_paths_iff index "src/a.js" .javascript rfl specifier h
  have hiffRoot := hbelow ▸ @relative_imports_follow_paths_iff index "/src/a.js" .javascript rfl "./b" hpaths.1
  refine ⟨hpaths, (hiff "./b" hpaths.1).mpr ⟨by decide, fun path hto => ?_⟩, fun h => ?_, fun h => ?_, fun h => ?_⟩
  · rw [hbeside] at hto
    cases hto
    decide +kernel
  · exact ((hiff ".." hpaths.2.1).mp h).1 rfl
  · exact absurd (((hiff "../../b" hpaths.2.2).mp h).2 _ habove).1 (by decide +kernel)
  · exact absurd ((hiffRoot.mp h).2 _ hroot).2 (by decide +kernel)

end Resolve

end CodeAtlas
