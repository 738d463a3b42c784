/-
  Entry points among the tests.

  A path names an entry point by words in it (`Path.NamesEntry`), and counts as that of a test only when `.test.` or
  `.spec.` stands in it (`Path.IsDotted`); a file has further ways to be a test (`Path.MayBeTest`).  So exactly the paths
  that name an entry point, may be those of tests and are not dotted lead to tests from which flows start
  (`tests_are_no_entry_points_iff`).
-/
import CodeAtlas.Analysis
import CodeAtlas.Proofs.Analysis.Order
import CodeAtlas.Proofs.Flow.Trace
import CodeAtlas.Proofs.Profile.TestName

namespace CodeAtlas

namespace Path

/-- A path in lower case with forward slashes. -/
def folded (path : String) : String :=
  Text.lower (forwardSlashes path)

/-- Somewhere in the path stands `.test.` or `.spec.`, in any letter case. -/
def IsDotted (path : String) : Prop :=
  ∃ mark ∈ [".test.", ".spec."], ∃ front back, folded path = front ++ mark ++ back

/-- The file is called `app`, `main` or `index`, or its path speaks of routes or pages, in any letter case. -/
def NamesEntry (path : String) : Prop :=
  (∃ lead ∈ ["app.", "main.", "index."], ∃ rest, fileName (folded path) = lead ++ rest) ∨
    ∃ word ∈ ["route", "page"], ∃ front back, folded path = front ++ word ++ back

/-- A file at the path can be a test: by its name, or when nothing else in its name decides, by a directory of tests, or by
its content where no directory decides. -/
def MayBeTest (path : String) : Prop :=
  isTestName path = true ∨ (isConfigName path = false ∧ isHookName path = false ∧
    ((∃ dir ∈ directories path, ∃ names, (FileType.test, names) ∈ FileType.directories ∧ dir ∈ names) ∨
      ∀ dir ∈ directories path, ∀ entry ∈ FileType.directories, dir ∉ entry.2))

variable {path : String}

/-! ## Paths -/

/-- Without a flag, entry points are the files whose path names one and is not dotted. -/
theorem isEntryPoint_iff : isEntryPoint path false = true ↔ ¬IsDotted path ∧ NamesEntry path := by
  have hdotted : Text.containsAny (folded path) [".test.", ".spec."] = true ↔ IsDotted path := Text.containsAny_iff
  have hlead (lead : String) : Text.startsWith (fileName (folded path)) lead = true ↔ ∃ rest, fileName (folded path) = lead ++ rest :=
    Text.startsWith_iff
  have hword (word : String) : Text.contains (folded path) word = true ↔ ∃ front back, folded path = front ++ word ++ back :=
    Text.contains_iff
  rw [← hdotted, Bool.not_eq_true]
  unfold NamesEntry
  simp only [← hlead, ← hword, List.mem_cons, List.not_mem_nil, or_false, exists_eq_or_imp, exists_eq_left]
  show (false || _) = true ↔ _
  rw [Bool.false_or, Bool.and_eq_true, Bool.not_eq_true', Bool.or_eq_true, Bool.or_eq_true, Bool.or_eq_true, Bool.or_eq_true,
    or_assoc, or_assoc, or_assoc, or_assoc, or_assoc]
  exact Iff.rfl

/-! ## Roles -/

section Tables

variable {α : Type} {table : List (α × List String)} {hit : String → Bool} {key : α}

theorem mem_of_firstKey? (h : firstKey? table hit = some key) : ∃ names, (key, names) ∈ table ∧ ∃ s ∈ names, hit s = true := by
  obtain ⟨entry, hfound, rfl⟩ := Option.map_eq_some_iff.mp h
  have hhit := List.find?_some hfound
  exact ⟨entry.2, List.mem_of_find?_eq_some hfound, List.any_eq_true.mp hhit⟩

theorem firstKey?_eq_none_iff : firstKey? table hit = none ↔ ∀ entry ∈ table, ∀ s ∈ entry.2, hit s = false := by
  unfold firstKey?
  simp only [Option.map_eq_none_iff, List.find?_eq_none, Bool.not_eq_true, List.any_eq_false]

theorem firstKey?_cons_of_hit {names : List String} (h : ∃ s ∈ names, hit s = true) :
    firstKey? ((key, names) :: table) hit = some key := by
  have hany : (key, names).2.any hit = true := List.any_eq_true.mpr h
  unfold firstKey?
  rw [List.find?_cons, hany, Option.map_some]

end Tables

/-- A file may be a test when some content makes it one. -/
theorem mayBeTest_iff : MayBeTest path ↔ ∃ content, FileType.classify path content = .test := by
  constructor
  · rintro (hname | ⟨hconfig, hhook, hdirs⟩)
    · exact ⟨"", classify_of_isTestName hname ""⟩
    · by_cases hname : isTestName path = true
      · exact ⟨"", classify_of_isTestName hname ""⟩
      · -- a call of `describe` shows a test where no directory decides
        refine ⟨"describe(", ?_⟩
        unfold FileType.classify
        rw [if_neg hname, if_neg (Bool.eq_false_iff.mp hconfig), if_neg (Bool.eq_false_iff.mp hhook)]
        dsimp only
        rcases hdirs with ⟨dir, hdir, names, hnames, hmem⟩ | hnone
        · have hfirst : FileType.directories = (.test, names) :: FileType.directories.tail := by
            simp only [FileType.directories, List.mem_cons, Prod.mk.injEq, reduceCtorEq, false_and, true_and, List.not_mem_nil,
              or_false] at hnames
            rw [hnames]
            rfl
          rw [hfirst, firstKey?_cons_of_hit ⟨dir, hmem, List.contains_iff_mem.mpr hdir⟩]
        · rw [firstKey?_eq_none_iff.mpr fun entry hentry d hd => Bool.eq_false_iff.mpr fun hdir =>
            hnone d (List.contains_iff_mem.mp hdir) entry hentry hd]
          decide
  · rintro ⟨content, htest⟩
    unfold FileType.classify at htest
    by_cases hname : isTestName path = true
    · exact Or.inl hname
    rw [if_neg hname] at htest
    split at htest
    · cases htest
    rename_i hconfig
    split at htest
    · cases htest
    rename_i hhook
    refine Or.inr ⟨Bool.eq_false_iff.mpr hconfig, Bool.eq_false_iff.mpr hhook, ?_⟩
    dsimp only at htest
    split at htest
    · rename_i t hkey
      subst htest
      obtain ⟨names, hnames, dir, hmem, hdir⟩ := mem_of_firstKey? hkey
      exact Or.inl ⟨dir, List.contains_iff_mem.mp hdir, names, hnames, hmem⟩
    · rename_i hkey
      refine Or.inr fun dir hdir entry hentry hmem => ?_
      have hmiss := firstKey?_eq_none_iff.mp hkey entry hentry dir hmem
      rw [List.contains_iff_mem.mpr hdir] at hmiss
      cases hmiss

/-- No content makes a test an entry point exactly when the path does not let it be both. -/
theorem never_isEntryPoint_iff :
    (∀ content, FileType.classify path content = .test → isEntryPoint path false = false) ↔
      IsDotted path ∨ ¬NamesEntry path ∨ ¬MayBeTest path := by
  have hentry : isEntryPoint path false = false ↔ IsDotted path ∨ ¬NamesEntry path := by
    rw [Bool.eq_false_iff, Ne, isEntryPoint_iff, not_and_or, not_not]
  rw [mayBeTest_iff, not_exists, ← or_assoc, ← hentry]
  constructor
  · intro h
    by_cases htest : ∃ content, FileType.classify path content = .test
    · obtain ⟨content, hcontent⟩ := htest
      exact Or.inl (h content hcontent)
    · exact Or.inr (not_exists.mp htest)
  · rintro (hfalse | hnone) content hcontent
    · exact hfalse
    · exact absurd hcontent (hnone content)

end Path

/-! ## Flows -/

theorem FileProfile.isEntryPoint_of (e : Extraction) :
    (FileProfile.of e).isEntryPoint = Path.isEntryPoint e.path e.entryPoint := by
  unfold FileProfile.of
  dsimp only

theorem FileProfile.path_of (e : Extraction) : (FileProfile.of e).path = e.path := by
  unfold FileProfile.of
  dsimp only

namespace Analysis

variable {config : AnalysisConfig} {extractions : List Extraction} {path : String}

/-- The profiles of files are entry points as their paths and flags say. -/
theorem exists_profile_iff {P : String → Bool → Prop} :
    (∃ p ∈ profilesOf extractions, P p.path p.isEntryPoint) ↔
      ∃ e ∈ extractions, P e.path (Path.isEntryPoint e.path e.entryPoint) := by
  have hmap : (profilesOf extractions).map (fun p => (p.path, p.isEntryPoint)) =
      extractions.map fun e => (e.path, Path.isEntryPoint e.path e.entryPoint) := by
    unfold profilesOf FileProfile.markTested
    rw [List.map_map, List.map_map]
    refine List.map_congr_left fun e _ => ?_
    simp only [Function.comp, FileProfile.path_of, FileProfile.isEntryPoint_of]
  have hpairs {α : Type} (l : List α) (f : α → String × Bool) :
      (∃ a ∈ l, P (f a).1 (f a).2) ↔ ∃ pair ∈ l.map f, P pair.1 pair.2 := by
    simp only [List.mem_map, exists_exists_and_eq_and]
  have hprofiles := hpairs (profilesOf extractions) fun p => (p.path, p.isEntryPoint)
  rw [hmap] at hprofiles
  exact hprofiles.trans (hpairs extractions fun e => (e.path, Path.isEntryPoint e.path e.entryPoint)).symm

/-- A flow starts at a path exactly when some file there is an entry point and enough files are reached from it. -/
theorem exists_flow_iff : (∃ flow ∈ (ofExtractions config extractions).flows, flow.entryPoint = path) ↔
    (∃ e ∈ extractions, e.path = path ∧ Path.isEntryPoint e.path e.entryPoint = true) ∧
      config.minFlowFiles ≤
        (Flow.reachedFiles (ofExtractions config extractions).dependencies config.maxFlowDepth path).length := by
  have hflows : (ofExtractions config extractions).flows =
      Flow.trace (profilesOf extractions) (ofExtractions config extractions).dependencies config := rfl
  have hentries := congrArg (List.map Prod.fst)
    (Flow.map_files_trace (profilesOf extractions) (ofExtractions config extractions).dependencies config)
  rw [List.map_map, List.map_map, ← hflows] at hentries
  rw [← exists_profile_iff (P := fun p entry => p = path ∧ entry = true)]
  have hmem : (∃ flow ∈ (ofExtractions config extractions).flows, flow.entryPoint = path) ↔
      path ∈ (ofExtractions config extractions).flows.map (Prod.fst ∘ fun flow => (flow.entryPoint, flow.files)) := by
    simp only [List.mem_map, Function.comp]
  rw [hmem, hentries]
  simp only [List.mem_map, List.mem_filter, Bool.and_eq_true, decide_eq_true_eq, Function.comp]
  constructor
  · rintro ⟨p, ⟨hp, hentry, henough⟩, rfl⟩
    exact ⟨⟨p, hp, rfl, hentry⟩, henough⟩
  · rintro ⟨⟨p, hp, rfl, hentry⟩, henough⟩
    exact ⟨p, ⟨hp, hentry, henough⟩, rfl⟩

/-- A flow of an analysis starts at a path where a test without a flag lies. -/
def StartsAtTest (config : AnalysisConfig) (extractions : List Extraction) (path : String) : Prop :=
  ∃ e ∈ extractions, e.path = path ∧ e.entryPoint = false ∧ FileType.classify e.path e.content = .test ∧
    ∃ flow ∈ (ofExtractions config extractions).flows, flow.entryPoint = path

/-- No content makes a test at a path an entry point without a flag, and no flow of an analysis of files with distinct paths
starts at such a test, exactly when the path is dotted, names no entry point or cannot be that of a test. -/
theorem tests_are_no_entry_points_iff (path : String) :
    ((∀ content, FileType.classify path content = .test → Path.isEntryPoint path false = false) ↔
      Path.IsDotted path ∨ ¬Path.NamesEntry path ∨ ¬Path.MayBeTest path) ∧
    ((∀ config extractions, (listed extractions).Nodup → ¬StartsAtTest config extractions path) ↔
      Path.IsDotted path ∨ ¬Path.NamesEntry path ∨ ¬Path.MayBeTest path) := by
  refine ⟨Path.never_isEntryPoint_iff, ?_⟩
  rw [← Path.never_isEntryPoint_iff]
  constructor
  · intro h content htest
    -- a project of this one file, where one file is enough for a flow
    let file : SourceFile :=
      { path, content := some content, entryPoint := false, hint := none, diskPath := none, tree := none }
    let e := Extraction.ofUnknown file content "" none
    by_contra hentry
    have hentry : Path.isEntryPoint path false = true := by simpa using hentry
    refine h { minFlowFiles := 0 } [e] (List.nodup_singleton _) ⟨e, List.mem_singleton_self e, rfl, rfl, htest, ?_⟩
    exact exists_flow_iff.mpr ⟨⟨e, List.mem_singleton_self e, rfl, hentry⟩, Nat.zero_le _⟩
  · rintro h config extractions hdistinct ⟨e, he, rfl, hflag, htest, hflow⟩
    obtain ⟨⟨e', he', hpath, hentry⟩, -⟩ := exists_flow_iff.mp hflow
    obtain rfl := List.inj_on_of_nodup_map hdistinct he' he hpath
    rw [hflag, h _ htest] at hentry
    cases hentry

example : FileType.classify "tests/test_routes.py" "" = .test ∧ Path.isEntryPoint "tests/test_routes.py" false = true := by
  decide

end Analysis

end CodeAtlas
