/-
  Names of test files.

  A file name shows that the file is a test by one of a few marks (`TestMark`), and what the mark leaves of the name is
  the subject of the test.  Whether a file is a test by its name does not depend on the letter case of the mark
  (`isTestName_iff`); the subject is found where the mark is spelled as it should be (`testSubject?_eq_some`,
  `exists_testSubject?`).  So the names that bear a mark in its own letter case are those of tests with a subject, and
  each such test covers the files with that stem (`test_names_have_subjects`).
-/
import CodeAtlas.Profile.Basic
import CodeAtlas.Proofs.Text.Case

namespace CodeAtlas

/-- A mark of tests: `.test.` or `.spec.` inside the name, `test_` in front of its stem, `_test` at the end of the stem, or
`Test` at the end of a stem that is more than that. -/
inductive TestMark where
  | test
  | spec
  | lead
  | tail
  | camel
  deriving DecidableEq, Repr

/-- A file name with its stem bears a mark that leaves a subject; `camel` is how `Test` is spelled. -/
def TestMark.Leaves (name stem camel : String) : TestMark → String → Prop
  | .test, subject => ∃ rest, name = subject ++ ".test." ++ rest
  | .spec, subject => ∃ rest, name = subject ++ ".spec." ++ rest
  | .lead, subject => stem = "test_" ++ subject
  | .tail, subject => stem = subject ++ "_test"
  | .camel, subject => subject ≠ "" ∧ stem = subject ++ camel

theorem FileProfile.fileType_of (e : Extraction) : (FileProfile.of e).fileType = .classify e.path e.content := by
  unfold FileProfile.of
  dsimp only

namespace Path

/-- The name of a file bears a mark, in its own letter case, that leaves a subject. -/
def Spells (path : String) (mark : TestMark) (subject : String) : Prop :=
  mark.Leaves (fileName path) (fileStem path) "Test" subject

/-- The name of a file bears a mark in some letter case. -/
def SpellsInAnyCase (path : String) (mark : TestMark) (subject : String) : Prop :=
  mark.Leaves (Text.lower (fileName path)) (Text.lower (fileStem path)) "test" subject

/-- The extension of Java files, in any letter case. -/
def IsJava (path : String) : Prop :=
  Text.endsWith (Text.lower (fileName path)) ".java" = true

/-- A Java file called `Test` and nothing else, in any letter case. -/
def IsBareTest (path : String) : Prop :=
  Text.lower (fileStem path) = "test" ∧ IsJava path

variable {path subject : String} {mark : TestMark}

/-! ## Tests by name -/

theorem startsWith_fileName {lead : String} (h : '.' ∉ lead.toList) (path : String) :
    Text.startsWith (fileName path) lead = Text.startsWith (fileStem path) lead := by
  obtain ⟨rest, hname, rfl | hrest⟩ := exists_rest_fileStem path
  · rw [hname, String.append_empty]
  · rw [hname, Text.startsWith_append_cons h hrest]

theorem lower_append_eq {text front back lead rest : String} (h : text = front ++ back) (hlead : Text.lower front = lead)
    (hrest : Text.lower back = rest) : Text.lower text = lead ++ rest := by
  rw [h, Text.lower_append, hlead, hrest]

/-- A mark in its own letter case is one in some letter case. -/
theorem Spells.inAnyCase (h : Spells path mark subject) : SpellsInAnyCase path mark (Text.lower subject) := by
  cases mark with
  | test =>
    obtain ⟨rest, hrest⟩ := h
    exact ⟨Text.lower rest, lower_append_eq hrest (lower_append_eq rfl rfl (by decide)) rfl⟩
  | spec =>
    obtain ⟨rest, hrest⟩ := h
    exact ⟨Text.lower rest, lower_append_eq hrest (lower_append_eq rfl rfl (by decide)) rfl⟩
  | lead => exact lower_append_eq h (by decide) rfl
  | tail => exact lower_append_eq h rfl (by decide)
  | camel => exact ⟨mt Text.lower_eq_empty_iff.mp h.1, lower_append_eq h.2 rfl (by decide)⟩

/-- A file is a test by its name when this bears a mark in some letter case, `Test` in Java only, or is a Java file called
`Test`. -/
theorem isTestName_iff (path : String) : isTestName path = true ↔
    (∃ mark subject, SpellsInAnyCase path mark subject ∧ (mark = .camel → IsJava path)) ∨ IsBareTest path := by
  have hstem : fileStem (Text.lower (fileName path)) = Text.lower (fileStem path) := by
    rw [fileStem_lower, fileStem_fileName]
  have hstarts : Text.startsWith (Text.lower (fileName path)) "test_" = Text.startsWith (Text.lower (fileStem path)) "test_" := by
    rw [← fileName_lower, startsWith_fileName (by decide), fileStem_lower]
  unfold isTestName
  simp only [Bool.or_eq_true, Bool.and_eq_true, hstem, hstarts, Text.contains_iff, Text.startsWith_iff, Text.endsWith_iff]
  constructor
  · rintro ((((⟨front, rest, h⟩ | ⟨front, rest, h⟩) | ⟨rest, h⟩) | ⟨front, h⟩) | ⟨⟨front, h⟩, hjava⟩)
    · exact Or.inl ⟨.test, front, ⟨rest, h⟩, nofun⟩
    · exact Or.inl ⟨.spec, front, ⟨rest, h⟩, nofun⟩
    · exact Or.inl ⟨.lead, rest, h, nofun⟩
    · exact Or.inl ⟨.tail, front, h, nofun⟩
    · have hjava : IsJava path := Text.endsWith_iff.mpr hjava
      by_cases hfront : front = ""
      · exact Or.inr ⟨by rw [h, hfront, String.empty_append], hjava⟩
      · exact Or.inl ⟨.camel, front, ⟨hfront, h⟩, fun _ => hjava⟩
  · rintro (⟨mark, subject, hleaves, hjava⟩ | ⟨hbare, hjava⟩)
    · cases mark with
      | test => exact Or.inl (Or.inl (Or.inl (Or.inl ⟨subject, hleaves⟩)))
      | spec => exact Or.inl (Or.inl (Or.inl (Or.inr ⟨subject, hleaves⟩)))
      | lead => exact Or.inl (Or.inl (Or.inr ⟨subject, hleaves⟩))
      | tail => exact Or.inl (Or.inr ⟨subject, hleaves⟩)
      | camel => exact Or.inr ⟨⟨subject, hleaves.2⟩, Text.endsWith_iff.mp (hjava rfl)⟩
    · exact Or.inr ⟨⟨"", by rw [hbare, String.empty_append]⟩, Text.endsWith_iff.mp hjava⟩

/-! ## Subjects -/

/-- A subject that is found is what some mark leaves, in lower case. -/
theorem testSubject?_eq_some {found : String} (h : testSubject? path = some found) :
    ∃ mark subject, Spells path mark subject ∧ found = Text.lower subject := by
  unfold testSubject? at h
  obtain ⟨subject, hsubject, rfl⟩ := Option.map_eq_some_iff.mp h
  suffices hmark : ∃ mark, Spells path mark subject by
    obtain ⟨mark, hmark⟩ := hmark
    exact ⟨mark, subject, hmark, rfl⟩
  rcases Option.or_eq_some_iff.mp hsubject with hdotted | ⟨-, hrest⟩
  · obtain ⟨⟨front, rest⟩, hcut, rfl⟩ := Option.map_eq_some_iff.mp hdotted
    rcases Option.or_eq_some_iff.mp hcut with htest | ⟨-, hspec⟩
    · exact ⟨.test, rest, Text.eq_of_cutFirst? htest⟩
    · exact ⟨.spec, rest, Text.eq_of_cutFirst? hspec⟩
  · rcases Option.or_eq_some_iff.mp hrest with hlead | ⟨-, hrest⟩
    · exact ⟨.lead, Text.stripStart?_eq_some_iff.mp hlead⟩
    · rcases Option.or_eq_some_iff.mp hrest with htail | ⟨-, hcamel⟩
      · exact ⟨.tail, Text.stripEnd?_eq_some_iff.mp htail⟩
      · obtain ⟨hstrip, hne⟩ := Option.filter_eq_some_iff.mp hcamel
        have hne : subject ≠ "" := by simpa using hne
        exact ⟨.camel, hne, Text.stripEnd?_eq_some_iff.mp hstrip⟩

/-- A name that bears a mark in its own letter case has a subject. -/
theorem exists_testSubject? (h : Spells path mark subject) : ∃ found, testSubject? path = some found := by
  rw [← Option.isSome_iff_exists]
  unfold testSubject?
  simp only [Option.isSome_map, Option.isSome_or, Bool.or_eq_true]
  cases mark with
  | test =>
    obtain ⟨rest, hrest⟩ := h
    exact Or.inl (Or.inl (Text.isSome_cutFirst?_iff.mpr ⟨subject, rest, hrest⟩))
  | spec =>
    obtain ⟨rest, hrest⟩ := h
    exact Or.inl (Or.inr (Text.isSome_cutFirst?_iff.mpr ⟨subject, rest, hrest⟩))
  | lead => exact Or.inr (Or.inl (Option.isSome_of_eq_some (Text.stripStart?_eq_some_iff.mpr h)))
  | tail => exact Or.inr (Or.inr (Or.inl (Option.isSome_of_eq_some (Text.stripEnd?_eq_some_iff.mpr h))))
  | camel =>
    have hne : subject ≠ "" := h.1
    have hstrip : Text.stripEnd? (fileStem path) "Test" = some subject := Text.stripEnd?_eq_some_iff.mpr h.2
    refine Or.inr (Or.inr (Or.inr ?_))
    rw [hstrip, Option.filter_some_pos (by simpa using hne)]
    rfl

/-- The only dot in the name of a Java file called `Test` is that of the extension. -/
theorem IsBareTest.lower_fileName (h : IsBareTest path) : Text.lower (fileName path) = "test.java" := by
  obtain ⟨hstem, hjava⟩ := h
  obtain ⟨front, hname⟩ := Text.endsWith_iff.mp hjava
  have hcut : Text.cutLast? "." (Text.lower (fileName path)) = some (front, "java") := by
    rw [hname, show ".java" = "." ++ "java" from rfl, ← String.append_assoc]
    exact Text.cutLast?_append rfl front (by decide)
  rw [← fileStem_fileName, ← fileStem_lower, fileStem, fileName_lower, fileName_fileName, hcut] at hstem
  dsimp only at hstem
  split at hstem
  case isTrue hempty =>
    rw [hname, String.isEmpty_iff.mp hempty] at hstem
    exact absurd hstem (by decide)
  case isFalse =>
    rw [hname, hstem]
    rfl

theorem IsBareTest.not_spells (h : IsBareTest path) : ¬SpellsInAnyCase path mark subject := by
  intro hspells
  cases mark with
  | test =>
    obtain ⟨rest, hrest⟩ := hspells
    exact absurd (Text.contains_iff.mpr ⟨subject, rest, h.lower_fileName.symm.trans hrest⟩) (by decide)
  | spec =>
    obtain ⟨rest, hrest⟩ := hspells
    exact absurd (Text.contains_iff.mpr ⟨subject, rest, h.lower_fileName.symm.trans hrest⟩) (by decide)
  | lead => exact absurd (Text.startsWith_iff.mpr ⟨subject, h.1.symm.trans hspells⟩) (by decide)
  | tail => exact absurd (Text.endsWith_iff.mpr ⟨subject, h.1.symm.trans hspells⟩) (by decide)
  | camel =>
    have hstrip : Text.stripEnd? "test" "test" = some subject := Text.stripEnd?_eq_some_iff.mpr (h.1.symm.trans hspells.2)
    exact hspells.1 (Option.some.inj (hstrip.symm.trans (by decide)))

/-- A Java file called `Test` has no subject. -/
theorem IsBareTest.testSubject? (h : IsBareTest path) : testSubject? path = none := by
  cases hsubject : Path.testSubject? path with
  | none => rfl
  | some found =>
    obtain ⟨mark, subject, hspells, -⟩ := testSubject?_eq_some hsubject
    exact absurd hspells.inAnyCase h.not_spells

/-- A file that is a test by its name is one whatever its content. -/
theorem classify_of_isTestName (h : isTestName path = true) (content : String) :
    FileType.classify path content = .test := by
  unfold FileType.classify
  exact if_pos h

/-- A test by name with a subject is among those that cover files. -/
theorem mem_testSubjects {found : String} (hname : isTestName path = true) (hsubject : testSubject? path = some found)
    {extractions : List Extraction} {e : Extraction} (he : e ∈ extractions) (hpath : e.path = path) :
    found ∈ FileProfile.testSubjects (extractions.map .of) := by
  subst hpath
  have htest : (FileProfile.of e).fileType = .test := by
    rw [FileProfile.fileType_of, classify_of_isTestName hname]
  have hmem : FileProfile.of e ∈ (extractions.map .of).filter fun p => p.fileType == .test :=
    List.mem_filter.mpr ⟨List.mem_map_of_mem he, beq_iff_eq.mpr htest⟩
  exact List.mem_filterMap.mpr ⟨_, hmem, hsubject⟩

/-- A file is a test by its name when this bears a mark in some letter case, or is a Java file called `Test`.  When the name
bears the mark in the letter case of the mark, the test has a subject, which is what some mark leaves, in lower case, and
the test covers the files with that stem.  A Java file called `Test` has none. -/
theorem test_names_have_subjects (path : String) :
    (isTestName path = true ↔
      (∃ mark subject, SpellsInAnyCase path mark subject ∧ (mark = .camel → IsJava path)) ∨ IsBareTest path) ∧
    (∀ mark subject, Spells path mark subject → (mark = .camel → IsJava path) →
      isTestName path = true ∧
      ∃ mark subject, Spells path mark subject ∧ testSubject? path = some (Text.lower subject) ∧
        ∀ extractions : List Extraction, (∃ e ∈ extractions, e.path = path) →
          Text.lower subject ∈ FileProfile.testSubjects (extractions.map .of)) ∧
    (IsBareTest path → testSubject? path = none) := by
  refine ⟨isTestName_iff path, fun mark subject hspells hjava => ?_, IsBareTest.testSubject?⟩
  have hname : isTestName path = true := (isTestName_iff path).mpr (Or.inl ⟨mark, _, hspells.inAnyCase, hjava⟩)
  obtain ⟨found, hfound⟩ := exists_testSubject? hspells
  obtain ⟨mark, subject, hspells, rfl⟩ := testSubject?_eq_some hfound
  exact ⟨hname, mark, subject, hspells, hfound, fun _ ⟨_, he, hpath⟩ => mem_testSubjects hname hfound he hpath⟩

/-- The test of a Java class has this class as its subject. -/
theorem test_names_have_subjects_java :
    Spells "src/AuthTest.java" .camel "Auth" ∧ IsJava "src/AuthTest.java" ∧ isTestName "src/AuthTest.java" = true ∧
      testSubject? "src/AuthTest.java" = some "auth" := by
  have hspells : Spells "src/AuthTest.java" .camel "Auth" := ⟨by decide, by decide⟩
  have hjava : IsJava "src/AuthTest.java" := by
    unfold IsJava
    decide
  obtain ⟨hname, -⟩ := (test_names_have_subjects "src/AuthTest.java").2.1 .camel "Auth" hspells fun _ => hjava
  exact ⟨hspells, hjava, hname, by decide⟩

/-- With nothing in front of it, `Test` leaves no subject. -/
theorem bare_test_has_no_subject : isTestName "src/Test.java" = true ∧ testSubject? "src/Test.java" = none := by
  decide

end Path

end CodeAtlas
