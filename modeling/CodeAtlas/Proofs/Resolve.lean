/-
  Where imports lead.

  Whatever the rules by which an import is resolved, a file that it leads to is one of the index
  (`FileIndex.leadsInto_resolve`).  The index holds the normalised paths of the files (`FileIndex.mem_ofPaths`), so that this
  need not be the path under which a file is listed, and it depends on the set of paths alone
  (`FileIndex.imports_lead_to_listed_files`).
-/
import CodeAtlas.Proofs.Increasing
import CodeAtlas.Proofs.Text.Split
import CodeAtlas.Resolve.Basic

namespace CodeAtlas

/-- A path without backward slashes and without `./` in front is normalised already. -/
theorem Path.normalize_eq_self {path : String} (hslash : '\\' ∉ path.toList)
    (hstart : Text.startsWith path "./" = false) : Path.normalize path = path := by
  have hforward : Path.forwardSlashes path = path := by
    unfold Path.forwardSlashes
    rw [List.map_congr_left (g := id) fun c hc => ?_, List.map_id, String.ofList_toList]
    rw [if_neg]
    · rfl
    · intro h
      exact hslash (beq_iff_eq.mp h ▸ hc)
  unfold Path.normalize Text.dropStart
  rw [hforward, Text.dropLeads_eq_self hstart, String.ofList_toList]

/-- A leading `./` does not show in the normalised path. -/
theorem Path.normalize_lead (path : String) : Path.normalize ("./" ++ path) = Path.normalize path := by
  have hforward : (Path.forwardSlashes ("./" ++ path)).toList = "./".toList ++ (Path.forwardSlashes path).toList := by
    simp only [Path.forwardSlashes, String.toList_ofList, String.toList_append, List.map_append]
    rfl
  unfold Path.normalize Text.dropStart
  rw [hforward, Text.dropLeads_append (by decide)]

/-- A file to which an import leads is in the index. -/
def Resolution.LeadsInto (index : FileIndex) (r : Resolution) : Prop :=
  ∀ path, r = .internal path → path ∈ index.paths

namespace FileIndex

theorem mem_ofPaths {paths : List String} {path : String} :
    path ∈ (ofPaths paths).paths ↔ ∃ p ∈ paths, Path.normalize p = path := by
  unfold ofPaths
  rw [mem_sortedDistinct, List.mem_map]

theorem increasing_ofPaths (paths : List String) : Increasing (ofPaths paths).paths :=
  increasing_sortedDistinct _

/-- An index depends on the set of paths alone. -/
theorem ofPaths_congr {paths paths' : List String} (h : ∀ path, path ∈ paths ↔ path ∈ paths') :
    ofPaths paths = ofPaths paths' := by
  refine congrArg FileIndex.mk (sortedDistinct_congr fun path => ?_)
  simp only [List.mem_map, h]

/-- Paths whose normalised forms increase are indexed in their order. -/
theorem ofPaths_of_increasing {paths : List String} (h : Increasing (paths.map Path.normalize)) :
    ofPaths paths = ⟨paths.map Path.normalize⟩ :=
  congrArg FileIndex.mk (eq_of_increasing (increasing_sortedDistinct _) h fun _ => mem_sortedDistinct ..)

theorem mem_of_contains {index : FileIndex} {path : String} (h : index.contains path = true) : path ∈ index.paths :=
  List.contains_iff_mem.mp h

/-! ## Lookups in the index -/

theorem mem_of_rustModule? {index : FileIndex} {module path : String} (h : index.rustModule? module = some path) :
    path ∈ index.paths :=
  List.mem_of_find?_eq_some h

/-- The shorter of two paths is one of them. -/
theorem shorter_eq (best : Option String) (path : String) : shorter best path = some path ∨ shorter best path = best := by
  unfold shorter
  split
  · exact Or.inl rfl
  · split
    · exact Or.inl rfl
    · exact Or.inr rfl

theorem mem_of_foldl_shorter {paths : List String} {best : Option String} {path : String}
    (h : paths.foldl shorter best = some path) : path ∈ paths ∨ best = some path := by
  induction paths generalizing best with
  | nil => exact Or.inr h
  | cons p paths ih =>
    rcases ih h with hmem | hbest
    · exact Or.inl (List.mem_cons_of_mem _ hmem)
    · rcases shorter_eq best p with hp | hold
      · rw [hp] at hbest
        cases hbest
        exact Or.inl List.mem_cons_self
      · exact Or.inr (hold ▸ hbest)

theorem mem_of_dotted? {index : FileIndex} {family : DottedFamily} {name path : String}
    (h : index.dotted? family name = some path) : path ∈ index.paths := by
  rcases mem_of_foldl_shorter h with hmem | hnone
  · exact List.mem_of_mem_filter hmem
  · cases hnone

end FileIndex

namespace Resolve

open Resolution

variable {index : FileIndex}

theorem leadsInto_ofFile? {found : Option String} (h : ∀ path, found = some path → path ∈ index.paths) :
    LeadsInto index (.ofFile? found) := by
  intro path hpath
  cases found with
  | none => cases hpath
  | some p =>
    cases hpath
    exact h path rfl

theorem leadsInto_external (package : String) : LeadsInto index (.external package) :=
  fun _ h => nomatch h

theorem leadsInto_unresolved : LeadsInto index .unresolved :=
  fun _ h => nomatch h

theorem mem_of_find? {candidates : List String} {path : String} (h : candidates.find? index.contains = some path) :
    path ∈ index.paths :=
  FileIndex.mem_of_contains (List.find?_some h)

theorem mem_of_longestModule? {segments : List String} {path : String} (h : longestModule? index segments = some path) :
    path ∈ index.paths := by
  obtain ⟨n, _, hn⟩ := List.exists_of_findSome?_eq_some h
  exact FileIndex.mem_of_rustModule? hn

/-! ## The rules of the languages -/

theorem leadsInto_ecmaScript (importer specifier : String) : LeadsInto index (ecmaScript index importer specifier) := by
  unfold ecmaScript
  split
  · exact leadsInto_ofFile? fun _ h => mem_of_find? h
  · split
    · exact leadsInto_ofFile? fun _ h => mem_of_find? h
    · split
      · refine leadsInto_ofFile? fun path h => ?_
        rcases Option.or_eq_some_iff.mp h with h | ⟨_, h⟩
        · exact mem_of_find? h
        · exact mem_of_find? h
      · exact leadsInto_external _

theorem leadsInto_python (importer specifier : String) : LeadsInto index (python index importer specifier) := by
  unfold python
  dsimp only
  split
  · cases hfound : index.dotted? .python specifier with
    | none => exact leadsInto_external _
    | some path =>
      intro p hp
      cases hp
      exact FileIndex.mem_of_dotted? hfound
  · exact leadsInto_ofFile? fun _ h => mem_of_find? h

theorem leadsInto_rust (importer specifier : String) : LeadsInto index (rust index importer specifier) := by
  have hlongest (segments : List String) : LeadsInto index (.ofFile? (longestModule? index segments)) :=
    leadsInto_ofFile? fun _ h => mem_of_longestModule? h
  unfold rust
  dsimp only
  split
  · exact leadsInto_unresolved
  · split
    · exact hlongest _
    · exact hlongest _
    · split
      · exact hlongest _
      · exact leadsInto_unresolved
    · exact leadsInto_external _
    · exact leadsInto_external _
    · exact leadsInto_external _
    · split
      · exact hlongest _
      · exact leadsInto_external _

theorem leadsInto_java (specifier : String) : LeadsInto index (java index specifier) := by
  unfold java
  dsimp only
  split
  · rename_i path hfound
    intro p hp
    cases hp
    rcases Option.or_eq_some_iff.mp hfound with h | ⟨_, h⟩
    · exact FileIndex.mem_of_dotted? h
    · obtain ⟨owner, _, howner⟩ := Option.bind_eq_some_iff.mp h
      exact FileIndex.mem_of_dotted? howner
  · split
    · exact leadsInto_external _
    · exact leadsInto_external _

theorem leadsInto_inclusion (importer specifier : String) : LeadsInto index (inclusion index importer specifier) := by
  unfold inclusion
  dsimp only
  split
  · exact leadsInto_external _
  · split
    · rename_i hin
      intro p hp
      cases hp
      exact FileIndex.mem_of_contains hin
    · split
      · rename_i path honly
        intro p hp
        cases hp
        have hmem : path ∈ index.named (Path.fileName specifier) := honly ▸ List.mem_singleton_self _
        exact List.mem_of_mem_filter hmem
      · exact leadsInto_unresolved

end Resolve

namespace FileIndex

open Resolution Resolve

theorem leadsInto_lookup (index : FileIndex) (importer : String) (language : Option Language) (specifier : String) :
    LeadsInto index (index.lookup importer language specifier) := by
  cases language with
  | none => exact leadsInto_unresolved
  | some l =>
    cases l with
    | javascript => exact leadsInto_ecmaScript importer specifier
    | typescript => exact leadsInto_ecmaScript importer specifier
    | tsx => exact leadsInto_ecmaScript importer specifier
    | python => exact leadsInto_python importer specifier
    | rust => exact leadsInto_rust importer specifier
    | java => exact leadsInto_java specifier
    | c => exact leadsInto_inclusion importer specifier
    | cpp => exact leadsInto_inclusion importer specifier

/-- An import leads to files of the index only, and never to the importing file. -/
theorem leadsInto_resolve {index : FileIndex} {importer : String} {language : Option Language} {specifier path : String}
    (h : index.resolve importer language specifier = .internal path) :
    path ∈ index.paths ∧ path ≠ Path.normalize importer := by
  unfold resolve at h
  dsimp only at h
  split at h
  · rename_i p hlookup
    split at h
    · cases h
    · rename_i hne
      cases h
      exact ⟨index.leadsInto_lookup _ _ _ path hlookup, by simpa using hne⟩
  · rename_i hother
    exact absurd h (hother path)

/-- An import leads only to what one of the listed paths is normalised to, and not to the importing file; neither the order
of the paths nor their repetition matters. -/
theorem imports_lead_to_listed_files (paths : List String) (importer : String) (language : Option Language)
    (specifier : String) :
    (∀ path, (ofPaths paths).resolve importer language specifier = .internal path →
      (∃ p ∈ paths, Path.normalize p = path) ∧ path ≠ Path.normalize importer) ∧
    ∀ paths', (∀ p, p ∈ paths' ↔ p ∈ paths) →
      (ofPaths paths').resolve importer language specifier = (ofPaths paths).resolve importer language specifier := by
  constructor
  · intro path hpath
    obtain ⟨hmem, hother⟩ := leadsInto_resolve hpath
    exact ⟨mem_ofPaths.mp hmem, hother⟩
  · intro paths' hsame
    rw [ofPaths_congr hsame]

/-- A file that is listed with a leading `./` is found under its normalised path, and listed first and twice it is found
all the same. -/
theorem imports_lead_to_listed_files_dotted :
    let listed := ["src/a.js", "./src/b.js"]
    let again := ["./src/b.js", "src/a.js", "./src/b.js"]
    (ofPaths listed).resolve "src/a.js" (some .javascript) "./b" = .internal "src/b.js" ∧
      ((∃ p ∈ listed, Path.normalize p = "src/b.js") ∧ "src/b.js" ≠ Path.normalize "src/a.js") ∧
      (∀ p, p ∈ again ↔ p ∈ listed) ∧
      (ofPaths again).resolve "src/a.js" (some .javascript) "./b" =
        (ofPaths listed).resolve "src/a.js" (some .javascript) "./b" := by
  intro listed again
  have ha : Path.normalize "src/a.js" = "src/a.js" := Path.normalize_eq_self (by decide) (by decide)
  have hb : Path.normalize "./src/b.js" = "src/b.js" :=
    (Path.normalize_lead "src/b.js").trans (Path.normalize_eq_self (by decide) (by decide))
  have hpaths : listed.map Path.normalize = ["src/a.js", "src/b.js"] := by
    simp [listed, ha, hb]
  have hresolve : (ofPaths listed).resolve "src/a.js" (some .javascript) "./b" = .internal "src/b.js" := by
    rw [ofPaths_of_increasing (hpaths ▸ List.pairwise_pair.mpr (by decide)), hpaths]
    unfold resolve
    rw [ha]
    decide +kernel
  have hsame : ∀ p, p ∈ again ↔ p ∈ listed := by
    intro p
    simp only [again, listed, List.mem_cons, List.not_mem_nil]
    tauto
  obtain ⟨hsound, horder⟩ := imports_lead_to_listed_files listed "src/a.js" (some .javascript) "./b"
  exact ⟨hresolve, hsound "src/b.js" hresolve, hsame, horder again hsame⟩

end FileIndex

end CodeAtlas
