/-
  Dotted names of modules.

  A Python or Java file can be called by every run of the last segments of its module path, spelled with dots (`IsCalled`).
  The files enter their names in a table one after the other, and a name stays with the file that has it unless a shorter one
  comes (`enter`, `tabulate`).  What is looked up is what stands in this table (`tabulate_apply`): under each name the
  shortest file that can be called by it, the first in order of equally short ones (`dotted_names_lead_to_shortest_file`).
-/
import CodeAtlas.Proofs.Resolve.Relative
import Mathlib.Data.List.Infix
import Mathlib.Logic.Function.Basic

namespace CodeAtlas

namespace FileIndex

variable {paths segments : List String} {family : DottedFamily} {name path file : String}

/-! ## Names of a file -/

/-- The module that a file of a family holds: its path without the extension and, in Python, without the name of the file
that stands for its package. -/
def HoldsModule : DottedFamily → String → String → Prop
  | .python, path, module =>
    path = module ++ "/__init__" ++ ".py" ∨ path = module ++ ".py" ∧ Text.endsWith module "/__init__" = false
  | .java, path, module => path = module ++ ".java"

/-- A file can be called by a name that some last segments of its module path spell. -/
def IsCalled (family : DottedFamily) (name path : String) : Prop :=
  ∃ module front rest, HoldsModule family path module ∧ Path.segments module = front ++ rest ∧ rest ≠ [] ∧
    Text.join "." rest = name

theorem spells_iff : spells name segments = true ↔
    ∃ front rest, segments = front ++ rest ∧ rest ≠ [] ∧ Text.join "." rest = name := by
  induction segments with
  | nil =>
    refine iff_of_false (by simp [spells]) ?_
    rintro ⟨front, rest, hsplit, hne, -⟩
    exact hne (List.append_eq_nil_iff.mp hsplit.symm).2
  | cons s segments ih =>
    rw [spells, Bool.or_eq_true, beq_iff_eq, ih]
    constructor
    · rintro (hname | ⟨front, rest, rfl, hne, hname⟩)
      · exact ⟨[], s :: segments, rfl, List.cons_ne_nil _ _, hname⟩
      · exact ⟨s :: front, rest, rfl, hne, hname⟩
    · rintro ⟨front, rest, hsplit, hne, hname⟩
      cases front with
      | nil => exact Or.inl (hsplit ▸ hname)
      | cons t front =>
        obtain ⟨-, rfl⟩ := List.cons.inj hsplit
        exact Or.inr ⟨front, rest, rfl, hne, hname⟩

theorem dottedSegments?_eq_some_iff : dottedSegments? family path = some segments ↔
    ∃ module, HoldsModule family path module ∧ Path.segments module = segments := by
  cases family with
  | java =>
    rw [dottedSegments?, Option.map_eq_some_iff]
    exact exists_congr fun module => and_congr_left fun _ => Text.stripEnd?_eq_some_iff
  | python =>
    rw [dottedSegments?, Option.map_eq_some_iff]
    constructor
    · rintro ⟨stem, hstem, rfl⟩
      obtain rfl := Text.stripEnd?_eq_some_iff.mp hstem
      cases hpackage : Text.stripEnd? stem "/__init__" with
      | some module =>
        obtain rfl := Text.stripEnd?_eq_some_iff.mp hpackage
        exact ⟨module, Or.inl rfl, rfl⟩
      | none => exact ⟨stem, Or.inr ⟨rfl, Text.stripEnd?_eq_none_iff.mp hpackage⟩, rfl⟩
    · rintro ⟨module, rfl | ⟨rfl, hplain⟩, rfl⟩
      · refine ⟨_, Text.stripEnd?_append _ _, ?_⟩
        rw [Text.stripEnd?_append, Option.getD_some]
      · refine ⟨_, Text.stripEnd?_append _ _, ?_⟩
        rw [Text.stripEnd?_eq_none_iff.mpr hplain, Option.getD_none]

theorem hasDottedName_iff : hasDottedName family name path = true ↔ IsCalled family name path := by
  unfold hasDottedName IsCalled
  rw [Option.any_eq_true]
  constructor
  · rintro ⟨segments, hsegments, hspells⟩
    obtain ⟨module, hmodule, rfl⟩ := dottedSegments?_eq_some_iff.mp hsegments
    obtain ⟨front, rest, hrest⟩ := spells_iff.mp hspells
    exact ⟨module, front, rest, hmodule, hrest⟩
  · rintro ⟨module, front, rest, hmodule, hrest⟩
    exact ⟨_, dottedSegments?_eq_some_iff.mpr ⟨module, hmodule, rfl⟩, spells_iff.mpr ⟨front, rest, hrest⟩⟩

instance : Decidable (IsCalled family name path) :=
  decidable_of_iff _ hasDottedName_iff

/-! ## The shortest file -/

/-- A path is shorter than another one, or as long and not after it. -/
def Precedes (path other : String) : Prop :=
  path.utf8ByteSize < other.utf8ByteSize ∨ path.utf8ByteSize = other.utf8ByteSize ∧ path ≤ other

instance (path other : String) : Decidable (Precedes path other) :=
  inferInstanceAs (Decidable (_ ∨ _))

theorem Precedes.antisymm {other : String} (h : Precedes path other) (h' : Precedes other path) : path = other := by
  rcases h with h | ⟨hsize, hle⟩
  · rcases h' with h' | ⟨hsize', -⟩
    · omega
    · omega
  · rcases h' with h' | ⟨-, hle'⟩
    · omega
    · exact le_antisymm hle hle'

/-- Of a path and increasing ones after it the shortest is kept, the first one of equally short ones. -/
theorem exists_foldl_shorter {best : String} {later : List String} (h : Increasing (best :: later)) :
    ∃ found ∈ best :: later, later.foldl shorter (some best) = some found ∧ ∀ p ∈ best :: later, Precedes found p := by
  induction later generalizing best with
  | nil => exact ⟨best, List.mem_cons_self, rfl, List.forall_mem_singleton.mpr (Or.inr ⟨rfl, le_refl _⟩)⟩
  | cons next later ih =>
    obtain ⟨hbest, hlater⟩ := List.pairwise_cons.mp h
    rw [List.foldl_cons, shorter]
    split
    case isTrue hshorter =>
      obtain ⟨found, hmem, hfound, hprecedes⟩ := ih hlater
      refine ⟨found, List.mem_cons_of_mem _ hmem, hfound, List.forall_mem_cons.mpr ⟨Or.inl ?_, hprecedes⟩⟩
      rcases hprecedes next List.mem_cons_self with hsize | ⟨hsize, -⟩
      · omega
      · omega
    case isFalse hlonger =>
      obtain ⟨found, hmem, hfound, hprecedes⟩ := ih (h.sublist (List.Sublist.cons_cons _ (List.sublist_cons_self _ _)))
      obtain ⟨hfirst, hothers⟩ := List.forall_mem_cons.mp hprecedes
      have hnext : Precedes found next := by
        have hlt : best < next := hbest next List.mem_cons_self
        rcases hfirst with hsize | ⟨hsize, hle⟩
        · exact Or.inl (by omega)
        · rcases Nat.lt_or_eq_of_le (Nat.not_lt.mp hlonger) with hsize' | hsize'
          · exact Or.inl (by omega)
          · exact Or.inr ⟨by omega, le_trans hle (le_of_lt hlt)⟩
      refine ⟨found, ?_, hfound, List.forall_mem_cons.mpr ⟨hfirst, List.forall_mem_cons.mpr ⟨hnext, hothers⟩⟩⟩
      exact (List.mem_cons.mp hmem).elim (fun hsame => hsame ▸ List.mem_cons_self)
        fun hmem => List.mem_cons_of_mem _ (List.mem_cons_of_mem _ hmem)

theorem foldl_shorter_eq_some_iff (h : Increasing paths) :
    paths.foldl shorter none = some file ↔ file ∈ paths ∧ ∀ p ∈ paths, Precedes file p := by
  cases paths with
  | nil => simp
  | cons first later =>
    obtain ⟨found, hmem, hfound, hprecedes⟩ := exists_foldl_shorter h
    rw [List.foldl_cons, shorter, hfound, Option.some.injEq]
    constructor
    · rintro rfl
      exact ⟨hmem, hprecedes⟩
    · rintro ⟨hfile, hleast⟩
      exact (hprecedes file hfile).antisymm (hleast found hmem)

theorem foldl_shorter_eq_none_iff (h : Increasing paths) : paths.foldl shorter none = none ↔ paths = [] := by
  cases paths with
  | nil => simp
  | cons first later =>
    obtain ⟨found, -, hfound, -⟩ := exists_foldl_shorter h
    rw [List.foldl_cons, shorter, hfound]
    simp

/-- The shortest of the listed files that can be called by a name, the first in order of equally short ones. -/
structure IsShortest (files : List String) (family : DottedFamily) (name file : String) : Prop where
  listed : file ∈ files
  called : IsCalled family name file
  least : ∀ p ∈ files, IsCalled family name p → Precedes file p

theorem mem_ofPaths_iff_mem_map : path ∈ (ofPaths paths).paths ↔ path ∈ paths.map Path.normalize :=
  mem_sortedDistinct

theorem dotted?_eq_some_iff : (ofPaths paths).dotted? family name = some file ↔
    IsShortest (paths.map Path.normalize) family name file := by
  unfold dotted?
  rw [foldl_shorter_eq_some_iff (List.Pairwise.filter _ (increasing_ofPaths paths))]
  simp only [List.mem_filter, hasDottedName_iff, mem_ofPaths_iff_mem_map]
  constructor
  · rintro ⟨⟨hlisted, hcalled⟩, hleast⟩
    exact ⟨hlisted, hcalled, fun p hp hcall => hleast p ⟨hp, hcall⟩⟩
  · rintro ⟨hlisted, hcalled, hleast⟩
    exact ⟨⟨hlisted, hcalled⟩, fun p hp => hleast p hp.1 hp.2⟩

theorem dotted?_eq_none_iff : (ofPaths paths).dotted? family name = none ↔
    ∀ p ∈ paths.map Path.normalize, ¬IsCalled family name p := by
  unfold dotted?
  rw [foldl_shorter_eq_none_iff (List.Pairwise.filter _ (increasing_ofPaths paths)), List.filter_eq_nil_iff]
  simp only [hasDottedName_iff, mem_ofPaths_iff_mem_map]

/-! ## The table of names -/

/-- The names of a file, each spelled by some last segments of its module path. -/
def dottedNames (family : DottedFamily) (path : String) : List String :=
  match dottedSegments? family path with
  | some segments => (segments.tails.filter fun rest => !rest.isEmpty).map (Text.join ".")
  | none => []

/-- The table of names after one more file: it takes the names that no file has or a longer one. -/
def enter (family : DottedFamily) (table : String → Option String) (path : String) : String → Option String :=
  (dottedNames family path).foldl (fun table name => Function.update table name (shorter (table name) path)) table

/-- The table of the names of files that come one after the other. -/
def tabulate (family : DottedFamily) (paths : List String) : String → Option String :=
  paths.foldl (enter family) fun _ => none

theorem mem_dottedNames : name ∈ dottedNames family path ↔ hasDottedName family name path = true := by
  unfold dottedNames hasDottedName
  cases dottedSegments? family path with
  | none => simp
  | some segments =>
    rw [Option.any_some, spells_iff]
    simp only [List.mem_map, List.mem_filter, List.mem_tails, Bool.not_eq_true', List.isEmpty_eq_false_iff]
    constructor
    · rintro ⟨rest, ⟨⟨front, hsplit⟩, hne⟩, hname⟩
      exact ⟨front, rest, hsplit.symm, hne, hname⟩
    · rintro ⟨front, rest, hsplit, hne, hname⟩
      exact ⟨rest, ⟨⟨front, hsplit.symm⟩, hne⟩, hname⟩

theorem shorter_shorter (best : Option String) (path : String) :
    shorter (shorter best path) path = shorter best path := by
  rcases shorter_eq best path with h | h
  · rw [h, shorter, if_neg (Nat.lt_irrefl _)]
  · rw [h, h]

/-- Names that one file takes one after the other change the table at these names only, and once. -/
theorem foldl_update_apply (names : List String) (table : String → Option String) (path name : String) :
    names.foldl (fun table n => Function.update table n (shorter (table n) path)) table name =
      if name ∈ names then shorter (table name) path else table name := by
  induction names generalizing table with
  | nil => rfl
  | cons first names ih =>
    rw [List.foldl_cons, ih]
    by_cases hfirst : name = first
    · subst hfirst
      rw [Function.update_self, shorter_shorter, ite_self, if_pos List.mem_cons_self]
    · rw [Function.update_of_ne hfirst]
      simp only [List.mem_cons, hfirst, false_or]

/-- A file changes the table at its names only. -/
theorem enter_apply (table : String → Option String) (path : String) : enter family table path name =
    if hasDottedName family name path then shorter (table name) path else table name := by
  unfold enter
  rw [foldl_update_apply]
  simp only [mem_dottedNames]

theorem foldl_enter_apply (paths : List String) (table : String → Option String) :
    paths.foldl (enter family) table name = (paths.filter (hasDottedName family name)).foldl shorter (table name) := by
  induction paths generalizing table with
  | nil => rfl
  | cons path paths ih =>
    rw [List.foldl_cons, ih, enter_apply, List.filter_cons]
    split
    · rw [List.foldl_cons]
    · rfl

/-- What stands under a name in the table of all files is what is looked up. -/
theorem tabulate_apply (index : FileIndex) : tabulate family index.paths name = index.dotted? family name :=
  foldl_enter_apply _ _

/-! ## Imports by dotted names -/

/-- A name without a dot in front leads to the file that is looked up, or else out of the project. -/
theorem python_of_not_startsWith (index : FileIndex) (importer : String) (h : Text.startsWith name "." = false) :
    Resolve.python index importer name =
      ((index.dotted? .python name).map .internal).getD (.external (Resolve.firstDotted name)) := by
  have hlevel : (name.toList.takeWhile (· == '.')).length = 0 := by
    unfold Text.startsWith at h
    cases hchars : name.toList with
    | nil => rfl
    | cons c chars =>
      have hc : ¬(c == '.') = true := by
        rintro hdot
        rw [hchars, beq_iff_eq.mp hdot] at h
        cases h
      rw [List.takeWhile_cons_of_neg (by exact hc), List.length_nil]
  unfold Resolve.python
  dsimp only
  rw [if_pos hlevel]
  cases index.dotted? .python name <;> rfl

/-- The table of dotted names holds, under every name, the shortest of the files that can be called by it, the first in
order of equally short ones, and nothing where there is none.  An absolute Python import leads to this file, unless that is
the importing one, and to a package outside of the project where there is none. -/
theorem dotted_names_lead_to_shortest_file (paths : List String) (family : DottedFamily) (name : String) :
    (∀ file, tabulate family (ofPaths paths).paths name = some file ↔
      IsShortest (paths.map Path.normalize) family name file) ∧
    (tabulate family (ofPaths paths).paths name = none ↔ ∀ p ∈ paths.map Path.normalize, ¬IsCalled family name p) ∧
    (ofPaths paths).dotted? family name = tabulate family (ofPaths paths).paths name ∧
    (Text.startsWith name "." = false → ∀ importer,
      (∀ file, IsShortest (paths.map Path.normalize) .python name file →
        (ofPaths paths).resolve importer (some .python) name =
          if file = Path.normalize importer then .unresolved else .internal file) ∧
      ((∀ p ∈ paths.map Path.normalize, ¬IsCalled .python name p) →
        (ofPaths paths).resolve importer (some .python) name = .external (Resolve.firstDotted name))) := by
  refine ⟨fun file => ?_, ?_, (tabulate_apply _).symm, fun habsolute importer => ⟨fun file hfile => ?_, fun hnone => ?_⟩⟩
  · rw [tabulate_apply, dotted?_eq_some_iff]
  · rw [tabulate_apply, dotted?_eq_none_iff]
  · have hlookup : (ofPaths paths).lookup (Path.normalize importer) (some .python) name = .internal file := by
      rw [lookup, python_of_not_startsWith _ _ habsolute, dotted?_eq_some_iff.mpr hfile]
      rfl
    unfold resolve
    dsimp only
    rw [hlookup]
    simp only [beq_iff_eq]
  · refine resolve_of_not_internal ?_ (by simp)
    rw [lookup, python_of_not_startsWith _ _ habsolute, dotted?_eq_none_iff.mpr hnone]
    rfl

/-- Of three modules `user` the first of the two shortest is found, though not by itself. -/
theorem dotted_names_lead_to_shortest_file_user :
    let paths := ["app/user.py", "core/user/__init__.py", "web/user.py"]
    Text.startsWith "user" "." = false ∧ IsShortest (paths.map Path.normalize) .python "user" "app/user.py" ∧
      (ofPaths paths).resolve "web/user.py" (some .python) "user" = .internal "app/user.py" ∧
      (ofPaths paths).resolve "app/user.py" (some .python) "user" = .unresolved ∧
      (ofPaths paths).resolve "app/user.py" (some .python) "os.path" = .external "os" := by
  intro paths
  have hplain : ∀ p ∈ paths, Path.Plain p := by decide
  have hnormal : ∀ p ∈ paths, Path.normalize p = p := fun p hp => (hplain p hp).normalize_eq
  have hpaths : paths.map Path.normalize = paths := (List.map_congr_left hnormal).trans (List.map_id' paths)
  have huser : IsShortest (paths.map Path.normalize) .python "user" "app/user.py" := by
    rw [hpaths]
    exact ⟨by decide, by decide +kernel, by decide +kernel⟩
  have hnone : ∀ p ∈ paths.map Path.normalize, ¬IsCalled .python "os.path" p := by
    rw [hpaths]
    decide +kernel
  obtain ⟨-, -, -, hleads⟩ := dotted_names_lead_to_shortest_file paths .python "user"
  obtain ⟨-, -, -, hoff⟩ := dotted_names_lead_to_shortest_file paths .python "os.path"
  have hweb := (hleads (by decide) "web/user.py").1 _ huser
  have happ := (hleads (by decide) "app/user.py").1 _ huser
  rw [hnormal _ (by decide)] at hweb happ
  exact ⟨by decide, huser, hweb.trans (if_neg (by decide)), happ.trans (if_pos rfl),
    ((hoff (by decide) "app/user.py").2 hnone).trans (by decide)⟩

end FileIndex

end CodeAtlas
