/-
  Modules of several crates.

  The module paths of Rust files do not tell their crates apart, so that files of one module path compete and the first of
  them in order is found (`FirstOfModule`, `rustModule?_ofPaths_iff`).  Such a file is found again by its own module path,
  with the names of items behind it or without (`module_paths_lead_back_iff`).  Imports by `crate`, `self` or `super` stay
  in the crate of the importing file when the first files of all modules are in it, and only then
  (`crate_paths_stay_in_crate_iff`).
-/
import CodeAtlas.Proofs.Resolve.Directory
import CodeAtlas.Proofs.Resolve.Module

namespace CodeAtlas

namespace Resolve

variable {paths : List String} {index : FileIndex} {importer specifier file module root : String}
  {front rest names items : List String}

/-! ## First files of modules -/

/-- A Rust file that is the first in order of all with its module path. -/
structure FirstOfModule (paths : List String) (file : String) : Prop where
  listed : file ∈ paths
  rust : Text.endsWith file ".rs" = true
  least : ∀ p ∈ paths, Text.endsWith p ".rs" = true → rustModulePath p = rustModulePath file → file ≤ p

theorem mem_ofPaths_of_normal (hnormal : ∀ p ∈ paths, Path.normalize p = p) :
    file ∈ (FileIndex.ofPaths paths).paths ↔ file ∈ paths :=
  List.contains_iff_mem.symm.trans (FileIndex.contains_ofPaths hnormal)

/-- A module is held by its first file. -/
theorem rustModule?_ofPaths_iff (hnormal : ∀ p ∈ paths, Path.normalize p = p) :
    (FileIndex.ofPaths paths).rustModule? module = some file ↔ FirstOfModule paths file ∧ rustModulePath file = module := by
  unfold FileIndex.rustModule?
  rw [(FileIndex.increasing_ofPaths paths).find?_eq_some_iff]
  simp only [mem_ofPaths_of_normal hnormal, Bool.and_eq_true, beq_iff_eq]
  constructor
  · rintro ⟨hmem, ⟨hrust, rfl⟩, hleast⟩
    exact ⟨⟨hmem, hrust, fun p hp hends hsame => hleast p hp ⟨hends, hsame⟩⟩, rfl⟩
  · rintro ⟨⟨hmem, hrust, hleast⟩, rfl⟩
    exact ⟨hmem, ⟨hrust, rfl⟩, fun p hp ⟨hends, hsame⟩ => hleast p hp hends hsame⟩

theorem rustModule?_ofPaths_eq_none_iff (hnormal : ∀ p ∈ paths, Path.normalize p = p) :
    (FileIndex.ofPaths paths).rustModule? module = none ↔
      ∀ p ∈ paths, Text.endsWith p ".rs" = true → rustModulePath p ≠ module := by
  unfold FileIndex.rustModule?
  rw [List.find?_eq_none]
  simp only [mem_ofPaths_of_normal hnormal, Bool.and_eq_true, beq_iff_eq, not_and, ne_eq]

/-- A file that a path leads to holds its own module path. -/
theorem rustModule?_of_longestModule? (h : longestModule? index front = some file) :
    index.rustModule? (rustModulePath file) = some file := by
  obtain ⟨n, -, hn⟩ := List.exists_of_findSome?_eq_some h
  rwa [rustModulePath_of_rustModule? hn]

theorem longestModule?_of_rustModule? (hne : front ≠ []) (h : index.rustModule? (Text.join "::" front) = some file) :
    longestModule? index front = some file := by
  obtain ⟨init, last, rfl⟩ := (List.eq_nil_or_concat' front).resolve_left hne
  rw [longestModule?_concat, h, Option.some_or]

/-! ## Module paths as specifiers -/

theorem afterSourceRoot_subset (path : String) : (afterSourceRoot path).toList ⊆ path.toList := by
  unfold afterSourceRoot
  split
  · rename_i before after hcut
    split
    · intro c hc
      rw [Text.eq_of_cutLast? hcut, String.toList_append]
      exact List.mem_append_right _ hc
    · exact List.Subset.refl _
  · exact List.Subset.refl _

theorem subset_of_mem_segments {path s : String} (h : s ∈ Path.segments path) : s.toList ⊆ path.toList := by
  intro c hc
  rw [← Text.join_splitChar Path.toList_slash path]
  exact Text.mem_toList_join_of_mem (List.mem_of_mem_filter h) hc

/-- The names in a module path are not empty, and their characters are those of the path. -/
theorem exists_names (path : String) : ∃ names, rustModulePath path = Text.join "::" ("crate" :: names) ∧
    ∀ s ∈ names, s ≠ "" ∧ s.toList ⊆ (Path.normalize path).toList := by
  have hstripped (relative : String) : ((Text.stripEnd? relative ".rs").getD relative).toList ⊆ relative.toList := by
    cases hstrip : Text.stripEnd? relative ".rs" with
    | none => exact List.Subset.refl _
    | some front =>
      intro c hc
      rw [Text.stripEnd?_eq_some_iff.mp hstrip, String.toList_append]
      exact List.mem_append_left _ hc
  have hsegments : ∀ s ∈ Path.segments ((Text.stripEnd? (afterSourceRoot (Path.normalize path)) ".rs").getD
      (afterSourceRoot (Path.normalize path))), s ≠ "" ∧ s.toList ⊆ (Path.normalize path).toList := fun s hs =>
    ⟨(Path.of_mem_segments hs).1, fun c hc => afterSourceRoot_subset _ (hstripped _ (subset_of_mem_segments hs hc))⟩
  refine ⟨_, rfl, fun s hs => hsegments s ?_⟩
  split at hs
  · split at hs
    · exact List.dropLast_subset _ hs
    · exact hs
  · cases hs

/-- The module path of a file with names behind it, as the list of its names. -/
theorem exists_usePath (hcolon : ':' ∉ (Path.normalize file).toList) (hitems : ∀ s ∈ items, s ≠ "" ∧ ':' ∉ s.toList) :
    ∃ names, rustModulePath file = Text.join "::" ("crate" :: names) ∧
      usePath (Text.join "::" (rustModulePath file :: items)) = "crate" :: (names ++ items) := by
  obtain ⟨names, hpath, hnames⟩ := exists_names file
  have hall : ∀ s ∈ "crate" :: (names ++ items), s ≠ "" ∧ ':' ∉ s.toList :=
    List.forall_mem_cons.mpr ⟨by decide, List.forall_mem_append.mpr
      ⟨fun s hs => ⟨(hnames s hs).1, fun hc => hcolon ((hnames s hs).2 hc)⟩, hitems⟩⟩
  refine ⟨names, hpath, ?_⟩
  rw [hpath, Text.join_join (List.cons_ne_nil _ _), List.cons_append]
  exact usePath_join hall (List.cons_ne_nil _ _)

/-- No module is deeper when no longer path is known. -/
theorem deepest?_eq_none (h : ∀ more, more ≠ [] → more <+: rest → index.rustModule? (Text.join "::" (front ++ more)) = none) :
    deepest? index front rest = none := by
  induction rest generalizing front with
  | nil => rfl
  | cons s rest ih =>
    have hdeeper : deepest? index (front ++ [s]) rest = none := by
      refine ih fun more _ hmore => ?_
      rw [List.append_assoc]
      exact h (s :: more) (List.cons_ne_nil _ _) ((List.prefix_cons_inj s).mpr hmore)
    rw [deepest?, hdeeper, Option.none_or]
    exact h [s] (List.cons_ne_nil _ _) ((List.prefix_cons_inj s).mpr List.nil_prefix)

/-- The module path of a file, with names behind it that lead to no deeper module, leads to what holds the module path. -/
theorem rust_modulePath_iff (hcolon : ':' ∉ (Path.normalize file).toList) (hitems : ∀ s ∈ items, s ≠ "" ∧ ':' ∉ s.toList)
    (hdeeper : ∀ more, more ≠ [] → more <+: items →
      index.rustModule? (Text.join "::" (rustModulePath file :: more)) = none) :
    rust index importer (Text.join "::" (rustModulePath file :: items)) = .internal file ↔
      index.rustModule? (rustModulePath file) = some file := by
  obtain ⟨names, hpath, hsegments⟩ := exists_usePath hcolon hitems
  have hnone : deepest? index ("crate" :: names) items = none := by
    refine deepest?_eq_none fun more hne hmore => ?_
    rw [← Text.join_join (List.cons_ne_nil _ _), ← hpath]
    exact hdeeper more hne hmore
  have habsolute : absolute? index (rustModulePath importer) ("crate" :: (names ++ items)) =
      some ("crate" :: names ++ items) := rfl
  rw [rust_eq_internal_iff, hsegments, habsolute]
  simp only [Option.some.injEq, exists_eq_left', longestModule?_append, hnone, Option.none_or]
  exact ⟨rustModule?_of_longestModule?, fun hfound => longestModule?_of_rustModule? (List.cons_ne_nil _ _) (hpath ▸ hfound)⟩

/-- The module path of a file leads back to it exactly when the file is the first one of its module and not the importing
one, also with names behind it as long as these lead to no module of a listed file. -/
theorem module_paths_lead_back_iff {paths : List String} (hnormal : ∀ p ∈ paths, Path.normalize p = p) {file : String}
    (hfile : file ∈ paths) (hcolon : ':' ∉ file.toList) (importer : String) {items : List String}
    (hitems : ∀ s ∈ items, s ≠ "" ∧ ':' ∉ s.toList)
    (hdeeper : ∀ more, more ≠ [] → more <+: items → ∀ p ∈ paths, Text.endsWith p ".rs" = true →
      rustModulePath p ≠ Text.join "::" (rustModulePath file :: more)) :
    (FileIndex.ofPaths paths).resolve importer (some .rust) (Text.join "::" (rustModulePath file :: items)) =
        .internal file ↔
      FirstOfModule paths file ∧ file ≠ Path.normalize importer := by
  have hunknown : ∀ more, more ≠ [] → more <+: items →
      (FileIndex.ofPaths paths).rustModule? (Text.join "::" (rustModulePath file :: more)) = none :=
    fun more hne hmore => (rustModule?_ofPaths_eq_none_iff hnormal).mpr (hdeeper more hne hmore)
  have hfirst : (FileIndex.ofPaths paths).rustModule? (rustModulePath file) = some file ↔ FirstOfModule paths file := by
    rw [rustModule?_ofPaths_iff hnormal]
    exact and_iff_left rfl
  rw [FileIndex.resolve_eq_internal_iff, FileIndex.lookup,
    rust_modulePath_iff ((hnormal file hfile).symm ▸ hcolon) hitems hunknown, hfirst]

/-- An item of a module is found by the module path of its file. -/
theorem module_paths_lead_back_iff_client :
    (∀ p ∈ netFiles, Path.normalize p = p) ∧ ':' ∉ "src/net/client.rs".toList ∧
      rustModulePath "src/net/client.rs" = "crate::net::client" ∧
      (FileIndex.ofPaths netFiles).resolve "src/lib.rs" (some .rust) "crate::net::client::Client" =
        .internal "src/net/client.rs" := by
  have hnormal : ∀ p ∈ netFiles, Path.normalize p = p := fun p hp => (plain_netFiles p hp).normalize_eq
  have hknown : (FileIndex.ofPaths netFiles).rustModule? "crate::net::client" = some "src/net/client.rs" := by
    rw [rustModule?_netFiles]
    rfl
  obtain ⟨hfirst, hmodule⟩ := (rustModule?_ofPaths_iff hnormal).mp hknown
  have hdeeper : ∀ more, more ≠ [] → more <+: ["Client"] → ∀ p ∈ netFiles, Text.endsWith p ".rs" = true →
      rustModulePath p ≠ Text.join "::" ("crate::net::client" :: more) := by
    intro more hne hmore
    rw [← rustModule?_ofPaths_eq_none_iff hnormal, rustModule?_netFiles]
    obtain ⟨_, rfl, hrest⟩ := (List.prefix_cons_iff.mp hmore).resolve_left hne
    rw [List.prefix_nil.mp hrest]
    rfl
  have hother : "src/net/client.rs" ≠ Path.normalize "src/lib.rs" := by
    rw [hnormal _ (by decide)]
    decide
  rw [← hmodule] at hdeeper
  have hleads := (module_paths_lead_back_iff hnormal hfirst.listed (by decide) "src/lib.rs" (by decide) hdeeper).mpr
    ⟨hfirst, hother⟩
  rw [hmodule] at hleads
  exact ⟨hnormal, by decide, hmodule, hleads⟩

/-! ## Crates -/

/-- A specifier that begins with `crate`, `self` or `super`. -/
def IsCratePath (specifier : String) : Prop :=
  ∃ first ∈ ["crate", "self", "super"], (usePath specifier).head? = some first

/-- A path in the source directory of a crate. -/
def InCrate (root path : String) : Prop :=
  Text.startsWith path (joinDir root "src" ++ "/") = true

instance (root path : String) : Decidable (InCrate root path) :=
  inferInstanceAs (Decidable (_ = _))

/-- All imports of a file by `crate`, `self` or `super` lead to files of one crate. -/
def StaysInCrate (index : FileIndex) (importer root : String) : Prop :=
  ∀ specifier, IsCratePath specifier → ∀ file, index.resolve importer (some .rust) specifier = .internal file →
    InCrate root file

/-- An import leads to the first file of a module only. -/
theorem firstOfModule_of_resolve (hnormal : ∀ p ∈ paths, Path.normalize p = p)
    (h : (FileIndex.ofPaths paths).resolve importer (some .rust) specifier = .internal file) : FirstOfModule paths file := by
  obtain ⟨segments, -, hfound⟩ := rust_eq_internal_iff.mp (FileIndex.resolve_eq_internal_iff.mp h).1
  exact ((rustModule?_ofPaths_iff hnormal).mp (rustModule?_of_longestModule? hfound)).1

/-- The first file of a module is found by its module path. -/
theorem rust_of_firstOfModule (hnormal : ∀ p ∈ paths, Path.normalize p = p) (hcolon : ':' ∉ file.toList)
    (h : FirstOfModule paths file) :
    rust (FileIndex.ofPaths paths) importer (rustModulePath file) = .internal file := by
  have hknown := (rustModule?_ofPaths_iff hnormal).mpr ⟨h, rfl⟩
  have hself := @rust_modulePath_iff (FileIndex.ofPaths paths) importer file [] ((hnormal file h.listed).symm ▸ hcolon)
    (fun _ hs => absurd hs List.not_mem_nil) fun more hne hmore => absurd (List.prefix_nil.mp hmore) hne
  rw [Text.join_singleton] at hself
  exact hself.mpr hknown

theorem isCratePath_rustModulePath (hcolon : ':' ∉ (Path.normalize file).toList) : IsCratePath (rustModulePath file) := by
  obtain ⟨names, -, hsegments⟩ := @exists_usePath file [] hcolon fun _ hs => absurd hs List.not_mem_nil
  rw [Text.join_singleton] at hsegments
  exact ⟨"crate", List.mem_cons_self, by rw [hsegments]; rfl⟩

/-- Every file to which a Rust import leads is the first one of its module, in whatever crate.  So the imports of a file by
`crate`, `self` or `super` stay in its crate when the first files of all modules are in it; and only then, as the first file
of any module is found by its module path, unless a colon in a name spoils that path. -/
theorem crate_paths_stay_in_crate_iff {paths : List String} (hpaths : ∀ p ∈ paths, Path.Relative p) {importer root : String}
    (himporter : InCrate root (Path.normalize importer)) :
    (∀ specifier file, (FileIndex.ofPaths paths).resolve importer (some .rust) specifier = .internal file →
      FirstOfModule paths file) ∧
    ((∀ file, FirstOfModule paths file → InCrate root file) → StaysInCrate (FileIndex.ofPaths paths) importer root) ∧
    ((∀ p ∈ paths, ':' ∉ p.toList) → StaysInCrate (FileIndex.ofPaths paths) importer root →
      ∀ file, FirstOfModule paths file → InCrate root file) := by
  have hnormal : ∀ p ∈ paths, Path.normalize p = p := fun p hp => (hpaths p hp).normal
  refine ⟨fun specifier file hleads => firstOfModule_of_resolve hnormal hleads, fun hfirst specifier _ file hleads => ?_, ?_⟩
  · exact hfirst file (firstOfModule_of_resolve hnormal hleads)
  · intro hcolon hstays file hfile
    by_contra houtside
    have hother : file ≠ Path.normalize importer := fun hsame => houtside (hsame ▸ himporter)
    have hcrate : IsCratePath (rustModulePath file) :=
      isCratePath_rustModulePath ((hnormal file hfile.listed).symm ▸ hcolon file hfile.listed)
    have hleads : (FileIndex.ofPaths paths).resolve importer (some .rust) (rustModulePath file) = .internal file := by
      rw [FileIndex.resolve_eq_internal_iff, FileIndex.lookup]
      exact ⟨rust_of_firstOfModule hnormal (hcolon file hfile.listed) hfile, hother⟩
    exact houtside (hstays _ hcrate file hleads)

/-- In a project of one crate a file finds the module around its own. -/
theorem crate_paths_stay_in_crate_iff_net :
    (∀ p ∈ netFiles, Path.Relative p) ∧ InCrate "" (Path.normalize "src/net/client.rs") ∧
      (∀ file, FirstOfModule netFiles file → InCrate "" file) ∧ IsCratePath "crate::net" ∧
      (FileIndex.ofPaths netFiles).resolve "src/net/client.rs" (some .rust) "crate::net" = .internal "src/net/mod.rs" ∧
      StaysInCrate (FileIndex.ofPaths netFiles) "src/net/client.rs" "" := by
  have hpaths : ∀ p ∈ netFiles, Path.Relative p := fun p hp => (plain_netFiles p hp).relative
  have hnormal : ∀ p ∈ netFiles, Path.normalize p = p := fun p hp => (hpaths p hp).normal
  have hhere : Path.normalize "src/net/client.rs" = "src/net/client.rs" := hnormal _ (by decide)
  have himporter : InCrate "" (Path.normalize "src/net/client.rs") := by
    rw [hhere]
    decide
  have hlisted : ∀ p ∈ netFiles, InCrate "" p := by decide
  have hfirst : ∀ file, FirstOfModule netFiles file → InCrate "" file := fun file h => hlisted file h.listed
  have hknown : (FileIndex.ofPaths netFiles).rustModule? "crate::net" = some "src/net/mod.rs" := by
    rw [rustModule?_netFiles]
    rfl
  have hleads : (FileIndex.ofPaths netFiles).resolve "src/net/client.rs" (some .rust) "crate::net" =
      .internal "src/net/mod.rs" := by
    obtain ⟨hnet, hmodule⟩ := (rustModule?_ofPaths_iff hnormal).mp hknown
    rw [FileIndex.resolve_eq_internal_iff, FileIndex.lookup, hhere, ← hmodule]
    exact ⟨rust_of_firstOfModule hnormal (by decide) hnet, by decide⟩
  exact ⟨hpaths, himporter, hfirst, ⟨"crate", by decide, by decide⟩, hleads,
    (crate_paths_stay_in_crate_iff hpaths himporter).2.1 hfirst⟩

/-- The files of two crates, each with a module of the same name. -/
def twoCrates : List String :=
  ["a/src/net.rs", "b/src/lib.rs", "b/src/net.rs"]

/-- A module that is in its own crate is found by a file in another one. -/
theorem crate_path_leads_to_other_crate :
    (∀ p ∈ twoCrates, Path.Relative p) ∧ InCrate "b" (Path.normalize "b/src/lib.rs") ∧ IsCratePath "crate::net" ∧
      (FileIndex.ofPaths twoCrates).resolve "b/src/lib.rs" (some .rust) "crate::net" = .internal "a/src/net.rs" ∧
      ¬InCrate "b" "a/src/net.rs" := by
  have hplain : ∀ p ∈ twoCrates, Path.Plain p := by decide
  have hnormal : ∀ p ∈ twoCrates, Path.normalize p = p := fun p hp => (hplain p hp).normalize_eq
  have hmodule : rustModulePath "a/src/net.rs" = "crate::net" := by
    unfold rustModulePath
    rw [hnormal _ (by decide)]
    decide +kernel
  have hleast : ∀ p ∈ twoCrates, "a/src/net.rs" ≤ p := by decide
  have hfirst : FirstOfModule twoCrates "a/src/net.rs" := ⟨by decide, by decide, fun p hp _ _ => hleast p hp⟩
  have hleads : rust (FileIndex.ofPaths twoCrates) "b/src/lib.rs" "crate::net" = .internal "a/src/net.rs" := by
    rw [← hmodule]
    exact rust_of_firstOfModule hnormal (by decide) hfirst
  have hhere : Path.normalize "b/src/lib.rs" = "b/src/lib.rs" := hnormal _ (by decide)
  have hresolve : (FileIndex.ofPaths twoCrates).resolve "b/src/lib.rs" (some .rust) "crate::net" =
      .internal "a/src/net.rs" := by
    refine FileIndex.resolve_of_lookup ?_ ?_
    · rw [hhere]
      exact hleads
    · rw [hhere]
      decide
  refine ⟨fun p hp => (hplain p hp).relative, ?_, ⟨"crate", by decide, by decide⟩, hresolve, by decide⟩
  rw [hhere]
  decide

end Resolve

end CodeAtlas
