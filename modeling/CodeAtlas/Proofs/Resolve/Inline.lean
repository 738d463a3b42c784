/-
  Use declarations inside inline modules.

  The walk through a Rust file comes to every use declaration, also inside inline modules (`Rust.imported_of_under`).  The
  lookup knows only the module of the file, so that a path with `self` or `super` leads where it leads at the top of the
  file (`resolve_lead`).  When this is the file in which the path lies is said by `uses_follow_modules_iff`: always outside
  of inline modules, and not for `use super::*` where the module around that of the file is held by another file.
-/
import CodeAtlas.Extract.Support
import CodeAtlas.Proofs.Resolve.Module
import CodeAtlas.Proofs.Syntax.Nested
import CodeAtlas.Proofs.Syntax.Visits

namespace CodeAtlas

open Syntax (Tree Site Visit)

namespace Rust

variable {source : String} {root argument : Tree} {site : Site}

/-- The names of the inline modules around a node, outermost first. -/
def inlineModules (source : String) (site : Site) : List String :=
  (Scope.around site .doubleColon fun a =>
    if a.kind == "mod_item" then (a.child? "name").map (·.text source) else none).names

/-- Only a use declaration ends the walk. -/
theorem descends_of_ne (h : site.tree.kind ≠ "use_declaration") : (rule source site).2 = .descend := by
  unfold rule
  split
  · rename_i huse
    exact absurd huse h
  · rfl
  · split <;> rfl

/-- All that is found at a node outside of use declarations is found in the file. -/
theorem gather_subset_of_under {start : Site} (h : start.Under site) (houtside : site.inside ["use_declaration"] = false) :
    site.gather (rule source) ⊆ start.gather (rule source) := by
  induction h with
  | here => exact fun _ h => h
  | @child site c outer mem ih =>
    obtain ⟨hkind, houtside⟩ := Bool.or_eq_false_iff.mp houtside
    have hne : site.tree.kind ≠ "use_declaration" := by simpa using hkind
    exact fun found h => ih houtside (Site.gather_below_subset (descends_of_ne hne) mem h)

/-- The import of a use declaration is one of the imports of the file. -/
theorem imported_of_under (hunder : (Site.mk root []).Under site) (huse : site.tree.kind = "use_declaration")
    (houtside : site.inside ["use_declaration"] = false) (hargument : site.tree.child? "argument" = some argument)
    (hpath : (useTree (argument.text source)).1 ≠ "") :
    { Import.ofNode source site.tree (useTree (argument.text source)).1 .static with
      names := (useTree (argument.text source)).2 } ∈ ((Support.builtin .rust).symbols source root).imports := by
  have hfound : Finding.imported { Import.ofNode source site.tree (useTree (argument.text source)).1 .static with
      names := (useTree (argument.text source)).2 } ∈ (rule source site).1 := by
    unfold rule useDeclaration
    rw [huse, hargument]
    dsimp only
    rw [if_neg (by simpa using hpath)]
    exact List.mem_append_right _ List.mem_cons_self
  have hgathered := gather_subset_of_under hunder houtside (site.subset_gather hfound)
  exact List.mem_filterMap.mpr ⟨_, hgathered, rfl⟩

end Rust

namespace Resolve

variable {index : FileIndex} {module importer specifier file : String} {levels : Nat} {rest : List String}

/-- The segments in front of a relative path: `self`, or one `super` for each level. -/
def lead : Nat → List String
  | 0 => ["self"]
  | levels + 1 => List.replicate (levels + 1) "super"

/-- The path of an inline module in a file. -/
def modulePath (importer : String) (inner : List String) : String :=
  Text.join "::" (rustModulePath importer :: inner)

/-- A relative path leads to the longest module from so many levels around that of the file. -/
theorem rust_lead (hpath : usePath specifier = lead levels ++ rest) (hrest : 0 < levels → rest.head? ≠ some "super") :
    rust index importer specifier =
      .ofFile? ((around? levels (rustModulePath importer)).bind fun module => longestModule? index (module :: rest)) := by
  unfold usePath at hpath
  unfold rust
  rw [hpath]
  cases levels with
  | zero => rfl
  | succ levels =>
    have hsegments : lead (levels + 1) ++ rest = "super" :: (List.replicate levels "super" ++ rest) := rfl
    have hascend := ascend_replicate (levels + 1) (rustModulePath importer) (hrest (Nat.succ_pos levels))
    rw [List.replicate_succ, List.cons_append] at hascend
    rw [hsegments]
    dsimp only
    rw [hascend]
    cases around? (levels + 1) (rustModulePath importer) <;> rfl

theorem lead_ne_nil (levels : Nat) (rest : List String) : lead levels ++ rest ≠ [] := by
  cases levels <;> exact List.cons_ne_nil _ _

theorem usePath_lead (levels : Nat) (hrest : ∀ s ∈ rest, s ≠ "" ∧ ':' ∉ s.toList) :
    usePath (Text.join "::" (lead levels ++ rest)) = lead levels ++ rest := by
  have hlead : ∀ s ∈ lead levels, s = "self" ∨ s = "super" := by
    cases levels with
    | zero => exact List.forall_mem_singleton.mpr (Or.inl rfl)
    | succ levels => exact fun s hs => Or.inr (List.eq_of_mem_replicate hs)
  refine usePath_join (List.forall_mem_append.mpr ⟨fun s hs => ?_, hrest⟩) (lead_ne_nil levels rest)
  rcases hlead s hs with rfl | rfl
  · decide
  · decide

/-- A relative path leads to the file of the longest module, unless that is the importing file. -/
theorem resolve_lead (hrest : ∀ s ∈ rest, s ≠ "" ∧ ':' ∉ s.toList) (hlead : 0 < levels → rest.head? ≠ some "super") :
    index.resolve importer (some .rust) (Text.join "::" (lead levels ++ rest)) =
      .ofFile? (((around? levels (rustModulePath importer)).bind fun module =>
        longestModule? index (module :: rest)).filter (· != Path.normalize importer)) := by
  refine FileIndex.resolve_of_ofFile? ?_
  rw [← rustModulePath_normalize importer]
  exact rust_lead (usePath_lead levels hrest) hlead

/-! ## Paths inside inline modules -/

/-- What an import of a module path leads to: only to the file that holds the path, and nowhere if that is the importing
file. -/
structure Follows (index : FileIndex) (importer path : String) (r : Resolution) : Prop where
  leads : ∀ file, r = .internal file → HeldBy index path file
  home : HeldBy index path (Path.normalize importer) → r = .unresolved

theorem follows_ofFile?_iff {found : Option String} {path : String} :
    Follows index importer path (.ofFile? (found.filter (· != Path.normalize importer))) ↔
      ∀ file, found = some file → file ≠ Path.normalize importer → HeldBy index path file := by
  have hinternal (file : String) : Resolution.ofFile? (found.filter (· != Path.normalize importer)) = .internal file ↔
      found = some file ∧ file ≠ Path.normalize importer := by
    rw [Resolution.ofFile?_eq_internal, Option.filter_eq_some_iff, bne_iff_ne]
  constructor
  · exact fun h file hfound hother => h.leads file ((hinternal file).mpr ⟨hfound, hother⟩)
  · intro h
    have hleads (file : String) (hfile : Resolution.ofFile? (found.filter (· != Path.normalize importer)) = .internal file) :
        HeldBy index path file :=
      h file ((hinternal file).mp hfile).1 ((hinternal file).mp hfile).2
    refine ⟨hleads, fun hhome => ?_⟩
    cases hfiltered : found.filter (· != Path.normalize importer) with
    | none => rfl
    | some file =>
      have hfile : Resolution.ofFile? (found.filter (· != Path.normalize importer)) = .internal file := by
        rw [hfiltered]
        rfl
      exact absurd ((hleads file hfile).unique hhome) ((hinternal file).mp hfile).2

/-- A relative path leads where another path does exactly when the module found from that of the file itself is held by the
importing file or holds the other path. -/
theorem follows_lead_iff (hrest : ∀ s ∈ rest, s ≠ "" ∧ ':' ∉ s.toList) (hlead : 0 < levels → rest.head? ≠ some "super")
    (path : String) :
    Follows index importer path (index.resolve importer (some .rust) (Text.join "::" (lead levels ++ rest))) ↔
      ∀ module file, around? levels (rustModulePath importer) = some module →
        longestModule? index (module :: rest) = some file → file ≠ Path.normalize importer → HeldBy index path file := by
  rw [resolve_lead hrest hlead, follows_ofFile?_iff]
  simp only [Option.bind_eq_some_iff]
  constructor
  · exact fun h module file hmodule hfile => h file ⟨module, hmodule, hfile⟩
  · exact fun h file ⟨module, hmodule, hfile⟩ => h module file hmodule hfile

/-- The import of a relative use declaration is recorded, and it means the declared path exactly when what is found from the
module of the file itself is the importing file or holds that path.  So it always does outside of inline modules.  Wherever
the declaration stands, `super` alone leads to the file of the module around that of the importing file. -/
theorem uses_follow_modules_iff {index : FileIndex} {importer source : String} {root : Tree} {site : Site}
    (hunder : (Site.mk root []).Under site) (huse : site.tree.kind = "use_declaration")
    (houtside : site.inside ["use_declaration"] = false) {argument : Tree}
    (hargument : site.tree.child? "argument" = some argument) {levels : Nat} {rest : List String}
    (hpath : (Rust.useTree (argument.text source)).1 = Text.join "::" (lead levels ++ rest))
    (hrest : ∀ s ∈ rest, s ≠ "" ∧ ':' ∉ s.toList) (hlead : 0 < levels → rest.head? ≠ some "super") {outer : String}
    (houter : around? levels (modulePath importer (Rust.inlineModules source site)) = some outer) :
    ∃ i ∈ ((Support.builtin .rust).symbols source root).imports, i.line = site.tree.startLine source ∧
      (Follows index importer (Text.join "::" (outer :: rest)) (index.resolve importer (some .rust) i.specifier) ↔
        ∀ module file, around? levels (rustModulePath importer) = some module →
          longestModule? index (module :: rest) = some file → file ≠ Path.normalize importer →
          HeldBy index (Text.join "::" (outer :: rest)) file) ∧
      (Rust.inlineModules source site = [] →
        Follows index importer (Text.join "::" (outer :: rest)) (index.resolve importer (some .rust) i.specifier)) ∧
      (levels = 1 → rest = [] → ∀ file, index.resolve importer (some .rust) i.specifier = .internal file ↔
        (outer? (rustModulePath importer)).bind index.rustModule? = some file ∧ file ≠ Path.normalize importer) := by
  have hne : (Rust.useTree (argument.text source)).1 ≠ "" := by
    rw [hpath]
    intro hempty
    have hsegments := usePath_lead levels hrest
    rw [hempty] at hsegments
    exact lead_ne_nil levels rest hsegments.symm
  have hfollows := @follows_lead_iff index importer levels rest hrest hlead (Text.join "::" (outer :: rest))
  refine ⟨_, Rust.imported_of_under hunder huse houtside hargument hne, rfl, ?_⟩
  dsimp only [Import.ofNode]
  rw [hpath]
  refine ⟨hfollows, fun hnone => hfollows.mpr fun module file hmodule hfile _ => ?_, ?_⟩
  · -- at the top of the file the path begins where the lookup does
    rw [hnone, modulePath, Text.join, String.intercalate_singleton, hmodule] at houter
    rw [← Option.some.inj houter]
    exact heldBy_of_longestModule? hrest hfile
  · rintro rfl rfl file
    simp only [resolve_lead hrest hlead, Resolution.ofFile?_eq_internal, Option.filter_eq_some_iff, bne_iff_ne, around?_one,
      longestModule?_singleton]

/-- A use declaration of all that is in the module around. -/
def superUse : Tree :=
  .plain "use_declaration" "" 13 26 [.plain "use_wildcard" "argument" 17 25 [.plain "super" "" 17 22 []]]

/-- The tree of a file with this declaration in an inline module. -/
def inlineFile : Tree :=
  .plain "source_file" "" 0 28
    [.plain "mod_item" "" 0 28
      [.plain "identifier" "name" 4 10 [],
       .plain "declaration_list" "body" 11 28 [superUse]]]

/-- The declaration in its place. -/
def superSite : Site :=
  let outer := Site.mk inlineFile []
  let module := outer.below (inlineFile.children.headD default)
  let body := module.below (module.tree.children.getLastD default)
  body.below superUse

/-- In an inline module of a file the module around is that of the file, but the import leads to the file around. -/
theorem uses_follow_modules_iff_super :
    let source := "mod inline \x7b use super::*; \x7d"
    let index := FileIndex.ofPaths netFiles
    (Site.mk inlineFile []).Under superSite ∧ superSite.tree.kind = "use_declaration" ∧
      superSite.inside ["use_declaration"] = false ∧ Rust.inlineModules source superSite = ["inline"] ∧
      HeldBy index "crate::net::client" "src/net/client.rs" ∧
      ∃ i ∈ ((Support.builtin .rust).symbols source inlineFile).imports,
        index.resolve "src/net/client.rs" (some .rust) i.specifier = .internal "src/net/mod.rs" ∧
        ¬Follows index "src/net/client.rs" "crate::net::client"
          (index.resolve "src/net/client.rs" (some .rust) i.specifier) := by
  intro source index
  have hhere : Path.normalize "src/net/client.rs" = "src/net/client.rs" := (plain_netFiles _ (by decide)).normalize_eq
  have hclient : index.rustModule? "crate::net::client" = some "src/net/client.rs" := by
    rw [rustModule?_netFiles]
    rfl
  have hpath : rustModulePath "src/net/client.rs" = "crate::net::client" := rustModulePath_of_rustModule? hclient
  have hheld : HeldBy index "crate::net::client" "src/net/client.rs" :=
    ⟨_, hclient, Or.inl rfl, fun _ hother _ => hother.length_le⟩
  have hunder : (Site.mk inlineFile []).Under superSite :=
    .child (.child (.child .here List.mem_cons_self) (List.mem_cons_of_mem _ List.mem_cons_self)) List.mem_cons_self
  have hinline : Rust.inlineModules source superSite = ["inline"] := by decide +kernel
  have houter : around? 1 (modulePath "src/net/client.rs" (Rust.inlineModules source superSite)) =
      some "crate::net::client" := by
    rw [hinline, modulePath, hpath]
    exact @around?_join ["crate::net::client"] ["inline"] (List.cons_ne_nil _ _) (by decide)
  obtain ⟨i, hi, -, -, -, halone⟩ := @uses_follow_modules_iff index _ source _ _ hunder rfl (by decide) _ rfl 1 []
    (by decide +kernel) (fun _ hs => absurd hs List.not_mem_nil) (fun _ => nofun) _ houter
  have hleads : index.resolve "src/net/client.rs" (some .rust) i.specifier = .internal "src/net/mod.rs" := by
    rw [halone rfl rfl, hpath, hhere, show outer? "crate::net::client" = some "crate::net" by decide +kernel,
      Option.bind_some, rustModule?_netFiles]
    exact ⟨rfl, by decide⟩
  refine ⟨hunder, rfl, by decide, hinline, hheld, i, hi, hleads, fun hfollows => ?_⟩
  exact absurd ((hfollows.leads _ hleads).unique hheld) (by decide)

end Resolve

end CodeAtlas
