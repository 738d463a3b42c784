/-
  Grouped use declarations.

  The specifier of a group is the path in front of it (`Rust.useTree_group`), so that the group leads where that path alone
  leads.  Its members, written out, lead further where they reach a module below the path, and elsewhere where the path is
  made of `super` segments and they go on with one (`Climbs`).  `grouped_uses_lead_as_their_path` says when the two come to
  the same files.
-/
import CodeAtlas.Extract.Rust
import CodeAtlas.Proofs.Resolve.Module
import CodeAtlas.Proofs.Text.Blank

namespace CodeAtlas

namespace Rust

/-- A character of a path in a use declaration that is neither blank nor part of a group, an alias or a wildcard. -/
def IsPathChar (c : Char) : Prop :=
  Text.isBlank c = false ∧ c ≠ '\x7b' ∧ c ≠ '*'

instance : DecidablePred IsPathChar :=
  fun _ => inferInstanceAs (Decidable (_ ∧ _))

/-- A segment of a path. -/
def IsSegment (s : String) : Prop :=
  s ≠ "" ∧ ∀ c ∈ s.toList, IsPathChar c ∧ c ≠ ':'

instance : DecidablePred IsSegment :=
  fun s => decidable_of_iff (s ≠ "" ∧ s.toList.all fun c => decide (IsPathChar c ∧ c ≠ ':'))
    (by simp only [IsSegment, List.all_eq_true, decide_eq_true_eq])

/-- The text of a path, with colons in front when it begins at the root of all crates. -/
def pathText (rooted : Bool) (segments : List String) : String :=
  Text.join "::" (if rooted then "" :: segments else segments)

/-- The text of a group of paths behind a path. -/
def groupText (front : String) (members : List (List String)) : String :=
  front ++ "::\x7b" ++ Text.join ", " (members.map (Text.join "::")) ++ "\x7d"

variable {path : String} {rooted : Bool} {segments : List String}

/-! ## Texts of paths -/

theorem isPathChar_of_mem_colons {c : Char} (h : c ∈ "::".toList) : IsPathChar c := by
  rcases List.mem_pair.mp (show c ∈ [':', ':'] from h) with rfl | rfl
  · decide
  · decide

theorem isPathChar_of_mem_pathText (h : ∀ s ∈ segments, IsSegment s) {c : Char} (hc : c ∈ (pathText rooted segments).toList) :
    IsPathChar c := by
  rcases Text.mem_toList_join hc with hcolon | ⟨s, hs, hc⟩
  · exact isPathChar_of_mem_colons hcolon
  · have hmem : s = "" ∨ s ∈ segments := by
      cases rooted with
      | true => exact List.mem_cons.mp hs
      | false => exact Or.inr hs
    rcases hmem with rfl | hs
    · cases hc
    · exact ((h s hs).2 c hc).1

theorem pathText_ne_append (h : ∀ s ∈ segments, IsSegment s) (hne : segments ≠ []) (other : String) :
    pathText rooted segments ≠ other ++ ":" := by
  obtain ⟨init, last, rfl⟩ := (List.eq_nil_or_concat' segments).resolve_left hne
  obtain ⟨hlast, hchars⟩ := h last (List.mem_append_right _ List.mem_cons_self)
  have hcolon : ':' ∉ last.toList := fun hc => (hchars _ hc).2 rfl
  cases rooted with
  | true => exact Resolve.join_concat_ne hlast hcolon ("" :: init) other
  | false => exact Resolve.join_concat_ne hlast hcolon init other

/-! ## The specifier -/

/-- The specifier of a path is the path itself. -/
theorem useTree_path (h : ∀ c ∈ path.toList, IsPathChar c) : (useTree path).1 = path := by
  have hblank : ∀ c ∈ path.toList, Text.isBlank c = false := fun c hc => (h c hc).1
  have hgroup : Text.cutFirst? "\x7b" path = none :=
    Text.cutFirst?_of_notMem rfl fun hc => (h _ hc).2.1 rfl
  have hall : Text.stripEnd? path "::*" = none := by
    refine if_neg fun hends => ?_
    obtain ⟨front, rfl⟩ := Text.endsWith_iff.mp hends
    exact (h '*' (by simp)).2.2 rfl
  have halias : Text.cutFirst? " as " path = none :=
    Text.cutFirst?_of_notMem rfl fun hc => Bool.eq_false_iff.mp (hblank _ hc) (by decide)
  unfold useTree
  rw [Text.collapse_eq_self hblank]
  dsimp only
  rw [hgroup, hall, halias]
  exact Text.trim_eq_self hblank

/-- The specifier of a group is the path in front of it. -/
theorem useTree_group (h : ∀ c ∈ path.toList, IsPathChar c) (hends : ∀ other, path ≠ other ++ ":")
    (members : List (List String)) : (useTree (groupText path members)).1 = path := by
  have hfront : ∀ c ∈ (path ++ "::").toList, IsPathChar c := by
    rw [String.toList_append]
    exact List.forall_mem_append.mpr ⟨h, fun c => isPathChar_of_mem_colons⟩
  have hblank : ∀ c ∈ (path ++ "::").toList, Text.isBlank c = false := fun c hc => (hfront c hc).1
  have hopened : ∀ c ∈ (path ++ "::" ++ "\x7b").toList, Text.isBlank c = false := by
    rw [String.toList_append]
    exact List.forall_mem_append.mpr ⟨hblank, List.forall_mem_singleton.mpr (by decide)⟩
  obtain ⟨tail, hcollapse⟩ := Text.exists_collapse_append hopened (by simp)
    (Text.join ", " (members.map (Text.join "::")) ++ "\x7d")
  have htext : groupText path members =
      path ++ "::" ++ "\x7b" ++ (Text.join ", " (members.map (Text.join "::")) ++ "\x7d") := by
    simp only [groupText, String.append_assoc]
    rfl
  have hcut : Text.cutFirst? "\x7b" (path ++ "::" ++ "\x7b" ++ tail) = some (path ++ "::", tail) :=
    Text.cutFirst?_append rfl (fun hc => (hfront _ hc).2.1 rfl) tail
  have hplain : Text.endsWith path "::" = false := by
    refine Bool.eq_false_iff.mpr fun hcolons => ?_
    obtain ⟨front, hpath⟩ := Text.endsWith_iff.mp hcolons
    exact hends (front ++ ":") (by rw [hpath, String.append_assoc]; rfl)
  unfold useTree
  rw [htext, hcollapse]
  dsimp only
  rw [hcut]
  dsimp only
  rw [Text.trim_eq_self hblank, Text.dropEnd_append (by decide), Text.dropEnd_eq_self hplain]

end Rust

namespace Resolve

open Rust

variable {index : FileIndex} {importer file : String} {rooted : Bool} {front rest : List String}

/-- That a use declaration with a text as its argument leads to a file. -/
def LeadsTo (index : FileIndex) (importer argument file : String) : Prop :=
  index.resolve importer (some .rust) (useTree argument).1 = .internal file

theorem usePath_pathText (h : ∀ s ∈ front, IsSegment s) (hne : front ≠ []) : usePath (pathText rooted front) = front := by
  have hsegments : ∀ s ∈ front, s ≠ "" ∧ ':' ∉ s.toList := fun s hs => ⟨(h s hs).1, fun hc => ((h s hs).2 _ hc).2 rfl⟩
  cases rooted with
  | false => exact usePath_join hsegments hne
  | true =>
    unfold usePath pathText
    rw [if_pos rfl, Text.splitText_join toList_colons (List.forall_mem_cons.mpr ⟨by decide, fun s hs => (hsegments s hs).2⟩)
      (List.cons_ne_nil _ _), List.filter_cons_of_neg (by decide)]
    exact List.filter_eq_self.mpr fun s hs => by simpa using (hsegments s hs).1

/-- A path leads to the file of the longest module that it means. -/
theorem leadsTo_pathText_iff (h : ∀ s ∈ front, IsSegment s) (hne : front ≠ []) :
    LeadsTo index importer (pathText rooted front) file ↔
      (∃ segments, absolute? index (rustModulePath importer) front = some segments ∧
        longestModule? index segments = some file) ∧ file ≠ Path.normalize importer := by
  unfold LeadsTo
  rw [useTree_path fun c hc => isPathChar_of_mem_pathText h hc, FileIndex.resolve_eq_internal_iff]
  exact and_congr_left fun _ => by rw [FileIndex.lookup, rust_eq_internal_iff, usePath_pathText h hne, rustModulePath_normalize]

/-- A group leads where the path in front of it leads. -/
theorem leadsTo_groupText_iff (h : ∀ s ∈ front, IsSegment s) (hne : front ≠ []) (members : List (List String)) :
    LeadsTo index importer (groupText (pathText rooted front) members) file ↔
      LeadsTo index importer (pathText rooted front) file := by
  have hchars : ∀ c ∈ (pathText rooted front).toList, IsPathChar c := fun c hc => isPathChar_of_mem_pathText h hc
  unfold LeadsTo
  rw [useTree_group hchars (pathText_ne_append h hne) members, useTree_path hchars]

/-- A member of a group that stays inside the path in front leads, written out, to the deepest module below that path, or
where the path leads. -/
theorem leadsTo_append_iff (hfront : ∀ s ∈ front, IsSegment s) (hne : front ≠ []) (hrest : ∀ s ∈ rest, IsSegment s)
    (hstays : ¬Climbs front rest) :
    LeadsTo index importer (pathText rooted (front ++ rest)) file ↔
      (∃ segments, absolute? index (rustModulePath importer) front = some segments ∧
        (deepest? index segments rest).or (longestModule? index segments) = some file) ∧
        file ≠ Path.normalize importer := by
  rw [leadsTo_pathText_iff (List.forall_mem_append.mpr ⟨hfront, hrest⟩) (List.append_ne_nil_of_left_ne_nil hne rest),
    absolute?_append hne hstays]
  simp only [Option.map_eq_some_iff, exists_exists_and_eq_and, longestModule?_append]

/-! ## Groups and their members -/

/-- The members of a group reach no further than the path in front of it, and if that path leads to another file, some member
leads there too. -/
structure ReachesNoFurther (index : FileIndex) (importer : String) (rooted : Bool) (front : List String)
    (members : List (List String)) : Prop where
  /-- No member that stays inside reaches a module of another file below. -/
  below : ∀ segments, absolute? index (rustModulePath importer) front = some segments → ∀ q ∈ members, ¬Climbs front q →
    ∀ file, deepest? index segments q = some file → file = Path.normalize importer
  /-- A member that climbs out leads nowhere but to the file of the path in front. -/
  outside : ∀ q ∈ members, Climbs front q → ∀ file, LeadsTo index importer (pathText rooted (front ++ q)) file →
    LeadsTo index importer (pathText rooted front) file
  /-- Some member stays inside without reaching a module below, or climbs out and comes back. -/
  kept : ∀ segments, absolute? index (rustModulePath importer) front = some segments → ∀ file,
    longestModule? index segments = some file → file ≠ Path.normalize importer →
    ∃ q ∈ members, (¬Climbs front q ∧ deepest? index segments q = none) ∨
      (Climbs front q ∧ LeadsTo index importer (pathText rooted (front ++ q)) file)

section Members

variable {members : List (List String)} (hfront : ∀ s ∈ front, IsSegment s) (hne : front ≠ [])
  (hmembers : ∀ q ∈ members, ∀ s ∈ q, IsSegment s)

include hfront hne hmembers

/-- Members that lead to the same files as the path in front reach no further: a module below would be held by a file that
the path does not lead to. -/
theorem reachesNoFurther_of_same (hsame : ∀ file, LeadsTo index importer (pathText rooted front) file ↔
    ∃ q ∈ members, LeadsTo index importer (pathText rooted (front ++ q)) file) :
    ReachesNoFurther index importer rooted front members := by
  have hbelow : ∀ segments, absolute? index (rustModulePath importer) front = some segments → ∀ q ∈ members,
      ¬Climbs front q → ∀ file, deepest? index segments q = some file → file = Path.normalize importer := by
    intro segments hsegments q hq hstays file hdeep
    by_contra hother
    have hled : LeadsTo index importer (pathText rooted (front ++ q)) file :=
      (leadsTo_append_iff hfront hne (hmembers q hq) hstays).mpr
        ⟨⟨segments, hsegments, Option.or_eq_some_iff.mpr (Or.inl hdeep)⟩, hother⟩
    obtain ⟨⟨segments', hsegments', hlongest⟩, -⟩ := (leadsTo_pathText_iff hfront hne).mp ((hsame file).mpr ⟨q, hq, hled⟩)
    rw [hsegments, Option.some.injEq] at hsegments'
    exact longestModule?_ne_of_deepest? (absolute?_ne_nil hsegments) hdeep (hsegments' ▸ hlongest)
  refine ⟨hbelow, fun q hq _ file hled => (hsame file).mpr ⟨q, hq, hled⟩, fun segments hsegments file hlongest hother => ?_⟩
  obtain ⟨q, hq, hled⟩ := (hsame file).mp ((leadsTo_pathText_iff hfront hne).mpr ⟨⟨segments, hsegments, hlongest⟩, hother⟩)
  refine ⟨q, hq, ?_⟩
  by_cases hclimbs : Climbs front q
  case pos => exact Or.inr ⟨hclimbs, hled⟩
  case neg =>
    obtain ⟨⟨segments', hsegments', hfound⟩, -⟩ := (leadsTo_append_iff hfront hne (hmembers q hq) hclimbs).mp hled
    rw [hsegments, Option.some.injEq] at hsegments'
    subst hsegments'
    rcases Option.or_eq_some_iff.mp hfound with hdeep | ⟨hnone, -⟩
    · exact absurd (hbelow segments hsegments q hq hclimbs file hdeep) hother
    · exact Or.inl ⟨hclimbs, hnone⟩

theorem ReachesNoFurther.same (h : ReachesNoFurther index importer rooted front members) (file : String) :
    LeadsTo index importer (pathText rooted front) file ↔
      ∃ q ∈ members, LeadsTo index importer (pathText rooted (front ++ q)) file := by
  constructor
  · intro hled
    obtain ⟨⟨segments, hsegments, hlongest⟩, hother⟩ := (leadsTo_pathText_iff hfront hne).mp hled
    obtain ⟨q, hq, ⟨hstays, hnone⟩ | ⟨-, hback⟩⟩ := h.kept segments hsegments file hlongest hother
    · exact ⟨q, hq, (leadsTo_append_iff hfront hne (hmembers q hq) hstays).mpr
        ⟨⟨segments, hsegments, Option.or_eq_some_iff.mpr (Or.inr ⟨hnone, hlongest⟩)⟩, hother⟩⟩
    · exact ⟨q, hq, hback⟩
  · rintro ⟨q, hq, hled⟩
    by_cases hclimbs : Climbs front q
    case pos => exact h.outside q hq hclimbs file hled
    case neg =>
      obtain ⟨⟨segments, hsegments, hfound⟩, hother⟩ := (leadsTo_append_iff hfront hne (hmembers q hq) hclimbs).mp hled
      rcases Option.or_eq_some_iff.mp hfound with hdeep | ⟨-, hlongest⟩
      · exact absurd (h.below segments hsegments q hq hclimbs file hdeep) hother
      · exact (leadsTo_pathText_iff hfront hne).mpr ⟨⟨segments, hsegments, hlongest⟩, hother⟩

end Members

/-- A grouped use declaration leads to the file to which the path in front of the group leads.  These are the files to which
its members, written out, lead, exactly when no member leads any further. -/
theorem grouped_uses_lead_as_their_path {index : FileIndex} {importer : String} {rooted : Bool} {front : List String}
    (hfront : ∀ s ∈ front, IsSegment s) (hne : front ≠ []) {members : List (List String)}
    (hmembers : ∀ q ∈ members, ∀ s ∈ q, IsSegment s) :
    (∀ file, LeadsTo index importer (groupText (pathText rooted front) members) file ↔
      LeadsTo index importer (pathText rooted front) file) ∧
    ((∀ file, LeadsTo index importer (groupText (pathText rooted front) members) file ↔
        ∃ q ∈ members, LeadsTo index importer (pathText rooted (front ++ q)) file) ↔
      ReachesNoFurther index importer rooted front members) := by
  have hgroup (file : String) : LeadsTo index importer (groupText (pathText rooted front) members) file ↔
      LeadsTo index importer (pathText rooted front) file :=
    leadsTo_groupText_iff hfront hne members
  refine ⟨hgroup, ?_⟩
  simp only [hgroup]
  exact ⟨reachesNoFurther_of_same hfront hne hmembers, fun h file => h.same hfront hne hmembers file⟩

/-- The items of the module around a file are found in its file, in a group or one by one, also when one of them is named
from further out. -/
theorem grouped_uses_lead_as_their_path_items :
    let index := FileIndex.ofPaths netFiles
    let members := [["Client"], ["super", "net", "Server"]]
    (∀ s ∈ ["super"], IsSegment s) ∧ (∀ q ∈ members, ∀ s ∈ q, IsSegment s) ∧
      ReachesNoFurther index "src/net/client.rs" false ["super"] members ∧
      groupText (pathText false ["super"]) members = "super::\x7bClient, super::net::Server\x7d" ∧
      ∀ file, LeadsTo index "src/net/client.rs" (groupText (pathText false ["super"]) members) file ↔
        ∃ q ∈ members, LeadsTo index "src/net/client.rs" (pathText false (["super"] ++ q)) file := by
  intro index members
  have hfront : ∀ s ∈ ["super"], IsSegment s := by decide
  have hmembers : ∀ q ∈ members, ∀ s ∈ q, IsSegment s := by decide
  have hfile : index.rustModule? "crate::net::client" = some "src/net/client.rs" :=
    (rustModule?_netFiles _).trans (by decide)
  have hmodule : rustModulePath "src/net/client.rs" = "crate::net::client" := rustModulePath_of_rustModule? hfile
  have hsuper : absolute? index (rustModulePath "src/net/client.rs") ["super"] = some ["crate::net"] := by
    rw [hmodule]
    decide +kernel
  have hserver : absolute? index (rustModulePath "src/net/client.rs") (["super"] ++ ["super", "net", "Server"]) =
      some ["crate", "net", "Server"] := by
    rw [hmodule]
    decide +kernel
  have hnone : deepest? index ["crate::net"] ["Client"] = none := by
    simp only [deepest?, index, rustModule?_netFiles]
    decide
  have hnet : longestModule? index ["crate::net"] = some "src/net/mod.rs" := by
    rw [longestModule?_singleton, rustModule?_netFiles]
    rfl
  have hback : longestModule? index (["crate", "net"] ++ ["Server"]) = some "src/net/mod.rs" := by
    rw [longestModule?_append ["crate", "net"] ["Server"], show ["crate", "net"] = ["crate"] ++ ["net"] from rfl,
      longestModule?_concat]
    simp only [deepest?, index, rustModule?_netFiles]
    decide
  have hfurther : ReachesNoFurther index "src/net/client.rs" false ["super"] members := by
    refine ⟨fun segments hsegments q hq hstays file hfile => ?_, fun q hq hclimbs file hled => ?_,
      fun segments hsegments file _ _ => ?_⟩
    · obtain rfl : ["crate::net"] = segments := Option.some.inj (hsuper.symm.trans hsegments)
      rcases List.mem_pair.mp hq with rfl | rfl
      · rw [hnone] at hfile
        cases hfile
      · exact absurd (by decide) hstays
    · rcases List.mem_pair.mp hq with rfl | rfl
      · exact absurd hclimbs (by decide)
      · obtain ⟨⟨segments, hsegments, hfound⟩, hother⟩ :=
          (leadsTo_pathText_iff (by decide) (List.cons_ne_nil _ _)).mp hled
        obtain rfl : ["crate", "net", "Server"] = segments := Option.some.inj (hserver.symm.trans hsegments)
        refine (leadsTo_pathText_iff hfront (List.cons_ne_nil _ _)).mpr ⟨⟨_, hsuper, ?_⟩, hother⟩
        exact hnet.trans (hback.symm.trans hfound)
    · obtain rfl : ["crate::net"] = segments := Option.some.inj (hsuper.symm.trans hsegments)
      exact ⟨["Client"], List.mem_cons_self, Or.inl ⟨by decide, hnone⟩⟩
  exact ⟨hfront, hmembers, hfurther, by decide,
    (grouped_uses_lead_as_their_path hfront (List.cons_ne_nil _ _) hmembers).2.mpr hfurther⟩

/-- A module in a group is not found: the group leads to the file of the module around it. -/
theorem grouped_module_is_lost :
    ¬∀ file, LeadsTo (FileIndex.ofPaths netFiles) "src/lib.rs"
        (groupText (pathText false ["crate", "net"]) [["client"]]) file ↔
      ∃ q ∈ [["client"]], LeadsTo (FileIndex.ofPaths netFiles) "src/lib.rs" (pathText false (["crate", "net"] ++ q)) file := by
  intro hsame
  have hfront : ∀ s ∈ ["crate", "net"], IsSegment s := by decide
  have hmember : ∀ s ∈ ["crate", "net", "client"], IsSegment s := by decide
  have hhere : Path.normalize "src/lib.rs" = "src/lib.rs" := (plain_netFiles _ (by decide)).normalize_eq
  have hclient : longestModule? (FileIndex.ofPaths netFiles) (["crate", "net"] ++ ["client"]) = some "src/net/client.rs" := by
    rw [longestModule?_concat, rustModule?_netFiles]
    rfl
  have hnet : longestModule? (FileIndex.ofPaths netFiles) (["crate"] ++ ["net"]) = some "src/net/mod.rs" := by
    rw [longestModule?_concat, rustModule?_netFiles]
    rfl
  have hled : LeadsTo (FileIndex.ofPaths netFiles) "src/lib.rs" (pathText false ["crate", "net", "client"])
      "src/net/client.rs" := by
    refine (leadsTo_pathText_iff hmember (List.cons_ne_nil _ _)).mpr ⟨⟨_, rfl, hclient⟩, ?_⟩
    rw [hhere]
    decide
  have hgroup := (hsame "src/net/client.rs").mpr ⟨_, List.mem_cons_self, hled⟩
  rw [leadsTo_groupText_iff hfront (List.cons_ne_nil _ _), leadsTo_pathText_iff hfront (List.cons_ne_nil _ _)] at hgroup
  obtain ⟨⟨segments, hsegments, hfound⟩, -⟩ := hgroup
  rw [← Option.some.inj hsegments] at hfound
  exact absurd (hnet.symm.trans hfound) (by decide)

end Resolve

end CodeAtlas
