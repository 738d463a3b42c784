/-
  Rust module paths.

  A module path `LiesIn` the modules whose paths it begins with, and it is held by the file of the longest of them that is
  known (`HeldBy`).  Leading `super` segments go one module out each (`ascend_replicate`), and what is looked up afterwards,
  the longest prefix that is a module, is found in the file that holds the path (`heldBy_of_longestModule?`).  A longer path
  leads to the deepest module that its last segments reach, and to where the shorter one leads if they reach none
  (`longestModule?_append`).
-/
import CodeAtlas.Proofs.Resolve.Relative

namespace CodeAtlas.Resolve

variable {index : FileIndex} {module path file : String} {front rest : List String}

theorem rustModulePath_normalize (path : String) : rustModulePath (Path.normalize path) = rustModulePath path := by
  unfold rustModulePath
  rw [Path.normalize_normalize]

theorem toList_colons : "::".toList = [':', ':'] := rfl

/-! ## Modules around a path -/

/-- The module around a module. -/
def outer? (module : String) : Option String :=
  (Text.cutLast? "::" module).map (·.1)

/-- The module so many levels further out. -/
def around? : Nat → String → Option String
  | 0, module => some module
  | levels + 1, module => (outer? module).bind (around? levels)

theorem around?_one (module : String) : around? 1 module = outer? module :=
  Option.bind_fun_some (outer? module)

theorem outer?_append (module : String) {name : String} (h : ':' ∉ name.toList) :
    outer? (module ++ "::" ++ name) = some module := by
  rw [outer?, Text.cutLast?_append_doubled toList_colons module h]
  rfl

/-- As many modules out as there are segments at the end. -/
theorem around?_join (hne : front ≠ []) (h : ∀ s ∈ rest, ':' ∉ s.toList) :
    around? rest.length (Text.join "::" (front ++ rest)) = some (Text.join "::" front) := by
  induction rest using List.reverseRecOn with
  | nil => rw [List.append_nil]; rfl
  | append_singleton rest s ih =>
    obtain ⟨hinit, hlast⟩ := List.forall_mem_append.mp h
    rw [← List.append_assoc, Text.join_concat (List.append_ne_nil_of_left_ne_nil hne rest), List.length_append,
      List.length_singleton, around?, outer?_append _ (hlast s List.mem_cons_self)]
    exact ih hinit

/-- Each leading `super` goes one module out. -/
theorem ascend_replicate (levels : Nat) (module : String) (h : rest.head? ≠ some "super") :
    ascend module (List.replicate levels "super" ++ rest) = (around? levels module).map fun m => (m, rest) := by
  induction levels generalizing module with
  | zero =>
    rw [List.replicate_zero, List.nil_append, ascend]
    · rfl
    · rintro r rfl
      exact h rfl
  | succ levels ih =>
    rw [List.replicate_succ, List.cons_append, ascend, around?, outer?]
    cases Text.cutLast? "::" module with
    | none => rfl
    | some cut => exact ih cut.1

/-- A module path is that of a module or of something inside it. -/
def LiesIn (path module : String) : Prop :=
  path = module ∨ ∃ inner, path = module ++ "::" ++ inner

/-- The file of the longest known module path in which a path lies. -/
def HeldBy (index : FileIndex) (path file : String) : Prop :=
  ∃ module, index.rustModule? module = some file ∧ LiesIn path module ∧
    ∀ other, LiesIn path other → (index.rustModule? other).isSome → other.length ≤ module.length

theorem LiesIn.append (h : LiesIn path module) (s : String) : LiesIn (path ++ "::" ++ s) module := by
  rcases h with rfl | ⟨inner, rfl⟩
  · exact Or.inr ⟨s, rfl⟩
  · exact Or.inr ⟨inner ++ "::" ++ s, by simp only [String.append_assoc]⟩

theorem LiesIn.isPrefix (h : LiesIn path module) : module.toList <+: path.toList := by
  rcases h with rfl | ⟨inner, rfl⟩
  · exact List.prefix_rfl
  · rw [String.append_assoc, String.toList_append]
    exact List.prefix_append _ _

theorem LiesIn.length_le (h : LiesIn path module) : module.length ≤ path.length := by
  rw [← String.length_toList, ← String.length_toList]
  exact h.isPrefix.length_le

theorem liesIn_join (module : String) (rest : List String) : LiesIn (Text.join "::" (module :: rest)) module := by
  cases rest with
  | nil => exact Or.inl String.intercalate_singleton
  | cons s rest => exact Or.inr ⟨_, String.intercalate_cons_cons⟩

/-- A path is held by one file. -/
theorem HeldBy.unique {file' : String} (h : HeldBy index path file) (h' : HeldBy index path file') : file = file' := by
  obtain ⟨module, hmodule, hin, hlongest⟩ := h
  obtain ⟨module', hmodule', hin', hlongest'⟩ := h'
  have hlength : module.toList.length = module'.toList.length := by
    rw [String.length_toList, String.length_toList]
    exact Nat.le_antisymm (hlongest' _ hin (hmodule ▸ rfl)) (hlongest _ hin' (hmodule' ▸ rfl))
  have hsame : module = module' := String.toList_inj.mp
    ((List.prefix_of_prefix_length_le hin.isPrefix hin'.isPrefix (Nat.le_of_eq hlength)).eq_of_length hlength)
  rw [hsame, hmodule'] at hmodule
  exact (Option.some.inj hmodule).symm

/-! ## The longest module -/

theorem longestModule?_nil : longestModule? index [] = none := rfl

theorem longestModule?_concat (segments : List String) (s : String) : longestModule? index (segments ++ [s]) =
    (index.rustModule? (Text.join "::" (segments ++ [s]))).or (longestModule? index segments) := by
  have hshort : ∀ n ∈ (List.range segments.length).reverse.map (· + 1),
      index.rustModule? (Text.join "::" ((segments ++ [s]).take n)) =
        index.rustModule? (Text.join "::" (segments.take n)) := by
    intro n hn
    obtain ⟨m, hm, rfl⟩ := List.mem_map.mp hn
    rw [List.take_append_of_le_length (List.mem_range.mp (List.mem_reverse.mp hm))]
  have hall : (segments ++ [s]).take (segments.length + 1) = segments ++ [s] :=
    List.take_of_length_le (Nat.le_of_eq List.length_append)
  unfold longestModule?
  dsimp only
  rw [List.length_append, List.length_singleton, List.range_succ, List.reverse_append, List.reverse_singleton,
    List.singleton_append, List.map_cons, List.findSome?_cons, hall, ← List.head?_filterMap,
    List.filterMap_congr hshort, List.head?_filterMap]
  cases index.rustModule? (Text.join "::" (segments ++ [s])) <;> rfl

theorem longestModule?_singleton (module : String) : longestModule? index [module] = index.rustModule? module := by
  rw [← List.nil_append [module], longestModule?_concat, longestModule?_nil, Option.or_none, List.nil_append,
    Text.join_singleton]

/-- The deepest module below a path that some first segments of another path lead to. -/
def deepest? (index : FileIndex) : List String → List String → Option String
  | _, [] => none
  | front, s :: rest => (deepest? index (front ++ [s]) rest).or (index.rustModule? (Text.join "::" (front ++ [s])))

/-- A longer path leads to the deepest module below, or to where the path in front leads. -/
theorem longestModule?_append (front rest : List String) :
    longestModule? index (front ++ rest) = (deepest? index front rest).or (longestModule? index front) := by
  induction rest generalizing front with
  | nil => rw [List.append_nil, deepest?, Option.none_or]
  | cons s rest ih => rw [List.append_cons, ih, longestModule?_concat, deepest?, Option.or_assoc]

/-- What lies in a module with one more segment lies there without it, or is that module; unless there is a colon too many
in front of the segment. -/
theorem LiesIn.of_append {other s : String} (hs : ':' ∉ s.toList) (h : LiesIn (path ++ "::" ++ s) other) :
    other = path ++ "::" ++ s ∨ LiesIn path other ∨ path = other ++ ":" := by
  rcases h with h | ⟨inner, h⟩
  · exact Or.inl h.symm
  · refine Or.inr ?_
    have hchars : path.toList ++ ':' :: ':' :: s.toList = other.toList ++ ':' :: ':' :: inner.toList := by
      simpa [toList_colons] using congrArg String.toList h
    obtain ⟨more, hpath, hmore⟩ := Text.exists_of_append_doubled hs hchars
    match more with
    | [] => exact Or.inl (Or.inl (String.toList_inj.mp (hpath.trans (List.append_nil _))))
    | [c] =>
      obtain ⟨rfl, -⟩ := List.cons.inj hmore
      exact Or.inr (String.toList_inj.mp (by rw [hpath, String.toList_append]; rfl))
    | c :: d :: more =>
      simp only [List.cons_append, List.cons.injEq] at hmore
      obtain ⟨rfl, rfl, -⟩ := hmore
      refine Or.inl (Or.inr ⟨.ofList more, String.toList_inj.mp ?_⟩)
      simpa [toList_colons] using hpath

/-- Behind a segment there is no colon too many. -/
theorem join_concat_ne {s : String} (hne : s ≠ "") (hs : ':' ∉ s.toList) (front : List String) (other : String) :
    Text.join "::" (front ++ [s]) ≠ other ++ ":" := by
  intro heq
  have hchars : s.toList ≠ [] := fun hnil => hne (String.toList_eq_nil_iff.mp hnil)
  obtain ⟨lead, hlead⟩ := Text.exists_lead_join "::" front s
  have hlast : (lead ++ s).toList.getLast? = (other ++ ":").toList.getLast? := by rw [← hlead, heq]
  rw [String.toList_append, String.toList_append, List.getLast?_append_of_ne_nil _ hchars,
    List.getLast?_append_of_ne_nil _ (by decide)] at hlast
  exact hs (List.mem_of_getLast? hlast)

/-- A path of segments in a module ends with a colon too many only where the module does. -/
theorem length_le_of_join_eq (hrest : ∀ s ∈ rest, s ≠ "" ∧ ':' ∉ s.toList) {other : String}
    (h : Text.join "::" (module :: rest) = other ++ ":") : other.length ≤ module.length := by
  rcases List.eq_nil_or_concat' rest with rfl | ⟨inner, last, rfl⟩
  · rw [Text.join_singleton] at h
    simp [h]
  · obtain ⟨hne, hlast⟩ := hrest last (List.mem_append_right _ List.mem_cons_self)
    exact absurd h (join_concat_ne hne hlast (module :: inner) other)

/-- The file of the longest known prefix holds the path. -/
theorem heldBy_of_longestModule? (hrest : ∀ s ∈ rest, s ≠ "" ∧ ':' ∉ s.toList)
    (h : longestModule? index (module :: rest) = some file) :
    HeldBy index (Text.join "::" (module :: rest)) file := by
  -- the path may lie in a module that is shorter than the first segment by its last colon, but in none such that is longer
  suffices hlonger : ∃ m, index.rustModule? m = some file ∧ LiesIn (Text.join "::" (module :: rest)) m ∧
      module.length ≤ m.length ∧ ∀ other, LiesIn (Text.join "::" (module :: rest)) other →
        (index.rustModule? other).isSome → other.length ≤ m.length by
    obtain ⟨m, hm, hin, -, hlongest⟩ := hlonger
    exact ⟨m, hm, hin, hlongest⟩
  induction rest using List.reverseRecOn with
  | nil =>
    rw [longestModule?_singleton] at h
    rw [Text.join_singleton]
    exact ⟨module, h, Or.inl rfl, Nat.le_refl _, fun other hother _ => hother.length_le⟩
  | append_singleton rest s ih =>
    obtain ⟨hinit, hlast⟩ := List.forall_mem_append.mp hrest
    obtain ⟨hne, hs⟩ := List.forall_mem_singleton.mp hlast
    have hjoin := @Text.join_concat "::" _ (List.cons_ne_nil module rest) s
    rw [← List.cons_append, longestModule?_concat] at h
    rcases Option.or_eq_some_iff.mp h with hknown | ⟨hunknown, hfound⟩
    · exact ⟨_, hknown, Or.inl rfl, (liesIn_join module _).length_le, fun other hother _ => hother.length_le⟩
    · obtain ⟨m, hm, hin, hlonger, hlongest⟩ := ih hinit hfound
      rw [← List.cons_append, hjoin]
      refine ⟨m, hm, hin.append s, hlonger, fun other hother hsome => ?_⟩
      rcases hother.of_append hs with rfl | hother | hcolon
      · rw [← hjoin, hunknown] at hsome
        cases hsome
      · exact hlongest other hother hsome
      · exact Nat.le_trans (length_le_of_join_eq hinit hcolon) hlonger

/-! ## Modules of different depths -/

theorem rustModulePath_of_rustModule? (h : index.rustModule? module = some file) : rustModulePath file = module := by
  unfold FileIndex.rustModule? at h
  have hfile := List.find?_some h
  exact beq_iff_eq.mp (Bool.and_eq_true_iff.mp hfile).2

theorem length_join_concat (h : front ≠ []) (s : String) :
    (Text.join "::" front).length < (Text.join "::" (front ++ [s])).length := by
  rw [Text.join_concat h, String.length_append, String.length_append, Nat.add_assoc]
  exact Nat.lt_add_of_pos_right (Nat.add_pos_left (by decide) _)

/-- A file is found for the path or for a shorter one. -/
theorem length_le_of_longestModule? (h : longestModule? index front = some file) :
    (rustModulePath file).length ≤ (Text.join "::" front).length := by
  induction front using List.reverseRecOn with
  | nil => cases h
  | append_singleton front s ih =>
    rw [longestModule?_concat] at h
    rcases Option.or_eq_some_iff.mp h with hknown | ⟨-, hfound⟩
    · exact Nat.le_of_eq (congrArg String.length (rustModulePath_of_rustModule? hknown))
    · have hne : front ≠ [] := by
        rintro rfl
        cases hfound
      exact Nat.le_of_lt (Nat.lt_of_le_of_lt (ih hfound) (length_join_concat hne s))

/-- A module below a path has a longer path. -/
theorem length_lt_of_deepest? (hne : front ≠ []) (h : deepest? index front rest = some file) :
    (Text.join "::" front).length < (rustModulePath file).length := by
  induction rest generalizing front with
  | nil => cases h
  | cons s rest ih =>
    rcases Option.or_eq_some_iff.mp h with hdeeper | ⟨-, hknown⟩
    · exact Nat.lt_trans (length_join_concat hne s) (ih (List.append_ne_nil_of_right_ne_nil _ (List.cons_ne_nil _ _)) hdeeper)
    · rw [rustModulePath_of_rustModule? hknown]
      exact length_join_concat hne s

/-- A module below a path and the longest module of the path are held by different files. -/
theorem longestModule?_ne_of_deepest? (hne : front ≠ []) (h : deepest? index front rest = some file) :
    longestModule? index front ≠ some file := fun hfound =>
  Nat.lt_irrefl _ (Nat.lt_of_lt_of_le (length_lt_of_deepest? hne h) (length_le_of_longestModule? hfound))

/-! ## Paths of use declarations -/

/-- The segments of the path of a use declaration. -/
def usePath (specifier : String) : List String :=
  (Text.splitText "::" specifier).filter fun s => !s.isEmpty

/-- The path from the root that a path means inside a module; none when it leads out of the root or to a package. -/
def absolute? (index : FileIndex) (module : String) : List String → Option (List String)
  | [] => none
  | first :: rest =>
    match first with
    | "crate" => some (first :: rest)
    | "self" => some (module :: rest)
    | "super" => (ascend module (first :: rest)).map fun found => found.1 :: found.2
    | "std" | "core" | "alloc" => none
    | _ => if (index.rustModule? ("crate::" ++ first)).isSome then some ("crate" :: first :: rest) else none

theorem usePath_join {segments : List String} (h : ∀ s ∈ segments, s ≠ "" ∧ ':' ∉ s.toList) (hne : segments ≠ []) :
    usePath (Text.join "::" segments) = segments := by
  unfold usePath
  rw [Text.splitText_join toList_colons (fun s hs => (h s hs).2) hne]
  exact List.filter_eq_self.mpr fun s hs => by simpa using (h s hs).1

/-- A use declaration leads to the file of the longest module of the path that it means. -/
theorem rust_eq_internal_iff {importer specifier : String} : rust index importer specifier = .internal file ↔
    ∃ segments, absolute? index (rustModulePath importer) (usePath specifier) = some segments ∧
      longestModule? index segments = some file := by
  generalize hsegments : usePath specifier = segments
  unfold usePath at hsegments
  unfold rust
  rw [hsegments]
  cases segments with
  | nil => exact iff_of_false nofun fun ⟨_, h, _⟩ => nomatch h
  | cons first rest =>
    dsimp only
    unfold absolute?
    split
    case h_3 =>
      cases hascend : ascend (rustModulePath importer) ("super" :: rest) with
      | none => simp [hascend]
      | some found => simp [hascend]
    case h_7 => split <;> simp [*]
    all_goals simp

/-- A path that means something begins somewhere. -/
theorem absolute?_ne_nil {segments : List String} (h : absolute? index module front = some segments) : segments ≠ [] := by
  rintro rfl
  unfold absolute? at h
  cases front with
  | nil => cases h
  | cons first front =>
    dsimp only at h
    split at h
    case h_3 =>
      obtain ⟨_, _, hcons⟩ := Option.map_eq_some_iff.mp h
      cases hcons
    case h_7 => split at h <;> cases h
    all_goals cases h

/-- The path in front is made of `super` segments, and the rest goes on with another one. -/
def Climbs (front rest : List String) : Prop :=
  (∀ s ∈ front, s = "super") ∧ rest.head? = some "super"

instance (front rest : List String) : Decidable (Climbs front rest) :=
  inferInstanceAs (Decidable (_ ∧ _))

theorem ascend_append {segments : List String} (hrest : ¬Climbs segments rest) : ascend module (segments ++ rest) =
    (ascend module segments).map fun found => (found.1, found.2 ++ rest) := by
  induction module, segments using ascend.induct with
  | case1 module segments ih =>
    have hinner : ¬Climbs segments rest := fun ⟨hfront, hsuper⟩ =>
      hrest ⟨List.forall_mem_cons.mpr ⟨rfl, hfront⟩, hsuper⟩
    rw [List.cons_append, ascend, ascend]
    cases Text.cutLast? "::" module with
    | none => rfl
    | some cut => exact ih cut.1 hinner
  | case2 module segments hsuper =>
    rw [ascend.eq_2 module segments hsuper, ascend.eq_2]
    · rfl
    · intro inner hinner
      cases segments with
      | nil => exact hrest ⟨List.forall_mem_nil _, by rw [show rest = _ from hinner]; rfl⟩
      | cons s segments => exact hsuper segments (by rw [(List.cons.inj hinner).1])

/-- The path with more segments means the longer path, unless these climb out. -/
theorem absolute?_append (h : front ≠ []) (hrest : ¬Climbs front rest) :
    absolute? index module (front ++ rest) = (absolute? index module front).map (· ++ rest) := by
  obtain ⟨first, front, rfl⟩ := List.exists_cons_of_ne_nil h
  rw [List.cons_append]
  unfold absolute?
  dsimp only
  split
  case h_3 =>
    rw [← List.cons_append, ascend_append hrest]
    cases ascend module ("super" :: front) <;> rfl
  case h_7 => split <;> rfl
  all_goals rfl

/-! ## A project of three modules -/

/-- The files of a crate with a module and a module inside it. -/
def netFiles : List String :=
  ["src/lib.rs", "src/net/client.rs", "src/net/mod.rs"]

theorem plain_netFiles : ∀ p ∈ netFiles, Path.Plain p := by decide

theorem rustModule?_netFiles (module : String) : (FileIndex.ofPaths netFiles).rustModule? module =
    if module = "crate" then some "src/lib.rs" else if module = "crate::net::client" then some "src/net/client.rs"
    else if module = "crate::net" then some "src/net/mod.rs" else none := by
  have hincreasing : List.Pairwise (· < ·) netFiles := by decide
  have hindex : FileIndex.ofPaths netFiles = ⟨netFiles⟩ := FileIndex.ofPaths_of_plain plain_netFiles hincreasing
  have hpath (p : String) (hp : p ∈ netFiles) : Path.normalize p = p := (plain_netFiles p hp).normalize_eq
  have hlib : rustModulePath "src/lib.rs" = "crate" := by
    unfold rustModulePath
    rw [hpath _ (by decide)]
    decide +kernel
  have hclient : rustModulePath "src/net/client.rs" = "crate::net::client" := by
    unfold rustModulePath
    rw [hpath _ (by decide)]
    decide +kernel
  have hnet : rustModulePath "src/net/mod.rs" = "crate::net" := by
    unfold rustModulePath
    rw [hpath _ (by decide)]
    decide +kernel
  have hlibEnds : Text.endsWith "src/lib.rs" ".rs" = true := by decide
  have hclientEnds : Text.endsWith "src/net/client.rs" ".rs" = true := by decide
  have hnetEnds : Text.endsWith "src/net/mod.rs" ".rs" = true := by decide
  rw [hindex]
  simp only [FileIndex.rustModule?, netFiles, List.find?_cons, List.find?_nil, hlibEnds, hclientEnds, hnetEnds, hlib,
    hclient, hnet, Bool.true_and]
  grind

end CodeAtlas.Resolve
