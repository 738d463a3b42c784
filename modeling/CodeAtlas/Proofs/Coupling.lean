/-
  The coupling of files counts distinct neighbours.

  The pairs of files with an internal dependency are a finite set (`internalPairs`).  A row counts the pairs that begin
  and those that end at its file, which are as many as the files at their other ends (`card_image_ends`), and the rows
  of all files count every pair once (`sum_fibres`).  The same table comes out when the pairs are counted one after the
  other, each at both of its ends, in whatever order (`accumulate_eq`, by induction from the last pair).  Unused files
  are those without sources, hotspots the first rows by fan-in; the main result is `coupling_counts_neighbours`.
-/
import CodeAtlas.Proofs.Analysis.Order
import Mathlib.Algebra.BigOperators.Group.Finset.Basic
import Mathlib.Algebra.GroupWithZero.Nat
import Mathlib.Algebra.Order.BigOperators.Group.Finset
import Mathlib.Data.Prod.Lex

namespace CodeAtlas

namespace Coupling

variable {profiles : List FileProfile} {dependencies : List Dependency} {file : String}
  {order : List (String × String)} {files : List String}

/-! ## Pairs -/

/-- The pairs of a file and a file of the project that it depends on. -/
def internalPairs (dependencies : List Dependency) : Finset (String × String) :=
  ((dependencies.filter fun d => !d.external).map fun d => (d.source, d.target)).toFinset

/-- The files of the project that a file depends on. -/
def targetsOf (dependencies : List Dependency) (file : String) : Finset String :=
  ((dependencies.filter fun d => !d.external && d.source == file).map (·.target)).toFinset

/-- The files that depend on a file of the project. -/
def sourcesOf (dependencies : List Dependency) (file : String) : Finset String :=
  ((dependencies.filter fun d => !d.external && d.target == file).map (·.source)).toFinset

theorem mem_internalPairs {p : String × String} :
    p ∈ internalPairs dependencies ↔ ∃ d ∈ dependencies, d.external = false ∧ d.source = p.1 ∧ d.target = p.2 := by
  rw [← mem_pairs]
  unfold internalPairs pairs
  rw [List.mem_toFinset, mem_firstOccurrences]

/-- The far ends of the internal dependencies with a file at the near end are those of the pairs. -/
theorem toFinset_ends (near far : String × String → String) (dependencies : List Dependency) (file : String) :
    ((dependencies.filter fun d => !d.external && near (d.source, d.target) == file).map
        fun d => far (d.source, d.target)).toFinset =
      ((internalPairs dependencies).filter fun p => near p = file).image far := by
  ext other
  simp only [List.mem_toFinset, List.mem_map, List.mem_filter, Finset.mem_image, Finset.mem_filter, mem_internalPairs,
    Bool.and_eq_true, Bool.not_eq_true', beq_iff_eq]
  constructor
  · rintro ⟨d, ⟨hd, hinternal, hnear⟩, hfar⟩
    exact ⟨(d.source, d.target), ⟨⟨d, hd, hinternal, rfl, rfl⟩, hnear⟩, hfar⟩
  · rintro ⟨⟨source, target⟩, ⟨⟨d, hd, hinternal, rfl, rfl⟩, hnear⟩, hfar⟩
    exact ⟨d, ⟨hd, hinternal, hnear⟩, hfar⟩

/-- The pairs with a given end are as many as their other ends. -/
theorem card_image_ends {near far : String × String → String} (hends : ∀ p q, near p = near q → far p = far q → p = q)
    (s : Finset (String × String)) (file : String) :
    ((s.filter fun p => near p = file).image far).card = (s.filter fun p => near p = file).card := by
  refine Finset.card_image_of_injOn fun p hp q hq hfar => hends p q ?_ hfar
  exact ((Finset.mem_filter.mp hp).2).trans ((Finset.mem_filter.mp hq).2).symm

theorem card_targetsOf (dependencies : List Dependency) (file : String) :
    (targetsOf dependencies file).card = ((internalPairs dependencies).filter fun p => p.1 = file).card :=
  (congrArg Finset.card (toFinset_ends (·.1) (·.2) dependencies file)).trans
    (card_image_ends (fun _ _ => Prod.ext) _ file)

theorem card_sourcesOf (dependencies : List Dependency) (file : String) :
    (sourcesOf dependencies file).card = ((internalPairs dependencies).filter fun p => p.2 = file).card :=
  (congrArg Finset.card (toFinset_ends (·.2) (·.1) dependencies file)).trans
    (card_image_ends (fun _ _ hsnd hfst => Prod.ext hfst hsnd) _ file)

/-- Each element of a set is counted at one key. -/
theorem sum_fibres {α : Type} (hfiles : files.Nodup) {s : Finset α} {key : α → String} (h : ∀ x ∈ s, key x ∈ files) :
    (files.map fun file => (s.filter fun x => key x = file).card).sum = s.card := by
  rw [← List.sum_toFinset _ hfiles]
  exact (Finset.card_eq_sum_card_fiberwise fun x hx => List.mem_toFinset.mpr (h x hx)).symm

/-! ## Rows -/

/-- The number of pairs with a given end at a file. -/
def countAt (near : String × String → String) (order : List (String × String)) (file : String) : Nat :=
  (order.filter fun p => near p == file).length

/-- The files at both ends of pairs. -/
def endsOf (order : List (String × String)) : List String :=
  order.flatMap fun p => [p.1, p.2]

/-- The row of a file, filled by the numbers that are counted at files. -/
def rowOf (a b : String → Nat) (file : String) : Coupling :=
  ⟨file, a file, b file⟩

/-- The rows of some files in increasing order, filled with the numbers of pairs that end and that begin at them. -/
def rowsOf (files : List String) (order : List (String × String)) : List Coupling :=
  (sortedDistinct files).map (rowOf (countAt (·.2) order) (countAt (·.1) order))

theorem table_eq (profiles : List FileProfile) (dependencies : List Dependency) :
    table profiles dependencies =
      rowsOf (profiles.map (·.path) ++ endsOf (pairs dependencies)) (pairs dependencies) :=
  rfl

theorem map_file_rowsOf (files : List String) (order : List (String × String)) :
    (rowsOf files order).map (·.file) = sortedDistinct files := by
  unfold rowsOf
  rw [List.map_map]
  exact List.map_id _

/-- Rows do not depend on the order of the files and of the pairs. -/
theorem rowsOf_congr {files' : List String} {order' : List (String × String)} (hfiles : ∀ f, f ∈ files ↔ f ∈ files')
    (hperm : order.Perm order') : rowsOf files order = rowsOf files' order' := by
  unfold rowsOf rowOf countAt
  rw [sortedDistinct_congr hfiles]
  refine List.map_congr_left fun file _ => ?_
  rw [(hperm.filter fun p => p.2 == file).length_eq, (hperm.filter fun p => p.1 == file).length_eq]

/-- What is counted at a file is the number of pairs in the set. -/
theorem countAt_pairs (near : String × String → String) (dependencies : List Dependency) (file : String) :
    countAt near (pairs dependencies) file = ((internalPairs dependencies).filter fun p => near p = file).card := by
  have hnodup : (pairs dependencies).Nodup := nodup_firstOccurrences _
  have hset : (pairs dependencies).toFinset = internalPairs dependencies := by
    ext p
    rw [List.mem_toFinset, mem_pairs, mem_internalPairs]
  unfold countAt
  rw [← List.toFinset_card_of_nodup (hnodup.filter _), List.toFinset_filter, hset]
  simp only [beq_iff_eq]

theorem mem_endsOf_pairs : file ∈ endsOf (pairs dependencies) ↔
    ∃ d ∈ dependencies, d.external = false ∧ (d.source = file ∨ d.target = file) := by
  unfold endsOf
  rw [List.mem_flatMap]
  constructor
  · rintro ⟨p, hp, hfile⟩
    obtain ⟨d, hd, hinternal, hsource, htarget⟩ := mem_pairs.mp hp
    rcases List.mem_pair.mp hfile with rfl | rfl
    · exact ⟨d, hd, hinternal, Or.inl hsource⟩
    · exact ⟨d, hd, hinternal, Or.inr htarget⟩
  · rintro ⟨d, hd, hinternal, hfile⟩
    refine ⟨(d.source, d.target), mem_pairs.mpr ⟨d, hd, hinternal, rfl, rfl⟩, List.mem_pair.mpr ?_⟩
    exact hfile.imp Eq.symm Eq.symm

/-- A table has one row for each profiled file and each end of an internal dependency, in increasing order of the files.
A row counts the files that depend on its own and those that this depends on, and both columns add up to the number of
pairs. -/
structure IsTable (profiles : List FileProfile) (dependencies : List Dependency) (rows : List Coupling) : Prop where
  increasing : Increasing (rows.map (·.file))
  mem_iff : ∀ file, file ∈ rows.map (·.file) ↔ file ∈ profiles.map (·.path) ∨
    ∃ d ∈ dependencies, d.external = false ∧ (d.source = file ∨ d.target = file)
  fanOut : ∀ row ∈ rows, row.fanOut = (targetsOf dependencies row.file).card
  fanIn : ∀ row ∈ rows, row.fanIn = (sourcesOf dependencies row.file).card
  sum_fanOut : (rows.map (·.fanOut)).sum = (internalPairs dependencies).card
  sum_fanIn : (rows.map (·.fanIn)).sum = (internalPairs dependencies).card

theorem isTable_table (profiles : List FileProfile) (dependencies : List Dependency) :
    IsTable profiles dependencies (table profiles dependencies) := by
  have hfiles := map_file_rowsOf (profiles.map (·.path) ++ endsOf (pairs dependencies)) (pairs dependencies)
  have hnodup := (increasing_sortedDistinct (profiles.map (·.path) ++ endsOf (pairs dependencies))).nodup
  -- both ends of each pair have a row
  have hends : ∀ p ∈ internalPairs dependencies,
      p.1 ∈ sortedDistinct (profiles.map (·.path) ++ endsOf (pairs dependencies)) ∧
        p.2 ∈ sortedDistinct (profiles.map (·.path) ++ endsOf (pairs dependencies)) := by
    intro p hp
    obtain ⟨d, hd, hinternal, hsource, htarget⟩ := mem_internalPairs.mp hp
    rw [mem_sortedDistinct, mem_sortedDistinct]
    exact ⟨List.mem_append_right _ (mem_endsOf_pairs.mpr ⟨d, hd, hinternal, Or.inl hsource⟩),
      List.mem_append_right _ (mem_endsOf_pairs.mpr ⟨d, hd, hinternal, Or.inr htarget⟩)⟩
  rw [table_eq]
  refine ⟨?_, fun file => ?_, fun row hrow => ?_, fun row hrow => ?_, ?_, ?_⟩
  · rw [hfiles]
    exact increasing_sortedDistinct _
  · rw [hfiles, mem_sortedDistinct, List.mem_append, mem_endsOf_pairs]
  · obtain ⟨file, -, rfl⟩ := List.mem_map.mp hrow
    exact (countAt_pairs ..).trans (card_targetsOf dependencies file).symm
  · obtain ⟨file, -, rfl⟩ := List.mem_map.mp hrow
    exact (countAt_pairs ..).trans (card_sourcesOf dependencies file).symm
  · unfold rowsOf
    rw [List.map_map]
    exact (congrArg List.sum (List.map_congr_left fun file _ => countAt_pairs _ dependencies file)).trans
      (sum_fibres hnodup fun p hp => (hends p hp).1)
  · unfold rowsOf
    rw [List.map_map]
    exact (congrArg List.sum (List.map_congr_left fun file _ => countAt_pairs _ dependencies file)).trans
      (sum_fibres hnodup fun p hp => (hends p hp).2)

/-! ## Counting one pair after the other -/

/-- A file at its place in an increasing list. -/
def insertFile (file : String) : List String → List String
  | [] => [file]
  | f :: files =>
    if file < f then file :: f :: files
    else if f = file then f :: files
    else f :: insertFile file files

/-- Changes the numbers at a file in rows that are in the order of their files.  A file without a row gets one, changed
from zero. -/
def changeAt (g h : Nat → Nat) (file : String) : List Coupling → List Coupling
  | [] => [⟨file, g 0, h 0⟩]
  | row :: rows =>
    if file < row.file then ⟨file, g 0, h 0⟩ :: row :: rows
    else if row.file = file then ⟨row.file, g row.fanIn, h row.fanOut⟩ :: rows
    else row :: changeAt g h file rows

/-- Counts a pair at both of its ends. -/
def countPair (rows : List Coupling) (p : String × String) : List Coupling :=
  changeAt (· + 1) id p.2 (changeAt id (· + 1) p.1 rows)

/-- Starts from a row without neighbours for each profile and counts the pairs one after the other. -/
def accumulate (profiles : List FileProfile) (order : List (String × String)) : List Coupling :=
  order.foldl countPair (profiles.foldl (fun rows p => changeAt (fun _ => 0) (fun _ => 0) p.path rows) [])

section Change

variable {a b : String → Nat} {g h : Nat → Nat} {m n : Nat}

theorem mem_insertFile {f : String} : f ∈ insertFile file files ↔ f = file ∨ f ∈ files := by
  induction files with
  | nil => exact List.mem_singleton.trans (or_iff_left List.not_mem_nil).symm
  | cons f' files ih =>
    unfold insertFile
    split_ifs with hlt heq
    · exact List.mem_cons
    · rw [heq]
      exact ⟨Or.inr, fun hf => hf.elim (fun hf => hf ▸ List.mem_cons_self) id⟩
    · rw [List.mem_cons, List.mem_cons, ih]
      exact or_left_comm

theorem increasing_insertFile (hfiles : Increasing files) : Increasing (insertFile file files) := by
  induction files with
  | nil => exact List.pairwise_singleton _ _
  | cons f files ih =>
    unfold insertFile
    split_ifs with hlt heq
    · exact List.pairwise_cons.mpr ⟨fun f' hf' => lt_of_lt_of_le hlt (hfiles.head_le hf'), hfiles⟩
    · exact hfiles
    · refine List.pairwise_cons.mpr ⟨fun f' hf' => ?_, ih (List.pairwise_cons.mp hfiles).2⟩
      rcases mem_insertFile.mp hf' with rfl | hf'
      · exact lt_of_le_of_ne (not_lt.mp hlt) heq
      · exact List.rel_of_pairwise_cons hfiles hf'

theorem insertFile_sortedDistinct (file : String) (files : List String) :
    insertFile file (sortedDistinct files) = sortedDistinct (file :: files) := by
  refine eq_of_increasing (increasing_insertFile (increasing_sortedDistinct _)) (increasing_sortedDistinct _)
    fun f => ?_
  rw [mem_insertFile, mem_sortedDistinct, mem_sortedDistinct, List.mem_cons]

/-- Rows of other files stay. -/
theorem map_rowOf_update (hfile : file ∉ files) :
    files.map (rowOf (Function.update a file m) (Function.update b file n)) = files.map (rowOf a b) := by
  refine List.map_congr_left fun f hf => ?_
  have hne : f ≠ file := fun heq => hfile (heq ▸ hf)
  unfold rowOf
  rw [Function.update_of_ne hne, Function.update_of_ne hne]

theorem rowOf_update (a b : String → Nat) (file : String) (m n : Nat) :
    rowOf (Function.update a file m) (Function.update b file n) file = ⟨file, m, n⟩ := by
  unfold rowOf
  rw [Function.update_self, Function.update_self]

/-- A change at a file is one of the numbers in its row, if rows that are missing stand for zeros. -/
theorem changeAt_map_rowOf (g h : Nat → Nat) (hfiles : Increasing files)
    (hzero : file ∉ files → a file = 0 ∧ b file = 0) :
    changeAt g h file (files.map (rowOf a b)) =
      (insertFile file files).map
        (rowOf (Function.update a file (g (a file))) (Function.update b file (h (b file)))) := by
  induction files with
  | nil =>
    obtain ⟨ha, hb⟩ := hzero List.not_mem_nil
    rw [insertFile, List.map_singleton, rowOf_update, ha, hb]
    rfl
  | cons f files ih =>
    have hnodup := List.nodup_cons.mp hfiles.nodup
    rw [List.map_cons]
    show (if file < f then _ else if f = file then _ else _) = _
    unfold insertFile
    split_ifs with hlt heq
    · -- a file in front of the first row has none of its own
      have hnew : file ∉ f :: files := fun hfile => absurd (hfiles.head_le hfile) (not_le.mpr hlt)
      obtain ⟨ha, hb⟩ := hzero hnew
      rw [List.map_cons, rowOf_update, map_rowOf_update hnew, ha, hb]
      rfl
    · subst heq
      rw [List.map_cons, rowOf_update, map_rowOf_update hnodup.1]
      rfl
    · have hrest : file ∉ files → a file = 0 ∧ b file = 0 := fun hfile =>
        hzero (List.not_mem_cons_of_ne_of_not_mem (Ne.symm heq) hfile)
      have hhead : rowOf (Function.update a file (g (a file))) (Function.update b file (h (b file))) f = rowOf a b f :=
        List.singleton_inj.mp (map_rowOf_update (List.not_mem_cons_of_ne_of_not_mem (Ne.symm heq) List.not_mem_nil))
      rw [List.map_cons, ih (List.pairwise_cons.mp hfiles).2 hrest, hhead]

/-- The same for the rows of all files that are named, in increasing order. -/
theorem changeAt_rows (g h : Nat → Nat) (hzero : file ∉ files → a file = 0 ∧ b file = 0) :
    changeAt g h file ((sortedDistinct files).map (rowOf a b)) =
      (sortedDistinct (file :: files)).map
        (rowOf (Function.update a file (g (a file))) (Function.update b file (h (b file)))) := by
  rw [← insertFile_sortedDistinct]
  exact changeAt_map_rowOf g h (increasing_sortedDistinct _) fun hfile => hzero (mt mem_sortedDistinct.mpr hfile)

end Change

/-- One more pair is counted at one more place. -/
theorem countAt_append (near : String × String → String) (order : List (String × String)) (p : String × String) :
    countAt near (order ++ [p]) = Function.update (countAt near order) (near p) (countAt near order (near p) + 1) := by
  funext file
  unfold countAt
  rw [List.filter_append, List.length_append]
  by_cases hfile : file = near p
  · subst hfile
    rw [Function.update_self, List.filter_singleton, beq_self_eq_true]
    rfl
  · rw [Function.update_of_ne hfile, List.filter_singleton, beq_false_of_ne (Ne.symm hfile)]
    rfl

theorem countAt_eq_zero {near : String × String → String} (h : ∀ p ∈ order, near p ≠ file) :
    countAt near order file = 0 := by
  unfold countAt
  rw [List.length_eq_zero_iff, List.filter_eq_nil_iff]
  exact fun p hp => by rw [beq_iff_eq]; exact h p hp

/-- Counting a pair in the rows of earlier ones. -/
theorem countPair_rowsOf (hends : ∀ f ∈ endsOf order, f ∈ files) (p : String × String) :
    countPair (rowsOf files order) p = rowsOf (files ++ [p.1, p.2]) (order ++ [p]) := by
  have hzero : ∀ file ∉ files, countAt (·.2) order file = 0 ∧ countAt (·.1) order file = 0 := by
    intro file hfile
    refine ⟨countAt_eq_zero fun q hq heq => ?_, countAt_eq_zero fun q hq heq => ?_⟩
    · exact hfile (hends _ (List.mem_flatMap.mpr ⟨q, hq, List.mem_pair.mpr (Or.inr heq.symm)⟩))
    · exact hfile (hends _ (List.mem_flatMap.mpr ⟨q, hq, List.mem_pair.mpr (Or.inl heq.symm)⟩))
  -- the second end may be the first one, which has a row by then
  have hsecond : p.2 ∉ p.1 :: files → countAt (·.2) order p.2 = 0 ∧ countAt (·.1) (order ++ [p]) p.2 = 0 := by
    intro hnew
    obtain ⟨hne, hfile⟩ := not_or.mp (mt List.mem_cons.mpr hnew)
    rw [countAt_append, Function.update_of_ne hne]
    exact hzero p.2 hfile
  have hfiles : ∀ f, f ∈ p.2 :: p.1 :: files ↔ f ∈ files ++ [p.1, p.2] := by
    intro f
    rw [List.mem_append, List.mem_pair, List.mem_cons, List.mem_cons]
    tauto
  have hfirst : changeAt id (· + 1) p.1 (rowsOf files order) =
      (sortedDistinct (p.1 :: files)).map (rowOf (countAt (·.2) order) (countAt (·.1) (order ++ [p]))) := by
    rw [rowsOf, changeAt_rows _ _ (hzero p.1), countAt_append, id_eq, Function.update_eq_self]
  unfold countPair
  rw [hfirst, changeAt_rows _ _ hsecond, id_eq, Function.update_eq_self, ← countAt_append, sortedDistinct_congr hfiles]
  rfl

/-- The rows that counting starts from. -/
theorem foldl_profiles (profiles : List FileProfile) :
    profiles.foldl (fun rows p => changeAt (fun _ => 0) (fun _ => 0) p.path rows) [] =
      rowsOf (profiles.map (·.path)) [] := by
  induction profiles using List.reverseRecOn with
  | nil =>
    unfold rowsOf sortedDistinct
    rw [List.map_nil, List.mergeSort_nil]
    rfl
  | append_singleton profiles p ih =>
    have hfiles : ∀ f, f ∈ p.path :: profiles.map (·.path) ↔ f ∈ (profiles ++ [p]).map (·.path) := by
      intro f
      rw [List.map_append, List.mem_append, List.map_singleton, List.mem_singleton, List.mem_cons]
      exact or_comm
    have hsame : ∀ near : String × String → String, Function.update (countAt near []) p.path 0 = countAt near [] :=
      fun near => Function.update_eq_self p.path (countAt near [])
    rw [List.foldl_append, ih, List.foldl_cons, List.foldl_nil, rowsOf, changeAt_rows _ _ fun _ => ⟨rfl, rfl⟩, hsame,
      hsame, sortedDistinct_congr hfiles]
    rfl

/-- Counting pair by pair fills one row for each profile and each end of a pair. -/
theorem accumulate_eq (profiles : List FileProfile) (order : List (String × String)) :
    accumulate profiles order = rowsOf (profiles.map (·.path) ++ endsOf order) order := by
  unfold accumulate
  rw [foldl_profiles]
  induction order using List.reverseRecOn with
  | nil =>
    unfold endsOf
    rw [List.foldl_nil, List.flatMap_nil, List.append_nil]
  | append_singleton order p ih =>
    have hends : endsOf (order ++ [p]) = endsOf order ++ [p.1, p.2] := by
      unfold endsOf
      rw [List.flatMap_append, List.flatMap_singleton]
    rw [List.foldl_append, ih, List.foldl_cons, List.foldl_nil, hends, ← List.append_assoc]
    exact countPair_rowsOf (fun f hf => List.mem_append_right _ hf) p

/-- Whatever the order in which the pairs are counted, the table comes out. -/
theorem accumulate_eq_table (hperm : order.Perm (pairs dependencies)) :
    accumulate profiles order = table profiles dependencies := by
  rw [accumulate_eq, table_eq]
  refine rowsOf_congr (fun f => ?_) hperm
  rw [List.mem_append, List.mem_append]
  exact or_congr_right (hperm.flatMap_right _).mem_iff

/-! ## Reading the table -/

theorem sourcesOf_eq_empty_iff :
    sourcesOf dependencies file = ∅ ↔ (dependencies.any fun d => !d.external && d.target == file) = false := by
  unfold sourcesOf
  rw [List.toFinset_eq_empty_iff, List.map_eq_nil_iff, List.filter_eq_nil_iff, List.any_eq_false]

/-- The row of a profile counts nothing if no internal dependency has its file as the target. -/
theorem any_table_eq {p : FileProfile} (hp : p ∈ profiles) :
    ((table profiles dependencies).any fun row => row.file == p.path && row.fanIn == 0) =
      !dependencies.any fun d => !d.external && d.target == p.path := by
  have htable := isTable_table profiles dependencies
  rw [Bool.eq_iff_iff, List.any_eq_true, Bool.not_eq_true', ← sourcesOf_eq_empty_iff, ← Finset.card_eq_zero]
  constructor
  · rintro ⟨row, hrow, hzero⟩
    rw [Bool.and_eq_true, beq_iff_eq, beq_iff_eq] at hzero
    rw [← hzero.1, ← htable.fanIn row hrow, hzero.2]
  · intro hzero
    obtain ⟨row, hrow, hfile⟩ :=
      List.mem_map.mp ((htable.mem_iff p.path).mpr (Or.inl (List.mem_map.mpr ⟨p, hp, rfl⟩)))
    refine ⟨row, hrow, ?_⟩
    rw [Bool.and_eq_true, beq_iff_eq, beq_iff_eq, htable.fanIn row hrow, hfile]
    exact ⟨rfl, hzero⟩

/-- Unused are the files that are no entry points, tests or configuration and that no internal dependency has as its
target. -/
theorem unusedFiles_eq (profiles : List FileProfile) (dependencies : List Dependency) (cycles : List (List String))
    (violations : Nat) (config : AnalysisConfig) :
    (Quality.of profiles dependencies cycles violations config).unusedFiles =
      (profiles.filter fun p => !p.isEntryPoint && p.fileType != .test && p.fileType != .config &&
        !dependencies.any fun d => !d.external && d.target == p.path).map (·.path) := by
  refine congrArg (List.map FileProfile.path) (List.filter_congr fun p hp => ?_)
  unfold Quality.isUnused
  rw [any_table_eq hp]

/-! ## Hotspots -/

/-- Fan-in downward, then the file. -/
def heat (row : Coupling) : ℕᵒᵈ ×ₗ String :=
  toLex (OrderDual.toDual row.fanIn, row.file)

theorem hotter_iff {a b : Coupling} : hotter a b = true ↔ heat a ≤ heat b := by
  unfold hotter heat
  rw [Prod.Lex.toLex_le_toLex, Bool.or_eq_true, Bool.and_eq_true, decide_eq_true_iff, decide_eq_true_iff, beq_iff_eq]
  rfl

theorem hotter_trans (a b c : Coupling) (hab : hotter a b = true) (hbc : hotter b c = true) : hotter a c = true :=
  hotter_iff.mpr (le_trans (hotter_iff.mp hab) (hotter_iff.mp hbc))

theorem hotter_total (a b : Coupling) : (hotter a b || hotter b a) = true :=
  Bool.or_eq_true_iff.mpr ((le_total (heat a) (heat b)).imp hotter_iff.mpr hotter_iff.mpr)

theorem heat_lt_iff {a b : Coupling} :
    heat a < heat b ↔ b.fanIn < a.fanIn ∨ a.fanIn = b.fanIn ∧ a.file < b.file := by
  unfold heat
  rw [Prod.Lex.toLex_lt_toLex]
  rfl

/-- Rows of different files are ranked without ties. -/
theorem pairwise_mergeSort_hotter {rows : List Coupling} (hfiles : (rows.map (·.file)).Nodup) :
    (rows.mergeSort hotter).Pairwise fun a b => heat a < heat b := by
  have hsorted : (rows.mergeSort hotter).Pairwise fun a b => hotter a b = true :=
    List.pairwise_mergeSort hotter_trans hotter_total rows
  have hdistinct : (rows.mergeSort hotter).Pairwise fun a b => a.file ≠ b.file :=
    List.pairwise_map.mp (((List.mergeSort_perm rows hotter).map _).nodup_iff.mpr hfiles)
  refine (hsorted.and hdistinct).imp fun {a b} hab => lt_of_le_of_ne (hotter_iff.mp hab.1) fun heq => hab.2 ?_
  exact congrArg (fun key : ℕᵒᵈ ×ₗ String => (ofLex key).2) heq

/-- A ranking of the rows with a source, from the highest fan-in down and by file among equals. -/
structure IsRanking (rows ranked : List Coupling) : Prop where
  perm : ranked.Perm (rows.filter fun row => 0 < row.fanIn)
  pairwise : ranked.Pairwise fun a b => b.fanIn < a.fanIn ∨ a.fanIn = b.fanIn ∧ a.file < b.file

theorem isRanking_mergeSort {rows : List Coupling} (hfiles : (rows.map (·.file)).Nodup) :
    IsRanking rows ((rows.filter fun row => 0 < row.fanIn).mergeSort hotter) where
  perm := List.mergeSort_perm _ _
  pairwise :=
    (pairwise_mergeSort_hotter ((List.filter_sublist.map _).nodup hfiles)).imp fun hab => heat_lt_iff.mp hab

/-! ## Neighbours -/

/-- The table of couplings counts the distinct neighbours of each file, as does a count of the pairs in any order.
Unused are the profiles that nothing depends on, in their order, except for entry points, tests and configuration.
Hotspots are the first five of the rows with a source, ranked by decreasing fan-in and then by file. -/
theorem coupling_counts_neighbours (profiles : List FileProfile) (dependencies : List Dependency) :
    IsTable profiles dependencies (table profiles dependencies) ∧
      (∀ order, order.Perm (pairs dependencies) → accumulate profiles order = table profiles dependencies) ∧
      (∀ cycles violations config, (Quality.of profiles dependencies cycles violations config).unusedFiles =
        (profiles.filter fun p => !p.isEntryPoint && p.fileType != .test && p.fileType != .config &&
          !dependencies.any fun d => !d.external && d.target == p.path).map (·.path)) ∧
      ∃ ranked, IsRanking (table profiles dependencies) ranked ∧
        ∀ unresolved config, (Performance.of profiles dependencies unresolved config).hotspots = ranked.take 5 := by
  refine ⟨isTable_table .., fun _ hperm => accumulate_eq_table hperm, unusedFiles_eq profiles dependencies, ?_⟩
  exact ⟨_, isRanking_mergeSort (isTable_table profiles dependencies).increasing.nodup, fun _ _ => rfl⟩

/-- A repeated dependency, one of a file on itself, and one on a package. -/
def cartDependencies : List Dependency :=
  [.importOn 1 "app.ts" "api.ts", .importOn 2 "app.ts" "cart.ts",
    { Dependency.importOn 3 "app.ts" "react" with external := true }, .importOn 4 "app.ts" "api.ts",
    .importOn 1 "cart.ts" "cart.ts"]

theorem coupling_counts_neighbours_cart :
    [("cart.ts", "cart.ts"), ("app.ts", "cart.ts"), ("app.ts", "api.ts")].Perm (pairs cartDependencies) ∧
      table [{ (default : FileProfile) with path := "main.ts" }, { (default : FileProfile) with path := "app.ts" }]
          cartDependencies =
        [⟨"api.ts", 1, 0⟩, ⟨"app.ts", 0, 2⟩, ⟨"cart.ts", 2, 1⟩, ⟨"main.ts", 0, 0⟩] := by
  have hperm : [("cart.ts", "cart.ts"), ("app.ts", "cart.ts"), ("app.ts", "api.ts")].Perm (pairs cartDependencies) := by
    decide
  refine ⟨hperm, ?_⟩
  rw [← (coupling_counts_neighbours _ _).2.1 _ hperm]
  decide

end Coupling

end CodeAtlas
