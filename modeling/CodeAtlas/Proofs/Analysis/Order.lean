/-
  The order in which files are given does not show in their analysis.

  Files are looked up by path, and paths are distinct (`filter_key_of_perm`); all that is listed by name is sorted first
  (`mergeSort_of_perm`, `sortedDistinct_congr`).  What remains is one list of dependencies for each file, which depends on
  the set of files alone (`dependenciesOf`), so that another order of files puts these lists into another order and
  changes nothing else (`Analysis.alike_of_perm`).
-/
import CodeAtlas.Proofs.Cycle
import CodeAtlas.Proofs.Dependency

namespace CodeAtlas

/-! ## Lists in another order -/

section Lists

variable {α β : Type} {l l' : List α}

/-- Of the parts that the elements of a list contribute, those that come from a single element stay in their order. -/
theorem filter_flatMap_of_perm {f : α → List β} {p : β → Bool} (hperm : l.Perm l')
    (hone : ∀ a ∈ l, ∀ b ∈ l, ∀ x ∈ f a, ∀ y ∈ f b, p x = true → p y = true → a = b) :
    (l.flatMap f).filter p = (l'.flatMap f).filter p := by
  induction hperm with
  | nil => rfl
  | cons a _ ih =>
    rw [List.flatMap_cons, List.flatMap_cons, List.filter_append, List.filter_append,
      ih fun b hb c hc => hone b (List.mem_cons_of_mem _ hb) c (List.mem_cons_of_mem _ hc)]
  | swap a b l =>
    simp only [List.flatMap_cons, List.filter_append, ← List.append_assoc]
    congr 1
    by_cases hb : (f b).filter p = []
    · rw [hb, List.nil_append, List.append_nil]
    · obtain ⟨x, hx⟩ := List.exists_mem_of_ne_nil _ hb
      obtain ⟨hxb, hpx⟩ := List.mem_filter.mp hx
      by_cases ha : (f a).filter p = []
      · rw [ha, List.nil_append, List.append_nil]
      · obtain ⟨y, hy⟩ := List.exists_mem_of_ne_nil _ ha
        obtain ⟨hya, hpy⟩ := List.mem_filter.mp hy
        rw [hone b List.mem_cons_self a (List.mem_cons_of_mem _ List.mem_cons_self) x hxb y hya hpx hpy]
  | trans hfirst _ ih ih' =>
    exact (ih hone).trans (ih' fun a ha b hb => hone a (hfirst.mem_iff.mpr ha) b (hfirst.mem_iff.mpr hb))

/-- The elements with a key do not depend on the order if no two have the same key. -/
theorem filter_key_of_perm {key : α → String} (hperm : l.Perm l') (hkeys : (l.map key).Nodup) (k : String) :
    l.filter (fun a => key a == k) = l'.filter fun a => key a == k := by
  have hone : ∀ a ∈ l, ∀ b ∈ l, ∀ x ∈ [a], ∀ y ∈ [b], (key x == k) = true → (key y == k) = true → a = b := by
    intro a ha b hb x hx y hy hxk hyk
    rw [List.mem_singleton.mp hx] at hxk
    rw [List.mem_singleton.mp hy] at hyk
    exact List.inj_on_of_nodup_map hkeys ha hb ((beq_iff_eq.mp hxk).trans (beq_iff_eq.mp hyk).symm)
  have hall := filter_flatMap_of_perm (f := fun a => [a]) hperm hone
  rwa [List.flatMap_singleton', List.flatMap_singleton'] at hall

/-- Sorting does not depend on the order if no two different elements are tied. -/
theorem mergeSort_of_perm {le : α → α → Bool} (htrans : ∀ a b c, le a b → le b c → le a c)
    (htotal : ∀ a b, le a b || le b a) (hperm : l.Perm l') (hanti : ∀ a ∈ l, ∀ b ∈ l, le a b → le b a → a = b) :
    l.mergeSort le = l'.mergeSort le := by
  refine List.Perm.eq_of_pairwise (fun a b ha hb => hanti a ?_ b ?_) (List.pairwise_mergeSort htrans htotal l)
    (List.pairwise_mergeSort htrans htotal l') ?_
  · exact List.mem_mergeSort.mp ha
  · exact hperm.mem_iff.mpr (List.mem_mergeSort.mp hb)
  · exact (List.mergeSort_perm l le).trans (hperm.trans (List.mergeSort_perm l' le).symm)

theorem firstOccurrences_of_perm [BEq α] [LawfulBEq α] (hperm : l.Perm l') :
    (firstOccurrences l).Perm (firstOccurrences l') := by
  refine (List.perm_ext_iff_of_nodup (nodup_firstOccurrences l) (nodup_firstOccurrences l')).mpr fun a => ?_
  rw [mem_firstOccurrences, mem_firstOccurrences, hperm.mem_iff]

end Lists

/-! ## Profiles -/

namespace FileProfile

variable {profiles profiles' : List FileProfile}

theorem markTested_of_perm (hperm : profiles.Perm profiles') : (markTested profiles).Perm (markTested profiles') := by
  have hsubjects : ∀ stem, (testSubjects profiles).contains stem = (testSubjects profiles').contains stem := by
    intro stem
    rw [Bool.eq_iff_iff, List.contains_iff_mem, List.contains_iff_mem]
    exact ((hperm.filter _).filterMap _).mem_iff
  unfold markTested
  dsimp only
  simp only [hsubjects]
  exact hperm.map _

/-- The profile of a path does not depend on the order of distinct paths. -/
theorem ofPath?_of_perm (hperm : profiles.Perm profiles') (hpaths : (profiles.map (·.path)).Nodup) :
    ofPath? profiles = ofPath? profiles' := by
  funext path
  unfold ofPath?
  rw [← List.head?_filter, ← List.head?_filter, List.filter_reverse, List.filter_reverse,
    filter_key_of_perm hperm hpaths]

end FileProfile

/-! ## What is read off dependencies -/

namespace Architecture

theorem violation?_congr {profiles profiles' : List FileProfile}
    (h : FileProfile.ofPath? profiles = FileProfile.ofPath? profiles') : violation? profiles = violation? profiles' := by
  funext d
  unfold violation?
  rw [h]

end Architecture

namespace Coupling

variable {profiles profiles' : List FileProfile} {dependencies dependencies' : List Dependency}

theorem pairs_of_perm (hperm : dependencies.Perm dependencies') : (pairs dependencies).Perm (pairs dependencies') :=
  firstOccurrences_of_perm ((hperm.filter _).map _)

/-- The rows are in the order of their files, and what they count does not depend on any order. -/
theorem table_of_perm (hprofiles : profiles.Perm profiles') (hdependencies : dependencies.Perm dependencies') :
    table profiles dependencies = table profiles' dependencies' := by
  have hpairs := pairs_of_perm hdependencies
  have hfiles : sortedDistinct (profiles.map (·.path) ++ (pairs dependencies).flatMap fun p => [p.1, p.2]) =
      sortedDistinct (profiles'.map (·.path) ++ (pairs dependencies').flatMap fun p => [p.1, p.2]) :=
    sortedDistinct_congr fun _ => ((hprofiles.map _).append (hpairs.flatMap_right _)).mem_iff
  unfold table
  dsimp only
  rw [hfiles]
  refine List.map_congr_left fun file _ => ?_
  rw [(hpairs.filter fun p => p.2 == file).length_eq, (hpairs.filter fun p => p.1 == file).length_eq]

end Coupling

namespace Flow

variable {profiles profiles' : List FileProfile} {dependencies dependencies' : List Dependency}

theorem before_iff {a b : Nat × String} : before a b = true ↔ a.1 < b.1 ∨ (a.1 = b.1 ∧ a.2 ≤ b.2) := by
  unfold before
  rw [Bool.or_eq_true, Bool.and_eq_true, decide_eq_true_iff, decide_eq_true_iff, beq_iff_eq]

theorem before_trans (a b c : Nat × String) (hab : before a b = true) (hbc : before b c = true) : before a c = true := by
  rw [before_iff] at hab hbc ⊢
  rcases hab with hab | ⟨hab, hle⟩
  · rcases hbc with hbc | ⟨hbc, -⟩
    · exact Or.inl (hab.trans hbc)
    · exact Or.inl (hbc ▸ hab)
  · rcases hbc with hbc | ⟨hbc, hle'⟩
    · exact Or.inl (hab ▸ hbc)
    · exact Or.inr ⟨hab.trans hbc, hle.trans hle'⟩

theorem before_total (a b : Nat × String) : (before a b || before b a) = true := by
  rw [Bool.or_eq_true, before_iff, before_iff]
  rcases lt_trichotomy a.1 b.1 with hlt | heq | hgt
  · exact Or.inl (Or.inl hlt)
  · rcases le_total a.2 b.2 with hle | hle
    · exact Or.inl (Or.inr ⟨heq, hle⟩)
    · exact Or.inr (Or.inr ⟨heq.symm, hle⟩)
  · exact Or.inr (Or.inl hgt)

theorem before_antisymm {a b : Nat × String} (hab : before a b = true) (hba : before b a = true) : a = b := by
  rw [before_iff] at hab hba
  rcases hab with hab | ⟨hline, hle⟩
  · rcases hba with hba | ⟨hba, -⟩ <;> omega
  · rcases hba with hba | ⟨-, hle'⟩
    · omega
    · exact Prod.ext hline (le_antisymm hle hle')

/-- Neighbours are sorted, so that their order does not depend on that of the dependencies. -/
theorem neighbours_of_perm (hperm : dependencies.Perm dependencies') : neighbours dependencies = neighbours dependencies' := by
  funext file
  unfold neighbours
  dsimp only
  rw [mergeSort_of_perm before_trans before_total ((hperm.filter _).map _)
    fun a _ b _ hab hba => before_antisymm hab hba]

theorem reachedFiles_of_perm (hperm : dependencies.Perm dependencies') (maxDepth : Nat) (entry : String) :
    reachedFiles dependencies maxDepth entry = reachedFiles dependencies' maxDepth entry := by
  unfold reachedFiles
  rw [neighbours_of_perm hperm, hperm.length_eq]

theorem stepsFrom_congr (hprofiles : FileProfile.ofPath? profiles = FileProfile.ofPath? profiles')
    (hneighbours : neighbours dependencies = neighbours dependencies') (order : Nat) (files : List String) :
    stepsFrom profiles dependencies order files = stepsFrom profiles' dependencies' order files := by
  induction files generalizing order with
  | nil => rfl
  | cons file files ih =>
    unfold stepsFrom
    rw [ih, hprofiles, hneighbours]

/-- The flow from an entry point does not depend on the order of dependencies, nor on that of distinct profiles. -/
theorem startingAt?_of_perm (hprofiles : FileProfile.ofPath? profiles = FileProfile.ofPath? profiles')
    (hperm : dependencies.Perm dependencies') (config : AnalysisConfig) :
    startingAt? profiles dependencies config = startingAt? profiles' dependencies' config := by
  funext entry
  unfold startingAt?
  dsimp only
  rw [reachedFiles_of_perm hperm, stepsFrom_congr hprofiles (neighbours_of_perm hperm)]

/-- Flows are traced alike along dependencies in any order. -/
theorem trace_of_perm (profiles : List FileProfile) (hperm : dependencies.Perm dependencies') (config : AnalysisConfig) :
    trace profiles dependencies config = trace profiles dependencies' config := by
  unfold trace
  rw [startingAt?_of_perm rfl hperm]

end Flow

/-! ## Dependencies -/

namespace Analysis

/-- What is kept of a dependency when cycles are marked by the given rule. -/
def marked (circular : String → String → Bool) (d : Dependency) : Dependency :=
  if d.external then d else { d with isCircular := circular d.source d.target }

/-- The dependencies of one file, given the index and the profiles of all files. -/
def dependenciesOf (index : FileIndex) (profiles : List FileProfile) (e : Extraction) : List Dependency :=
  e.symbols.imports.filterMap (dependency? index profiles e)

theorem resolveImports_eq (extractions : List Extraction) (profiles : List FileProfile) :
    (resolveImports extractions profiles).1 =
      extractions.flatMap (dependenciesOf (.ofPaths (listed extractions)) profiles) := by
  unfold resolveImports
  dsimp only
  rw [List.filterMap_flatMap]
  refine congrArg (extractions.flatMap ·) (funext fun e => ?_)
  rw [List.filterMap_map]
  rfl

theorem dependency?_congr {index : FileIndex} {profiles profiles' : List FileProfile}
    (h : FileProfile.ofPath? profiles = FileProfile.ofPath? profiles') :
    dependency? index profiles = dependency? index profiles' := by
  funext e i
  unfold dependency?
  rw [h]

/-- The profiles of files in the order of these, with tested files marked. -/
def profilesOf (extractions : List Extraction) : List FileProfile :=
  FileProfile.markTested (extractions.map FileProfile.of)

variable {config : AnalysisConfig} {extractions extractions' : List Extraction}

theorem map_path_profilesOf (extractions : List Extraction) : (profilesOf extractions).map (·.path) = listed extractions :=
  map_path_files {} extractions

/-- The dependencies of one file of a project, those in cycles marked. -/
def dependenciesIn (extractions : List Extraction) (e : Extraction) : List Dependency :=
  (dependenciesOf (.ofPaths (listed extractions)) (profilesOf extractions) e).map
    (marked (Cycle.detect (arcs (resolveImports extractions (profilesOf extractions)).1)).isCircular)

/-- The dependencies of a project are those of its files, one file after the other. -/
theorem dependencies_eq (config : AnalysisConfig) (extractions : List Extraction) :
    (ofExtractions config extractions).dependencies = extractions.flatMap (dependenciesIn extractions) := by
  show markCircular _ (resolveImports extractions (profilesOf extractions)).1 = _
  rw [resolveImports_eq]
  exact List.map_flatMap ..

/-! ## One order and another -/

section Order

variable (hperm : extractions.Perm extractions') (hpaths : (listed extractions).Nodup)

include hperm

theorem profilesOf_of_perm : (profilesOf extractions).Perm (profilesOf extractions') :=
  FileProfile.markTested_of_perm (hperm.map _)

theorem ofPaths_of_perm : FileIndex.ofPaths (listed extractions) = FileIndex.ofPaths (listed extractions') :=
  FileIndex.ofPaths_congr fun _ => (hperm.map _).mem_iff

include hpaths

theorem ofPath?_profilesOf_of_perm :
    FileProfile.ofPath? (profilesOf extractions) = FileProfile.ofPath? (profilesOf extractions') := by
  refine FileProfile.ofPath?_of_perm (profilesOf_of_perm hperm) ?_
  rw [map_path_profilesOf]
  exact hpaths

theorem resolveImports_of_perm :
    (resolveImports extractions (profilesOf extractions)).1.Perm
      (resolveImports extractions' (profilesOf extractions')).1 := by
  rw [resolveImports_eq, resolveImports_eq, ← ofPaths_of_perm hperm]
  have hsame : dependenciesOf (.ofPaths (listed extractions)) (profilesOf extractions') =
      dependenciesOf (.ofPaths (listed extractions)) (profilesOf extractions) := by
    unfold dependenciesOf
    rw [dependency?_congr (ofPath?_profilesOf_of_perm hperm hpaths)]
  rw [hsame]
  exact hperm.flatMap_right _

theorem detect_of_perm :
    (Cycle.detect (arcs (resolveImports extractions' (profilesOf extractions')).1)).cycles =
        (Cycle.detect (arcs (resolveImports extractions (profilesOf extractions)).1)).cycles ∧
      ∀ a b, (Cycle.detect (arcs (resolveImports extractions' (profilesOf extractions')).1)).isCircular a b =
        (Cycle.detect (arcs (resolveImports extractions (profilesOf extractions)).1)).isCircular a b :=
  Cycle.detect_congr fun _ => (((resolveImports_of_perm hperm hpaths).filter _).map _).mem_iff.symm

/-- The dependencies of a file are the same in both orders. -/
theorem dependenciesIn_of_perm : dependenciesIn extractions = dependenciesIn extractions' := by
  funext e
  unfold dependenciesIn dependenciesOf
  rw [ofPaths_of_perm hperm, dependency?_congr (ofPath?_profilesOf_of_perm hperm hpaths)]
  have hcircular := funext fun a => funext fun b => (detect_of_perm hperm hpaths).2 a b
  rw [hcircular]

theorem dependencies_of_perm (config : AnalysisConfig) :
    (ofExtractions config extractions).dependencies.Perm (ofExtractions config extractions').dependencies := by
  rw [dependencies_eq, dependencies_eq, dependenciesIn_of_perm hperm hpaths]
  exact hperm.flatMap_right _

theorem cycles_of_perm (config : AnalysisConfig) :
    (ofExtractions config extractions).quality.cycles = (ofExtractions config extractions').quality.cycles :=
  (detect_of_perm hperm hpaths).1.symm

theorem table_files_of_perm (config : AnalysisConfig) :
    Coupling.table (ofExtractions config extractions).files (ofExtractions config extractions).dependencies =
      Coupling.table (ofExtractions config extractions').files (ofExtractions config extractions').dependencies :=
  Coupling.table_of_perm (profilesOf_of_perm hperm) (dependencies_of_perm hperm hpaths config)

theorem violations_of_perm (config : AnalysisConfig) :
    (ofExtractions config extractions).architecture.violations.Perm
      (ofExtractions config extractions').architecture.violations := by
  show ((ofExtractions config extractions).dependencies.filterMap (Architecture.violation? (profilesOf extractions))).Perm
    ((ofExtractions config extractions').dependencies.filterMap (Architecture.violation? (profilesOf extractions')))
  rw [Architecture.violation?_congr (ofPath?_profilesOf_of_perm hperm hpaths)]
  exact (dependencies_of_perm hperm hpaths config).filterMap _

theorem flows_of_perm (config : AnalysisConfig) :
    (ofExtractions config extractions).flows.Perm (ofExtractions config extractions').flows := by
  show (((profilesOf extractions).filter (·.isEntryPoint)).filterMap
      (Flow.startingAt? (profilesOf extractions) (ofExtractions config extractions).dependencies config)).Perm
    (((profilesOf extractions').filter (·.isEntryPoint)).filterMap
      (Flow.startingAt? (profilesOf extractions') (ofExtractions config extractions').dependencies config))
  rw [Flow.startingAt?_of_perm (ofPath?_profilesOf_of_perm hperm hpaths) (dependencies_of_perm hperm hpaths config)]
  exact ((profilesOf_of_perm hperm).filter _).filterMap _

end Order

/-- Two analyses agree in all that does not follow the order of files: the same dependencies, violations and flows, each
as often, and the same lists of cycles, of coupled files and of hotspots. -/
structure Alike (a a' : Analysis) : Prop where
  dependencies : a.dependencies.Perm a'.dependencies
  cycles : a.quality.cycles = a'.quality.cycles
  highlyCoupled : a.quality.highlyCoupled = a'.quality.highlyCoupled
  hotspots : a.performance.hotspots = a'.performance.hotspots
  violations : a.architecture.violations.Perm a'.architecture.violations
  flows : a.flows.Perm a'.flows

theorem alike_of_perm (config : AnalysisConfig) (hperm : extractions.Perm extractions')
    (hpaths : (listed extractions).Nodup) :
    Alike (ofExtractions config extractions) (ofExtractions config extractions') := by
  have htable := table_files_of_perm hperm hpaths config
  refine ⟨dependencies_of_perm hperm hpaths config, cycles_of_perm hperm hpaths config, ?_, ?_,
    violations_of_perm hperm hpaths config, flows_of_perm hperm hpaths config⟩
  · exact congrArg (List.filter fun c => config.couplingThreshold < c.fanIn + c.fanOut) htable
  · exact congrArg (fun table => ((table.filter fun c => 0 < c.fanIn).mergeSort Coupling.hotter).take
      Performance.hotspotLimit) htable

end Analysis

end CodeAtlas
