/-
  Dependencies between the files of a project, and what is joined to them by path.

  An internal dependency leaves a file under its listed path and leads to the normalised path of a file
  (`Analysis.ends_of_internal`).  Edges, steps of flows and profiles are found under listed paths.  So what a dependency
  leads to has all of these exactly when it is listed (`Analysis.joined_ofExtractions`), which holds of all dependencies when
  normalised paths are listed along with their files (`Analysis.dependencies_stay_inside`).
-/
import CodeAtlas.Graph.Build
import CodeAtlas.Proofs.Resolve

namespace CodeAtlas

/-! ## Lists without repetitions -/

section Occurrences

variable {α : Type} [BEq α] [LawfulBEq α]

theorem mem_foldl_firstOccurrences {a : α} {l seen : List α} :
    a ∈ l.foldl (fun seen a => if seen.contains a then seen else seen ++ [a]) seen ↔ a ∈ seen ∨ a ∈ l := by
  induction l generalizing seen with
  | nil => simp
  | cons b l ih =>
    rw [List.foldl_cons, ih]
    by_cases hb : b ∈ seen
    · rw [if_pos (by simpa using hb), List.mem_cons]
      constructor
      · rintro (h | h)
        · exact Or.inl h
        · exact Or.inr (Or.inr h)
      · rintro (h | rfl | h)
        · exact Or.inl h
        · exact Or.inl hb
        · exact Or.inr h
    · rw [if_neg (by simpa using hb), List.mem_append, List.mem_singleton, List.mem_cons, or_assoc]

theorem mem_firstOccurrences {a : α} {l : List α} : a ∈ firstOccurrences l ↔ a ∈ l := by
  unfold firstOccurrences
  rw [mem_foldl_firstOccurrences]
  simp

theorem nodup_firstOccurrences (l : List α) : (firstOccurrences l).Nodup := by
  unfold firstOccurrences
  suffices h : ∀ seen : List α, seen.Nodup →
      (l.foldl (fun seen a => if seen.contains a then seen else seen ++ [a]) seen).Nodup from h [] List.nodup_nil
  induction l with
  | nil => exact fun _ h => h
  | cons b l ih =>
    intro seen hseen
    rw [List.foldl_cons]
    refine ih _ ?_
    split
    · exact hseen
    · rename_i hb
      refine List.nodup_append.mpr ⟨hseen, List.nodup_singleton _, fun x hx y hy hxy => ?_⟩
      rw [List.mem_singleton.mp hy] at hxy
      exact hb (by simpa using hxy ▸ hx)

end Occurrences

/-- What a partial function gives is joined to those elements for which it gives something, in their order. -/
theorem forall₂_filter_isSome {α β : Type} {f : α → Option β} {R : α → β → Prop} (h : ∀ a b, f a = some b → R a b)
    (l : List α) : List.Forall₂ R (l.filter fun a => (f a).isSome) (l.filterMap f) := by
  induction l with
  | nil => exact .nil
  | cons a l ih =>
    cases hf : f a with
    | none =>
      rw [List.filter_cons_of_neg (by simp [hf]), List.filterMap_cons_none hf]
      exact ih
    | some b =>
      rw [List.filter_cons_of_pos (by simp [hf]), List.filterMap_cons_some hf]
      exact .cons (h a b hf) ih

/-- An import of one file by another on a line. -/
def Dependency.importOn (line : Nat) (source target : String) : Dependency :=
  { source, target, relationship := .imports, strength := .weak, score := 1, usageCount := 0, line, names := []
    isConditional := false, isCircular := false, external := false }

/-! ## Profiles -/

namespace FileProfile

theorem map_path_markTested (profiles : List FileProfile) :
    (markTested profiles).map (·.path) = profiles.map (·.path) := by
  simp [markTested, Function.comp_def]

theorem isSome_ofPath? {profiles : List FileProfile} {path : String} :
    (ofPath? profiles path).isSome = true ↔ path ∈ profiles.map (·.path) := by
  simp [ofPath?]

end FileProfile

namespace Analysis

variable {config : AnalysisConfig} {extractions : List Extraction}

/-- The paths under which the files are listed. -/
def listed (extractions : List Extraction) : List String :=
  extractions.map (·.path)

theorem map_path_files (config : AnalysisConfig) (extractions : List Extraction) :
    (ofExtractions config extractions).files.map (·.path) = listed extractions := by
  show (FileProfile.markTested (extractions.map FileProfile.of)).map (·.path) = listed extractions
  rw [FileProfile.map_path_markTested, List.map_map]
  rfl

/-! ## The ends of dependencies -/

theorem ends_of_dependency? {index : FileIndex} {profiles : List FileProfile} {e : Extraction} {i : Import}
    {d : Dependency} (h : dependency? index profiles e i = some d) (hd : d.external = false) :
    d.source = e.path ∧ d.target ∈ index.paths := by
  unfold dependency? at h
  dsimp only at h
  split at h
  · rename_i path hresolve
    rw [← Option.some.inj h]
    exact ⟨rfl, (FileIndex.leadsInto_resolve hresolve).1⟩
  · rw [← Option.some.inj h] at hd
    exact Bool.noConfusion hd
  · cases h

theorem mem_resolveImports {profiles : List FileProfile} {d : Dependency}
    (h : d ∈ (resolveImports extractions profiles).1) :
    ∃ e ∈ extractions, ∃ i ∈ e.symbols.imports,
      dependency? (.ofPaths (listed extractions)) profiles e i = some d := by
  unfold resolveImports at h
  obtain ⟨found, hfound, rfl⟩ := List.mem_filterMap.mp h
  obtain ⟨e, he, himports⟩ := List.mem_flatMap.mp hfound
  obtain ⟨i, hi, hd⟩ := List.mem_map.mp himports
  exact ⟨e, he, i, hi, hd⟩

/-- Marking cycles leaves the ends of dependencies alone. -/
theorem mem_markCircular {report : Cycle.Report} {dependencies : List Dependency} {d : Dependency}
    (h : d ∈ markCircular report dependencies) :
    ∃ d' ∈ dependencies, d.source = d'.source ∧ d.target = d'.target ∧ d.external = d'.external := by
  obtain ⟨d', hd', rfl⟩ := List.mem_map.mp h
  refine ⟨d', hd', ?_⟩
  split <;> exact ⟨rfl, rfl, rfl⟩

/-- An internal dependency leaves a listed file and leads to the normalised path of one. -/
theorem ends_of_internal {d : Dependency} (h : d ∈ (ofExtractions config extractions).dependencies)
    (hd : d.external = false) :
    d.source ∈ listed extractions ∧ d.target ∈ (listed extractions).map Path.normalize := by
  obtain ⟨d', hd', hsource, htarget, hexternal⟩ := mem_markCircular h
  obtain ⟨e, he, i, _, hi⟩ := mem_resolveImports hd'
  obtain ⟨hfrom, hto⟩ := ends_of_dependency? hi (hexternal ▸ hd)
  obtain ⟨path, hpath, hnormal⟩ := FileIndex.mem_ofPaths.mp hto
  refine ⟨?_, List.mem_map.mpr ⟨path, hpath, hnormal.trans htarget.symm⟩⟩
  rw [hsource, hfrom]
  exact List.mem_map_of_mem he

/-- An import that leads to a file makes an internal dependency. -/
theorem exists_internal (config : AnalysisConfig) {e : Extraction} (he : e ∈ extractions) {i : Import}
    (hi : i ∈ e.symbols.imports) {path : String}
    (h : (FileIndex.ofPaths (listed extractions)).resolve e.path e.language i.specifier = .internal path) :
    ∃ d ∈ (ofExtractions config extractions).dependencies, d.external = false ∧ d.source = e.path ∧ d.target = path := by
  have hsome : ∃ d, dependency? (.ofPaths (listed extractions))
      (FileProfile.markTested (extractions.map FileProfile.of)) e i = some d ∧ d.external = false ∧ d.source = e.path ∧
        d.target = path := by
    unfold dependency?
    dsimp only
    rw [h]
    exact ⟨_, rfl, rfl, rfl, rfl⟩
  obtain ⟨d, hd, hexternal, hsource, htarget⟩ := hsome
  have hmem : d ∈ (resolveImports extractions (FileProfile.markTested (extractions.map FileProfile.of))).1 :=
    List.mem_filterMap.mpr ⟨some d, List.mem_flatMap.mpr ⟨e, he, List.mem_map.mpr ⟨i, hi, hd⟩⟩, rfl⟩
  refine ⟨_, List.mem_map_of_mem hmem, ?_⟩
  rw [if_neg (by simp [hexternal])]
  exact ⟨hexternal, hsource, htarget⟩

end Analysis

/-! ## Edges -/

namespace Graph

variable {extractions : List Extraction}

theorem fileId?_eq_some {path id : String} (h : fileId? extractions path = some id) :
    ∃ e ∈ extractions, e.path = path ∧ ∃ n, e.fileNode? = some n ∧ n.id = id := by
  obtain ⟨e, he, hid⟩ := List.exists_of_findSome?_eq_some h
  obtain ⟨hmem, hpath⟩ := List.mem_filter.mp he
  obtain ⟨n, hn, rfl⟩ := Option.map_eq_some_iff.mp hid
  exact ⟨e, List.mem_reverse.mp hmem, by simpa using hpath, n, hn, rfl⟩

theorem isSome_fileId? (hnodes : ∀ e ∈ extractions, e.fileNode?.isSome = true) {path : String} :
    (fileId? extractions path).isSome = true ↔ path ∈ Analysis.listed extractions := by
  constructor
  · intro h
    obtain ⟨id, hid⟩ := Option.isSome_iff_exists.mp h
    obtain ⟨e, he, hpath, -⟩ := fileId?_eq_some hid
    exact List.mem_map.mpr ⟨e, he, hpath⟩
  · intro h
    obtain ⟨e, he, hpath⟩ := List.mem_map.mp h
    unfold fileId?
    rw [List.findSome?_isSome_iff]
    refine ⟨e, List.mem_filter.mpr ⟨List.mem_reverse.mpr he, by simpa using hpath⟩, ?_⟩
    rw [Option.isSome_map]
    exact hnodes e he

/-- An edge joins the nodes of the two files of a dependency, and is of its kind. -/
structure Joins (extractions : List Extraction) (d : Dependency) (edge : Edge) : Prop where
  source : ∃ e ∈ extractions, e.path = d.source ∧ ∃ n, e.fileNode? = some n ∧ n.id = edge.source
  target : ∃ e ∈ extractions, e.path = d.target ∧ ∃ n, e.fileNode? = some n ∧ n.id = edge.target
  relationship : edge.relationship = d.relationship
  line : edge.line = some d.line
  isCircular : edge.isCircular = d.isCircular
  strength : edge.strength = some d.strength

theorem joins_of_dependencyEdge? {d : Dependency} {edge : Edge} (h : dependencyEdge? extractions d = some edge) :
    Joins extractions d edge := by
  unfold dependencyEdge? at h
  split at h
  · cases h
  · obtain ⟨source, hsource, h⟩ := Option.bind_eq_some_iff.mp h
    obtain ⟨target, htarget, h⟩ := Option.bind_eq_some_iff.mp h
    rw [← Option.some.inj h]
    exact ⟨fileId?_eq_some hsource, fileId?_eq_some htarget, rfl, rfl, rfl, rfl⟩

/-- A dependency of a listed file has an edge if it is internal and leads to a listed file. -/
theorem isSome_dependencyEdge? (hnodes : ∀ e ∈ extractions, e.fileNode?.isSome = true) {d : Dependency}
    (hsource : d.source ∈ Analysis.listed extractions) :
    (dependencyEdge? extractions d).isSome = (!d.external && decide (d.target ∈ Analysis.listed extractions)) := by
  obtain ⟨source, hid⟩ := Option.isSome_iff_exists.mp ((isSome_fileId? hnodes).mpr hsource)
  unfold dependencyEdge?
  cases hexternal : d.external with
  | true => rfl
  | false =>
    by_cases hlisted : d.target ∈ Analysis.listed extractions
    · obtain ⟨target, hid'⟩ := Option.isSome_iff_exists.mp ((isSome_fileId? hnodes).mpr hlisted)
      simp [hid, hid', hlisted]
    · have hnone : fileId? extractions d.target = none := by
        rw [← Option.not_isSome_iff_eq_none]
        exact fun h => hlisted ((isSome_fileId? hnodes).mp h)
      simp [hid, hnone, hlisted]

/-- The edges of dependencies are joined to those dependencies that have one, in their order. -/
theorem forall₂_joins (dependencies : List Dependency) :
    List.Forall₂ (Joins extractions) (dependencies.filter fun d => (dependencyEdge? extractions d).isSome)
      (dependencies.filterMap (dependencyEdge? extractions)) :=
  forall₂_filter_isSome (fun _ _ => joins_of_dependencyEdge?) dependencies

end Graph

/-! ## Flows -/

namespace Flow

theorem mem_neighbours {dependencies : List Dependency} {file next : String}
    (h : next ∈ neighbours dependencies file) :
    ∃ d ∈ dependencies, d.external = false ∧ d.source = file ∧ d.target = next := by
  unfold neighbours at h
  dsimp only at h
  rw [mem_firstOccurrences] at h
  obtain ⟨⟨line, target⟩, hmem, rfl⟩ := List.mem_map.mp h
  rw [List.mem_mergeSort] at hmem
  obtain ⟨d, hd, heq⟩ := List.mem_map.mp hmem
  cases heq
  obtain ⟨hd, hrelevant⟩ := List.mem_filter.mp hd
  rw [Bool.and_eq_true] at hrelevant
  have hinternal : d.external = false := by
    have hflow := hrelevant.1
    unfold isRelevant at hflow
    rw [Bool.and_eq_true] at hflow
    simpa using hflow.1
  exact ⟨d, hd, hinternal, by simpa using hrelevant.2, rfl⟩

/-- Whatever holds of the start and of all neighbours holds of all files that a search meets. -/
theorem of_mem_visit {P : String → Prop} {next : String → List String} (hnext : ∀ f, ∀ g ∈ next f, P g) (maxDepth : Nat)
    {fuel depth : Nat} {file : String} {met : List String} (hfile : P file) (hmet : ∀ f ∈ met, P f) :
    ∀ f ∈ visit next maxDepth fuel depth file met, P f := by
  induction fuel generalizing depth file met with
  | zero => exact hmet
  | succ fuel ih =>
    unfold visit
    split
    · exact hmet
    · have hstart : ∀ f ∈ met ++ [file], P f := by
        intro f hf
        rcases List.mem_append.mp hf with hf | hf
        · exact hmet f hf
        · exact List.mem_singleton.mp hf ▸ hfile
      -- the neighbours are visited one after the other, each with what was met before
      have hneighbours := hnext file
      generalize next file = neighbours at hneighbours
      generalize met ++ [file] = seen at hstart
      induction neighbours generalizing seen with
      | nil => exact hstart
      | cons g neighbours ihn =>
        exact ihn (fun f hf => hneighbours f (List.mem_cons_of_mem _ hf)) _ (ih (hneighbours g List.mem_cons_self) hstart)

/-- The steps of a flow are those of its files that have a profile, in their order. -/
theorem map_file_stepsFrom (profiles : List FileProfile) (dependencies : List Dependency) (order : Nat)
    (files : List String) :
    (stepsFrom profiles dependencies order files).map (·.file) =
      files.filter fun file => (FileProfile.ofPath? profiles file).isSome := by
  induction files generalizing order with
  | nil => rfl
  | cons file files ih =>
    unfold stepsFrom
    rw [List.map_append, ih]
    cases hprofile : FileProfile.ofPath? profiles file with
    | none => simp [hprofile]
    | some p => simp [hprofile]

theorem of_startingAt? {profiles : List FileProfile} {dependencies : List Dependency} {config : AnalysisConfig}
    {start : FileProfile} {flow : Flow} (h : startingAt? profiles dependencies config start = some flow) :
    flow.entryPoint = start.path ∧ flow.files = reachedFiles dependencies config.maxFlowDepth start.path ∧
      flow.steps = stepsFrom profiles dependencies 1 flow.files := by
  unfold startingAt? at h
  dsimp only at h
  split at h
  · cases h
  · rw [← Option.some.inj h]
    exact ⟨rfl, rfl, rfl⟩

theorem mem_trace {profiles : List FileProfile} {dependencies : List Dependency} {config : AnalysisConfig} {flow : Flow}
    (h : flow ∈ trace profiles dependencies config) :
    ∃ entry ∈ profiles, flow.files = reachedFiles dependencies config.maxFlowDepth entry.path ∧
      flow.steps = stepsFrom profiles dependencies 1 flow.files := by
  obtain ⟨entry, hentry, hflow⟩ := List.mem_filterMap.mp h
  exact ⟨entry, List.mem_of_mem_filter hentry, (of_startingAt? hflow).2⟩

end Flow

/-! ## Coupling -/

namespace Coupling

/-- The fan-in of a row is the number of files with an internal dependency on its file. -/
def CountsImporters (dependencies : List Dependency) (row : Coupling) : Prop :=
  ∃ importers : List String, importers.Nodup ∧ row.fanIn = importers.length ∧
    ∀ file, file ∈ importers ↔ ∃ d ∈ dependencies, d.external = false ∧ d.source = file ∧ d.target = row.file

theorem mem_pairs {dependencies : List Dependency} {p : String × String} :
    p ∈ pairs dependencies ↔ ∃ d ∈ dependencies, d.external = false ∧ d.source = p.1 ∧ d.target = p.2 := by
  unfold pairs
  rw [mem_firstOccurrences, List.mem_map]
  constructor
  · rintro ⟨d, hd, rfl⟩
    obtain ⟨hmem, hinternal⟩ := List.mem_filter.mp hd
    exact ⟨d, hmem, by simpa using hinternal, rfl, rfl⟩
  · rintro ⟨d, hmem, hinternal, hsource, htarget⟩
    exact ⟨d, List.mem_filter.mpr ⟨hmem, by simpa using hinternal⟩, Prod.ext hsource htarget⟩

theorem countsImporters_of_mem_table {profiles : List FileProfile} {dependencies : List Dependency} {row : Coupling}
    (h : row ∈ table profiles dependencies) : CountsImporters dependencies row := by
  obtain ⟨file, -, rfl⟩ := List.mem_map.mp h
  refine ⟨((pairs dependencies).filter fun p => p.2 == file).map (·.1), ?_, (List.length_map _).symm, fun importer => ?_⟩
  · refine List.Nodup.map_on (fun p hp q hq hpq => ?_) ((nodup_firstOccurrences _).filter _)
    have hsame : p.2 = q.2 := by
      have hpfile : p.2 = file := by simpa using (List.mem_filter.mp hp).2
      have hqfile : q.2 = file := by simpa using (List.mem_filter.mp hq).2
      exact hpfile.trans hqfile.symm
    exact Prod.ext hpq hsame
  · rw [List.mem_map]
    constructor
    · rintro ⟨p, hp, rfl⟩
      obtain ⟨hmem, hfile⟩ := List.mem_filter.mp hp
      obtain ⟨d, hd, hinternal, hsource, htarget⟩ := mem_pairs.mp hmem
      exact ⟨d, hd, hinternal, hsource, htarget.trans (by simpa using hfile)⟩
    · rintro ⟨d, hd, hinternal, hsource, htarget⟩
      refine ⟨(importer, file), List.mem_filter.mpr ⟨mem_pairs.mpr ⟨d, hd, hinternal, hsource, htarget⟩, ?_⟩, rfl⟩
      simp

/-- What an internal dependency leads to has a row. -/
theorem exists_row (profiles : List FileProfile) {dependencies : List Dependency} {d : Dependency}
    (h : d ∈ dependencies) (hd : d.external = false) :
    ∃ row ∈ table profiles dependencies, row.file = d.target := by
  have hfile : d.target ∈ sortedDistinct
      (profiles.map (·.path) ++ (pairs dependencies).flatMap fun p => [p.1, p.2]) := by
    rw [mem_sortedDistinct]
    refine List.mem_append_right _ (List.mem_flatMap.mpr ⟨(d.source, d.target), mem_pairs.mpr ⟨d, h, hd, rfl, rfl⟩, ?_⟩)
    simp
  exact ⟨_, List.mem_map_of_mem hfile, rfl⟩

end Coupling

/-! ## What is joined by path -/

namespace Analysis

open CodeAtlas.Graph (Joins dependencyEdge?)
open CodeAtlas.Coupling (CountsImporters)

variable {config : AnalysisConfig} {extractions : List Extraction}

/-- How an analysis of files is joined: internal dependencies lead from listed files to normalised paths of listed files,
and those that lead to listed paths have an edge; the listed files of a flow have a step; and dependencies are counted at
the path that they lead to. -/
structure Joined (extractions : List Extraction) (a : Analysis) : Prop where
  ends : ∀ d ∈ a.dependencies, d.external = false →
    d.source ∈ listed extractions ∧ d.target ∈ (listed extractions).map Path.normalize
  edges : List.Forall₂ (Joins extractions)
    (a.dependencies.filter fun d => !d.external && decide (d.target ∈ listed extractions))
    (a.dependencies.filterMap (dependencyEdge? extractions))
  steps : ∀ flow ∈ a.flows, flow.steps.map (·.file) = flow.files.filter fun file => decide (file ∈ listed extractions)
  fanIn : ∀ d ∈ a.dependencies, d.external = false →
    ∃ row ∈ Coupling.table a.files a.dependencies, row.file = d.target ∧ CountsImporters a.dependencies row

/-- Internal dependencies lead from listed files to listed files; each has an edge between the nodes of those two, every
file of a flow has a step, and each dependency is counted in the fan-in of a file with a profile. -/
structure Inside (extractions : List Extraction) (a : Analysis) : Prop where
  ends : ∀ d ∈ a.dependencies, d.external = false → d.source ∈ listed extractions ∧ d.target ∈ listed extractions
  edges : List.Forall₂ (Joins extractions) (a.dependencies.filter fun d => !d.external)
    (a.dependencies.filterMap (dependencyEdge? extractions))
  steps : ∀ flow ∈ a.flows, flow.steps.map (·.file) = flow.files
  fanIn : ∀ d ∈ a.dependencies, d.external = false →
    ∃ p ∈ a.files, ∃ row ∈ Coupling.table a.files a.dependencies, p.path = d.target ∧ row.file = d.target ∧
      CountsImporters a.dependencies row

/-- The files of a flow are listed, or are the target of an internal dependency. -/
theorem of_mem_flow {flow : Flow} (h : flow ∈ (ofExtractions config extractions).flows) {file : String}
    (hfile : file ∈ flow.files) :
    file ∈ listed extractions ∨
      ∃ d ∈ (ofExtractions config extractions).dependencies, d.external = false ∧ d.target = file := by
  obtain ⟨entry, hentry, hfiles, -⟩ := Flow.mem_trace h
  rw [hfiles] at hfile
  refine Flow.of_mem_visit (P := fun file => file ∈ listed extractions ∨
    ∃ d ∈ (ofExtractions config extractions).dependencies, d.external = false ∧ d.target = file)
    (fun f g hg => ?_) config.maxFlowDepth ?_ (fun _ hf => absurd hf List.not_mem_nil) file hfile
  · obtain ⟨d, hd, hinternal, -, htarget⟩ := Flow.mem_neighbours hg
    exact Or.inr ⟨d, hd, hinternal, htarget⟩
  · left
    rw [← map_path_files config]
    exact List.mem_map_of_mem hentry

theorem joined_ofExtractions (config : AnalysisConfig) (hnodes : ∀ e ∈ extractions, e.fileNode?.isSome = true) :
    Joined extractions (ofExtractions config extractions) := by
  refine ⟨fun d hd hinternal => ends_of_internal hd hinternal, ?_, fun flow hflow => ?_, fun d hd hinternal => ?_⟩
  · have hsame : ((ofExtractions config extractions).dependencies.filter fun d =>
        !d.external && decide (d.target ∈ listed extractions)) =
        (ofExtractions config extractions).dependencies.filter fun d => (dependencyEdge? extractions d).isSome := by
      refine List.filter_congr fun d hd => ?_
      cases hexternal : d.external with
      | true => simp [dependencyEdge?, hexternal]
      | false => rw [Graph.isSome_dependencyEdge? hnodes (ends_of_internal hd hexternal).1, hexternal]
    rw [hsame]
    exact Graph.forall₂_joins _
  · obtain ⟨entry, -, -, hsteps⟩ := Flow.mem_trace hflow
    rw [hsteps, Flow.map_file_stepsFrom]
    refine List.filter_congr fun file _ => ?_
    rw [Bool.eq_iff_iff, FileProfile.isSome_ofPath?, decide_eq_true_iff, ← map_path_files config]
    rfl
  · obtain ⟨row, hrow, hfile⟩ := Coupling.exists_row (ofExtractions config extractions).files hd hinternal
    exact ⟨row, hrow, hfile, Coupling.countsImporters_of_mem_table hrow⟩

/-- Every extraction has the node of its file. -/
theorem isSome_fileNode?_of_extract {x : Extractor} {disk : Disk} {now : Nat} {file : SourceFile} {project : String}
    {commit : Option String} {e : Extraction} (h : (x.extract disk now file project commit).1 = .ok e) :
    e.fileNode?.isSome = true := by
  unfold Extractor.extract at h
  split at h
  · cases h
  · split at h
    · rw [← Except.ok.inj h]
      rfl
    · split at h
      · cases h
      · rw [← Except.ok.inj h]
        rfl

theorem isSome_fileNode?_of_mem_extractAll (x : Extractor) (disk : Disk) (now : Nat) (project : String)
    (files : List SourceFile) : ∀ e ∈ (extractAll x disk now project files).1, e.fileNode?.isSome = true := by
  induction files generalizing x with
  | nil => exact fun e he => absurd he List.not_mem_nil
  | cons file files ih =>
    unfold extractAll
    cases hextract : x.extract disk now file project none with
    | mk result x' =>
      cases result with
      | error f => exact ih x'
      | ok e =>
        intro e' he'
        rcases List.mem_cons.mp he' with rfl | he'
        · exact isSome_fileNode?_of_extract (congrArg Prod.fst hextract)
        · exact ih x' e' he'

/-- The analysis of files is joined to what was extracted from them. -/
theorem joined_ofFiles (config : Config) (disk : Disk) (files : List SourceFile) :
    Joined (extractAll (.ofConfig config) disk 0 config.projectId files).1 (ofFiles config disk files) := by
  have hjoined := joined_ofExtractions config.analysis
    (isSome_fileNode?_of_mem_extractAll (.ofConfig config) disk 0 config.projectId files)
  exact ⟨hjoined.ends, hjoined.edges, hjoined.steps, hjoined.fanIn⟩

/-- An analysis whose internal dependencies lead to listed paths stays inside. -/
theorem inside_of_targets (hnodes : ∀ e ∈ extractions, e.fileNode?.isSome = true)
    (htargets : ∀ d ∈ (ofExtractions config extractions).dependencies, d.external = false →
      d.target ∈ listed extractions) :
    Inside extractions (ofExtractions config extractions) := by
  have hjoined := joined_ofExtractions config hnodes
  refine ⟨fun d hd hinternal => ⟨(hjoined.ends d hd hinternal).1, htargets d hd hinternal⟩, ?_, fun flow hflow => ?_,
    fun d hd hinternal => ?_⟩
  · have hsame : ((ofExtractions config extractions).dependencies.filter fun d => !d.external) =
        (ofExtractions config extractions).dependencies.filter fun d =>
          !d.external && decide (d.target ∈ listed extractions) := by
      refine List.filter_congr fun d hd => ?_
      cases hexternal : d.external with
      | true => rfl
      | false => simp [htargets d hd hexternal]
    rw [hsame]
    exact hjoined.edges
  · rw [hjoined.steps flow hflow, List.filter_eq_self]
    intro file hfile
    rw [decide_eq_true_iff]
    rcases of_mem_flow hflow hfile with hlisted | ⟨d, hd, hinternal, rfl⟩
    · exact hlisted
    · exact htargets d hd hinternal
  · obtain ⟨row, hrow, hfile, hcounts⟩ := hjoined.fanIn d hd hinternal
    have hpath := htargets d hd hinternal
    rw [← map_path_files config] at hpath
    obtain ⟨p, hp, hprofile⟩ := List.mem_map.mp hpath
    exact ⟨p, hp, row, hrow, hprofile, hfile, hcounts⟩

/-- An internal dependency leads from a listed file to the normalised path of a listed file. Those that lead to listed
paths have an edge and steps and are counted for a profiled file, and the others do not; so an analysis stays inside its
files exactly when all internal dependencies lead to listed paths, and always does when the normalised path of each file
is listed. That every file has a node holds of all that is extracted. -/
theorem dependencies_stay_inside (config : AnalysisConfig) (extractions : List Extraction)
    (hnodes : ∀ e ∈ extractions, e.fileNode?.isSome = true) :
    Joined extractions (ofExtractions config extractions) ∧
    (Inside extractions (ofExtractions config extractions) ↔
      ∀ d ∈ (ofExtractions config extractions).dependencies, d.external = false → d.target ∈ listed extractions) ∧
    ((∀ path ∈ listed extractions, Path.normalize path ∈ listed extractions) →
      Inside extractions (ofExtractions config extractions)) ∧
    ∀ (settings : Config) (disk : Disk) (files : List SourceFile),
      Joined (extractAll (.ofConfig settings) disk 0 settings.projectId files).1 (ofFiles settings disk files) := by
  have hjoined := joined_ofExtractions config hnodes
  refine ⟨hjoined, ⟨fun h d hd hinternal => (h.ends d hd hinternal).2, inside_of_targets hnodes⟩, fun hclosed => ?_,
    joined_ofFiles⟩
  refine inside_of_targets hnodes fun d hd hinternal => ?_
  obtain ⟨path, hpath, htarget⟩ := List.mem_map.mp (hjoined.ends d hd hinternal).2
  rw [← htarget]
  exact hclosed path hpath

/-- A script that imports its neighbour. With both paths normalised the analysis stays inside; with `./` in front of the
neighbour's path the dependency leads to a path that is not listed. -/
theorem dependencies_stay_inside_neighbours :
    let file (path : String) (imports : List Import) : Extraction :=
      { path, language := some .javascript, nodes := [.ofFile path (some .javascript) "" "demo" none], edges := []
        references := [], symbols := { SymbolSet.empty with imports }, content := "", entryPoint := false
        degraded := false }
    let script := file "a.js" [⟨"./b", [], .static, 1, 1, false⟩]
    let plain := ofExtractions {} [script, file "b.js" []]
    let dotted := ofExtractions {} [script, file "./b.js" []]
    (∃ d ∈ plain.dependencies, d.external = false ∧ d.source = "a.js" ∧ d.target = "b.js") ∧
      Inside [script, file "b.js" []] plain ∧ ¬ Inside [script, file "./b.js" []] dotted := by
  intro file script plain dotted
  have ha : Path.normalize "a.js" = "a.js" := Path.normalize_eq_self (by decide) (by decide)
  have hb : Path.normalize "b.js" = "b.js" := Path.normalize_eq_self (by decide) (by decide)
  have hb' : Path.normalize "./b.js" = "b.js" := by
    show Text.dropStart "./b.js" "./" = "b.js"
    rw [Text.dropStart, Text.dropLeads, dif_pos (by decide), Text.dropLeads, dif_neg (by decide)]
    rfl
  have hresolve : (FileIndex.mk ["a.js", "b.js"]).resolve "a.js" (some .javascript) "./b" = .internal "b.js" := by
    unfold FileIndex.resolve
    rw [ha]
    decide +kernel
  have hnodes (path : String) : ∀ e ∈ [script, file path []], e.fileNode?.isSome = true := by
    intro e he
    rcases List.mem_pair.mp he with rfl | rfl
    · rfl
    · rfl
  -- in both lists the import leads to the normalised path
  have hinternal (path : String) (hpath : Path.normalize path = "b.js") :
      ∃ d ∈ (ofExtractions {} [script, file path []]).dependencies,
        d.external = false ∧ d.source = "a.js" ∧ d.target = "b.js" := by
    have hpaths : (listed [script, file path []]).map Path.normalize = ["a.js", "b.js"] := by
      simp [listed, script, file, ha, hpath]
    refine exists_internal {} List.mem_cons_self (List.mem_singleton_self _) ?_
    rw [FileIndex.ofPaths_of_increasing (hpaths ▸ List.pairwise_pair.mpr (by decide)), hpaths]
    exact hresolve
  refine ⟨hinternal "b.js" hb, (dependencies_stay_inside {} _ (hnodes "b.js")).2.2.1 ?_, fun hinside => ?_⟩
  · intro path hpath
    rcases List.mem_pair.mp hpath with rfl | rfl
    · rw [ha]
      exact hpath
    · rw [hb]
      exact hpath
  · obtain ⟨d, hd, hexternal, -, htarget⟩ := hinternal "./b.js" hb'
    have hlisted := (dependencies_stay_inside {} _ (hnodes "./b.js")).2.1.mp hinside d hd hexternal
    rw [htarget] at hlisted
    exact absurd hlisted (by decide)

end Analysis

end CodeAtlas
