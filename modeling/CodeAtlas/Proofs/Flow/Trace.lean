/-
  The files of flows.

  Flows go from a file to those that it has relevant dependencies on (`Leads`), by the least line of such a dependency
  and then by path (`inLineOrder_neighbours`).  From an entry point they reach finitely many files, so that every
  search ends with the fuel that it is given (`exists_rows`).

  Each entry point with enough files has a flow of what the search collects.  That is all within the greatest depth,
  except what lies behind a file that is met at that depth although a shorter chain leads to it
  (`flows_list_collected_files`), and it is all that is reached, in pre-order, where the depth suffices for that
  (`flows_follow_depth_first_search`).
-/
import CodeAtlas.Proofs.Analysis.Order
import CodeAtlas.Proofs.Flow.Search
import CodeAtlas.Proofs.Graph.Merge
import Mathlib.Data.Set.Card
import Mathlib.Order.Bounds.Basic

namespace CodeAtlas

/-- Where values are listed by first occurrence, an element that gives one of them comes after elements that give those
listed before it. -/
theorem pairwise_firstOccurrences_map {α β : Type} [BEq β] [LawfulBEq β] {R : α → α → Prop} {l : List α}
    (h : l.Pairwise R) (f : α → β) :
    (firstOccurrences (l.map f)).Pairwise fun b c => ∀ y ∈ l, f y = c → ∃ x ∈ l, f x = b ∧ R x y := by
  induction l using List.reverseRecOn with
  | nil => exact .nil
  | append_singleton l a ih =>
    obtain ⟨hl, -, hlast⟩ := List.pairwise_append.mp h
    -- the last element comes after elements that give every value that is listed already
    have hbefore {b : β} (hb : b ∈ firstOccurrences (l.map f)) : ∃ x ∈ l ++ [a], f x = b ∧ R x a := by
      obtain ⟨x, hx, hfx⟩ := List.mem_map.mp (mem_firstOccurrences.mp hb)
      exact ⟨x, List.mem_append_left _ hx, hfx, hlast x hx a List.mem_cons_self⟩
    have hold : (firstOccurrences (l.map f)).Pairwise fun b c => ∀ y ∈ l ++ [a], f y = c →
        ∃ x ∈ l ++ [a], f x = b ∧ R x y := by
      refine (ih hl).imp_of_mem fun hb _ hbc y hy hfy => ?_
      rcases List.mem_append.mp hy with hy | hy
      · obtain ⟨x, hx, hrest⟩ := hbc y hy hfy
        exact ⟨x, List.mem_append_left _ hx, hrest⟩
      · exact List.mem_singleton.mp hy ▸ hbefore hb
    rw [List.map_append, List.map_singleton, firstOccurrences_concat]
    split
    · exact hold
    · rename_i hnew
      refine List.pairwise_append.mpr ⟨hold, List.pairwise_singleton _ _, fun b hb c hc y hy hfy => ?_⟩
      rw [List.mem_singleton.mp hc] at hfy
      rcases List.mem_append.mp hy with hy | hy
      · exact absurd (List.mem_map.mpr ⟨y, hy, hfy⟩) hnew
      · exact List.mem_singleton.mp hy ▸ hbefore hb

namespace Flow

variable {dependencies : List Dependency} {file target : String}

/-! ## From file to file -/

/-- Flows go from a file to another one. -/
def Leads (dependencies : List Dependency) (file target : String) : Prop :=
  ∃ d ∈ dependencies, isRelevant d = true ∧ d.source = file ∧ d.target = target

/-- The lines of the relevant dependencies of a file on another one. -/
def lines (dependencies : List Dependency) (file target : String) : Set Nat :=
  {line | ∃ d ∈ dependencies, isRelevant d = true ∧ d.source = file ∧ d.target = target ∧ d.line = line}

/-- All that flows go to from a file, by the least line of a dependency on it and then by path. -/
structure InLineOrder (dependencies : List Dependency) (file : String) (targets : List String) : Prop where
  mem_iff : ∀ target, target ∈ targets ↔ Leads dependencies file target
  sorted : targets.Pairwise fun a b => ∃ m n, IsLeast (lines dependencies file a) m ∧
    IsLeast (lines dependencies file b) n ∧ (m < n ∨ (m = n ∧ a < b))

/-- The lines and targets of the relevant dependencies of a file. -/
def targetsOf (dependencies : List Dependency) (file : String) : List (Nat × String) :=
  (dependencies.filter fun d => isRelevant d && d.source == file).map fun d => (d.line, d.target)

theorem neighbours_eq (dependencies : List Dependency) (file : String) :
    neighbours dependencies file = firstOccurrences (((targetsOf dependencies file).mergeSort before).map (·.2)) :=
  rfl

theorem mem_targetsOf {line : Nat} :
    (line, target) ∈ targetsOf dependencies file ↔ line ∈ lines dependencies file target := by
  unfold targetsOf lines
  simp only [List.mem_map, List.mem_filter, Bool.and_eq_true, beq_iff_eq, Prod.mk.injEq, Set.mem_ofPred_eq]
  constructor
  · rintro ⟨d, ⟨hd, hrelevant, hsource⟩, hline, htarget⟩
    exact ⟨d, hd, hrelevant, hsource, htarget, hline⟩
  · rintro ⟨d, hd, hrelevant, hsource, htarget, hline⟩
    exact ⟨d, ⟨hd, hrelevant, hsource⟩, hline, htarget⟩

theorem leads_iff : Leads dependencies file target ↔ (lines dependencies file target).Nonempty := by
  constructor
  · rintro ⟨d, hd, hrelevant, hsource, htarget⟩
    exact ⟨d.line, d, hd, hrelevant, hsource, htarget, rfl⟩
  · rintro ⟨line, d, hd, hrelevant, hsource, htarget, -⟩
    exact ⟨d, hd, hrelevant, hsource, htarget⟩

theorem mem_neighbours_iff : target ∈ neighbours dependencies file ↔ Leads dependencies file target := by
  rw [neighbours_eq, mem_firstOccurrences, leads_iff]
  simp only [List.mem_map, List.mem_mergeSort, Prod.exists, exists_eq_right, mem_targetsOf]
  rfl

theorem exists_isLeast_lines (h : target ∈ neighbours dependencies file) :
    ∃ line, IsLeast (lines dependencies file target) line := by
  classical
  have hlines := leads_iff.mp (mem_neighbours_iff.mp h)
  exact ⟨Nat.find hlines, Nat.find_spec hlines, fun _ hline => Nat.find_min' hlines hline⟩

theorem inLineOrder_neighbours (dependencies : List Dependency) (file : String) :
    InLineOrder dependencies file (neighbours dependencies file) := by
  refine ⟨fun _ => mem_neighbours_iff, ?_⟩
  have hsorted := List.pairwise_mergeSort before_trans before_total (targetsOf dependencies file)
  have horder := pairwise_firstOccurrences_map hsorted (·.2)
  rw [← neighbours_eq] at horder
  have hdistinct : (neighbours dependencies file).Nodup := nodup_firstOccurrences _
  refine (horder.and hdistinct).imp_of_mem fun ha hb hab => ?_
  obtain ⟨m, hm⟩ := exists_isLeast_lines ha
  obtain ⟨n, hn⟩ := exists_isLeast_lines hb
  refine ⟨m, n, hm, hn, ?_⟩
  -- a dependency on the first file stands before the one on the least line to the second
  obtain ⟨⟨line, first⟩, hx, rfl, hbefore⟩ := hab.1 _ (List.mem_mergeSort.mpr (mem_targetsOf.mpr hn.1)) rfl
  have hle := hm.2 (mem_targetsOf.mp (List.mem_mergeSort.mp hx))
  rcases before_iff.mp hbefore with hlt | ⟨heq, hpath⟩
  · exact Or.inl (Nat.lt_of_le_of_lt hle hlt)
  · rcases Nat.lt_or_eq_of_le (hle.trans_eq heq) with hlt | hsame
    · exact Or.inl hlt
    · exact Or.inr ⟨hsame, lt_of_le_of_ne hpath hab.2⟩

/-! ## The search from an entry point -/

/-- The entry point and all that some dependency leads to. -/
def ends (dependencies : List Dependency) (entry : String) : Finset String :=
  (entry :: dependencies.map (·.target)).toFinset

variable {entry : String} {maxDepth : Nat} {rows : List (String × Nat)}

theorem card_ends_le (dependencies : List Dependency) (entry : String) :
    (ends dependencies entry).card ≤ dependencies.length + 1 := by
  have hcard := List.toFinset_card_le (entry :: dependencies.map (·.target))
  rwa [List.length_cons, List.length_map] at hcard

theorem neighbours_mem_ends :
    ∀ f ∈ ends dependencies entry, ∀ g ∈ neighbours dependencies f, g ∈ ends dependencies entry := by
  intro f _ g hg
  obtain ⟨d, hd, -, -, rfl⟩ := mem_neighbours_iff.mp hg
  exact List.mem_toFinset.mpr (List.mem_cons_of_mem _ (List.mem_map_of_mem hd))

/-- Every search ends, and no fuel beyond the number of dependencies changes what it meets. -/
theorem exists_rows (dependencies : List Dependency) (maxDepth : Nat) (entry : String) :
    ∃ rows, Search (neighbours dependencies) maxDepth 0 [] [entry] rows ∧
      ∀ fuel, dependencies.length + 2 ≤ fuel →
        visit (neighbours dependencies) maxDepth fuel 0 entry [] = rows.map (·.1) := by
  have hcomputes (fuel : Nat) (hfuel : dependencies.length + 2 ≤ fuel) :
      Computes (neighbours dependencies) maxDepth fuel 0 entry [] :=
    computes_visit (ends dependencies entry) neighbours_mem_ends
      (List.mem_toFinset.mpr List.mem_cons_self) List.nodup_nil (fun _ hf => absurd hf List.not_mem_nil) (by
        have hcard := card_ends_le dependencies entry
        omega)
  obtain ⟨rows, hsearch, -⟩ := hcomputes _ le_rfl
  refine ⟨rows, hsearch, fun fuel hfuel => ?_⟩
  obtain ⟨rows', hsearch', hvisit⟩ := hcomputes fuel hfuel
  rw [hvisit, hsearch'.unique hsearch, List.nil_append]

section Searched

variable (h : Search (neighbours dependencies) maxDepth 0 [] [entry] rows)

include h

theorem nodup_rows : (rows.map (·.1)).Nodup := by
  simpa using h.nodup List.nodup_nil

/-- Whatever a search from an entry point meets, it meets over a chain of as many dependencies as its depth. -/
theorem chain_of_mem_rows : ∀ r ∈ rows, Chain (Leads dependencies) entry r.2 r.1 := by
  have hchain := h.chain entry (List.forall_mem_singleton.mpr .start)
  simpa only [mem_neighbours_iff] using hchain

/-- A search from an entry point meets the entry point first. -/
theorem exists_tail_rows : ∃ tail, rows.map (·.1) = entry :: tail := by
  cases h with
  | pass hblocked => simp at hblocked
  | visit => exact ⟨_, rfl⟩

theorem entry_mem_rows : entry ∈ rows.map (·.1) := by
  obtain ⟨tail, htail⟩ := exists_tail_rows h
  rw [htail]
  exact List.mem_cons_self

theorem within_of_mem_rows : ∀ file ∈ rows.map (·.1), ∃ n ≤ maxDepth, Chain (Leads dependencies) entry n file := by
  intro file hfile
  obtain ⟨r, hr, rfl⟩ := List.mem_map.mp hfile
  exact ⟨r.2, h.depth_le r hr, chain_of_mem_rows h r hr⟩

/-- Any file but the first comes after one that leads to it. -/
theorem exists_earlier {before after : List String} (hsplit : rows.map (·.1) = before ++ file :: after)
    (hne : before ≠ []) : ∃ earlier ∈ before, Leads dependencies earlier file := by
  rcases h.previous hsplit with hfirst | ⟨earlier, hearlier, hnext⟩
  · -- the entry point is met once, as the first file
    obtain ⟨tail, htail⟩ := exists_tail_rows h
    obtain ⟨head, before, rfl⟩ := List.exists_cons_of_ne_nil hne
    have hdistinct := nodup_rows h
    rw [hsplit] at htail hdistinct
    obtain ⟨rfl, -⟩ := List.cons.inj htail
    obtain rfl := List.mem_singleton.mp hfirst
    simp at hdistinct
  · exact ⟨earlier, hearlier, mem_neighbours_iff.mp hnext⟩

/-- What files met before the greatest depth lead to is met. -/
theorem mem_rows_of_leads {r : String × Nat} (hr : r ∈ rows) (hdepth : r.2 < maxDepth)
    (hleads : Leads dependencies r.1 target) : target ∈ rows.map (·.1) := by
  simpa using h.closed r hr hdepth target (mem_neighbours_iff.mpr hleads)

/-- All that is reached within the greatest depth is met exactly when files met at that depth, though they are reached
over fewer dependencies, lead to nothing else. -/
theorem complete_iff :
    (∀ file, (∃ n ≤ maxDepth, Chain (Leads dependencies) entry n file) → file ∈ rows.map (·.1)) ↔
      ∀ file, (file, maxDepth) ∈ rows → (∃ n < maxDepth, Chain (Leads dependencies) entry n file) →
        ∀ target, Leads dependencies file target → target ∈ rows.map (·.1) := by
  constructor
  · rintro hall file - ⟨n, hn, hchain⟩ target hleads
    exact hall target ⟨n + 1, hn, hchain.next hleads⟩
  · rintro hlast file ⟨n, hn, hchain⟩
    induction hchain with
    | start => exact entry_mem_rows h
    | @next n file target hchain hleads ih =>
      obtain ⟨⟨met, depth⟩, hr, rfl⟩ := List.mem_map.mp (ih (Nat.le_of_succ_le hn))
      rcases Nat.lt_or_eq_of_le (h.depth_le _ hr) with hlt | rfl
      · exact mem_rows_of_leads h hr hlt hleads
      · exact hlast met hr ⟨n, hn, hchain⟩ target hleads

end Searched

/-! ## Few files -/

/-- The files that flows reach from an entry point. -/
def reached (dependencies : List Dependency) (entry : String) : Set String :=
  {file | Relation.ReflTransGen (Leads dependencies) entry file}

theorem reached_subset_ends (dependencies : List Dependency) (entry : String) :
    reached dependencies entry ⊆ (ends dependencies entry : Set String) := by
  intro file hreach
  induction hreach with
  | refl => exact List.mem_toFinset.mpr List.mem_cons_self
  | tail _ hleads ih => exact neighbours_mem_ends _ ih _ (mem_neighbours_iff.mpr hleads)

theorem finite_reached (dependencies : List Dependency) (entry : String) : (reached dependencies entry).Finite :=
  (Finset.finite_toSet _).subset (reached_subset_ends dependencies entry)

/-- All that can be reached is met where the greatest depth allows a chain of all of it. -/
theorem mem_rows_iff_of_few (h : Search (neighbours dependencies) maxDepth 0 [] [entry] rows)
    (hfew : (reached dependencies entry).ncard ≤ maxDepth + 1) :
    ∀ file, file ∈ rows.map (·.1) ↔ file ∈ reached dependencies entry := by
  have hmet : ∀ file ∈ rows.map (·.1), file ∈ reached dependencies entry := by
    intro file hfile
    obtain ⟨n, -, hchain⟩ := within_of_mem_rows h file hfile
    exact hchain.reaches
  refine fun file => ⟨hmet file, fun hreach => ?_⟩
  induction hreach with
  | refl => exact entry_mem_rows h
  | @tail file target hreach hleads ih =>
    obtain ⟨r, hr, rfl⟩ := List.mem_map.mp ih
    rcases Nat.lt_or_eq_of_le (h.depth_le r hr) with hlt | heq
    · exact mem_rows_of_leads h hr hlt hleads
    · -- so many files are met that no other can be reached
      have hmany : maxDepth < 0 + rows.length := heq ▸ h.depth_lt (Nat.le_refl 0) r hr
      have hcard : ((rows.map (·.1)).toFinset : Set String).ncard = rows.length := by
        rw [Set.ncard_coe_finset, List.toFinset_card_of_nodup (nodup_rows h), List.length_map]
      have hall : ((rows.map (·.1)).toFinset : Set String) = reached dependencies entry :=
        Set.eq_of_subset_of_ncard_le (fun f hf => hmet f (List.mem_toFinset.mp hf)) (by omega) (finite_reached ..)
      have htarget : target ∈ reached dependencies entry := hreach.tail hleads
      rw [← hall] at htarget
      exact List.mem_toFinset.mp (Finset.mem_coe.mp htarget)

theorem depthFirst_of_few (h : Search (neighbours dependencies) maxDepth 0 [] [entry] rows)
    (hfew : (reached dependencies entry).ncard ≤ maxDepth + 1) :
    DepthFirst (neighbours dependencies) [] [entry] (rows.map (·.1)) := by
  have hfinite := finite_reached dependencies entry
  refine h.depthFirst hfinite.toFinset ?_ ?_ List.nodup_nil (fun _ hf => absurd hf List.not_mem_nil) ?_
    (Nat.le_refl 0)
  · intro f hf g hg
    have hreach : f ∈ reached dependencies entry := hfinite.mem_toFinset.mp hf
    exact hfinite.mem_toFinset.mpr (hreach.tail (mem_neighbours_iff.mp hg))
  · rwa [← Set.ncard_eq_toFinset_card _ hfinite]
  · exact List.forall_mem_singleton.mpr (hfinite.mem_toFinset.mpr .refl)

/-! ## Steps -/

/-- Steps are numbered by the places of their files, from the first number on. -/
theorem placed_stepsFrom (profiles : List FileProfile) (dependencies : List Dependency) (first : Nat)
    (files : List String) :
    ((stepsFrom profiles dependencies first files).map (·.order)).Pairwise (· < ·) ∧
      ∀ step ∈ stepsFrom profiles dependencies first files,
        first ≤ step.order ∧ files[step.order - first]? = some step.file := by
  induction files generalizing first with
  | nil => exact ⟨.nil, fun step hstep => absurd hstep List.not_mem_nil⟩
  | cons file rest ih =>
    obtain ⟨hincreasing, hplaces⟩ := ih (first + 1)
    have hrest : ∀ step ∈ stepsFrom profiles dependencies (first + 1) rest,
        first ≤ step.order ∧ (file :: rest)[step.order - first]? = some step.file := by
      intro step hstep
      obtain ⟨hle, hplace⟩ := hplaces step hstep
      refine ⟨Nat.le_of_succ_le hle, ?_⟩
      rw [show step.order - first = step.order - (first + 1) + 1 by omega, List.getElem?_cons_succ, hplace]
    unfold stepsFrom
    cases FileProfile.ofPath? profiles file with
    | none => exact ⟨hincreasing, hrest⟩
    | some p =>
      refine ⟨List.pairwise_cons.mpr ⟨fun order horder => ?_, hincreasing⟩, List.forall_mem_cons.mpr ⟨?_, hrest⟩⟩
      · obtain ⟨step, hstep, rfl⟩ := List.mem_map.mp horder
        exact (hplaces step hstep).1
      · simp

/-! ## Flows -/

variable {profiles : List FileProfile} {config : AnalysisConfig}

/-- The entry points with enough files have one flow each, in their order. -/
theorem map_files_trace (profiles : List FileProfile) (dependencies : List Dependency) (config : AnalysisConfig) :
    (trace profiles dependencies config).map (fun flow => (flow.entryPoint, flow.files)) =
      (profiles.filter fun p => p.isEntryPoint &&
          decide (config.minFlowFiles ≤ (reachedFiles dependencies config.maxFlowDepth p.path).length)).map
        fun p => (p.path, reachedFiles dependencies config.maxFlowDepth p.path) := by
  have hone (p : FileProfile) :
      (startingAt? profiles dependencies config p).map (fun flow => (flow.entryPoint, flow.files)) =
      if config.minFlowFiles ≤ (reachedFiles dependencies config.maxFlowDepth p.path).length then
        some (p.path, reachedFiles dependencies config.maxFlowDepth p.path) else none := by
    unfold startingAt?
    dsimp only
    split
    · rename_i hfew
      rw [if_neg (Nat.not_le.mpr hfew)]
      rfl
    · rename_i henough
      rw [if_pos (Nat.not_lt.mp henough)]
      rfl
  unfold trace
  rw [List.map_filterMap, List.filterMap_filter, ← List.filterMap_eq_map, List.filterMap_filter]
  refine List.filterMap_congr fun p _ => ?_
  rw [hone]
  by_cases hentry : p.isEntryPoint = true <;> simp [hentry]

/-- What a search from an entry point collects, each file with the depth at which it is met. -/
structure Collects (dependencies : List Dependency) (maxDepth : Nat) (entry : String) (rows : List (String × Nat)) :
    Prop where
  search : Search (neighbours dependencies) maxDepth 0 [] [entry] rows
  nodup : (rows.map (·.1)).Nodup
  /-- All of it is reached within the greatest depth. -/
  within : ∀ file ∈ rows.map (·.1), ∃ n ≤ maxDepth, Chain (Leads dependencies) entry n file
  /-- It is all that is reached within the greatest depth exactly when no file met at that depth cuts off others that a
  shorter way to it leads to. -/
  complete_iff : (∀ file, (∃ n ≤ maxDepth, Chain (Leads dependencies) entry n file) → file ∈ rows.map (·.1)) ↔
    ∀ file, (file, maxDepth) ∈ rows → (∃ n < maxDepth, Chain (Leads dependencies) entry n file) →
      ∀ target, Leads dependencies file target → target ∈ rows.map (·.1)

/-- The entry points that collect enough files have one flow each, in their order, with the files collected. -/
theorem flows_list_collected_files (profiles : List FileProfile) (dependencies : List Dependency)
    (config : AnalysisConfig) :
    ∃ rows : String → List (String × Nat),
      (∀ entry, Collects dependencies config.maxFlowDepth entry (rows entry)) ∧
      (trace profiles dependencies config).map (fun flow => (flow.entryPoint, flow.files)) =
        (profiles.filter fun p => p.isEntryPoint && decide (config.minFlowFiles ≤ (rows p.path).length)).map
          fun p => (p.path, (rows p.path).map (·.1)) := by
  choose rows hsearch hvisit using exists_rows dependencies config.maxFlowDepth
  have hfiles (entry : String) : reachedFiles dependencies config.maxFlowDepth entry = (rows entry).map (·.1) :=
    hvisit entry _ (Nat.le_refl _)
  refine ⟨rows, fun entry => ?_, ?_⟩
  · exact ⟨hsearch entry, nodup_rows (hsearch entry), within_of_mem_rows (hsearch entry), complete_iff (hsearch entry)⟩
  · rw [map_files_trace]
    simp only [hfiles, List.length_map]

/-- The profile of an entry point of which nothing else is known. -/
def entryAt (path : String) : FileProfile :=
  { path, fileType := .file, layer := .unknown, language := none, lines := 0, complexity := 0, isEntryPoint := true
    hasTest := false, behavior := ⟨false, false, false, false⟩ }

/-- A detour hides files: the third file is met at the greatest depth over the second one, so that the fourth is not met,
though two dependencies lead to it over the third one. -/
theorem detour_hides_file_within_depth :
    let dependencies := [Dependency.importOn 1 "a" "b", .importOn 2 "a" "c", .importOn 1 "b" "c", .importOn 1 "c" "d"]
    (trace [entryAt "a"] dependencies { maxFlowDepth := 2 }).map (fun flow => (flow.entryPoint, flow.files)) =
        [("a", ["a", "b", "c"])] ∧
      ¬ ∀ file, file ∈ ["a", "b", "c"] ↔ ∃ n ≤ 2, Chain (Leads dependencies) "a" n file := by
  intro dependencies
  constructor
  · rw [map_files_trace]
    simp [dependencies, entryAt, reachedFiles, visit, neighbours, firstOccurrences, isRelevant, Dependency.importOn,
      List.mergeSort, before]
  · intro h
    have hac : Leads dependencies "a" "c" := ⟨.importOn 2 "a" "c", by simp [dependencies], rfl, rfl, rfl⟩
    have hcd : Leads dependencies "c" "d" := ⟨.importOn 1 "c" "d", by simp [dependencies], rfl, rfl, rfl⟩
    exact absurd ((h "d").mpr ⟨2, Nat.le_refl 2, (Chain.start.next hac).next hcd⟩) (by decide)

/-- A flow as the search from its entry point finds it. -/
structure IsTraced (dependencies : List Dependency) (maxDepth : Nat) (flow : Flow) : Prop where
  nodup : flow.files.Nodup
  head : flow.files.head? = some flow.entryPoint
  /-- Any other file comes after one that leads to it, and is reached within the greatest depth. -/
  met : ∀ before file after, flow.files = before ++ file :: after → before ≠ [] →
    (∃ earlier ∈ before, Leads dependencies earlier file) ∧
      ∃ n ≤ maxDepth, Chain (Leads dependencies) flow.entryPoint n file
  increasing : (flow.steps.map (·.order)).Pairwise (· < ·)
  places : ∀ step ∈ flow.steps, 1 ≤ step.order ∧ flow.files[step.order - 1]? = some step.file
  finite : (reached dependencies flow.entryPoint).Finite
  /-- Where the greatest depth allows a chain of all files that are reached, these are the files of the flow, in
  pre-order. -/
  preorder : (reached dependencies flow.entryPoint).ncard - 1 ≤ maxDepth →
    (∀ file, file ∈ flow.files ↔ file ∈ reached dependencies flow.entryPoint) ∧
      ∃ next, (∀ file, InLineOrder dependencies file (next file)) ∧ DepthFirst next [] [flow.entryPoint] flow.files

theorem isTraced_of_mem_trace {flow : Flow} (h : flow ∈ trace profiles dependencies config) :
    IsTraced dependencies config.maxFlowDepth flow := by
  obtain ⟨start, -, hflow⟩ := List.mem_filterMap.mp h
  obtain ⟨hentry, hfiles, hsteps⟩ := of_startingAt? hflow
  obtain ⟨rows, hsearch, hvisit⟩ := exists_rows dependencies config.maxFlowDepth flow.entryPoint
  have hrows : flow.files = rows.map (·.1) := by
    rw [hfiles, ← hentry]
    exact hvisit _ (Nat.le_refl _)
  obtain ⟨tail, htail⟩ := exists_tail_rows hsearch
  obtain ⟨hincreasing, hplaces⟩ := placed_stepsFrom profiles dependencies 1 flow.files
  refine ⟨hrows ▸ nodup_rows hsearch, by rw [hrows, htail]; rfl, fun before file after hsplit hne => ?_,
    hsteps ▸ hincreasing, hsteps ▸ hplaces, finite_reached .., fun hfew => ?_⟩
  · have hfile : file ∈ flow.files := hsplit ▸ List.mem_append_right _ List.mem_cons_self
    rw [hrows] at hsplit hfile
    exact ⟨exists_earlier hsearch hsplit hne, within_of_mem_rows hsearch file hfile⟩
  · rw [hrows]
    have hle : (reached dependencies flow.entryPoint).ncard ≤ config.maxFlowDepth + 1 := by omega
    exact ⟨mem_rows_iff_of_few hsearch hle, _, inLineOrder_neighbours dependencies, depthFirst_of_few hsearch hle⟩

/-- Every flow is what a depth-first search with a greatest depth finds, and every such search ends. -/
theorem flows_follow_depth_first_search (profiles : List FileProfile) (dependencies : List Dependency)
    (config : AnalysisConfig) :
    (∀ flow ∈ trace profiles dependencies config, IsTraced dependencies config.maxFlowDepth flow) ∧
      ∀ entry maxDepth, ∃ rows, Search (neighbours dependencies) maxDepth 0 [] [entry] rows ∧
        ∀ fuel, dependencies.length + 2 ≤ fuel →
          visit (neighbours dependencies) maxDepth fuel 0 entry [] = rows.map (·.1) :=
  ⟨fun _ hflow => isTraced_of_mem_trace hflow, fun entry maxDepth => exists_rows dependencies maxDepth entry⟩

/-- Two files that import each other and a third one that both import: all are met, the nearer line first. -/
theorem flows_follow_depth_first_search_cycle :
    let dependencies := [Dependency.importOn 2 "a" "c", .importOn 1 "a" "b", .importOn 1 "b" "a", .importOn 2 "b" "c"]
    ∃ flow ∈ trace [entryAt "a"] dependencies { maxFlowDepth := 2 }, flow.files = ["a", "b", "c"] ∧
      ∀ file, file ∈ flow.files ↔ file ∈ reached dependencies "a" := by
  intro dependencies
  obtain ⟨hall, -⟩ := flows_follow_depth_first_search [entryAt "a"] dependencies { maxFlowDepth := 2 }
  have hfew : (reached dependencies "a").ncard - 1 ≤ 2 := by
    have hle := Set.ncard_le_ncard (reached_subset_ends dependencies "a")
    rw [Set.ncard_coe_finset] at hle
    have hends : (ends dependencies "a").card = 3 := by decide
    omega
  have htrace : (trace [entryAt "a"] dependencies { maxFlowDepth := 2 }).map (fun flow => (flow.entryPoint, flow.files)) =
      [("a", ["a", "b", "c"])] := by
    rw [map_files_trace]
    simp [dependencies, entryAt, reachedFiles, visit, neighbours, firstOccurrences, isRelevant, Dependency.importOn,
      List.mergeSort, before]
  obtain ⟨flow, hflow, heq⟩ := List.mem_map.mp (htrace ▸ List.mem_cons_self)
  obtain ⟨hentry, hfiles⟩ := Prod.mk.inj heq
  have hpreorder := (hall flow hflow).preorder
  rw [hentry] at hpreorder
  exact ⟨flow, hflow, hfiles, (hpreorder hfew).1⟩

end Flow

end CodeAtlas
