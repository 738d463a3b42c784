/-
  Files scanned in batches come out as files scanned one by one.

  When each file has one outcome and no batch is given up, both ways yield the same results, the same errors up to their
  order, and the same figures.  The results are put into the cache in the order in which the batches end.  This does not
  show as long as files with the same key have the same result (`ScanStore.batches_agree_with_one_by_one`), and it does show
  otherwise (`ScanStore.later_lookup_depends_on_batches`).
-/
import CodeAtlas.Proofs.Cache.Refill
import CodeAtlas.Proofs.Scan.Outcome

namespace CodeAtlas

variable {σ α : Type}

namespace Cache

variable {K V : Type} [DecidableEq K]

/-- A cache that some operations lead to. -/
def Reached (c : Cache K V) : Prop :=
  ∃ capacity ttl ops, c = (replay apply (new capacity ttl) ops).2

theorem Reached.ordered {c : Cache K V} (h : c.Reached) : Ordered c := by
  obtain ⟨capacity, ttl, ops, rfl⟩ := h
  exact (replay_toFifo (ordered_new capacity ttl) ops).1

theorem mem_of_mem_get (c : Cache K V) (key : K) (now : Nat) : ∀ e ∈ (c.get key now).2.entries, e ∈ c.entries := by
  unfold get
  split
  · exact fun e he => he
  · split
    · exact fun e he => (mem_without.mp he).1
    · exact fun e he => he

/-- A key that was not found has no entry afterwards. -/
theorem notMem_of_get_eq_none {c : Cache K V} {key : K} {now : Nat} (h : (c.get key now).1 = none) :
    key ∉ (c.get key now).2.entries.map (·.1) := by
  unfold get at h ⊢
  cases hstored : c.stored? key with
  | none =>
    intro hmem
    obtain ⟨e, he, hkey⟩ := List.mem_map.mp hmem
    have hnone := List.find?_eq_none.mp (Option.map_eq_none_iff.mp hstored) e he
    exact hnone (by simpa using hkey)
  | some e =>
    rw [hstored] at h
    dsimp only at h ⊢
    split at h
    · rename_i hexpired
      rw [if_pos hexpired]
      intro hmem
      obtain ⟨e', he', hkey⟩ := List.mem_map.mp hmem
      exact (mem_without.mp he').2 hkey
    · cases h

theorem capacity_get (c : Cache K V) (key : K) (now : Nat) : (c.get key now).2.capacity = c.capacity := by
  unfold get
  split
  · rfl
  · split <;> rfl

end Cache

namespace Scan

/-! ## The cache between the lookups and the end -/

theorem mem_of_mem_lookup {cache : ResultCache α} {keys : List (String × String)} :
    ∀ e ∈ (lookup cache keys).2.entries, e ∈ cache.entries := by
  induction keys generalizing cache with
  | nil => exact fun e he => he
  | cons key keys ih => exact fun e he => cache.mem_of_mem_get key 0 e (ih e he)

theorem ordered_lookup {cache : ResultCache α} (h : cache.Ordered) (keys : List (String × String)) :
    (lookup cache keys).2.Ordered ∧ (lookup cache keys).2.capacity = cache.capacity := by
  induction keys generalizing cache with
  | nil => exact ⟨h, rfl⟩
  | cons key keys ih =>
    obtain ⟨hordered, hcapacity⟩ := ih (Cache.ordered_get h key 0)
    exact ⟨hordered, hcapacity.trans (cache.capacity_get key 0)⟩

/-- Files without a result have no entry after the lookups. -/
theorem absent_of_missing {cache : ResultCache α} {keys : List (String × String)} {i : Nat} {key : String × String}
    (hkey : keys[i]? = some key) (hslot : (lookup cache keys).1[i]? = some none) :
    key ∉ (lookup cache keys).2.entries.map (·.1) := by
  induction keys generalizing cache i with
  | nil => simp at hkey
  | cons first keys ih =>
    cases i with
    | zero =>
      cases hkey
      have hnone : (cache.get key 0).1 = none := Option.some.inj hslot
      intro hmem
      obtain ⟨e, he, hsame⟩ := List.mem_map.mp hmem
      exact Cache.notMem_of_get_eq_none hnone (List.mem_map.mpr ⟨e, mem_of_mem_lookup e he, hsame⟩)
    | succ i => exact ih hkey hslot

/-- The entry of a new result. -/
def entryAt? (keys : List (String × String)) (r : Nat × α) : Option ((String × String) × α) :=
  keys[r.1]?.map fun key => (key, r.2)

theorem store_eq (cache : ResultCache α) (keys : List (String × String)) (fresh : List (Nat × α)) :
    store cache keys.toArray fresh = cache.putAll 0 (fresh.filterMap (entryAt? keys)) := by
  induction fresh generalizing cache with
  | nil => rfl
  | cons r fresh ih =>
    cases hkey : keys[r.1]? with
    | none =>
      have hentry : entryAt? keys r = none := by simp [entryAt?, hkey]
      have hstep : store cache keys.toArray (r :: fresh) = store cache keys.toArray fresh := by simp [store, hkey]
      rw [hstep, ih, List.filterMap_cons_none hentry]
    | some key =>
      have hentry : entryAt? keys r = some (key, r.2) := by simp [entryAt?, hkey]
      have hstep : store cache keys.toArray (r :: fresh) = store (cache.put key r.2 0) keys.toArray fresh := by
        simp [store, hkey]
      rw [hstep, ih, List.filterMap_cons_some hentry]
      rfl

end Scan

namespace ScanStore

open Scan

/-- Files with one key that have a result have the same. -/
def OneResult (disk : Disk) (ideal : SourceFile → Except Failure α) (files : List SourceFile) : Prop :=
  ∀ f ∈ files, ∀ g ∈ files, keyOf disk f = keyOf disk g → ∀ a b, ideal f = .ok a → ideal g = .ok b → a = b

variable {disk : Disk} {ideal : SourceFile → Except Failure α} {files : List SourceFile} {s s' : ScanStore α}

theorem openSlots_eq (hcache : s'.cache = s.cache) (henable : s'.config.enableCache = s.config.enableCache)
    (disk : Disk) (files : List SourceFile) :
    (s'.openSlots disk files).1 = (s.openSlots disk files).1 ∧
      (s'.openSlots disk files).2.cache = (s.openSlots disk files).2.cache ∧
      (s'.openSlots disk files).2.config = s'.config ∧ (s.openSlots disk files).2.config = s.config := by
  unfold openSlots
  rw [hcache, henable]
  split
  · exact ⟨rfl, rfl, rfl, rfl⟩
  · exact ⟨rfl, hcache, rfl, rfl⟩

theorem openSlots_of_enabled (h : s.config.enableCache = true) (disk : Disk) (files : List SourceFile) :
    s.openSlots disk files = ((lookup s.cache (files.map (keyOf disk))).1,
      { s with cache := (lookup s.cache (files.map (keyOf disk))).2 }) := by
  rw [openSlots, if_pos h]

theorem cache_close (s : ScanStore α) (disk : Disk) (files : List SourceFile) (slots : List (Option α)) (tally : Tally α) :
    (s.close disk files slots tally).2.cache =
      if s.config.enableCache then store s.cache (files.map (keyOf disk)).toArray tally.fresh else s.cache := by
  unfold close
  split <;> rfl

/-- The new entries of files with one result for each key. -/
theorem oneValue_entries (hone : OneResult disk ideal files) {pending : List Nat} {fresh : List (Nat × α)}
    (hfresh : fresh.Perm (pending.filterMap (freshAt? ideal files))) :
    Fifo.OneValue (fresh.filterMap (entryAt? (files.map (keyOf disk)))) := by
  have hentry : ∀ n ∈ fresh.filterMap (entryAt? (files.map (keyOf disk))),
      ∃ file ∈ files, keyOf disk file = n.1 ∧ ideal file = .ok n.2 := by
    intro n hn
    obtain ⟨⟨i, a⟩, hmem, hentry⟩ := List.mem_filterMap.mp hn
    obtain ⟨key, hkey, rfl⟩ := Option.map_eq_some_iff.mp hentry
    rw [List.getElem?_map] at hkey
    obtain ⟨file, hfile, rfl⟩ := Option.map_eq_some_iff.mp hkey
    obtain ⟨j, _, hj⟩ := List.mem_filterMap.mp (hfresh.mem_iff.mp hmem)
    exact ⟨file, List.mem_of_getElem? hfile, rfl, (eq_of_freshAt? hj).2 file hfile⟩
  intro n hn m hm hkey
  obtain ⟨f, hf, hfkey, hfvalue⟩ := hentry n hn
  obtain ⟨g, hg, hgkey, hgvalue⟩ := hentry m hm
  exact hone f hf g hg (hfkey.trans (hkey.trans hgkey.symm)) n.2 m.2 hfvalue hgvalue

/-- The caches after two scans that have found the same results in another order. -/
theorem answers_store_perm {cache : ResultCache α} (h : cache.Ordered) (hone : OneResult disk ideal files)
    {fresh fresh' : List (Nat × α)}
    (hfresh : fresh.Perm
      ((missing (lookup cache (files.map (keyOf disk))).1).filterMap (freshAt? ideal files)))
    (hperm : fresh.Perm fresh') (hroom : fresh.length ≤ cache.capacity) (lookups : List ((String × String) × Nat)) :
    (store (lookup cache (files.map (keyOf disk))).2 (files.map (keyOf disk)).toArray fresh).answers lookups =
      (store (lookup cache (files.map (keyOf disk))).2 (files.map (keyOf disk)).toArray fresh').answers lookups := by
  obtain ⟨hordered, hcapacity⟩ := ordered_lookup h (files.map (keyOf disk))
  rw [store_eq, store_eq]
  refine Cache.answers_putAll_perm hordered 0 (fun n hn => ?_) (oneValue_entries hone hfresh) ?_ (hperm.filterMap _) lookups
  · obtain ⟨⟨i, a⟩, hmem, hentry⟩ := List.mem_filterMap.mp hn
    obtain ⟨key, hkey, rfl⟩ := Option.map_eq_some_iff.mp hentry
    obtain ⟨j, hj, hfreshAt⟩ := List.mem_filterMap.mp (hfresh.mem_iff.mp hmem)
    obtain ⟨rfl, -⟩ := eq_of_freshAt? hfreshAt
    exact absent_of_missing hkey (mem_missing.mp hj)
  · rw [hcapacity]
    exact Nat.le_trans (List.length_filterMap_le _ _) hroom

/-- Let every file have one outcome. Files that are scanned in batches, under any schedule that is taken to its end and
gives no batch up, have the results of files that are scanned one by one, the same errors up to their order, and the same
figures. If there is room for all new results, and files with the same key have the same result, then both caches answer
all later lookups alike. -/
theorem batches_agree_with_one_by_one (hcache : s'.cache = s.cache)
    (henable : s'.config.enableCache = s.config.enableCache) (hmode : s.modeFor files.length = .sequential)
    {scan : Scanner σ α} (hpure : ∀ file ∈ files, ∀ t, (scan file t).1 = .ofOutcome (ideal file)) (workers workers' : Nat)
    (schedule schedule' : List Choice) (shared shared' : σ)
    (horderly : s'.Orderly disk scan workers' schedule' files shared') :
    let one := s.scanOn disk scan workers (fun pool => pool.run scan schedule) files shared
    let many := s'.scanOn disk scan workers' (fun pool => pool.run scan schedule') files shared'
    many.1.results = one.1.results ∧ many.1.errors.Perm one.1.errors ∧
    many.1.stats.scanned = one.1.stats.scanned ∧ many.1.stats.cached = one.1.stats.cached ∧
    many.1.stats.failed = one.1.stats.failed ∧
    (s.cache.Reached → many.1.stats.scanned ≤ s.cache.capacity → OneResult disk ideal files →
      ∀ lookups, many.2.1.cache.answers lookups = one.2.1.cache.answers lookups) := by
  intro one many
  have hscan : Steady scan ideal { file | file ∈ files } fun _ => True :=
    fun file hfile t _ => ⟨hpure file hfile t, trivial⟩
  obtain ⟨hslots, hopened, hconfig', hconfig⟩ := openSlots_eq hcache henable disk files
  generalize htally : (s.openSlots disk files).2.tallyOn scan workers (fun pool => pool.run scan schedule) files
    (s.openSlots disk files).1 shared = tallied
  generalize htally' : (s'.openSlots disk files).2.tallyOn scan workers' (fun pool => pool.run scan schedule') files
    (s'.openSlots disk files).1 shared' = tallied'
  obtain ⟨hfresh, herrors, -, -⟩ := tallyOn_tallies hscan (fun _ h => h) (s.length_openSlots disk files) workers schedule
    trivial (fun h => by rw [modeFor_openSlots, hmode] at h; cases h) htally
  obtain ⟨hfresh', herrors', -, -⟩ := tallyOn_tallies hscan (fun _ h => h) (s'.length_openSlots disk files) workers'
    schedule' trivial (fun h => horderly (by rwa [modeFor_openSlots] at h)) htally'
  rw [hslots] at hfresh' herrors'
  have hperm : tallied'.1.fresh.Perm tallied.1.fresh := hfresh'.trans hfresh.symm
  have hperrors : tallied'.1.errors.Perm tallied.1.errors := herrors'.trans herrors.symm
  have hone : one = _ := scanOn_eq htally
  have hmany : many = _ := scanOn_eq htally'
  rw [hone, hmany, hslots]
  refine ⟨?_, hperrors, hperm.length_eq, rfl, hperrors.length_eq, fun hreached hroom hresult lookups => ?_⟩
  · show (fill _ tallied'.1.fresh).filterMap id = (fill _ tallied.1.fresh).filterMap id
    rw [freshAt?_eq] at hfresh hfresh'
    rw [fill_eq hfresh, fill_eq hfresh']
  · dsimp only
    rw [cache_close, cache_close, hconfig, hconfig', henable, hopened]
    cases henabled : s.config.enableCache with
    | false => rfl
    | true =>
      rw [openSlots_of_enabled henabled] at hfresh' ⊢
      exact answers_store_perm hreached.ordered hresult hfresh' hperm hroom lookups

/-- Of three files one fails and two have results, for which an older one has to leave the cache; the last batch ends
first. -/
theorem batches_agree_with_one_by_one_refilled :
    let file (path : String) (flag : Bool) : SourceFile := ⟨path, none, flag, none, none, none⟩
    let files := [file "a.js" false, file "b.js" true, file "c.js" false]
    let ideal : SourceFile → Except Failure String :=
      fun f => if f.entryPoint then .error (.notFound f.path) else .ok f.path
    let scan : Scanner Unit String := fun f t => (.ofOutcome (ideal f), t)
    let cache : ResultCache String := (Cache.new 2 none).put ("old.js", "missing") "old.js" 0
    let s : ScanStore String := ⟨{}, cache⟩
    let s' : ScanStore String := ⟨{ parallelThreshold := 1, batchSize := 1 }, cache⟩
    let schedule : List Choice := [.work 0, .work 0] ++ List.replicate 10 (.work 1) ++ List.replicate 3 (.work 0) ++
      List.replicate 9 .deliver
    let one := s.scanOn .empty scan 1 (fun pool => pool.run scan []) files ()
    let many := s'.scanOn .empty scan 2 (fun pool => pool.run scan schedule) files ()
    s'.modeFor files.length = .parallel ∧ many.1.results = ["a.js", "c.js"] ∧ many.1.results = one.1.results ∧
      ∀ lookups, many.2.1.cache.answers lookups = one.2.1.cache.answers lookups := by
  intro file files ideal scan cache s s' schedule one many
  have hmode : s.modeFor files.length = .sequential := by decide +kernel
  have horderly : s'.Orderly .empty scan 2 schedule files () := fun _ => ⟨by decide +kernel, by decide +kernel⟩
  have hcache : s'.cache = s.cache := rfl
  have hpure : ∀ f ∈ files, ∀ t, (scan f t).1 = .ofOutcome (ideal f) := fun _ _ _ => rfl
  have hvalue : ∀ f a, ideal f = .ok a → a = f.path := by
    intro f a h
    by_cases hflag : f.entryPoint = true
    · rw [show ideal f = .error (.notFound f.path) from if_pos hflag] at h
      cases h
    · rw [show ideal f = .ok f.path from if_neg hflag] at h
      exact (Except.ok.inj h).symm
  have hone : OneResult .empty ideal files := by
    intro f _ g _ hkey a b ha hb
    rw [hvalue f a ha, hvalue g b hb]
    exact congrArg Prod.fst hkey
  obtain ⟨hresults, -, -, -, -, hlookups⟩ := batches_agree_with_one_by_one hcache rfl hmode hpure 1 2 [] schedule () ()
    horderly
  have hroom : many.1.stats.scanned ≤ s.cache.capacity := by decide +kernel
  have hreached : s.cache.Reached := ⟨2, none, [.put ("old.js", "missing") "old.js" 0], rfl⟩
  exact ⟨by decide +kernel, by decide +kernel, hresults, hlookups hreached hroom hone⟩

/-- Two files with the same path and content, but different marks, have one key. With a batch for each, the first file is
finished last, and the cache answers with its result; one by one, with that of the second. -/
theorem later_lookup_depends_on_batches :
    let file (flag : Bool) : SourceFile := ⟨"a.js", some "", flag, none, none, none⟩
    let files := [file false, file true]
    let scan : Scanner Unit Bool := fun f t => (.value f.entryPoint, t)
    let s : ScanStore Bool := .new {} {}
    let s' : ScanStore Bool := .new { parallelThreshold := 1, batchSize := 1 } {}
    let schedule : List Choice := [.work 0, .work 0] ++ List.replicate 5 (.work 1) ++ List.replicate 3 (.work 0) ++
      List.replicate 6 .deliver
    let one := s.scanOn .empty scan 1 (fun pool => pool.run scan []) files ()
    let many := s'.scanOn .empty scan 2 (fun pool => pool.run scan schedule) files ()
    s.modeFor files.length = .sequential ∧ s'.modeFor files.length = .parallel ∧
      s'.Orderly .empty scan 2 schedule files () ∧ many.1.stats.scanned ≤ s.cache.capacity ∧
      one.2.1.cache.answers [(keyOf .empty (file false), 0)] = [some true] ∧
      many.2.1.cache.answers [(keyOf .empty (file false), 0)] = [some false] := by
  intro file files scan s s' schedule one many
  refine ⟨by decide +kernel, by decide +kernel, fun _ => ⟨by decide +kernel, by decide +kernel⟩, by decide +kernel, ?_, ?_⟩
  · decide +kernel
  · decide +kernel

end ScanStore

end CodeAtlas
