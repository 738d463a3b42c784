/-
  The statistics of a cache balance.

  Entries come in by insertions of keys without an entry, and leave by evictions, expirations and invalidations; a lookup
  is a hit or a miss.  `met` lists the operations of a run, each with the cache that it meets, and `sinceClear` those that
  the counters still tell of.  One operation changes both sides of every equation alike (`Balanced.apply`), and hence so
  does every run (`statistics_balance`).
-/
import CodeAtlas.Proofs.Cache.Refill
import Mathlib.Data.List.DropRight

namespace CodeAtlas

namespace Fifo

variable {K V : Type} [DecidableEq K] {f : Fifo K V} {key : K}

/-- An insertion is no lookup. -/
theorem lookups_put (f : Fifo K V) (key : K) (value : V) (now : Nat) :
    (f.put key value now).hits = f.hits ∧ (f.put key value now).misses = f.misses ∧
      (f.put key value now).expirations = f.expirations := by
  unfold put
  split
  · exact ⟨rfl, rfl, rfl⟩
  · split <;> exact ⟨rfl, rfl, rfl⟩

/-- Inserting a present key again changes neither how many entries there are nor how many were pushed out. -/
theorem put_of_contains (hkeys : (f.items.map (·.1)).Nodup) (hin : f.contains key = true) (value : V) (now : Nat) :
    (f.put key value now).items.length = f.items.length ∧ (f.put key value now).evictions = f.evictions := by
  have hlength := length_drop_of_mem hkeys (of_decide_eq_true hin)
  unfold put
  rw [if_pos hin]
  refine ⟨?_, rfl⟩
  rw [List.length_append, List.length_singleton]
  exact hlength

/-- Inserting a new key makes one entry more, of those that are there and those that were pushed out. -/
theorem put_of_not_contains (hlimit : 0 < f.limit) (hout : ¬ f.contains key = true) (value : V) (now : Nat) :
    (f.put key value now).items.length + (f.put key value now).evictions = f.items.length + f.evictions + 1 := by
  unfold put
  rw [if_neg hout]
  split
  · simp only [List.length_append, List.length_tail, List.length_singleton]
    omega
  · simp only [List.length_append, List.length_singleton]
    omega

end Fifo

namespace Cache

variable {K V : Type} [DecidableEq K] {c : Cache K V}

/-! ## What a run consists of -/

/-- The operations of a run, each with the cache that it meets. -/
def met (c : Cache K V) : List (CacheOp K V) → List (Cache K V × CacheOp K V)
  | [] => []
  | op :: ops => (c, op) :: met (c.apply op).2 ops

/-- Whether an operation clears the cache. -/
def isClear (m : Cache K V × CacheOp K V) : Bool :=
  match m.2 with
  | .clear => true
  | .get .. | .put .. | .invalidate _ => false

/-- Whether an operation is a lookup. -/
def isLookup (m : Cache K V × CacheOp K V) : Bool :=
  match m.2 with
  | .get .. => true
  | .put .. | .invalidate _ | .clear => false

/-- Whether an operation inserts a key that has no entry. -/
def isArrival (m : Cache K V × CacheOp K V) : Bool :=
  match m.2 with
  | .put key .. => !m.1.contains key
  | .get .. | .invalidate _ | .clear => false

/-- Whether an operation invalidates a key that has an entry. -/
def isWithdrawal (m : Cache K V × CacheOp K V) : Bool :=
  match m.2 with
  | .invalidate key => m.1.contains key
  | .get .. | .put .. | .clear => false

/-- The operations after the last one that clears the cache, or all of them. -/
def sinceClear (ms : List (Cache K V × CacheOp K V)) : List (Cache K V × CacheOp K V) :=
  ms.rtakeWhile fun m => !isClear m

theorem replay_concat (c : Cache K V) (ops : List (CacheOp K V)) (op : CacheOp K V) :
    (replay apply c (ops ++ [op])).2 = ((replay apply c ops).2.apply op).2 := by
  induction ops generalizing c with
  | nil => rfl
  | cons first ops ih => exact ih (c.apply first).2

theorem met_concat (c : Cache K V) (ops : List (CacheOp K V)) (op : CacheOp K V) :
    met c (ops ++ [op]) = met c ops ++ [((replay apply c ops).2, op)] := by
  induction ops generalizing c with
  | nil => rfl
  | cons first ops ih => exact congrArg ((c, first) :: ·) (ih (c.apply first).2)

omit [DecidableEq K] in
theorem sinceClear_concat_clear (ms : List (Cache K V × CacheOp K V)) (c : Cache K V) :
    sinceClear (ms ++ [(c, .clear)]) = [] :=
  List.rtakeWhile_concat_neg _ _ _ (by simp [isClear])

omit [DecidableEq K] in
theorem sinceClear_concat (ms : List (Cache K V × CacheOp K V)) {m : Cache K V × CacheOp K V} (h : isClear m = false) :
    sinceClear (ms ++ [m]) = sinceClear ms ++ [m] :=
  List.rtakeWhile_concat_pos _ _ _ (by simp [h])

/-! ## One operation -/

/-- An entry that goes leaves one entry less. -/
theorem Ordered.length_without (h : Ordered c) {key : K} (hin : c.contains key = true) :
    (without key c.entries).length + 1 = c.size := by
  have hkeys : (c.toFifo.items.map (·.1)).Nodup := (keys_toFifo c).symm ▸ h.keys
  have hmem : key ∈ c.toFifo.items.map (·.1) := (keys_toFifo c).symm ▸ contains_iff.mp hin
  have hlength := Fifo.length_drop_of_mem hkeys hmem
  simp only [toFifo, drop_map_item, List.length_map] at hlength
  exact hlength

theorem contains_of_stored? {key : K} {e : CacheEntry V} (h : c.stored? key = some e) : c.contains key = true :=
  contains_iff.mpr (List.mem_map_of_mem (mem_of_stored? h))

/-- What one operation does to the counters and to the number of entries. -/
structure Shifts (m : Cache K V × CacheOp K V) (c : Cache K V) : Prop where
  lookups : c.hits + c.misses = m.1.hits + m.1.misses + (isLookup m).toNat
  expired : c.expirations + m.1.misses ≤ m.1.expirations + c.misses
  entries : c.size + c.evictions + c.expirations + (isWithdrawal m).toNat =
    m.1.size + m.1.evictions + m.1.expirations + (isArrival m).toNat

/-- A lookup is a hit or a miss, and an entry that it removes has expired. -/
theorem Ordered.shifts_get (h : Ordered c) (key : K) (now : Nat) : Shifts (c, .get key now) (c.get key now).2 := by
  unfold Cache.get
  cases hstored : c.stored? key with
  | none => exact ⟨rfl, Nat.le_succ _, rfl⟩
  | some e =>
    have hsize := h.length_without (contains_of_stored? hstored)
    dsimp only
    split
    · refine ⟨rfl, ?_, ?_⟩
      · show c.expirations + 1 + c.misses ≤ c.expirations + (c.misses + 1)
        omega
      · show (without key c.entries).length + c.evictions + (c.expirations + 1) + 0 = c.size + c.evictions + c.expirations + 0
        omega
    · refine ⟨?_, Nat.le_refl _, rfl⟩
      show c.hits + 1 + c.misses = c.hits + c.misses + 1
      omega

/-- An insertion brings an entry if its key has none, and one entry may have to leave for it. -/
theorem Ordered.shifts_put (h : Ordered c) (key : K) (value : V) (now : Nat) :
    Shifts (c, .put key value now) (c.put key value now) := by
  have hput := (put_spec h key value now).2
  obtain ⟨hhits, hmisses, hexpirations⟩ := c.toFifo.lookups_put key value now
  rw [← hput] at hhits hmisses hexpirations
  refine ⟨?_, ?_, ?_⟩
  · show (c.put key value now).hits + (c.put key value now).misses = c.hits + c.misses
    exact congrArg₂ (· + ·) hhits hmisses
  · exact Nat.le_of_eq (congrArg₂ (· + ·) hexpirations hmisses.symm)
  · have hsize : (c.put key value now).toFifo.items.length = (c.put key value now).size := List.length_map _
    have hsize' : c.toFifo.items.length = c.size := List.length_map _
    have hkept : (c.put key value now).expirations = c.expirations := hexpirations
    show (c.put key value now).size + (c.put key value now).evictions + (c.put key value now).expirations + 0 =
      c.size + c.evictions + c.expirations + (!c.contains key).toNat
    by_cases hin : c.contains key = true
    · have hkeys : (c.toFifo.items.map (·.1)).Nodup := (keys_toFifo c).symm ▸ h.keys
      obtain ⟨hlength, hevictions⟩ := Fifo.put_of_contains hkeys ((contains_toFifo c key).trans hin) value now
      rw [← hput, hsize, hsize'] at hlength
      rw [← hput] at hevictions
      have hevictions' : (c.put key value now).evictions = c.evictions := hevictions
      rw [hlength, hevictions', hkept, hin]
      rfl
    · have hout : ¬ c.toFifo.contains key = true := by rwa [contains_toFifo]
      have hmore := Fifo.put_of_not_contains (f := c.toFifo) h.capacity_pos hout value now
      rw [← hput, hsize, hsize'] at hmore
      have hmore' : (c.put key value now).size + (c.put key value now).evictions = c.size + c.evictions + 1 := hmore
      have harrival : (!c.contains key).toNat = 1 := by simp [hin]
      omega

/-- An invalidation takes an entry away if its key has one. -/
theorem Ordered.shifts_invalidate (h : Ordered c) (key : K) : Shifts (c, .invalidate key) (c.invalidate key) := by
  refine ⟨rfl, Nat.le_refl _, ?_⟩
  show (without key c.entries).length + c.evictions + c.expirations + (c.contains key).toNat =
    c.size + c.evictions + c.expirations + 0
  by_cases hin : c.contains key = true
  · have hsize := h.length_without hin
    rw [hin]
    show (without key c.entries).length + c.evictions + c.expirations + 1 = _
    omega
  · have habsent : key ∉ c.entries.map (·.1) := fun hmem => hin (contains_iff.mpr hmem)
    rw [without_eq_self habsent, Bool.eq_false_iff.mpr hin]
    rfl

/-! ## Runs -/

/-- The counters and the entries tell of these operations. -/
structure Balanced (c : Cache K V) (recent : List (Cache K V × CacheOp K V)) : Prop where
  lookups : c.hits + c.misses = recent.countP isLookup
  expired : c.expirations ≤ c.misses
  entries : recent.countP isArrival = c.size + c.evictions + c.expirations + recent.countP isWithdrawal

theorem balanced_new (capacity : Nat) (ttl : Option Nat) : (new capacity ttl : Cache K V).Balanced [] :=
  ⟨rfl, Nat.le_refl _, rfl⟩

theorem balanced_clear (c : Cache K V) : c.clear.Balanced [] :=
  ⟨rfl, Nat.le_refl _, rfl⟩

/-- One operation more. -/
theorem Balanced.concat {recent : List (Cache K V × CacheOp K V)} {m : Cache K V × CacheOp K V}
    (h : m.1.Balanced recent) (hshifts : Shifts m c) : c.Balanced (recent ++ [m]) := by
  have hcount (p : Cache K V × CacheOp K V → Bool) : (recent ++ [m]).countP p = recent.countP p + (p m).toNat := by
    rw [List.countP_append, List.countP_singleton]
    cases p m <;> rfl
  have hlookups := h.lookups
  have hexpired := h.expired
  have hentries := h.entries
  obtain ⟨hlookups', hexpired', hentries'⟩ := hshifts
  exact ⟨by rw [hcount]; omega, by omega, by rw [hcount, hcount]; omega⟩

/-- Every operation keeps the balance of the operations since the last clear. -/
theorem Balanced.apply {ms : List (Cache K V × CacheOp K V)} (h : c.Balanced (sinceClear ms)) (hordered : Ordered c)
    (op : CacheOp K V) : (c.apply op).2.Balanced (sinceClear (ms ++ [(c, op)])) := by
  cases op with
  | get key now =>
    rw [sinceClear_concat ms rfl]
    exact h.concat (hordered.shifts_get key now)
  | put key value now =>
    rw [sinceClear_concat ms rfl]
    exact h.concat (hordered.shifts_put key value now)
  | invalidate key =>
    rw [sinceClear_concat ms rfl]
    exact h.concat (hordered.shifts_invalidate key)
  | clear =>
    rw [sinceClear_concat_clear]
    exact balanced_clear c

theorem balanced_replay (capacity : Nat) (ttl : Option Nat) (ops : List (CacheOp K V)) :
    (replay apply (new capacity ttl : Cache K V) ops).2.Balanced (sinceClear (met (new capacity ttl) ops)) := by
  induction ops using List.reverseRecOn with
  | nil => exact balanced_new capacity ttl
  | append_singleton ops op ih =>
    have hordered : Ordered (replay apply (new capacity ttl : Cache K V) ops).2 :=
      (replay_toFifo (ordered_new capacity ttl) ops).1
    rw [replay_concat, met_concat]
    exact ih.apply hordered op

/-- After every run of operations on a new cache, and counting from the last time that it was cleared: hits and misses are
the lookups, no more entries have expired than there are misses, and the keys that were inserted without an entry are the
entries that are there, that were evicted, that have expired, and that were invalidated. -/
theorem statistics_balance (capacity : Nat) (ttl : Option Nat) (ops : List (CacheOp K V)) :
    let c := (replay apply (new capacity ttl : Cache K V) ops).2
    let recent := sinceClear (met (new capacity ttl : Cache K V) ops)
    c.stats.hits + c.stats.misses = recent.countP isLookup ∧
    c.stats.expirations ≤ c.stats.misses ∧
    recent.countP isArrival =
      c.stats.size + c.stats.evictions + c.stats.expirations + recent.countP isWithdrawal := by
  intro c recent
  have hbalanced : c.Balanced recent := balanced_replay capacity ttl ops
  exact ⟨hbalanced.lookups, hbalanced.expired, hbalanced.entries⟩

/-- Of four keys that come in one is evicted, one expires, one is invalidated, and one is still there. -/
example :
    let ops : List (CacheOp Nat Nat) :=
      [.put 0 0 0, .clear, .put 1 0 0, .put 2 0 0, .put 3 0 1, .get 2 5, .invalidate 3, .put 4 0 5, .get 4 6]
    let c := (replay apply (new 2 (some 5) : Cache Nat Nat) ops).2
    let recent := sinceClear (met (new 2 (some 5) : Cache Nat Nat) ops)
    (c.hits, c.misses, c.evictions, c.expirations, c.size) = (1, 1, 1, 1, 1) ∧
      recent.countP isArrival = 4 ∧ recent.countP isWithdrawal = 1 := by
  decide

end Cache

end CodeAtlas
