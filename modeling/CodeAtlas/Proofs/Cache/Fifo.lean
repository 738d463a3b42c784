/-
  A bounded cache behaves like a list of entries in the order of their insertion.

  `Fifo` is that list with the same four counters: keys are distinct, a lookup leaves the order alone, a new key pushes
  out the head of a full list, and inserting a present key moves it to the end without pushing anything out.  `toFifo`
  reads it off a cache; every operation commutes with it on caches in order (`toFifo_apply`), so that no run of
  operations tells the two apart (`replay_toFifo`).
-/
import CodeAtlas.Proofs.Cache.Order

namespace CodeAtlas

/-- A bounded list of entries, oldest first, each with its key, its value and the time of its insertion. -/
structure Fifo (K V : Type) where
  limit : Nat
  ttl : Option Nat
  items : List (K × V × Nat)
  hits : Nat
  misses : Nat
  evictions : Nat
  expirations : Nat

/-- An operation on a cache. -/
inductive CacheOp (K V : Type) where
  | get (key : K) (now : Nat)
  | put (key : K) (value : V) (now : Nat)
  | invalidate (key : K)
  | clear
  deriving Repr

/-- The answers to some operations one after the other, and the state after them. -/
def replay {σ K V : Type} (apply : σ → CacheOp K V → Option V × σ) : σ → List (CacheOp K V) → List (Option V) × σ
  | s, [] => ([], s)
  | s, op :: ops =>
    let (answer, s) := apply s op
    let (answers, s) := replay apply s ops
    (answer :: answers, s)

namespace Fifo

variable {K V : Type} [DecidableEq K]

/-- The empty list; it has room for at least one entry. -/
def new (capacity : Nat) (ttl : Option Nat) : Fifo K V :=
  ⟨max capacity 1, ttl, [], 0, 0, 0, 0⟩

/-- How old an entry is; 0 if the clock went backwards. -/
def age (insertedAt now : Nat) : Nat :=
  if insertedAt ≤ now then now - insertedAt else 0

/-- Whether an entry has reached the end of its lifetime. -/
def isOver (f : Fifo K V) (insertedAt now : Nat) : Bool :=
  match f.ttl with
  | some ttl => decide (ttl ≤ age insertedAt now)
  | none => false

/-- The entries without that of a key. -/
def drop (key : K) (items : List (K × V × Nat)) : List (K × V × Nat) :=
  items.filter fun i => i.1 ≠ key

/-- Whether a key has an entry. -/
def contains (f : Fifo K V) (key : K) : Bool :=
  decide (key ∈ f.items.map (·.1))

/-- The statistics. -/
def stats (f : Fifo K V) : CacheStats :=
  ⟨f.hits, f.misses, f.items.length, f.evictions, f.expirations⟩

/-- A lookup. -/
def get (f : Fifo K V) (key : K) (now : Nat) : Option V × Fifo K V :=
  match f.items.find? fun i => i.1 = key with
  | none => (none, { f with misses := f.misses + 1 })
  | some (_, value, insertedAt) =>
    if f.isOver insertedAt now then
      (none, { f with items := drop key f.items, expirations := f.expirations + 1, misses := f.misses + 1 })
    else (some value, { f with hits := f.hits + 1 })

/-- An insertion. -/
def put (f : Fifo K V) (key : K) (value : V) (now : Nat) : Fifo K V :=
  if f.contains key then { f with items := drop key f.items ++ [(key, value, now)] }
  else if f.limit ≤ f.items.length then
    { f with items := f.items.tail ++ [(key, value, now)], evictions := f.evictions + 1 }
  else { f with items := f.items ++ [(key, value, now)] }

/-- The answer of an operation, if it is a lookup that finds something, and the list after it. -/
def apply (f : Fifo K V) : CacheOp K V → Option V × Fifo K V
  | .get key now => f.get key now
  | .put key value now => (none, f.put key value now)
  | .invalidate key => (none, { f with items := drop key f.items })
  | .clear => (none, { f with items := [], hits := 0, misses := 0, evictions := 0, expirations := 0 })

theorem limit_apply (f : Fifo K V) (op : CacheOp K V) : (f.apply op).2.limit = f.limit := by
  cases op with
  | get key now =>
    show (f.get key now).2.limit = f.limit
    unfold get
    split
    · rfl
    · split <;> rfl
  | put key value now =>
    show (f.put key value now).limit = f.limit
    unfold put
    split
    · rfl
    · split <;> rfl
  | invalidate key => rfl
  | clear => rfl

theorem limit_replay (f : Fifo K V) (ops : List (CacheOp K V)) : (replay apply f ops).2.limit = f.limit := by
  induction ops generalizing f with
  | nil => rfl
  | cons op ops ih => exact (ih (f.apply op).2).trans (limit_apply f op)

end Fifo

namespace Cache

variable {K V : Type}

/-- An entry without its number. -/
def item (e : K × CacheEntry V) : K × V × Nat :=
  (e.1, e.2.value, e.2.insertedAt)

/-- The entries of a cache as a list in the order of their insertion. -/
def toFifo (c : Cache K V) : Fifo K V :=
  ⟨c.capacity, c.ttl, c.entries.map item, c.hits, c.misses, c.evictions, c.expirations⟩

/-! ## What can be seen -/

theorem stats_toFifo (c : Cache K V) : c.toFifo.stats = c.stats := by
  simp [Fifo.stats, toFifo, stats, size]

theorem keys_toFifo (c : Cache K V) : c.toFifo.items.map (·.1) = c.entries.map (·.1) := by
  simp [toFifo, item, Function.comp_def]

theorem isOver_toFifo (c : Cache K V) (e : CacheEntry V) (now : Nat) :
    c.toFifo.isOver e.insertedAt now = c.isExpired e now := by
  have hage : Fifo.age e.insertedAt now = now - e.insertedAt := by
    unfold Fifo.age
    split <;> omega
  unfold Fifo.isOver isExpired toFifo
  cases c.ttl with
  | none => rfl
  | some ttl => simp [hage]

variable [DecidableEq K]

theorem contains_toFifo (c : Cache K V) (key : K) : c.toFifo.contains key = c.contains key := by
  rw [Bool.eq_iff_iff, contains_iff, Fifo.contains, decide_eq_true_iff, keys_toFifo]

theorem drop_map_item (key : K) (entries : List (K × CacheEntry V)) :
    Fifo.drop key (entries.map item) = (without key entries).map item := by
  unfold Fifo.drop without
  rw [List.filter_map]
  congr 1
  refine List.filter_congr fun e _ => ?_
  by_cases hk : e.1 = key <;> simp [item, hk]

/-! ## One operation -/

/-- The answer of an operation, if it is a lookup that finds something, and the cache after it. -/
def apply (c : Cache K V) : CacheOp K V → Option V × Cache K V
  | .get key now => c.get key now
  | .put key value now => (none, c.put key value now)
  | .invalidate key => (none, c.invalidate key)
  | .clear => (none, c.clear)

theorem toFifo_get (c : Cache K V) (key : K) (now : Nat) :
    c.toFifo.get key now = ((c.get key now).1, (c.get key now).2.toFifo) := by
  have hfind : (c.toFifo.items.find? fun i => decide (i.1 = key)) =
      (c.entries.find? fun e => e.1 == key).map item := by
    show ((c.entries.map item).find? _) = _
    rw [List.find?_map]
    rfl
  unfold Fifo.get get stored?
  rw [hfind]
  cases c.entries.find? fun e => e.1 == key with
  | none => rfl
  | some e =>
    simp only [Option.map_some, item, isOver_toFifo]
    split
    · simp only [toFifo, drop_map_item]
    · rfl

theorem ordered_get {c : Cache K V} (h : Ordered c) (key : K) (now : Nat) : Ordered (c.get key now).2 := by
  unfold get
  split
  · exact ⟨h.capacity_pos, h.bounded, h.keys, h.numbered, h.live⟩
  · split
    · exact h.remove key _ _ _
    · exact ⟨h.capacity_pos, h.bounded, h.keys, h.numbered, h.live⟩

theorem toFifo_insert (c : Cache K V) (key : K) (value : V) (now : Nat) :
    (c.insert key value now).toFifo =
      { c.toFifo with items := Fifo.drop key c.toFifo.items ++ [(key, value, now)] } := by
  unfold toFifo
  rw [entries_insert, drop_map_item, List.map_append]
  rfl

theorem toFifo_sweep (c : Cache K V) : c.sweep.toFifo = c.toFifo := by
  unfold sweep
  split
  · rfl
  · rfl

theorem put_of_contains {c : Cache K V} {key : K} (hin : c.contains key = true) (value : V) (now : Nat) :
    c.put key value now = (c.insert key value now).sweep := by
  rw [put, if_pos hin]

theorem put_of_not_contains {c : Cache K V} {key : K} (hout : ¬ c.contains key = true) (value : V) (now : Nat) :
    c.put key value now = ((makeRoom c.size c).insert key value now).sweep := by
  rw [put, if_neg hout]

/-- An insertion keeps the queue in order and does to the list what an insertion does there. -/
theorem put_spec {c : Cache K V} (h : Ordered c) (key : K) (value : V) (now : Nat) :
    Ordered (c.put key value now) ∧ (c.put key value now).toFifo = c.toFifo.put key value now := by
  have hsize : c.toFifo.items.length = c.size := List.length_map ..
  have hlimit : c.toFifo.limit = c.capacity := rfl
  by_cases hin : c.contains key = true
  · rw [put_of_contains hin]
    refine ⟨(h.insert key value now (Or.inl hin)).sweep, ?_⟩
    rw [toFifo_sweep, toFifo_insert, Fifo.put, contains_toFifo, if_pos hin]
  · rw [put_of_not_contains hin]
    have habsent : key ∉ c.entries.map (·.1) := fun hmem => hin (contains_iff.mpr hmem)
    by_cases hfull : c.capacity ≤ c.size
    · obtain ⟨e, entries, order, hc, hroom, hordered⟩ := makeRoom_of_full h hfull
      have hkey : key ∉ entries.map (·.1) := by
        rw [hc] at habsent
        exact fun hmem => habsent (List.mem_cons_of_mem _ hmem)
      rw [hroom]
      refine ⟨(hordered.insert key value now (Or.inr ?_)).sweep, ?_⟩
      · have hlen : c.size = entries.length + 1 := congrArg List.length hc
        have hbound := h.bounded
        show entries.length < c.capacity
        omega
      · rw [toFifo_sweep, toFifo_insert, Fifo.put, contains_toFifo, if_neg hin, hlimit, hsize, if_pos hfull]
        simp only [toFifo, drop_map_item, without_eq_self hkey, hc, List.map_cons, List.tail_cons]
    · rw [makeRoom_of_lt (by omega)]
      refine ⟨(h.insert key value now (Or.inr (by omega))).sweep, ?_⟩
      rw [toFifo_sweep, toFifo_insert, Fifo.put, contains_toFifo, if_neg hin, hlimit, hsize, if_neg hfull]
      simp only [toFifo, drop_map_item, without_eq_self habsent]

theorem ordered_clear {c : Cache K V} (h : Ordered c) : Ordered c.clear :=
  ⟨h.capacity_pos, Nat.zero_le _, List.nodup_nil, fun _ ho => absurd ho List.not_mem_nil, rfl⟩

/-- Every operation keeps the queue in order. -/
theorem ordered_apply {c : Cache K V} (h : Ordered c) (op : CacheOp K V) : Ordered (c.apply op).2 := by
  cases op with
  | get key now => exact ordered_get h key now
  | put key value now => exact (put_spec h key value now).1
  | invalidate key => exact h.remove key _ _ _
  | clear => exact ordered_clear h

/-- Every operation gives the answer of the list and leaves the cache with the list after it. -/
theorem toFifo_apply {c : Cache K V} (h : Ordered c) (op : CacheOp K V) :
    c.toFifo.apply op = ((c.apply op).1, (c.apply op).2.toFifo) := by
  cases op with
  | get key now => exact toFifo_get c key now
  | put key value now => exact congrArg (Prod.mk none) (put_spec h key value now).2.symm
  | invalidate key =>
    simp only [Fifo.apply, apply, invalidate, toFifo, drop_map_item]
  | clear => rfl

/-! ## Runs -/

/-- A run of operations on a cache in order is the run of them on its list. -/
theorem replay_toFifo {c : Cache K V} (h : Ordered c) (ops : List (CacheOp K V)) :
    Ordered (replay apply c ops).2 ∧
      replay Fifo.apply c.toFifo ops = ((replay apply c ops).1, (replay apply c ops).2.toFifo) := by
  induction ops generalizing c with
  | nil => exact ⟨h, rfl⟩
  | cons op ops ih =>
    obtain ⟨hordered, hrun⟩ := ih (ordered_apply h op)
    refine ⟨hordered, ?_⟩
    simp only [replay, toFifo_apply h op, hrun]

/-- After every run of operations on a new cache, lookups have given the answers of the list, and keys, size and
statistics are those of the list, whose keys are distinct and whose length is bounded. -/
theorem replay_new_eq_fifo (capacity : Nat) (ttl : Option Nat) (ops : List (CacheOp K V)) :
    let cache := replay apply (new capacity ttl : Cache K V) ops
    let fifo := replay Fifo.apply (Fifo.new capacity ttl : Fifo K V) ops
    cache.1 = fifo.1 ∧
    (∀ key, cache.2.contains key = fifo.2.contains key) ∧
    cache.2.size = fifo.2.items.length ∧
    cache.2.stats = fifo.2.stats ∧
    (fifo.2.items.map (·.1)).Nodup ∧
    fifo.2.items.length ≤ max capacity 1 := by
  intro cache fifo
  obtain ⟨hordered, hrun⟩ := replay_toFifo (ordered_new capacity ttl : Ordered (new capacity ttl : Cache K V)) ops
  have hanswers : fifo.1 = cache.1 := congrArg Prod.fst hrun
  have hfifo : fifo.2 = cache.2.toFifo := congrArg Prod.snd hrun
  have hsize : cache.2.toFifo.items.length = cache.2.size := List.length_map ..
  have hcapacity : cache.2.toFifo.limit = max capacity 1 := by
    rw [← hfifo]
    exact Fifo.limit_replay _ ops
  refine ⟨hanswers.symm, ?_, ?_, ?_, ?_, ?_⟩
  · intro key
    rw [hfifo, contains_toFifo]
  · rw [hfifo, hsize]
  · rw [hfifo, stats_toFifo]
  · rw [hfifo, keys_toFifo]
    exact hordered.keys
  · rw [hfifo, hsize, ← hcapacity]
    exact hordered.bounded

end Cache

end CodeAtlas
