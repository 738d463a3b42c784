/-
  The queue of a cache stays short and loses no key.

  Numbers grow along the queue, and so every insertion stands in it once; stale elements are swept out when there are more
  than there may be (`Queued`).  Every operation keeps this (`Queued.apply`), and with the live elements being the entries
  it says all about the queue that evictions and sweeps rely on (`queue_lists_entries`): room is always found, and a sweep
  leaves one element for each key.
-/
import CodeAtlas.Proofs.Cache.Fifo

namespace CodeAtlas.Cache

variable {K V : Type} [DecidableEq K] {c : Cache K V}

/-- The queue between two operations: besides being in order, it is short, and its numbers grow. -/
structure Queued (c : Cache K V) : Prop extends Ordered c where
  short : c.order.length ≤ 2 * c.capacity
  increasing : c.order.Pairwise fun a b => a.2 < b.2

theorem queued_new (capacity : Nat) (ttl : Option Nat) : Queued (new capacity ttl : Cache K V) :=
  ⟨ordered_new capacity ttl, Nat.zero_le _, List.Pairwise.nil⟩

/-! ## Room for a key -/

/-- The cache in which a key can be inserted: a key without an entry first needs room. -/
def roomFor (c : Cache K V) (key : K) : Cache K V :=
  if c.contains key then c else makeRoom c.size c

theorem put_eq (c : Cache K V) (key : K) (value : V) (now : Nat) :
    c.put key value now = ((c.roomFor key).insert key value now).sweep := rfl

/-- Whenever there is an entry, one can be evicted. -/
theorem Ordered.exists_evictOldest? (h : Ordered c) (hsome : 0 < c.size) :
    ∃ c', c.evictOldest? = some c' ∧ Ordered c' ∧ c'.size + 1 = c.size := by
  obtain ⟨e, entries, hc⟩ := List.exists_cons_of_length_pos hsome
  obtain ⟨order, hevict, hordered⟩ := evictOldest?_eq h hc
  refine ⟨_, hevict, hordered, ?_⟩
  show entries.length + 1 = c.entries.length
  rw [hc, List.length_cons]

theorem evictOldest?_keeps {c' : Cache K V} (h : c.evictOldest? = some c') :
    c'.order.Sublist c.order ∧ c'.capacity = c.capacity ∧ c'.nextSeq = c.nextSeq := by
  unfold evictOldest? at h
  split at h
  · cases h
  · rename_i key seq rest hdrop
    have hsub : rest.Sublist c.order := by
      have hsuffix := List.dropWhile_sublist (fun o => !isLive c.entries o) (l := c.order)
      rw [hdrop] at hsuffix
      exact (List.sublist_cons_self _ _).trans hsuffix
    cases h
    exact ⟨hsub, rfl, rfl⟩

/-- Making room takes elements out of the queue and gives no number. -/
theorem makeRoom_keeps (fuel : Nat) (c : Cache K V) :
    (makeRoom fuel c).order.Sublist c.order ∧ (makeRoom fuel c).capacity = c.capacity ∧
      (makeRoom fuel c).nextSeq = c.nextSeq := by
  induction fuel generalizing c with
  | zero => exact ⟨List.Sublist.refl _, rfl, rfl⟩
  | succ fuel ih =>
    unfold makeRoom
    split
    · exact ⟨List.Sublist.refl _, rfl, rfl⟩
    · cases hevict : c.evictOldest? with
      | none => exact ⟨List.Sublist.refl _, rfl, rfl⟩
      | some c' =>
        obtain ⟨hsub, hcapacity, hnext⟩ := evictOldest?_keeps hevict
        obtain ⟨hsub', hcapacity', hnext'⟩ := ih c'
        exact ⟨hsub'.trans hsub, hcapacity'.trans hcapacity, hnext'.trans hnext⟩

theorem roomFor_keeps (c : Cache K V) (key : K) :
    (c.roomFor key).order.Sublist c.order ∧ (c.roomFor key).capacity = c.capacity ∧
      (c.roomFor key).nextSeq = c.nextSeq := by
  unfold roomFor
  split
  · exact ⟨List.Sublist.refl _, rfl, rfl⟩
  · exact makeRoom_keeps c.size c

/-- The queue stays in order in each round of making room. -/
theorem Ordered.makeRoom (h : Ordered c) (fuel : Nat) : Ordered (makeRoom fuel c) := by
  induction fuel generalizing c with
  | zero => exact h
  | succ fuel ih =>
    have hpos := h.capacity_pos
    unfold Cache.makeRoom
    split
    · exact h
    · obtain ⟨c', hevict, hordered, -⟩ := h.exists_evictOldest? (by omega)
      rw [hevict]
      exact ih hordered

/-- In the end there is room. -/
theorem Ordered.size_makeRoom (h : Ordered c) : (Cache.makeRoom c.size c).size < c.capacity := by
  by_cases hfull : c.capacity ≤ c.size
  · obtain ⟨e, entries, order, hc, hroom, -⟩ := makeRoom_of_full h hfull
    have hbound := h.bounded
    have hlength : c.size = entries.length + 1 := congrArg List.length hc
    rw [hroom]
    show entries.length < c.capacity
    omega
  · rw [makeRoom_of_lt (by omega)]
    omega

/-- The queue stays in order when a key is inserted for which room has been made. -/
theorem Ordered.insert_roomFor (h : Ordered c) (key : K) (value : V) (now : Nat) :
    Ordered ((c.roomFor key).insert key value now) := by
  unfold roomFor
  split
  · rename_i hin
    exact h.insert key value now (Or.inl hin)
  · have hroom := h.size_makeRoom
    rw [← (makeRoom_keeps c.size c).2.1] at hroom
    exact (h.makeRoom c.size).insert key value now (Or.inr hroom)

/-! ## Sweeps -/

/-- A sweep leaves the elements that entries were inserted with. -/
theorem Ordered.order_compact (h : Ordered c) : c.compact.order = c.entries.map tag :=
  h.live

/-- A sweep leaves one element for each key that has an entry, and none for others. -/
theorem Ordered.count_compact (h : Ordered c) (key : K) :
    (c.compact.order.map (·.1)).count key = if c.contains key then 1 else 0 := by
  have hkeys : c.compact.order.map (·.1) = c.entries.map (·.1) := by
    rw [h.order_compact, List.map_map]
    rfl
  rw [hkeys, h.keys.count]
  by_cases hin : c.contains key = true
  · rw [if_pos (contains_iff.mp hin), if_pos hin]
  · rw [if_neg fun hmem => hin (contains_iff.mpr hmem), if_neg hin]

/-- After a sweep, if one is due, the queue is short. -/
theorem Ordered.short_sweep (h : Ordered c) : c.sweep.order.length ≤ 2 * c.sweep.capacity := by
  unfold Cache.sweep
  split
  · have hlength : c.compact.order.length = c.size := by
      rw [h.order_compact, List.length_map]
      rfl
    have hbound := h.bounded
    show c.compact.order.length ≤ 2 * c.capacity
    omega
  · omega

theorem sweep_sublist (c : Cache K V) : c.sweep.order.Sublist c.order := by
  unfold sweep
  split
  · exact List.filter_sublist
  · exact List.Sublist.refl _

/-! ## One operation -/

/-- A new insertion has a greater number than all before. -/
theorem increasing_insert (hnumbered : ∀ o ∈ c.order, o.2 < c.nextSeq)
    (hincreasing : c.order.Pairwise fun a b => a.2 < b.2) (key : K) (value : V) (now : Nat) :
    (c.insert key value now).order.Pairwise fun a b => a.2 < b.2 := by
  rw [order_insert, List.pairwise_append]
  refine ⟨hincreasing, List.pairwise_singleton _ _, ?_⟩
  intro a ha b hb
  rw [List.mem_singleton.mp hb]
  exact hnumbered a ha

theorem Queued.put (h : Queued c) (key : K) (value : V) (now : Nat) : Queued (c.put key value now) := by
  have hfilled := h.toOrdered.insert_roomFor key value now
  obtain ⟨hsub, -, hnext⟩ := c.roomFor_keeps key
  have hnumbered : ∀ o ∈ (c.roomFor key).order, o.2 < (c.roomFor key).nextSeq := by
    intro o ho
    rw [hnext]
    exact h.numbered o (hsub.subset ho)
  have hincreasing := increasing_insert hnumbered (h.increasing.sublist hsub) key value now
  rw [put_eq]
  exact ⟨hfilled.sweep, hfilled.short_sweep, hincreasing.sublist (sweep_sublist _)⟩

/-- Every operation keeps the queue short and its numbers growing. -/
theorem Queued.apply (h : Queued c) (op : CacheOp K V) : Queued (c.apply op).2 := by
  have hordered := ordered_apply h.toOrdered op
  cases op with
  | get key now =>
    have hsame : (c.get key now).2.order = c.order ∧ (c.get key now).2.capacity = c.capacity := by
      unfold Cache.get
      split
      · exact ⟨rfl, rfl⟩
      · split <;> exact ⟨rfl, rfl⟩
    refine ⟨hordered, ?_, ?_⟩
    · show (c.get key now).2.order.length ≤ 2 * (c.get key now).2.capacity
      rw [hsame.1, hsame.2]
      exact h.short
    · show (c.get key now).2.order.Pairwise _
      rw [hsame.1]
      exact h.increasing
  | put key value now => exact h.put key value now
  | invalidate key => exact ⟨hordered, h.short, h.increasing⟩
  | clear => exact ⟨hordered, Nat.zero_le _, List.Pairwise.nil⟩

/-! ## Runs -/

theorem queued_replay (capacity : Nat) (ttl : Option Nat) (ops : List (CacheOp K V)) :
    Queued (replay apply (new capacity ttl : Cache K V) ops).2 := by
  have hrun (c : Cache K V) (h : Queued c) : Queued (replay apply c ops).2 := by
    induction ops generalizing c with
    | nil => exact h
    | cons op ops ih => exact ih (c.apply op).2 (h.apply op)
  exact hrun _ (queued_new capacity ttl)

/-- The element that an entry was inserted with stands in the queue once. -/
theorem Queued.count_tag (h : Queued c) {key : K} {e : CacheEntry V} (hstored : c.stored? key = some e) :
    c.order.count (key, e.seq) = 1 := by
  have hnodup : c.order.Nodup := h.increasing.imp fun {a b} hlt heq => Nat.ne_of_lt hlt (congrArg Prod.snd heq)
  have htag : (key, e.seq) ∈ c.entries.map tag := List.mem_map_of_mem (mem_of_stored? hstored)
  rw [← h.live] at htag
  exact List.count_eq_one_of_mem hnodup (List.mem_of_mem_filter htag)

/-- After every run of operations on a new cache the queue has at most twice as many elements as there may be entries, its
numbers grow and are below the next one, and each entry stands in it once with its number. So an entry can be evicted
whenever there is one; in each round of making room for a key an entry is evicted, until there is room; and a sweep,
also the one that an insertion may need, leaves one element for each key that has an entry, and none for others. -/
theorem queue_lists_entries (capacity : Nat) (ttl : Option Nat) (ops : List (CacheOp K V)) :
    let c := (replay apply (new capacity ttl : Cache K V) ops).2
    c.order.length ≤ 2 * max capacity 1 ∧
    (c.order.Pairwise fun a b => a.2 < b.2) ∧
    (∀ o ∈ c.order, o.2 < c.nextSeq) ∧
    (∀ key e, c.stored? key = some e → c.order.count (key, e.seq) = 1) ∧
    (0 < c.size → ∃ c', c.evictOldest? = some c' ∧ c'.size + 1 = c.size) ∧
    (∀ n, (makeRoom n c).capacity ≤ (makeRoom n c).size → ∃ c', (makeRoom n c).evictOldest? = some c') ∧
    (makeRoom c.size c).size < max capacity 1 ∧
    (∀ key, (c.compact.order.map (·.1)).count key = if c.contains key then 1 else 0) ∧
    ∀ key value now, let filled := (c.roomFor key).insert key value now
      c.put key value now = filled.sweep ∧
      ∀ key', (filled.compact.order.map (·.1)).count key' = if filled.contains key' then 1 else 0 := by
  intro c
  have h : Queued c := queued_replay capacity ttl ops
  have hcapacity : c.capacity = max capacity 1 := by
    have hlimit := Fifo.limit_replay (new capacity ttl : Cache K V).toFifo ops
    rw [(replay_toFifo (ordered_new capacity ttl) ops).2] at hlimit
    exact hlimit
  refine ⟨hcapacity ▸ h.short, h.increasing, h.numbered, fun key e => h.count_tag, ?_, ?_, ?_, h.toOrdered.count_compact, ?_⟩
  · intro hsome
    obtain ⟨c', hevict, -, hsize⟩ := h.toOrdered.exists_evictOldest? hsome
    exact ⟨c', hevict, hsize⟩
  · intro n hfull
    have hordered := h.toOrdered.makeRoom n
    have hpos := hordered.capacity_pos
    obtain ⟨c', hevict, -⟩ := hordered.exists_evictOldest? (by omega)
    exact ⟨c', hevict⟩
  · exact hcapacity ▸ h.toOrdered.size_makeRoom
  · intro key value now filled
    exact ⟨rfl, (h.toOrdered.insert_roomFor key value now).count_compact⟩

end CodeAtlas.Cache
