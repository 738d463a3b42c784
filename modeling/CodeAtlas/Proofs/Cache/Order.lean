/-
  The queue of a cache and its entries.

  The live elements of the queue are the entries, in the same order (`Ordered`).  Every operation keeps this: an entry
  that goes makes exactly its own element stale, and a new insertion has a number that no element carries yet.  Hence the
  first live element is the oldest entry, and an eviction removes just that (`evictOldest?_eq`).

  Whatever is true of all values when they are put in stays true of all entries (`Holds`).
-/
import CodeAtlas.Cache
import Mathlib.Data.List.Nodup

namespace CodeAtlas.Cache

variable {K V : Type} [DecidableEq K]

/-- The element of the queue that an entry was inserted with. -/
def tag (e : K × CacheEntry V) : K × Nat :=
  (e.1, e.2.seq)

/-- The state of the queue between two operations. -/
structure Ordered (c : Cache K V) : Prop where
  capacity_pos : 0 < c.capacity
  bounded : c.size ≤ c.capacity
  keys : (c.entries.map (·.1)).Nodup
  /-- Numbers are given once. -/
  numbered : ∀ o ∈ c.order, o.2 < c.nextSeq
  /-- The live elements of the queue are the entries. -/
  live : c.order.filter (isLive c.entries) = c.entries.map tag

theorem ordered_new (capacity : Nat) (ttl : Option Nat) : Ordered (new capacity ttl : Cache K V) := by
  refine ⟨?_, Nat.zero_le _, List.nodup_nil, fun o ho => absurd ho List.not_mem_nil, rfl⟩
  show 0 < max capacity 1
  omega

/-! ## Entries -/

theorem isLive_iff {entries : List (K × CacheEntry V)} {o : K × Nat} :
    isLive entries o = true ↔ ∃ e ∈ entries, tag e = o := by
  simp only [isLive, List.any_eq_true, Bool.and_eq_true, beq_iff_eq, tag, Prod.ext_iff]

theorem contains_iff {c : Cache K V} {key : K} : c.contains key = true ↔ key ∈ c.entries.map (·.1) := by
  simp [contains]

theorem mem_without {key : K} {entries : List (K × CacheEntry V)} {e : K × CacheEntry V} :
    e ∈ without key entries ↔ e ∈ entries ∧ e.1 ≠ key := by
  simp [without]

theorem without_eq_self {key : K} {entries : List (K × CacheEntry V)} (h : key ∉ entries.map (·.1)) :
    without key entries = entries := by
  refine List.filter_eq_self.mpr fun e he => ?_
  simp only [bne_iff_ne]
  rintro rfl
  exact h (List.mem_map_of_mem he)

theorem without_head (e : K × CacheEntry V) (entries : List (K × CacheEntry V))
    (h : ((e :: entries).map (·.1)).Nodup) : without e.1 (e :: entries) = entries := by
  have hnot : e.1 ∉ entries.map (·.1) := (List.nodup_cons.mp h).1
  have hhead : without e.1 (e :: entries) = without e.1 entries := by simp [without]
  rw [hhead, without_eq_self hnot]

theorem nodup_without {key : K} {entries : List (K × CacheEntry V)} (h : (entries.map (·.1)).Nodup) :
    ((without key entries).map (·.1)).Nodup :=
  h.sublist (List.Sublist.map _ List.filter_sublist)

theorem isLive_without (key : K) (entries : List (K × CacheEntry V)) (o : K × Nat) :
    isLive (without key entries) o = (o.1 != key && isLive entries o) := by
  rw [Bool.eq_iff_iff, Bool.and_eq_true, isLive_iff, isLive_iff, bne_iff_ne]
  constructor
  · rintro ⟨e, he, rfl⟩
    exact ⟨(mem_without.mp he).2, e, (mem_without.mp he).1, rfl⟩
  · rintro ⟨hne, e, he, rfl⟩
    exact ⟨e, mem_without.mpr ⟨he, hne⟩, rfl⟩

/-- An entry that goes takes its own element out of the live ones, and no other. -/
theorem live_without {order : List (K × Nat)} {entries : List (K × CacheEntry V)} (key : K)
    (h : order.filter (isLive entries) = entries.map tag) :
    order.filter (isLive (without key entries)) = (without key entries).map tag := by
  have hlive : isLive (without key entries) = fun o => o.1 != key && isLive entries o :=
    funext fun o => isLive_without key entries o
  rw [hlive, ← List.filter_filter, h, List.filter_map]
  rfl

theorem Ordered.remove {c : Cache K V} (h : Ordered c) (key : K) (hits misses expirations : Nat) :
    Ordered { c with entries := without key c.entries, hits, misses, expirations } := by
  refine ⟨h.capacity_pos, ?_, nodup_without h.keys, h.numbered, live_without key h.live⟩
  exact Nat.le_trans (List.length_filter_le _ _) h.bounded

/-! ## Eviction -/

/-- Dropping what does not satisfy a condition leads to the first element that does. -/
theorem dropWhile_of_filter {α : Type} {p : α → Bool} {l xs : List α} {x : α} (h : l.filter p = x :: xs) :
    ∃ rest, l.dropWhile (fun a => !p a) = x :: rest ∧ rest.filter p = xs ∧ ∀ a ∈ rest, a ∈ l := by
  obtain ⟨skipped, rest, rfl, hskipped, hx, hrest⟩ := List.filter_eq_cons_iff.mp h
  refine ⟨rest, ?_, hrest, fun a ha => by simp [ha]⟩
  rw [List.dropWhile_append_of_pos (fun a ha => by simpa using hskipped a ha)]
  simp [hx]

/-- An eviction removes the oldest entry. -/
theorem evictOldest?_eq {c : Cache K V} (h : Ordered c) {e : K × CacheEntry V} {entries : List (K × CacheEntry V)}
    (hc : c.entries = e :: entries) :
    ∃ order, c.evictOldest? = some { c with entries, order, evictions := c.evictions + 1 } ∧
      Ordered { c with entries, order, evictions := c.evictions + 1 } := by
  have hkeys := h.keys
  rw [hc] at hkeys
  have hlive : c.order.filter (isLive c.entries) = tag e :: entries.map tag := by rw [h.live, hc]; rfl
  obtain ⟨rest, hdrop, hrest, hsub⟩ := dropWhile_of_filter hlive
  have hentries : without e.1 c.entries = entries := by rw [hc]; exact without_head e entries hkeys
  refine ⟨rest, ?_, h.capacity_pos, ?_, (List.nodup_cons.mp hkeys).2, fun o ho => h.numbered o (hsub o ho), ?_⟩
  · unfold evictOldest?
    rw [hdrop]
    simp only [tag]
    rw [hentries]
  · have hb := h.bounded
    unfold size at hb ⊢
    rw [hc, List.length_cons] at hb
    exact Nat.le_of_succ_le hb
  · -- what was live in the rest of the queue stays live, since the evicted key has no other entry
    have hnot : e.1 ∉ entries.map (·.1) := (List.nodup_cons.mp hkeys).1
    have hwithout : isLive entries = fun o => o.1 != e.1 && isLive c.entries o := by
      rw [← hentries]
      exact funext fun o => isLive_without e.1 c.entries o
    show rest.filter (isLive entries) = entries.map tag
    rw [hwithout, ← List.filter_filter, hrest, List.filter_eq_self]
    intro o ho
    obtain ⟨e', he', rfl⟩ := List.mem_map.mp ho
    simp only [bne_iff_ne, tag]
    intro heq
    exact hnot (heq ▸ List.mem_map_of_mem he')

theorem makeRoom_of_lt {c : Cache K V} (h : c.size < c.capacity) (fuel : Nat) : makeRoom fuel c = c := by
  cases fuel with
  | zero => rfl
  | succ fuel => simp [makeRoom, h]

/-- Room is made in a full cache by one eviction. -/
theorem makeRoom_of_full {c : Cache K V} (h : Ordered c) (hfull : c.capacity ≤ c.size) :
    ∃ e entries order, c.entries = e :: entries ∧
      makeRoom c.size c = { c with entries, order, evictions := c.evictions + 1 } ∧
      Ordered { c with entries, order, evictions := c.evictions + 1 } := by
  have hpos := h.capacity_pos
  have hbound := h.bounded
  have hsize : c.entries.length = c.size := rfl
  cases hc : c.entries with
  | nil => rw [hc, List.length_nil] at hsize; omega
  | cons e entries =>
    obtain ⟨order, hevict, hordered⟩ := evictOldest?_eq h hc
    refine ⟨e, entries, order, rfl, ?_, hordered⟩
    rw [hc, List.length_cons] at hsize
    rw [← hsize, makeRoom, if_neg (by omega), hevict]
    apply makeRoom_of_lt
    show entries.length < c.capacity
    omega

/-! ## Insertion -/

theorem entries_insert (c : Cache K V) (key : K) (value : V) (now : Nat) :
    (c.insert key value now).entries = without key c.entries ++ [(key, ⟨value, now, c.nextSeq⟩)] := rfl

theorem order_insert (c : Cache K V) (key : K) (value : V) (now : Nat) :
    (c.insert key value now).order = c.order ++ [(key, c.nextSeq)] := rfl

/-- A new insertion is live, and makes stale what was the insertion of its key before. -/
theorem live_insert {c : Cache K V} (hnumbered : ∀ o ∈ c.order, o.2 < c.nextSeq)
    (hlive : c.order.filter (isLive c.entries) = c.entries.map tag) (key : K) (value : V) (now : Nat) :
    (c.insert key value now).order.filter (isLive (c.insert key value now).entries) =
      (c.insert key value now).entries.map tag := by
  have hold : c.order.filter (isLive (c.insert key value now).entries) =
      c.order.filter (isLive (without key c.entries)) := by
    refine List.filter_congr fun o ho => ?_
    rw [Bool.eq_iff_iff, isLive_iff, isLive_iff]
    simp only [entries_insert, List.mem_append, List.mem_singleton]
    constructor
    · rintro ⟨e, he | rfl, htag⟩
      · exact ⟨e, he, htag⟩
      · have hlt := hnumbered o ho
        rw [← htag] at hlt
        exact absurd hlt (Nat.lt_irrefl _)
    · rintro ⟨e, he, htag⟩
      exact ⟨e, Or.inl he, htag⟩
  have hnew : isLive (c.insert key value now).entries (key, c.nextSeq) = true := by
    refine isLive_iff.mpr ⟨(key, ⟨value, now, c.nextSeq⟩), ?_, rfl⟩
    exact List.mem_append_right _ (List.mem_singleton_self _)
  rw [order_insert, List.filter_append, hold, live_without key hlive, List.filter_cons_of_pos hnew, entries_insert,
    List.map_append]
  rfl

/-- A key with an entry may be inserted, and any key when there is room. -/
theorem Ordered.insert {c : Cache K V} (h : Ordered c) (key : K) (value : V) (now : Nat)
    (hroom : c.contains key = true ∨ c.size < c.capacity) : Ordered (c.insert key value now) := by
  refine ⟨h.capacity_pos, ?_, ?_, ?_, ?_⟩
  · show (c.insert key value now).entries.length ≤ c.capacity
    rw [entries_insert, List.length_append, List.length_singleton]
    have hbound := h.bounded
    unfold size at hbound hroom
    have hle : (without key c.entries).length ≤ c.entries.length := List.length_filter_le _ _
    rcases hroom with hin | hlt
    · have hlt : (without key c.entries).length < c.entries.length := by
        obtain ⟨e, he, hk⟩ := List.mem_map.mp (contains_iff.mp hin)
        exact List.length_filter_lt_length_iff_exists.mpr ⟨e, he, by simp [hk]⟩
      omega
    · omega
  · rw [entries_insert, List.map_append, List.nodup_append]
    refine ⟨nodup_without h.keys, List.nodup_singleton _, ?_⟩
    intro k hk k' hk'
    obtain ⟨e, he, rfl⟩ := List.mem_map.mp hk
    rw [List.map_singleton, List.mem_singleton] at hk'
    rw [hk']
    exact (mem_without.mp he).2
  · intro o ho
    show o.2 < c.nextSeq + 1
    rcases List.mem_append.mp ho with ho | ho
    · have := h.numbered o ho
      omega
    · rw [List.mem_singleton.mp ho]
      exact Nat.lt_succ_self _
  · exact live_insert h.numbered h.live key value now

theorem entries_sweep (c : Cache K V) : c.sweep.entries = c.entries := by
  unfold sweep
  split <;> rfl

theorem Ordered.sweep {c : Cache K V} (h : Ordered c) : Ordered c.sweep := by
  unfold Cache.sweep
  split
  · refine ⟨h.capacity_pos, h.bounded, h.keys, fun o ho => h.numbered o (List.mem_of_mem_filter ho), ?_⟩
    show (c.order.filter (isLive c.entries)).filter (isLive c.entries) = c.entries.map tag
    rw [List.filter_filter]
    simpa using h.live
  · exact h

/-! ## Contents -/

/-- Every entry has a value that is right for its key. -/
def Holds (right : K → V → Prop) (c : Cache K V) : Prop :=
  ∀ e ∈ c.entries, right e.1 e.2.value

variable {right : K → V → Prop}

omit [DecidableEq K] in
theorem holds_new (capacity : Nat) (ttl : Option Nat) : (new capacity ttl : Cache K V).Holds right :=
  fun _ he => absurd he List.not_mem_nil

omit [DecidableEq K] in
theorem Holds.of_subset {c c' : Cache K V} (h : c.Holds right) (hsub : ∀ e ∈ c'.entries, e ∈ c.entries) :
    c'.Holds right :=
  fun e he => h e (hsub e he)

theorem mem_of_stored? {c : Cache K V} {key : K} {e : CacheEntry V} (h : c.stored? key = some e) :
    (key, e) ∈ c.entries := by
  obtain ⟨⟨key', e'⟩, hfind, rfl⟩ := Option.map_eq_some_iff.mp h
  have hkey : key' = key := by simpa using List.find?_some hfind
  exact hkey ▸ List.mem_of_find?_eq_some hfind

/-- A lookup finds a value that is right for its key, and leaves only such values. -/
theorem Holds.get {c : Cache K V} (h : c.Holds right) (key : K) (now : Nat) :
    (∀ value, (c.get key now).1 = some value → right key value) ∧ (c.get key now).2.Holds right := by
  unfold Cache.get
  cases hs : c.stored? key with
  | none => exact ⟨fun _ hv => absurd hv nofun, h⟩
  | some e =>
    dsimp only
    split
    · refine ⟨fun _ hv => absurd hv nofun, h.of_subset fun _ he => ?_⟩
      exact (mem_without.mp he).1
    · refine ⟨fun value hv => ?_, h⟩
      cases hv
      exact h _ (mem_of_stored? hs)

theorem mem_of_mem_makeRoom (fuel : Nat) (c : Cache K V) : ∀ e ∈ (makeRoom fuel c).entries, e ∈ c.entries := by
  induction fuel generalizing c with
  | zero => exact fun _ he => he
  | succ fuel ih =>
    intro e he
    unfold makeRoom at he
    split at he
    · exact he
    · split at he
      · rename_i c' hevict
        have hsub := ih c' e he
        unfold evictOldest? at hevict
        split at hevict
        · cases hevict
        · cases hevict
          exact (mem_without.mp hsub).1
      · exact he

theorem Holds.put {c : Cache K V} (h : c.Holds right) {key : K} {value : V} (hv : right key value) (now : Nat) :
    (c.put key value now).Holds right := by
  have hroom : (if c.contains key then c else makeRoom c.size c).Holds right := by
    split
    · exact h
    · exact h.of_subset (mem_of_mem_makeRoom c.size c)
  have hinsert : ((if c.contains key then c else makeRoom c.size c).insert key value now).Holds right := by
    intro e he
    rw [entries_insert, List.mem_append, List.mem_singleton] at he
    rcases he with he | rfl
    · exact hroom e (mem_without.mp he).1
    · exact hv
  unfold Cache.put
  exact hinsert.of_subset fun e he => by rwa [entries_sweep] at he

end CodeAtlas.Cache
