/-
  Many new entries put into a cache, in any order.

  As long as there is room for the new entries among themselves, they push out old ones only, and of those the oldest, as
  many as there are new keys (`Fifo.Refilled`).  So the order in which new entries come does not matter for what is left in
  the end: the lists hold the same entries (`Fifo.Refilled.alike`), and lists with the same entries answer all lookups alike
  (`Fifo.Alike.answers_eq`).
-/
import CodeAtlas.Proofs.Cache.Fifo
import Mathlib.Data.List.Perm.Basic

namespace CodeAtlas

variable {K V : Type} [DecidableEq K]

namespace Fifo

/-! ## Lists with the same entries -/

/-- Two lists hold the same entries, perhaps in another order, each key once. -/
structure Alike (f g : Fifo K V) : Prop where
  items : f.items.Perm g.items
  ttl : f.ttl = g.ttl
  keys : (f.items.map (·.1)).Nodup

theorem find?_eq_some_iff {items : List (K × V × Nat)} (h : (items.map (·.1)).Nodup) {key : K} {i : K × V × Nat} :
    (items.find? fun i => decide (i.1 = key)) = some i ↔ i ∈ items ∧ i.1 = key := by
  constructor
  · intro hfind
    exact ⟨List.mem_of_find?_eq_some hfind, by simpa using List.find?_some hfind⟩
  · rintro ⟨hmem, hkey⟩
    cases hfind : items.find? fun i => decide (i.1 = key) with
    | none => exact absurd hkey (by simpa using List.find?_eq_none.mp hfind i hmem)
    | some j =>
      have hj : j.1 = key := by simpa using List.find?_some hfind
      rw [List.inj_on_of_nodup_map h (List.mem_of_find?_eq_some hfind) hmem (hj.trans hkey.symm)]

theorem Alike.find?_eq {f g : Fifo K V} (h : Alike f g) (key : K) :
    (f.items.find? fun i => decide (i.1 = key)) = g.items.find? fun i => decide (i.1 = key) := by
  have hkeys : (g.items.map (·.1)).Nodup := (h.items.map _).nodup_iff.mp h.keys
  refine Option.ext fun i => ?_
  rw [find?_eq_some_iff h.keys, find?_eq_some_iff hkeys, h.items.mem_iff]

theorem Alike.drop {f g : Fifo K V} (h : Alike f g) (key : K) :
    (drop key f.items).Perm (drop key g.items) ∧ ((Fifo.drop key f.items).map (·.1)).Nodup :=
  ⟨h.items.filter _, h.keys.sublist (List.filter_sublist.map _)⟩

/-- A lookup gives the same answer, and leaves lists with the same entries. -/
theorem Alike.get {f g : Fifo K V} (h : Alike f g) (key : K) (now : Nat) :
    (f.get key now).1 = (g.get key now).1 ∧ Alike (f.get key now).2 (g.get key now).2 := by
  have hover (t : Nat) : f.isOver t now = g.isOver t now := by
    unfold isOver
    rw [h.ttl]
  unfold Fifo.get
  rw [h.find?_eq key]
  cases g.items.find? fun i => decide (i.1 = key) with
  | none => exact ⟨rfl, h.items, h.ttl, h.keys⟩
  | some i =>
    obtain ⟨k, value, insertedAt⟩ := i
    simp only [hover]
    split
    · exact ⟨rfl, (h.drop key).1, h.ttl, (h.drop key).2⟩
    · exact ⟨rfl, h.items, h.ttl, h.keys⟩

/-- The answers to lookups at given times, one after the other. -/
def answers (f : Fifo K V) (lookups : List (K × Nat)) : List (Option V) :=
  (replay apply f (lookups.map fun l => .get l.1 l.2)).1

theorem Alike.answers_eq {f g : Fifo K V} (h : Alike f g) (lookups : List (K × Nat)) :
    f.answers lookups = g.answers lookups := by
  induction lookups generalizing f g with
  | nil => rfl
  | cons l lookups ih =>
    obtain ⟨hanswer, hnext⟩ := h.get l.1 l.2
    show (f.get l.1 l.2).1 :: (f.get l.1 l.2).2.answers lookups = (g.get l.1 l.2).1 :: (g.get l.1 l.2).2.answers lookups
    rw [hanswer, ih hnext]

/-! ## New entries -/

/-- The list after entries have been put in one after the other, all at one time. -/
def putAll (now : Nat) (f : Fifo K V) (news : List (K × V)) : Fifo K V :=
  news.foldl (fun f n => f.put n.1 n.2 now) f

/-- Entries with one key have one value. -/
def OneValue (news : List (K × V)) : Prop :=
  ∀ n ∈ news, ∀ m ∈ news, n.1 = m.1 → n.2 = m.2

/-- A list into which new entries have been put: the oldest of the old ones have made room. -/
structure Refilled (old : Fifo K V) (now : Nat) (news : List (K × V)) (added : List (K × V × Nat)) (f : Fifo K V) :
    Prop where
  items : f.items = old.items.drop (old.items.length + added.length - old.limit) ++ added
  limit : f.limit = old.limit
  ttl : f.ttl = old.ttl
  keys : (added.map (·.1)).Nodup
  mem : ∀ i, i ∈ added ↔ ∃ n ∈ news, i = (n.1, n.2, now)
  count : added.length ≤ news.length

omit [DecidableEq K] in
theorem refilled_self {old : Fifo K V} (h : old.items.length ≤ old.limit) (now : Nat) : Refilled old now [] [] old := by
  refine ⟨?_, rfl, rfl, List.nodup_nil, by simp, Nat.le_refl _⟩
  rw [List.length_nil, Nat.add_zero, Nat.sub_eq_zero_of_le h, List.drop_zero, List.append_nil]

theorem drop_eq_self {key : K} {items : List (K × V × Nat)} (h : key ∉ items.map (·.1)) : drop key items = items := by
  refine List.filter_eq_self.mpr fun i hi => ?_
  simp only [decide_eq_true_eq]
  rintro rfl
  exact h (List.mem_map_of_mem hi)

theorem length_drop_of_mem {key : K} {items : List (K × V × Nat)} (h : (items.map (·.1)).Nodup)
    (hmem : key ∈ items.map (·.1)) : (drop key items).length + 1 = items.length := by
  induction items with
  | nil => cases hmem
  | cons i items ih =>
    obtain ⟨hnot, hrest⟩ := List.nodup_cons.mp h
    by_cases hkey : i.1 = key
    · have hdrop : drop key (i :: items) = drop key items := by simp [drop, hkey]
      rw [hdrop, drop_eq_self (hkey ▸ hnot), List.length_cons]
    · have hdrop : drop key (i :: items) = i :: drop key items := by simp [drop, hkey]
      have htail : key ∈ items.map (·.1) := by
        rcases List.mem_cons.mp hmem with heq | hmem
        · exact absurd heq.symm hkey
        · exact hmem
      rw [hdrop, List.length_cons, List.length_cons, ih hrest htail]

theorem put_settings (f : Fifo K V) (key : K) (value : V) (now : Nat) :
    (f.put key value now).limit = f.limit ∧ (f.put key value now).ttl = f.ttl := by
  unfold put
  split
  · exact ⟨rfl, rfl⟩
  · split <;> exact ⟨rfl, rfl⟩

section Refill

variable {old f : Fifo K V} {now : Nat} {news : List (K × V)} {added : List (K × V × Nat)}

/-- What a new entry does to the new entries before it. -/
theorem Refilled.added_put (h : Refilled old now news added f) {key : K} {value : V}
    (hone : OneValue (news ++ [(key, value)])) :
    ((drop key added ++ [(key, value, now)]).map (·.1)).Nodup ∧
      ∀ i, i ∈ drop key added ++ [(key, value, now)] ↔ ∃ n ∈ news ++ [(key, value)], i = (n.1, n.2, now) := by
  constructor
  · rw [List.map_append, List.nodup_append]
    refine ⟨h.keys.sublist (List.filter_sublist.map _), List.nodup_singleton _, ?_⟩
    intro k hk k' hk'
    obtain ⟨i, hi, rfl⟩ := List.mem_map.mp hk
    rw [List.map_singleton, List.mem_singleton] at hk'
    rw [hk']
    simpa using (List.mem_filter.mp hi).2
  · intro i
    rw [List.mem_append, List.mem_singleton]
    constructor
    · rintro (hi | rfl)
      · obtain ⟨n, hn, rfl⟩ := (h.mem i).mp (List.mem_of_mem_filter hi)
        exact ⟨n, List.mem_append_left _ hn, rfl⟩
      · exact ⟨(key, value), List.mem_append_right _ (List.mem_singleton_self _), rfl⟩
    · rintro ⟨n, hn, rfl⟩
      by_cases hkey : n.1 = key
      · have hvalue := hone n hn (key, value) (List.mem_append_right _ (List.mem_singleton_self _)) hkey
        right
        rw [hkey, hvalue]
      · rcases List.mem_append.mp hn with hn | hn
        · left
          exact List.mem_filter.mpr ⟨(h.mem _).mpr ⟨n, hn, rfl⟩, by simpa using hkey⟩
        · rw [List.mem_singleton.mp hn] at hkey
          exact absurd rfl hkey

omit [DecidableEq K] in
/-- Old entries that are left do not have the key of a new entry. -/
theorem notMem_drop {key : K} (habsent : key ∉ old.items.map (·.1)) (n : Nat) :
    key ∉ (old.items.drop n).map (·.1) :=
  fun hmem => habsent (((List.drop_sublist _ _).map _).subset hmem)

theorem Refilled.contains_iff (h : Refilled old now news added f) {key : K} (habsent : key ∉ old.items.map (·.1)) :
    f.contains key = true ↔ key ∈ added.map (·.1) := by
  unfold contains
  rw [decide_eq_true_iff, h.items, List.map_append, List.mem_append]
  exact or_iff_right (notMem_drop habsent _)

/-- A new entry whose key came before moves it to the end. -/
theorem Refilled.items_put_of_mem (h : Refilled old now news added f) {key : K} (habsent : key ∉ old.items.map (·.1))
    (hin : key ∈ added.map (·.1)) (value : V) :
    (f.put key value now).items =
      old.items.drop (old.items.length + added.length - old.limit) ++ (drop key added ++ [(key, value, now)]) := by
  have hkept : drop key (old.items.drop (old.items.length + added.length - old.limit)) =
      old.items.drop (old.items.length + added.length - old.limit) := drop_eq_self (notMem_drop habsent _)
  have hitems : drop key f.items = old.items.drop (old.items.length + added.length - old.limit) ++ drop key added := by
    rw [h.items, drop, List.filter_append]
    exact congrArg (· ++ _) hkept
  rw [Fifo.put, if_pos ((h.contains_iff habsent).mpr hin)]
  show drop key f.items ++ [(key, value, now)] = _
  rw [hitems, List.append_assoc]

/-- A new entry with a new key pushes out the oldest of the old ones when the list is full. -/
theorem Refilled.items_put_of_notMem (h : Refilled old now news added f) {key : K} (habsent : key ∉ old.items.map (·.1))
    (hout : key ∉ added.map (·.1)) (hroom : added.length < old.limit) (value : V) :
    (f.put key value now).items =
      old.items.drop (old.items.length + (added.length + 1) - old.limit) ++ (added ++ [(key, value, now)]) := by
  have hlength : f.items.length = old.items.length - (old.items.length + added.length - old.limit) + added.length := by
    rw [h.items, List.length_append, List.length_drop]
  rw [Fifo.put, if_neg fun hin => hout ((h.contains_iff habsent).mp hin), h.limit]
  by_cases hfull : old.limit ≤ f.items.length
  · have hnext : old.items.length + (added.length + 1) - old.limit =
        old.items.length + added.length - old.limit + 1 := by omega
    have hsome : old.items.drop (old.items.length + added.length - old.limit) ≠ [] := by
      rw [Ne, List.drop_eq_nil_iff]
      omega
    rw [if_pos hfull]
    show f.items.tail ++ [(key, value, now)] = _
    rw [hnext, h.items, List.tail_append_of_ne_nil hsome, List.tail_drop, List.append_assoc]
  · have hnone : old.items.length + added.length - old.limit = 0 := by omega
    have hnone' : old.items.length + (added.length + 1) - old.limit = 0 := by omega
    rw [if_neg hfull]
    show f.items ++ [(key, value, now)] = _
    rw [hnone', h.items, hnone, List.append_assoc]

/-- One more new entry. -/
theorem Refilled.put (h : Refilled old now news added f) {key : K} {value : V} (habsent : key ∉ old.items.map (·.1))
    (hone : OneValue (news ++ [(key, value)])) (hroom : news.length < old.limit) :
    Refilled old now (news ++ [(key, value)]) (drop key added ++ [(key, value, now)]) (f.put key value now) := by
  obtain ⟨hkeys, hmem⟩ := h.added_put hone
  obtain ⟨hlimit, httl⟩ := f.put_settings key value now
  have hcount := h.count
  have hlengths : (drop key added ++ [(key, value, now)]).length = (drop key added).length + 1 ∧
      (news ++ [(key, value)]).length = news.length + 1 := by simp
  by_cases hin : key ∈ added.map (·.1)
  · have hsame := length_drop_of_mem h.keys hin
    refine ⟨?_, hlimit.trans h.limit, httl.trans h.ttl, hkeys, hmem, by omega⟩
    rw [hlengths.1, hsame]
    exact h.items_put_of_mem habsent hin value
  · have hdrop : drop key added = added := drop_eq_self hin
    refine ⟨?_, hlimit.trans h.limit, httl.trans h.ttl, hkeys, hmem, by rw [hlengths.1, hdrop]; omega⟩
    rw [hlengths.1, hdrop]
    exact h.items_put_of_notMem habsent hin (Nat.lt_of_le_of_lt hcount hroom) value

/-- Many new entries. -/
theorem Refilled.putAll (h : Refilled old now news added f) {more : List (K × V)}
    (habsent : ∀ n ∈ more, n.1 ∉ old.items.map (·.1)) (hone : OneValue (news ++ more))
    (hroom : (news ++ more).length ≤ old.limit) : ∃ added', Refilled old now (news ++ more) added' (f.putAll now more) := by
  induction more generalizing news added f with
  | nil =>
    rw [List.append_nil]
    exact ⟨added, h⟩
  | cons n more ih =>
    have hsplit : news ++ n :: more = news ++ [n] ++ more := by rw [List.append_assoc]; rfl
    have hlt : news.length < old.limit := by
      rw [List.length_append, List.length_cons] at hroom
      omega
    rw [hsplit] at hone hroom ⊢
    refine ih (h.put (habsent n List.mem_cons_self) ?_ hlt) (fun m hm => habsent m (List.mem_cons_of_mem _ hm))
      hone hroom
    intro m hm m' hm'
    exact hone m (List.mem_append_left _ hm) m' (List.mem_append_left _ hm')

omit [DecidableEq K] in
/-- The order in which new entries come does not matter for what the list holds in the end. -/
theorem Refilled.alike {g : Fifo K V} {news' : List (K × V)} {added' : List (K × V × Nat)}
    (hold : (old.items.map (·.1)).Nodup) (habsent : ∀ n ∈ news, n.1 ∉ old.items.map (·.1))
    (h : Refilled old now news added f) (h' : Refilled old now news' added' g) (hperm : news.Perm news') : Alike f g := by
  have hadded : added.Perm added' := by
    refine (List.perm_ext_iff_of_nodup h.keys.of_map h'.keys.of_map).mpr fun i => ?_
    rw [h.mem, h'.mem]
    constructor
    · rintro ⟨n, hn, rfl⟩
      exact ⟨n, hperm.mem_iff.mp hn, rfl⟩
    · rintro ⟨n, hn, rfl⟩
      exact ⟨n, hperm.mem_iff.mpr hn, rfl⟩
  refine ⟨?_, h.ttl.trans h'.ttl.symm, ?_⟩
  · rw [h.items, h'.items, hadded.length_eq]
    exact hadded.append_left _
  · rw [h.items, List.map_append, List.nodup_append]
    refine ⟨hold.sublist ((List.drop_sublist _ _).map _), h.keys, ?_⟩
    rintro k hk k' hk' rfl
    obtain ⟨i, hi, rfl⟩ := List.mem_map.mp hk'
    obtain ⟨n, hn, rfl⟩ := (h.mem i).mp hi
    exact habsent n hn (((List.drop_sublist _ _).map _).subset hk)

end Refill

end Fifo

namespace Cache

/-- The cache after entries have been put in one after the other, all at one time. -/
def putAll (now : Nat) (c : Cache K V) (news : List (K × V)) : Cache K V :=
  news.foldl (fun c n => c.put n.1 n.2 now) c

/-- The answers to lookups at given times, one after the other. -/
def answers (c : Cache K V) (lookups : List (K × Nat)) : List (Option V) :=
  (replay apply c (lookups.map fun l => .get l.1 l.2)).1

theorem putAll_spec {c : Cache K V} (h : Ordered c) (now : Nat) (news : List (K × V)) :
    Ordered (c.putAll now news) ∧ (c.putAll now news).toFifo = c.toFifo.putAll now news := by
  induction news generalizing c with
  | nil => exact ⟨h, rfl⟩
  | cons n news ih =>
    obtain ⟨hordered, hfifo⟩ := put_spec h n.1 n.2 now
    obtain ⟨hend, hrest⟩ := ih hordered
    refine ⟨hend, ?_⟩
    show ((c.put n.1 n.2 now).putAll now news).toFifo = (c.toFifo.put n.1 n.2 now).putAll now news
    rw [hrest, hfifo]

/-- A cache answers alike whatever the order in which new entries were put in, if those with one key have one value and
there is room for them among themselves. -/
theorem answers_putAll_perm {c : Cache K V} (h : Ordered c) (now : Nat) {news news' : List (K × V)}
    (habsent : ∀ n ∈ news, n.1 ∉ c.entries.map (·.1)) (hone : Fifo.OneValue news) (hroom : news.length ≤ c.capacity)
    (hperm : news.Perm news') (lookups : List (K × Nat)) :
    (c.putAll now news).answers lookups = (c.putAll now news').answers lookups := by
  obtain ⟨hordered, hfifo⟩ := putAll_spec h now news
  obtain ⟨hordered', hfifo'⟩ := putAll_spec h now news'
  have hbound : c.toFifo.items.length ≤ c.toFifo.limit := by
    rw [toFifo, List.length_map]
    exact h.bounded
  rw [← keys_toFifo] at habsent
  have hone' : Fifo.OneValue news' := fun n hn m hm => hone n (hperm.mem_iff.mpr hn) m (hperm.mem_iff.mpr hm)
  obtain ⟨added, hfill⟩ := (Fifo.refilled_self hbound now).putAll habsent hone hroom
  obtain ⟨added', hfill'⟩ := (Fifo.refilled_self hbound now).putAll (fun n hn => habsent n (hperm.mem_iff.mpr hn))
    hone' (hperm.length_eq ▸ hroom)
  have halike : Fifo.Alike (c.putAll now news).toFifo (c.putAll now news').toFifo := by
    rw [hfifo, hfifo']
    exact hfill.alike ((keys_toFifo c).symm ▸ h.keys) habsent hfill' hperm
  have hanswers := congrArg Prod.fst (replay_toFifo hordered (lookups.map fun l => .get l.1 l.2)).2
  have hanswers' := congrArg Prod.fst (replay_toFifo hordered' (lookups.map fun l => .get l.1 l.2)).2
  exact hanswers.symm.trans ((halike.answers_eq lookups).trans hanswers')

end Cache

end CodeAtlas
