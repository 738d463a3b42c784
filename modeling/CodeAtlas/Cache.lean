/-
  A cache of bounded size with an optional lifetime of its entries.

  Entries leave in the order of their insertion: a lookup does not refresh an entry, inserting a key again does.  The
  cache holds its entries by key and, apart from them, a queue of insertions.  Each insertion has a number; an element of
  the queue is live while the entry of its key still carries that number, and stale elements stay in the queue until they
  are met or swept out.
-/
import CodeAtlas.Number.Double

namespace CodeAtlas

/-- How a cache has been used since it was created or cleared. -/
structure CacheStats where
  hits : Nat
  misses : Nat
  size : Nat
  /-- Entries removed to make room. -/
  evictions : Nat
  /-- Entries removed because their lifetime was over. -/
  expirations : Nat
  deriving DecidableEq, Repr, Inhabited

/-- The share of lookups that found something, 0 without lookups. -/
def CacheStats.hitRate (s : CacheStats) : Rat :=
  if s.hits + s.misses = 0 then 0 else quotient s.hits (s.hits + s.misses)

/-- A cached value with the time and the number of its insertion. -/
structure CacheEntry (V : Type) where
  value : V
  insertedAt : Nat
  seq : Nat

/-- A bounded cache. -/
structure Cache (K V : Type) where
  capacity : Nat
  /-- The lifetime of an entry. -/
  ttl : Option Nat
  entries : List (K × CacheEntry V)
  /-- The insertions, oldest first. -/
  order : List (K × Nat)
  nextSeq : Nat
  hits : Nat
  misses : Nat
  evictions : Nat
  expirations : Nat

namespace Cache

variable {K V : Type} [DecidableEq K]

/-- An empty cache; it holds at least one entry. -/
def new (capacity : Nat) (ttl : Option Nat) : Cache K V :=
  { capacity := max capacity 1, ttl, entries := [], order := [], nextSeq := 0
    hits := 0, misses := 0, evictions := 0, expirations := 0 }

/-- The entry of a key. -/
def stored? (c : Cache K V) (key : K) : Option (CacheEntry V) :=
  (c.entries.find? fun e => e.1 == key).map (·.2)

/-- Whether a key has an entry. -/
def contains (c : Cache K V) (key : K) : Bool :=
  c.entries.any fun e => e.1 == key

/-- The number of entries. -/
def size (c : Cache K V) : Nat :=
  c.entries.length

/-- The statistics of the cache. -/
def stats (c : Cache K V) : CacheStats :=
  ⟨c.hits, c.misses, c.size, c.evictions, c.expirations⟩

/-- The entries without that of a key. -/
def without (key : K) (entries : List (K × CacheEntry V)) : List (K × CacheEntry V) :=
  entries.filter fun e => e.1 != key

/-- Whether the lifetime of an entry is over; an entry from the future has age 0. -/
def isExpired (c : Cache K V) (e : CacheEntry V) (now : Nat) : Bool :=
  c.ttl.any fun ttl => ttl ≤ now - e.insertedAt

/-- The value of a key at a time; an entry whose lifetime is over is removed and not found. -/
def get (c : Cache K V) (key : K) (now : Nat) : Option V × Cache K V :=
  match c.stored? key with
  | none => (none, { c with misses := c.misses + 1 })
  | some e =>
    if c.isExpired e now then
      (none, { c with entries := without key c.entries, expirations := c.expirations + 1, misses := c.misses + 1 })
    else (some e.value, { c with hits := c.hits + 1 })

/-- Whether an element of the queue is the current insertion of its key. -/
def isLive (entries : List (K × CacheEntry V)) (insertion : K × Nat) : Bool :=
  entries.any fun e => e.1 == insertion.1 && e.2.seq == insertion.2

/-- The cache without its oldest entry, and without the stale elements of the queue before that; none when no element
of the queue is live. -/
def evictOldest? (c : Cache K V) : Option (Cache K V) :=
  match c.order.dropWhile fun o => !isLive c.entries o with
  | [] => none
  | (key, _) :: rest =>
    some { c with entries := without key c.entries, order := rest, evictions := c.evictions + 1 }

/-- The cache after evicting the oldest entries, at most `fuel` of them, until there is room for one more. -/
def makeRoom : (fuel : Nat) → Cache K V → Cache K V
  | 0, c => c
  | fuel + 1, c =>
    if c.size < c.capacity then c
    else match c.evictOldest? with
      | some c => makeRoom fuel c
      | none => c

/-- The cache without the stale elements of the queue. -/
def compact (c : Cache K V) : Cache K V :=
  { c with order := c.order.filter (isLive c.entries) }

/-- The cache with a new insertion, in whose favour an older one of the same key becomes stale. -/
def insert (c : Cache K V) (key : K) (value : V) (now : Nat) : Cache K V :=
  { c with
    entries := without key c.entries ++ [(key, ⟨value, now, c.nextSeq⟩)]
    order := c.order ++ [(key, c.nextSeq)]
    nextSeq := c.nextSeq + 1 }

/-- The cache without stale elements of the queue if the queue has grown beyond twice the capacity. -/
def sweep (c : Cache K V) : Cache K V :=
  if c.order.length > 2 * c.capacity then c.compact else c

/-- The cache with a value inserted at a time. A key that has no entry yet first needs room. -/
def put (c : Cache K V) (key : K) (value : V) (now : Nat) : Cache K V :=
  ((if c.contains key then c else makeRoom c.size c).insert key value now).sweep

/-- The cache without the entry of a key. -/
def invalidate (c : Cache K V) (key : K) : Cache K V :=
  { c with entries := without key c.entries }

/-- The cache without entries and with fresh statistics. -/
def clear (c : Cache K V) : Cache K V :=
  { c with entries := [], order := [], hits := 0, misses := 0, evictions := 0, expirations := 0 }

end Cache

end CodeAtlas
