import DistributedCaching.CacheContents
import DistributedCaching.CacheServer

/-!
# The eviction benchmark

`runSingleEvictionBenchmark` runs a workload of reads and writes against a cache, and
counts hits, misses and evictions.  It infers an eviction from the length of the cache
before and after a write: if the cache was full and did not grow, something must have been
evicted.  Both directions fail.  A write to a key that is there leaves a full cache as
long as it was and evicts nothing, and the write after a read miss is not looked at.

`Tally` counts what really happens along the run: all evictions, those of the writes
after read misses, and the updates of a full cache.  The law of one operation
(`iterate_law`) says how the count is off, and its sum over the run (`run_law`) when the
errors cancel: `eviction_count_exact_iff`.
-/

namespace Benchmark

open Go Cache Eviction InMemoryCache

/-- One operation of the workload. -/
structure BenchOp where
  key : String
  isRead : Bool
  deriving DecidableEq, Repr

/-- What an operation reads from outside: the clock, and the draw of a random eviction. -/
structure OpInput where
  clock : GetClock
  now : Time
  policyNow : Time
  draw : Nat
  deriving DecidableEq, Repr

/-- The slice of operations, whose length is an `int`. -/
structure Workload where
  ops : List (BenchOp × OpInput)
  fits : ops.length < 2 ^ 63

structure EvictionResult where
  policyName : String
  hitCount : Int
  missCount : Int
  evictionCount : Int
  deriving DecidableEq, Repr

/-- The cache and the counters of the loop. -/
structure State where
  cache : InMemoryCache Policy
  hits : Int := 0
  misses : Int := 0
  evictions : Int := 0

/-- `[]byte("value")`. -/
def value : Bytes := [118, 97, 108, 117, 101]

/-- The `Set` of an operation, whose error is ignored. -/
def setOf (x : BenchOp × OpInput) : CacheOp :=
  .set x.1.key value (60 * second) x.2.now x.2.policyNow x.2.draw

/-- One iteration of the loop. -/
def iterate (capacity : Nat) (s : State) (x : BenchOp × OpInput) : State :=
  if x.1.isRead then
    match s.cache.get x.1.key x.2.clock with
    | (some _, cache) => { s with cache := cache, hits := incInt64 s.hits }
    | (none, cache) =>
        { s with cache := cache.perform (setOf x), misses := incInt64 s.misses }
  else
    let before := s.cache.len
    let cache := s.cache.perform (setOf x)
    let after := cache.len
    { s with
      cache := cache
      evictions :=
        if after ≤ before ∧ before ≥ capacity then incInt64 s.evictions else s.evictions }

/-- `runSingleEvictionBenchmark`. -/
def runSingleEvictionBenchmark (kind : PolicyKind) (capacity : Nat) (w : Workload) :
    EvictionResult :=
  let s := w.ops.foldl (iterate capacity) { cache := .new capacity (newPolicy kind) }
  { policyName := Cluster.policyName (newPolicy kind)
    hitCount := s.hits
    missCount := s.misses
    evictionCount := s.evictions }

/-! ## What happens along a run -/

/-- The number of entries that a call evicts. -/
def evictedBy (c : InMemoryCache Policy) (op : CacheOp) : Nat :=
  (c.entries.keys.filter fun k => Evicts c op k).length

structure Tally where
  /-- The entries that were evicted. -/
  evicted : Nat := 0
  /-- Those among them that a `Set` after a read miss evicted. -/
  evictedByReads : Nat := 0
  /-- The writes to a key that was there, while the cache was full. -/
  fullUpdates : Nat := 0
  deriving DecidableEq, Repr

def Tally.add (a b : Tally) : Tally where
  evicted := a.evicted + b.evicted
  evictedByReads := a.evictedByReads + b.evictedByReads
  fullUpdates := a.fullUpdates + b.fullUpdates

/-- What one operation does to a cache. -/
def tallyOf (capacity : Nat) (c : InMemoryCache Policy) (x : BenchOp × OpInput) : Tally :=
  if x.1.isRead then
    match c.get x.1.key x.2.clock with
    | (some _, _) => {}
    | (none, c) => { evicted := evictedBy c (setOf x), evictedByReads := evictedBy c (setOf x) }
  else
    { evicted := evictedBy c (setOf x)
      fullUpdates := if x.1.key ∈ c.entries ∧ c.len ≥ capacity then 1 else 0 }

/-- What a run does. -/
def tally (capacity : Nat) : State → List (BenchOp × OpInput) → Tally
  | _, [] => {}
  | s, x :: xs => (tallyOf capacity s.cache x).add (tally capacity (iterate capacity s x) xs)

/-- The tally of a whole benchmark. -/
def benchmarkTally (kind : PolicyKind) (capacity : Nat) (w : Workload) : Tally :=
  tally capacity { cache := .new capacity (newPolicy kind) } w.ops

/-- The number of reads. -/
def reads (xs : List (BenchOp × OpInput)) : Nat := xs.countP fun x => x.1.isRead

/-! ## One `Set` -/

section Set

variable {c : InMemoryCache Policy} {x : BenchOp × OpInput}

/-- The operation of the benchmark is the section of a `Set`. -/
theorem perform_setOf (c : InMemoryCache Policy) (x : BenchOp × OpInput) :
    c.perform (setOf x) =
      c.store x.1.key value (expiryOf x.2.now (60 * second)) x.2.now x.2.policyNow x.2.draw := by
  have hvalid : validateTTL (60 * second) = .ok () := by decide
  simp [setOf, InMemoryCache.perform, InMemoryCache.set, hvalid]

/-- An operation that removes no key has evicted none. -/
theorem evictedBy_eq_zero {op : CacheOp} (h : ∀ k ∈ c.entries, k ∈ (c.perform op).entries) :
    evictedBy c op = 0 := by
  rw [evictedBy, List.length_eq_zero_iff, List.filter_eq_nil_iff]
  intro k hk
  have hkept := h k (AList.mem_keys.mpr hk)
  simp [Evicts, hkept]

/-- A `Set` that drops one key evicts one entry. -/
theorem evictedBy_eq_one {op : CacheOp} (hset : op.isSet = true) {victim : String}
    (hvictim : victim ∈ c.entries)
    (h : ∀ k ∈ c.entries, k ∉ (c.perform op).entries ↔ k = victim) : evictedBy c op = 1 := by
  have hsame : (c.entries.keys.filter fun k => Evicts c op k) =
      c.entries.keys.filter fun k => k = victim := by
    refine List.filter_congr ?_
    intro k hk
    have hmem := AList.mem_keys.mpr hk
    simp [Evicts, hset, hmem, h k hmem]
  rw [evictedBy, hsame, ← List.countP_eq_length_filter]
  exact List.count_eq_one_of_mem c.entries.keys_nodup (AList.mem_keys.mp hvictim)

/-- **What a `Set` does**: it updates an entry, adds one, or replaces one. -/
theorem set_effect (h : Sound c) (hcap : 1 ≤ c.capacity) :
    (x.1.key ∈ c.entries ∧ (c.perform (setOf x)).len = c.len ∧ evictedBy c (setOf x) = 0) ∨
    (x.1.key ∉ c.entries ∧ c.len < c.capacity ∧ (c.perform (setOf x)).len = c.len + 1 ∧
      evictedBy c (setOf x) = 0) ∨
    (x.1.key ∉ c.entries ∧ c.len = c.capacity ∧ (c.perform (setOf x)).len = c.len ∧
      evictedBy c (setOf x) = 1) := by
  have hperform := perform_setOf c x
  rcases store_cases h hcap x.1.key value (expiryOf x.2.now (60 * second)) x.2.now x.2.policyNow
    x.2.draw with ⟨r, hr, hstore⟩ | ⟨hkey, hroom, hstore⟩ | ⟨hkey, hfull, victim, hvictim, _, hstore⟩
  · have hafter : (c.perform (setOf x)).entries = c.entries := by
      rw [hperform, hstore]
      rfl
    refine Or.inl ⟨GoMap.mem_iff_lookup.mpr ⟨r, hr⟩, congrArg GoMap.len hafter, ?_⟩
    exact evictedBy_eq_zero fun k hk => hafter ▸ hk
  · have hafter : (c.perform (setOf x)).entries = c.entries.insert x.1.key c.fresh := by
      rw [hperform, hstore]
      rfl
    refine Or.inr (Or.inl ⟨hkey, hroom, ?_, ?_⟩)
    · exact (congrArg GoMap.len hafter).trans (GoMap.len_insert_new _ hkey)
    · refine evictedBy_eq_zero fun k hk => ?_
      rw [hafter]
      exact (AList.mem_insert _).mpr (Or.inr hk)
  · have hafter : (c.perform (setOf x)).entries =
        (c.entries.erase victim).insert x.1.key c.fresh := by
      rw [hperform, hstore]
      rfl
    have hnew : x.1.key ∉ c.entries.erase victim := fun hmem => hkey (AList.mem_erase.mp hmem).2
    refine Or.inr (Or.inr ⟨hkey, hfull, ?_, ?_⟩)
    · calc (c.perform (setOf x)).len
          = GoMap.len (c.entries.erase victim) + 1 :=
            (congrArg GoMap.len hafter).trans (GoMap.len_insert_new _ hnew)
        _ = c.len := GoMap.len_erase_present hvictim
    · refine evictedBy_eq_one rfl hvictim fun k hk => ?_
      have hne : k ≠ x.1.key := fun heq => hkey (heq ▸ hk)
      rw [hafter, AList.mem_insert, AList.mem_erase]
      simp [hne, hk]

end Set

/-! ## The loop -/

section Loop

variable {capacity : Nat} {s : State}

/-- A sound cache of the given capacity. -/
structure Running (capacity : Nat) (s : State) : Prop where
  sound : Sound s.cache
  capacity_eq : s.cache.capacity = capacity

/-- The counters can take so many more increments. -/
structure InRange (s : State) (n : Nat) : Prop where
  hits : s.hits + n < 2 ^ 63
  misses : s.misses + n < 2 ^ 63
  evictions : s.evictions + n < 2 ^ 63

/-- An iteration keeps the cache sound and of its capacity. -/
theorem Running.iterate (h : Running capacity s) (hcap : 1 ≤ capacity) (x : BenchOp × OpInput) :
    Running capacity (iterate capacity s x) := by
  have hset : ∀ c : InMemoryCache Policy, Sound c → c.capacity = capacity →
      Sound (c.perform (setOf x)) ∧ (c.perform (setOf x)).capacity = capacity := by
    intro c hc hcapacity
    have hperform := sound_perform hc (hcapacity ▸ hcap) (setOf x)
    exact ⟨hperform.1, hperform.2.trans hcapacity⟩
  have hget := sound_get h.sound x.1.key x.2.clock
  have hgetCapacity : (s.cache.get x.1.key x.2.clock).2.capacity = capacity :=
    capacity_get.trans h.capacity_eq
  unfold Benchmark.iterate
  split
  · split
    · rename_i hhit
      rw [hhit] at hget hgetCapacity
      exact ⟨hget, hgetCapacity⟩
    · rename_i hmiss
      rw [hmiss] at hget hgetCapacity
      obtain ⟨hsound, hcapacity⟩ := hset _ hget hgetCapacity
      exact ⟨hsound, hcapacity⟩
  · obtain ⟨hsound, hcapacity⟩ := hset _ h.sound h.capacity_eq
    exact ⟨hsound, hcapacity⟩

/-- What the law says of an operation that is a read or not, and leaves room for so many
more. -/
structure Law (s s' : State) (t : Tally) (isRead : Bool) (n : Nat) : Prop where
  range : InRange s' n
  reads : s'.hits + s'.misses = s.hits + s.misses + (if isRead then 1 else 0 : Nat)
  evictions : s'.evictions + t.evictedByReads = s.evictions + t.evicted + t.fullUpdates

/-- The law, from what an operation adds to the counters. -/
theorem Law.of_counters {s' : State} {t : Tally} {isRead : Bool} {n : Nat}
    (hrange : InRange s (n + 1)) (hits misses evictions : Nat)
    (hone : hits ≤ 1 ∧ misses ≤ 1 ∧ evictions ≤ 1) (hhits : s'.hits = s.hits + hits)
    (hmisses : s'.misses = s.misses + misses) (hevictions : s'.evictions = s.evictions + evictions)
    (hreads : hits + misses = if isRead then 1 else 0)
    (hlaw : evictions + t.evictedByReads = t.evicted + t.fullUpdates) : Law s s' t isRead n := by
  obtain ⟨hhitsMax, hmissesMax, hevictionsMax⟩ := hrange
  exact ⟨⟨by omega, by omega, by omega⟩, by omega, by omega⟩

/-- **The law of one operation**: a read counts as a hit or a miss; the count of evictions
misses those after a read, and counts the updates of a full cache. -/
theorem iterate_law (h : Running capacity s) (hcap : 1 ≤ capacity) {n : Nat}
    (hrange : InRange s (n + 1)) (x : BenchOp × OpInput) :
    Law s (iterate capacity s x) (tallyOf capacity s.cache x) x.1.isRead n := by
  have hhits : incInt64 s.hits = s.hits + 1 := incInt64_of_lt (by grind [hrange.hits])
  have hmisses : incInt64 s.misses = s.misses + 1 := incInt64_of_lt (by grind [hrange.misses])
  have hevictions : incInt64 s.evictions = s.evictions + 1 :=
    incInt64_of_lt (by grind [hrange.evictions])
  cases hread : x.1.isRead with
  | true =>
      rcases hget : s.cache.get x.1.key x.2.clock with ⟨found, cache⟩
      cases found with
      | some v =>
          have ht : tallyOf capacity s.cache x = {} := by simp [tallyOf, hread, hget]
          refine .of_counters hrange 1 0 0 (by decide) ?_ ?_ ?_ rfl (by rw [ht])
          all_goals simp [iterate, hread, hget, hhits]
      | none =>
          have ht : (tallyOf capacity s.cache x).evictedByReads =
              (tallyOf capacity s.cache x).evicted + (tallyOf capacity s.cache x).fullUpdates := by
            simp [tallyOf, hread, hget]
          refine .of_counters hrange 0 1 0 (by decide) ?_ ?_ ?_ rfl (by rw [ht, Nat.zero_add])
          all_goals simp [iterate, hread, hget, hmisses]
  | false =>
      have hwithin := h.sound.within
      have hcapacity := h.capacity_eq
      rcases set_effect (x := x) h.sound (hcapacity ▸ hcap) with
        ⟨hkey, hlen, hnone⟩ | ⟨hkey, hroom, hlen, hnone⟩ | ⟨hkey, hfull, hlen, hone⟩
      · by_cases hfull : s.cache.len ≥ capacity
        · refine .of_counters hrange 0 0 1 (by decide) ?_ ?_ ?_ rfl ?_
          all_goals simp [iterate, tallyOf, hread, hkey, hlen, hnone, hfull, hevictions]
        · refine .of_counters hrange 0 0 0 (by decide) ?_ ?_ ?_ rfl ?_
          all_goals simp [iterate, tallyOf, hread, hkey, hlen, hnone, hfull]
      · refine .of_counters hrange 0 0 0 (by decide) ?_ ?_ ?_ rfl ?_
        all_goals simp [iterate, tallyOf, hread, hkey, hlen, hnone]
      · have hfull' : s.cache.len ≥ capacity := by omega
        refine .of_counters hrange 0 0 1 (by decide) ?_ ?_ ?_ rfl ?_
        all_goals simp [iterate, tallyOf, hread, hkey, hlen, hone, hfull', hevictions]

/-- **The law of a run**, the sum of the laws of its operations. -/
theorem run_law (h : Running capacity s) (hcap : 1 ≤ capacity) (xs : List (BenchOp × OpInput))
    (hrange : InRange s xs.length) :
    (xs.foldl (iterate capacity) s).hits + (xs.foldl (iterate capacity) s).misses =
        s.hits + s.misses + reads xs ∧
      (xs.foldl (iterate capacity) s).evictions + (tally capacity s xs).evictedByReads =
        s.evictions + (tally capacity s xs).evicted + (tally capacity s xs).fullUpdates := by
  induction xs generalizing s with
  | nil => simp [reads, tally]
  | cons x xs ih =>
      have hlaw := iterate_law h hcap hrange x
      obtain ⟨hreads, hevictions⟩ := ih (h.iterate hcap x) hlaw.range
      have hcount : reads (x :: xs) = reads xs + if x.1.isRead then 1 else 0 := List.countP_cons
      have hfirstReads := hlaw.reads
      have hfirstEvictions := hlaw.evictions
      rw [List.foldl_cons, hcount]
      simp only [tally, Tally.add]
      constructor
      · omega
      · omega

end Loop

/-- **When the benchmark counts evictions exactly**: if the updates of a full cache are as
many as the evictions after read misses.  Hits and misses are the reads. -/
theorem eviction_count_exact_iff (kind : PolicyKind) (capacity : Nat) (hcap : 1 ≤ capacity)
    (w : Workload) :
    let result := runSingleEvictionBenchmark kind capacity w
    let t := benchmarkTally kind capacity w
    result.hitCount + result.missCount = reads w.ops ∧
      (result.evictionCount = t.evicted ↔ t.fullUpdates = t.evictedByReads) := by
  have hrunning : Running capacity { cache := .new capacity (newPolicy kind) } :=
    ⟨sound_new (tracks_newPolicy kind) capacity, rfl⟩
  have hfits := w.fits
  have hrange : InRange { cache := .new capacity (newPolicy kind) } w.ops.length := by
    constructor <;> dsimp only <;> omega
  obtain ⟨hreads, hevictions⟩ := run_law hrunning hcap w.ops hrange
  simp only [runSingleEvictionBenchmark, benchmarkTally] at hreads hevictions ⊢
  constructor
  · omega
  · omega

/-- Every operation at time zero. -/
def atZero (ops : List BenchOp) : List (BenchOp × OpInput) :=
  ops.map fun op => (op, ⟨⟨0, 0, 0, 0⟩, 0, 0, 0⟩)

/-- Three writes of different keys into a cache for two: one eviction, and it is counted. -/
theorem eviction_count_exact_inserts :
    (runSingleEvictionBenchmark .lru 2
      ⟨atZero [⟨"a", false⟩, ⟨"b", false⟩, ⟨"c", false⟩], by decide⟩).evictionCount =
    (benchmarkTally .lru 2
      ⟨atZero [⟨"a", false⟩, ⟨"b", false⟩, ⟨"c", false⟩], by decide⟩).evicted :=
  ((eviction_count_exact_iff .lru 2 (by decide)
    ⟨atZero [⟨"a", false⟩, ⟨"b", false⟩, ⟨"c", false⟩], by decide⟩).2).mpr (by decide)

/-- **Two writes of one key** into a cache for one evict nothing, and count as an eviction.
**Two reads of different keys** evict an entry, and it is not counted. -/
theorem eviction_count_wrong :
    let writes : Workload := ⟨atZero [⟨"a", false⟩, ⟨"a", false⟩], by decide⟩
    let readMisses : Workload := ⟨atZero [⟨"a", true⟩, ⟨"b", true⟩], by decide⟩
    (runSingleEvictionBenchmark .lru 1 writes).evictionCount = 1 ∧
      (benchmarkTally .lru 1 writes).evicted = 0 ∧
      (runSingleEvictionBenchmark .lru 1 readMisses).evictionCount = 0 ∧
      (benchmarkTally .lru 1 readMisses).evicted = 1 := by
  decide

end Benchmark
