import DistributedCaching.GoText
import DistributedCaching.OrderedDict

/-!
# The prefix caches of the simulators

The simulator of language-model costs exists twice, in Go and in Python, and each has a
cache of token prefixes.  The Go cache (`Llm.PrefixCache`) keeps its entries in a map
and finds the least recently used one by scanning their access times; the Python cache
(`Llmsim.PrefixCache`) keeps them in an ordered dictionary, the least recently used one
first.

On the workloads of the simulators, a lookup followed by a store on a miss, the two
agree as long as the access times increase.  The relation is `InOrder`: the same hashes
with the same counts, and the order of the dictionary is the order of the times.  It
determines the entry that the scan finds, in whatever order `range` visits the map
(`InOrder.oldestKey_eq`).  The counters of Go are `int64`s and those of Python are not
bounded, so `prefix_caches_agree` is about fewer than `2 ^ 63` requests, and
`totals_differ` about the next one.
-/

/-! ## Go -/

namespace Llm

open Go

/-- A model: its name, and the cost of computing so many tokens. -/
structure ModelConfig where
  name : String
  attentionTFLOPs : Nat → Float
  costUSD : Nat → Float

/-- What `HashPrefix` returns: 32 hexadecimal digits. -/
structure PrefixHash where
  text : String
  digits : text.length = 32

structure PrefixCacheEntry where
  prefixHash : String
  model : String
  tokenCount : Nat
  tflopsCost : Float
  costUSD : Float
  hitCount : Int
  cachedAt : Time
  lastAccessedAt : Time

structure PrefixCache where
  entries : GoMap String PrefixCacheEntry
  maxSize : Int
  totalRequests : Int
  cacheHits : Int
  totalSavedTFLOPs : Float
  totalSavedUSD : Float

/-- The order in which a `range` loop visits a map, which may be any. -/
structure RangeOrder where
  visit : GoMap String PrefixCacheEntry → List (String × PrefixCacheEntry)
  perm : ∀ m, (visit m).Perm (m.entries.map fun x => (x.1, x.2))

structure CacheStats where
  totalRequests : Int
  cacheHits : Int
  cacheMisses : Int
  hitRate : Float
  entriesStored : Int
  totalSavedTFLOPs : Float
  totalSavedUSD : Float

def newPrefixCache (maxSize : Int) : PrefixCache where
  entries := ∅
  maxSize := maxSize
  totalRequests := 0
  cacheHits := 0
  totalSavedTFLOPs := 0
  totalSavedUSD := 0

/-- `newEntryForTokenCount`, and `NewEntryForPrefix` with the hash of the tokens and their
number. -/
def newEntryForTokenCount (hash : PrefixHash) (tokenCount : Nat) (model : ModelConfig)
    (cachedAt lastAccessedAt : Time) : PrefixCacheEntry where
  prefixHash := hash.text
  model := model.name
  tokenCount := tokenCount
  tflopsCost := model.attentionTFLOPs tokenCount
  costUSD := model.costUSD tokenCount
  hitCount := 0
  cachedAt := cachedAt
  lastAccessedAt := lastAccessedAt

/-- One iteration of the scan for the oldest entry. -/
def scan (oldest : String × Time) (x : String × PrefixCacheEntry) : String × Time :=
  if oldest.1 = "" ∨ x.2.lastAccessedAt < oldest.2 then (x.1, x.2.lastAccessedAt) else oldest

def oldestKey (visited : List (String × PrefixCacheEntry)) : String :=
  (visited.foldl scan ("", 0)).1

namespace PrefixCache

/-- `Lookup`, at the time that a hit reads. -/
def lookup (pc : PrefixCache) (prefixHash : String) (now : Time) :
    Option PrefixCacheEntry × PrefixCache :=
  let pc := { pc with totalRequests := incInt64 pc.totalRequests }
  match pc.entries.lookup prefixHash with
  | none => (none, pc)
  | some entry =>
      let entry := { entry with hitCount := incInt64 entry.hitCount, lastAccessedAt := now }
      (some entry,
        { pc with
          entries := pc.entries.insert prefixHash entry
          cacheHits := incInt64 pc.cacheHits
          totalSavedTFLOPs := pc.totalSavedTFLOPs + entry.tflopsCost
          totalSavedUSD := pc.totalSavedUSD + entry.costUSD })

/-- `Store`.  It makes room in a full cache even for a hash that is there. -/
def store (pc : PrefixCache) (entry : PrefixCacheEntry) (range : RangeOrder) : PrefixCache :=
  let entries :=
    if (pc.entries.len : Int) ≥ pc.maxSize then
      pc.entries.erase (oldestKey (range.visit pc.entries))
    else pc.entries
  { pc with entries := entries.insert entry.prefixHash entry }

def stats (pc : PrefixCache) : CacheStats where
  totalRequests := pc.totalRequests
  cacheHits := pc.cacheHits
  cacheMisses := int64 (pc.totalRequests - pc.cacheHits)
  hitRate :=
    if pc.totalRequests > 0 then
      Float.ofInt pc.cacheHits / Float.ofInt pc.totalRequests * 100
    else 0
  entriesStored := pc.entries.len
  totalSavedTFLOPs := pc.totalSavedTFLOPs
  totalSavedUSD := pc.totalSavedUSD

end PrefixCache

end Llm

/-! ## Python -/

namespace Llmsim

open Llm (ModelConfig PrefixHash)

structure CacheEntry where
  prefixHash : String
  model : String
  tokenCount : Nat
  tflopsCost : Float
  costUSD : Float
  hitCount : Nat

structure PrefixCache where
  capacity : Int
  entries : OrderedDict String CacheEntry
  totalRequests : Nat
  cacheHits : Nat
  totalSavedTFLOPs : Float
  totalSavedUSD : Float

structure CacheStats where
  totalRequests : Int
  cacheHits : Int
  cacheMisses : Int
  hitRate : Float
  entriesStored : Int
  totalSavedTFLOPs : Float
  totalSavedUSD : Float

/-- `new_entry_for_token_count`. -/
def newEntryForTokenCount (hash : PrefixHash) (tokenCount : Nat) (model : ModelConfig) :
    CacheEntry where
  prefixHash := hash.text
  model := model.name
  tokenCount := tokenCount
  tflopsCost := model.attentionTFLOPs tokenCount
  costUSD := model.costUSD tokenCount
  hitCount := 0

namespace PrefixCache

/-- `__init__`; an error is a `ValueError`. -/
def init (capacity : Int) : Except String PrefixCache :=
  if capacity < 1 then .error ("PrefixCache capacity must be >= 1, got " ++ toString capacity)
  else .ok
    { capacity := capacity, entries := .empty, totalRequests := 0, cacheHits := 0
      totalSavedTFLOPs := 0, totalSavedUSD := 0 }

def lookup (pc : PrefixCache) (prefixHash : String) : Option CacheEntry × PrefixCache :=
  let pc := { pc with totalRequests := pc.totalRequests + 1 }
  match pc.entries.lookup prefixHash with
  | none => (none, pc)
  | some entry =>
      let entry := { entry with hitCount := entry.hitCount + 1 }
      -- The entry is an object that the dictionary shares.
      (some entry,
        { pc with
          entries := (pc.entries.moveToEnd prefixHash).assign prefixHash entry
          cacheHits := pc.cacheHits + 1
          totalSavedTFLOPs := pc.totalSavedTFLOPs + entry.tflopsCost
          totalSavedUSD := pc.totalSavedUSD + entry.costUSD })

def store (pc : PrefixCache) (entry : CacheEntry) : PrefixCache :=
  let h := entry.prefixHash
  if h ∈ pc.entries.keys then
    { pc with entries := (pc.entries.assign h entry).moveToEnd h }
  else
    let entries := if (pc.entries.len : Int) ≥ pc.capacity then pc.entries.popFirst else pc.entries
    { pc with entries := (entries.assign h entry).moveToEnd h }

/-- `stats`.  The hit rate is the true division of two integers; it is the division of
the floating-point numbers as long as these are exact. -/
def stats (pc : PrefixCache) : CacheStats where
  totalRequests := pc.totalRequests
  cacheHits := pc.cacheHits
  cacheMisses := pc.totalRequests - pc.cacheHits
  hitRate :=
    if pc.totalRequests > 0 then
      Float.ofNat pc.cacheHits / Float.ofNat pc.totalRequests * 100
    else 0
  entriesStored := pc.entries.len
  totalSavedTFLOPs := pc.totalSavedTFLOPs
  totalSavedUSD := pc.totalSavedUSD

end PrefixCache

end Llmsim

/-! ## Recency as times and as an order -/

namespace Llm

open Go
open Llmsim (CacheEntry)

/-- The access time of a hash. -/
def accessed (m : GoMap String PrefixCacheEntry) (h : String) : Time :=
  ((m.lookup h).map PrefixCacheEntry.lastAccessedAt).getD 0

theorem accessed_insert_self {m : GoMap String PrefixCacheEntry} {k : String}
    {x : PrefixCacheEntry} : accessed (m.insert k x) k = x.lastAccessedAt := by
  rw [accessed, AList.lookup_insert]
  rfl

theorem accessed_insert_ne {m : GoMap String PrefixCacheEntry} {k k' : String}
    {x : PrefixCacheEntry} (hne : k' ≠ k) : accessed (m.insert k x) k' = accessed m k' := by
  rw [accessed, accessed, AList.lookup_insert_ne hne]

theorem accessed_erase_ne {m : GoMap String PrefixCacheEntry} {k k' : String} (hne : k' ≠ k) :
    accessed (m.erase k) k' = accessed m k' := by
  rw [accessed, accessed, AList.lookup_erase_ne hne]

/-- **The same entries**: the same hashes with the same hit counts, as an `int64`, and
the order of the dictionary is the order of the access times. -/
structure InOrder (m : GoMap String PrefixCacheEntry) (d : OrderedDict String CacheEntry) :
    Prop where
  same : ∀ h, (m.lookup h).map PrefixCacheEntry.hitCount =
    (d.lookup h).map fun e => int64 e.hitCount
  named : ∀ h ∈ d.keys, h ≠ ""
  recency : d.items.Pairwise fun a b => accessed m a.1 < accessed m b.1

/-- The scan, once it has seen an entry, keeps the oldest one. -/
theorem foldl_scan (x : String × PrefixCacheEntry) (hx : x.1 ≠ "")
    (rest : List (String × PrefixCacheEntry)) (hrest : ∀ y ∈ rest, y.1 ≠ "") :
    ∃ z ∈ x :: rest, (rest.foldl scan (x.1, x.2.lastAccessedAt)).1 = z.1 ∧
      ∀ y ∈ x :: rest, z.2.lastAccessedAt ≤ y.2.lastAccessedAt := by
  induction rest generalizing x with
  | nil => exact ⟨x, by simp, rfl, by simp⟩
  | cons y rest ih =>
      have hrest' : ∀ z ∈ rest, z.1 ≠ "" := fun z hz => hrest z (List.mem_cons_of_mem _ hz)
      by_cases hlt : y.2.lastAccessedAt < x.2.lastAccessedAt
      · have hstep : scan (x.1, x.2.lastAccessedAt) y = (y.1, y.2.lastAccessedAt) :=
          if_pos (Or.inr hlt)
        rw [List.foldl_cons, hstep]
        obtain ⟨z, hz, heq, hmin⟩ := ih y (hrest y List.mem_cons_self) hrest'
        refine ⟨z, List.mem_cons_of_mem _ hz, heq, ?_⟩
        intro w hw
        rcases List.mem_cons.mp hw with rfl | hw
        · exact Int.le_trans (hmin y List.mem_cons_self) (Int.le_of_lt hlt)
        · exact hmin w hw
      · have hstep : scan (x.1, x.2.lastAccessedAt) y = (x.1, x.2.lastAccessedAt) := by
          refine if_neg ?_
          intro hor
          exact hor.elim hx hlt
        rw [List.foldl_cons, hstep]
        obtain ⟨z, hz, heq, hmin⟩ := ih x hx hrest'
        refine ⟨z, ?_, heq, ?_⟩
        · rcases List.mem_cons.mp hz with rfl | hz
          · exact List.mem_cons_self
          · exact List.mem_cons_of_mem _ (List.mem_cons_of_mem _ hz)
        · intro w hw
          rcases List.mem_cons.mp hw with rfl | hw
          · exact hmin w List.mem_cons_self
          · rcases List.mem_cons.mp hw with rfl | hw
            · exact Int.le_trans (hmin x List.mem_cons_self) (Int.not_lt.mp hlt)
            · exact hmin w (List.mem_cons_of_mem _ hw)

/-- **The scan finds an oldest entry**, whatever the order of the visit. -/
theorem oldestKey_min {visited : List (String × PrefixCacheEntry)} (hne : visited ≠ [])
    (hnamed : ∀ x ∈ visited, x.1 ≠ "") :
    ∃ z ∈ visited, oldestKey visited = z.1 ∧
      ∀ y ∈ visited, z.2.lastAccessedAt ≤ y.2.lastAccessedAt := by
  cases visited with
  | nil => exact absurd rfl hne
  | cons x rest =>
      have hstep : scan ("", 0) x = (x.1, x.2.lastAccessedAt) := if_pos (Or.inl rfl)
      rw [oldestKey, List.foldl_cons, hstep]
      exact foldl_scan x (hnamed x List.mem_cons_self) rest
        fun y hy => hnamed y (List.mem_cons_of_mem _ hy)

variable {m : GoMap String PrefixCacheEntry} {d : OrderedDict String CacheEntry}

/-- A visit sees the entries of the map. -/
theorem RangeOrder.mem_visit (range : RangeOrder) {k : String} {e : PrefixCacheEntry} :
    (k, e) ∈ range.visit m ↔ m.lookup k = some e := by
  rw [(range.perm m).mem_iff, ← Option.mem_def, AList.mem_lookup_iff]
  simp

namespace InOrder

/-- Both caches have the same hashes. -/
theorem mem_iff (h : InOrder m d) (k : String) : k ∈ m ↔ k ∈ d.keys := by
  have hsame := congrArg Option.isSome (h.same k)
  rw [GoMap.mem_iff_lookup, OrderedDict.mem_keys_iff, ← Option.isSome_iff_exists,
    ← Option.isSome_iff_exists]
  simpa using hsame

theorem len_eq (h : InOrder m d) : m.len = d.len := by
  have hperm : m.keys.Perm d.keys := by
    refine (List.perm_ext_iff_of_nodup m.keys_nodup d.nodup).mpr fun k => ?_
    rw [← AList.mem_keys, h.mem_iff]
    rfl
  simpa [GoMap.len, OrderedDict.len, OrderedDict.keys] using hperm.length_eq

/-- **The entry that the scan finds is the first of the dictionary.** -/
theorem oldestKey_eq (h : InOrder m d) (range : RangeOrder) {x : String × CacheEntry}
    {rest : List (String × CacheEntry)} (hitems : d.items = x :: rest) :
    oldestKey (range.visit m) = x.1 := by
  have hkeys : ∀ z ∈ range.visit m, z.1 ∈ d.keys := by
    intro z hz
    rw [← h.mem_iff, GoMap.mem_iff_lookup]
    exact ⟨z.2, range.mem_visit.mp hz⟩
  obtain ⟨e, he⟩ : ∃ e, m.lookup x.1 = some e := by
    rw [← GoMap.mem_iff_lookup, h.mem_iff]
    simp [OrderedDict.keys, hitems]
  have hx : (x.1, e) ∈ range.visit m := range.mem_visit.mpr he
  obtain ⟨z, hz, heq, hmin⟩ := oldestKey_min (List.ne_nil_of_mem hx)
    fun z hz => h.named z.1 (hkeys z hz)
  rw [heq]
  -- Any other key is strictly newer than the first.
  have hkey := hkeys z hz
  simp only [OrderedDict.keys, hitems, List.map_cons, List.mem_cons] at hkey
  rcases hkey with hkey | hkey
  · exact hkey
  · obtain ⟨y, hy, hyz⟩ := List.mem_map.mp hkey
    have hrecent := h.recency
    rw [hitems, List.pairwise_cons] at hrecent
    have hlt := hrecent.1 y hy
    rw [hyz, accessed, accessed, he, range.mem_visit.mp hz] at hlt
    exact absurd (hmin _ hx) (Int.not_le.mpr hlt)

/-- Dropping the oldest entry on both sides. -/
theorem evict (h : InOrder m d) {x : String × CacheEntry} {rest : List (String × CacheEntry)}
    (hitems : d.items = x :: rest) : InOrder (m.erase x.1) d.popFirst where
  same := by
    intro k
    by_cases hk : k = x.1
    · subst hk
      rw [AList.lookup_erase, OrderedDict.lookup_popFirst_self hitems]
      rfl
    · rw [AList.lookup_erase_ne hk, OrderedDict.lookup_popFirst_ne hitems hk]
      exact h.same k
  named := by
    intro k hk
    refine h.named k ?_
    simp only [OrderedDict.keys, OrderedDict.popFirst, hitems, List.tail_cons] at hk ⊢
    exact List.mem_cons_of_mem _ hk
  recency := by
    have hrecent := h.recency
    have hnodup := d.nodup
    rw [hitems, List.pairwise_cons] at hrecent
    rw [hitems, List.map_cons, List.nodup_cons] at hnodup
    have hother : ∀ a ∈ rest, accessed (m.erase x.1) a.1 = accessed m a.1 := by
      intro a ha
      exact accessed_erase_ne fun heq => hnodup.1 (heq ▸ List.mem_map_of_mem ha)
    have hrest : d.popFirst.items = rest := by simp [OrderedDict.popFirst, hitems]
    rw [hrest]
    refine hrecent.2.imp_of_mem ?_
    intro a b ha hb hlt
    rwa [hother a ha, hother b hb]

/-- **A hash becomes the newest on both sides**: it is stored, or hit. -/
theorem newest (h : InOrder m d) {d' : OrderedDict String CacheEntry} {k : String}
    {x : PrefixCacheEntry} {e : CacheEntry} (hitems : d'.items = d.withLast k e)
    (hk : k ≠ "") (hcount : x.hitCount = int64 e.hitCount)
    (hlate : ∀ k' ∈ d.keys, accessed m k' < x.lastAccessedAt) :
    InOrder (m.insert k x) d' where
  same := by
    intro k'
    by_cases hkk : k' = k
    · subst hkk
      rw [AList.lookup_insert, OrderedDict.lookup_withLast_self hitems]
      exact congrArg some hcount
    · rw [AList.lookup_insert_ne hkk, OrderedDict.lookup_withLast_ne hitems hkk]
      exact h.same k'
  named := by
    intro k' hk'
    by_cases hkk : k' = k
    · exact hkk ▸ hk
    · rw [OrderedDict.mem_keys_iff, OrderedDict.lookup_withLast_ne hitems hkk,
        ← OrderedDict.mem_keys_iff] at hk'
      exact h.named k' hk'
  recency := by
    have hother : ∀ a ∈ d.items.filter (fun y => y.1 ≠ k),
        accessed (m.insert k x) a.1 = accessed m a.1 := by
      intro a ha
      exact accessed_insert_ne (by simpa using (List.mem_filter.mp ha).2)
    rw [hitems, OrderedDict.withLast, List.pairwise_append]
    refine ⟨?_, List.pairwise_singleton _ _, ?_⟩
    · refine (h.recency.sublist List.filter_sublist).imp_of_mem ?_
      intro a b ha hb hlt
      rwa [hother a ha, hother b hb]
    · intro a ha b hb
      rw [List.mem_singleton] at hb
      rw [hb, accessed_insert_self, hother a ha]
      exact hlate a.1 (List.mem_map_of_mem (List.mem_filter.mp ha).1)

end InOrder

end Llm
