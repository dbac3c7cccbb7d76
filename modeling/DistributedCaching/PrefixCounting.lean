import DistributedCaching.PrefixInclusion
import Mathlib.Algebra.Order.Field.Rat
import Mathlib.Data.Bool.Count
import Mathlib.Data.Finset.Card
import Mathlib.Tactic.FieldSimp
import Mathlib.Tactic.Linarith
import Mathlib.Tactic.Ring

/-!
# Misses count the distinct prefixes

A prefix cache with room for every hash of a workload never evicts, so it misses each
new hash once.  The savings that the simulators report follow from this count.

The argument is the same for both caches.  `StoreOnMiss` is what it needs to know of
one: which hashes it holds, how a store and a request change them while there is room,
and what its counters count.  `StoreOnMiss.serve` is the induction over a workload, and
`distinct_misses` reads it for the Go cache and for the Python cache.
-/

namespace Llm

open Go

/-- The hashes of some requests. -/
def hashSet (rs : List Request) : Finset String := (rs.map fun r => r.hash.text).toFinset

@[simp] theorem hashSet_nil : hashSet [] = ∅ := rfl

@[simp] theorem hashSet_cons (r : Request) (rs : List Request) :
    hashSet (r :: rs) = insert r.hash.text (hashSet rs) := List.toFinset_cons

/-- The hashes of two workloads, one after the other, are those of both. -/
theorem hashSet_append (rs rs' : List Request) :
    hashSet (rs ++ rs') = hashSet rs ∪ hashSet rs' := by
  simp [hashSet]

/-- A cache that is asked for a prefix, and stores it on a miss. -/
structure StoreOnMiss (σ : Type) where
  warm : σ → Request → σ
  request : σ → Request → Bool × σ
  held : σ → Finset String
  capacity : σ → Int
  /-- The counters stand for so many requests and so many hits. -/
  Counts : σ → Nat → Nat → Prop
  warm_new : ∀ {s r}, r.hash.text ∉ held s → ((held s).card : Int) < capacity s →
    held (warm s r) = insert r.hash.text (held s)
  capacity_warm : ∀ s r, capacity (warm s r) = capacity s
  counts_warm : ∀ {s t h}, Counts s t h → ∀ r, Counts (warm s r) t h
  request_held : ∀ {s r}, r.hash.text ∈ held s →
    (request s r).1 = true ∧ held (request s r).2 = held s
  request_new : ∀ {s r}, r.hash.text ∉ held s → ((held s).card : Int) < capacity s →
    (request s r).1 = false ∧ held (request s r).2 = insert r.hash.text (held s)
  capacity_request : ∀ s r, capacity (request s r).2 = capacity s
  counts_request : ∀ {s t h}, Counts s t h → ∀ r,
    Counts (request s r).2 (t + 1) (h + (request s r).1.toNat)

namespace StoreOnMiss

variable {σ : Type} (c : StoreOnMiss σ) {s : σ}

/-- Storing new prefixes while there is room for all of them. -/
theorem preload {rs : List Request} (hdistinct : (rs.map fun r => r.hash.text).Nodup)
    (hnew : ∀ r ∈ rs, r.hash.text ∉ c.held s)
    (hroom : ((c.held s ∪ hashSet rs).card : Int) ≤ c.capacity s) :
    c.held (rs.foldl c.warm s) = c.held s ∪ hashSet rs := by
  induction rs generalizing s with
  | nil => simp
  | cons r rs ih =>
      rw [List.map_cons, List.nodup_cons] at hdistinct
      rw [hashSet_cons, Finset.union_insert] at hroom ⊢
      have hr : r.hash.text ∉ c.held s := hnew r List.mem_cons_self
      have hsub : insert r.hash.text (c.held s) ⊆ insert r.hash.text (c.held s ∪ hashSet rs) :=
        Finset.insert_subset_insert _ Finset.subset_union_left
      have hcard := Finset.card_le_card hsub
      rw [Finset.card_insert_of_notMem hr] at hcard
      have hheld := c.warm_new hr (by omega)
      have hrest := ih hdistinct.2 (s := c.warm s r) ?_ ?_
      · rw [List.foldl_cons, hrest, hheld, Finset.insert_union]
      · intro r' hr'
        rw [hheld, Finset.mem_insert, not_or]
        refine ⟨?_, hnew r' (List.mem_cons_of_mem _ hr')⟩
        intro heq
        exact hdistinct.1 (heq ▸ List.mem_map_of_mem hr')
      · rw [hheld, Finset.insert_union, c.capacity_warm]
        exact hroom

/-- Every request is answered. -/
theorem length_answers (request : σ → Request → Bool × σ) (s : σ) (rs : List Request) :
    (serveAll request s rs).1.length = rs.length := by
  induction rs generalizing s with
  | nil => rfl
  | cons r rs ih => exact congrArg (· + 1) (ih _)

/-- The counters count the requests and the answers. -/
theorem counts_serve (rs : List Request) {t h : Nat} (hcounts : c.Counts s t h) :
    c.Counts (serveAll c.request s rs).2 (t + rs.length)
      (h + (serveAll c.request s rs).1.count true) := by
  induction rs generalizing s t h with
  | nil => exact hcounts
  | cons r rs ih =>
      have hrest := ih (c.counts_request hcounts r)
      have htotal : t + (r :: rs).length = t + 1 + rs.length := by
        rw [List.length_cons]
        omega
      have hhits : h + (serveAll c.request s (r :: rs)).1.count true =
          h + (c.request s r).1.toNat +
            (serveAll c.request (c.request s r).2 rs).1.count true := by
        simp only [serveAll, List.count_cons]
        cases (c.request s r).1
        · simp
        · simp
          omega
      rw [htotal, hhits]
      exact hrest

/-- **Serving requests with room for all hashes**: nothing is evicted, and the misses are
the first requests for the hashes that were not there. -/
theorem serve (rs : List Request)
    (hroom : ((c.held s ∪ hashSet rs).card : Int) ≤ c.capacity s) :
    c.held (serveAll c.request s rs).2 = c.held s ∪ hashSet rs ∧
      (serveAll c.request s rs).1.count false = (hashSet rs \ c.held s).card := by
  induction rs generalizing s with
  | nil => simp [serveAll]
  | cons r rs ih =>
      rw [hashSet_cons, Finset.union_insert] at hroom ⊢
      have hcapacity := c.capacity_request s r
      by_cases hr : r.hash.text ∈ c.held s
      · obtain ⟨hhit, hheld⟩ := c.request_held hr
        have hall : insert r.hash.text (c.held s ∪ hashSet rs) = c.held s ∪ hashSet rs :=
          Finset.insert_eq_self.mpr (Finset.mem_union_left _ hr)
        rw [hall] at hroom ⊢
        obtain ⟨hend, hmisses⟩ := ih (s := (c.request s r).2) (by rw [hheld, hcapacity]; exact hroom)
        rw [hheld] at hend hmisses
        refine ⟨hend, ?_⟩
        rw [Finset.insert_sdiff_of_mem _ hr, ← hmisses]
        simp [serveAll, hhit]
      · have hsub : insert r.hash.text (c.held s) ⊆ insert r.hash.text (c.held s ∪ hashSet rs) :=
          Finset.insert_subset_insert _ Finset.subset_union_left
        have hcard := Finset.card_le_card hsub
        rw [Finset.card_insert_of_notMem hr] at hcard
        obtain ⟨hmiss, hheld⟩ := c.request_new hr (by omega)
        rw [← Finset.insert_union] at hroom ⊢
        obtain ⟨hend, hmisses⟩ := ih (s := (c.request s r).2) (by rw [hheld, hcapacity]; exact hroom)
        rw [hheld] at hend hmisses
        refine ⟨hend, ?_⟩
        -- This hash is missed here, and no more.
        have hsplit : insert r.hash.text (hashSet rs) \ c.held s =
            insert r.hash.text (hashSet rs \ insert r.hash.text (c.held s)) := by
          ext k
          by_cases hk : k = r.hash.text
          · simp [hk, hr]
          · simp [hk]
        rw [hsplit, Finset.card_insert_of_notMem (by simp), ← hmisses]
        simp [serveAll, hmiss]

/-- The capacity and the counters while prefixes are stored. -/
theorem preload_keeps {t h : Nat} (rs : List Request) (hcounts : c.Counts s t h) :
    c.capacity (rs.foldl c.warm s) = c.capacity s ∧ c.Counts (rs.foldl c.warm s) t h := by
  induction rs generalizing s with
  | nil => exact ⟨rfl, hcounts⟩
  | cons r rs ih =>
      obtain ⟨hrest, hcounted⟩ := ih (c.counts_warm hcounts r)
      exact ⟨hrest.trans (c.capacity_warm s r), hcounted⟩

/-- **A workload from an empty cache**, with room for all its hashes. -/
theorem workload (hempty : c.held s = ∅) (hzero : c.Counts s 0 0) {initial requests : List Request}
    (hdistinct : (initial.map fun r => r.hash.text).Nodup)
    (hroom : ((hashSet (initial ++ requests)).card : Int) ≤ c.capacity s) :
    c.held (serveAll c.request (initial.foldl c.warm s) requests).2 =
        hashSet initial ∪ hashSet requests ∧
      ∃ hits, hits + (hashSet requests \ hashSet initial).card = requests.length ∧
        c.Counts (serveAll c.request (initial.foldl c.warm s) requests).2 requests.length hits := by
  rw [hashSet_append] at hroom
  have hinitial : ((hashSet initial).card : Int) ≤ c.capacity s := by
    have hsub : hashSet initial ⊆ hashSet initial ∪ hashSet requests := Finset.subset_union_left
    have hle := Finset.card_le_card hsub
    omega
  have hloaded : c.held (initial.foldl c.warm s) = hashSet initial := by
    have hall := c.preload (s := s) hdistinct (by simp [hempty]) (by simpa [hempty] using hinitial)
    rwa [hempty, Finset.empty_union] at hall
  obtain ⟨hcapacity, hcounted⟩ := c.preload_keeps initial hzero
  obtain ⟨hend, hmisses⟩ := c.serve (s := initial.foldl c.warm s) requests
    (by rw [hloaded, hcapacity]; exact hroom)
  rw [hloaded] at hend hmisses
  have hcounts := c.counts_serve requests hcounted
  rw [Nat.zero_add, Nat.zero_add] at hcounts
  refine ⟨hend, _, ?_, hcounts⟩
  have hlength := length_answers c.request (initial.foldl c.warm s) requests
  have hboth := List.count_true_add_count_false
    (serveAll c.request (initial.foldl c.warm s) requests).1
  omega

end StoreOnMiss

/-! ## The two caches -/

section Go

variable {ν : Type} (m : GoMap String ν) (k : String)

theorem card_keys : m.keys.toFinset.card = m.len := List.toFinset_card_of_nodup m.keys_nodup

theorem mem_keys_iff_lookup : k ∈ m.keys.toFinset ↔ ∃ v, m.lookup k = some v := by
  rw [List.mem_toFinset, ← AList.mem_keys, GoMap.mem_iff_lookup]

theorem keys_insert_toFinset (v : ν) :
    (m.insert k v).keys.toFinset = insert k m.keys.toFinset := by
  ext k'
  simp only [List.mem_toFinset, Finset.mem_insert, ← AList.mem_keys, AList.mem_insert]

variable {g : PrefixCache} {r : Request}

/-- A store into a cache with room. -/
theorem keys_warm_room (h : (g.entries.keys.toFinset.card : Int) < g.maxSize) :
    (g.warm r).entries.keys.toFinset = insert r.hash.text g.entries.keys.toFinset := by
  rw [card_keys] at h
  simp only [PrefixCache.warm, PrefixCache.store, if_neg (Int.not_le.mpr h)]
  exact keys_insert_toFinset _ _ _

end Go

/-- The Go cache: its counters are `int64`s. -/
def goCache : StoreOnMiss PrefixCache where
  warm := PrefixCache.warm
  request := PrefixCache.request
  held g := g.entries.keys.toFinset
  capacity g := g.maxSize
  Counts g t h := g.totalRequests = int64 t ∧ g.cacheHits = int64 h
  warm_new := fun _ hroom => keys_warm_room hroom
  capacity_warm := fun _ _ => rfl
  counts_warm := fun h _ => h
  request_held := by
    intro g r hheld
    obtain ⟨x, hx⟩ := (mem_keys_iff_lookup _ _).mp hheld
    rw [PrefixCache.request_hit hx]
    exact ⟨rfl, (keys_insert_toFinset _ _ _).trans (Finset.insert_eq_self.mpr hheld)⟩
  request_new := by
    intro g r hnew hroom
    have hnone : g.entries.lookup r.hash.text = none :=
      Option.eq_none_iff_forall_ne_some.mpr fun x hx => hnew ((mem_keys_iff_lookup _ _).mpr ⟨x, hx⟩)
    rw [PrefixCache.request_miss hnone]
    exact ⟨rfl, keys_warm_room (g := { g with totalRequests := incInt64 g.totalRequests }) hroom⟩
  capacity_request := by
    intro g r
    cases h : g.entries.lookup r.hash.text with
    | none => exact congrArg (fun x => x.2.maxSize) (PrefixCache.request_miss h)
    | some x => exact congrArg (fun x => x.2.maxSize) (PrefixCache.request_hit h)
  counts_request := by
    intro g t n hcounts r
    have htotal : incInt64 g.totalRequests = int64 (t + 1 : Nat) := by
      rw [hcounts.1, incInt64_int64]
      rfl
    cases h : g.entries.lookup r.hash.text with
    | none =>
        rw [PrefixCache.request_miss h]
        exact ⟨htotal, hcounts.2⟩
    | some x =>
        rw [PrefixCache.request_hit h]
        refine ⟨htotal, ?_⟩
        show incInt64 g.cacheHits = int64 (n + 1 : Nat)
        rw [hcounts.2, incInt64_int64]
        rfl

/-- A store of a new hash into a Python cache with room. -/
theorem pythonKeys_warm_room {p : Llmsim.PrefixCache} {r : Request}
    (hnew : r.hash.text ∉ p.entries.keys) (hroom : (p.entries.len : Int) < p.capacity) :
    (p.warm r).entries.keys.toFinset = insert r.hash.text p.entries.keys.toFinset := by
  have hnew' : ¬ (Llmsim.newEntryForTokenCount r.hash r.tokenCount r.model).prefixHash ∈
      p.entries.keys := hnew
  simp only [Llmsim.PrefixCache.warm, Llmsim.PrefixCache.store, if_neg hnew',
    if_neg (Int.not_le.mpr hroom)]
  ext k
  rw [List.mem_toFinset, OrderedDict.mem_keys_withLast (OrderedDict.items_assign_moveToEnd _ _ _),
    Finset.mem_insert, List.mem_toFinset]
  rfl

theorem card_pythonKeys (p : Llmsim.PrefixCache) :
    p.entries.keys.toFinset.card = p.entries.len := by
  have hnodup : p.entries.keys.Nodup := p.entries.nodup
  rw [List.toFinset_card_of_nodup hnodup, OrderedDict.length_keys]

/-- The Python cache. -/
def pythonCache : StoreOnMiss Llmsim.PrefixCache where
  warm := Llmsim.PrefixCache.warm
  request := Llmsim.PrefixCache.request
  held p := p.entries.keys.toFinset
  capacity p := p.capacity
  Counts p t h := p.totalRequests = t ∧ p.cacheHits = h
  warm_new := by
    intro p r hnew hroom
    rw [card_pythonKeys] at hroom
    exact pythonKeys_warm_room (fun hmem => hnew (List.mem_toFinset.mpr hmem)) hroom
  capacity_warm := fun p r => (warm_counters p r).2.2
  counts_warm := by
    intro p t n hcounts r
    obtain ⟨htotal, hhits, _⟩ := warm_counters p r
    exact ⟨htotal.trans hcounts.1, hhits.trans hcounts.2⟩
  request_held := by
    intro p r hheld
    obtain ⟨e, he⟩ := OrderedDict.mem_keys_iff.mp (List.mem_toFinset.mp hheld)
    rw [Llmsim.PrefixCache.request_hit he]
    refine ⟨rfl, ?_⟩
    ext k
    rw [List.mem_toFinset, OrderedDict.mem_keys_withLast (OrderedDict.items_moveToEnd_assign he),
      List.mem_toFinset, or_iff_right_of_imp]
    intro heq
    exact heq ▸ List.mem_toFinset.mp hheld
  request_new := by
    intro p r hnew hroom
    rw [card_pythonKeys] at hroom
    have hkey : r.hash.text ∉ p.entries.keys := fun hmem => hnew (List.mem_toFinset.mpr hmem)
    rw [Llmsim.PrefixCache.request_miss (OrderedDict.lookup_eq_none_iff.mpr hkey)]
    exact ⟨rfl, pythonKeys_warm_room (p := { p with totalRequests := p.totalRequests + 1 })
      hkey hroom⟩
  capacity_request := fun p r => (Llmsim.request_counters p r).1
  counts_request := by
    intro p t n hcounts r
    obtain ⟨_, htotal, hhits⟩ := Llmsim.request_counters p r
    exact ⟨by rw [htotal, hcounts.1], by rw [hhits, hcounts.2]⟩

/-! ## Savings -/

/-- The costs that a simulator reports, in exact arithmetic. -/
structure CostReport where
  withoutCacheCost : ℚ
  withCacheCost : ℚ
  savingsUSD : ℚ
  savingsPct : ℚ
  deriving DecidableEq

/-- The report of `RunScenario`, of `RunRAGSimulation` and of `run_rag_simulation`: every
request pays without a cache, and every miss with one. -/
def costReport (prefixCost : ℚ) (numRequests cacheMisses : Int) : CostReport :=
  let withoutCacheCost := prefixCost * numRequests
  let withCacheCost := prefixCost * cacheMisses
  let savingsUSD := withoutCacheCost - withCacheCost
  { withoutCacheCost := withoutCacheCost
    withCacheCost := withCacheCost
    savingsUSD := savingsUSD
    savingsPct := if withoutCacheCost > 0 then savingsUSD / withoutCacheCost * 100 else 0 }

variable {cost : ℚ} {n : Int}

/-- The savings are the cost of the requests that were not misses. -/
theorem costReport_savings (cost : ℚ) (n misses : Int) :
    (costReport cost n misses).savingsUSD = cost * ((n - misses : Int) : ℚ) := by
  simp only [costReport]
  push_cast
  ring

/-- The percentage saved is that of the requests that were not misses. -/
theorem costReport_pct (hcost : 0 < cost) (hn : 0 < n) (misses : Int) :
    (costReport cost n misses).savingsPct = 100 * ((n - misses : Int) : ℚ) / n := by
  have hn' : (0 : ℚ) < n := by exact_mod_cast hn
  have hpos : cost * (n : ℚ) > 0 := mul_pos hcost hn'
  simp only [costReport, if_pos hpos]
  push_cast
  field_simp

/-- **The counting law** for the totals that a cache reports after a workload, and for the
savings computed from them. -/
structure CountingLaw (initial requests : List Request) (total hits misses : Int) : Prop where
  total_eq : total = requests.length
  misses_eq : misses = (hashSet requests \ hashSet initial).card
  hits_eq : hits = requests.length - misses
  savings : ∀ cost : ℚ, 0 < cost →
    (costReport cost requests.length misses).savingsUSD = cost * hits
  percentage : ∀ cost : ℚ, 0 < cost → 1 ≤ requests.length →
    (costReport cost requests.length misses).savingsPct = 100 * hits / requests.length ∧
      0 ≤ (costReport cost requests.length misses).savingsPct ∧
      (costReport cost requests.length misses).savingsPct ≤ 100

/-- The savings follow from the counts. -/
theorem countingLaw_of_counts {initial requests : List Request} {hits : Nat}
    (hcount : hits + (hashSet requests \ hashSet initial).card = requests.length) :
    CountingLaw initial requests requests.length hits
      ((requests.length : Int) - hits) where
  total_eq := rfl
  misses_eq := by omega
  hits_eq := by omega
  savings := by
    intro cost _
    have hdiff : (requests.length : Int) - (requests.length - hits) = hits := by omega
    rw [costReport_savings, hdiff]
  percentage := by
    intro cost hcost hone
    have hdiff : (requests.length : Int) - (requests.length - hits) = hits := by omega
    have hpos : (0 : ℚ) < requests.length := by exact_mod_cast hone
    have hle : (hits : ℚ) ≤ requests.length := by
      exact_mod_cast (by omega : hits ≤ requests.length)
    have hnonneg : (0 : ℚ) ≤ hits := Nat.cast_nonneg _
    have hpct := costReport_pct hcost (by exact_mod_cast hone : (0 : Int) < requests.length)
      (requests.length - hits)
    rw [hdiff] at hpct
    push_cast at hpct ⊢
    rw [hpct]
    refine ⟨rfl, div_nonneg (mul_nonneg (by norm_num) hnonneg) hpos.le, ?_⟩
    rw [div_le_iff₀ hpos]
    linarith

/-- The hashes of a part of some requests. -/
theorem card_hashSet_le {rs rs' : List Request} (h : rs ⊆ rs') :
    (hashSet rs).card ≤ (hashSet rs').card := by
  refine Finset.card_le_card fun k hk => ?_
  simp only [hashSet, List.mem_toFinset, List.mem_map] at hk ⊢
  obtain ⟨r, hr, hk⟩ := hk
  exact ⟨r, h hr, hk⟩

section Workloads

variable {σ : Type} (c : StoreOnMiss σ) {s : σ} {initial requests : List Request}
  (hempty : c.held s = ∅) (hzero : c.Counts s 0 0)
  (hdistinct : (initial.map fun r => r.hash.text).Nodup)
  (hroom : ((hashSet (initial ++ requests)).card : Int) ≤ c.capacity s)

include hempty hzero hdistinct hroom

/-- **Nothing is ever evicted**: not while the first prefixes are stored, -/
theorem StoreOnMiss.retains_initial (i : Nat) :
    c.held ((initial.take i).foldl c.warm s) = hashSet (initial.take i) := by
  have hsub : initial.take i ++ [] ⊆ initial ++ requests := by
    rw [List.append_nil]
    exact fun r hr => List.mem_append_left _ (List.mem_of_mem_take hr)
  have hle := card_hashSet_le hsub
  have hfit : ((hashSet (initial.take i ++ [])).card : Int) ≤ c.capacity s := by omega
  have hpart := (c.workload hempty hzero
    (hdistinct.sublist ((List.take_sublist i initial).map _)) hfit).1
  simpa [serveAll] using hpart

/-- and not while requests are served. -/
theorem StoreOnMiss.retains (n : Nat) :
    c.held (serveAll c.request (initial.foldl c.warm s) (requests.take n)).2 =
      hashSet initial ∪ hashSet (requests.take n) := by
  have hsub : initial ++ requests.take n ⊆ initial ++ requests :=
    ((List.Sublist.refl initial).append (List.take_sublist n requests)).subset
  have hle := card_hashSet_le hsub
  exact (c.workload hempty hzero hdistinct (by omega)).1

end Workloads

/-- A new cache holds nothing and has counted nothing. -/
theorem goCache_empty (capacity : Int) :
    goCache.held (newPrefixCache capacity) = ∅ ∧ goCache.Counts (newPrefixCache capacity) 0 0 :=
  ⟨rfl, (int64_of_lt (n := 0) (by decide)).symm, (int64_of_lt (n := 0) (by decide)).symm⟩

/-- A new cache of the simulator holds nothing and has counted nothing. -/
theorem pythonCache_empty (capacity : Int) :
    pythonCache.held (emptyPython capacity) = ∅ ∧ pythonCache.Counts (emptyPython capacity) 0 0 :=
  ⟨rfl, rfl, rfl⟩

/-- The Go cache reports what its counters stand for, below `2 ^ 63` requests. -/
theorem goCache_law {g : PrefixCache} {initial requests : List Request} {hits : Nat}
    (hcount : hits + (hashSet requests \ hashSet initial).card = requests.length)
    (hcounts : goCache.Counts g requests.length hits) (hfew : requests.length < 2 ^ 63) :
    CountingLaw initial requests g.stats.totalRequests g.stats.cacheHits g.stats.cacheMisses := by
  have htotal : g.totalRequests = requests.length := hcounts.1.trans (int64_of_lt hfew)
  have hhits : g.cacheHits = hits := hcounts.2.trans (int64_of_lt (by omega))
  have hmisses : g.stats.cacheMisses = requests.length - hits := by
    have hdiff : (requests.length : Int) - hits = (requests.length - hits : Nat) := by omega
    show int64 (g.totalRequests - g.cacheHits) = _
    rw [htotal, hhits, hdiff, int64_of_lt (by omega)]
  have htotals : g.stats.totalRequests = requests.length ∧ g.stats.cacheHits = hits :=
    ⟨htotal, hhits⟩
  rw [htotals.1, htotals.2, hmisses]
  exact countingLaw_of_counts hcount

/-- The Python cache reports what its counters stand for. -/
theorem pythonCache_law {p : Llmsim.PrefixCache} {initial requests : List Request} {hits : Nat}
    (hcount : hits + (hashSet requests \ hashSet initial).card = requests.length)
    (hcounts : pythonCache.Counts p requests.length hits) :
    CountingLaw initial requests p.stats.totalRequests p.stats.cacheHits p.stats.cacheMisses := by
  have htotals : p.stats.totalRequests = requests.length ∧ p.stats.cacheHits = hits :=
    ⟨congrArg Int.ofNat hcounts.1, congrArg Int.ofNat hcounts.2⟩
  have hmisses : p.stats.cacheMisses = p.stats.totalRequests - p.stats.cacheHits := rfl
  rw [hmisses, htotals.1, htotals.2]
  exact countingLaw_of_counts hcount

/-- **Misses count the distinct prefixes.**  Store prefixes with different hashes, then
serve requests, in a cache with room for all the hashes.  Neither cache ever evicts: both
hold the stored hashes and those requested so far.  The Python cache reports what the
counting law says, and so does the Go cache for fewer than `2 ^ 63` requests. -/
theorem distinct_misses (capacity : Int) (initial requests : List Request)
    (hdistinct : (initial.map fun r => r.hash.text).Nodup)
    (hroom : ((hashSet (initial ++ requests)).card : Int) ≤ capacity) :
    (let load := fun i => (initial.take i).foldl PrefixCache.warm (newPrefixCache capacity)
      let g := fun n => (serveAll PrefixCache.request
        (initial.foldl PrefixCache.warm (newPrefixCache capacity)) (requests.take n)).2
      let stats := (g requests.length).stats
      (∀ i h, h ∈ (load i).entries ↔ h ∈ hashSet (initial.take i)) ∧
      (∀ n h, h ∈ (g n).entries ↔ h ∈ hashSet initial ∨ h ∈ hashSet (requests.take n)) ∧
      (requests.length < 2 ^ 63 →
        CountingLaw initial requests stats.totalRequests stats.cacheHits stats.cacheMisses)) ∧
    ∀ py, Llmsim.PrefixCache.init capacity = .ok py →
      let load := fun i => (initial.take i).foldl Llmsim.PrefixCache.warm py
      let p := fun n => (serveAll Llmsim.PrefixCache.request
        (initial.foldl Llmsim.PrefixCache.warm py) (requests.take n)).2
      let stats := (p requests.length).stats
      (∀ i h, h ∈ (load i).entries.keys ↔ h ∈ hashSet (initial.take i)) ∧
      (∀ n h, h ∈ (p n).entries.keys ↔ h ∈ hashSet initial ∨ h ∈ hashSet (requests.take n)) ∧
      CountingLaw initial requests stats.totalRequests stats.cacheHits stats.cacheMisses := by
  have hall : requests.take requests.length = requests := List.take_length
  constructor
  · obtain ⟨hempty, hzero⟩ := goCache_empty capacity
    intro load g stats
    refine ⟨?_, ?_, ?_⟩
    · intro i h
      rw [← goCache.retains_initial hempty hzero hdistinct hroom i, AList.mem_keys,
        ← List.mem_toFinset]
      rfl
    · intro n h
      rw [← Finset.mem_union, ← goCache.retains hempty hzero hdistinct hroom n, AList.mem_keys,
        ← List.mem_toFinset]
      rfl
    · intro hfew
      obtain ⟨_, hits, hcount, hcounts⟩ := goCache.workload hempty hzero hdistinct hroom
      simp only [stats, g, hall]
      exact goCache_law hcount hcounts hfew
  · intro py hpy load p stats
    have hcap : 1 ≤ capacity := by
      by_contra hsmall
      rw [Llmsim.PrefixCache.init, if_pos (by omega)] at hpy
      cases hpy
    rw [init_ok hcap] at hpy
    cases hpy
    obtain ⟨hempty, hzero⟩ := pythonCache_empty capacity
    refine ⟨?_, ?_, ?_⟩
    · intro i h
      rw [← pythonCache.retains_initial hempty hzero hdistinct hroom i, ← List.mem_toFinset]
      rfl
    · intro n h
      rw [← Finset.mem_union, ← pythonCache.retains hempty hzero hdistinct hroom n,
        ← List.mem_toFinset]
      rfl
    · obtain ⟨_, hits, hcount, hcounts⟩ := pythonCache.workload hempty hzero hdistinct hroom
      simp only [stats, p, hall]
      exact pythonCache_law hcount hcounts

/-- One stored prefix and three requests for two prefixes: one miss. -/
theorem distinct_misses_example :
    let requests := [sampleRequest true 2, sampleRequest false 3, sampleRequest true 4]
    let g := (serveAll PrefixCache.request
      ([sampleRequest false 1].foldl PrefixCache.warm (newPrefixCache 2)) requests).2
    g.stats.cacheMisses = 1 ∧
      CountingLaw [sampleRequest false 1] requests g.stats.totalRequests g.stats.cacheHits
        g.stats.cacheMisses := by
  intro requests g
  have hall := (distinct_misses 2 [sampleRequest false 1] requests (by decide) (by decide)).1.2.2
    (by decide)
  exact ⟨by decide, hall⟩

theorem card_hashSet_sameRequests (n : Nat) : (hashSet (sameRequests n)).card ≤ 1 := by
  have hsub : hashSet (sameRequests n) ⊆ {(sampleRequest false 0).hash.text} := by
    intro k hk
    simp only [hashSet, sameRequests, List.map_map, List.mem_toFinset, List.mem_map] at hk
    obtain ⟨i, _, rfl⟩ := hk
    exact Finset.mem_singleton_self _
  exact (Finset.card_le_card hsub).trans (Finset.card_singleton _).le

/-- **After `2 ^ 63` requests for one prefix** the Go cache, with room for it, reports a
negative number of requests. -/
theorem wrapped_total :
    let g := (serveAll PrefixCache.request (newPrefixCache 1) (sameRequests (2 ^ 63))).2
    ((hashSet ([] ++ sameRequests (2 ^ 63))).card : Int) ≤ 1 ∧
      g.stats.totalRequests = -2 ^ 63 ∧
      ¬ CountingLaw [] (sameRequests (2 ^ 63)) g.stats.totalRequests g.stats.cacheHits
        g.stats.cacheMisses := by
  have htotal := (totals_after (2 ^ 63)).1.trans (by decide : int64 (2 ^ 63 : Nat) = -2 ^ 63)
  refine ⟨?_, htotal, ?_⟩
  · rw [List.nil_append]
    exact Int.ofNat_le.mpr (card_hashSet_sameRequests (2 ^ 63))
  · intro hlaw
    have heq := htotal.symm.trans hlaw.total_eq
    have hlength : (sameRequests (2 ^ 63)).length = 2 ^ 63 := by simp [sameRequests]
    rw [hlength] at heq
    exact absurd heq (by decide)

end Llm
