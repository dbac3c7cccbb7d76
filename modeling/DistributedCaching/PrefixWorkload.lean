import DistributedCaching.PrefixCache

/-!
# Simulated workloads on the two prefix caches

The loop that all four simulators share: some prefixes are stored first, and then
each request looks its hash up and stores a new entry on a miss.  `Agree` relates a
Go cache to a Python cache that have served the same requests; a store and a request
keep it, if the clock of the Go side has moved on (`Agree.warm`, `Agree.request`).
-/

namespace Llm

open Go

/-- A prefix that is stored or requested: its hash, size and model, the reading that becomes
the access time, the reading for `CachedAt`, and the order of a scan. -/
structure Request where
  hash : PrefixHash
  tokenCount : Nat
  model : ModelConfig
  now : Time
  cachedAt : Time
  range : RangeOrder

/-- Store a new entry for a prefix. -/
def PrefixCache.warm (pc : PrefixCache) (r : Request) : PrefixCache :=
  pc.store (newEntryForTokenCount r.hash r.tokenCount r.model r.cachedAt r.now) r.range

/-- Serve a request: whether it was a hit. -/
def PrefixCache.request (pc : PrefixCache) (r : Request) : Bool × PrefixCache :=
  match pc.lookup r.hash.text r.now with
  | (some _, pc) => (true, pc)
  | (none, pc) => (false, pc.warm r)

/-- Serve requests in turn: the answers, and the cache after them. -/
def serveAll {σ : Type} (request : σ → Request → Bool × σ) :
    σ → List Request → List Bool × σ
  | pc, [] => ([], pc)
  | pc, r :: rs =>
      let served := request pc r
      let rest := serveAll request served.2 rs
      (served.1 :: rest.1, rest.2)

end Llm

namespace Llmsim

open Llm (Request)

def PrefixCache.warm (pc : PrefixCache) (r : Request) : PrefixCache :=
  pc.store (newEntryForTokenCount r.hash r.tokenCount r.model)

def PrefixCache.request (pc : PrefixCache) (r : Request) : Bool × PrefixCache :=
  match pc.lookup r.hash.text with
  | (some _, pc) => (true, pc)
  | (none, pc) => (false, pc.warm r)

variable {p : PrefixCache} {r : Request}

/-- A miss is counted, and the prefix is stored. -/
theorem PrefixCache.request_miss (h : p.entries.lookup r.hash.text = none) :
    p.request r = (false, { p with totalRequests := p.totalRequests + 1 }.warm r) := by
  simp [PrefixCache.request, PrefixCache.lookup, h]

/-- A hit is counted, and its hash becomes the newest. -/
theorem PrefixCache.request_hit {e : CacheEntry} (h : p.entries.lookup r.hash.text = some e) :
    p.request r = (true,
      { p with
        totalRequests := p.totalRequests + 1
        entries := (p.entries.moveToEnd r.hash.text).assign r.hash.text
          { e with hitCount := e.hitCount + 1 }
        cacheHits := p.cacheHits + 1
        totalSavedTFLOPs := p.totalSavedTFLOPs + e.tflopsCost
        totalSavedUSD := p.totalSavedUSD + e.costUSD }) := by
  simp [PrefixCache.request, PrefixCache.lookup, h]

end Llmsim

namespace Llm

open Go
open Llmsim (CacheEntry)

variable {g : PrefixCache} {r : Request}

/-- A miss is counted, and the prefix is stored. -/
theorem PrefixCache.request_miss (h : g.entries.lookup r.hash.text = none) :
    g.request r = (false, { g with totalRequests := incInt64 g.totalRequests }.warm r) := by
  simp [PrefixCache.request, PrefixCache.lookup, h]

/-- A hit is counted, and is the latest access to its hash. -/
theorem PrefixCache.request_hit {x : PrefixCacheEntry}
    (h : g.entries.lookup r.hash.text = some x) :
    g.request r = (true,
      { g with
        totalRequests := incInt64 g.totalRequests
        entries := g.entries.insert r.hash.text
          { x with hitCount := incInt64 x.hitCount, lastAccessedAt := r.now }
        cacheHits := incInt64 g.cacheHits
        totalSavedTFLOPs := g.totalSavedTFLOPs + x.tflopsCost
        totalSavedUSD := g.totalSavedUSD + x.costUSD }) := by
  simp [PrefixCache.request, PrefixCache.lookup, h]

/-- **The two caches agree**: the same entries in the same order of use, and the same
counters, as `int64`s. -/
structure Agree (g : PrefixCache) (p : Llmsim.PrefixCache) : Prop where
  size : g.maxSize = p.capacity
  room : 1 ≤ p.capacity
  order : InOrder g.entries p.entries
  requests : g.totalRequests = int64 p.totalRequests
  hits : g.cacheHits = int64 p.cacheHits
  few : p.cacheHits ≤ p.totalRequests
  counts : ∀ h e, p.entries.lookup h = some e → e.hitCount ≤ p.cacheHits

/-- Every access so far is earlier than `t`. -/
def Before (g : PrefixCache) (p : Llmsim.PrefixCache) (t : Time) : Prop :=
  ∀ k ∈ p.entries.keys, accessed g.entries k < t

theorem PrefixHash.text_ne (hash : PrefixHash) : hash.text ≠ "" := by
  intro hempty
  have hdigits := hash.digits
  rw [hempty] at hdigits
  cases hdigits

/-- No access is later than the one of the newest hash. -/
theorem InOrder.le_newest {m : GoMap String PrefixCacheEntry} {x : PrefixCacheEntry}
    {d d' : OrderedDict String CacheEntry} {k : String} {e : CacheEntry}
    (h : InOrder (m.insert k x) d') (hitems : d'.items = d.withLast k e) :
    ∀ k' ∈ d'.keys, accessed (m.insert k x) k' ≤ x.lastAccessedAt := by
  intro k' hk'
  have hrecent := h.recency
  rw [hitems, OrderedDict.withLast, List.pairwise_append] at hrecent
  rw [OrderedDict.keys, hitems, OrderedDict.withLast, List.map_append, List.mem_append] at hk'
  rw [← accessed_insert_self (m := m) (k := k) (x := x)]
  rcases hk' with hk' | hk'
  · obtain ⟨a, ha, rfl⟩ := List.mem_map.mp hk'
    exact Int.le_of_lt (hrecent.2.2 a ha (k, e) (List.mem_singleton.mpr rfl))
  · rw [List.map_singleton, List.mem_singleton] at hk'
    exact Int.le_of_eq (congrArg (accessed (m.insert k x)) hk')

/-- A bound on the hits of all entries. -/
theorem hitCount_le_newest {d d' : OrderedDict String CacheEntry} {k : String} {e : CacheEntry}
    {n : Nat} (hitems : d'.items = d.withLast k e) (he : e.hitCount ≤ n)
    (hold : ∀ k' v, d.lookup k' = some v → v.hitCount ≤ n) :
    ∀ k' v, d'.lookup k' = some v → v.hitCount ≤ n := by
  intro k' v hv
  by_cases hk : k' = k
  · subst hk
    rw [OrderedDict.lookup_withLast_self hitems] at hv
    cases hv
    exact he
  · rw [OrderedDict.lookup_withLast_ne hitems hk] at hv
    exact hold k' v hv

variable {p : Llmsim.PrefixCache}

/-- Storing a prefix changes the entries only. -/
theorem warm_counters (p : Llmsim.PrefixCache) (r : Request) :
    (p.warm r).totalRequests = p.totalRequests ∧ (p.warm r).cacheHits = p.cacheHits ∧
      (p.warm r).capacity = p.capacity := by
  simp only [Llmsim.PrefixCache.warm, Llmsim.PrefixCache.store]
  split <;> exact ⟨rfl, rfl, rfl⟩

/-- A store adds at most the hash of its prefix. -/
theorem warm_keys {p : Llmsim.PrefixCache} {r : Request} {k : String}
    (h : k ∈ (p.warm r).entries.keys) : k = r.hash.text ∨ k ∈ p.entries.keys := by
  simp only [Llmsim.PrefixCache.warm, Llmsim.PrefixCache.store] at h
  split at h
  · exact (OrderedDict.mem_keys_withLast (OrderedDict.items_assign_moveToEnd _ _ _)).mp h
  · rw [OrderedDict.mem_keys_withLast (OrderedDict.items_assign_moveToEnd _ _ _)] at h
    refine h.imp_right fun hk => ?_
    split at hk
    · obtain ⟨x, hx, rfl⟩ := List.mem_map.mp hk
      exact List.mem_map_of_mem (List.mem_of_mem_tail hx)
    · exact hk

/-- **Both caches make room in the same way** for a new hash: they drop the hash that was
not used for longest, or none. -/
theorem Agree.makeRoom (h : Agree g p) (hnew : r.hash.text ∉ p.entries.keys) :
    ∃ m d, (g.warm r).entries = m.insert r.hash.text
        (newEntryForTokenCount r.hash r.tokenCount r.model r.cachedAt r.now) ∧
      (p.warm r).entries = (d.assign r.hash.text
        (Llmsim.newEntryForTokenCount r.hash r.tokenCount r.model)).moveToEnd r.hash.text ∧
      InOrder m d ∧ ∀ k v, d.lookup k = some v →
        p.entries.lookup k = some v ∧ accessed m k = accessed g.entries k := by
  have hgo : (g.entries.len : Int) = p.entries.len := by rw [h.order.len_eq]
  have hnew' : ¬ (Llmsim.newEntryForTokenCount r.hash r.tokenCount r.model).prefixHash ∈
      p.entries.keys := hnew
  by_cases hfull : (p.entries.len : Int) ≥ p.capacity
  · cases hitems : p.entries.items with
    | nil =>
        have hzero : p.entries.len = 0 := by simp [OrderedDict.len, hitems]
        have hroom := h.room
        omega
    | cons y rest =>
        refine ⟨g.entries.erase y.1, p.entries.popFirst, ?_, ?_, h.order.evict hitems, ?_⟩
        · simp only [PrefixCache.warm, PrefixCache.store, hgo, h.size, if_pos hfull,
            h.order.oldestKey_eq r.range hitems]
          rfl
        · simp only [Llmsim.PrefixCache.warm, Llmsim.PrefixCache.store, if_neg hnew',
            if_pos hfull]
          rfl
        · intro k v hv
          have hk : k ≠ y.1 := by
            intro heq
            subst heq
            rw [OrderedDict.lookup_popFirst_self hitems] at hv
            cases hv
          rw [OrderedDict.lookup_popFirst_ne hitems hk] at hv
          exact ⟨hv, accessed_erase_ne hk⟩
  · refine ⟨g.entries, p.entries, ?_, ?_, h.order, fun k v hv => ⟨hv, rfl⟩⟩
    · simp only [PrefixCache.warm, PrefixCache.store, hgo, h.size, if_neg hfull]
      rfl
    · simp only [Llmsim.PrefixCache.warm, Llmsim.PrefixCache.store, if_neg hnew', if_neg hfull]
      rfl

/-- **Storing a new hash** keeps the caches in agreement. -/
theorem Agree.warm (h : Agree g p) (hnew : r.hash.text ∉ p.entries.keys)
    (hbefore : Before g p r.now) :
    Agree (g.warm r) (p.warm r) ∧
      ∀ k ∈ (p.warm r).entries.keys, accessed (g.warm r).entries k ≤ r.now := by
  let x := newEntryForTokenCount r.hash r.tokenCount r.model r.cachedAt r.now
  let e := Llmsim.newEntryForTokenCount r.hash r.tokenCount r.model
  obtain ⟨m, d, hg, hp, horder, hsub⟩ := h.makeRoom hnew
  have hitems : (p.warm r).entries.items = d.withLast r.hash.text e := by
    rw [hp, OrderedDict.items_assign_moveToEnd]
  have hlate : ∀ k ∈ d.keys, accessed m k < x.lastAccessedAt := by
    intro k hk
    obtain ⟨v, hv⟩ := OrderedDict.mem_keys_iff.mp hk
    obtain ⟨hold, hacc⟩ := hsub k v hv
    rw [hacc]
    exact hbefore k (OrderedDict.mem_keys_iff.mpr ⟨v, hold⟩)
  have hzero : x.hitCount = int64 e.hitCount := (int64_of_lt (n := 0) (by decide)).symm
  have hnext : InOrder (m.insert r.hash.text x) (p.warm r).entries :=
    horder.newest hitems r.hash.text_ne hzero hlate
  obtain ⟨hrequests, hhits, hcapacity⟩ := warm_counters p r
  refine ⟨⟨?_, ?_, hg ▸ hnext, ?_, ?_, ?_, ?_⟩, ?_⟩
  · rw [hcapacity]
    exact h.size
  · rw [hcapacity]
    exact h.room
  · rw [hrequests]
    exact h.requests
  · rw [hhits]
    exact h.hits
  · rw [hrequests, hhits]
    exact h.few
  · rw [hhits]
    exact hitCount_le_newest hitems (Nat.zero_le _) fun k v hv => h.counts k v (hsub k v hv).1
  · rw [hg]
    exact hnext.le_newest hitems

/-- **A request** gets the same answer, and keeps the caches in agreement. -/
theorem Agree.request (h : Agree g p) (hbefore : Before g p r.now) :
    (g.request r).1 = (p.request r).1 ∧ Agree (g.request r).2 (p.request r).2 ∧
      (∀ k ∈ (p.request r).2.entries.keys, accessed (g.request r).2.entries k ≤ r.now) ∧
      (p.request r).2.totalRequests = p.totalRequests + 1 := by
  have hcount : incInt64 g.totalRequests = int64 (p.totalRequests + 1 : Nat) := by
    rw [h.requests, incInt64_int64]
    rfl
  have hsame := h.order.same r.hash.text
  cases hp : p.entries.lookup r.hash.text with
  | none =>
      rw [hp, Option.map_none, Option.map_eq_none_iff] at hsame
      -- a miss on both sides: only the number of requests has changed before the store
      have hcounted : Agree { g with totalRequests := incInt64 g.totalRequests }
          { p with totalRequests := p.totalRequests + 1 } :=
        ⟨h.size, h.room, h.order, hcount, h.hits, Nat.le_succ_of_le h.few, h.counts⟩
      obtain ⟨hagree, hpast⟩ := hcounted.warm (OrderedDict.lookup_eq_none_iff.mp hp) hbefore
      rw [PrefixCache.request_miss hsame, Llmsim.PrefixCache.request_miss hp]
      exact ⟨rfl, hagree, hpast, (warm_counters _ r).1⟩
  | some e =>
      rw [hp, Option.map_some] at hsame
      obtain ⟨x, hx, hxe⟩ := Option.map_eq_some_iff.mp hsame
      let x' := { x with hitCount := incInt64 x.hitCount, lastAccessedAt := r.now }
      let e' := { e with hitCount := e.hitCount + 1 }
      have hitems : ((p.entries.moveToEnd r.hash.text).assign r.hash.text e').items =
          p.entries.withLast r.hash.text e' := OrderedDict.items_moveToEnd_assign hp
      have hhits : x'.hitCount = int64 e'.hitCount := by
        show incInt64 x.hitCount = int64 (e.hitCount + 1 : Nat)
        rw [hxe, incInt64_int64]
        rfl
      have hnext : InOrder (g.entries.insert r.hash.text x')
          ((p.entries.moveToEnd r.hash.text).assign r.hash.text e') :=
        h.order.newest hitems r.hash.text_ne hhits hbefore
      rw [PrefixCache.request_hit hx, Llmsim.PrefixCache.request_hit hp]
      refine ⟨rfl, ⟨h.size, h.room, hnext, hcount, ?_, Nat.succ_le_succ h.few, ?_⟩,
        hnext.le_newest hitems, rfl⟩
      · rw [h.hits, incInt64_int64]
        rfl
      · exact hitCount_le_newest hitems (Nat.succ_le_succ (h.counts _ e hp))
          fun k v hv => Nat.le_succ_of_le (h.counts k v hv)

/-! ## Whole workloads -/

/-- Storing several prefixes with different hashes. -/
theorem Agree.warmAll (h : Agree g p) {rs : List Request}
    (hdistinct : (rs.map fun r => r.hash.text).Nodup)
    (hnew : ∀ r ∈ rs, r.hash.text ∉ p.entries.keys)
    (hclock : (rs.map Request.now).Pairwise (· < ·)) (hbefore : ∀ r ∈ rs, Before g p r.now) :
    Agree (rs.foldl PrefixCache.warm g) (rs.foldl Llmsim.PrefixCache.warm p) ∧
      ∀ t, Before g p t → (∀ r ∈ rs, r.now < t) →
        Before (rs.foldl PrefixCache.warm g) (rs.foldl Llmsim.PrefixCache.warm p) t := by
  induction rs generalizing g p with
  | nil => exact ⟨h, fun t ht _ => ht⟩
  | cons r rs ih =>
      rw [List.map_cons, List.nodup_cons] at hdistinct
      rw [List.map_cons, List.pairwise_cons] at hclock
      obtain ⟨hagree, hpast⟩ := h.warm (hnew r List.mem_cons_self) (hbefore r List.mem_cons_self)
      have hlater : ∀ t, r.now < t → Before (g.warm r) (p.warm r) t :=
        fun t ht k hk => Int.lt_of_le_of_lt (hpast k hk) ht
      have hnew' : ∀ r' ∈ rs, r'.hash.text ∉ (p.warm r).entries.keys := by
        intro r' hr' hmem
        rcases warm_keys hmem with heq | hold
        · exact hdistinct.1 (heq ▸ List.mem_map_of_mem hr')
        · exact hnew r' (List.mem_cons_of_mem _ hr') hold
      obtain ⟨hall, hafter⟩ := ih hagree hdistinct.2 hnew' hclock.2
        fun r' hr' => hlater r'.now (hclock.1 r'.now (List.mem_map_of_mem hr'))
      refine ⟨hall, ?_⟩
      intro t _ hts
      exact hafter t (hlater t (hts r List.mem_cons_self))
        fun r' hr' => hts r' (List.mem_cons_of_mem _ hr')

/-- **A whole workload**: the same answers, and the caches agree at its end. -/
theorem Agree.serveAll (h : Agree g p) {rs : List Request}
    (hclock : (rs.map Request.now).Pairwise (· < ·)) (hbefore : ∀ r ∈ rs, Before g p r.now) :
    (Llm.serveAll PrefixCache.request g rs).1 =
        (Llm.serveAll Llmsim.PrefixCache.request p rs).1 ∧
      Agree (Llm.serveAll PrefixCache.request g rs).2
        (Llm.serveAll Llmsim.PrefixCache.request p rs).2 ∧
      (Llm.serveAll Llmsim.PrefixCache.request p rs).2.totalRequests =
        p.totalRequests + rs.length := by
  induction rs generalizing g p with
  | nil => exact ⟨rfl, h, rfl⟩
  | cons r rs ih =>
      rw [List.map_cons, List.pairwise_cons] at hclock
      obtain ⟨hanswer, hagree, hpast, htotal⟩ := h.request (hbefore r List.mem_cons_self)
      obtain ⟨hanswers, hend, htotals⟩ := ih hagree hclock.2 fun r' hr' k hk =>
        Int.lt_of_le_of_lt (hpast k hk) (hclock.1 r'.now (List.mem_map_of_mem hr'))
      refine ⟨congrArg₂ List.cons hanswer hanswers, hend, ?_⟩
      show (Llm.serveAll Llmsim.PrefixCache.request (p.request r).2 rs).2.totalRequests = _
      rw [htotals, htotal, List.length_cons]
      omega

/-- The Python cache as it is made. -/
def emptyPython (capacity : Int) : Llmsim.PrefixCache :=
  { capacity := capacity, entries := .empty, totalRequests := 0, cacheHits := 0
    totalSavedTFLOPs := 0, totalSavedUSD := 0 }

theorem init_ok {capacity : Int} (hcap : 1 ≤ capacity) :
    Llmsim.PrefixCache.init capacity = .ok (emptyPython capacity) :=
  if_neg (by omega)

/-- New caches of both programs agree. -/
theorem agree_empty {capacity : Int} (hcap : 1 ≤ capacity) :
    Agree (newPrefixCache capacity) (emptyPython capacity) where
  size := rfl
  room := hcap
  order := ⟨fun _ => rfl, by simp [emptyPython, OrderedDict.keys, OrderedDict.empty],
    List.Pairwise.nil⟩
  requests := (int64_of_lt (n := 0) (by decide)).symm
  hits := (int64_of_lt (n := 0) (by decide)).symm
  few := Nat.le_refl 0
  counts := by
    intro k e hk
    cases hk

/-- The two caches after a workload. -/
theorem agree_workload (capacity : Int) (hcap : 1 ≤ capacity) (initial requests : List Request)
    (hdistinct : (initial.map fun r => r.hash.text).Nodup)
    (hclock : ((initial ++ requests).map Request.now).Pairwise (· < ·)) :
    let g := serveAll PrefixCache.request
      (initial.foldl PrefixCache.warm (newPrefixCache capacity)) requests
    let p := serveAll Llmsim.PrefixCache.request
      (initial.foldl Llmsim.PrefixCache.warm (emptyPython capacity)) requests
    g.1 = p.1 ∧ Agree g.2 p.2 ∧ p.2.totalRequests = requests.length := by
  rw [List.map_append, List.pairwise_append] at hclock
  have hnothing : ∀ k, k ∉ (emptyPython capacity).entries.keys := by
    simp [emptyPython, OrderedDict.keys, OrderedDict.empty]
  have hempty : ∀ t, Before (newPrefixCache capacity) (emptyPython capacity) t :=
    fun t k hk => absurd hk (hnothing k)
  obtain ⟨hwarm, hafter⟩ := (agree_empty hcap).warmAll hdistinct (fun r _ => hnothing _) hclock.1
    fun r _ => hempty r.now
  obtain ⟨hanswers, hagree, htotal⟩ := hwarm.serveAll hclock.2.1 fun r hr =>
    hafter r.now (hempty r.now) fun r' hr' =>
      hclock.2.2 r'.now (List.mem_map_of_mem hr') r.now (List.mem_map_of_mem hr)
  refine ⟨hanswers, hagree, htotal.trans ?_⟩
  have hzero : ∀ (rs : List Request) (p : Llmsim.PrefixCache),
      (rs.foldl Llmsim.PrefixCache.warm p).totalRequests = p.totalRequests := by
    intro rs
    induction rs with
    | nil => exact fun _ => rfl
    | cons r rs ih => exact fun p => (ih (p.warm r)).trans (warm_counters p r).1
  rw [hzero]
  exact Nat.zero_add _

/-- **The two prefix caches agree.**  Store any prefixes with different hashes, then serve
fewer than `2 ^ 63` requests, while the clock of the Go side strictly increases.  Both
caches give the same answers, hold the same hashes with the same hit counts, and report
the same requests, hits, misses and entries. -/
theorem prefix_caches_agree (capacity : Int) (hcap : 1 ≤ capacity)
    (initial requests : List Request) (hdistinct : (initial.map fun r => r.hash.text).Nodup)
    (hclock : ((initial ++ requests).map Request.now).Pairwise (· < ·))
    (hfew : requests.length < 2 ^ 63) :
    ∃ py, Llmsim.PrefixCache.init capacity = .ok py ∧
      let g := serveAll PrefixCache.request
        (initial.foldl PrefixCache.warm (newPrefixCache capacity)) requests
      let p := serveAll Llmsim.PrefixCache.request
        (initial.foldl Llmsim.PrefixCache.warm py) requests
      g.1 = p.1 ∧
      (∀ h, (g.2.entries.lookup h).map PrefixCacheEntry.hitCount =
        (p.2.entries.lookup h).map fun e => (e.hitCount : Int)) ∧
      g.2.stats.totalRequests = p.2.stats.totalRequests ∧
      g.2.stats.cacheHits = p.2.stats.cacheHits ∧
      g.2.stats.cacheMisses = p.2.stats.cacheMisses ∧
      g.2.stats.entriesStored = p.2.stats.entriesStored := by
  refine ⟨emptyPython capacity, init_ok hcap, ?_⟩
  obtain ⟨hanswers, hagree, htotal⟩ := agree_workload capacity hcap initial requests hdistinct hclock
  intro g p
  have hagree : Agree g.2 p.2 := hagree
  have hrequests : p.2.totalRequests < 2 ^ 63 := htotal ▸ hfew
  have hhits : p.2.cacheHits < 2 ^ 63 := Nat.lt_of_le_of_lt hagree.few hrequests
  have hmisses : int64 (g.2.totalRequests - g.2.cacheHits) =
      (p.2.totalRequests : Int) - p.2.cacheHits := by
    have hfew : p.2.cacheHits ≤ p.2.totalRequests := hagree.few
    have hdiff : (p.2.totalRequests : Int) - p.2.cacheHits =
        (p.2.totalRequests - p.2.cacheHits : Nat) := by omega
    rw [hagree.requests, hagree.hits, int64_sub]
    show int64 ((p.2.totalRequests : Int) - p.2.cacheHits) = _
    rw [hdiff, int64_of_lt (by omega)]
  refine ⟨hanswers, ?_, ?_, ?_, hmisses, ?_⟩
  · intro h
    rw [hagree.order.same h]
    refine Option.map_congr fun e he => ?_
    have hle : e.hitCount ≤ p.2.cacheHits := hagree.counts h e he
    exact int64_of_lt (by omega)
  · show g.2.totalRequests = (p.2.totalRequests : Int)
    rw [hagree.requests, int64_of_lt hrequests]
  · show g.2.cacheHits = (p.2.cacheHits : Int)
    rw [hagree.hits, int64_of_lt hhits]
  · exact congrArg Int.ofNat hagree.order.len_eq

/-- A range in the order of the model's list. -/
def RangeOrder.listed : RangeOrder := ⟨_, fun _ => List.Perm.refl _⟩

/-- A request at time `now`, for one of two prefixes. -/
def sampleRequest (second : Bool) (now : Time) : Request where
  hash := if second then ⟨"0123456789abcdef0123456789abcdef", by decide⟩
    else ⟨"fedcba9876543210fedcba9876543210", by decide⟩
  tokenCount := 1024
  model := ⟨"Llama-3-8B", fun _ => 1, fun _ => 1⟩
  now := now
  cachedAt := now
  range := .listed

/-- Two prefixes in turn, in caches for one entry. -/
theorem prefix_caches_agree_turns :
    let initial := [sampleRequest false 1]
    let requests := [sampleRequest false 2, sampleRequest true 3, sampleRequest false 4]
    ∃ py, Llmsim.PrefixCache.init 1 = .ok py ∧
      (serveAll PrefixCache.request (initial.foldl PrefixCache.warm (newPrefixCache 1))
        requests).1 = [true, false, false] ∧
      (serveAll PrefixCache.request (initial.foldl PrefixCache.warm (newPrefixCache 1))
          requests).1 =
        (serveAll Llmsim.PrefixCache.request (initial.foldl Llmsim.PrefixCache.warm py)
          requests).1 := by
  intro initial requests
  obtain ⟨py, hpy, hall⟩ := prefix_caches_agree 1 (by decide) initial requests (by decide)
    (by decide) (by decide)
  exact ⟨py, hpy, by decide, hall.1⟩

/-- The same prefix at the times `0, …, n - 1`. -/
def sameRequests (n : Nat) : List Request :=
  (List.range n).map fun i : Nat => sampleRequest false (i : Int)

/-- The times of the requests increase. -/
theorem sameRequests_clock (n : Nat) :
    (([] ++ sameRequests n).map Request.now).Pairwise (· < ·) := by
  rw [List.nil_append, sameRequests, List.map_map, List.pairwise_map]
  exact List.pairwise_lt_range.imp fun hlt => Int.ofNat_lt.mpr hlt

/-- The totals after so many requests. -/
theorem totals_after (n : Nat) :
    (serveAll PrefixCache.request (newPrefixCache 1) (sameRequests n)).2.stats.totalRequests =
        int64 n ∧
      (serveAll Llmsim.PrefixCache.request (emptyPython 1)
        (sameRequests n)).2.stats.totalRequests = n := by
  obtain ⟨_, hagree, htotal⟩ := agree_workload 1 (Int.le_refl 1) [] (sameRequests n)
    List.nodup_nil (sameRequests_clock n)
  have hlength : (sameRequests n).length = n := by simp [sameRequests]
  rw [hlength] at htotal
  constructor
  · exact hagree.requests.trans (congrArg (fun k : Nat => int64 k) htotal)
  · exact congrArg Int.ofNat htotal

/-- **After `2 ^ 63` requests the totals differ**: the counter of Go has wrapped around. -/
theorem totals_differ :
    Llmsim.PrefixCache.init 1 = .ok (emptyPython 1) ∧
      (serveAll PrefixCache.request (newPrefixCache 1)
        (sameRequests (2 ^ 63))).2.stats.totalRequests = -2 ^ 63 ∧
      (serveAll Llmsim.PrefixCache.request (emptyPython 1)
        (sameRequests (2 ^ 63))).2.stats.totalRequests = 2 ^ 63 := by
  obtain ⟨hgo, hpython⟩ := totals_after (2 ^ 63)
  exact ⟨rfl, hgo.trans (by decide), hpython⟩

end Llm
