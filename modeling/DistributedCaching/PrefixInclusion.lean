import DistributedCaching.PrefixWorkload
import DistributedCaching.RecencyStack

/-!
# A larger prefix cache never misses more

The Python prefix cache holds the hashes at the top of the recency stack, as many as it
has room for: `HoldsTop`, which every request keeps.  The stack is a function of the
requests alone, so two caches that have served the same requests hold the tops of one
stack, and the smaller one holds a part of what the larger one holds
(`prefix_inclusion`).
-/

namespace Llmsim

open Llm (Request serveAll emptyPython init_ok)
open RecencyStack

/-- The hashes of the cache are the top of the stack, in its order. -/
structure HoldsTop (p : PrefixCache) (stack : List String) : Prop where
  room : 1 ≤ p.capacity
  distinct : stack.Nodup
  top : p.entries.keys.reverse = stack.take p.capacity.toNat

variable {p : PrefixCache} {r : Request} {stack : List String}

/-- The hashes after a store of a new one. -/
theorem keys_warm_new (h : r.hash.text ∉ p.entries.keys) :
    (p.warm r).entries.keys =
      (if (p.entries.len : Int) ≥ p.capacity then p.entries.keys.tail else p.entries.keys) ++
        [r.hash.text] := by
  have hnew : ¬ (newEntryForTokenCount r.hash r.tokenCount r.model).prefixHash ∈
      p.entries.keys := h
  have hothers : ∀ ks : List String, r.hash.text ∉ ks →
      (ks.filter fun x => x ≠ r.hash.text) = ks := by
    intro ks hks
    refine List.filter_eq_self.mpr fun x hx => ?_
    exact decide_eq_true fun heq => hks (heq ▸ hx)
  simp only [PrefixCache.warm, PrefixCache.store, if_neg hnew]
  rw [OrderedDict.keys_withLast (OrderedDict.items_assign_moveToEnd _ _ _)]
  split
  · rw [OrderedDict.keys_popFirst]
    exact congrArg (· ++ _) (hothers _ fun hmem => h (List.mem_of_mem_tail hmem))
  · exact congrArg (· ++ _) (hothers _ h)

/-- What a request adds to the counters. -/
theorem request_counters (p : PrefixCache) (r : Request) :
    (p.request r).2.capacity = p.capacity ∧
      (p.request r).2.totalRequests = p.totalRequests + 1 ∧
      (p.request r).2.cacheHits = p.cacheHits + (p.request r).1.toNat := by
  cases h : p.entries.lookup r.hash.text with
  | none =>
      rw [PrefixCache.request_miss h]
      obtain ⟨htotal, hhits, hcapacity⟩ :=
        Llm.warm_counters { p with totalRequests := p.totalRequests + 1 } r
      exact ⟨hcapacity, htotal, hhits⟩
  | some e =>
      rw [PrefixCache.request_hit h]
      exact ⟨rfl, rfl, rfl⟩

/-- A request is a hit if its hash is there. -/
theorem request_hit_iff : (p.request r).1 = true ↔ r.hash.text ∈ p.entries.keys := by
  rw [OrderedDict.mem_keys_iff]
  cases h : p.entries.lookup r.hash.text with
  | none => simp [PrefixCache.request_miss h]
  | some e => simp [PrefixCache.request_hit h]

/-- A hash is in the cache exactly if it is in the top of the stack. -/
theorem HoldsTop.mem_iff (h : HoldsTop p stack) (k : String) :
    k ∈ p.entries.keys ↔ k ∈ stack.take p.capacity.toNat := by
  rw [← h.top, List.mem_reverse]

/-- A full top loses its last key to a new one, and a top with room loses none. -/
theorem top_after_miss {d : OrderedDict String CacheEntry} {n : Nat}
    (htop : d.keys.reverse = stack.take (n + 1)) :
    (if d.len ≥ n + 1 then d.keys.tail else d.keys).reverse = stack.take n := by
  have hlen : (stack.take (n + 1)).length = d.len := by
    rw [← htop, List.length_reverse, OrderedDict.length_keys]
  split
  · rename_i hfull
    have hexact : (stack.take (n + 1)).length - 1 = n := by
      rw [List.length_take] at hlen ⊢
      omega
    rw [← List.dropLast_reverse, htop, List.dropLast_eq_take, hexact, List.take_take,
      Nat.min_eq_left (Nat.le_succ n)]
  · rename_i hroom
    have hshort : stack.length ≤ n := by
      rw [List.length_take] at hlen
      omega
    rw [htop, List.take_of_length_le hshort, List.take_of_length_le (Nat.le_succ_of_le hshort)]

/-- **One request** moves its hash to the top of the stack, and the cache keeps the top. -/
theorem HoldsTop.request (h : HoldsTop p stack) (r : Request) :
    HoldsTop (p.request r).2 (touch r.hash.text stack) := by
  have hcapacity := (request_counters p r).1
  refine ⟨hcapacity ▸ h.room, nodup_touch h.distinct _, ?_⟩
  rw [hcapacity]
  have htop := h.top
  cases hlookup : p.entries.lookup r.hash.text with
  | some e =>
      have hkey : r.hash.text ∈ stack.take p.capacity.toNat :=
        (h.mem_iff _).mp (OrderedDict.mem_keys_iff.mpr ⟨e, hlookup⟩)
      have hkeys := OrderedDict.keys_withLast
        (OrderedDict.items_moveToEnd_assign (v := { e with hitCount := e.hitCount + 1 }) hlookup)
      rw [PrefixCache.request_hit hlookup, take_touch_hit h.distinct hkey, ← htop, hkeys,
        List.reverse_append, ← List.filter_reverse]
      rfl
  | none =>
      have hkey := OrderedDict.lookup_eq_none_iff.mp hlookup
      have hbelow := (h.mem_iff r.hash.text).not.mp hkey
      have hkeys := keys_warm_new (p := { p with totalRequests := p.totalRequests + 1 }) hkey
      -- The capacity is a successor: a cache has room for one entry.
      obtain ⟨n, hn⟩ : ∃ n : Nat, p.capacity = (n + 1 : Nat) :=
        ⟨p.capacity.toNat - 1, by have := h.room; omega⟩
      rw [hn, Int.toNat_natCast] at htop hbelow ⊢
      rw [PrefixCache.request_miss hlookup, take_touch_miss hbelow, hkeys, List.reverse_append,
        ← top_after_miss htop]
      simp only [hn, ge_iff_le, Int.ofNat_le]
      rfl

/-- Two caches that hold the tops of one stack, and the hits they have counted. -/
structure Nested (small large : PrefixCache) (stack : List String) : Prop where
  inSmall : HoldsTop small stack
  inLarge : HoldsTop large stack
  capacity : small.capacity ≤ large.capacity
  requests : small.totalRequests = large.totalRequests
  hits : small.cacheHits ≤ large.cacheHits

variable {small large : PrefixCache}

/-- **The larger cache holds all that the smaller one holds.** -/
theorem Nested.subset (h : Nested small large stack) :
    ∀ k ∈ small.entries.keys, k ∈ large.entries.keys := by
  intro k hk
  rw [h.inSmall.mem_iff] at hk
  rw [h.inLarge.mem_iff]
  exact List.take_subset_take_left _ (Int.toNat_le_toNat h.capacity) hk

/-- **One request to both**: a hit of the smaller cache is a hit of the larger one. -/
theorem Nested.request (h : Nested small large stack) (r : Request) :
    Nested (small.request r).2 (large.request r).2 (touch r.hash.text stack) := by
  obtain ⟨hcapS, hreqS, hhitS⟩ := request_counters small r
  obtain ⟨hcapL, hreqL, hhitL⟩ := request_counters large r
  refine ⟨h.inSmall.request r, h.inLarge.request r, ?_, ?_, ?_⟩
  · rw [hcapS, hcapL]
    exact h.capacity
  · rw [hreqS, hreqL, h.requests]
  · have hmono : (small.request r).1.toNat ≤ (large.request r).1.toNat := by
      cases hhit : (small.request r).1 with
      | false => exact Nat.zero_le _
      | true =>
          have hlarge : (large.request r).1 = true :=
            request_hit_iff.mpr (h.subset _ (request_hit_iff.mp hhit))
          rw [hlarge]
    rw [hhitS, hhitL]
    exact Nat.add_le_add h.hits hmono

/-- **Requests to both**, one after the other. -/
theorem Nested.serveAll (h : Nested small large stack) (requests : List Request) :
    Nested (serveAll PrefixCache.request small requests).2
      (serveAll PrefixCache.request large requests).2
      (touchAll stack (requests.map fun r => r.hash.text)) := by
  induction requests generalizing small large stack with
  | nil => exact h
  | cons r requests ih => exact ih (h.request r)

/-- A new cache holds the top of the empty stack. -/
theorem holdsTop_empty {capacity : Int} (hcap : 1 ≤ capacity) :
    HoldsTop (emptyPython capacity) [] where
  room := hcap
  distinct := List.nodup_nil
  top := List.take_nil.symm

/-- **A larger prefix cache never misses more.**  Serve the same requests from two empty
caches, of capacities `1 ≤ c₁ ≤ c₂`.  After every one of them the hashes of the first
cache are in the second, and the second has missed at most as often. -/
theorem prefix_inclusion (c₁ c₂ : Int) (hroom : 1 ≤ c₁) (hle : c₁ ≤ c₂)
    (requests : List Request) :
    ∃ small large, PrefixCache.init c₁ = .ok small ∧ PrefixCache.init c₂ = .ok large ∧
      ∀ n,
        let s := (serveAll PrefixCache.request small (requests.take n)).2
        let l := (serveAll PrefixCache.request large (requests.take n)).2
        (∀ h ∈ s.entries.keys, h ∈ l.entries.keys) ∧
          l.stats.cacheMisses ≤ s.stats.cacheMisses := by
  have hstart : Nested (emptyPython c₁) (emptyPython c₂) [] :=
    ⟨holdsTop_empty hroom, holdsTop_empty (Int.le_trans hroom hle), hle, rfl, Nat.le_refl 0⟩
  refine ⟨emptyPython c₁, emptyPython c₂, init_ok hroom, init_ok (Int.le_trans hroom hle), ?_⟩
  intro n s l
  have hnested := hstart.serveAll (requests.take n)
  refine ⟨hnested.subset, ?_⟩
  have hrequests : s.totalRequests = l.totalRequests := hnested.requests
  have hhits : s.cacheHits ≤ l.cacheHits := hnested.hits
  show (l.totalRequests : Int) - l.cacheHits ≤ s.totalRequests - s.cacheHits
  omega

/-- Two prefixes in turn: the cache for one misses every time, the cache for both only
twice. -/
theorem prefix_inclusion_turns :
    let requests := [Llm.sampleRequest false 1, Llm.sampleRequest true 2,
      Llm.sampleRequest false 3]
    ∃ small large, PrefixCache.init 1 = .ok small ∧ PrefixCache.init 2 = .ok large ∧
      (serveAll PrefixCache.request small requests).2.stats.cacheMisses = 3 ∧
      (serveAll PrefixCache.request large requests).2.stats.cacheMisses = 2 ∧
      ∀ h ∈ (serveAll PrefixCache.request small requests).2.entries.keys,
        h ∈ (serveAll PrefixCache.request large requests).2.entries.keys := by
  intro requests
  obtain ⟨small, large, hsmall, hlarge, hall⟩ :=
    prefix_inclusion 1 2 (by decide) (by decide) requests
  cases hsmall
  cases hlarge
  exact ⟨_, _, rfl, rfl, by decide, by decide, (hall 3).1⟩

end Llmsim
