import DistributedCaching.Paging
import DistributedCaching.PrefixInclusion

/-!
# No replacement beats the prefix cache by much

The Python prefix cache replaces the least recently used prefix.  `prefix_competitive`
compares it with every way to run a prefix cache of at most as many entries on the same
requests, also one that knows all requests in advance: the misses that `stats` reports are
at most `c / (c - h + 1)` times as many, and `c` more for filling the cache.
-/

namespace Llmsim

open Llm (Request serveAll emptyPython init_ok)
open RecencyStack Paging

variable {p : PrefixCache} {stack : List String}

/-- The counters after some requests: every request counts, and every miss of the top of the
stack is no hit. -/
theorem HoldsTop.counts (h : HoldsTop p stack) (requests : List Request) :
    (serveAll PrefixCache.request p requests).2.totalRequests =
        p.totalRequests + requests.length ∧
      (serveAll PrefixCache.request p requests).2.cacheHits +
          misses p.capacity.toNat stack (requests.map fun r => r.hash.text) =
        p.cacheHits + requests.length := by
  induction requests generalizing p stack with
  | nil => exact ⟨rfl, rfl⟩
  | cons r requests ih =>
      obtain ⟨hcapacity, hrequests, hhits⟩ := request_counters p r
      obtain ⟨htotal, hsum⟩ := ih (h.request r)
      have hhit : (p.request r).1.toNat +
          (if r.hash.text ∈ stack.take p.capacity.toNat then 0 else 1) = 1 := by
        by_cases hk : r.hash.text ∈ stack.take p.capacity.toNat
        · rw [if_pos hk, request_hit_iff.mpr ((h.mem_iff _).mpr hk)]
          rfl
        · have hmiss : (p.request r).1 = false :=
            Bool.eq_false_iff.mpr fun hit => hk ((h.mem_iff _).mp (request_hit_iff.mp hit))
          rw [if_neg hk, hmiss]
          rfl
      rw [hcapacity] at hsum
      simp only [serveAll, List.map_cons, misses, List.length_cons]
      omega

/-- **The prefix cache is competitive.**  Serve any requests from an empty cache of capacity
`c`.  If some cache of at most `h ≤ c` prefixes, that starts with any prefixes, drops at most
one on a miss and changes nothing on a hit, can serve them with `m` misses, then `c - h + 1`
times the reported misses are at most `c * m + c * (c - h + 1)`. -/
theorem prefix_competitive (c h : Nat) (hc : 1 ≤ c) (hh : h ≤ c) (requests : List Request)
    (m : Nat) (start : Finset String) (hstart : start.card ≤ h)
    (hschedule : Schedule h start (requests.map fun r => r.hash.text) m) :
    ∃ cache, PrefixCache.init c = .ok cache ∧
      ((c - h + 1 : Nat) : Int) *
          (serveAll PrefixCache.request cache requests).2.stats.cacheMisses ≤
        (c * m + c * (c - h + 1) : Nat) := by
  have hroom : (1 : Int) ≤ c := by omega
  refine ⟨emptyPython c, init_ok hroom, ?_⟩
  obtain ⟨htotal, hsum⟩ := (holdsTop_empty hroom).counts requests
  have hle := misses_le hc hh hschedule hstart (List.nodup_nil (α := String))
  rw [potential_nil] at hle
  have hmisses : (serveAll PrefixCache.request (emptyPython c) requests).2.stats.cacheMisses =
      (misses c [] (requests.map fun r => r.hash.text) : Nat) := by
    have hcapacity : (emptyPython (c : Int)).capacity.toNat = c := Int.toNat_natCast c
    have hzero : (emptyPython (c : Int)).totalRequests = 0 ∧
      (emptyPython (c : Int)).cacheHits = 0 := ⟨rfl, rfl⟩
    rw [hcapacity] at hsum
    simp only [PrefixCache.stats]
    omega
  rw [hmisses, ← Int.natCast_mul, Int.ofNat_le]
  calc (c - h + 1) * misses c [] (requests.map fun r => r.hash.text)
      ≤ (c - h + 1) * c + c * m := hle
    _ = c * m + c * (c - h + 1) := by ring

/-- Two prefixes in turn, against a cache for one of them that starts with the first. -/
theorem prefix_competitive_turns :
    let requests := [Llm.sampleRequest false 1, Llm.sampleRequest true 2,
      Llm.sampleRequest false 3]
    ∃ cache, PrefixCache.init (2 : Nat) = .ok cache ∧
      ((2 - 1 + 1 : Nat) : Int) *
          (serveAll PrefixCache.request cache requests).2.stats.cacheMisses ≤
        (2 * 2 + 2 * (2 - 1 + 1) : Nat) := by
  refine prefix_competitive 2 1 (by decide) (by decide) _ 2
    {(Llm.sampleRequest false 1).hash.text} (by decide) ?_
  -- The cache for one prefix drops the other one each time.
  exact .hit (by decide) (.miss (Llm.sampleRequest false 1).hash.text (by decide) (by decide)
    (.miss (Llm.sampleRequest true 2).hash.text (by decide) (by decide) (.nil _)))

end Llmsim
