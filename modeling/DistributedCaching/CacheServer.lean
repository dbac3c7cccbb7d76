import DistributedCaching.GoText
import DistributedCaching.InMemoryCache
import DistributedCaching.PolicyChoice

/-!
# The cache server

`CacheServer` puts the network face on the in-memory cache of a node: it counts
hits and misses, and takes times to live as whole seconds.

Seconds become a `time.Duration` by a multiplication that wraps at 64 bits, and
only the product is checked against the bounds.  `seconds_conversion` says for
which seconds the bounds survive this: those between them, and those whose product
wraps to a number of nanoseconds that is itself out of bounds.  A product that wraps
to the inside is accepted with an expiry unrelated to the request
(`set_wrapped_seconds`).
-/

namespace Cluster

open Go Eviction Cache InMemoryCache

/-- `secondsToDuration`. -/
def secondsToDuration (seconds : Int) : Duration := int64 (seconds * second)

structure CacheNodeMetrics where
  hits : Int := 0
  misses : Int := 0
  evictions : Int := 0
  deriving DecidableEq, Repr

/-- The server, whose policy is the one of its cache. -/
structure CacheServer where
  nodeID : String
  cache : InMemoryCache Policy
  metrics : CacheNodeMetrics := {}

/-- `policy.Name()`. -/
def policyName : Policy → String
  | .lru _ => "lru"
  | .lfu _ => "lfu"
  | .ttl _ => "ttl"
  | .random _ => "random"

structure Stats where
  hits : Int
  misses : Int
  evictions : Int
  entries : Int
  policyName : String
  deriving DecidableEq, Repr

namespace CacheServer

def get (s : CacheServer) (key : String) (t : GetClock) : Option Bytes × CacheServer :=
  let r := s.cache.get key t
  match r.1 with
  | some value =>
      (some value,
        { s with cache := r.2, metrics := { s.metrics with hits := incInt64 s.metrics.hits } })
  | none =>
      (none,
        { s with cache := r.2, metrics := { s.metrics with misses := incInt64 s.metrics.misses } })

def set (s : CacheServer) (key : String) (value : Bytes) (ttlSeconds : Int)
    (now policyNow : Time) (draw : Nat) : Except SetError Unit × CacheServer :=
  match s.cache.set key value (secondsToDuration ttlSeconds) now policyNow draw with
  | .error e => (.error e, s)
  | .ok cache => (.ok (), { s with cache := cache })

def delete (s : CacheServer) (key : String) : CacheServer :=
  { s with cache := s.cache.delete key }

/-- `Health`: always healthy, and coordinator if `isLeader()` says so. -/
def health (_ : CacheServer) (isLeader : Bool) : Bool × Bool := (true, isLeader)

def stats (s : CacheServer) : Stats where
  hits := s.metrics.hits
  misses := s.metrics.misses
  evictions := s.metrics.evictions
  entries := s.cache.len
  policyName := policyName s.cache.policy

def recordEviction (s : CacheServer) : CacheServer :=
  { s with metrics := { s.metrics with evictions := incInt64 s.metrics.evictions } }

end CacheServer

/-! ## Which seconds are accepted -/

/-- A duration is accepted between the bounds. -/
theorem validateTTL_ok_iff {ttl : Int} :
    validateTTL ttl = .ok () ↔ 0 ≤ ttl ∧ ttl ≤ 86400 * 10 ^ 9 := by
  have hdef : validateTTL ttl =
      if ttl < 0 then .error (.negativeTTL ttl)
      else if 86400 * 10 ^ 9 < ttl then .error (.exceedsMaximum ttl)
      else .ok () := rfl
  rw [hdef]
  split
  · rename_i hneg
    exact iff_of_false (by simp) (by omega)
  · split
    · rename_i hlong
      exact iff_of_false (by simp) (by omega)
    · exact iff_of_true rfl (by omega)

/-- The multiplication wraps around at 64 bits. -/
theorem secondsToDuration_eq (seconds : Int) :
    @Eq Int (secondsToDuration seconds) ((seconds * 10 ^ 9 + 2 ^ 63) % 2 ^ 64 - 2 ^ 63) := rfl

/-- Seconds are accepted if their product, as an unsigned number, is in bounds. -/
theorem secondsToDuration_ok_iff (seconds : Int) :
    validateTTL (secondsToDuration seconds) = .ok () ↔
      seconds * 10 ^ 9 % 2 ^ 64 ≤ 86400 * 10 ^ 9 := by
  rw [validateTTL_ok_iff, secondsToDuration_eq]
  generalize seconds * 10 ^ 9 = nanos
  omega

/-- Between the bounds nothing wraps. -/
theorem secondsToDuration_exact {seconds : Int} (h0 : 0 ≤ seconds) (h1 : seconds ≤ 86400) :
    @Eq Int (secondsToDuration seconds) (seconds * 10 ^ 9) := by
  rw [secondsToDuration_eq]
  omega

variable (s : CacheServer) (key : String) (value : Bytes) {ttlSeconds : Int}
  (now policyNow : Time) (draw : Nat)

/-- A `Set` whose seconds are accepted is the section of the cache. -/
theorem set_accepted (h : validateTTL (secondsToDuration ttlSeconds) = .ok ()) :
    s.set key value ttlSeconds now policyNow draw =
      (.ok (), { s with
        cache := s.cache.store key value (expiryOf now (secondsToDuration ttlSeconds)) now
          policyNow draw }) := by
  simp [CacheServer.set, InMemoryCache.set, h]

/-- A `Set` whose seconds are not accepted returns an error and changes nothing. -/
theorem set_rejected (h : validateTTL (secondsToDuration ttlSeconds) ≠ .ok ()) :
    ∃ e, s.set key value ttlSeconds now policyNow draw = (.error e, s) := by
  cases hv : validateTTL (secondsToDuration ttlSeconds) with
  | ok u => exact absurd hv h
  | error e => exact ⟨e, by simp [CacheServer.set, InMemoryCache.set, hv]⟩

/-- The bounds of `Set` in seconds: it fails and changes nothing exactly for seconds
out of bounds, and otherwise the entry expires so many seconds from now. -/
def BoundsHold (s : CacheServer) (key : String) (value : Bytes) (ttlSeconds : Int)
    (now policyNow : Time) (draw : Nat) : Prop :=
  let r := s.set key value ttlSeconds now policyNow draw
  ((∃ e, r.1 = .error e) ∧ r.2.cache = s.cache ↔ ttlSeconds < 0 ∨ 86400 < ttlSeconds) ∧
  (0 ≤ ttlSeconds → ttlSeconds ≤ 86400 →
    r.1 = .ok () ∧ r.2.cache.stored key = some (value, now + ttlSeconds * second))

/-- **The seconds for which the bounds hold**, in any state of the server. -/
theorem seconds_conversion (s : CacheServer) (key : String) (value : Bytes) (ttlSeconds : Int)
    (now policyNow : Time) (draw : Nat) :
    BoundsHold s key value ttlSeconds now policyNow draw ↔
      (0 ≤ ttlSeconds ∧ ttlSeconds ≤ 86400) ∨
        86400 * 10 ^ 9 < ttlSeconds * 10 ^ 9 % 2 ^ 64 := by
  by_cases hok : validateTTL (secondsToDuration ttlSeconds) = .ok ()
  · have hprod := (secondsToDuration_ok_iff ttlSeconds).mp hok
    rw [BoundsHold, set_accepted s key value now policyNow draw hok]
    constructor
    · intro h
      have hin : ¬ (ttlSeconds < 0 ∨ 86400 < ttlSeconds) := fun hout => by
        simpa using h.1.mpr hout
      exact Or.inl ⟨by omega, by omega⟩
    · intro h
      have hin : 0 ≤ ttlSeconds ∧ ttlSeconds ≤ 86400 := by omega
      refine ⟨iff_of_false (by simp) (by omega), fun h0 h1 => ⟨rfl, ?_⟩⟩
      have hexpiry : now + ttlSeconds * second = expiryOf now (secondsToDuration ttlSeconds) := by
        rw [expiryOf_eq, secondsToDuration_exact h0 h1]
        rfl
      rw [hexpiry]
      exact stored_store_self s.cache key value _ now policyNow draw
  · have hprod := mt (secondsToDuration_ok_iff ttlSeconds).mpr hok
    obtain ⟨e, he⟩ := set_rejected s key value now policyNow draw hok
    have hout : ¬ (0 ≤ ttlSeconds ∧ ttlSeconds ≤ 86400) := by
      intro hin
      refine hok (validateTTL_ok_iff.mpr ?_)
      rw [secondsToDuration_exact hin.1 hin.2]
      omega
    rw [BoundsHold, he]
    refine iff_of_true ⟨iff_of_true ⟨⟨e, rfl⟩, rfl⟩ (by omega), fun h0 h1 => ?_⟩ (by omega)
    exact absurd ⟨h0, h1⟩ hout

/-- One hour, at a server on a cache that holds an entry already. -/
theorem seconds_conversion_hour :
    BoundsHold ⟨"n1", (InMemoryCache.new 1 (newPolicy .lru)).store "a" [1] 9 1 1 0, {}⟩
      "k" [2] 3600 5 5 0 :=
  (seconds_conversion _ "k" [2] 3600 5 5 0).mpr (Or.inl (by decide))

/-- About 585 years: the product wraps to less than a third of a second, and the value
is stored with that expiry.  A whole multiple of the modulus is stored as expired. -/
theorem set_wrapped_seconds :
    let s : CacheServer := ⟨"n1", InMemoryCache.new 1 (newPolicy .lru), {}⟩
    (s.set "k" [1] 18446744074 5 5 0).1 = .ok () ∧
      (s.set "k" [1] 18446744074 5 5 0).2.cache.stored "k" = some ([1], 5 + 290448384) ∧
      (s.set "k" [1] (2 ^ 55) 5 5 0).1 = .ok () ∧
      (s.set "k" [1] (2 ^ 55) 5 5 0).2.cache.stored "k" = some ([1], 5) ∧
      ¬ BoundsHold s "k" [1] 18446744074 5 5 0 := by
  intro s
  have haccepted : (s.set "k" [1] 18446744074 5 5 0).1 = .ok () := by decide
  refine ⟨haccepted, by decide, by decide, by decide, ?_⟩
  intro h
  obtain ⟨⟨e, he⟩, _⟩ := h.1.mpr (Or.inr (by decide))
  cases haccepted.symm.trans he

end Cluster
