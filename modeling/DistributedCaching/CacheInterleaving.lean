import DistributedCaching.InMemoryCache
import DistributedCaching.PolicyChoice
import DistributedCaching.TransitionRuns

/-!
# Concurrent calls of the cache

Any number of `Get`, `Set` and `Delete` calls on one cache, interleaved at the
granularity of the lock-protected sections and of the unlocked steps between
them: the expiry check and the final read of the value in `Get`, and the checks
of the TTL in `Set`.  A call in flight is its program point with its local
variables.

Two results about every state that such a run reaches, for each policy and each
capacity.  `policy_in_step`: every structure of the policy holds exactly the keys
of the cache, each once.  `capacity_exact`: the cache is within its capacity, and
the section of a `Set` removes nothing for a key that is there and exactly one
other key for a new key in a full cache.
-/

namespace Cache

open Go Eviction TransitionRuns InMemoryCache

/-- What a call returns. -/
inductive Result
  | got (value : Option Bytes)
  | stored
  | rejected (e : SetError)
  | deleted
  deriving DecidableEq, Repr

/-- A call at its program point. -/
inductive Call
  /-- `Get`, before it looks the key up. -/
  | getLookup (key : String)
  /-- `Get`, before the unlocked expiry check of the entry it found. -/
  | getCheck (key : String) (r : Nat)
  /-- `Get`, before the section that drops an expired entry. -/
  | getReap (key : String)
  /-- `Get`, before the section that records the hit. -/
  | getTouch (key : String) (r : Nat)
  /-- `Get`, before the unlocked read of the value. -/
  | getRead (r : Nat)
  /-- `Set`, before it checks the TTL and reads the clock. -/
  | setValidate (key : String) (value : Bytes) (ttl : Duration)
  /-- `Set`, before its section. -/
  | setStore (key : String) (value : Bytes) (expiresAt now : Time)
  /-- `Delete`, before its section. -/
  | deleteLocked (key : String)
  | returned (result : Result)
  deriving DecidableEq, Repr

inductive Request
  | get (key : String)
  | set (key : String) (value : Bytes) (ttl : Duration)
  | delete (key : String)
  deriving DecidableEq, Repr

def Request.start : Request → Call
  | .get key => .getLookup key
  | .set key value ttl => .setValidate key value ttl
  | .delete key => .deleteLocked key

/-- What a step takes from outside: the clock as read by the cache and by the
policy, and a random number. -/
structure Inputs where
  now : Time
  policyNow : Time
  draw : Nat
  deriving DecidableEq, Repr

section System

variable {P : Type} [EvictionPolicy P]

/-- One step of a call. -/
def advance (c : InMemoryCache P) (inp : Inputs) : Call → Option (InMemoryCache P × Call)
  | .getLookup key =>
      match c.entries.lookup key with
      | none => some (c, .returned (.got none))
      | some r => some (c, .getCheck key r)
  | .getCheck key r =>
      if (c.memory r).isExpired inp.now then some (c, .getReap key)
      else some (c, .getTouch key r)
  | .getReap key => some (c.reap key inp.now, .returned (.got none))
  | .getTouch key r => some (c.touch key r inp.now inp.policyNow, .getRead r)
  | .getRead r => some (c, .returned (.got (some (c.memory r).value)))
  | .setValidate key value ttl =>
      match validateTTL ttl with
      | .error e => some (c, .returned (.rejected e))
      | .ok _ => some (c, .setStore key value (expiryOf inp.now ttl) inp.now)
  | .setStore key value expiresAt now =>
      some (c.store key value expiresAt now inp.policyNow inp.draw, .returned .stored)
  | .deleteLocked key => some (c.delete key, .returned .deleted)
  | .returned _ => none

/-- A cache, and the calls made on it so far. -/
structure System (P : Type) where
  cache : InMemoryCache P
  calls : Nat → Option Call

def System.init (capacity : Nat) (policy : P) : System P where
  cache := InMemoryCache.new capacity policy
  calls := fun _ => none

inductive CacheEvent
  /-- A new call starts. -/
  | call (i : Nat) (req : Request)
  /-- A call takes its next step. -/
  | step (i : Nat) (inp : Inputs)
  deriving DecidableEq, Repr

def cacheStep (s : System P) : CacheEvent → Option (System P)
  | .call i req =>
      if s.calls i = none then
        some { s with calls := Function.update s.calls i (some req.start) }
      else none
  | .step i inp =>
      (s.calls i).bind fun call =>
        (advance s.cache inp call).map fun next =>
          { cache := next.1, calls := Function.update s.calls i (some next.2) }

end System

/-! ## What a step does to the cache -/

section Inversion

variable {P : Type} [EvictionPolicy P] {s s' : System P} {i : Nat}

/-- A call starts under a free number. -/
theorem cacheStep_call {req : Request} (h : cacheStep s (.call i req) = some s') :
    s.calls i = none ∧ s' = { s with calls := Function.update s.calls i (some req.start) } := by
  simp only [cacheStep] at h
  split at h
  · rename_i hnone
    exact ⟨hnone, (Option.some.inj h).symm⟩
  · cases h

/-- What a step of a call is made of. -/
theorem cacheStep_step {inp : Inputs} (h : cacheStep s (.step i inp) = some s') :
    ∃ call cache call', s.calls i = some call ∧
      advance s.cache inp call = some (cache, call') ∧
      s' = { cache := cache, calls := Function.update s.calls i (some call') } := by
  obtain ⟨call, hcall, hmap⟩ := Option.bind_eq_some_iff.mp h
  obtain ⟨⟨cache, call'⟩, hadvance, hs'⟩ := Option.map_eq_some_iff.mp hmap
  exact ⟨call, cache, call', hcall, hadvance, hs'.symm⟩

end Inversion

/-- The call is at the section of a `Set` or a `Delete`. -/
def Call.isWriter : Call → Bool
  | .setStore _ _ _ _ => true
  | .deleteLocked _ => true
  | _ => false

/-- The steps by what they do to the cache. -/
inductive SectionStep {P : Type} [EvictionPolicy P] (c : InMemoryCache P) (inp : Inputs) :
    Call → InMemoryCache P → Prop
  | unlocked (call : Call) (hcall : call.isWriter = false) : SectionStep c inp call c
  | touched (key : String) (r : Nat) :
      SectionStep c inp (.getTouch key r) (c.touch key r inp.now inp.policyNow)
  | reaped (key : String) : SectionStep c inp (.getReap key) (c.reap key inp.now)
  | stored (key : String) (value : Bytes) (expiresAt now : Time) :
      SectionStep c inp (.setStore key value expiresAt now)
        (c.store key value expiresAt now inp.policyNow inp.draw)
  | deleted (key : String) : SectionStep c inp (.deleteLocked key) (c.delete key)

/-- **Every step is one of these**: it leaves the cache alone, or is one of the locked sections.
-/
theorem advance_section {P : Type} [EvictionPolicy P] {c c' : InMemoryCache P} {inp : Inputs}
    {call call' : Call} (h : advance c inp call = some (c', call')) :
    SectionStep c inp call c' := by
  cases call with
  | getLookup key =>
      simp only [advance] at h
      split at h <;> cases h <;> exact .unlocked _ rfl
  | getCheck key r =>
      simp only [advance] at h
      split at h <;> cases h <;> exact .unlocked _ rfl
  | getReap key =>
      cases h
      exact .reaped key
  | getTouch key r =>
      cases h
      exact .touched key r
  | getRead r =>
      cases h
      exact .unlocked _ rfl
  | setValidate key value ttl =>
      simp only [advance] at h
      split at h <;> cases h <;> exact .unlocked _ rfl
  | setStore key value expiresAt now =>
      cases h
      exact .stored key value expiresAt now
  | deleteLocked key =>
      cases h
      exact .deleted key
  | returned result => cases h

/-! ## Every step keeps the entries filed under their keys -/

section Addressed

variable {P : Type} [EvictionPolicy P]

/-- Every step keeps the entries filed under their keys. -/
theorem addressed_advance {c c' : InMemoryCache P} {inp : Inputs} {call call' : Call}
    (hc : Addressed c) (h : advance c inp call = some (c', call')) : Addressed c' := by
  cases advance_section h with
  | unlocked _ _ => exact hc
  | touched key r => exact hc.update r (by rfl) _
  | reaped key => exact addressed_reap hc key inp.now
  | stored key value expiresAt now =>
      exact addressed_store hc key value expiresAt now inp.policyNow inp.draw
  | deleted key => exact addressed_delete hc key

/-- This holds whatever the capacity and the policy are. -/
theorem reachable_addressed {policy : P} {capacity : Nat} {evs : List CacheEvent} {s : System P}
    (h : run cacheStep (System.init capacity policy) evs = some s) : Addressed s.cache := by
  refine run_invariant (I := fun s => Addressed s.cache) ?_ (addressed_new capacity policy) h
  intro s ev s' hc hstep
  cases ev with
  | call i req =>
      obtain ⟨_, rfl⟩ := cacheStep_call hstep
      exact hc
  | step i inp =>
      obtain ⟨call, c', call', _, hadvance, rfl⟩ := cacheStep_step hstep
      exact addressed_advance hc hadvance

end Addressed

/-! ## Every step keeps the cache sound -/

section Sound

variable {P : Type} [LawfulPolicy P]

/-- Every step keeps the cache sound and its capacity as it is. -/
theorem advance_sound {c c' : InMemoryCache P} {inp : Inputs} {call call' : Call}
    (hc : Sound c) (hcap : 1 ≤ c.capacity) (h : advance c inp call = some (c', call')) :
    Sound c' ∧ c'.capacity = c.capacity := by
  cases advance_section h with
  | unlocked _ _ => exact ⟨hc, rfl⟩
  | touched key r => exact ⟨sound_touch hc key r inp.now inp.policyNow, rfl⟩
  | reaped key => exact ⟨sound_reap hc key inp.now, capacity_reap key inp.now⟩
  | stored key value expiresAt now =>
      exact ⟨sound_store hc hcap key value expiresAt now inp.policyNow inp.draw,
        capacity_store key value expiresAt now inp.policyNow inp.draw⟩
  | deleted key => exact ⟨sound_delete hc key, capacity_delete key⟩

/-- **Every reachable cache is sound**, and keeps the capacity it was made with. -/
theorem reachable_sound {policy : P} (hpolicy : LawfulPolicy.Tracks policy [])
    {capacity : Nat} (hcap : 1 ≤ capacity) {evs : List CacheEvent} {s : System P}
    (h : run cacheStep (System.init capacity policy) evs = some s) :
    Sound s.cache ∧ s.cache.capacity = capacity := by
  refine run_invariant (I := fun s => Sound s.cache ∧ s.cache.capacity = capacity) ?_
    ⟨sound_new hpolicy capacity, rfl⟩ h
  intro s ev s' ⟨hc, hcapacity⟩ hstep
  cases ev with
  | call i req =>
      obtain ⟨_, rfl⟩ := cacheStep_call hstep
      exact ⟨hc, hcapacity⟩
  | step i inp =>
      obtain ⟨call, c', call', _, hadvance, rfl⟩ := cacheStep_step hstep
      obtain ⟨hsound, hsame⟩ := advance_sound hc (by omega) hadvance
      exact ⟨hsound, hsame.trans hcapacity⟩

end Sound

/-- **Cache and policy stay in step.**  In every state reached by interleaved
calls, every structure of the policy holds exactly the keys of the cache, each
once. -/
theorem policy_in_step (kind : PolicyKind) (capacity : Nat) (hcap : 1 ≤ capacity)
    (evs : List CacheEvent) (s : System Policy)
    (h : run cacheStep (System.init capacity (newPolicy kind)) evs = some s) :
    ∀ held ∈ s.cache.policy.structures, held.Perm s.cache.entries.keys ∧ held.Nodup := by
  intro held hheld
  obtain ⟨hsound, _⟩ := reachable_sound (tracks_newPolicy kind) hcap h
  have hperm := hsound.inStep.structures held hheld
  exact ⟨hperm, hperm.nodup_iff.mpr s.cache.entries.keys_nodup⟩

/-- Two sets in a cache for one entry, and a late hit on the key that was dropped. -/
def lateHit : List CacheEvent :=
  [.call 0 (.set "a" [1] second), .step 0 ⟨1, 1, 0⟩, .step 0 ⟨1, 1, 0⟩,
   .call 1 (.get "a"), .step 1 ⟨2, 2, 0⟩, .step 1 ⟨2, 2, 0⟩,
   .call 2 (.set "b" [2] second), .step 2 ⟨3, 3, 0⟩, .step 2 ⟨3, 3, 0⟩,
   .step 1 ⟨4, 4, 0⟩, .step 1 ⟨4, 4, 0⟩]

/-- A hit whose `Get` has let go of the lock is recorded after the key was evicted, and the
policy still holds exactly the key of the cache. -/
theorem policy_in_step_lateHit :
    ∃ s, run cacheStep (System.init 1 (newPolicy .lru)) lateHit = some s ∧
      s.calls 1 = some (.returned (.got (some [1]))) ∧ s.cache.entries.keys = ["b"] ∧
      ∀ held ∈ s.cache.policy.structures, held.Perm ["b"] := by
  obtain ⟨s, hrun, hgot, hkeys⟩ : ∃ s,
      run cacheStep (System.init 1 (newPolicy .lru)) lateHit = some s ∧
        s.calls 1 = some (.returned (.got (some [1]))) ∧ s.cache.entries.keys = ["b"] :=
    exists_run (by decide) (by decide)
  refine ⟨s, hrun, hgot, hkeys, ?_⟩
  intro held hheld
  have hheld' := (policy_in_step .lru 1 (Nat.le_refl 1) lateHit s hrun held hheld).1
  rwa [hkeys] at hheld'

/-! ## Capacity and exact eviction -/

section Eviction

variable {P : Type} [LawfulPolicy P] {c : InMemoryCache P} {key : String}

/-- What becomes of a full cache when a new key is stored: one other key, the
victim, gives way, and nothing else changes. -/
structure ExactEviction (c c' : InMemoryCache P) (key : String) (value : Bytes)
    (expiresAt : Time) (victim : String) : Prop where
  present : victim ∈ c.entries
  other : victim ≠ key
  gone : victim ∉ c'.entries
  kept : ∀ k ∈ c.entries, k ≠ victim → k ∈ c'.entries
  added : c'.stored key = some (value, expiresAt)
  full : c'.len = c.capacity
  unchanged : ∀ k, k ≠ key → k ≠ victim → c'.stored k = c.stored k

/-- What becomes of a cache when a key that is there is stored again. -/
structure PlainUpdate (c c' : InMemoryCache P) (key : String) (value : Bytes)
    (expiresAt : Time) : Prop where
  kept : ∀ k, k ∈ c'.entries ↔ k ∈ c.entries
  same : c'.len = c.len
  updated : c'.stored key = some (value, expiresAt)
  unchanged : ∀ k, k ≠ key → c'.stored k = c.stored k

/-- A new key in a full cache evicts exactly one other key. -/
theorem store_exactEviction (h : Sound c) (hcap : 1 ≤ c.capacity) (hkey : key ∉ c.entries)
    (hfull : c.len = c.capacity) (value : Bytes) (expiresAt now policyNow : Time)
    (draw : Nat) :
    ∃ victim, ExactEviction c (c.store key value expiresAt now policyNow draw) key value
      expiresAt victim := by
  rcases store_cases h hcap key value expiresAt now policyNow draw with
    ⟨r, hr, _⟩ | ⟨_, hroom, _⟩ | ⟨_, _, victim, hvictim, _, hstore⟩
  · exact absurd (GoMap.mem_iff_lookup.mpr ⟨r, hr⟩) hkey
  · omega
  · have hother : victim ≠ key := fun heq => hkey (heq ▸ hvictim)
    have hnew := notMem_drop hkey victim
    have hlen := len_drop hvictim
    have hdrop := addressed_drop h.addressed victim
    rw [hstore]
    refine ⟨victim, hvictim, hother, ?_, ?_, ?_, ?_, ?_⟩
    · intro hmem
      rcases (AList.mem_insert _).mp hmem with heq | hmem
      · exact hother heq
      · exact (AList.mem_erase.mp hmem).1 rfl
    · intro k hk hne
      exact (AList.mem_insert _).mpr (Or.inr (AList.mem_erase.mpr ⟨hne, hk⟩))
    · exact entry_add_self _ key value expiresAt now policyNow
    · have hadd : ((c.drop victim).add key value expiresAt now policyNow).len =
          (c.drop victim).len + 1 := GoMap.len_insert_new _ hnew
      rw [hadd]
      omega
    · intro k hk hne
      rw [stored, stored, entry_add_ne hdrop value expiresAt now policyNow hk,
        entry_drop_ne c hne]

/-- A key that is there is updated in place. -/
theorem store_plainUpdate (h : Sound c) (hcap : 1 ≤ c.capacity) (hkey : key ∈ c.entries)
    (value : Bytes) (expiresAt now policyNow : Time) (draw : Nat) :
    PlainUpdate c (c.store key value expiresAt now policyNow draw) key value expiresAt := by
  rcases store_cases h hcap key value expiresAt now policyNow draw with
    ⟨r, hr, hstore⟩ | ⟨hnew, _⟩ | ⟨hnew, _⟩
  · rw [hstore]
    refine ⟨fun k => Iff.rfl, rfl, entry_upsert_self hr value expiresAt now policyNow, ?_⟩
    intro k hk
    rw [stored, stored, entry_upsert_ne h.addressed hr value expiresAt now policyNow hk]
  · exact absurd hkey hnew
  · exact absurd hkey hnew

end Eviction

/-- **Capacity and exact eviction.**  In every state reached by interleaved calls
the cache is within its capacity.  The section of a `Set` evicts exactly one
other key for a new key in a full cache, and removes nothing for a key that is
there; a `Set` whose TTL is rejected never reaches it and changes nothing. -/
theorem capacity_exact (kind : PolicyKind) (capacity : Nat) (hcap : 1 ≤ capacity)
    (evs : List CacheEvent) (s : System Policy)
    (h : run cacheStep (System.init capacity (newPolicy kind)) evs = some s) :
    s.cache.len ≤ capacity ∧
    (∀ i key value expiresAt now inp s',
      s.calls i = some (.setStore key value expiresAt now) →
      cacheStep s (.step i inp) = some s' →
        (key ∉ s.cache.entries → s.cache.len = capacity →
          ∃ victim, ExactEviction s.cache s'.cache key value expiresAt victim) ∧
        (key ∈ s.cache.entries → PlainUpdate s.cache s'.cache key value expiresAt)) ∧
    (∀ i key value ttl inp s',
      s.calls i = some (.setValidate key value ttl) →
      cacheStep s (.step i inp) = some s' → s'.cache = s.cache) := by
  obtain ⟨hsound, hcapacity⟩ := reachable_sound (tracks_newPolicy kind) hcap h
  have hcap' : 1 ≤ s.cache.capacity := by omega
  refine ⟨hcapacity ▸ hsound.within, ?_, ?_⟩
  · intro i key value expiresAt now inp s' hcall hstep
    have hcache : s'.cache =
        s.cache.store key value expiresAt now inp.policyNow inp.draw := by
      simp only [cacheStep, hcall, advance, Option.bind_some, Option.map_some,
        Option.some.injEq] at hstep
      rw [← hstep]
    rw [hcache]
    constructor
    · intro hkey hfull
      exact store_exactEviction hsound hcap' hkey (hfull.trans hcapacity.symm) _ _ _ _ _
    · intro hkey
      exact store_plainUpdate hsound hcap' hkey _ _ _ _ _
  · intro i key value ttl inp s' hcall hstep
    simp only [cacheStep, hcall, advance, Option.bind_some] at hstep
    split at hstep <;> cases hstep <;> rfl

/-- A full cache for one entry: the section of the second `Set` evicts the first
key. -/
def secondSet : List CacheEvent :=
  [.call 0 (.set "a" [1] second), .step 0 ⟨1, 1, 0⟩, .step 0 ⟨1, 1, 0⟩,
   .call 1 (.set "b" [2] second), .step 1 ⟨2, 2, 0⟩]

/-- The second key of a cache for one evicts the first. -/
theorem capacity_exact_secondSet :
    ∃ s s' : System Policy,
      run cacheStep (System.init 1 (newPolicy .lfu)) secondSet = some s ∧
      cacheStep s (.step 1 ⟨3, 3, 0⟩) = some s' ∧ s.cache.entries.keys = ["a"] ∧
      ∃ victim, ExactEviction s.cache s'.cache "b" [2] (2 + second) victim := by
  have hrun : run cacheStep (System.init 1 (newPolicy .lfu)) secondSet =
      some ((run cacheStep (System.init 1 (newPolicy .lfu)) secondSet).get (by decide)) :=
    (Option.some_get _).symm
  have hstep : cacheStep ((run cacheStep (System.init 1 (newPolicy .lfu)) secondSet).get
      (by decide)) (.step 1 ⟨3, 3, 0⟩) =
      some ((cacheStep ((run cacheStep (System.init 1 (newPolicy .lfu)) secondSet).get
        (by decide)) (.step 1 ⟨3, 3, 0⟩)).get (by decide)) := (Option.some_get _).symm
  refine ⟨_, _, hrun, hstep, by decide, ?_⟩
  exact ((capacity_exact .lfu 1 (Nat.le_refl 1) secondSet _ hrun).2.1 1 "b" [2]
    (2 + second) 2 ⟨3, 3, 0⟩ _ (by decide) hstep).1 (by decide) (by decide)

end Cache
