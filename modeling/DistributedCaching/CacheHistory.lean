import Mathlib.Data.List.Induction
import DistributedCaching.InMemoryCache

/-!
# The use of keys over time

Whole calls of a cache, one after the other, next to a record of how each key was
used: the call that inserted it, every `Get` that hit it and every `Set` that updated
it since, with the time that the policy read.

An eviction policy sees a cache through three calls only.  `policy_history` is the
rule that follows from this: what each of the three keeps, of the policy and of the
record, holds after every sequence of calls.  `evicts_victim` says that a key that a
`Set` evicts is the one that the policy named.
-/

namespace Cache

open Go Eviction InMemoryCache

/-- A call, with the clock readings and the random number it takes. -/
inductive CacheOp
  | get (key : String) (clock : GetClock)
  | set (key : String) (value : Bytes) (ttl : Duration) (now policyNow : Time) (draw : Nat)
  | delete (key : String)
  deriving DecidableEq, Repr

def CacheOp.isSet : CacheOp → Bool
  | .set .. => true
  | _ => false

/-- One use of a key. -/
structure Use where
  /-- The number of calls before the one that used the key. -/
  step : Nat
  /-- The time that the policy read. -/
  time : Time
  deriving DecidableEq, Repr

/-- The latest call that used a key, by the record. -/
def latestStep (u : String → List Use) (key : String) : Nat :=
  ((u key).head?.map Use.step).getD 0

/-- A cache, the number of calls so far, and the uses of each key since it was last
inserted, the latest first. -/
structure Observed (P : Type) where
  cache : InMemoryCache P
  steps : Nat
  uses : String → List Use

section Calls

variable {P : Type} [EvictionPolicy P]

/-- The cache after a call. -/
def InMemoryCache.perform (c : InMemoryCache P) : CacheOp → InMemoryCache P
  | .get key clock => (c.get key clock).2
  | .set key value ttl now policyNow draw =>
      match c.set key value ttl now policyNow draw with
      | .ok c' => c'
      | .error _ => c
  | .delete key => c.delete key

/-- A `Set` evicts a key that it is not about. -/
def Evicts (c : InMemoryCache P) (op : CacheOp) (victim : String) : Prop :=
  op.isSet = true ∧ victim ∈ c.entries ∧ victim ∉ (c.perform op).entries

instance Evicts.decidable (c : InMemoryCache P) (op : CacheOp) (victim : String) :
    Decidable (Evicts c op victim) := inferInstanceAs (Decidable (_ ∧ _ ∧ _))

namespace Observed

def init (capacity : Nat) (policy : P) : Observed P where
  cache := InMemoryCache.new capacity policy
  steps := 0
  uses := fun _ => []

/-- Note that a key was used. -/
def used (o : Observed P) (key : String) (time : Time) : String → List Use :=
  Function.update o.uses key (⟨o.steps, time⟩ :: o.uses key)

/-- Note that a key was inserted. -/
def inserted (o : Observed P) (key : String) (time : Time) : String → List Use :=
  Function.update o.uses key [⟨o.steps, time⟩]

/-- The record after a call: a `Get` uses a key that it hits, and a `Set` that is not
rejected uses a key that is there and inserts one that is not. -/
def record (o : Observed P) : CacheOp → String → List Use
  | .get key clock =>
      if (o.cache.get key clock).1.isSome then o.used key clock.policy else o.uses
  | .set key _ ttl _ policyNow _ =>
      match validateTTL ttl with
      | .error _ => o.uses
      | .ok _ =>
          if key ∈ o.cache.entries then o.used key policyNow else o.inserted key policyNow
  | .delete _ => o.uses

def call (o : Observed P) (op : CacheOp) : Observed P where
  cache := o.cache.perform op
  steps := o.steps + 1
  uses := o.record op

/-- How often a key was used since it was last inserted, its insertion included. -/
def count (o : Observed P) (key : String) : Nat := (o.uses key).length

/-- When the policy was last told about a key. -/
def last (o : Observed P) (key : String) : Time := ((o.uses key).head?.map Use.time).getD 0

/-- The call that used a key last. -/
def lastStep (o : Observed P) (key : String) : Nat := latestStep o.uses key

end Observed

/-- Every call returns. -/
def callStep (o : Observed P) (op : CacheOp) : Option (Observed P) := some (o.call op)

/-- A cache and its record after some calls. -/
def observe (capacity : Nat) (policy : P) (ops : List CacheOp) : Observed P :=
  ops.foldl Observed.call (.init capacity policy)

end Calls

/-! ## What a call does -/

section Changes

variable {P : Type} [LawfulPolicy P]

/-- **What a call can do** to a sound cache and to the record. -/
inductive Change (o : Observed P) (op : CacheOp) : InMemoryCache P → (String → List Use) → Prop
  | quiet : Change o op o.cache o.uses
  /-- An expired or deleted entry goes. -/
  | dropped {key : String} (hkey : key ∈ o.cache.entries) (hset : op.isSet = false) :
      Change o op (o.cache.drop key) o.uses
  /-- An entry is touched or updated. -/
  | used {key : String} {r : Nat} {e : CacheEntry} {time : Time}
      (hr : o.cache.entries.lookup key = some r) (he : e.key = (o.cache.memory r).key)
      (hexpiry : e.expiresAt = (o.cache.memory r).expiresAt ∨
        ∃ value ttl now draw, op = .set key value ttl now time draw ∧
          validateTTL ttl = .ok () ∧ e.expiresAt = expiryOf now ttl) :
      Change o op
        { o.cache with
          memory := Function.update o.cache.memory r e
          policy := EvictionPolicy.onAccess o.cache.policy key time }
        (o.used key time)
  /-- A new entry comes, into a cache with room. -/
  | added {key : String} {value : Bytes} {expiresAt now time : Time}
      (hkey : key ∉ o.cache.entries) (hroom : o.cache.len < o.cache.capacity) :
      Change o op (o.cache.add key value expiresAt now time) (o.inserted key time)
  /-- A new entry comes, in the place of another one. -/
  | replaced {key victim : String} {value : Bytes} {expiresAt now time : Time} {draw : Nat}
      (hkey : key ∉ o.cache.entries) (hvictim : victim ∈ o.cache.entries)
      (hevict : EvictionPolicy.evict o.cache.policy draw = some victim) (hset : op.isSet = true) :
      Change o op ((o.cache.drop victim).add key value expiresAt now time) (o.inserted key time)

variable {o : Observed P}

/-- What a `Get` changes, and which uses it adds. -/
theorem change_get (key : String) (clock : GetClock) :
    Change o (.get key clock) (o.call (.get key clock)).cache (o.call (.get key clock)).uses := by
  show Change o _ (o.cache.get key clock).2 (o.record (.get key clock))
  simp only [Observed.record]
  cases hget : (o.cache.get key clock).1 with
  | none =>
      rw [if_neg (by simp)]
      rcases get_miss hget with hsame | ⟨e, he, _, hdrop⟩
      · rw [hsame]
        exact .quiet
      · rw [hdrop]
        obtain ⟨r, hr, _⟩ := Option.map_eq_some_iff.mp he
        exact .dropped (GoMap.mem_iff_lookup.mpr ⟨r, hr⟩) rfl
  | some v =>
      rw [if_pos (by simp)]
      obtain ⟨e, he, _, hfresh⟩ := get_hit hget
      obtain ⟨r, hr, rfl⟩ := Option.map_eq_some_iff.mp he
      have hcache : (o.cache.get key clock).2 = o.cache.touch key r clock.access clock.policy := by
        simp [InMemoryCache.get, hr, hfresh]
      rw [hcache]
      exact .used hr rfl (Or.inl rfl)

/-- What a `Set` changes, and which uses it adds. -/
theorem change_set (h : Sound o.cache) (hcap : 1 ≤ o.cache.capacity) (key : String)
    (value : Bytes) (ttl : Duration) (now policyNow : Time) (draw : Nat) :
    let op := CacheOp.set key value ttl now policyNow draw
    Change o op (o.call op).cache (o.call op).uses := by
  intro op
  cases hvalid : validateTTL ttl with
  | error e =>
      have hcache : (o.call op).cache = o.cache := by
        simp [op, Observed.call, InMemoryCache.perform, InMemoryCache.set, hvalid]
      have huses : (o.call op).uses = o.uses := by
        simp [op, Observed.call, Observed.record, hvalid]
      rw [hcache, huses]
      exact .quiet
  | ok u =>
      have hcache : (o.call op).cache =
          o.cache.store key value (expiryOf now ttl) now policyNow draw := by
        simp [op, Observed.call, InMemoryCache.perform, InMemoryCache.set, hvalid]
      have huses : (o.call op).uses =
          if key ∈ o.cache.entries then o.used key policyNow else o.inserted key policyNow := by
        simp [op, Observed.call, Observed.record, hvalid]
      rw [hcache, huses]
      rcases store_cases h hcap key value (expiryOf now ttl) now policyNow draw with
        ⟨r, hr, hstore⟩ | ⟨hkey, hroom, hstore⟩ | ⟨hkey, _, victim, hvictim, hevict, hstore⟩
      · rw [hstore, if_pos (GoMap.mem_iff_lookup.mpr ⟨r, hr⟩)]
        exact .used hr rfl (Or.inr ⟨value, ttl, now, draw, rfl, hvalid, rfl⟩)
      · rw [hstore, if_neg hkey]
        exact .added hkey hroom
      · rw [hstore, if_neg hkey]
        exact .replaced hkey hvictim hevict rfl

/-- Every call makes one of the changes. -/
theorem change_call (h : Sound o.cache) (hcap : 1 ≤ o.cache.capacity) (op : CacheOp) :
    Change o op (o.call op).cache (o.call op).uses := by
  cases op with
  | get key clock => exact change_get key clock
  | set key value ttl now policyNow draw => exact change_set h hcap _ _ _ _ _ _
  | delete key =>
      show Change o _ (o.cache.delete key) o.uses
      unfold InMemoryCache.delete
      split
      · exact .quiet
      · rename_i r hr
        exact .dropped (GoMap.mem_iff_lookup.mpr ⟨r, hr⟩) rfl

/-- Every change keeps the cache sound and its capacity as it is. -/
theorem Change.sound {op : CacheOp} {c : InMemoryCache P} {u : String → List Use}
    (hchange : Change o op c u) (h : Sound o.cache) :
    Sound c ∧ c.capacity = o.cache.capacity := by
  cases hchange with
  | quiet => exact ⟨h, rfl⟩
  | dropped hkey _ => exact ⟨sound_drop h hkey, rfl⟩
  | used hr he hexpiry => exact ⟨h.update _ he _ _, rfl⟩
  | added hkey hroom => exact ⟨sound_add h hkey hroom _ _ _ _, rfl⟩
  | @replaced key victim value expiresAt now time draw hkey hvictim hevict hset =>
      have hlen := len_drop hvictim
      have hwithin := h.within
      have hcapacity : (o.cache.drop victim).capacity = o.cache.capacity := rfl
      exact ⟨sound_add (sound_drop h hvictim) (notMem_drop hkey victim) (by omega) _ _ _ _, rfl⟩

/-- **The victim of a `Set`** is the key that the policy names. -/
theorem evicts_victim (h : Sound o.cache) (hcap : 1 ≤ o.cache.capacity) {op : CacheOp}
    {victim : String} (hevicts : Evicts o.cache op victim) :
    ∃ draw, EvictionPolicy.evict o.cache.policy draw = some victim := by
  obtain ⟨hset, hthere, hgone⟩ := hevicts
  have hchange := change_call h hcap op
  have hcache : (o.call op).cache = o.cache.perform op := rfl
  rw [hcache] at hchange
  generalize o.cache.perform op = c, (o.call op).uses = u at hchange hgone
  cases hchange with
  | quiet => exact absurd hthere hgone
  | dropped _ hnot => cases hset.symm.trans hnot
  | used hr he hexpiry => exact absurd hthere hgone
  | added hkey hroom => exact absurd ((AList.mem_insert _).mpr (Or.inr hthere)) hgone
  | @replaced key other value expiresAt now time draw hkey hvictim hevict hset =>
      have heq : victim = other := by
        by_contra hne
        exact hgone ((AList.mem_insert _).mpr (Or.inr (AList.mem_erase.mpr ⟨hne, hthere⟩)))
      exact ⟨draw, heq ▸ hevict⟩

/-- A full cache evicts some key for a new one. -/
theorem evicts_of_full {c : InMemoryCache P} (h : Sound c) (hcap : 1 ≤ c.capacity) {key : String}
    (value : Bytes) {ttl : Duration} (hvalid : validateTTL ttl = .ok ()) (now policyNow : Time)
    (draw : Nat) (hkey : key ∉ c.entries) (hfull : c.len = c.capacity) :
    ∃ victim, Evicts c (.set key value ttl now policyNow draw) victim := by
  have hperform : c.perform (.set key value ttl now policyNow draw) =
      c.store key value (expiryOf now ttl) now policyNow draw := by
    simp [InMemoryCache.perform, InMemoryCache.set, hvalid]
  rcases store_cases h hcap key value (expiryOf now ttl) now policyNow draw with
    ⟨r, hr, _⟩ | ⟨_, hroom, _⟩ | ⟨_, _, victim, hvictim, _, hstore⟩
  · exact absurd (GoMap.mem_iff_lookup.mpr ⟨r, hr⟩) hkey
  · omega
  · refine ⟨victim, rfl, hvictim, ?_⟩
    rw [hperform, hstore]
    intro hmem
    rcases (AList.mem_insert _).mp hmem with heq | hmem
    · exact hkey (heq ▸ hvictim)
    · exact (AList.mem_erase.mp hmem).1 rfl

/-! ## Whole runs -/

/-- One operation more is one call more. -/
theorem observe_concat (capacity : Nat) (policy : P) (ops : List CacheOp) (op : CacheOp) :
    observe capacity policy (ops ++ [op]) = (observe capacity policy ops).call op :=
  List.foldl_concat _ _ _ _

/-- A cache that starts sound stays sound, with its capacity. -/
theorem sound_observe {policy : P} (htracks : LawfulPolicy.Tracks policy []) {capacity : Nat}
    (hcap : 1 ≤ capacity) (ops : List CacheOp) :
    Sound (observe capacity policy ops).cache ∧
      (observe capacity policy ops).cache.capacity = capacity := by
  induction ops using List.reverseRecOn with
  | nil => exact ⟨sound_new htracks capacity, rfl⟩
  | append_singleton ops op ih =>
      obtain ⟨hsound, hcapacity⟩ := ih
      rw [observe_concat]
      have hnext := (change_call hsound (by omega) op).sound hsound
      exact ⟨hnext.1, hnext.2.trans hcapacity⟩

/-- A relation between a policy, the record, and the number of calls that each of the
calls of the policy keeps. -/
structure Follows (A : P → (String → List Use) → Nat → Prop) : Prop where
  later : ∀ {p u n}, A p u n → A p u (n + 1)
  onEvict : ∀ {p u n ks key}, LawfulPolicy.Tracks p ks → key ∈ ks → A p u n →
    A (EvictionPolicy.onEvict p key) u n
  onAccess : ∀ {p u n ks key} time, LawfulPolicy.Tracks p ks → key ∈ ks → A p u n →
    A (EvictionPolicy.onAccess p key time)
      (Function.update u key (⟨n, time⟩ :: u key)) (n + 1)
  onInsert : ∀ {p u n ks key} expiresAt time, LawfulPolicy.Tracks p ks → key ∉ ks → A p u n →
    A (EvictionPolicy.onInsert p key expiresAt time)
      (Function.update u key [⟨n, time⟩]) (n + 1)

/-- One call keeps such a relation. -/
theorem Follows.change {A : P → (String → List Use) → Nat → Prop} (hA : Follows A)
    (h : Sound o.cache) {op : CacheOp} {c : InMemoryCache P} {u : String → List Use}
    (hchange : Change o op c u) (hold : A o.cache.policy o.uses o.steps) :
    A c.policy u (o.steps + 1) := by
  cases hchange with
  | quiet => exact hA.later hold
  | dropped hkey _ => exact hA.later (hA.onEvict h.inStep (AList.mem_keys.mp hkey) hold)
  | @used key r e time hr he hexpiry =>
      have hkey : key ∈ o.cache.entries := GoMap.mem_iff_lookup.mpr ⟨r, hr⟩
      exact hA.onAccess time h.inStep (AList.mem_keys.mp hkey) hold
  | @added key value expiresAt now time hkey hroom =>
      exact hA.onInsert expiresAt time h.inStep (fun hmem => hkey (AList.mem_keys.mpr hmem)) hold
  | @replaced key victim value expiresAt now time draw hkey hvictim hevict hset =>
      have hdrop := sound_drop h hvictim
      refine hA.onInsert expiresAt time hdrop.inStep ?_
        (hA.onEvict h.inStep (AList.mem_keys.mp hvictim) hold)
      exact fun hmem => notMem_drop hkey victim (AList.mem_keys.mpr hmem)

/-- **What the calls of a policy keep holds after every sequence of calls** of a cache
with that policy. -/
theorem policy_history {A : P → (String → List Use) → Nat → Prop} (hA : Follows A) {policy : P}
    (htracks : LawfulPolicy.Tracks policy []) (hinit : A policy (fun _ => []) 0)
    {capacity : Nat} (hcap : 1 ≤ capacity) (ops : List CacheOp) :
    let o := observe capacity policy ops
    A o.cache.policy o.uses o.steps := by
  induction ops using List.reverseRecOn with
  | nil => exact hinit
  | append_singleton ops op ih =>
      obtain ⟨hsound, hcapacity⟩ := sound_observe htracks hcap ops
      rw [observe_concat]
      exact hA.change hsound (change_call hsound (by omega) op) ih

end Changes

end Cache
