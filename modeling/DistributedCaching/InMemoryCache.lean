import DistributedCaching.EvictionPolicy

/-!
# The in-memory cache

`InMemoryCache` stores entries in a map from keys to pointers, up to a capacity,
and asks its eviction policy which key to drop.  Entries live in a memory
addressed by numbers, since a `Get` that overlaps other calls may hold on to an
entry that is no longer in the map; `fresh` is the next unused address.

`Get`, `Set` and `Delete` are written as the lock-protected sections they consist
of, and then as the composition of these sections in one call without
interference.  Readings of the clock and random draws are arguments.

The cache is generic in its policy.  `Sound` is what every section keeps: the
policy tracks exactly the keys of the map, and the map stays within capacity.
-/

namespace Cache

open Go Eviction

structure CacheEntry where
  key : String
  value : Bytes
  /-- When the entry becomes invalid; the zero time means never. -/
  expiresAt : Time
  createdAt : Time
  accessedAt : Time
  accessCount : Int
  deriving DecidableEq, Repr

def CacheEntry.isExpired (e : CacheEntry) (now : Time) : Bool :=
  !e.expiresAt.isZero && now.after e.expiresAt

structure InMemoryCache (P : Type) where
  /-- The entries by address. -/
  memory : Nat → CacheEntry
  fresh : Nat
  entries : GoMap String Nat
  capacity : Nat
  policy : P

namespace InMemoryCache

variable {P : Type}

def new (capacity : Nat) (policy : P) : InMemoryCache P where
  memory := fun _ => ⟨"", [], 0, 0, 0, 0⟩
  fresh := 0
  entries := ∅
  capacity := capacity
  policy := policy

/-- `Len`. -/
def len (c : InMemoryCache P) : Nat := c.entries.len

/-- `LiveLen`. -/
def liveLen (c : InMemoryCache P) (now : Time) : Nat :=
  (c.entries.entries.filter fun e => !(c.memory e.2).isExpired now).length

/-- The entry stored under a key. -/
def entry (c : InMemoryCache P) (key : String) : Option CacheEntry :=
  (c.entries.lookup key).map c.memory

/-- The value and expiry stored under a key. -/
def stored (c : InMemoryCache P) (key : String) : Option (Bytes × Time) :=
  (c.entry key).map fun e => (e.value, e.expiresAt)

variable [EvictionPolicy P]

/-! ## The sections -/

/-- `delete(c.entries, key)` followed by `policy.OnEvict(key)`. -/
def drop (c : InMemoryCache P) (key : String) : InMemoryCache P :=
  { c with
    entries := c.entries.erase key
    policy := EvictionPolicy.onEvict c.policy key }

/-- The section of `Get` for an entry found expired: look again, and drop it. -/
def reap (c : InMemoryCache P) (key : String) (now : Time) : InMemoryCache P :=
  match c.entries.lookup key with
  | none => c
  | some r => if (c.memory r).isExpired now then c.drop key else c

/-- The section of `Get` for a hit, on the entry found earlier. -/
def touch (c : InMemoryCache P) (key : String) (r : Nat) (now policyNow : Time) :
    InMemoryCache P :=
  { c with
    memory := Function.update c.memory r
      { c.memory r with
        accessedAt := now, accessCount := incInt64 (c.memory r).accessCount }
    policy := EvictionPolicy.onAccess c.policy key policyNow }

/-- Why `Set` rejects a TTL. -/
inductive SetError
  | negativeTTL (ttl : Duration)
  | exceedsMaximum (ttl : Duration)
  deriving DecidableEq, Repr

/-- The checks of `Set`, before it takes the lock. -/
def validateTTL (ttl : Duration) : Except SetError Unit :=
  if ttl < 0 then .error (.negativeTTL ttl)
  else if ttl > 86400 * second then .error (.exceedsMaximum ttl)
  else .ok ()

/-- The expiry that `Set` computes before it takes the lock. -/
def expiryOf (now : Time) (ttl : Duration) : Time :=
  if ttl = 0 then now else now + ttl

/-- The update of an entry that is already there. -/
def upsert (c : InMemoryCache P) (key : String) (r : Nat) (value : Bytes)
    (expiresAt now policyNow : Time) : InMemoryCache P :=
  { c with
    memory := Function.update c.memory r
      { c.memory r with
        value := value, expiresAt := expiresAt, accessedAt := now
        accessCount := incInt64 (c.memory r).accessCount }
    policy := EvictionPolicy.onAccess c.policy key policyNow }

/-- The insertion of a new entry. -/
def add (c : InMemoryCache P) (key : String) (value : Bytes)
    (expiresAt now policyNow : Time) : InMemoryCache P :=
  { c with
    memory := Function.update c.memory c.fresh
      { key := key, value := value, expiresAt := expiresAt, createdAt := now
        accessedAt := now, accessCount := 1 }
    fresh := c.fresh + 1
    entries := c.entries.insert key c.fresh
    policy := EvictionPolicy.onInsert c.policy key expiresAt policyNow }

/-- The eviction that makes room for a new entry. -/
def makeRoom (c : InMemoryCache P) (draw : Nat) : InMemoryCache P :=
  if c.len ≥ c.capacity then
    match EvictionPolicy.evict c.policy draw with
    | none => c
    | some evictKey => c.drop evictKey
  else c

/-- The section of `Set`. -/
def store (c : InMemoryCache P) (key : String) (value : Bytes)
    (expiresAt now policyNow : Time) (draw : Nat) : InMemoryCache P :=
  match c.entries.lookup key with
  | some r => c.upsert key r value expiresAt now policyNow
  | none => (c.makeRoom draw).add key value expiresAt now policyNow

/-- `Delete`, which is one section. -/
def delete (c : InMemoryCache P) (key : String) : InMemoryCache P :=
  match c.entries.lookup key with
  | none => c
  | some _ => c.drop key

/-! ## Whole calls -/

/-- The clock readings of one `Get`: for the expiry check, for the second check,
for the access time, and by the policy. -/
structure GetClock where
  check : Time
  recheck : Time
  access : Time
  policy : Time
  deriving DecidableEq, Repr

/-- `Get` without interference. -/
def get (c : InMemoryCache P) (key : String) (t : GetClock) :
    Option Bytes × InMemoryCache P :=
  match c.entries.lookup key with
  | none => (none, c)
  | some r =>
      if (c.memory r).isExpired t.check then (none, c.reap key t.recheck)
      else
        let c := c.touch key r t.access t.policy
        (some (c.memory r).value, c)

/-- `Set` without interference. -/
def set (c : InMemoryCache P) (key : String) (value : Bytes) (ttl : Duration)
    (now policyNow : Time) (draw : Nat) : Except SetError (InMemoryCache P) :=
  match validateTTL ttl with
  | .error e => .error e
  | .ok _ => .ok (c.store key value (expiryOf now ttl) now policyNow draw)

end InMemoryCache

/-! ## What the sections do to the entries -/

open InMemoryCache

variable {P : Type} {c : InMemoryCache P} {key k : String}

/-- The expiry is the reading plus the TTL, which may be zero. -/
theorem expiryOf_eq (now : Time) (ttl : Duration) : expiryOf now ttl = now + ttl := by
  unfold expiryOf
  split
  · rename_i hzero
    rw [hzero, Int.add_zero]
  · rfl

/-- Every address in use holds the entry of the key it is filed under. -/
structure Addressed (c : InMemoryCache P) : Prop where
  keyed : ∀ k r, c.entries.lookup k = some r → (c.memory r).key = k
  bound : ∀ k r, c.entries.lookup k = some r → r < c.fresh

/-- In a new cache no address is in use. -/
theorem addressed_new (capacity : Nat) (policy : P) :
    Addressed (InMemoryCache.new capacity policy) where
  keyed := fun k r hr => by simp [InMemoryCache.new] at hr
  bound := fun k r hr => by simp [InMemoryCache.new] at hr

/-- Different keys have different addresses. -/
theorem Addressed.ne (h : Addressed c) {r r' : Nat} (hr : c.entries.lookup key = some r)
    (hr' : c.entries.lookup k = some r') (hne : k ≠ key) : r' ≠ r := by
  intro heq
  subst heq
  exact hne ((h.keyed k r' hr').symm.trans (h.keyed key r' hr))

/-- Changing the entry of one key leaves the others alone. -/
theorem entry_update_ne (h : Addressed c) {r : Nat} (hr : c.entries.lookup key = some r)
    (e : CacheEntry) (hne : k ≠ key) :
    (c.entries.lookup k).map (Function.update c.memory r e) = c.entry k := by
  cases hk : c.entries.lookup k with
  | none => simp [entry, hk]
  | some r' =>
      rw [entry, hk, Option.map_some, Option.map_some,
        Function.update_of_ne (h.ne hr hk hne)]

/-- Changing an entry without its key. -/
theorem Addressed.update (h : Addressed c) (r : Nat) {e : CacheEntry}
    (he : e.key = (c.memory r).key) (policy : P) :
    Addressed { c with memory := Function.update c.memory r e, policy := policy } where
  keyed := by
    intro k x hx
    show (Function.update c.memory r e x).key = k
    by_cases hxr : x = r
    · rw [hxr, Function.update_self, he, ← hxr]
      exact h.keyed k x hx
    · rw [Function.update_of_ne hxr]
      exact h.keyed k x hx
  bound := h.bound

section Sections

variable [EvictionPolicy P]

@[simp]
theorem entry_drop_self (c : InMemoryCache P) (key : String) : (c.drop key).entry key = none := by
  simp [entry, InMemoryCache.drop]

theorem entry_drop_ne (c : InMemoryCache P) (hne : k ≠ key) :
    (c.drop key).entry k = c.entry k := by
  simp [entry, InMemoryCache.drop, AList.lookup_erase_ne hne]

/-- A hit leaves every stored value and expiry alone, even when the entry it holds
is no longer in the map. -/
theorem stored_touch (c : InMemoryCache P) (key : String) (r : Nat) (now policyNow : Time)
    (k : String) : (c.touch key r now policyNow).stored k = c.stored k := by
  have hsame : ∀ x, ((c.touch key r now policyNow).memory x).value = (c.memory x).value ∧
      ((c.touch key r now policyNow).memory x).expiresAt = (c.memory x).expiresAt := by
    intro x
    by_cases hx : x = r
    · subst hx
      simp [touch]
    · simp [touch, Function.update_of_ne hx]
  unfold stored entry
  show ((c.entries.lookup k).map _).map _ = _
  cases c.entries.lookup k with
  | none => rfl
  | some x => simp [hsame x]

/-- An update in place stores its value and expiry. -/
theorem entry_upsert_self {r : Nat} (hr : c.entries.lookup key = some r) (value : Bytes)
    (expiresAt now policyNow : Time) :
    (c.upsert key r value expiresAt now policyNow).stored key = some (value, expiresAt) := by
  simp [stored, entry, upsert, hr]

/-- An update in place leaves the other keys. -/
theorem entry_upsert_ne (h : Addressed c) {r : Nat} (hr : c.entries.lookup key = some r)
    (value : Bytes) (expiresAt now policyNow : Time) (hne : k ≠ key) :
    (c.upsert key r value expiresAt now policyNow).entry k = c.entry k :=
  entry_update_ne h hr _ hne

theorem entry_add_self (c : InMemoryCache P) (key : String) (value : Bytes)
    (expiresAt now policyNow : Time) :
    (c.add key value expiresAt now policyNow).stored key = some (value, expiresAt) := by
  simp [stored, entry, add]

theorem entry_add_ne (h : Addressed c) (value : Bytes) (expiresAt now policyNow : Time)
    (hne : k ≠ key) : (c.add key value expiresAt now policyNow).entry k = c.entry k := by
  unfold entry add
  dsimp only
  rw [AList.lookup_insert_ne hne]
  cases hk : c.entries.lookup k with
  | none => rfl
  | some r =>
      rw [Option.map_some, Option.map_some,
        Function.update_of_ne (Nat.ne_of_lt (h.bound k r hk))]

/-- Dropping a key keeps the entries filed under their keys. -/
theorem addressed_drop (h : Addressed c) (key : String) : Addressed (c.drop key) := by
  have hold : ∀ k r, (c.drop key).entries.lookup k = some r → c.entries.lookup k = some r := by
    intro k r hr
    by_cases hk : k = key
    · subst hk
      simp [InMemoryCache.drop] at hr
    · simpa [InMemoryCache.drop, AList.lookup_erase_ne hk] using hr
  exact ⟨fun k r hr => h.keyed k r (hold k r hr), fun k r hr => h.bound k r (hold k r hr)⟩

/-- A new entry keeps the entries filed under their keys. -/
theorem addressed_add (h : Addressed c) (key : String) (value : Bytes)
    (expiresAt now policyNow : Time) :
    Addressed (c.add key value expiresAt now policyNow) where
  keyed := by
    intro k r hr
    unfold add at hr ⊢
    dsimp only at hr ⊢
    by_cases hk : k = key
    · subst hk
      rw [AList.lookup_insert] at hr
      cases hr
      rw [Function.update_self]
    · rw [AList.lookup_insert_ne hk] at hr
      rw [Function.update_of_ne (Nat.ne_of_lt (h.bound k r hr))]
      exact h.keyed k r hr
  bound := by
    intro k r hr
    unfold add at hr ⊢
    dsimp only at hr ⊢
    by_cases hk : k = key
    · subst hk
      rw [AList.lookup_insert] at hr
      cases hr
      exact Nat.lt_succ_self _
    · rw [AList.lookup_insert_ne hk] at hr
      exact Nat.lt_succ_of_lt (h.bound k r hr)

/-- Looking again at an expired entry leaves the cache alone, or drops the key. -/
theorem reap_cases (c : InMemoryCache P) (key : String) (now : Time) :
    c.reap key now = c ∨
      ∃ r, c.entries.lookup key = some r ∧ (c.memory r).isExpired now = true ∧
        c.reap key now = c.drop key := by
  unfold reap
  split
  · exact Or.inl rfl
  · rename_i r hr
    split
    · rename_i hexpired
      exact Or.inr ⟨r, hr, hexpired, rfl⟩
    · exact Or.inl rfl

/-- A deletion finds nothing, or drops the key. -/
theorem delete_cases (c : InMemoryCache P) (key : String) :
    c.entries.lookup key = none ∧ c.delete key = c ∨ c.delete key = c.drop key := by
  unfold InMemoryCache.delete
  split
  · rename_i hnone
    exact Or.inl ⟨hnone, rfl⟩
  · exact Or.inr rfl

/-- Making room changes nothing, or drops one key. -/
theorem makeRoom_cases (c : InMemoryCache P) (draw : Nat) :
    c.makeRoom draw = c ∨ ∃ victim, c.makeRoom draw = c.drop victim := by
  unfold makeRoom
  split
  · split
    · exact Or.inl rfl
    · rename_i victim _
      exact Or.inr ⟨victim, rfl⟩
  · exact Or.inl rfl

/-- Reaping keeps the entries filed under their keys. -/
theorem addressed_reap (h : Addressed c) (key : String) (now : Time) :
    Addressed (c.reap key now) := by
  rcases reap_cases c key now with hsame | ⟨_, _, _, hdrop⟩
  · rw [hsame]
    exact h
  · rw [hdrop]
    exact addressed_drop h key

/-- A deletion keeps the entries filed under their keys. -/
theorem addressed_delete (h : Addressed c) (key : String) : Addressed (c.delete key) := by
  rcases delete_cases c key with ⟨_, hsame⟩ | hdrop
  · rw [hsame]
    exact h
  · rw [hdrop]
    exact addressed_drop h key

/-- Making room keeps the entries filed under their keys. -/
theorem addressed_makeRoom (h : Addressed c) (draw : Nat) : Addressed (c.makeRoom draw) := by
  rcases makeRoom_cases c draw with hsame | ⟨victim, hdrop⟩
  · rw [hsame]
    exact h
  · rw [hdrop]
    exact addressed_drop h victim

/-- The section of a `Set` keeps the entries filed under their keys. -/
theorem addressed_store (h : Addressed c) (key : String) (value : Bytes)
    (expiresAt now policyNow : Time) (draw : Nat) :
    Addressed (c.store key value expiresAt now policyNow draw) := by
  unfold store
  split
  · exact h.update _ (by rfl) _
  · exact addressed_add (addressed_makeRoom h draw) _ _ _ _ _

end Sections

/-! ## Cache and policy in step -/

section Sound

variable [LawfulPolicy P]

/-- **A sound cache**: its policy tracks exactly its keys, and it is within its
capacity. -/
structure Sound (c : InMemoryCache P) : Prop where
  addressed : Addressed c
  inStep : LawfulPolicy.Tracks c.policy c.entries.keys
  within : c.len ≤ c.capacity

/-- A new cache is sound. -/
theorem sound_new {policy : P} (h : LawfulPolicy.Tracks policy []) (capacity : Nat) :
    Sound (InMemoryCache.new capacity policy) where
  addressed := addressed_new capacity policy
  inStep := h
  within := Nat.zero_le _

/-- Dropping a key from the map and from the policy keeps the cache sound. -/
theorem sound_drop (h : Sound c) (hkey : key ∈ c.entries) : Sound (c.drop key) where
  addressed := addressed_drop h.addressed key
  inStep := by
    show LawfulPolicy.Tracks (EvictionPolicy.onEvict c.policy key) (c.entries.erase key).keys
    rw [AList.keys_erase]
    exact LawfulPolicy.tracks_onEvict h.inStep (AList.mem_keys.mp hkey)
  within := by
    have hlen := GoMap.len_erase_present hkey
    have hwithin := h.within
    show GoMap.len (c.entries.erase key) ≤ c.capacity
    unfold InMemoryCache.len at hwithin
    omega

/-- Adding a new key where there is room keeps the cache sound. -/
theorem sound_add (h : Sound c) (hkey : key ∉ c.entries) (hroom : c.len < c.capacity)
    (value : Bytes) (expiresAt now policyNow : Time) :
    Sound (c.add key value expiresAt now policyNow) where
  addressed := addressed_add h.addressed key value expiresAt now policyNow
  inStep := by
    show LawfulPolicy.Tracks (EvictionPolicy.onInsert c.policy key expiresAt policyNow)
      (c.entries.insert key c.fresh).keys
    rw [GoMap.keys_insert_new _ hkey]
    exact LawfulPolicy.tracks_onInsert h.inStep (fun hmem => hkey (AList.mem_keys.mpr hmem)) _ _
  within := by
    show GoMap.len (c.entries.insert key c.fresh) ≤ c.capacity
    rw [GoMap.len_insert_new _ hkey]
    exact hroom

/-- Touching or updating an entry. -/
theorem Sound.update (h : Sound c) (r : Nat) {e : CacheEntry}
    (he : e.key = (c.memory r).key) (key : String) (policyNow : Time) :
    Sound { c with
      memory := Function.update c.memory r e
      policy := EvictionPolicy.onAccess c.policy key policyNow } where
  addressed := h.addressed.update r he _
  inStep := LawfulPolicy.tracks_onAccess h.inStep key policyNow
  within := h.within

/-- Recording a hit keeps the cache sound. -/
theorem sound_touch (h : Sound c) (key : String) (r : Nat) (now policyNow : Time) :
    Sound (c.touch key r now policyNow) :=
  h.update r (by rfl) key policyNow

/-- Reaping keeps the cache sound. -/
theorem sound_reap (h : Sound c) (key : String) (now : Time) : Sound (c.reap key now) := by
  unfold reap
  split
  · exact h
  · rename_i r hr
    split
    · exact sound_drop h (GoMap.mem_iff_lookup.mpr ⟨r, hr⟩)
    · exact h

/-- A deletion keeps the cache sound. -/
theorem sound_delete (h : Sound c) (key : String) : Sound (c.delete key) := by
  unfold InMemoryCache.delete
  split
  · exact h
  · rename_i r hr
    exact sound_drop h (GoMap.mem_iff_lookup.mpr ⟨r, hr⟩)

/-- **What the section of `Set` does to a sound cache**: it updates the entry of a
key that is there, adds a key for which there is room, or drops one key to make
room.  A full cache never fails to find a key to drop. -/
theorem store_cases (h : Sound c) (hcap : 1 ≤ c.capacity) (key : String) (value : Bytes)
    (expiresAt now policyNow : Time) (draw : Nat) :
    (∃ r, c.entries.lookup key = some r ∧
      c.store key value expiresAt now policyNow draw =
        c.upsert key r value expiresAt now policyNow) ∨
    (key ∉ c.entries ∧ c.len < c.capacity ∧
      c.store key value expiresAt now policyNow draw =
        c.add key value expiresAt now policyNow) ∨
    (key ∉ c.entries ∧ c.len = c.capacity ∧ ∃ victim ∈ c.entries,
      EvictionPolicy.evict c.policy draw = some victim ∧
      c.store key value expiresAt now policyNow draw =
        (c.drop victim).add key value expiresAt now policyNow) := by
  cases hr : c.entries.lookup key with
  | some r => exact Or.inl ⟨r, rfl, by simp [store, hr]⟩
  | none =>
      have hkey : key ∉ c.entries := AList.lookup_eq_none.mp hr
      refine Or.inr ?_
      by_cases hfull : c.len ≥ c.capacity
      · refine Or.inr ⟨hkey, Nat.le_antisymm h.within hfull, ?_⟩
        cases hevict : EvictionPolicy.evict c.policy draw with
        | none =>
            have hempty := LawfulPolicy.evict_none h.inStep hevict
            have hlen : c.len = 0 := by simp [InMemoryCache.len, GoMap.len, hempty]
            omega
        | some victim =>
            have hvictim := LawfulPolicy.evict_some h.inStep hevict
            refine ⟨victim, AList.mem_keys.mpr hvictim, rfl, ?_⟩
            simp [store, hr, makeRoom, hfull, hevict]
      · refine Or.inl ⟨hkey, by omega, ?_⟩
        simp [store, hr, makeRoom, hfull]

theorem len_drop (hkey : key ∈ c.entries) : (c.drop key).len + 1 = c.len :=
  GoMap.len_erase_present hkey

theorem notMem_drop (hkey : key ∉ c.entries) (k : String) : key ∉ (c.drop k).entries :=
  fun hmem => hkey (AList.mem_erase.mp hmem).2

/-- **The section of a `Set` keeps the cache sound.** -/
theorem sound_store (h : Sound c) (hcap : 1 ≤ c.capacity) (key : String) (value : Bytes)
    (expiresAt now policyNow : Time) (draw : Nat) :
    Sound (c.store key value expiresAt now policyNow draw) := by
  rcases store_cases h hcap key value expiresAt now policyNow draw with
    ⟨r, _, hstore⟩ | ⟨hkey, hroom, hstore⟩ | ⟨hkey, hfull, victim, hvictim, _, hstore⟩
  · rw [hstore]
    exact h.update r (by rfl) key policyNow
  · rw [hstore]
    exact sound_add h hkey hroom _ _ _ _
  · rw [hstore]
    have hlen := len_drop hvictim
    have hcapacity : (c.drop victim).capacity = c.capacity := rfl
    exact sound_add (sound_drop h hvictim) (notMem_drop hkey victim) (by omega) _ _ _ _

end Sound

/-! ## The capacity never changes -/

section Capacity

variable [EvictionPolicy P]

@[simp] theorem capacity_reap (key : String) (now : Time) :
    (c.reap key now).capacity = c.capacity := by
  unfold reap
  split
  · rfl
  · split <;> rfl

@[simp] theorem capacity_delete (key : String) : (c.delete key).capacity = c.capacity := by
  unfold InMemoryCache.delete
  split <;> rfl

@[simp] theorem capacity_store (key : String) (value : Bytes)
    (expiresAt now policyNow : Time) (draw : Nat) :
    (c.store key value expiresAt now policyNow draw).capacity = c.capacity := by
  unfold store makeRoom
  split
  · rfl
  · split
    · split <;> rfl
    · rfl

end Capacity

/-! ## Whole calls -/

section Calls

variable [EvictionPolicy P] {t : GetClock}

/-- A hit returns the value of an entry that is there and not expired. -/
theorem get_hit {v : Bytes} (h : (c.get key t).1 = some v) :
    ∃ e, c.entry key = some e ∧ e.value = v ∧ e.isExpired t.check = false := by
  unfold InMemoryCache.get at h
  split at h
  · cases h
  · rename_i r hr
    split at h
    · cases h
    · rename_i hfresh
      refine ⟨c.memory r, by simp [entry, hr], ?_, by simpa using hfresh⟩
      simpa [touch] using h

/-- An entry that is not expired is found. -/
theorem get_unexpired {e : CacheEntry} (he : c.entry key = some e)
    (hfresh : e.isExpired t.check = false) : (c.get key t).1 = some e.value := by
  obtain ⟨r, hr, rfl⟩ := Option.map_eq_some_iff.mp he
  simp [InMemoryCache.get, hr, hfresh, touch]

/-- A miss leaves the cache alone, or drops an expired entry of the key. -/
theorem get_miss (h : (c.get key t).1 = none) :
    (c.get key t).2 = c ∨
      ∃ e, c.entry key = some e ∧ e.isExpired t.recheck = true ∧
        (c.get key t).2 = c.drop key := by
  unfold InMemoryCache.get at h ⊢
  split
  · exact Or.inl rfl
  · rename_i r hr
    rw [hr] at h
    dsimp only at h ⊢
    split
    · dsimp only
      unfold reap
      rw [hr]
      dsimp only
      split
      · rename_i hexpired
        exact Or.inr ⟨c.memory r, by simp [entry, hr], hexpired, rfl⟩
      · exact Or.inl rfl
    · rename_i hfresh
      rw [if_neg hfresh] at h
      cases h

/-- `Get` stores nothing. -/
theorem stored_get {x : Bytes × Time} (h : (c.get key t).2.stored k = some x) :
    c.stored k = some x := by
  cases hget : (c.get key t).1 with
  | none =>
      rcases get_miss hget with hsame | ⟨_, _, _, hdrop⟩
      · rwa [hsame] at h
      · rw [hdrop] at h
        by_cases hk : k = key
        · subst hk
          simp [stored] at h
        · rwa [stored, entry_drop_ne c hk] at h
  | some v =>
      unfold InMemoryCache.get at h hget
      split at h
      · exact h
      · rename_i r hr
        rw [hr] at hget
        dsimp only at hget
        split at h
        · rename_i hexpired
          rw [if_pos hexpired] at hget
          cases hget
        · rwa [stored_touch] at h

@[simp] theorem capacity_get : (c.get key t).2.capacity = c.capacity := by
  unfold InMemoryCache.get
  split
  · rfl
  · split
    · exact capacity_reap _ _
    · rfl

/-- A `Get` keeps the entries filed under their keys. -/
theorem addressed_get (h : Addressed c) (key : String) (t : GetClock) :
    Addressed (c.get key t).2 := by
  unfold InMemoryCache.get
  split
  · exact h
  · split
    · exact addressed_reap h key _
    · exact h.update _ (by rfl) _

/-- After the section of `Set` the key holds what was stored. -/
theorem stored_store_self (c : InMemoryCache P) (key : String) (value : Bytes)
    (expiresAt now policyNow : Time) (draw : Nat) :
    (c.store key value expiresAt now policyNow draw).stored key = some (value, expiresAt) := by
  unfold store
  split
  · rename_i r hr
    exact entry_upsert_self hr value expiresAt now policyNow
  · exact entry_add_self _ key value expiresAt now policyNow

/-- What another key holds after it, it held before. -/
theorem stored_store_ne (h : Addressed c) {value : Bytes} {expiresAt now policyNow : Time}
    {draw : Nat} {x : Bytes × Time} (hne : k ≠ key)
    (hx : (c.store key value expiresAt now policyNow draw).stored k = some x) :
    c.stored k = some x := by
  unfold store at hx
  split at hx
  · rename_i r hr
    rwa [stored, entry_upsert_ne h hr _ _ _ _ hne] at hx
  · rw [stored, entry_add_ne (addressed_makeRoom h draw) _ _ _ _ hne] at hx
    rcases makeRoom_cases c draw with hsame | ⟨victim, hdrop⟩
    · rwa [hsame] at hx
    · rw [hdrop] at hx
      by_cases hv : k = victim
      · subst hv
        simp at hx
      · rwa [entry_drop_ne c hv] at hx

end Calls

section SoundCalls

variable [LawfulPolicy P]

/-- A `Get` keeps the cache sound. -/
theorem sound_get (h : Sound c) (key : String) (t : GetClock) : Sound (c.get key t).2 := by
  unfold InMemoryCache.get
  split
  · exact h
  · split
    · exact sound_reap h key _
    · exact sound_touch h key _ _ _

end SoundCalls

end Cache
