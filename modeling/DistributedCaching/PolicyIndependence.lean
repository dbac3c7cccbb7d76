import DistributedCaching.CacheContents
import Mathlib.Data.List.Dedup
import Mathlib.Data.List.Perm.Subperm

/-!
# Policies differ only in their victims

Two caches with different policies take the same calls.  As long as nothing has to be
evicted they hold the same entries at the same addresses (`Alike`), so they answer
alike and have the same sizes.  Nothing has to be evicted when no more keys are ever
set than the capacity: every key in a cache was set before (`Contents.keys`).

`policies_agree` adds what the answers are.  A `Get` finds what the last accepted `Set`
of the key has stored, unless a `Delete` came since or the time to live has passed.
A time to live that ends exactly at the zero time never passes
(`zero_expiry_never_passes`).
-/

namespace Cache

open Go Eviction InMemoryCache

/-! ## Calls on two caches -/

/-- The same call, up to what the policy reads. -/
def SameCall : CacheOp → CacheOp → Prop
  | .get k t, .get k' t' =>
      k = k' ∧ t.check = t'.check ∧ t.recheck = t'.recheck ∧ t.access = t'.access
  | .set k v ttl now _ _, .set k' v' ttl' now' _ _ => k = k' ∧ v = v' ∧ ttl = ttl' ∧ now = now'
  | .delete k, .delete k' => k = k'
  | _, _ => False

instance : ∀ op op', Decidable (SameCall op op')
  | .get _ _, .get _ _ => inferInstanceAs (Decidable (_ ∧ _ ∧ _ ∧ _))
  | .set _ _ _ _ _ _, .set _ _ _ _ _ _ => inferInstanceAs (Decidable (_ ∧ _ ∧ _ ∧ _))
  | .delete k, .delete k' => inferInstanceAs (Decidable (k = k'))
  | .get _ _, .set _ _ _ _ _ _ => .isFalse id
  | .get _ _, .delete _ => .isFalse id
  | .set _ _ _ _ _ _, .get _ _ => .isFalse id
  | .set _ _ _ _ _ _, .delete _ => .isFalse id
  | .delete _, .get _ _ => .isFalse id
  | .delete _, .set _ _ _ _ _ _ => .isFalse id

section Alike

variable {P Q : Type} [EvictionPolicy P] [EvictionPolicy Q]

/-- What a call returns. -/
def InMemoryCache.answer (c : InMemoryCache P) : CacheOp → Result
  | .get key clock => .got (c.get key clock).1
  | .set key value ttl now policyNow draw =>
      match c.set key value ttl now policyNow draw with
      | .ok _ => .stored
      | .error e => .rejected e
  | .delete _ => .deleted

/-- The same cache, up to the policy. -/
structure Alike (c : InMemoryCache P) (d : InMemoryCache Q) : Prop where
  memory : c.memory = d.memory
  fresh : c.fresh = d.fresh
  entries : c.entries = d.entries
  capacity : c.capacity = d.capacity

variable {c : InMemoryCache P} {d : InMemoryCache Q}

/-- Dropping a key keeps the caches alike. -/
theorem Alike.drop (h : Alike c d) (key : String) : Alike (c.drop key) (d.drop key) :=
  ⟨h.memory, h.fresh, by simp [InMemoryCache.drop, h.entries], h.capacity⟩

/-- A deletion keeps the caches alike. -/
theorem Alike.delete (h : Alike c d) (key : String) : Alike (c.delete key) (d.delete key) := by
  unfold InMemoryCache.delete
  rw [← h.entries]
  split
  · exact h
  · exact h.drop key

/-- Reaping keeps the caches alike. -/
theorem Alike.reap (h : Alike c d) (key : String) (now : Time) :
    Alike (c.reap key now) (d.reap key now) := by
  unfold InMemoryCache.reap
  rw [← h.entries, ← h.memory]
  split
  · exact h
  · split
    · exact h.drop key
    · exact h

/-- **A `Get` answers alike**, whatever the policies, and keeps the caches alike. -/
theorem Alike.get (h : Alike c d) (key : String) {t t' : GetClock} (hcheck : t.check = t'.check)
    (hrecheck : t.recheck = t'.recheck) (haccess : t.access = t'.access) :
    (c.get key t).1 = (d.get key t').1 ∧ Alike (c.get key t).2 (d.get key t').2 := by
  unfold InMemoryCache.get
  rw [← h.entries, ← h.memory, ← hcheck, ← hrecheck]
  split
  · exact ⟨rfl, h⟩
  · split
    · exact ⟨rfl, h.reap key t.recheck⟩
    · refine ⟨by simp [touch, h.memory], ?_⟩
      exact ⟨by simp [touch, h.memory, haccess], h.fresh, h.entries, h.capacity⟩

/-- The section of `Set`, when it need not evict. -/
theorem Alike.store (h : Alike c d) {key : String} (hroom : key ∈ c.entries ∨ c.len < c.capacity)
    (value : Bytes) (expiresAt now policyNow policyNow' : Time) (draw draw' : Nat) :
    Alike (c.store key value expiresAt now policyNow draw)
      (d.store key value expiresAt now policyNow' draw') := by
  have hlen : c.len = d.len := by simp [InMemoryCache.len, h.entries]
  unfold InMemoryCache.store
  rw [← h.entries]
  split
  · exact ⟨by simp [upsert, h.memory], h.fresh, h.entries, h.capacity⟩
  · rename_i hnone
    have hlt : c.len < c.capacity := hroom.resolve_left (AList.lookup_eq_none.mp hnone)
    have hroomc : c.makeRoom draw = c := if_neg (by omega)
    have hroomd : d.makeRoom draw' = d := if_neg (by rw [← hlen, ← h.capacity]; omega)
    rw [hroomc, hroomd]
    exact ⟨by simp [add, h.memory, h.fresh], by simp [add, h.fresh],
      by simp [add, h.entries, h.fresh], h.capacity⟩

/-- **The same call on alike caches** that need not evict: the same answer, and alike
caches. -/
theorem Alike.perform (h : Alike c d) {op op' : CacheOp} (hsame : SameCall op op')
    (hfits : Fits c op) :
    c.answer op = d.answer op' ∧ Alike (c.perform op) (d.perform op') := by
  cases op with
  | get k t =>
      cases op' with
      | get k' t' =>
          obtain ⟨rfl, hcheck, hrecheck, haccess⟩ := hsame
          obtain ⟨hanswer, halike⟩ := h.get k hcheck hrecheck haccess
          exact ⟨congrArg Result.got hanswer, halike⟩
      | _ => exact hsame.elim
  | set k v ttl now policyNow draw =>
      cases op' with
      | set k' v' ttl' now' policyNow' draw' =>
          obtain ⟨rfl, rfl, rfl, rfl⟩ := hsame
          simp only [InMemoryCache.answer, InMemoryCache.perform, InMemoryCache.set]
          cases hvalid : validateTTL ttl with
          | error e => exact ⟨rfl, h⟩
          | ok u => exact ⟨rfl, h.store (hfits hvalid) _ _ _ _ _ _ _⟩
      | _ => exact hsame.elim
  | delete k =>
      cases op' with
      | delete k' =>
          cases hsame
          exact ⟨rfl, h.delete k⟩
      | _ => exact hsame.elim

omit [EvictionPolicy P] [EvictionPolicy Q] in
/-- Alike caches have the same sizes. -/
theorem Alike.sizes (h : Alike c d) : c.len = d.len ∧ ∀ t, c.liveLen t = d.liveLen t := by
  constructor
  · simp [InMemoryCache.len, h.entries]
  · intro t
    simp [liveLen, h.entries, h.memory]

end Alike

/-! ## The contents by the history of calls -/

/-- The value, time to live and time of the last accepted `Set` of a key, if there was
one and no `Delete` of the key came later: how a call changes it. -/
def noteCall (k : String) (last : Option (Bytes × Duration × Time)) :
    CacheOp → Option (Bytes × Duration × Time)
  | .get _ _ => last
  | .set key value ttl now _ _ =>
      if key = k ∧ validateTTL ttl = .ok () then some (value, ttl, now) else last
  | .delete key => if key = k then none else last

/-- The last accepted `Set` of a key that has no later `Delete`. -/
def lastSet (ops : List CacheOp) (k : String) : Option (Bytes × Duration × Time) :=
  ops.foldl (noteCall k) none

/-- The keys of the accepted `Set`s. -/
def acceptedKeys (ops : List CacheOp) : List String :=
  ops.filterMap fun
    | .set key _ ttl _ _ _ => if validateTTL ttl = .ok () then some key else none
    | _ => none

/-- The readings of the clock that a call compares with an expiry or makes one from. -/
def CacheOp.readings : CacheOp → List Time
  | .get _ clock => [clock.check, clock.recheck]
  | .set _ _ _ now _ _ => [now]
  | .delete _ => []

/-- The clock never goes back. -/
def Nondecreasing (ops : List CacheOp) : Prop :=
  (ops.flatMap CacheOp.readings).Pairwise (· ≤ ·)

instance (ops : List CacheOp) : Decidable (Nondecreasing ops) :=
  inferInstanceAs (Decidable (List.Pairwise _ _))

theorem lastSet_concat (ops : List CacheOp) (op : CacheOp) (k : String) :
    lastSet (ops ++ [op]) k = noteCall k (lastSet ops k) op := List.foldl_concat _ _ _ _

/-- A call that does not overwrite the key leaves the note of its last `Set`. -/
theorem noteCall_of_not_overwrites {k : String} {op : CacheOp} (h : ¬ op.Overwrites k)
    (last : Option (Bytes × Duration × Time)) : noteCall k last op = last := by
  cases op with
  | get key clock => rfl
  | set key value ttl now policyNow draw => exact if_neg h
  | delete key => exact if_neg h

/-- The cache after these calls. -/
def after {P : Type} [EvictionPolicy P] (capacity : Nat) (policy : P) (ops : List CacheOp) :
    InMemoryCache P :=
  ops.foldl InMemoryCache.perform (.new capacity policy)

section Contents

variable {P : Type} {c : InMemoryCache P} {ops : List CacheOp}

/-- A key is there exactly if it has something stored. -/
theorem mem_entries_iff_stored {k : String} : k ∈ c.entries ↔ ∃ x, c.stored k = some x := by
  rw [GoMap.mem_iff_lookup]
  simp [stored, entry]

/-- **The contents of a cache** that has never evicted, by the calls so far: each key
holds what was set last, unless it was found expired. -/
structure Contents (ops : List CacheOp) (c : InMemoryCache P) : Prop where
  held : ∀ {k v expiresAt}, c.stored k = some (v, expiresAt) →
    ∃ ttl now, lastSet ops k = some (v, ttl, now) ∧ expiresAt = now + ttl
  lost : ∀ {k v ttl now}, lastSet ops k = some (v, ttl, now) →
    c.stored k = some (v, now + ttl) ∨
      (c.stored k = none ∧ now + ttl ≠ 0 ∧
        ∃ t ∈ ops.flatMap CacheOp.readings, now + ttl < t)
  keys : ∀ k ∈ c.entries, k ∈ acceptedKeys ops

/-- A cache for as many keys as are ever set need not evict. -/
theorem Contents.fits (h : Contents ops c) {op : CacheOp} {all : List CacheOp}
    (hsub : ∀ k ∈ acceptedKeys (ops ++ [op]), k ∈ acceptedKeys all)
    (hkeys : (acceptedKeys all).dedup.length ≤ c.capacity) : Fits c op := by
  cases op with
  | get key clock => trivial
  | delete key => trivial
  | set key value ttl now policyNow draw =>
      intro hvalid
      by_cases hkey : key ∈ c.entries
      · exact Or.inl hkey
      · right
        have hnew : (key :: c.entries.keys).Nodup :=
          List.nodup_cons.mpr ⟨fun hmem => hkey (AList.mem_keys.mpr hmem), c.entries.keys_nodup⟩
        have hall : key :: c.entries.keys ⊆ (acceptedKeys all).dedup := by
          intro k hk
          rw [List.mem_dedup]
          apply hsub
          rw [acceptedKeys, List.filterMap_append, List.mem_append]
          rcases List.mem_cons.mp hk with rfl | hk
          · right
            simp [hvalid]
          · exact Or.inl (h.keys k (AList.mem_keys.mpr hk))
        have hlen := (hnew.subperm hall).length_le
        rw [List.length_cons] at hlen
        exact Nat.lt_of_lt_of_le (Nat.lt_of_succ_le hlen) hkeys

variable [LawfulPolicy P]

/-- One call keeps the contents in line with the calls. -/
theorem Contents.perform (h : Contents ops c) (hsound : Sound c) (hcap : 1 ≤ c.capacity)
    {op : CacheOp} (hfits : Fits c op) : Contents (ops ++ [op]) (c.perform op) where
  held := by
    intro k v expiresAt hx
    rw [lastSet_concat]
    rcases stored_perform hsound.addressed hx with
      ⟨value, ttl, now, policyNow, draw, rfl, hvalid, hnew⟩ | ⟨hold, hover⟩
    · cases hnew
      exact ⟨ttl, now, if_pos ⟨rfl, hvalid⟩, rfl⟩
    · rw [noteCall_of_not_overwrites hover]
      exact h.held hold
  lost := by
    intro k v ttl now hlast
    rw [lastSet_concat] at hlast
    by_cases hover : op.Overwrites k
    · cases op with
      | get key clock => exact hover.elim
      | delete key =>
          have hnone : noteCall k (lastSet ops k) (.delete key) = none := if_pos hover
          cases hnone.symm.trans hlast
      | set key value ttl' now' policyNow draw =>
          have hset : noteCall k (lastSet ops k) (.set key value ttl' now' policyNow draw) =
              some (value, ttl', now') := if_pos hover
          cases hset.symm.trans hlast
          obtain ⟨rfl, hvalid⟩ := hover
          left
          rw [perform_accepted hvalid, ← expiryOf_eq]
          exact stored_store_self _ _ _ _ _ _ _
    · rw [noteCall_of_not_overwrites hover] at hlast
      rcases h.lost hlast with hthere | ⟨hgone, hzero, t, ht, hlate⟩
      · rcases stored_perform_kept hsound hcap hfits hover hthere with
          hkept | ⟨hdropped, clock, rfl, hzero, hlate⟩
        · exact Or.inl hkept
        · refine Or.inr ⟨hdropped, hzero, clock.recheck, ?_, hlate⟩
          simp [CacheOp.readings]
      · refine Or.inr ⟨?_, hzero, t, by simp [ht], hlate⟩
        cases hx : (c.perform op).stored k with
        | none => rfl
        | some x =>
            rcases stored_perform hsound.addressed hx with ⟨_, _, _, _, _, rfl, hvalid, _⟩ | ⟨hold, _⟩
            · exact absurd ⟨rfl, hvalid⟩ hover
            · cases hgone.symm.trans hold
  keys := by
    intro k hk
    rw [acceptedKeys, List.filterMap_append, List.mem_append]
    obtain ⟨x, hx⟩ := mem_entries_iff_stored.mp hk
    rcases stored_perform hsound.addressed hx with ⟨_, _, _, _, _, rfl, hvalid, _⟩ | ⟨hold, _⟩
    · right
      simp [hvalid]
    · exact Or.inl (h.keys k (mem_entries_iff_stored.mpr ⟨x, hold⟩))

/-- **What a `Get` finds.** -/
theorem Contents.get_iff (h : Contents ops c) {k : String} {clock : GetClock}
    (hclock : ∀ t ∈ ops.flatMap CacheOp.readings, t ≤ clock.check) (v : Bytes) :
    (c.get k clock).1 = some v ↔
      ∃ ttl now, lastSet ops k = some (v, ttl, now) ∧
        (clock.check ≤ now + ttl ∨ now + ttl = 0) := by
  constructor
  · intro hget
    obtain ⟨e, he, rfl, hfresh⟩ := get_hit hget
    obtain ⟨ttl, now, hlast, hexpiry⟩ := h.held (k := k) (by simp only [stored, he]; rfl)
    rw [isExpired_eq_false_iff, hexpiry] at hfresh
    exact ⟨ttl, now, hlast, hfresh.symm⟩
  · intro hlast
    obtain ⟨ttl, now, hlast, hlive⟩ := hlast
    rcases h.lost hlast with hthere | ⟨_, hzero, t, ht, hlate⟩
    · obtain ⟨e, he, heq⟩ := Option.map_eq_some_iff.mp hthere
      obtain ⟨hvalue, hexpiry⟩ := Prod.mk.inj heq
      rw [← hvalue]
      apply get_unexpired he
      rw [isExpired_eq_false_iff, hexpiry]
      exact hlive.symm
    · have hle := hclock t ht
      rcases hlive with hlive | hlive
      · exact absurd (Int.lt_of_lt_of_le hlate (Int.le_trans hle hlive)) (Int.lt_irrefl _)
      · exact absurd hlive hzero

end Contents

/-! ## Whole runs -/

theorem after_concat {P : Type} [EvictionPolicy P] (capacity : Nat) (policy : P)
    (ops : List CacheOp) (op : CacheOp) :
    after capacity policy (ops ++ [op]) = (after capacity policy ops).perform op :=
  List.foldl_concat _ _ _ _

/-- Two runs of the same calls, at every point before their end. -/
theorem alike_after {P Q : Type} [LawfulPolicy P] [LawfulPolicy Q] (policy : P) (policy' : Q)
    (htracks : LawfulPolicy.Tracks policy []) {capacity : Nat} (hcap : 1 ≤ capacity)
    {all : List CacheOp} (hkeys : (acceptedKeys all).dedup.length ≤ capacity)
    {calls : List (CacheOp × CacheOp)} (hsame : ∀ x ∈ calls, SameCall x.1 x.2)
    (hall : ∀ k ∈ acceptedKeys (calls.map Prod.fst), k ∈ acceptedKeys all) :
    let c := after capacity policy (calls.map Prod.fst)
    let d := after capacity policy' (calls.map Prod.snd)
    Sound c ∧ c.capacity = capacity ∧ Contents (calls.map Prod.fst) c ∧ Alike c d := by
  induction calls using List.reverseRecOn with
  | nil =>
      refine ⟨sound_new htracks capacity, rfl, ⟨?_, ?_, ?_⟩, rfl, rfl, rfl, rfl⟩
      · intro k v expiresAt hx
        cases hx
      · intro k v ttl now hlast
        cases hlast
      · intro k hk
        exact absurd hk (AList.notMem_empty k)
  | append_singleton calls call ih =>
      have hprefix : ∀ k ∈ acceptedKeys (calls.map Prod.fst), k ∈ acceptedKeys all := by
        intro k hk
        apply hall
        rw [List.map_append, acceptedKeys, List.filterMap_append]
        exact List.mem_append_left _ hk
      obtain ⟨hsound, hcapacity, hcontents, halike⟩ :=
        ih (fun x hx => hsame x (List.mem_append_left _ hx)) hprefix
      rw [List.map_append] at hall
      simp only [List.map_append, List.map_cons, List.map_nil, after_concat] at hall ⊢
      have hcap' : 1 ≤ (after capacity policy (calls.map Prod.fst)).capacity := by omega
      have hfits := hcontents.fits hall (by omega)
      obtain ⟨hsound', hcapacity'⟩ := sound_perform hsound hcap' call.1
      refine ⟨hsound', hcapacity'.trans hcapacity, hcontents.perform hsound hcap' hfits, ?_⟩
      exact (halike.perform (hsame call (by simp)) hfits).2

/-- **Policies differ only in victims.**  Two caches of the same capacity, with any two
of the policies, take the same calls at the same times of a clock that never goes back,
and accept no more different keys than the capacity.  Then every call returns the same,
both sizes are the same after it, and a `Get` finds what the last accepted `Set` of the
key stored if that was not deleted since and its time to live has not passed. -/
theorem policies_agree (kind kind' : PolicyKind) (capacity : Nat) (hcap : 1 ≤ capacity)
    (calls : List (CacheOp × CacheOp)) (hsame : ∀ x ∈ calls, SameCall x.1 x.2)
    (hclock : Nondecreasing (calls.map Prod.fst))
    (hkeys : (acceptedKeys (calls.map Prod.fst)).dedup.length ≤ capacity)
    (done rest : List (CacheOp × CacheOp)) (op op' : CacheOp)
    (hsplit : calls = done ++ (op, op') :: rest) :
    let c := after capacity (newPolicy kind) (done.map Prod.fst)
    let d := after capacity (newPolicy kind') (done.map Prod.snd)
    c.answer op = d.answer op' ∧
    (c.perform op).len = (d.perform op').len ∧
    (∀ t, (c.perform op).liveLen t = (d.perform op').liveLen t) ∧
    (∀ k clock, op = .get k clock → ∀ v, c.answer op = .got (some v) ↔
      ∃ ttl now, lastSet (done.map Prod.fst) k = some (v, ttl, now) ∧
        (clock.check ≤ now + ttl ∨ now + ttl = 0)) := by
  intro c d
  have hops : calls.map Prod.fst = (done.map Prod.fst ++ [op]) ++ rest.map Prod.fst := by
    simp [hsplit]
  have hnext : ∀ k ∈ acceptedKeys (done.map Prod.fst ++ [op]),
      k ∈ acceptedKeys (calls.map Prod.fst) := by
    intro k hk
    rw [hops, acceptedKeys, List.filterMap_append]
    exact List.mem_append_left _ hk
  have hdone : ∀ k ∈ acceptedKeys (done.map Prod.fst), k ∈ acceptedKeys (calls.map Prod.fst) := by
    intro k hk
    apply hnext
    rw [acceptedKeys, List.filterMap_append]
    exact List.mem_append_left _ hk
  obtain ⟨hsound, hcapacity, hcontents, halike⟩ :=
    alike_after (newPolicy kind) (newPolicy kind') (tracks_newPolicy kind) hcap hkeys
      (fun x hx => hsame x (by simp [hsplit, hx])) hdone
  have hfits : Fits c op := hcontents.fits hnext (Nat.le_trans hkeys (Nat.le_of_eq hcapacity.symm))
  obtain ⟨hanswer, halike'⟩ := halike.perform (hsame (op, op') (by simp [hsplit])) hfits
  refine ⟨hanswer, halike'.sizes.1, halike'.sizes.2, ?_⟩
  intro k clock hop v
  subst hop
  have hbefore : ∀ t ∈ (done.map Prod.fst).flatMap CacheOp.readings, t ≤ clock.check := by
    intro t ht
    rw [Nondecreasing, hops, List.flatMap_append, List.flatMap_append] at hclock
    have hpair := (List.pairwise_append.mp (List.pairwise_append.mp hclock).1).2.2
    exact hpair t ht clock.check (by simp [CacheOp.readings])
  rw [← hcontents.get_iff hbefore v]
  exact ⟨fun h => Result.got.inj h, fun h => congrArg Result.got h⟩

/-- Two keys in caches for two: the first is deleted and set again, the second expires. -/
def sameCalls : List (CacheOp × CacheOp) :=
  [(.set "a" [1] second 1 1 0, .set "a" [1] second 1 2 7),
   (.set "b" [2] (2 * second) 2 2 0, .set "b" [2] (2 * second) 2 2 7),
   (.delete "a", .delete "a"),
   (.set "a" [3] minute 3 3 0, .set "a" [3] minute 3 4 7),
   (.get "b" ⟨3 * second, 3 * second, 3 * second, 3 * second⟩,
    .get "b" ⟨3 * second, 3 * second, 3 * second, 4 * second⟩),
   (.get "a" ⟨4 * second, 4 * second, 4 * second, 4 * second⟩,
    .get "a" ⟨4 * second, 4 * second, 4 * second, 5 * second⟩)]

/-- Under `LRU` and under `Random` the sixth call finds the value that was set last. -/
theorem policies_agree_sameCalls :
    let c := after 2 (newPolicy .lru) ((sameCalls.take 5).map Prod.fst)
    let d := after 2 (newPolicy .random) ((sameCalls.take 5).map Prod.snd)
    let t : GetClock := ⟨4 * second, 4 * second, 4 * second, 4 * second⟩
    let t' : GetClock := ⟨4 * second, 4 * second, 4 * second, 5 * second⟩
    c.answer (.get "a" t) = d.answer (.get "a" t') ∧ c.answer (.get "a" t) = .got (some [3]) := by
  intro c d t t'
  have hall := policies_agree .lru .random 2 (by decide) sameCalls (by decide) (by decide)
    (by decide) (sameCalls.take 5) [] (.get "a" t) (.get "a" t') (by decide)
  refine ⟨hall.1, (hall.2.2.2 "a" t rfl [3]).mpr ⟨minute, 3, by decide, by decide⟩⟩

/-- **A time to live that ends at the zero time never passes**: the entry is found one
nanosecond later. -/
theorem zero_expiry_never_passes :
    let ops : List CacheOp := [.set "k" [1] second (-second) (-second) 0]
    let t : GetClock := ⟨1, 1, 1, 1⟩
    lastSet ops "k" = some ([1], second, -second) ∧ ¬ t.check ≤ -second + second ∧
      (after 1 (newPolicy .lru) ops).answer (.get "k" t) = .got (some [1]) := by
  decide

end Cache
