import DistributedCaching.CacheHistory
import DistributedCaching.CacheInterleaving

/-!
# What a cache holds under a key

Calls of a cache one after the other, as seen at one key.  Only an accepted `Set` of
the key puts something there (`stored_perform`); while a cache has room, only a
`Set` or `Delete` of the key and a `Get` that finds it expired take something
away (`stored_perform_kept`).

A `Set` with a TTL of zero stores an entry that expires at the moment of the call.
An entry is expired only strictly after its expiry, so it is still found by whoever
reads the same time; and if that time is the zero time, it never expires.
`zero_ttl_hidden` says that these are the only two ways to see it.
-/

namespace Cache

open Go Eviction InMemoryCache TransitionRuns

/-- Expired means strictly later than an expiry that is not the zero time. -/
theorem isExpired_iff {e : CacheEntry} {now : Time} :
    e.isExpired now = true ↔ e.expiresAt ≠ 0 ∧ e.expiresAt < now := by
  simp [CacheEntry.isExpired, Time.isZero, Time.after]

/-- An entry that has not expired has no expiry, or its expiry is still to come. -/
theorem isExpired_eq_false_iff {e : CacheEntry} {now : Time} :
    e.isExpired now = false ↔ e.expiresAt = 0 ∨ now ≤ e.expiresAt := by
  rw [← Bool.not_eq_true, isExpired_iff, not_and_or, not_not, Int.not_lt]

/-- The call is an accepted `Set` of the key, or a `Delete` of it. -/
def CacheOp.Overwrites (k : String) : CacheOp → Prop
  | .get _ _ => False
  | .set key _ ttl _ _ _ => key = k ∧ validateTTL ttl = .ok ()
  | .delete key => key = k

instance CacheOp.decidableOverwrites (k : String) : ∀ op : CacheOp, Decidable (op.Overwrites k)
  | .get _ _ => .isFalse id
  | .set key _ ttl _ _ _ => inferInstanceAs (Decidable (key = k ∧ validateTTL ttl = .ok ()))
  | .delete key => inferInstanceAs (Decidable (key = k))

section Calls

variable {P : Type}

/-- The key is live: it is there and has not expired. -/
def InMemoryCache.countsLive (c : InMemoryCache P) (now : Time) (k : String) : Bool :=
  (c.entry k).any fun e => !e.isExpired now

/-- `LiveLen` is the number of live keys. -/
theorem liveLen_eq (c : InMemoryCache P) (now : Time) :
    c.liveLen now = c.entries.keys.countP (c.countsLive now) := by
  have hcounts : ∀ e ∈ c.entries.entries,
      c.countsLive now e.1 = !(c.memory e.2).isExpired now := by
    intro e he
    have hlookup : c.entries.lookup e.1 = some e.2 := AList.mem_lookup_iff.mpr he
    simp [InMemoryCache.countsLive, entry, hlookup]
  have hkeys : c.entries.keys = c.entries.entries.map Sigma.fst := rfl
  rw [liveLen, hkeys, List.countP_map, ← List.countP_eq_length_filter]
  exact List.countP_congr fun e he => by simp [hcounts e he]

/-- It is the number of the other live keys exactly if the key is not live. -/
theorem liveLen_eq_others_iff (c : InMemoryCache P) (now : Time) (key : String) :
    c.liveLen now = (c.entries.keys.countP fun k => c.countsLive now k && decide (k ≠ key)) ↔
      c.countsLive now key = false := by
  rw [liveLen_eq, List.countP_eq_countP_filter_add _ _ fun k => decide (k ≠ key),
    List.countP_filter, List.countP_filter, Nat.add_eq_left, List.countP_eq_zero]
  simp only [decide_not, Bool.not_not, Bool.and_eq_true, decide_eq_true_eq, not_and]
  constructor
  · intro h
    cases hentry : c.entries.lookup key with
    | none => simp [InMemoryCache.countsLive, entry, hentry]
    | some r =>
        have hkey : key ∈ c.entries := AList.lookup_isSome.mp (by simp [hentry])
        exact Bool.eq_false_iff.mpr fun hlive => h key (AList.mem_keys.mpr hkey) hlive rfl
  · rintro h k _ hlive rfl
    rw [h] at hlive
    cases hlive

variable [EvictionPolicy P] {c : InMemoryCache P} {k : String}

/-- Every operation keeps the entries filed under their keys. -/
theorem addressed_perform (h : Addressed c) (op : CacheOp) : Addressed (c.perform op) := by
  cases op with
  | get key clock => exact addressed_get h key clock
  | set key value ttl now policyNow draw =>
      simp only [InMemoryCache.perform, InMemoryCache.set]
      cases validateTTL ttl with
      | error e => exact h
      | ok u => exact addressed_store h _ _ _ _ _ _
  | delete key => exact addressed_delete h key

/-- A `Set` whose TTL is accepted is its section. -/
theorem perform_accepted {key : String} {value : Bytes} {ttl : Duration} {now policyNow : Time}
    {draw : Nat} (hvalid : validateTTL ttl = .ok ()) :
    c.perform (.set key value ttl now policyNow draw) =
      c.store key value (expiryOf now ttl) now policyNow draw := by
  simp [InMemoryCache.perform, InMemoryCache.set, hvalid]

/-- A `Set` whose TTL is not accepted changes nothing. -/
theorem perform_rejected {key : String} {value : Bytes} {ttl : Duration} {now policyNow : Time}
    {draw : Nat} (hvalid : validateTTL ttl ≠ .ok ()) :
    c.perform (.set key value ttl now policyNow draw) = c := by
  cases hv : validateTTL ttl with
  | error e => simp [InMemoryCache.perform, InMemoryCache.set, hv]
  | ok u => exact absurd hv hvalid

/-- A deleted key has nothing stored. -/
theorem stored_delete_self (c : InMemoryCache P) (key : String) :
    (c.delete key).stored key = none := by
  unfold InMemoryCache.delete
  split
  · rename_i hnone
    simp [stored, entry, hnone]
  · simp [stored]

/-- A deletion leaves the other keys alone. -/
theorem stored_delete_ne (c : InMemoryCache P) {key : String} (hne : k ≠ key) :
    (c.delete key).stored k = c.stored k := by
  unfold InMemoryCache.delete
  split
  · rfl
  · rw [stored, stored, entry_drop_ne c hne]

/-- **Where the contents of a key come from.**  What it holds after a call was put
there by that call, or was there before and is not overwritten by it. -/
theorem stored_perform (h : Addressed c) {op : CacheOp}
    {x : Bytes × Time} (hx : (c.perform op).stored k = some x) :
    (∃ value ttl now policyNow draw, op = .set k value ttl now policyNow draw ∧
      validateTTL ttl = .ok () ∧ x = (value, now + ttl)) ∨
    (c.stored k = some x ∧ ¬ op.Overwrites k) := by
  cases op with
  | get key clock => exact Or.inr ⟨stored_get hx, id⟩
  | set key value ttl now policyNow draw =>
      by_cases hvalid : validateTTL ttl = .ok ()
      · rw [perform_accepted hvalid] at hx
        by_cases hk : k = key
        · subst hk
          rw [stored_store_self, expiryOf_eq] at hx
          cases hx
          exact Or.inl ⟨value, ttl, now, policyNow, draw, rfl, hvalid, rfl⟩
        · exact Or.inr ⟨stored_store_ne h hk hx, fun hover => hk hover.1.symm⟩
      · rw [perform_rejected hvalid] at hx
        exact Or.inr ⟨hx, fun hover => hvalid hover.2⟩
  | delete key =>
      by_cases hk : k = key
      · subst hk
        have hnone : (c.perform (.delete k)).stored k = none := stored_delete_self c k
        cases hnone.symm.trans hx
      · have hsame : (c.perform (.delete key)).stored k = c.stored k := stored_delete_ne c hk
        exact Or.inr ⟨hsame.symm.trans hx, fun hover => hk hover.symm⟩

/-- A `Set` of a new key finds room for it. -/
def Fits (c : InMemoryCache P) : CacheOp → Prop
  | .set key _ ttl _ _ _ => validateTTL ttl = .ok () → key ∈ c.entries ∨ c.len < c.capacity
  | _ => True

end Calls

section Room

variable {P : Type} [LawfulPolicy P] {c : InMemoryCache P} {k : String}

/-- Every operation keeps the cache sound and its capacity as it is. -/
theorem sound_perform (h : Sound c) (hcap : 1 ≤ c.capacity) (op : CacheOp) :
    Sound (c.perform op) ∧ (c.perform op).capacity = c.capacity := by
  cases op with
  | get key clock => exact ⟨sound_get h key clock, capacity_get⟩
  | set key value ttl now policyNow draw =>
      simp only [InMemoryCache.perform, InMemoryCache.set]
      cases validateTTL ttl with
      | error e => exact ⟨h, rfl⟩
      | ok u => exact ⟨sound_store h hcap _ _ _ _ _ _, capacity_store _ _ _ _ _ _⟩
  | delete key => exact ⟨sound_delete h key, capacity_delete key⟩

/-- **How the contents of a key are lost** while there is room: by an overwriting call, or
by a `Get` that finds them expired. -/
theorem stored_perform_kept (h : Sound c) (hcap : 1 ≤ c.capacity) {op : CacheOp}
    (hfits : Fits c op) (hover : ¬ op.Overwrites k) {x : Bytes × Time}
    (hx : c.stored k = some x) :
    (c.perform op).stored k = some x ∨
      ((c.perform op).stored k = none ∧
        ∃ clock, op = .get k clock ∧ x.2 ≠ 0 ∧ x.2 < clock.recheck) := by
  cases op with
  | get key clock =>
      show (c.get key clock).2.stored k = some x ∨ _
      obtain ⟨e, he, rfl⟩ := Option.map_eq_some_iff.mp hx
      cases hget : (c.get key clock).1 with
      | some v =>
          obtain ⟨e', he', _, hfresh⟩ := get_hit hget
          obtain ⟨r, hr, rfl⟩ := Option.map_eq_some_iff.mp he'
          have hcache : (c.get key clock).2 = c.touch key r clock.access clock.policy := by
            simp [InMemoryCache.get, hr, hfresh]
          rw [hcache, stored_touch]
          exact Or.inl hx
      | none =>
          rcases get_miss hget with hsame | ⟨e', he', hexpired, hdrop⟩
          · rw [hsame]
            exact Or.inl hx
          · rw [hdrop]
            by_cases hk : k = key
            · subst hk
              cases he.symm.trans he'
              refine Or.inr ⟨?_, clock, rfl, isExpired_iff.mp hexpired⟩
              show (c.get k clock).2.stored k = none
              rw [hdrop]
              simp [stored]
            · rw [stored, entry_drop_ne c hk]
              exact Or.inl hx
  | set key value ttl now policyNow draw =>
      left
      by_cases hvalid : validateTTL ttl = .ok ()
      · have hk : k ≠ key := fun heq => hover ⟨heq.symm, hvalid⟩
        rw [perform_accepted hvalid]
        rcases store_cases h hcap key value (expiryOf now ttl) now policyNow draw with
          ⟨r, hr, hstore⟩ | ⟨_, _, hstore⟩ | ⟨hnew, hfull, _⟩
        · rw [hstore, stored, entry_upsert_ne h.addressed hr _ _ _ _ hk]
          exact hx
        · rw [hstore, stored, entry_add_ne h.addressed _ _ _ _ hk]
          exact hx
        · rcases hfits hvalid with hthere | hroom
          · exact absurd hthere hnew
          · omega
      · rw [perform_rejected hvalid]
        exact hx
  | delete key =>
      left
      have hk : k ≠ key := fun heq => hover heq.symm
      exact (stored_delete_ne c hk).trans hx

end Room

/-! ## A TTL of zero -/

/-- A look at a cache: a call, or `LiveLen` at some time. -/
inductive Probe
  | call (op : CacheOp)
  | liveLen (now : Time)
  deriving DecidableEq, Repr

/-- The probe is a `Set` of the key. -/
def Probe.Sets (key : String) : Probe → Prop
  | .call (.set k _ _ _ _ _) => k = key
  | _ => False

instance Probe.decidableSets (key : String) : ∀ probe : Probe, Decidable (probe.Sets key)
  | .call (.set k _ _ _ _ _) => inferInstanceAs (Decidable (k = key))
  | .call (.get _ _) => .isFalse id
  | .call (.delete _) => .isFalse id
  | .liveLen _ => .isFalse id

section Probes

variable {P : Type} [EvictionPolicy P]

def probeStep (c : InMemoryCache P) : Probe → Option (InMemoryCache P)
  | .call op => some (c.perform op)
  | .liveLen _ => some c

/-- A `Get` of the key does not find it, and `LiveLen` is the number of the other keys that
are live. -/
def Unseen (key : String) (c : InMemoryCache P) : Probe → Prop
  | .call (.get k clock) => k = key → (c.get k clock).1 = none
  | .liveLen now =>
      c.liveLen now = c.entries.keys.countP fun k => c.countsLive now k && decide (k ≠ key)
  | _ => True

/-- A look at the key while it is there comes strictly after the time given, and that is
not the zero time. -/
def LooksAfter (key : String) (setAt : Time) (c : InMemoryCache P) : Probe → Prop
  | .call (.get k clock) => k = key → key ∈ c.entries → setAt ≠ 0 ∧ setAt < clock.check
  | .liveLen now => key ∈ c.entries → setAt ≠ 0 ∧ setAt < now
  | _ => True

instance Unseen.decidable (key : String) (c : InMemoryCache P) :
    ∀ probe, Decidable (Unseen key c probe)
  | .call (.get k clock) => inferInstanceAs (Decidable (k = key → (c.get k clock).1 = none))
  | .call (.set _ _ _ _ _ _) => .isTrue trivial
  | .call (.delete _) => .isTrue trivial
  | .liveLen now => inferInstanceAs (Decidable (c.liveLen now =
      c.entries.keys.countP fun k => c.countsLive now k && decide (k ≠ key)))

instance LooksAfter.decidable (key : String) (setAt : Time) (c : InMemoryCache P) :
    ∀ probe, Decidable (LooksAfter key setAt c probe)
  | .call (.get k clock) =>
      inferInstanceAs (Decidable (k = key → key ∈ c.entries → setAt ≠ 0 ∧ setAt < clock.check))
  | .call (.set _ _ _ _ _ _) => .isTrue trivial
  | .call (.delete _) => .isTrue trivial
  | .liveLen now => inferInstanceAs (Decidable (key ∈ c.entries → setAt ≠ 0 ∧ setAt < now))

end Probes

section Zero

variable {P : Type} [EvictionPolicy P] {c : InMemoryCache P} {key : String} {setAt : Time}

/-- If the key is there, it expires at the time given. -/
structure ExpiresAt (key : String) (setAt : Time) (c : InMemoryCache P) : Prop where
  addressed : Addressed c
  expiry : ∀ e, c.entry key = some e → e.expiresAt = setAt

/-- A probe that does not set the key leaves the entry, or removes it. -/
theorem expiresAt_step {probe : Probe} {c' : InMemoryCache P} (h : ExpiresAt key setAt c)
    (hset : ¬ probe.Sets key) (hstep : probeStep c probe = some c') :
    ExpiresAt key setAt c' := by
  cases probe with
  | liveLen now =>
      cases hstep
      exact h
  | call op =>
      cases hstep
      refine ⟨addressed_perform h.addressed op, ?_⟩
      intro e he
      have hx : (c.perform op).stored key = some (e.value, e.expiresAt) := by simp [stored, he]
      rcases stored_perform h.addressed hx with ⟨_, _, _, _, _, rfl, _⟩ | ⟨hold, _⟩
      · exact absurd rfl hset
      · obtain ⟨e', he', heq⟩ := Option.map_eq_some_iff.mp hold
        exact (Prod.mk.inj heq).2.symm.trans (h.expiry e' he')

/-- **Who sees the key.**  From such a state, a probe does not see it exactly if it
comes late enough. -/
theorem unseen_iff (h : ExpiresAt key setAt c) (probe : Probe) :
    Unseen key c probe ↔ LooksAfter key setAt c probe := by
  have hthere : key ∈ c.entries ↔ ∃ e, c.entry key = some e := by
    rw [GoMap.mem_iff_lookup]
    simp [entry]
  cases probe with
  | liveLen now =>
      rw [Unseen, liveLen_eq_others_iff]
      simp only [LooksAfter, InMemoryCache.countsLive, hthere]
      constructor
      · intro hunseen hsome
        obtain ⟨e, he⟩ := hsome
        rw [he] at hunseen
        rw [← h.expiry e he, ← isExpired_iff]
        simpa using hunseen
      · intro hlate
        cases he : c.entry key with
        | none => rfl
        | some e =>
            have hexpired := hlate ⟨e, he⟩
            rw [← h.expiry e he, ← isExpired_iff] at hexpired
            simp [hexpired]
  | call op =>
      cases op with
      | set k value ttl now policyNow draw => exact iff_of_true trivial trivial
      | delete k => exact iff_of_true trivial trivial
      | get k clock =>
          simp only [Unseen, LooksAfter, hthere]
          refine forall_congr' fun hk => ?_
          subst hk
          constructor
          · intro hmiss hsome
            obtain ⟨e, he⟩ := hsome
            rw [← h.expiry e he, ← isExpired_iff]
            by_contra hfresh
            rw [get_unexpired he (by simpa using hfresh)] at hmiss
            cases hmiss
          · intro hlate
            cases hget : (c.get k clock).1 with
            | none => rfl
            | some v =>
                obtain ⟨e, he, _, hfresh⟩ := get_hit hget
                have hexpired := hlate ⟨e, he⟩
                rw [← h.expiry e he, ← isExpired_iff, hfresh] at hexpired
                cases hexpired

end Zero

/-- **A TTL of zero.**  Store a key with a TTL of zero in any cache reached by
interleaved calls.  Until the key is stored again, no `Get` finds it and `LiveLen`
does not count it, exactly if every look at it while it is there comes strictly
after the time at which it was stored, and that was not the zero time. -/
theorem zero_ttl_hidden (kind : PolicyKind) (capacity : Nat)
    (evs : List CacheEvent) (s : System Policy)
    (hrun : run cacheStep (System.init capacity (newPolicy kind)) evs = some s)
    (key : String) (value : Bytes) (now policyNow : Time) (draw : Nat)
    (c : InMemoryCache Policy) (hset : s.cache.set key value 0 now policyNow draw = .ok c)
    (probes : List Probe) (hnot : ∀ probe ∈ probes, ¬ probe.Sets key) :
    Along probeStep (Unseen key) c probes ↔ Along probeStep (LooksAfter key now) c probes := by
  have hstore : c = s.cache.store key value now now policyNow draw := by
    cases hset
    rfl
  have hstart : ExpiresAt key now c := by
    subst hstore
    refine ⟨addressed_store (reachable_addressed hrun) _ _ _ _ _ _, ?_⟩
    intro e he
    have hx := stored_store_self s.cache key value now now policyNow draw
    rw [stored, he] at hx
    exact (Prod.mk.inj (Option.some.inj hx)).2
  clear hset hstore
  induction probes generalizing c with
  | nil => exact Iff.rfl
  | cons probe probes ih =>
      refine and_congr (unseen_iff hstart probe) (forall_congr' fun c' => ?_)
      refine forall_congr' fun hstep => ?_
      exact ih c' (fun p hp => hnot p (List.mem_cons_of_mem _ hp))
        (expiresAt_step hstart (hnot probe List.mem_cons_self) hstep)

/-- One nanosecond later the entry is gone from sight. -/
theorem zero_ttl_hidden_later :
    ∃ s c, run cacheStep (System.init 1 (newPolicy .lru)) secondSet = some s ∧
      s.cache.set "k" [1] 0 5 5 0 = .ok c ∧
      Along probeStep (Unseen "k") c
        [.liveLen 6, .call (.get "a" ⟨6, 6, 6, 6⟩), .call (.get "k" ⟨6, 6, 6, 6⟩), .liveLen 7] := by
  have hrun : run cacheStep (System.init 1 (newPolicy .lru)) secondSet =
      some ((run cacheStep (System.init 1 (newPolicy .lru)) secondSet).get (by decide)) :=
    (Option.some_get _).symm
  refine ⟨_, _, hrun, rfl, ?_⟩
  exact (zero_ttl_hidden .lru 1 secondSet _ hrun "k" [1] 5 5 0 _ rfl _
    (by decide)).mpr (by decide)

/-- **In the same instant it is in sight**: a `Get` that reads the time at which the
entry was stored finds it, and `LiveLen` counts it. -/
theorem zero_ttl_seen :
    let c := (InMemoryCache.new 1 (newPolicy .lru)).store "k" [1] 5 5 5 0
    (InMemoryCache.new 1 (newPolicy .lru)).set "k" [1] 0 5 5 0 = .ok c ∧
      (c.get "k" ⟨5, 5, 5, 5⟩).1 = some [1] ∧ c.liveLen 5 = 1 ∧
      ¬ Along probeStep (Unseen "k") c [.call (.get "k" ⟨5, 5, 5, 5⟩)] ∧
      ¬ Along probeStep (Unseen "k") c [.liveLen 5] := by
  refine ⟨rfl, by decide, by decide, by decide, by decide⟩

end Cache
