import DistributedCaching.CacheTimeline

/-!
# The cache is linearizable

Every interleaving of `Get`, `Set` and `Delete` calls on a cache gives the answers
of a sequential map with room for `capacity` keys, in which a `Get` at time `t`
sees an entry up to its expiry, and always if the expiry is the zero time.  The
proviso is that the section of every `Set` runs no later than at the expiry that
it computed.

A `Set` and a `Delete` take effect at their sections, on the map behind the cache.
A `Get` has no effect, and is placed at an instant that it has seen.
-/

namespace Cache

open Go Eviction InMemoryCache TransitionRuns Linearization

section Runs

variable {P : Type} [LawfulPolicy P] {s₀ t : System P} {evs : List CacheEvent}
  {A : Nat → ExpiryMap} {capacity : Nat}

/-- What is known of the calls holds before every event. -/
theorem Timeline.points (T : Timeline s₀ evs capacity A) (hforward : ClockForward evs)
    (halong : Along cacheStep StoresByExpiry s₀ evs) (hinit : ∀ i, s₀.calls i = none) {k : Nat}
    (hk : k ≤ evs.length) {i : Nat} {call : Call}
    (hcall : (stateAt cacheStep s₀ evs k).calls i = some call) :
    ∃ a req, a < k ∧ evs[a]? = some (.call i req) ∧
      PointOk evs A a k (stateAt cacheStep s₀ evs k).cache req call := by
  obtain ⟨t, hrun⟩ := T.runs
  induction k generalizing i call with
  | zero =>
      rw [stateAt_zero, hinit] at hcall
      cases hcall
  | succ k ih =>
      have hev := List.getElem?_eq_getElem (show k < evs.length by omega)
      have hstep := step_stateAt hrun hev
      have hexpiry := halong.at hrun hev
      have hbefore := T.shadows k (by omega)
      have hafter := T.shadows (k + 1) hk
      have haddressed := (T.sound k (by omega)).1.addressed
      cases hek : evs[k] with
      | call i₀ req =>
          rw [hek] at hev hstep
          obtain ⟨_, hs'⟩ := cacheStep_call hstep
          rw [hs'] at hcall ⊢
          dsimp only at hcall ⊢
          by_cases hi : i = i₀
          · subst hi
            rw [Function.update_self] at hcall
            cases hcall
            exact ⟨k, req, Nat.lt_succ_self k, hev, pointOk_start req⟩
          · rw [Function.update_of_ne hi] at hcall
            obtain ⟨a, req', hak, ha, hpoint⟩ := ih (by omega) hcall
            exact ⟨a, req', Nat.lt_succ_of_lt hak, ha, hpoint.mono (Nat.le_succ k)⟩
      | step i₀ inp =>
          rw [hek] at hev hstep hexpiry
          obtain ⟨stepped, cache, stepped', hstepped, hadvance, hs'⟩ := cacheStep_step hstep
          rw [hs'] at hcall hafter ⊢
          dsimp only at hcall hafter ⊢
          by_cases hi : i = i₀
          · subst hi
            rw [Function.update_self] at hcall
            cases hcall
            obtain ⟨a, req, hak, ha, hpoint⟩ := ih (by omega) hstepped
            exact ⟨a, req, Nat.lt_succ_of_lt hak, ha,
              hpoint.self hak hforward hev haddressed hbefore hadvance⟩
          · rw [Function.update_of_ne hi] at hcall
            obtain ⟨a, req, hak, ha, hpoint⟩ := ih (by omega) hcall
            refine ⟨a, req, Nat.lt_succ_of_lt hak, ha, ?_⟩
            refine hpoint.other hak hforward hev haddressed hbefore hafter hadvance ?_
            intro expiresAt he
            exact hexpiry expiresAt (by rw [hstepped]; exact he)

/-! ## Calls are made once and return once -/

/-- A call that has started stays. -/
theorem calls_kept {s s' : System P} {ev : CacheEvent} {i : Nat}
    (h : cacheStep s ev = some s') (hcall : s.calls i ≠ none) : s'.calls i ≠ none := by
  cases ev with
  | call i₀ req =>
      obtain ⟨_, rfl⟩ := cacheStep_call h
      by_cases hi : i = i₀
      · simp [hi]
      · simpa [Function.update_of_ne hi] using hcall
  | step i₀ inp =>
      obtain ⟨_, _, _, _, _, rfl⟩ := cacheStep_step h
      by_cases hi : i = i₀
      · simp [hi]
      · simpa [Function.update_of_ne hi] using hcall

/-- A call that has returned stays as it is. -/
theorem returned_kept {s s' : System P} {ev : CacheEvent} {i : Nat} {result : Result}
    (h : cacheStep s ev = some s') (hcall : s.calls i = some (.returned result)) :
    s'.calls i = some (.returned result) := by
  cases ev with
  | call i₀ req =>
      obtain ⟨hnone, rfl⟩ := cacheStep_call h
      have hi : i ≠ i₀ := by
        intro heq
        rw [heq, hnone] at hcall
        cases hcall
      simpa [Function.update_of_ne hi] using hcall
  | step i₀ inp =>
      obtain ⟨stepped, _, _, hstepped, hadvance, rfl⟩ := cacheStep_step h
      have hi : i ≠ i₀ := by
        intro heq
        rw [heq, hstepped] at hcall
        cases hcall
        cases hadvance
      simpa [Function.update_of_ne hi] using hcall

/-- A number is used for one call only. -/
theorem called_once (hrun : run cacheStep s₀ evs = some t) {a b i : Nat} {req req' : Request}
    (ha : evs[a]? = some (.call i req)) (hb : evs[b]? = some (.call i req')) : a = b := by
  have hnot : ∀ {a b : Nat} {req req' : Request}, evs[a]? = some (.call i req) →
      evs[b]? = some (.call i req') → ¬ a < b := by
    intro a b req req' ha hb hlt
    obtain ⟨_, hs'⟩ := cacheStep_call (step_stateAt hrun ha)
    have hmade : (stateAt cacheStep s₀ evs (a + 1)).calls i ≠ none := by
      rw [hs']
      simp
    have hlater := stateAt_invariant (I := fun s => s.calls i ≠ none)
      (fun _ _ _ h hstep => calls_kept hstep h) hrun (show a + 1 ≤ b from hlt)
      (Nat.le_of_lt (List.getElem?_eq_some_iff.mp hb).1) hmade
    exact hlater (cacheStep_call (step_stateAt hrun hb)).1
  have hab := hnot ha hb
  have hba := hnot hb ha
  omega

/-- The last step of a call, in the states of the run. -/
theorem Ran.last (hrun : run cacheStep s₀ evs = some t) {i : Nat}
    {o : Operation MapOp Result} (h : Ran s₀ evs i o) :
    ∃ req inp call cache, evs[o.start]? = some (.call i req) ∧
      evs[o.finish]? = some (.step i inp) ∧
      (stateAt cacheStep s₀ evs o.finish).calls i = some call ∧
      advance (stateAt cacheStep s₀ evs o.finish).cache inp call =
        some (cache, .returned o.result) ∧ o.op = opOf req call := by
  obtain ⟨req, s, inp, call, cache, hstart, hs, hfinish, hrest⟩ := h
  rw [run_take hrun] at hs
  cases hs
  exact ⟨req, inp, call, cache, hstart, hfinish, hrest⟩

/-- A call runs one operation only. -/
theorem ran_once (hrun : run cacheStep s₀ evs = some t) {i : Nat}
    {o o' : Operation MapOp Result} (h : Ran s₀ evs i o) (h' : Ran s₀ evs i o') : o = o' := by
  have hnot : ∀ {o o' : Operation MapOp Result}, Ran s₀ evs i o → Ran s₀ evs i o' →
      ¬ o.finish < o'.finish := by
    intro o o' h h' hlt
    obtain ⟨_, inp, call, cache, _, hfinish, hcall, hadvance, _⟩ := h.last hrun
    obtain ⟨_, _, call', _, _, hfinish', hcall', hadvance', _⟩ := h'.last hrun
    have hreturned : (stateAt cacheStep s₀ evs (o.finish + 1)).calls i =
        some (.returned o.result) := by
      have hstep := step_stateAt hrun hfinish
      simp only [cacheStep, hcall, Option.bind_some, hadvance, Option.map_some,
        Option.some.injEq] at hstep
      rw [← hstep]
      simp
    have hlater := stateAt_invariant (I := fun s => s.calls i = some (.returned o.result))
      (fun _ _ _ h hstep => returned_kept hstep h) hrun (show o.finish + 1 ≤ o'.finish from hlt)
      (Nat.le_of_lt (List.getElem?_eq_some_iff.mp hfinish').1) hreturned
    rw [hlater] at hcall'
    cases hcall'
    cases hadvance'
  have hfinish : o.finish = o'.finish := by
    have hle := hnot h h'
    have hge := hnot h' h
    omega
  obtain ⟨req, inp, call, cache, hstart, hev, hcall, hadvance, hop⟩ := h.last hrun
  obtain ⟨req', inp', call', cache', hstart', hev', hcall', hadvance', hop'⟩ := h'.last hrun
  rw [← hfinish] at hev' hcall' hadvance'
  have hsame := called_once hrun hstart hstart'
  rw [hev] at hev'
  cases hev'
  rw [hcall] at hcall'
  cases hcall'
  rw [hadvance] at hadvance'
  rw [← hsame, hstart] at hstart'
  obtain ⟨op, result, start, finish⟩ := o
  obtain ⟨op', result', start', finish'⟩ := o'
  cases hstart'
  cases hadvance'
  cases hfinish
  cases hsame
  cases hop.trans hop'.symm
  rfl

/-! ## The order of the calls -/

/-- A call that takes effect does so at its section, which is its last step. -/
theorem Timeline.takes_effect (T : Timeline s₀ evs capacity A) {a k i : Nat} {inp : Inputs}
    {req : Request} {call call' : Call} {cache : InMemoryCache P} (hak : a < k)
    (hforward : ClockForward evs) (ha : evs[a]? = some (.call i req))
    (hev : evs[k]? = some (.step i inp))
    (hcall : (stateAt cacheStep s₀ evs k).calls i = some call)
    (hadvance : advance (stateAt cacheStep s₀ evs k).cache inp call = some (cache, call'))
    (hpoint : PointOk evs A a k (stateAt cacheStep s₀ evs k).cache req call)
    (hwrites : call.isWriter = true) :
    ∃ i o t, Ran s₀ evs i o ∧ o.finish = k ∧ o.start < k ∧ ClockAt evs k t ∧
      BoundedMapStep ShowsUntil capacity (A k) t o.op o.result (A (k + 1)) := by
  obtain ⟨t, hrun⟩ := T.runs
  have heffect := T.effect k i inp call hev hcall
  obtain ⟨hclock, _⟩ := hforward.clockAt hev
  cases call with
  | setStore key value expiresAt now =>
      cases req with
      | set key' value' ttl =>
          obtain ⟨rfl, rfl⟩ := hpoint
          cases hadvance
          exact ⟨i, ⟨.set key value expiresAt, .stored, a, k⟩, inp.now,
            ⟨_, _, inp, _, _, ha, run_take hrun k, hev, hcall, rfl, rfl⟩, rfl, hak, hclock,
            heffect⟩
      | get key' => cases hpoint
      | delete key' => cases hpoint
  | deleteLocked key =>
      cases req with
      | delete key' =>
          cases hpoint
          cases hadvance
          exact ⟨i, ⟨.delete key, .deleted, a, k⟩, inp.now,
            ⟨_, _, inp, _, _, ha, run_take hrun k, hev, hcall, rfl, rfl⟩, rfl, hak, hclock,
            heffect⟩
      | get key' => cases hpoint
      | set key' value' ttl => cases hpoint
  | _ => cases hwrites

/-- **Every event of a run is as it should be** for a map that follows the timeline. -/
theorem Timeline.eventOk (T : Timeline s₀ evs capacity A) (hforward : ClockForward evs)
    (halong : Along cacheStep StoresByExpiry s₀ evs) (hinit : ∀ i, s₀.calls i = none) {k : Nat}
    (hk : k < evs.length) :
    EventOk (BoundedMapStep ShowsUntil capacity) (Ran s₀ evs) (ClockAt evs) A k := by
  obtain ⟨t, hrun⟩ := T.runs
  have hev := List.getElem?_eq_getElem hk
  have hstep := step_stateAt hrun hev
  cases hek : evs[k] with
  | call i req =>
      rw [hek] at hev
      refine Or.inr ⟨T.idle k i req hev, fun i' o h hfinish => ?_⟩
      obtain ⟨_, _, _, _, _, hlast, _⟩ := h.last hrun
      rw [hfinish, hev] at hlast
      cases hlast
  | step i inp =>
      rw [hek] at hev hstep
      obtain ⟨call, cache, call', hcall, hadvance, _⟩ := cacheStep_step hstep
      obtain ⟨a, req, hak, ha, hpoint⟩ :=
        T.points hforward halong hinit (Nat.le_of_lt hk) hcall
      cases hwrites : call.isWriter with
      | true =>
          exact Or.inl (T.takes_effect hak hforward ha hev hcall hadvance hpoint hwrites)
      | false =>
          have hidle : A (k + 1) = A k := by
            have heffect := T.effect k i inp call hev hcall
            cases call <;> first | exact heffect | cases hwrites
          refine Or.inr ⟨hidle, fun i' o h hfinish => ?_⟩
          obtain ⟨req', inp', call₁, cache', hstart, hlast, hcall', hadvance', hop⟩ :=
            h.last hrun
          rw [hfinish] at hlast hcall' hadvance'
          rw [hev] at hlast
          cases hlast
          rw [hcall] at hcall'
          cases hcall'
          have hsame := called_once hrun ha hstart
          rw [← hsame, ha] at hstart
          cases hstart
          obtain ⟨j, t, haj, hjk, hclock, hlook⟩ := hpoint.looks hak hforward hev
            (T.shadows k (Nat.le_of_lt hk)) hadvance' hwrites
          have hwithin := (T.shadows j (by omega)).within
          rw [(T.sound j (by omega)).2] at hwithin
          rw [← hsame, hop]
          exact ⟨j, t, haj, hjk, hclock, hlook, hwithin⟩

end Runs

/-- **The cache is linearizable.**  Interleave any calls on a clock that does not run
backwards, and let the section of every `Set` run no later than at the expiry that it
computed.  Then the calls that have returned can be ordered, each at an instant
within its duration, such that their results are those of a map for `capacity` keys:
a `Set` stores its value and its expiry, and at capacity drops another key for a new
one; a `Delete` removes its key; and a `Get` at time `t` returns the value of its key
if there is one whose expiry is the zero time or not before `t`. -/
theorem cache_linearizable (kind : PolicyKind) (capacity : Nat) (hcap : 1 ≤ capacity)
    (evs : List CacheEvent) (s : System Policy)
    (hrun : run cacheStep (System.init capacity (newPolicy kind)) evs = some s)
    (hforward : ClockForward evs)
    (halong : Along cacheStep StoresByExpiry (System.init capacity (newPolicy kind)) evs) :
    ∃ order, Linearizes (BoundedMapStep ShowsUntil capacity)
      (Ran (System.init capacity (newPolicy kind)) evs) (ClockAt evs) ∅ order := by
  obtain ⟨A, hzero, T⟩ := exists_timeline (tracks_newPolicy kind) hcap hrun
  rw [← hzero]
  refine linearizable_of_timeline (n := evs.length) ?_ ?_ ?_ ?_
  · intro i o h
    obtain ⟨_, _, _, _, _, hlast, _⟩ := h.last hrun
    exact (List.getElem?_eq_some_iff.mp hlast).1
  · intro i j o o' h h' hfinish
    obtain ⟨_, _, _, _, _, hlast, _⟩ := h.last hrun
    obtain ⟨_, _, _, _, _, hlast', _⟩ := h'.last hrun
    rw [hfinish, hlast'] at hlast
    cases hlast
    exact ⟨rfl, ran_once hrun h h'⟩
  · exact fun i o o' h h' => ran_once hrun h h'
  · exact fun k hk => T.eventOk hforward halong (fun _ => rfl) hk

/-- The late hit on a key that was dropped meanwhile is explained as well. -/
theorem cache_linearizable_lateHit :
    ∃ s, run cacheStep (System.init 1 (newPolicy .lru)) lateHit = some s ∧
      s.calls 1 = some (.returned (.got (some [1]))) ∧
      ∃ order, Linearizes (BoundedMapStep ShowsUntil 1)
        (Ran (System.init 1 (newPolicy .lru)) lateHit) (ClockAt lateHit) ∅ order := by
  obtain ⟨s, hrun, hgot⟩ : ∃ s,
      run cacheStep (System.init 1 (newPolicy .lru)) lateHit = some s ∧
        s.calls 1 = some (.returned (.got (some [1]))) :=
    exists_run (by decide) (by decide)
  exact ⟨s, hrun, hgot, cache_linearizable .lru 1 (Nat.le_refl 1) lateHit s hrun
    (by decide) (by decide)⟩

/-! ## An expiry that is the zero time -/

/-- A value is stored one second before the zero time, for one second.  After the zero
time another key is deleted and then the value is read. -/
def zeroExpiry : List CacheEvent :=
  [.call 0 (.set "a" [1] second), .step 0 ⟨-second, -second, 0⟩, .step 0 ⟨-second, -second, 0⟩,
   .call 1 (.delete "b"), .step 1 ⟨1, 1, 0⟩,
   .call 2 (.get "a"), .step 2 ⟨1, 1, 0⟩, .step 2 ⟨1, 1, 0⟩, .step 2 ⟨1, 1, 0⟩,
   .step 2 ⟨1, 1, 0⟩]

/-- A call that is about to store its value has the zero time as its expiry. -/
def StoresAtZero {P : Type} (s : System P) : Option CacheEvent → Prop
  | some (.step i _) => ∀ expiresAt ∈ (s.calls i).bind Call.expiry, expiresAt = 0
  | _ => True

instance {P : Type} (s : System P) : ∀ ev, Decidable (StoresAtZero s ev)
  | some (.step i _) => inferInstanceAs
      (Decidable (∀ expiresAt ∈ (s.calls i).bind Call.expiry, expiresAt = 0))
  | some (.call _ _) => .isTrue trivial
  | none => .isTrue trivial

/-- All entries of the map expire at the zero time. -/
def AtZero (m : ExpiryMap) : Prop :=
  ∀ key value expiresAt, m.lookup key = some (value, expiresAt) → expiresAt = 0

theorem AtZero.insert {m : ExpiryMap} (h : AtZero m) (key : String) (value : Bytes) :
    AtZero (m.insert key (value, 0)) := by
  intro k v e hk
  by_cases hkey : k = key
  · subst hkey
    rw [AList.lookup_insert] at hk
    cases hk
    rfl
  · rw [AList.lookup_insert_ne hkey] at hk
    exact h k v e hk

theorem AtZero.erase {m : ExpiryMap} (h : AtZero m) (key : String) : AtZero (m.erase key) := by
  intro k v e hk
  by_cases hkey : k = key
  · subst hkey
    rw [AList.lookup_erase] at hk
    cases hk
  · rw [AList.lookup_erase_ne hkey] at hk
    exact h k v e hk

/-- Operations that set no expiry keep the map without expiries. -/
theorem AtZero.mapStep {shows : Time → Time → Prop} {capacity : Nat} {m m' : ExpiryMap}
    {t : Time} {op : MapOp} {result : Result} (h : AtZero m)
    (hstep : MapStep shows capacity m t op result m')
    (hop : ∀ {key value expiresAt}, op = .set key value expiresAt → expiresAt = 0) :
    AtZero m' := by
  cases hstep with
  | hit _ _ => exact h
  | miss _ => exact h
  | set =>
      cases hop rfl
      exact h.insert _ _
  | replace _ _ _ =>
      cases hop rfl
      exact (h.erase _).insert _ _
  | delete => exact h.erase _
  | refuse => exact h

/-- Whatever is stored in this run has the zero time as its expiry. -/
theorem zeroExpiry_expiry {i : Nat} {o : Operation MapOp Result}
    (h : Ran (System.init 1 (newPolicy .lru)) zeroExpiry i o) {key : String} {value : Bytes}
    {expiresAt : Time} (hop : o.op = .set key value expiresAt) : expiresAt = 0 := by
  obtain ⟨req, s, inp, call, cache, _, hs, hfinish, hcall, _, hop'⟩ := h
  have hexpiry : ∀ k, k < 10 → ∀ s ∈ run cacheStep (System.init 1 (newPolicy .lru))
      (zeroExpiry.take k), StoresAtZero s zeroExpiry[k]? := by
    decide
  have hlast := hexpiry o.finish (List.getElem?_eq_some_iff.mp hfinish).1 s hs
  rw [hfinish] at hlast
  rw [hop'] at hop
  cases req with
  | set key' value' ttl =>
      cases call with
      | setStore _ _ e _ =>
          cases hop
          exact hlast expiresAt (by rw [hcall]; rfl)
      | _ => cases hop
  | get key' => cases hop
  | delete key' => cases hop

/-- **The zero time never passes.**  In a map that shows an entry only up to its expiry, no
order of the calls explains the hit. -/
theorem zero_expiry_not_linearizable :
    ∃ s, run cacheStep (System.init 1 (newPolicy .lru)) zeroExpiry = some s ∧
      ClockForward zeroExpiry ∧
      Along cacheStep StoresByExpiry (System.init 1 (newPolicy .lru)) zeroExpiry ∧
      ¬ ∃ order, Linearizes (MapStep (fun expiresAt t => t ≤ expiresAt) 1)
        (Ran (System.init 1 (newPolicy .lru)) zeroExpiry) (ClockAt zeroExpiry) ∅ order := by
  obtain ⟨s, hrun⟩ : ∃ s, run cacheStep (System.init 1 (newPolicy .lru)) zeroExpiry = some s :=
    Option.isSome_iff_exists.mp (by decide)
  refine ⟨s, hrun, by decide, by decide, ?_⟩
  intro hlinearizable
  obtain ⟨order, h⟩ := hlinearizable
  have hget : Ran (System.init 1 (newPolicy .lru)) zeroExpiry 2
      ⟨.get "a", .got (some [1]), 5, 9⟩ := by
    have htake : run cacheStep (System.init 1 (newPolicy .lru)) (zeroExpiry.take 9) =
        some ((run cacheStep (System.init 1 (newPolicy .lru)) (zeroExpiry.take 9)).get
          (by decide)) := (Option.some_get _).symm
    exact ⟨.get "a", _, ⟨1, 1, 0⟩, .getRead 0, _, rfl, htake, rfl, by decide, rfl, rfl⟩
  obtain ⟨x, hx, _, hop⟩ := h.complete 2 _ hget
  obtain ⟨m, hlegal⟩ := h.legal
  -- Every entry of the map expires at the zero time.
  obtain ⟨m₁, m₂, hzero, hstep⟩ := hlegal.state
    (I := AtZero) (fun y hy m₁ m₂ hm₁ hy' => hm₁.mapStep hy' (zeroExpiry_expiry (h.returned y hy)))
    nofun hx
  have hclock : 1 ≤ x.clock := by
    have hwithin := (h.within x hx).1
    rw [hop] at hwithin
    exact (h.clocked x hx 4 1 ⟨1, 1, 0⟩ rfl).1 (Nat.lt_trans (by decide) hwithin)
  rw [hop] at hstep
  cases hstep with
  | hit hkey hshows =>
      rw [hzero _ _ _ hkey] at hshows
      exact absurd (Int.le_trans hclock hshows) (by decide)

end Cache
