import DistributedCaching.ExpiryMap
import DistributedCaching.Linearization

/-!
# The timeline of a run of the cache

A run of interleaved calls on the cache, seen next to the maps behind it: one map
before each event (`exists_timeline`), and a clock that agrees with the readings of
the steps.

When a `Get` returns, one can tell at which instant the map would have given its
answer:

* when it looked up a key that was absent;
* when it checked the cell that it had found, if the cell was still filed;
* just before the cell was detached, or just after, if that happened before the
  check, for a hit or for a miss;
* just after the last `Set` that wrote the cell, if that came after the check.

`PointOk` keeps track of these instants, step by step (`PointOk.self`,
`PointOk.other`), up to the one at which the call returns (`PointOk.looks`).
-/

namespace Cache

open Go Eviction InMemoryCache TransitionRuns Linearization

/-! ## The history of a run -/

/-- The operation of a call, as it is known when the call is about to return. -/
def opOf : Request → Call → MapOp
  | .get key, _ => .get key
  | .delete key, _ => .delete key
  | .set key value _, .setStore _ _ expiresAt _ => .set key value expiresAt
  | .set _ _ _, _ => .refused

section History

variable {P : Type} [EvictionPolicy P]

/-- The call `i` ran as `o`: it was made with the event `o.start`, and the step number
`o.finish` returned its result. -/
def Ran (s₀ : System P) (evs : List CacheEvent) (i : Nat) (o : Operation MapOp Result) : Prop :=
  ∃ req s inp call cache, evs[o.start]? = some (.call i req) ∧
    run cacheStep s₀ (evs.take o.finish) = some s ∧ evs[o.finish]? = some (.step i inp) ∧
    s.calls i = some call ∧ advance s.cache inp call = some (cache, .returned o.result) ∧
    o.op = opOf req call

/-- A clock that shows `t` just before the event number `k` agrees with the readings of
the steps. -/
def ClockAt (evs : List CacheEvent) (k : Nat) (t : Time) : Prop :=
  ∀ j i inp, evs[j]? = some (.step i inp) → (j < k → inp.now ≤ t) ∧ (k ≤ j → t ≤ inp.now)

def CacheEvent.reading : CacheEvent → Option Time
  | .call _ _ => none
  | .step _ inp => some inp.now

/-- The clock does not run backwards. -/
def ClockForward (evs : List CacheEvent) : Prop :=
  (evs.filterMap CacheEvent.reading).Pairwise (· ≤ ·)

instance (evs : List CacheEvent) : Decidable (ClockForward evs) :=
  inferInstanceAs (Decidable ((evs.filterMap CacheEvent.reading).Pairwise (· ≤ ·)))

/-- A `Set` that stores its value does so no later than at the expiry that it computed. -/
def StoresByExpiry (s : System P) : CacheEvent → Prop
  | .call _ _ => True
  | .step i inp => ∀ expiresAt ∈ (s.calls i).bind Call.expiry, inp.now ≤ expiresAt

instance (s : System P) : ∀ ev, Decidable (StoresByExpiry s ev)
  | .call _ _ => .isTrue trivial
  | .step i inp => inferInstanceAs
      (Decidable (∀ expiresAt ∈ (s.calls i).bind Call.expiry, inp.now ≤ expiresAt))

end History

/-! ## The clock of a run -/

section Clock

variable {evs : List CacheEvent} {j k i i' : Nat} {inp inp' : Inputs}

/-- Of two steps the later one does not read an earlier time. -/
theorem ClockForward.le (h : ClockForward evs) (hjk : j ≤ k)
    (hj : evs[j]? = some (.step i inp)) (hk : evs[k]? = some (.step i' inp')) :
    inp.now ≤ inp'.now := by
  rcases Nat.lt_or_eq_of_le hjk with hlt | rfl
  · obtain ⟨hjn, hj⟩ := List.getElem?_eq_some_iff.mp hj
    obtain ⟨hkn, hk⟩ := List.getElem?_eq_some_iff.mp hk
    have hpair := List.pairwise_iff_getElem.mp (List.pairwise_filterMap.mp h) j k hjn hkn hlt
    rw [hj, hk] at hpair
    exact hpair inp.now rfl inp'.now rfl
  · rw [hj] at hk
    cases hk
    exact Int.le_refl _

/-- The reading of a step is the time just before it, and just after it. -/
theorem ClockForward.clockAt (h : ClockForward evs) (hk : evs[k]? = some (.step i inp)) :
    ClockAt evs k inp.now ∧ ClockAt evs (k + 1) inp.now := by
  refine ⟨fun j i' inp' hj => ⟨fun hjk => ?_, fun hkj => ?_⟩,
    fun j i' inp' hj => ⟨fun hjk => ?_, fun hkj => ?_⟩⟩
  · exact h.le (Nat.le_of_lt hjk) hj hk
  · exact h.le hkj hk hj
  · exact h.le (Nat.le_of_lt_succ hjk) hj hk
  · exact h.le (Nat.le_of_succ_le hkj) hk hj

/-- A step before the event number `k` read a later time than `e`. -/
def Passed (evs : List CacheEvent) (k : Nat) (e : Time) : Prop :=
  ∃ j i inp, j < k ∧ evs[j]? = some (.step i inp) ∧ e < inp.now

/-- What was dropped for its expiry is not seen later. -/
theorem Passed.not_showsUntil {e t : Time} (h : Passed evs k e) (hzero : e ≠ 0)
    (hclock : ClockAt evs k t) : ¬ ShowsUntil e t := by
  obtain ⟨j, i, inp, hjk, hj, hlt⟩ := h
  have hle : inp.now ≤ t := (hclock j i inp hj).1 hjk
  intro hshows
  rcases hshows with hshows | hshows
  · exact hzero hshows
  · exact absurd (Int.lt_of_lt_of_le hlt hle) (Int.not_lt.mpr hshows)

end Clock

/-! ## The timeline of a run -/

section Timeline

variable {P : Type} [LawfulPolicy P] {s₀ : System P} {evs : List CacheEvent}
  {A : Nat → ExpiryMap} {capacity : Nat}

/-- The maps behind the cache before each event of a run. -/
structure Timeline (s₀ : System P) (evs : List CacheEvent) (capacity : Nat)
    (A : Nat → ExpiryMap) : Prop where
  runs : ∃ t, run cacheStep s₀ evs = some t
  sound : ∀ k, k ≤ evs.length → Sound (stateAt cacheStep s₀ evs k).cache ∧
    (stateAt cacheStep s₀ evs k).cache.capacity = capacity
  shadows : ∀ k, k ≤ evs.length →
    Shadows (Passed evs k) (stateAt cacheStep s₀ evs k).cache (A k)
  effect : ∀ k i inp call, evs[k]? = some (.step i inp) →
    (stateAt cacheStep s₀ evs k).calls i = some call →
    MapEffect capacity inp.now call (A k) (A (k + 1))
  idle : ∀ k i req, evs[k]? = some (.call i req) → A (k + 1) = A k

theorem Passed.mono {k : Nat} {e : Time} (h : Passed evs k e) : Passed evs (k + 1) e := by
  obtain ⟨j, i, inp, hjk, hrest⟩ := h
  exact ⟨j, i, inp, Nat.lt_succ_of_lt hjk, hrest⟩

/-- What one event does to the map: the effect of a step, and nothing for a new call. -/
theorem Shadows.event {s s' : System P} {m : ExpiryMap} {k : Nat} {ev : CacheEvent}
    (h : Shadows (Passed evs k) s.cache m) (hsound : Sound s.cache) (hcap : 1 ≤ s.cache.capacity)
    (hev : evs[k]? = some ev) (hstep : cacheStep s ev = some s') :
    ∃ m', Shadows (Passed evs (k + 1)) s'.cache m' ∧
      (∀ i inp call, ev = .step i inp → s.calls i = some call →
        MapEffect s.cache.capacity inp.now call m m') ∧
      ∀ i req, ev = .call i req → m' = m := by
  have hmono : ∀ e, Passed evs k e → Passed evs (k + 1) e := fun _ he => he.mono
  cases ev with
  | call i req =>
      obtain ⟨_, rfl⟩ := cacheStep_call hstep
      exact ⟨m, h.same hmono (fun _ => rfl) rfl, fun i' inp call heq => (nomatch heq),
        fun _ _ _ => rfl⟩
  | step i inp =>
      obtain ⟨call, cache, call', hcall, hadvance, rfl⟩ := cacheStep_step hstep
      have hnow : ∀ e, e < inp.now → Passed evs (k + 1) e :=
        fun e hlt => ⟨k, i, inp, Nat.lt_succ_self k, hev, hlt⟩
      obtain ⟨m', hm', heffect⟩ := h.advance hmono hnow hsound hcap hadvance
      refine ⟨m', hm', fun i' inp' stepped heq hstepped => ?_, fun i' req heq => (nomatch heq)⟩
      cases heq
      rw [hcall] at hstepped
      cases hstepped
      exact heffect

/-- **Every run has a timeline** of maps, from the empty one. -/
theorem exists_timeline {policy : P} (hpolicy : LawfulPolicy.Tracks policy [])
    (hcap : 1 ≤ capacity) {t : System P}
    (hrun : run cacheStep (System.init capacity policy) evs = some t) :
    ∃ A, A 0 = ∅ ∧ Timeline (System.init capacity policy) evs capacity A := by
  have hsound : ∀ k, Sound (stateAt cacheStep (System.init capacity policy) evs k).cache ∧
      (stateAt cacheStep (System.init capacity policy) evs k).cache.capacity = capacity :=
    fun k => reachable_sound hpolicy hcap (run_take hrun k)
  have hnext : ∀ k, k < evs.length → ∀ m,
      Shadows (Passed evs k) (stateAt cacheStep (System.init capacity policy) evs k).cache m →
      ∃ m', ((∀ i inp call, evs[k]? = some (.step i inp) →
          (stateAt cacheStep (System.init capacity policy) evs k).calls i = some call →
          MapEffect capacity inp.now call m m') ∧
        ∀ i req, evs[k]? = some (.call i req) → m' = m) ∧
      Shadows (Passed evs (k + 1))
        (stateAt cacheStep (System.init capacity policy) evs (k + 1)).cache m' := by
    intro k hk m hm
    have hev := List.getElem?_eq_getElem hk
    obtain ⟨hsoundk, hcapk⟩ := hsound k
    obtain ⟨m', hm', heffect, hidle⟩ :=
      hm.event hsoundk (by omega) hev (step_stateAt hrun hev)
    rw [hcapk] at heffect
    refine ⟨m', ⟨fun i inp call hstep => ?_, fun i req hcall => ?_⟩, hm'⟩
    · exact heffect i inp call (Option.some.inj (hev.symm.trans hstep))
    · exact hidle i req (Option.some.inj (hev.symm.trans hcall))
  have hempty : Shadows (Passed evs 0)
      (stateAt cacheStep (System.init capacity policy) evs 0).cache ∅ :=
    ⟨by simp [stateAt, System.init, InMemoryCache.new, stored, entry], nofun, Nat.zero_le _⟩
  obtain ⟨A, hzero, hshadows, hstep⟩ := exists_sequence hempty hnext
  exact ⟨A, hzero, ⟨t, hrun⟩, fun k _ => hsound k, hshadows,
    fun k i inp call hk => (hstep k (List.getElem?_eq_some_iff.mp hk).1).1 i inp call hk,
    fun k i req hk => (hstep k (List.getElem?_eq_some_iff.mp hk).1).2 i req hk⟩

end Timeline

/-! ## What a call has seen -/

section Points

variable {P : Type}

/-- At an instant after the event `a` and no later than the event `k`, the map and the
clock were as `Q` says. -/
def Seen (evs : List CacheEvent) (A : Nat → ExpiryMap) (a k : Nat)
    (Q : ExpiryMap → Time → Prop) : Prop :=
  ∃ j t, a < j ∧ j ≤ k ∧ ClockAt evs j t ∧ Q (A j) t

/-- The map does not show the key. -/
def Hidden (key : String) (m : ExpiryMap) (t : Time) : Prop :=
  ∀ value expiresAt, m.lookup key = some (value, expiresAt) → ¬ ShowsUntil expiresAt t

/-- The map shows the key, with the value and the expiry. -/
def Shown (key : String) (x : Bytes × Time) (m : ExpiryMap) (t : Time) : Prop :=
  m.lookup key = some x ∧ ShowsUntil x.2 t

/-- What is known of a call made with the event `a`, before the event `k`. -/
def PointOk (evs : List CacheEvent) (A : Nat → ExpiryMap) (a k : Nat) (c : InMemoryCache P) :
    Request → Call → Prop
  | .get key, .getLookup key' => key' = key
  | .get key, .getCheck _ r => r < c.fresh ∧ (c.cell r).1 = key ∧
      (c.entries.lookup key = some r ∨
        Seen evs A a k (fun m _ => m.lookup key = some (c.cell r).2) ∧
          Seen evs A a k (Hidden key))
  | .get key, .getReap _ => Seen evs A a k (Hidden key)
  | .get key, .getTouch _ r => r < c.fresh ∧ (c.cell r).1 = key ∧
      Seen evs A a k (Shown key (c.cell r).2)
  | .get key, .getRead r => r < c.fresh ∧ (c.cell r).1 = key ∧
      Seen evs A a k (Shown key (c.cell r).2)
  | .set key value _, .setValidate key' value' _ => key' = key ∧ value' = value
  | .set key value _, .setStore key' value' _ _ => key' = key ∧ value' = value
  | .delete key, .deleteLocked key' => key' = key
  | _, .returned _ => True
  | _, _ => False

variable {evs : List CacheEvent} {A : Nat → ExpiryMap} {a k : Nat} {c c' : InMemoryCache P}
  {Q : ExpiryMap → Time → Prop}

theorem Seen.mono {k' : Nat} (h : Seen evs A a k Q) (hk : k ≤ k') : Seen evs A a k' Q := by
  obtain ⟨j, t, haj, hjk, hrest⟩ := h
  exact ⟨j, t, haj, Nat.le_trans hjk hk, hrest⟩

/-- A call that has just started relies on nothing. -/
theorem pointOk_start (req : Request) : PointOk evs A a k c req req.start := by
  cases req with
  | get key => rfl
  | set key value ttl => exact ⟨rfl, rfl⟩
  | delete key => rfl

/-- Time passes, and the cache stays as it is. -/
theorem PointOk.mono {k' : Nat} {req : Request} {call : Call}
    (h : PointOk evs A a k c req call) (hk : k ≤ k') : PointOk evs A a k' c req call := by
  cases req with
  | get key =>
      cases call with
      | getCheck key' r =>
          exact ⟨h.1, h.2.1, h.2.2.imp_right fun hseen => ⟨hseen.1.mono hk, hseen.2.mono hk⟩⟩
      | getReap key' => exact Seen.mono h hk
      | getTouch key' r => exact ⟨h.1, h.2.1, h.2.2.mono hk⟩
      | getRead r => exact ⟨h.1, h.2.1, h.2.2.mono hk⟩
      | _ => exact h
  | set key value ttl => cases call <;> exact h
  | delete key => cases call <;> exact h

/-- An entry that the cache does not have is hidden. -/
theorem Shadows.hidden {m : ExpiryMap} {key : String} {t : Time}
    (h : Shadows (Passed evs k) c m) (hnone : c.stored key = none) (hclock : ClockAt evs k t) :
    Hidden key m t := by
  intro value expiresAt hm
  obtain ⟨hzero, hpassed⟩ := h.dropped key value expiresAt hnone hm
  exact hpassed.not_showsUntil hzero hclock

variable {i : Nat} {inp : Inputs}

/-- A `Get` that finds its cell expired has seen the key hidden: at the check, or when the
cell had lost its key. -/
theorem seen_hidden {key : String} {r : Nat} (hak : a < k) (hforward : ClockForward evs)
    (hev : evs[k]? = some (.step i inp)) (hbefore : Shadows (Passed evs k) c (A k))
    (hplace : c.entries.lookup key = some r ∨ Seen evs A a k (Hidden key))
    (hexpired : (c.memory r).isExpired inp.now = true) : Seen evs A a (k + 1) (Hidden key) := by
  rcases hplace with hattached | hhidden
  · refine ⟨k, inp.now, hak, Nat.le_succ k, (hforward.clockAt hev).1, ?_⟩
    intro value expiresAt hm
    rw [hbefore.agree key _ (stored_of_lookup hattached)] at hm
    cases hm
    obtain ⟨hzero, hlt⟩ := isExpired_iff.mp hexpired
    exact not_or.mpr ⟨hzero, Int.not_le.mpr hlt⟩
  · exact hhidden.mono (Nat.le_succ k)

/-- One that finds it unexpired has seen the cell shown: at the check, or before the cell
lost its key. -/
theorem seen_shown {key : String} {r : Nat} (hak : a < k) (hforward : ClockForward evs)
    (hev : evs[k]? = some (.step i inp)) (hbefore : Shadows (Passed evs k) c (A k))
    (hplace : c.entries.lookup key = some r ∨
      Seen evs A a k (fun m _ => m.lookup key = some (c.cell r).2))
    (hfresh : (c.memory r).isExpired inp.now = false) :
    Seen evs A a (k + 1) (Shown key (c.cell r).2) := by
  have hshows : ShowsUntil (c.cell r).2.2 inp.now := isExpired_eq_false_iff.mp hfresh
  rcases hplace with hattached | ⟨j, t, haj, hjk, hclockj, hm⟩
  · refine ⟨k, inp.now, hak, Nat.le_succ k, (hforward.clockAt hev).1, ?_, hshows⟩
    exact hbefore.agree key _ (stored_of_lookup hattached)
  · have hle : t ≤ inp.now := (hclockj k i inp hev).2 hjk
    exact ⟨j, t, haj, Nat.le_succ_of_le hjk, hclockj, hm, hshows.imp_right (Int.le_trans hle)⟩

variable [EvictionPolicy P] {stepped stepped' : Call}

/-- A cell that is written anew is shown just after. -/
theorem Seen.other {key : String} {r : Nat} (hseen : Seen evs A a k (Shown key (c.cell r).2))
    (hr : r < c.fresh) (hkey : (c.cell r).1 = key) (hak : a < k) (hforward : ClockForward evs)
    (hev : evs[k]? = some (.step i inp)) (haddressed : Addressed c)
    (hafter : Shadows (Passed evs (k + 1)) c' (A (k + 1)))
    (hadvance : advance c inp stepped = some (c', stepped'))
    (hexpiry : ∀ expiresAt ∈ stepped.expiry, inp.now ≤ expiresAt) :
    r < c'.fresh ∧ (c'.cell r).1 = key ∧ Seen evs A a (k + 1) (Shown key (c'.cell r).2) := by
  refine ⟨Nat.lt_of_lt_of_le hr (fresh_advance haddressed hadvance), ?_⟩
  rcases cell_advance haddressed hadvance hr with
    hsame | ⟨value, expiresAt, now, hstepped, _, hfiled, hcell⟩
  · rw [hsame]
    exact ⟨hkey, hseen.mono (Nat.le_succ k)⟩
  · rw [hkey] at hfiled hcell
    refine ⟨by rw [hcell], k + 1, inp.now, by omega, Nat.le_refl _,
      (hforward.clockAt hev).2, ?_, ?_⟩
    · exact hafter.agree key _ (stored_of_lookup hfiled)
    · rw [hcell]
      exact Or.inr (hexpiry expiresAt (by rw [hstepped]; rfl))

/-- **A step of another call** leaves what is known of a call right.  A cell that loses its
key was shown just before and is hidden just after. -/
theorem PointOk.other {req : Request} {call : Call} (h : PointOk evs A a k c req call)
    (hak : a < k) (hforward : ClockForward evs) (hev : evs[k]? = some (.step i inp))
    (haddressed : Addressed c) (hbefore : Shadows (Passed evs k) c (A k))
    (hafter : Shadows (Passed evs (k + 1)) c' (A (k + 1)))
    (hadvance : advance c inp stepped = some (c', stepped'))
    (hexpiry : ∀ expiresAt ∈ stepped.expiry, inp.now ≤ expiresAt) :
    PointOk evs A a (k + 1) c' req call := by
  obtain ⟨hclock, hclock'⟩ := hforward.clockAt hev
  have hfresh := fresh_advance haddressed hadvance
  cases req with
  | get key =>
      cases call with
      | getCheck key' r =>
          obtain ⟨hr, hkey, hplace⟩ := h
          refine ⟨Nat.lt_of_lt_of_le hr hfresh, ?_, ?_⟩
          · rcases cell_advance haddressed hadvance hr with hsame | ⟨_, _, _, _, _, _, hcell⟩
            · rw [hsame]
              exact hkey
            · rw [hcell]
              exact hkey
          · by_cases hstill : c'.entries.lookup key = some r
            · exact Or.inl hstill
            · have hsame : c'.cell r = c.cell r := by
                rcases cell_advance haddressed hadvance hr with
                  hsame | ⟨_, _, _, _, _, hfiled, _⟩
                · exact hsame
                · rw [hkey] at hfiled
                  exact absurd hfiled hstill
              rw [hsame]
              refine Or.inr ?_
              rcases hplace with hattached | ⟨hthere, hhidden⟩
              · have hgone : c'.entries.lookup key = none :=
                  (lookup_advance hadvance hattached).resolve_left hstill
                refine ⟨⟨k, inp.now, hak, Nat.le_succ k, hclock, ?_⟩,
                  ⟨k + 1, inp.now, by omega, Nat.le_refl _, hclock', ?_⟩⟩
                · exact hbefore.agree key _ (stored_of_lookup hattached)
                · exact hafter.hidden (stored_eq_none_iff.mpr (AList.lookup_eq_none.mp hgone))
                    hclock'
              · exact ⟨hthere.mono (Nat.le_succ k), hhidden.mono (Nat.le_succ k)⟩
      | getReap key' => exact Seen.mono h (Nat.le_succ k)
      | getTouch key' r =>
          exact h.2.2.other h.1 h.2.1 hak hforward hev haddressed hafter hadvance hexpiry
      | getRead r =>
          exact h.2.2.other h.1 h.2.1 hak hforward hev haddressed hafter hadvance hexpiry
      | _ => exact h
  | set key value ttl => cases call <;> exact h
  | delete key => cases call <;> exact h

/-- **A step of the call itself.** -/
theorem PointOk.self {req : Request} {call call' : Call} (h : PointOk evs A a k c req call)
    (hak : a < k) (hforward : ClockForward evs) (hev : evs[k]? = some (.step i inp))
    (haddressed : Addressed c) (hbefore : Shadows (Passed evs k) c (A k))
    (hadvance : advance c inp call = some (c', call')) :
    PointOk evs A a (k + 1) c' req call' := by
  cases req with
  | get key =>
      cases call with
      | getLookup key' =>
          simp only [advance] at hadvance
          split at hadvance
          · cases hadvance
            trivial
          · rename_i r hr
            cases hadvance
            cases h
            exact ⟨haddressed.bound key r hr, haddressed.keyed key r hr, Or.inl hr⟩
      | getCheck key' r =>
          obtain ⟨hr, hkey, hplace⟩ := h
          simp only [advance] at hadvance
          split at hadvance
          · rename_i hexpired
            cases hadvance
            exact seen_hidden hak hforward hev hbefore (hplace.imp_right And.right) hexpired
          · rename_i hfresh
            cases hadvance
            exact ⟨hr, hkey, seen_shown hak hforward hev hbefore (hplace.imp_right And.left)
              (Bool.eq_false_iff.mpr hfresh)⟩
      | getReap key' =>
          cases hadvance
          trivial
      | getTouch key' r =>
          cases hadvance
          obtain ⟨hr, hkey, hseen⟩ := h
          simp only [PointOk, cell_touch]
          exact ⟨hr, hkey, hseen.mono (Nat.le_succ k)⟩
      | getRead r =>
          cases hadvance
          trivial
      | returned result => cases hadvance
      | _ => cases h
  | set key value ttl =>
      cases call with
      | setValidate key' value' ttl' =>
          simp only [advance] at hadvance
          split at hadvance
          · cases hadvance
            trivial
          · cases hadvance
            exact h
      | setStore key' value' expiresAt now =>
          cases hadvance
          trivial
      | returned result => cases hadvance
      | _ => cases h
  | delete key =>
      cases call with
      | deleteLocked key' =>
          cases hadvance
          trivial
      | returned result => cases hadvance
      | _ => cases h

/-- **A call that returns without effect** answers what the map would have answered at an
instant that it has seen. -/
theorem PointOk.looks {req : Request} {call : Call} {result : Result} {capacity : Nat}
    (h : PointOk evs A a k c req call) (hak : a < k) (hforward : ClockForward evs)
    (hev : evs[k]? = some (.step i inp)) (hbefore : Shadows (Passed evs k) c (A k))
    (hadvance : advance c inp call = some (c', .returned result))
    (hlooks : call.isWriter = false) :
    Seen evs A a k fun m t => MapStep ShowsUntil capacity m t (opOf req call) result m := by
  obtain ⟨hclock, _⟩ := hforward.clockAt hev
  cases req with
  | get key =>
      cases call with
      | getLookup key' =>
          simp only [advance] at hadvance
          split at hadvance
          · rename_i hnone
            cases hadvance
            cases h
            have hstored : c.stored key = none :=
              stored_eq_none_iff.mpr (AList.lookup_eq_none.mp hnone)
            exact ⟨k, inp.now, hak, Nat.le_refl k, hclock, .miss (hbefore.hidden hstored hclock)⟩
          · cases hadvance
      | getCheck key' r =>
          simp only [advance] at hadvance
          split at hadvance <;> cases hadvance
      | getReap key' =>
          cases hadvance
          obtain ⟨j, t, haj, hjk, hclockj, hhidden⟩ := h
          exact ⟨j, t, haj, hjk, hclockj, .miss hhidden⟩
      | getTouch key' r => cases hadvance
      | getRead r =>
          cases hadvance
          obtain ⟨_, _, j, t, haj, hjk, hclockj, hm, hshows⟩ := h
          exact ⟨j, t, haj, hjk, hclockj, .hit hm hshows⟩
      | returned result => cases hadvance
      | _ => cases h
  | set key value ttl =>
      cases call with
      | setValidate key' value' ttl' =>
          simp only [advance] at hadvance
          split at hadvance
          · cases hadvance
            exact ⟨k, inp.now, hak, Nat.le_refl k, hclock, .refuse⟩
          · cases hadvance
      | setStore key' value' expiresAt now => cases hlooks
      | returned result => cases hadvance
      | _ => cases h
  | delete key =>
      cases call with
      | deleteLocked key' => cases hlooks
      | returned result => cases hadvance
      | _ => cases h

end Points

end Cache
