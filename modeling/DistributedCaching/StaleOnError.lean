import DistributedCaching.ProxyRetention

/-!
# Stored responses when the upstream fails

`ServeHTTP` looks into its store a second time when the upstream cannot be reached,
in order to serve what it has, however old.  Both lookups are the same `Get`, and
that drops an expired response when it meets it.  So the second lookup finds only what
the first one could have served, unless the clock was set back between them:
`stale_on_error` says exactly which stored responses are served, and
`expired_not_served` follows one that is not.
-/

namespace Http

open Go TransitionRuns

/-- `forwardToUpstream` returns an error. -/
def Upstream.Fails : Upstream → Prop
  | .unbuilt => True
  | .sent _ .failed => True
  | .sent _ _ => False

instance : ∀ u : Upstream, Decidable u.Fails
  | .unbuilt => .isTrue trivial
  | .sent _ .failed => .isTrue trivial
  | .sent _ .truncated => .isFalse id
  | .sent _ (.complete _) => .isFalse id

/-- The answer when nothing is found. -/
def unavailable : Response := httpError "upstream unavailable and no cached response available" 503

/-- The response passes the check of the first lookup, or the second check there and the
check of the second lookup. -/
def CachedHTTPResponse.Survives (c : CachedHTTPResponse) (env : Surroundings) : Prop :=
  c.isExpired env.lookup.check = false ∨
    (c.isExpired env.lookup.recheck = false ∧ c.isExpired env.stale.check = false)

/-- What comes from the store is marked. -/
theorem header_serveCached (c : CachedHTTPResponse) :
    (serveCached c).header "X-Proxy-Cache" = ["HIT"] := by
  simp [serveCached, Header.set]

/-- A stored response is told from the answer for none by its header. -/
theorem serveCached_ne_unavailable (c : CachedHTTPResponse) : serveCached c ≠ unavailable := by
  intro heq
  have hnone : unavailable.header "X-Proxy-Cache" = [] := by decide
  rw [← heq, header_serveCached] at hnone
  cases hnone

namespace Proxy

variable {p : Proxy} {r : Request} {env : Surroundings}

/-- A failing upstream leaves the two lookups. -/
theorem serveHTTP_failing (hfails : env.upstream.Fails) {store : ResponseStore}
    (hget : p.store.get r.uri env.lookup = (none, store)) :
    p.serveHTTP r env =
      serveStale store r env (env.upstream.sentFor (p.forwardToUpstream r)) := by
  unfold serveHTTP
  rw [hget]
  cases hup : env.upstream with
  | unbuilt => rfl
  | sent redirects reply =>
      rw [hup] at hfails
      cases reply with
      | failed => rfl
      | truncated => exact hfails.elim
      | complete response => exact hfails.elim

/-- The second lookup serves what it finds. -/
theorem answer_serveStale {store : ResponseStore} {c : CachedHTTPResponse} (sent : List Outgoing)
    (hc : store.entries.lookup r.uri = some c) (hfresh : c.isExpired env.stale.check = false) :
    (serveStale store r env sent).answer = serveCached c := by
  have hget : store.get r.uri env.stale = (some c, store) := by
    simp [ResponseStore.get, hc, hfresh]
  simp [serveStale, hget]

/-- It finds nothing that is not stored, or is expired by then. -/
theorem answer_serveStale_none {store : ResponseStore} (sent : List Outgoing)
    (hnone : ∀ c, store.entries.lookup r.uri = some c → c.isExpired env.stale.check = true) :
    (serveStale store r env sent).answer = unavailable := by
  have hget : (store.get r.uri env.stale).1 = none := by
    cases hc : store.entries.lookup r.uri with
    | none => simp [ResponseStore.get, hc]
    | some c =>
        simp only [ResponseStore.get, hc, hnone c hc, if_true]
        split <;> rfl
  unfold serveStale
  split
  · rename_i c store' hfound
    rw [hfound] at hget
    cases hget
  · rfl

/-- **A stored response that survives both lookups is served.** -/
theorem answer_survives (hfails : env.upstream.Fails) {c : CachedHTTPResponse}
    (hc : p.store.entries.lookup r.uri = some c) (hsurvives : c.Survives env) :
    (p.serveHTTP r env).answer = serveCached c := by
  cases hcheck : c.isExpired env.lookup.check with
  | false => exact (p.serveHTTP_unexpired r env hc hcheck).2.1
  | true =>
      obtain ⟨hrecheck, hstale⟩ := hsurvives.resolve_left (by simp [hcheck])
      have hget : p.store.get r.uri env.lookup = (none, p.store) := by
        simp [ResponseStore.get, hc, hcheck, hrecheck]
      rw [serveHTTP_failing hfails hget]
      exact answer_serveStale _ hc hstale

/-- **One that does not survive them is not**, and neither is one that is not stored. -/
theorem answer_not_survives (hfails : env.upstream.Fails)
    (hnot : ∀ c, p.store.entries.lookup r.uri = some c → ¬ c.Survives env) :
    (p.serveHTTP r env).answer = unavailable := by
  have hmiss : (p.store.get r.uri env.lookup).1 = none := by
    cases hfound : (p.store.get r.uri env.lookup).1 with
    | none => rfl
    | some c =>
        have hget : p.store.get r.uri env.lookup = (some c, (p.store.get r.uri env.lookup).2) :=
          Prod.ext hfound rfl
        exact absurd (Or.inl (get_hit_unexpired hget)) (hnot c (get_hit hget))
  have hget : p.store.get r.uri env.lookup = (none, (p.store.get r.uri env.lookup).2) :=
    Prod.ext hmiss rfl
  rw [serveHTTP_failing hfails hget]
  refine answer_serveStale_none _ ?_
  intro c hc
  have hold := lookup_get hget hc
  have hdead := hnot c hold
  -- the entry is still there, so the second check of the first lookup spared it
  have hspared : c.isExpired env.lookup.recheck = false := by
    have hcheck : c.isExpired env.lookup.check = true := by
      cases hcheck : c.isExpired env.lookup.check with
      | true => rfl
      | false => exact absurd (Or.inl hcheck) hdead
    cases hrecheck : c.isExpired env.lookup.recheck with
    | false => rfl
    | true => simp [ResponseStore.get, hold, hcheck, hrecheck] at hc
  cases hstale : c.isExpired env.stale.check with
  | true => rfl
  | false => exact absurd (Or.inr ⟨hspared, hstale⟩) hdead

end Proxy

/-- **Stale on error**, for one request: a stored response is the answer, and the
answer is 503 only if none was ever stored for the URI. -/
structure StaleServed (s : Watched) (r : Request) (env : Surroundings) : Prop where
  replayed : ∀ c, s.proxy.store.entries.lookup r.uri = some c →
    (s.proxy.serveHTTP r env).answer = serveCached c
  refused : (s.proxy.serveHTTP r env).answer = unavailable → s.kept r.uri = none

/-- Whatever is in the store is on record. -/
def Recorded (s : Watched) : Prop :=
  ∀ u, s.kept u = none → s.proxy.store.entries.lookup u = none

/-- Every sequence of requests leads to such a state. -/
theorem recorded_run {upstreamURL : String} {reqs : List (Request × Surroundings)} {s : Watched}
    (h : run watchStep (.init upstreamURL) reqs = some s) : Recorded s := by
  refine run_invariant (I := Recorded) ?_ (fun u _ => rfl) h
  intro s e s' hrecorded hstep
  cases hstep
  intro u hu
  rcases serve_cases s e with ⟨response, _, hkept, _, hold⟩ | ⟨_, hkept, hold⟩
  · rw [hkept] at hu
    by_cases hself : u = e.1.uri
    · rw [hself, Function.update_self] at hu
      cases hu
    · rw [Function.update_of_ne hself] at hu
      rw [Option.eq_none_iff_forall_ne_some]
      intro c hc
      exact absurd (hold u c hself hc) (by simp [hrecorded u hu])
  · rw [hkept] at hu
    rw [Option.eq_none_iff_forall_ne_some]
    intro c hc
    exact absurd (hold u c hc) (by simp [hrecorded u hu])

/-- **When a failing upstream is covered by the store**: exactly when the response that
was stored for the URI, if there was one, is still stored and survives the lookups. -/
theorem stale_on_error (s : Watched) (hrecorded : Recorded s) (r : Request)
    (env : Surroundings) (hfails : env.upstream.Fails) :
    StaleServed s r env ↔
      (s.kept r.uri ≠ none →
        ∃ c, s.proxy.store.entries.lookup r.uri = some c ∧ c.Survives env) := by
  constructor
  · intro h hkept
    by_contra hnone
    refine hkept (h.refused (Proxy.answer_not_survives hfails ?_))
    intro c hc hsurvives
    exact hnone ⟨c, hc, hsurvives⟩
  · intro h
    by_cases hkept : s.kept r.uri = none
    · refine ⟨fun c hc => ?_, fun _ => hkept⟩
      cases (hrecorded r.uri hkept).symm.trans hc
    · obtain ⟨c, hc, hsurvives⟩ := h hkept
      have hanswer := Proxy.answer_survives hfails hc hsurvives
      refine ⟨fun c' hc' => ?_, fun hrefused => ?_⟩
      · cases hc.symm.trans hc'
        exact hanswer
      · exact absurd (hanswer.symm.trans hrefused) (serveCached_ne_unavailable c)

/-- The upstream is down. -/
def downAt (t : Time) : Surroundings :=
  { lookup := ⟨t, t⟩, stale := ⟨t, t⟩, cachedAt := t, storedAt := t, upstream := .sent [] .failed }

/-- Within the age that it declares, a stored response covers for the upstream. -/
theorem stale_on_error_fresh :
    Recorded (agedState "max-age=60") ∧
      StaleServed (agedState "max-age=60") (agedGet "max-age=60").1 (downAt (30 * second)) := by
  have hrecorded : Recorded (agedState "max-age=60") :=
    recorded_run (show run watchStep (.init "http://api:8081") [agedGet "max-age=60"] = _ from rfl)
  refine ⟨hrecorded, (stale_on_error _ hrecorded _ _ (by decide)).mpr ?_⟩
  intro _
  exact ⟨_, rfl, Or.inl (by decide)⟩

/-- **A stored response that has expired** is not served when the upstream is down: the
first lookup has dropped it, and the answer is 503. -/
theorem expired_not_served :
    let s := agedState "max-age=60"
    let r := (agedGet "max-age=60").1
    (s.proxy.store.entries.lookup r.uri).isSome = true ∧
      (s.proxy.serveHTTP r (downAt (90 * second))).answer.statusCode = 503 ∧
      (s.proxy.serveHTTP r (downAt (90 * second))).way = .unavailable ∧
      ¬ StaleServed s r (downAt (90 * second)) := by
  intro s r
  have hstored : (s.proxy.store.entries.lookup r.uri).isSome = true := by decide
  refine ⟨hstored, by decide, by decide, ?_⟩
  intro h
  obtain ⟨c, hc⟩ := Option.isSome_iff_exists.mp hstored
  have hnone : (s.proxy.serveHTTP r (downAt (90 * second))).answer.header "X-Proxy-Cache" = [] := by
    decide
  rw [h.replayed c hc, header_serveCached] at hnone
  cases hnone

end Http
