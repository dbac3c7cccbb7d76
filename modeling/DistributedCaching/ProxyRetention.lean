import DistributedCaching.ProxyTransparency

/-!
# What the proxy keeps, and for how long

The decision of `ServeHTTP` to keep a response, in terms of the first `Cache-Control`
value: `isBlocked` says whether one of the three forbidding texts occurs in it, and
`maxAge?` is the number of its first `max-age` directive that has one.

The state notes for each URI the response that was stored last, and when.  Two
results over every sequence of requests:

* `fresh_iff_lasting`: stored responses are served only within the age that they
  declare, and none with an age of zero or less is stored, exactly if the declared
  age of every response that is stored is positive and still positive as an `int64`
  of nanoseconds.  A negative age is stored without any expiry.
* `discreet_iff_declared`: a response that forbids it leaves no new or replaced entry in
  the store and is never replayed, exactly if no response forbids it only in a
  `Cache-Control` value after the first one.
-/

namespace Http

open Go TransitionRuns

/-! ## The decision -/

/-- The value that `ServeHTTP` looks at. -/
def cacheControl (response : Response) : String := response.header.get "Cache-Control"

/-- One of the texts that prevent caching occurs in the value. -/
def isBlocked (value : String) : Bool :=
  ["no-store", "no-cache", "private"].any fun directive =>
    contains (toLower value.toList) directive.toList

/-- The number of a `max-age` directive, if the directive is one and has one. -/
def directiveAge (part : Text) : Option Int :=
  let part := toLower (trimSpace part)
  if startsWith part "max-age=".toList then atoi (trimSpace (part.drop "max-age=".length))
  else none

/-- The number of the first `max-age` directive that has one. -/
def maxAge? (value : String) : Option Int := (split value.toList ',').findSome? directiveAge

/-- **The age in seconds that a value declares**; without a number it is 300. -/
def declaredAge (value : String) : Int := (maxAge? value).getD 300

/-- The first directive with an age decides; without one the default holds. -/
theorem parseMaxAge_eq (parts : List Text) :
    parseMaxAge parts =
      match parts.findSome? directiveAge with
      | none => (true, defaultCacheTTL)
      | some n => if n = 0 then (false, 0) else (true, int64 (n * second)) := by
  induction parts with
  | nil => rfl
  | cons part parts ih =>
      rw [parseMaxAge, List.findSome?_cons]
      dsimp only [directiveAge]
      split
      · cases hage : atoi (trimSpace ((toLower (trimSpace part)).drop "max-age=".length)) with
        | none => exact ih
        | some n => rfl
      · exact ih

/-- The decision and the lifetime, from the text of the value. -/
theorem parseCacheControl_eq (value : String) :
    parseCacheControl value =
      if isBlocked value then (false, 0)
      else if maxAge? value = some 0 then (false, 0)
      else (true, int64 (declaredAge value * second)) := by
  by_cases hempty : value = ""
  · subst hempty
    decide
  · rw [parseCacheControl, if_neg hempty]
    show (if isBlocked value then _ else _) = _
    by_cases hblocked : isBlocked value
    · rw [if_pos hblocked, if_pos hblocked]
    · rw [if_neg hblocked, if_neg hblocked, parseMaxAge_eq]
      show (match maxAge? value with
        | none => (true, defaultCacheTTL)
        | some n => if n = 0 then (false, 0) else (true, int64 (n * second))) = _
      cases hage : maxAge? value with
      | none =>
          rw [if_neg (by simp), declaredAge, hage]
          decide
      | some n =>
          dsimp only
          by_cases hn : n = 0
          · rw [if_pos hn, if_pos (by rw [hn])]
          · have hne : some n ≠ some 0 := fun heq => hn (Option.some.inj heq)
            rw [if_neg hn, if_neg hne, declaredAge, hage, Option.getD_some]

/-- The value lets the response be kept. -/
def Allows (value : String) : Prop := isBlocked value = false ∧ maxAge? value ≠ some 0

/-- The value is parsed as cacheable exactly if it allows the response to be kept. -/
theorem parseCacheControl_fst (value : String) :
    (parseCacheControl value).1 = true ↔ Allows value := by
  rw [parseCacheControl_eq, Allows]
  by_cases hblocked : isBlocked value
  · simp [hblocked]
  · by_cases hage : maxAge? value = some 0
    · simp [hblocked, hage]
    · simp [hblocked, hage]

/-- The TTL is the declared age in seconds, in 64 bits. -/
theorem parseCacheControl_snd {value : String} (h : Allows value) :
    (parseCacheControl value).2 = int64 (declaredAge value * second) := by
  rw [parseCacheControl_eq, if_neg (by simp [h.1]), if_neg h.2]

/-- The response is a success that its value lets be kept. -/
def Keepable (response : Response) : Prop :=
  200 ≤ response.statusCode ∧ response.statusCode < 300 ∧ Allows (cacheControl response)

/-- The entry that is stored for a response. -/
def entryFor (response : Response) (env : Surroundings) : CachedHTTPResponse where
  statusCode := response.statusCode
  headers := response.header
  body := response.body
  cachedAt := env.cachedAt
  expiresAt :=
    if 0 < (parseCacheControl (cacheControl response)).2 then
      env.storedAt + (parseCacheControl (cacheControl response)).2
    else 0

namespace Proxy

variable {p : Proxy} {r : Request} {env : Surroundings}

/-- The second lookup stores nothing. -/
theorem way_serveStale (store : ResponseStore) (r : Request) (env : Surroundings)
    (sent : List Outgoing) : (serveStale store r env sent).way ≠ .relayed true := by
  unfold serveStale
  split <;> simp

/-- A response is stored exactly if it can be kept. -/
theorem way_relay (store : ResponseStore) (r : Request) (env : Surroundings)
    (sent : List Outgoing) (response : Response) :
    (relay store r env sent response).way = .relayed true ↔ Keepable response := by
  have hallows := parseCacheControl_fst (cacheControl response)
  simp only [cacheControl] at hallows
  simp only [relay, Way.relayed.injEq, Bool.and_eq_true, decide_eq_true_eq, hallows, Keepable,
    cacheControl]
  rw [and_assoc, and_comm, and_assoc]

/-- **When a response is stored**: the store has none for the request, and the upstream
returns a success that may be kept. -/
theorem way_serveHTTP_iff :
    (p.serveHTTP r env).way = .relayed true ↔
      p.holds r env = false ∧ ∃ response, env.upstream.response = some response ∧
        Keepable response := by
  have hserves := p.serves_serveHTTP r env
  generalize p.serveHTTP r env = served at hserves ⊢
  cases hserves with
  | hit hget hholds => simp [hholds]
  | failed hget hholds hresponse => simp [way_serveStale, hresponse]
  | truncated hget hholds hresponse => simp [hresponse]
  | complete hget hholds hresponse => simp [way_relay, hholds, hresponse]

/-- **What is stored** for a response. -/
theorem lookup_serveHTTP_kept {response : Response} (hmiss : p.holds r env = false)
    (hresponse : env.upstream.response = some response) (hkeep : Keepable response) :
    (p.serveHTTP r env).store.entries.lookup r.uri = some (entryFor response env) := by
  have hserves := p.serves_serveHTTP r env
  generalize p.serveHTTP r env = served at hserves ⊢
  cases hserves with
  | hit hget hholds => cases hholds.symm.trans hmiss
  | failed hget hholds hnone => cases hnone.symm.trans hresponse
  | truncated hget hholds hnone => cases hnone.symm.trans hresponse
  | @complete store other hget hholds hsome =>
      cases hsome.symm.trans hresponse
      have hway := (way_relay store r env (env.upstream.sentFor (p.forwardToUpstream r))
        response).mpr hkeep
      simp only [relay, Way.relayed.injEq] at hway
      simp only [relay, hway, if_true]
      exact AList.lookup_insert _

/-- The clock reading at which the store answered. -/
def servedAt (p : Proxy) (r : Request) (env : Surroundings) : Time :=
  if (p.store.get r.uri env.lookup).1.isSome then env.lookup.check else env.stale.check

/-- A hit returns what has not expired. -/
theorem get_hit_unexpired {s s' : ResponseStore} {key : String} {t : LookupClock}
    {c : CachedHTTPResponse} (h : s.get key t = (some c, s')) : c.isExpired t.check = false := by
  unfold ResponseStore.get at h
  split at h
  · cases h
  · split at h
    · split at h <;> cases h
    · rename_i hfresh
      cases h
      simpa using hfresh

/-- The second lookup answers with an entry that has not expired by then. -/
theorem serveStale_stored {store : ResponseStore} {sent : List Outgoing}
    (h : (serveStale store r env sent).way = .stored) :
    ∃ c, store.entries.lookup r.uri = some c ∧ c.isExpired env.stale.check = false ∧
      (serveStale store r env sent).answer = serveCached c := by
  unfold serveStale at h ⊢
  split
  · rename_i c store' hget
    exact ⟨c, get_hit hget, get_hit_unexpired hget, rfl⟩
  · rename_i store' hget
    rw [hget] at h
    cases h

/-- **An answer from the store** is an entry that has not expired. -/
theorem serveHTTP_stored (h : (p.serveHTTP r env).way = .stored) :
    ∃ c, p.store.entries.lookup r.uri = some c ∧ c.isExpired (p.servedAt r env) = false ∧
      (p.serveHTTP r env).answer = serveCached c := by
  have hserves := p.serves_serveHTTP r env
  generalize p.serveHTTP r env = served at hserves h ⊢
  cases hserves with
  | @hit c _ hget hholds =>
      refine ⟨c, get_hit hget, ?_, rfl⟩
      rw [servedAt, hget, if_pos (by simp)]
      exact get_hit_unexpired hget
  | failed hget hholds hresponse =>
      have hat : p.servedAt r env = env.stale.check := by simp [servedAt, hget]
      obtain ⟨c, hc, hrest⟩ := serveStale_stored h
      rw [hat]
      exact ⟨c, lookup_get hget hc, hrest⟩
  | truncated hget hholds hresponse => cases h
  | complete hget hholds hresponse => simp [relay] at h

/-- An entry that has not expired is served. -/
theorem serveHTTP_unexpired (p : Proxy) (r : Request) (env : Surroundings)
    {c : CachedHTTPResponse} (hc : p.store.entries.lookup r.uri = some c)
    (hfresh : c.isExpired env.lookup.check = false) :
    (p.serveHTTP r env).way = .stored ∧ (p.serveHTTP r env).answer = serveCached c ∧
      p.servedAt r env = env.lookup.check := by
  have hget : p.store.get r.uri env.lookup = (some c, p.store) := by
    simp [ResponseStore.get, hc, hfresh]
  simp [serveHTTP, hget, servedAt]

end Proxy

/-! ## Runs -/

/-- A proxy, and for each URI the response that was stored last and when. -/
structure Watched where
  proxy : Proxy
  kept : String → Option (Response × Time)

def Watched.init (upstreamURL : String) : Watched where
  proxy := newProxy upstreamURL
  kept _ := none

/-- The state after one more request. -/
def Watched.serve (s : Watched) (e : Request × Surroundings) : Watched :=
  let served := s.proxy.serveHTTP e.1 e.2
  { proxy := { s.proxy with store := served.store }
    kept :=
      if served.way = .relayed true then
        Function.update s.kept e.1.uri (e.2.upstream.response.map fun x => (x, e.2.storedAt))
      else s.kept }

def watchStep (s : Watched) (e : Request × Surroundings) : Option Watched := some (s.serve e)

/-- The step keeps a response. -/
def Stores (s : Watched) (e : Request × Surroundings) (response : Response) : Prop :=
  s.proxy.holds e.1 e.2 = false ∧ e.2.upstream.response = some response ∧ Keepable response

/-- **What a request does to the store**: it stores the response under the URI, or only
loses entries. -/
theorem serve_cases (s : Watched) (e : Request × Surroundings) :
    (∃ response, Stores s e response ∧
      (s.serve e).kept = Function.update s.kept e.1.uri (some (response, e.2.storedAt)) ∧
      (s.serve e).proxy.store.entries.lookup e.1.uri = some (entryFor response e.2) ∧
      ∀ u c, u ≠ e.1.uri → (s.serve e).proxy.store.entries.lookup u = some c →
        s.proxy.store.entries.lookup u = some c) ∨
    ((∀ response, ¬ Stores s e response) ∧ (s.serve e).kept = s.kept ∧
      ∀ u c, (s.serve e).proxy.store.entries.lookup u = some c →
        s.proxy.store.entries.lookup u = some c) := by
  by_cases hway : (s.proxy.serveHTTP e.1 e.2).way = .relayed true
  · obtain ⟨hmiss, response, hresponse, hkeep⟩ := Proxy.way_serveHTTP_iff.mp hway
    refine Or.inl ⟨response, ⟨hmiss, hresponse, hkeep⟩, ?_,
      Proxy.lookup_serveHTTP_kept hmiss hresponse hkeep, ?_⟩
    · simp [Watched.serve, hway, hresponse]
    · intro u c hu hc
      rcases Proxy.lookup_serveHTTP hc with ⟨hold, _⟩ | ⟨heq, _⟩
      · exact hold
      · exact absurd heq hu
  · refine Or.inr ⟨?_, by simp [Watched.serve, hway], ?_⟩
    · intro response hstores
      exact hway (Proxy.way_serveHTTP_iff.mpr ⟨hstores.1, response, hstores.2⟩)
    · intro u c hc
      rcases Proxy.lookup_serveHTTP hc with ⟨hold, _⟩ | ⟨_, hkept, _⟩
      · exact hold
      · exact absurd hkept hway

/-! ## Freshness -/

/-- **A fresh state**: whatever request comes next, at whatever time, an answer from the
store replays the response stored last under its URI, no later than the declared age
after it was stored; and no stored response declares an age of zero or less. -/
structure Fresh (s : Watched) : Prop where
  bounded : ∀ r env, (s.proxy.serveHTTP r env).way = .stored →
    ∃ response storedAt, s.kept r.uri = some (response, storedAt) ∧
      Replays (s.proxy.serveHTTP r env).answer response ∧
      s.proxy.servedAt r env ≤ storedAt + declaredAge (cacheControl response) * second
  positive : ∀ u response storedAt, s.kept u = some (response, storedAt) →
    ∀ n, maxAge? (cacheControl response) = some n → 0 < n

/-- **An age that gives an expiry**: it is positive, also as an `int64` of nanoseconds,
and does not end at the zero time, which means no expiry. -/
def Lasts (age : Int) (storedAt : Time) : Prop :=
  0 < age ∧ 0 < int64 (age * second) ∧ storedAt + int64 (age * second) ≠ 0

/-- A response that is stored has such an age. -/
def Lasting (s : Watched) (e : Request × Surroundings) : Prop :=
  ∀ response, Stores s e response → Lasts (declaredAge (cacheControl response)) e.2.storedAt

/-- What `Lasts` means for an entry. -/
theorem lasts_iff {response : Response} {env : Surroundings}
    (hallows : Allows (cacheControl response)) :
    Lasts (declaredAge (cacheControl response)) env.storedAt ↔
      0 < declaredAge (cacheControl response) ∧
        ∀ t, (entryFor response env).isExpired t = false →
          t ≤ env.storedAt + declaredAge (cacheControl response) * second := by
  have hexpiry : (entryFor response env).expiresAt =
      if 0 < int64 (declaredAge (cacheControl response) * second) then
        env.storedAt + int64 (declaredAge (cacheControl response) * second) else 0 := by
    rw [entryFor, parseCacheControl_snd hallows]
  generalize declaredAge (cacheControl response) = age at hexpiry
  have hsecond : (0 : Int) < second := by decide
  have hunexpired : ∀ t, (entryFor response env).isExpired t = false ↔
      (entryFor response env).expiresAt = 0 ∨ t ≤ (entryFor response env).expiresAt := by
    intro t
    simp [CachedHTTPResponse.isExpired, Time.isZero, Time.after, or_iff_not_imp_left]
  constructor
  · intro hlasts
    obtain ⟨hage, hpos, hzero⟩ := hlasts
    refine ⟨hage, ?_⟩
    intro t ht
    rw [if_pos hpos] at hexpiry
    rw [hunexpired, hexpiry] at ht
    have hle := int64_le (Int.le_of_lt (Int.mul_pos hage hsecond))
    have ht' := ht.resolve_left hzero
    exact Int.le_trans ht' (Int.add_le_add_left hle _)
  · intro hboth
    obtain ⟨hage, hbound⟩ := hboth
    -- Without an expiry the entry is served after any time.
    have hnever : (entryFor response env).expiresAt ≠ 0 := by
      intro hnone
      have hlate := hbound (env.storedAt + age * second + 1) ((hunexpired _).mpr (Or.inl hnone))
      exact absurd (Int.lt_of_lt_of_le (Int.lt_succ _) hlate) (Int.lt_irrefl _)
    rw [hexpiry] at hnever
    by_cases hpos : 0 < int64 (age * second)
    · rw [if_pos hpos] at hnever
      exact ⟨hage, hpos, hnever⟩
    · rw [if_neg hpos] at hnever
      exact absurd rfl hnever

/-- In a fresh state every entry is bounded. -/
theorem Fresh.entry {s : Watched} (h : Fresh s) {u : String} {c : CachedHTTPResponse}
    (hc : s.proxy.store.entries.lookup u = some c) {t : Time} (ht : c.isExpired t = false) :
    ∃ response storedAt, s.kept u = some (response, storedAt) ∧
      Replays (serveCached c) response ∧
      t ≤ storedAt + declaredAge (cacheControl response) * second := by
  obtain ⟨hway, hanswer, hat⟩ := s.proxy.serveHTTP_unexpired ⟨"GET", u, .empty, []⟩
    ⟨⟨t, t⟩, ⟨t, t⟩, t, t, .unbuilt⟩ hc ht
  obtain ⟨response, storedAt, hkept, hreplays, hbound⟩ := h.bounded _ _ hway
  rw [hanswer] at hreplays
  rw [hat] at hbound
  exact ⟨response, storedAt, hkept, hreplays, hbound⟩

/-- A state is fresh if its entries are bounded. -/
theorem fresh_of_entries {s : Watched}
    (hbound : ∀ u c t, s.proxy.store.entries.lookup u = some c → c.isExpired t = false →
      ∃ response storedAt, s.kept u = some (response, storedAt) ∧
        Replays (serveCached c) response ∧
        t ≤ storedAt + declaredAge (cacheControl response) * second)
    (hpositive : ∀ u response storedAt, s.kept u = some (response, storedAt) →
      ∀ n, maxAge? (cacheControl response) = some n → 0 < n) : Fresh s where
  bounded := by
    intro r env hway
    obtain ⟨c, hc, hfresh, hanswer⟩ := Proxy.serveHTTP_stored hway
    rw [hanswer]
    exact hbound r.uri c _ hc hfresh
  positive := hpositive

theorem keeps_entryFor (response : Response) (env : Surroundings) :
    (entryFor response env).Keeps response := ⟨rfl, rfl, rfl⟩

/-- A request that stores nothing keeps a state fresh. -/
theorem fresh_serve_of_not_stores {s : Watched} {e : Request × Surroundings} (h : Fresh s)
    (hkept : (s.serve e).kept = s.kept)
    (hold : ∀ u c, (s.serve e).proxy.store.entries.lookup u = some c →
      s.proxy.store.entries.lookup u = some c) : Fresh (s.serve e) := by
  apply fresh_of_entries
  · intro u c t hc ht
    rw [hkept]
    exact h.entry (hold u c hc) ht
  · rw [hkept]
    exact h.positive

/-- **A request that stores a response** keeps a state fresh exactly if the response
lasts. -/
theorem fresh_serve_iff_lasts {s : Watched} {e : Request × Surroundings} (h : Fresh s)
    {response : Response} (hallows : Allows (cacheControl response))
    (hkept : (s.serve e).kept = Function.update s.kept e.1.uri (some (response, e.2.storedAt)))
    (hnew : (s.serve e).proxy.store.entries.lookup e.1.uri = some (entryFor response e.2))
    (hold : ∀ u c, u ≠ e.1.uri → (s.serve e).proxy.store.entries.lookup u = some c →
      s.proxy.store.entries.lookup u = some c) :
    Fresh (s.serve e) ↔ Lasts (declaredAge (cacheControl response)) e.2.storedAt := by
  have hself : (s.serve e).kept e.1.uri = some (response, e.2.storedAt) := by
    rw [hkept, Function.update_self]
  have hother : ∀ u, u ≠ e.1.uri → (s.serve e).kept u = s.kept u := by
    intro u hu
    rw [hkept, Function.update_of_ne hu]
  rw [lasts_iff hallows]
  constructor
  · intro hfresh
    constructor
    · cases hage : maxAge? (cacheControl response) with
      | none =>
          rw [declaredAge, hage]
          decide
      | some n =>
          rw [declaredAge, hage]
          exact hfresh.positive _ _ _ hself n hage
    · intro t ht
      obtain ⟨response', storedAt, hkept', _, hbound⟩ := hfresh.entry hnew ht
      cases hself.symm.trans hkept'
      exact hbound
  · intro hlasts
    obtain ⟨hage, hbound⟩ := hlasts
    apply fresh_of_entries
    · intro u c t hc ht
      by_cases hu : u = e.1.uri
      · subst hu
        cases hnew.symm.trans hc
        exact ⟨response, _, hself, replays_serveCached (keeps_entryFor _ _), hbound t ht⟩
      · rw [hother u hu]
        exact h.entry (hold u c hu hc) ht
    · intro u response' storedAt hkept' n hn
      by_cases hu : u = e.1.uri
      · subst hu
        cases hself.symm.trans hkept'
        rw [declaredAge, hn] at hage
        exact hage
      · rw [hother u hu] at hkept'
        exact h.positive u response' storedAt hkept' n hn

/-- **A store stays fresh exactly if what is stored lasts.** -/
theorem fresh_serve_iff {s : Watched} (h : Fresh s) (e : Request × Surroundings) :
    Fresh (s.serve e) ↔ Lasting s e := by
  rcases serve_cases s e with
    ⟨response, hstores, hkept, hnew, hold⟩ | ⟨hnot, hkept, hold⟩
  · rw [fresh_serve_iff_lasts h hstores.2.2.2.2 hkept hnew hold]
    constructor
    · intro hlasts response' hstores'
      cases hstores.2.1.symm.trans hstores'.2.1
      exact hlasts
    · intro hlasting
      exact hlasting response hstores
  · constructor
    · intro _ response hstores
      exact absurd hstores (hnot response)
    · intro _
      exact fresh_serve_of_not_stores h hkept hold

/-- An empty store is fresh. -/
theorem fresh_init (upstreamURL : String) : Fresh (.init upstreamURL) := by
  apply fresh_of_entries
  · intro u c t hc
    cases hc
  · intro u response storedAt hkept
    cases hkept

/-- **Freshness of the proxy.**  Throughout any sequence of requests the state is fresh
exactly if every response that is stored has an age that gives it an expiry. -/
theorem fresh_iff_lasting (upstreamURL : String) (reqs : List (Request × Surroundings)) :
    Throughout watchStep Fresh (.init upstreamURL) reqs ↔
      Along watchStep Lasting (.init upstreamURL) reqs := by
  refine throughout_iff_along (J := fun _ => True) (fun _ _ _ _ _ => trivial) ?_ trivial
    (fresh_init upstreamURL) (run_total (fun _ _ => rfl) _ reqs)
  intro s e s' _ hfresh hstep
  cases hstep
  exact fresh_serve_iff hfresh e

/-- A `GET` whose answer has this `Cache-Control` value, stored at 1 ns. -/
def agedGet (value : String) : Request × Surroundings :=
  ({ method := "GET", uri := "/products/1", header := .empty, body := [] },
    { lookup := ⟨1, 1⟩, stale := ⟨1, 1⟩, cachedAt := 1, storedAt := 1
      upstream := .sent [] (.complete
        ⟨200, Header.empty.set "Cache-Control" value, "old".toUTF8.data.toList⟩) })

/-- The proxy after it. -/
def agedState (value : String) : Watched := (Watched.init "http://api:8081").serve (agedGet value)

/-- The answer to the same request, long after. -/
def agedAnswer (value : String) : Served :=
  (agedState value).proxy.serveHTTP (agedGet value).1
    { (agedGet value).2 with lookup := ⟨10 ^ 19, 10 ^ 19⟩ }

/-- **A negative age, and an age that wraps around**: the response is stored without expiry,
and still served after more than three hundred years.  The second age is a little less. -/
theorem aged_served_forever :
    (maxAge? "max-age=-1" = some (-1) ∧ (agedAnswer "max-age=-1").way = .stored ∧
      (agedAnswer "max-age=-1").answer.body = "old".toUTF8.data.toList ∧
      ¬ Fresh (agedState "max-age=-1")) ∧
    (maxAge? "max-age=9223372037" = some 9223372037 ∧
      (agedAnswer "max-age=9223372037").way = .stored ∧
      (agedAnswer "max-age=9223372037").answer.body = "old".toUTF8.data.toList ∧
      ¬ Fresh (agedState "max-age=9223372037")) := by
  have hnegative : maxAge? "max-age=-1" = some (-1) := by decide
  have hwraps : maxAge? "max-age=9223372037" = some 9223372037 := by decide
  refine ⟨⟨hnegative, by decide, by decide, ?_⟩, hwraps, by decide, by decide, ?_⟩
  · intro hfresh
    have hpositive := hfresh.positive "/products/1" _ _ rfl (-1) hnegative
    omega
  · intro hfresh
    obtain ⟨response, storedAt, hkept, _, hbound⟩ := hfresh.bounded (agedGet "max-age=9223372037").1
      { (agedGet "max-age=9223372037").2 with lookup := ⟨10 ^ 19, 10 ^ 19⟩ } (by decide)
    cases hkept
    exact absurd hbound (by decide)

/-! ## Forbidden responses -/

/-- The name of a directive, in lower case. -/
def directiveName (part : Text) : Text := trimSpace ((toLower part).takeWhile (· ≠ '='))

/-- The value has a directive that forbids keeping the response. -/
def Forbids (value : String) : Prop :=
  ∃ part ∈ split value.toList ',', ∃ directive ∈ ["no-store", "no-cache", "private"],
    directiveName part = directive.toList

/-- Some `Cache-Control` value forbids it. -/
def Uncacheable (header : Header) : Prop := ∃ value ∈ header "Cache-Control", Forbids value

theorem infix_of_trimSpace (s : Text) : trimSpace s <:+: s := by
  have hright : ((s.dropWhile isSpace).reverse.dropWhile isSpace).reverse <+: s.dropWhile isSpace := by
    have hsuffix := List.dropWhile_suffix isSpace (l := (s.dropWhile isSpace).reverse)
    rw [← List.reverse_prefix, List.reverse_reverse] at hsuffix
    exact hsuffix
  exact hright.isInfix.trans (List.dropWhile_suffix isSpace).isInfix

/-- A part of a split text occurs in it. -/
theorem infix_of_mem_split {s part : Text} {sep : Char} (h : part ∈ split s sep) :
    part <:+: s := by
  have hmem : ∀ (parts : List Text) (x : Text), part ∈ parts → part ∈ parts.intersperse x := by
    intro parts x hpart
    induction parts with
    | nil => cases hpart
    | cons a parts ih =>
        cases parts with
        | nil => exact hpart
        | cons b parts =>
            rw [List.intersperse_cons_cons]
            rcases List.mem_cons.mp hpart with rfl | hpart
            · exact List.mem_cons_self
            · exact List.mem_cons_of_mem _ (List.mem_cons_of_mem _ (ih hpart))
  have hjoined : [sep].intercalate (s.splitOn sep) = s := List.intercalate_splitOn sep
  rw [← hjoined]
  exact List.infix_of_mem_flatten (hmem _ _ h)

/-- **A directive that forbids is found** in the value that has it. -/
theorem isBlocked_of_forbids {value : String} (h : Forbids value) : isBlocked value = true := by
  obtain ⟨part, hpart, directive, hdirective, hname⟩ := h
  have hinfix : directiveName part <:+: toLower value.toList := by
    refine (infix_of_trimSpace _).trans ((List.takeWhile_prefix _).isInfix.trans ?_)
    exact (infix_of_mem_split hpart).map lowerRune
  rw [hname] at hinfix
  exact List.any_eq_true.mpr ⟨directive, hdirective, decide_eq_true hinfix⟩

/-- **A forbidden response is not stored**: if some value of the upstream's response forbids
it, every entry after the request was there before it, the same. -/
def Unstored (s : Watched) (e : Request × Surroundings) : Prop :=
  ∀ response, e.2.upstream.response = some response → Uncacheable response.header →
    ∀ u c, (s.serve e).proxy.store.entries.lookup u = some c →
      s.proxy.store.entries.lookup u = some c

/-- **A discreet state**: every entry keeps the response stored last under its URI, which
does not forbid it, and whatever request comes next is answered from the store only with
such a response. -/
structure Discreet (s : Watched) : Prop where
  stored : ∀ u c, s.proxy.store.entries.lookup u = some c →
    ∃ response storedAt, s.kept u = some (response, storedAt) ∧ c.Keeps response ∧
      ¬ Uncacheable response.header
  replayed : ∀ r env, (s.proxy.serveHTTP r env).way = .stored →
    ∃ response storedAt, s.kept r.uri = some (response, storedAt) ∧
      Replays (s.proxy.serveHTTP r env).answer response ∧ ¬ Uncacheable response.header

/-- **A response that is forbidden after the first value** is not one that the first
value, or the status, lets be kept. -/
def Declared (s : Watched) (e : Request × Surroundings) : Prop :=
  ∀ response, s.proxy.holds e.1 e.2 = false → e.2.upstream.response = some response →
    (∃ value ∈ (response.header "Cache-Control").tail, Forbids value) → ¬ Keepable response

/-- The first value of a response that may be kept does not forbid it. -/
theorem uncacheable_iff_tail {response : Response} (h : Keepable response) :
    Uncacheable response.header ↔
      ∃ value ∈ (response.header "Cache-Control").tail, Forbids value := by
  have hallows := h.2.2.1
  rw [cacheControl, Header.get] at hallows
  unfold Uncacheable
  cases hvalues : response.header "Cache-Control" with
  | nil => simp
  | cons first rest =>
      rw [hvalues, List.headD_cons] at hallows
      have hfirst : ¬ Forbids first := by
        intro hforbids
        rw [isBlocked_of_forbids hforbids] at hallows
        cases hallows
      simp [hfirst]

/-- The answers are discreet if the entries are. -/
theorem discreet_of_stored {s : Watched}
    (h : ∀ u c, s.proxy.store.entries.lookup u = some c →
      ∃ response storedAt, s.kept u = some (response, storedAt) ∧ c.Keeps response ∧
        ¬ Uncacheable response.header) : Discreet s where
  stored := h
  replayed := by
    intro r env hway
    obtain ⟨c, hc, _, hanswer⟩ := Proxy.serveHTTP_stored hway
    obtain ⟨response, storedAt, hkept, hkeeps, hallowed⟩ := h r.uri c hc
    rw [hanswer]
    exact ⟨response, storedAt, hkept, replays_serveCached hkeeps, hallowed⟩

/-- A request keeps a state discreet exactly if its response is declared. -/
theorem discreet_serve_iff {s : Watched} (h : Discreet s) (e : Request × Surroundings) :
    Discreet (s.serve e) ↔ Declared s e := by
  rcases serve_cases s e with
    ⟨response, ⟨hmiss, hresponse, hkeep⟩, hkept, hnew, hold⟩ | ⟨hnot, hkept, hold⟩
  · have hiff := uncacheable_iff_tail hkeep
    have hself : (s.serve e).kept e.1.uri = some (response, e.2.storedAt) := by
      rw [hkept, Function.update_self]
    constructor
    · intro hdiscreet response' _ hresponse' hforbids _
      cases hresponse.symm.trans hresponse'
      obtain ⟨noted, storedAt, hnoted, _, hallowed⟩ := hdiscreet.stored _ _ hnew
      cases hself.symm.trans hnoted
      exact hallowed (hiff.mpr hforbids)
    · intro hdeclared
      apply discreet_of_stored
      intro u c hc
      by_cases hu : u = e.1.uri
      · subst hu
        cases hnew.symm.trans hc
        refine ⟨response, e.2.storedAt, hself, keeps_entryFor response e.2, ?_⟩
        intro huncacheable
        exact hdeclared response hmiss hresponse (hiff.mp huncacheable) hkeep
      · rw [hkept, Function.update_of_ne hu]
        exact h.stored u c (hold u c hu hc)
  · constructor
    · intro _ response hmiss hresponse _ hkeep
      exact hnot response ⟨hmiss, hresponse, hkeep⟩
    · intro _
      apply discreet_of_stored
      intro u c hc
      rw [hkept]
      exact h.stored u c (hold u c hc)

/-- A declared response that is stored does not forbid it, so a forbidden one is not
stored. -/
theorem unstored_of_declared {s : Watched} {e : Request × Surroundings} (h : Declared s e) :
    Unstored s e := by
  intro response hresponse huncacheable u c hc
  rcases serve_cases s e with
    ⟨stored, ⟨hmiss, hstored, hkeep⟩, _, _, _⟩ | ⟨_, _, hold⟩
  · cases hresponse.symm.trans hstored
    exact absurd hkeep (h response hmiss hresponse ((uncacheable_iff_tail hkeep).mp huncacheable))
  · exact hold u c hc

/-- **Forbidden responses.**  In any sequence of requests no response that a
`Cache-Control` value forbids to keep adds or replaces an entry, and none is stored or
replayed in any state, exactly if every response that is forbidden after its first value is
not to be kept by the first value or its status either. -/
theorem discreet_iff_declared (upstreamURL : String) (reqs : List (Request × Surroundings)) :
    (Along watchStep Unstored (.init upstreamURL) reqs ∧
        Throughout watchStep Discreet (.init upstreamURL) reqs) ↔
      Along watchStep Declared (.init upstreamURL) reqs := by
  have hinit : Discreet (.init upstreamURL) := by
    apply discreet_of_stored
    intro u c hc
    cases hc
  have hiff : Throughout watchStep Discreet (.init upstreamURL) reqs ↔
      Along watchStep Declared (.init upstreamURL) reqs := by
    refine throughout_iff_along (J := fun _ => True) (fun _ _ _ _ _ => trivial) ?_ trivial
      hinit (run_total (fun _ _ => rfl) _ reqs)
    intro s e s' _ hdiscreet hstep
    cases hstep
    exact discreet_serve_iff hdiscreet e
  constructor
  · intro hboth
    exact hiff.mp hboth.2
  · intro hdeclared
    exact ⟨hdeclared.mono fun _ _ => unstored_of_declared, hiff.mpr hdeclared⟩

/-- A response with two `Cache-Control` values, the second of which forbids storing. -/
def forbiddenSecond : Request × Surroundings :=
  ({ method := "GET", uri := "/products/1", header := .empty, body := [] },
    { lookup := ⟨1, 1⟩, stale := ⟨1, 1⟩, cachedAt := 1, storedAt := 1
      upstream := .sent [] (.complete
        ⟨200, fun name => if name = "Cache-Control" then ["max-age=60", "no-store"] else [],
          "secret".toUTF8.data.toList⟩) })

/-- It is stored, and replayed to the next request. -/
theorem forbiddenSecond_replayed :
    let s := (Watched.init "http://api:8081").serve forbiddenSecond
    Forbids "no-store" ∧ (s.proxy.serveHTTP forbiddenSecond.1 forbiddenSecond.2).way = .stored ∧
      (s.proxy.serveHTTP forbiddenSecond.1 forbiddenSecond.2).answer.body =
        "secret".toUTF8.data.toList ∧
      ¬ Unstored (.init "http://api:8081") forbiddenSecond ∧ ¬ Discreet s := by
  intro s
  have hforbids : Forbids "no-store" :=
    ⟨"no-store".toList, by decide, "no-store", by decide, by decide⟩
  refine ⟨hforbids, by decide, by decide, ?_, ?_⟩
  · intro hunstored
    have hold := hunstored _ rfl ⟨"no-store", by decide, hforbids⟩ "/products/1" _ rfl
    cases hold
  · intro hdiscreet
    obtain ⟨response, storedAt, hkept, _, hallowed⟩ := hdiscreet.stored "/products/1" _ rfl
    cases hkept
    exact hallowed ⟨"no-store", by decide, hforbids⟩

end Http
