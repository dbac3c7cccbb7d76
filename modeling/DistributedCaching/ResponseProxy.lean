import Mathlib.Logic.Function.Basic
import DistributedCaching.GoRuntime
import DistributedCaching.GoText

/-!
# The caching reverse proxy

`Proxy` of package `proxy`: `ServeHTTP` answers from a store of responses keyed by
the request URI, or forwards the request to the upstream and keeps what the
`Cache-Control` header allows.

The HTTP client is a parameter of a request.  It follows redirects, so that more
than one request may be sent, and the response it returns is the one to the last of
them; it may fail, and reading the body may fail.

Header fields are functions from their canonical names to their values.
-/

namespace Http

open Go

/-! ## Responses and requests -/

/-- `http.Header`: the values of each field. -/
abbrev Header := String → List String

namespace Header

def empty : Header := fun _ => []

/-- `Get`: the first value. -/
def get (h : Header) (name : String) : String := (h name).headD ""

/-- `Set`. -/
def set (h : Header) (name value : String) : Header := Function.update h name [value]

end Header

/-- Every value of `src` is added to `dst`. -/
def copyHeaders (dst src : Header) : Header := fun name => dst name ++ src name

structure Response where
  statusCode : Nat
  header : Header
  body : Bytes

/-- `http.Error`. -/
def httpError (message : String) (code : Nat) : Response where
  statusCode := code
  header := (Header.empty.set "Content-Type" "text/plain; charset=utf-8").set
    "X-Content-Type-Options" "nosniff"
  body := (message ++ "\n").toUTF8.data.toList

structure Request where
  method : String
  /-- `r.URL.RequestURI()`. -/
  uri : String
  header : Header
  body : Bytes

/-- A request that the client sends. -/
structure Outgoing where
  method : String
  url : String
  header : Header
  body : Bytes

/-! ## The store -/

structure CachedHTTPResponse where
  statusCode : Nat
  headers : Header
  body : Bytes
  cachedAt : Time
  /-- The zero time means no expiry. -/
  expiresAt : Time

def CachedHTTPResponse.isExpired (r : CachedHTTPResponse) (now : Time) : Bool :=
  !r.expiresAt.isZero && now.after r.expiresAt

structure ResponseStore where
  entries : GoMap String CachedHTTPResponse

/-- The clock readings of a lookup: for the expiry check, and for the second check. -/
structure LookupClock where
  check : Time
  recheck : Time

namespace ResponseStore

def new : ResponseStore := ⟨∅⟩

/-- `Get` without interference. -/
def get (s : ResponseStore) (urlKey : String) (t : LookupClock) :
    Option CachedHTTPResponse × ResponseStore :=
  match s.entries.lookup urlKey with
  | none => (none, s)
  | some entry =>
      if entry.isExpired t.check then
        if entry.isExpired t.recheck then (none, ⟨s.entries.erase urlKey⟩) else (none, s)
      else (some entry, s)

def set (s : ResponseStore) (urlKey : String) (resp : CachedHTTPResponse) : ResponseStore :=
  ⟨s.entries.insert urlKey resp⟩

end ResponseStore

/-! ## Cache-Control -/

def defaultCacheTTL : Duration := 5 * minute

/-- The loop over the directives, for `max-age`. -/
def parseMaxAge : List Text → Bool × Duration
  | [] => (true, defaultCacheTTL)
  | part :: parts =>
      let part := toLower (trimSpace part)
      if startsWith part "max-age=".toList then
        match atoi (trimSpace (part.drop "max-age=".length)) with
        | none => parseMaxAge parts
        | some n => if n = 0 then (false, 0) else (true, int64 (n * second))
      else parseMaxAge parts

/-- Whether to cache, and for how long. -/
def parseCacheControl (header : String) : Bool × Duration :=
  if header = "" then (true, defaultCacheTTL)
  else if ["no-store", "no-cache", "private"].any fun directive =>
      contains (toLower header.toList) directive.toList then (false, 0)
  else parseMaxAge (split header.toList ',')

/-! ## Serving -/

structure Proxy where
  store : ResponseStore
  upstreamURL : String

def newProxy (upstreamURL : String) : Proxy where
  store := .new
  upstreamURL := .ofList (trimRight upstreamURL.toList '/')

/-- What becomes of a request that was sent. -/
inductive Reply
  /-- `client.Do` returns an error. -/
  | failed
  /-- The body cannot be read. -/
  | truncated
  | complete (response : Response)

/-- What the client does for a request. -/
inductive Upstream
  /-- The request cannot be built, and nothing is sent. -/
  | unbuilt
  /-- The request is sent, then the requests that redirects ask for. -/
  | sent (redirects : List Outgoing) (reply : Reply)

/-- What `ServeHTTP` takes from outside: the clock readings of its two lookups and of
its store, and what the client does. -/
structure Surroundings where
  lookup : LookupClock
  stale : LookupClock
  cachedAt : Time
  storedAt : Time
  upstream : Upstream

/-- How a request was answered. -/
inductive Way
  /-- From the store. -/
  | stored
  | unavailable
  | unreadable
  /-- With the response of the upstream, which was kept or not. -/
  | relayed (kept : Bool)
  deriving DecidableEq, Repr

/-- What `ServeHTTP` does: the answer, how it came about, the requests that were
sent, and the store. -/
structure Served where
  answer : Response
  way : Way
  sent : List Outgoing
  store : ResponseStore

/-- `serveCached`. -/
def serveCached (cached : CachedHTTPResponse) : Response where
  statusCode := cached.statusCode
  header := (copyHeaders .empty cached.headers).set "X-Proxy-Cache" "HIT"
  body := cached.body

namespace Proxy

/-- The request that `forwardToUpstream` builds. -/
def forwardToUpstream (p : Proxy) (r : Request) : Outgoing where
  method := r.method
  url := p.upstreamURL ++ r.uri
  header := copyHeaders .empty r.header
  body := r.body

/-- Step 2, when the client returns an error: serve what is in the store after all. -/
def serveStale (store : ResponseStore) (r : Request) (env : Surroundings)
    (sent : List Outgoing) : Served :=
  match store.get r.uri env.stale with
  | (some stale, store) =>
      { answer := serveCached stale, way := .stored, sent := sent, store := store }
  | (none, store) =>
      { answer := httpError "upstream unavailable and no cached response available" 503
        way := .unavailable, sent := sent, store := store }

/-- Steps 4 and 5: keep the response if that is allowed, and pass it on. -/
def relay (store : ResponseStore) (r : Request) (env : Surroundings) (sent : List Outgoing)
    (response : Response) : Served :=
  let control := parseCacheControl (response.header.get "Cache-Control")
  let kept := control.1 && 200 ≤ response.statusCode && response.statusCode < 300
  let cached : CachedHTTPResponse :=
    { statusCode := response.statusCode
      headers := response.header
      body := response.body
      cachedAt := env.cachedAt
      expiresAt := if 0 < control.2 then env.storedAt + control.2 else 0 }
  { answer := { response with header := copyHeaders .empty response.header }
    way := .relayed kept
    sent := sent
    store := if kept then store.set r.uri cached else store }

def serveHTTP (p : Proxy) (r : Request) (env : Surroundings) : Served :=
  match p.store.get r.uri env.lookup with
  | (some cached, store) =>
      { answer := serveCached cached, way := .stored, sent := [], store := store }
  | (none, store) =>
      match env.upstream with
      | .unbuilt => serveStale store r env []
      | .sent redirects .failed => serveStale store r env (p.forwardToUpstream r :: redirects)
      | .sent redirects .truncated =>
          { answer := httpError "failed to read upstream response" 502, way := .unreadable
            sent := p.forwardToUpstream r :: redirects, store := store }
      | .sent redirects (.complete response) =>
          relay store r env (p.forwardToUpstream r :: redirects) response

end Proxy

/-! ## What the functions do -/

/-- A hit returns what is stored. -/
theorem get_hit {s s' : ResponseStore} {key : String} {t : LookupClock} {c : CachedHTTPResponse}
    (h : s.get key t = (some c, s')) : s.entries.lookup key = some c := by
  unfold ResponseStore.get at h
  split at h
  · cases h
  · rename_i entry hentry
    split at h
    · split at h <;> cases h
    · cases h
      exact hentry

/-- A lookup stores nothing. -/
theorem lookup_get {s s' : ResponseStore} {key k : String} {t : LookupClock}
    {found : Option CachedHTTPResponse} {c : CachedHTTPResponse} (h : s.get key t = (found, s'))
    (hc : s'.entries.lookup k = some c) : s.entries.lookup k = some c := by
  unfold ResponseStore.get at h
  split at h
  · cases h
    exact hc
  · split at h
    · split at h
      · cases h
        by_cases hk : k = key
        · subst hk
          rw [AList.lookup_erase] at hc
          cases hc
        · rwa [AList.lookup_erase_ne hk] at hc
      · cases h
        exact hc
    · cases h
      exact hc

/-- The response is what was kept. -/
def CachedHTTPResponse.Keeps (c : CachedHTTPResponse) (response : Response) : Prop :=
  c.statusCode = response.statusCode ∧ c.headers = response.header ∧ c.body = response.body

/-- The response that the client returned and that could be read. -/
def Upstream.response : Upstream → Option Response
  | .sent _ (.complete response) => some response
  | _ => none

/-- An upstream with a response has sent it whole. -/
theorem Upstream.response_eq_some {u : Upstream} {response : Response}
    (h : u.response = some response) : ∃ redirects, u = .sent redirects (.complete response) := by
  cases u with
  | unbuilt => cases h
  | sent redirects reply =>
      cases reply with
      | failed => cases h
      | truncated => cases h
      | complete other =>
          cases h
          exact ⟨redirects, rfl⟩

/-- All requests that are sent for a request. -/
def Upstream.sentFor (own : Outgoing) : Upstream → List Outgoing
  | .unbuilt => []
  | .sent redirects _ => own :: redirects

namespace Proxy

variable {p : Proxy} {r : Request} {env : Surroundings}

/-- The store has a response for the URI that has not expired, at the first lookup, or
at the second one if the client fails. -/
def holds (p : Proxy) (r : Request) (env : Surroundings) : Bool :=
  let first := p.store.get r.uri env.lookup
  first.1.isSome ||
    match env.upstream with
    | .unbuilt => (first.2.get r.uri env.stale).1.isSome
    | .sent _ .failed => (first.2.get r.uri env.stale).1.isSome
    | _ => false

/-- **The paths of `ServeHTTP`**, each with what it says about the store and the
upstream. -/
inductive Serves (p : Proxy) (r : Request) (env : Surroundings) : Served → Prop
  | hit {cached : CachedHTTPResponse} {store : ResponseStore}
      (hget : p.store.get r.uri env.lookup = (some cached, store))
      (hholds : p.holds r env = true) :
      Serves p r env { answer := serveCached cached, way := .stored, sent := [], store := store }
  /-- No request can be built, or the client returns an error. -/
  | failed {store : ResponseStore} (hget : p.store.get r.uri env.lookup = (none, store))
      (hholds : p.holds r env = (store.get r.uri env.stale).1.isSome)
      (hresponse : env.upstream.response = none) :
      Serves p r env (serveStale store r env (env.upstream.sentFor (p.forwardToUpstream r)))
  | truncated {store : ResponseStore} (hget : p.store.get r.uri env.lookup = (none, store))
      (hholds : p.holds r env = false) (hresponse : env.upstream.response = none) :
      Serves p r env
        { answer := httpError "failed to read upstream response" 502, way := .unreadable
          sent := env.upstream.sentFor (p.forwardToUpstream r), store := store }
  | complete {store : ResponseStore} {response : Response}
      (hget : p.store.get r.uri env.lookup = (none, store)) (hholds : p.holds r env = false)
      (hresponse : env.upstream.response = some response) :
      Serves p r env
        (relay store r env (env.upstream.sentFor (p.forwardToUpstream r)) response)

/-- **`ServeHTTP` takes one of its paths.** -/
theorem serves_serveHTTP (p : Proxy) (r : Request) (env : Surroundings) :
    Serves p r env (p.serveHTTP r env) := by
  unfold serveHTTP
  cases hget : p.store.get r.uri env.lookup with
  | mk found store =>
      cases found with
      | some cached => exact .hit hget (by simp [holds, hget])
      | none =>
          cases hup : env.upstream with
          | unbuilt =>
              have h := Serves.failed hget (by simp [holds, hget, hup])
                (show env.upstream.response = none by rw [hup]; rfl)
              rw [hup] at h
              exact h
          | sent redirects reply =>
              cases reply with
              | failed =>
                  have h := Serves.failed hget (by simp [holds, hget, hup])
                    (show env.upstream.response = none by rw [hup]; rfl)
                  rw [hup] at h
                  exact h
              | truncated =>
                  have h := Serves.truncated hget (by simp [holds, hget, hup])
                    (show env.upstream.response = none by rw [hup]; rfl)
                  rw [hup] at h
                  exact h
              | complete response =>
                  have h := Serves.complete hget (by simp [holds, hget, hup])
                    (show env.upstream.response = some response by rw [hup]; rfl)
                  rw [hup] at h
                  exact h

/-- The second lookup answers from the store, or not at all. -/
theorem serveStale_cases {store : ResponseStore} (r : Request) (env : Surroundings)
    (sent : List Outgoing)
    (hstore : ∀ u c, store.entries.lookup u = some c → p.store.entries.lookup u = some c) :
    ((store.get r.uri env.stale).1.isSome = true ∧ (serveStale store r env sent).way = .stored ∧
      ∃ c, p.store.entries.lookup r.uri = some c ∧
        (serveStale store r env sent).answer = serveCached c) ∨
    ((store.get r.uri env.stale).1.isSome = false ∧
      (serveStale store r env sent).way = .unavailable ∧
      (serveStale store r env sent).sent = sent) := by
  unfold serveStale
  split
  · rename_i c store' hget
    exact Or.inl ⟨by rw [hget]; rfl, rfl, c, hstore _ _ (get_hit hget), rfl⟩
  · rename_i store' hget
    exact Or.inr ⟨by rw [hget]; rfl, rfl, rfl⟩

/-- A request is answered from the store if the store holds a response for it, and
otherwise by the upstream if it produces one. -/
theorem serveHTTP_cases (p : Proxy) (r : Request) (env : Surroundings) :
    (p.holds r env = true ∧ (p.serveHTTP r env).way = .stored ∧
      ∃ c, p.store.entries.lookup r.uri = some c ∧
        (p.serveHTTP r env).answer = serveCached c) ∨
    (p.holds r env = false ∧ (p.serveHTTP r env).way ≠ .stored ∧
      (p.serveHTTP r env).sent = env.upstream.sentFor (p.forwardToUpstream r) ∧
      ∀ response, env.upstream.response = some response →
        (p.serveHTTP r env).answer = response) := by
  have hserves := p.serves_serveHTTP r env
  generalize p.serveHTTP r env = served at hserves ⊢
  cases hserves with
  | hit hget hholds => exact Or.inl ⟨hholds, rfl, _, get_hit hget, rfl⟩
  | @failed store hget hholds hresponse =>
      have hstore : ∀ u c, store.entries.lookup u = some c →
          p.store.entries.lookup u = some c := fun u c => lookup_get hget
      rw [hholds, hresponse]
      rcases serveStale_cases r env (env.upstream.sentFor (p.forwardToUpstream r)) hstore with
        hhit | ⟨hmiss, hway, hsent⟩
      · exact Or.inl hhit
      · exact Or.inr ⟨hmiss, by simp [hway], hsent, by simp⟩
  | truncated hget hholds hresponse => exact Or.inr ⟨hholds, by simp, rfl, by simp [hresponse]⟩
  | complete hget hholds hresponse =>
      refine Or.inr ⟨hholds, by simp [relay], rfl, ?_⟩
      intro response' h
      cases hresponse.symm.trans h
      rfl

/-- A stale answer stores nothing. -/
theorem lookup_serveStale {store : ResponseStore} {sent : List Outgoing} {u : String}
    {c : CachedHTTPResponse}
    (h : (serveStale store r env sent).store.entries.lookup u = some c) :
    store.entries.lookup u = some c ∧ (serveStale store r env sent).way ≠ .relayed true := by
  unfold serveStale at h ⊢
  split
  · rename_i stale store' hget
    rw [hget] at h
    exact ⟨lookup_get hget h, by simp⟩
  · rename_i store' hget
    rw [hget] at h
    exact ⟨lookup_get hget h, by simp⟩

/-- A relayed response is stored under its own URI only, and only if it is a success. -/
theorem lookup_relay {store : ResponseStore} {sent : List Outgoing} {response : Response}
    {u : String} {c : CachedHTTPResponse}
    (h : (relay store r env sent response).store.entries.lookup u = some c) :
    (store.entries.lookup u = some c ∧
      ((relay store r env sent response).way = .relayed true → u ≠ r.uri)) ∨
    (u = r.uri ∧ (relay store r env sent response).way = .relayed true ∧
      200 ≤ response.statusCode ∧ response.statusCode < 300 ∧ c.Keeps response) := by
  simp only [relay] at h ⊢
  split at h
  · rename_i hkept
    by_cases hu : u = r.uri
    · subst hu
      rw [ResponseStore.set, AList.lookup_insert] at h
      cases h
      simp only [Bool.and_eq_true, decide_eq_true_eq] at hkept
      exact Or.inr ⟨rfl, by simp [hkept], hkept.1.2, hkept.2, rfl, rfl, rfl⟩
    · rw [ResponseStore.set, AList.lookup_insert_ne hu] at h
      exact Or.inl ⟨h, fun _ => hu⟩
  · rename_i hnot
    exact Or.inl ⟨h, fun hway => absurd (Way.relayed.inj hway) hnot⟩

/-- What is in the store afterwards was there before, or is the response that was
kept. -/
theorem lookup_serveHTTP {u : String} {c : CachedHTTPResponse}
    (h : (p.serveHTTP r env).store.entries.lookup u = some c) :
    (p.store.entries.lookup u = some c ∧ ((p.serveHTTP r env).way = .relayed true → u ≠ r.uri)) ∨
    (u = r.uri ∧ (p.serveHTTP r env).way = .relayed true ∧
      ∃ response, env.upstream.response = some response ∧ 200 ≤ response.statusCode ∧
        response.statusCode < 300 ∧ c.Keeps response) := by
  have hserves := p.serves_serveHTTP r env
  generalize p.serveHTTP r env = served at hserves h ⊢
  cases hserves with
  | hit hget hholds => exact Or.inl ⟨lookup_get hget h, by simp⟩
  | failed hget hholds hresponse =>
      obtain ⟨hold, hway⟩ := lookup_serveStale h
      exact Or.inl ⟨lookup_get hget hold, fun hkept => absurd hkept hway⟩
  | truncated hget hholds hresponse => exact Or.inl ⟨lookup_get hget h, by simp⟩
  | complete hget hholds hresponse =>
      rcases lookup_relay h with ⟨hold, hway⟩ | ⟨hu, hway, hok, hlt, hkeeps⟩
      · exact Or.inl ⟨lookup_get hget hold, hway⟩
      · exact Or.inr ⟨hu, hway, _, hresponse, hok, hlt, hkeeps⟩

end Proxy

end Http
