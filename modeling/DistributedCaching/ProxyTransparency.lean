import DistributedCaching.ResponseProxy
import DistributedCaching.TransitionRuns

/-!
# When the proxy is transparent

Requests of any methods and URIs are served one after the other, with any clock
readings and any behaviour of the upstream.  The state notes every exchange: what
was asked, what was sent to the upstream, what it produced, and, for an answer from
the store, the exchange that the stored response is from.

The store is keyed by the URI alone and is asked before the method is looked at, and
the client follows redirects.  `transparent_iff_proper` says what this costs: all
exchanges are as a client expects them exactly when each request that is answered
from the store is a `GET` or a `HEAD` that finds the response to a request of its
own method, and each request that is forwarded is not sent elsewhere by a redirect.
-/

namespace Http

open Go TransitionRuns

/-- The method and the URL of a request that was sent. -/
def Outgoing.target (o : Outgoing) : String × String := (o.method, o.url)

structure Exchange where
  request : Request
  /-- The request as it is to be forwarded. -/
  own : Outgoing
  sent : List Outgoing
  /-- What the upstream produced, for the last request that was sent. -/
  produced : Option Response
  answer : Response
  /-- For an answer from the store, the exchange that the response is from. -/
  source : Option Nat

/-- What the upstream was asked last. -/
def Exchange.target (x : Exchange) : Option (String × String) :=
  x.sent.getLast?.map Outgoing.target

/-- A proxy and its exchanges; `origin` notes for each URI the exchange that the
stored response is from. -/
structure History where
  proxy : Proxy
  log : List Exchange
  origin : String → Nat

namespace History

def init (upstreamURL : String) : History where
  proxy := newProxy upstreamURL
  log := []
  origin _ := 0

/-- The next exchange. -/
def exchange (s : History) (r : Request) (env : Surroundings) : Exchange :=
  let served := s.proxy.serveHTTP r env
  { request := r
    own := s.proxy.forwardToUpstream r
    sent := served.sent
    produced := if served.way = .stored then none else env.upstream.response
    answer := served.answer
    source := if served.way = .stored then some (s.origin r.uri) else none }

/-- The history after one more request. -/
def serve (s : History) (e : Request × Surroundings) : History :=
  let served := s.proxy.serveHTTP e.1 e.2
  { proxy := { s.proxy with store := served.store }
    log := s.log ++ [s.exchange e.1 e.2]
    origin :=
      if served.way = .relayed true then Function.update s.origin e.1.uri s.log.length
      else s.origin }

end History

def historyStep (s : History) (e : Request × Surroundings) : Option History := some (s.serve e)

/-! ## The property and the condition -/

/-- The methods whose answers may come from the store. -/
def IsRead (method : String) : Prop := method = "GET" ∨ method = "HEAD"

/-- The answer replays the response: it has the same status, the same body and, but for
the mark of the proxy, the same header. -/
def Replays (answer response : Response) : Prop :=
  answer.statusCode = response.statusCode ∧ answer.body = response.body ∧
    ∀ name, name ≠ "X-Proxy-Cache" → answer.header name = response.header name

/-- What was kept of a response replays it. -/
theorem replays_serveCached {c : CachedHTTPResponse} {response : Response}
    (h : c.Keeps response) : Replays (serveCached c) response := by
  obtain ⟨hstatus, hheaders, hbody⟩ := h
  refine ⟨hstatus, hbody, ?_⟩
  intro name hname
  rw [← hheaders]
  exact Function.update_of_ne hname _ _

/-- **What a client expects** of an exchange, given the earlier ones. -/
structure Transparent (earlier : List Exchange) (x : Exchange) : Prop where
  /-- A request that is no read is forwarded once and answered by the upstream. -/
  forwarded : ¬ IsRead x.request.method → x.sent = [x.own] ∧ x.source = none ∧
    ∀ response, x.produced = some response → x.answer = response
  /-- A `GET` that is answered from the store replays a success of an earlier `GET` of
  its URI. -/
  replayed : x.request.method = "GET" → ∀ j, x.source = some j →
    ∃ y response, earlier[j]? = some y ∧ y.request.method = "GET" ∧
      y.request.uri = x.request.uri ∧ y.produced = some response ∧
      200 ≤ response.statusCode ∧ response.statusCode < 300 ∧ Replays x.answer response
  /-- An answer from the store was produced for the method and URL of the request. -/
  stored : ∀ j, x.source = some j →
    ∃ y, earlier[j]? = some y ∧ y.target = some x.own.target
  /-- So was an answer from the upstream. -/
  produced : x.source = none → ∀ response, x.produced = some response →
    x.target = some x.own.target

/-- Every exchange is transparent. -/
def AllTransparent (s : History) : Prop :=
  ∀ i x, s.log[i]? = some x → Transparent (s.log.take i) x

/-- The request is sent, and no redirect is followed. -/
def Upstream.isDirect : Upstream → Bool
  | .sent [] _ => true
  | _ => false

/-- A response that is returned is for the request itself. -/
def Upstream.EndsAt (u : Upstream) (own : Outgoing) : Prop :=
  match u with
  | .sent redirects (.complete _) => (redirects.getLastD own).target = own.target
  | _ => True

/-- **A proper request.**  If the store has a response for its URI, the request is a
`GET` or a `HEAD` and the response is from a request of the same method; otherwise
no redirect is followed, unless the request is a `GET` or a `HEAD` and the redirects
lead back to it. -/
def Proper (s : History) (e : Request × Surroundings) : Prop :=
  if s.proxy.holds e.1 e.2 then
    IsRead e.1.method ∧
      (s.log[s.origin e.1.uri]?).map (fun y => y.request.method) = some e.1.method
  else
    e.2.upstream.isDirect = true ∨
      IsRead e.1.method ∧ e.2.upstream.EndsAt (s.proxy.forwardToUpstream e.1)

/-! ## The invariant -/

/-- What is in the store is a success of the exchange that is noted for it, which was
forwarded. -/
structure Kept (s : History) : Prop where
  own : ∀ x ∈ s.log, x.own = s.proxy.forwardToUpstream x.request
  stored : ∀ u c, s.proxy.store.entries.lookup u = some c →
    ∃ y response, s.log[s.origin u]? = some y ∧ y.request.uri = u ∧ y.source = none ∧
      y.produced = some response ∧ 200 ≤ response.statusCode ∧ response.statusCode < 300 ∧
      c.Keeps response

theorem kept_init (upstreamURL : String) : Kept (.init upstreamURL) where
  own x hx := by cases hx
  stored u c hc := by cases hc

/-- **Every request keeps the store as noted**, whatever path it takes. -/
theorem kept_serve {s : History} (h : Kept s) (e : Request × Surroundings) :
    Kept (s.serve e) := by
  constructor
  · intro x hx
    rcases List.mem_append.mp hx with hold | hnew
    · exact h.own x hold
    · rw [List.mem_singleton.mp hnew]
      rfl
  · intro u c hc
    rcases Proxy.lookup_serveHTTP hc with ⟨hold, hother⟩ | ⟨rfl, hway, response, hresponse, hrest⟩
    · obtain ⟨y, response, hy, hrest⟩ := h.stored u c hold
      have horigin : (s.serve e).origin u = s.origin u := by
        simp only [History.serve]
        split
        · rename_i hkept
          exact Function.update_of_ne (hother hkept) _ _
        · rfl
      refine ⟨y, response, ?_, hrest⟩
      rw [horigin]
      exact List.getElem?_append_left (List.getElem?_eq_some_iff.mp hy).1 ▸ hy
    · refine ⟨s.exchange e.1 e.2, response, ?_, rfl, ?_, ?_, hrest⟩
      · simp [History.serve, hway]
      · simp [History.exchange, hway]
      · simp [History.exchange, hway, hresponse]

/-- The exchanges are transparent if the earlier ones and the last one are. -/
theorem allTransparent_serve {s : History} {e : Request × Surroundings} :
    AllTransparent (s.serve e) ↔
      AllTransparent s ∧ Transparent s.log (s.exchange e.1 e.2) := by
  constructor
  · intro h
    constructor
    · intro i x hx
      have hlt := (List.getElem?_eq_some_iff.mp hx).1
      have hlog := h i x (by simp [History.serve, List.getElem?_append_left hlt, hx])
      rwa [History.serve, List.take_append_of_le_length (by omega)] at hlog
    · have hlast := h s.log.length (s.exchange e.1 e.2) (by simp [History.serve])
      simpa [History.serve] using hlast
  · intro hboth i x hx
    obtain ⟨hall, hlast⟩ := hboth
    by_cases hlt : i < s.log.length
    · simp only [History.serve, List.getElem?_append_left hlt] at hx
      rw [History.serve, List.take_append_of_le_length (by omega)]
      exact hall i x hx
    · have hi : i = s.log.length := by
        have hbound := (List.getElem?_eq_some_iff.mp hx).1
        simp only [History.serve, List.length_append, List.length_singleton] at hbound
        omega
      subst hi
      simp only [History.serve, List.getElem?_concat_length, Option.some.injEq] at hx
      subst hx
      simpa [History.serve] using hlast

section Requests

variable {s : History} {r : Request} {env : Surroundings}

/-- In transparent exchanges, a response that was produced for a URI was produced for
the method of another request of that URI if the methods are the same. -/
theorem target_eq_iff (h : Kept s) (hall : AllTransparent s) {j : Nat} {y : Exchange}
    {response : Response} (hy : s.log[j]? = some y) (huri : y.request.uri = r.uri)
    (hsource : y.source = none) (hproduced : y.produced = some response) :
    y.target = some (s.proxy.forwardToUpstream r).target ↔ y.request.method = r.method := by
  have hown := (hall j y hy).produced hsource response hproduced
  rw [hown, h.own y (List.mem_of_getElem? hy)]
  simp [Outgoing.target, Proxy.forwardToUpstream, huri]

/-- An answer from the store. -/
theorem transparent_stored_iff (h : Kept s) (hall : AllTransparent s) {c : CachedHTTPResponse}
    (hway : (s.proxy.serveHTTP r env).way = .stored)
    (hc : s.proxy.store.entries.lookup r.uri = some c)
    (hanswer : (s.proxy.serveHTTP r env).answer = serveCached c) :
    Transparent s.log (s.exchange r env) ↔
      IsRead r.method ∧
        (s.log[s.origin r.uri]?).map (fun y => y.request.method) = some r.method := by
  have hsource : (s.exchange r env).source = some (s.origin r.uri) := by
    simp [History.exchange, hway]
  obtain ⟨y, response, hy, huri, hysource, hproduced, hok, hlt, hkeeps⟩ := h.stored r.uri c hc
  have htarget := target_eq_iff h hall hy huri hysource hproduced
  constructor
  · intro htransparent
    constructor
    · -- An answer from the store was not forwarded.
      by_contra hread
      have hnone := (htransparent.forwarded hread).2.1
      rw [hsource] at hnone
      cases hnone
    · obtain ⟨y', hy', hfor⟩ := htransparent.stored _ hsource
      cases hy.symm.trans hy'
      rw [hy, Option.map_some, htarget.mp hfor]
  · intro hboth
    obtain ⟨hread, hmethod⟩ := hboth
    rw [hy, Option.map_some, Option.some.injEq] at hmethod
    refine ⟨fun hnot => absurd hread hnot, ?_, ?_, ?_⟩
    · intro hget j hj
      cases hsource.symm.trans hj
      refine ⟨y, response, hy, hmethod.trans hget, huri, hproduced, hok, hlt, ?_⟩
      show Replays (s.proxy.serveHTTP r env).answer response
      rw [hanswer]
      exact replays_serveCached hkeeps
    · intro j hj
      cases hsource.symm.trans hj
      exact ⟨y, hy, htarget.mpr hmethod⟩
    · intro hnone
      rw [hsource] at hnone
      cases hnone

/-- A request that is forwarded is sent once if no redirect is followed. -/
theorem sentFor_eq_singleton {own : Outgoing} {u : Upstream} :
    u.sentFor own = [own] ↔ u.isDirect = true := by
  cases u with
  | unbuilt => simp [Upstream.sentFor, Upstream.isDirect]
  | sent redirects reply => cases redirects <;> simp [Upstream.sentFor, Upstream.isDirect]

/-- What the upstream was asked last, when it produced a response. -/
theorem endsAt_iff {own : Outgoing} {u : Upstream} :
    u.EndsAt own ↔ ∀ response, u.response = some response →
      (u.sentFor own).getLast?.map Outgoing.target = some own.target := by
  cases u with
  | unbuilt => simp [Upstream.EndsAt, Upstream.response]
  | sent redirects reply =>
      cases reply with
      | failed => simp [Upstream.EndsAt, Upstream.response]
      | truncated => simp [Upstream.EndsAt, Upstream.response]
      | complete response =>
          simp [Upstream.EndsAt, Upstream.response, Upstream.sentFor, List.getLast?_cons]

/-- Without redirects a response is for the request itself. -/
theorem Upstream.endsAt_of_isDirect {own : Outgoing} {u : Upstream} (h : u.isDirect = true) :
    u.EndsAt own := by
  apply endsAt_iff.mpr
  intro response _
  rw [sentFor_eq_singleton.mpr h]
  rfl

/-- An answer that is not from the store. -/
theorem transparent_forwarded_iff (hway : (s.proxy.serveHTTP r env).way ≠ .stored)
    (hsent : (s.proxy.serveHTTP r env).sent =
      env.upstream.sentFor (s.proxy.forwardToUpstream r))
    (hanswer : ∀ response, env.upstream.response = some response →
      (s.proxy.serveHTTP r env).answer = response) :
    Transparent s.log (s.exchange r env) ↔
      env.upstream.isDirect = true ∨
        IsRead r.method ∧ env.upstream.EndsAt (s.proxy.forwardToUpstream r) := by
  have hsource : (s.exchange r env).source = none := by
    simp [History.exchange, hway]
  have hproduced : (s.exchange r env).produced = env.upstream.response := by
    simp [History.exchange, hway]
  have htarget : (s.exchange r env).target =
      (env.upstream.sentFor (s.proxy.forwardToUpstream r)).getLast?.map Outgoing.target :=
    congrArg (fun sent => sent.getLast?.map Outgoing.target) hsent
  constructor
  · intro htransparent
    by_cases hread : IsRead r.method
    · refine Or.inr ⟨hread, endsAt_iff.mpr ?_⟩
      intro response hresponse
      rw [← htarget]
      exact htransparent.produced hsource response (hproduced.trans hresponse)
    · have honce := (htransparent.forwarded hread).1
      exact Or.inl (sentFor_eq_singleton.mp (hsent.symm.trans honce))
  · intro hcondition
    have hends : env.upstream.EndsAt (s.proxy.forwardToUpstream r) := by
      rcases hcondition with hdirect | ⟨_, hends⟩
      · exact Upstream.endsAt_of_isDirect hdirect
      · exact hends
    refine ⟨?_, ?_, ?_, ?_⟩
    · intro hnot
      have hdirect := hcondition.resolve_right fun hread => hnot hread.1
      refine ⟨hsent.trans (sentFor_eq_singleton.mpr hdirect), hsource, ?_⟩
      intro response hresponse
      exact hanswer response (hproduced.symm.trans hresponse)
    · intro _ j hj
      rw [hsource] at hj
      cases hj
    · intro j hj
      rw [hsource] at hj
      cases hj
    · intro _ response hresponse
      rw [htarget]
      exact endsAt_iff.mp hends response (hproduced.symm.trans hresponse)

/-- **One request.**  After transparent exchanges, the next one is transparent exactly
if its request is proper. -/
theorem transparent_exchange_iff (h : Kept s) (hall : AllTransparent s) (r : Request)
    (env : Surroundings) : Transparent s.log (s.exchange r env) ↔ Proper s (r, env) := by
  unfold Proper
  rcases s.proxy.serveHTTP_cases r env with
    ⟨hholds, hway, c, hc, hanswer⟩ | ⟨hholds, hway, hsent, hanswer⟩
  · rw [if_pos hholds]
    exact transparent_stored_iff h hall hway hc hanswer
  · rw [if_neg (by simp [hholds])]
    exact transparent_forwarded_iff hway hsent hanswer

end Requests

/-- **Transparency of the proxy.**  All exchanges are transparent exactly if all
requests are proper. -/
theorem transparent_iff_proper (upstreamURL : String) (reqs : List (Request × Surroundings)) :
    AllTransparent (reqs.foldl History.serve (.init upstreamURL)) ↔
      Along historyStep Proper (.init upstreamURL) reqs := by
  have hrun : run historyStep (.init upstreamURL) reqs =
      some (reqs.foldl History.serve (.init upstreamURL)) := run_total (fun _ _ => rfl) _ reqs
  have hinit : AllTransparent (.init upstreamURL) := by
    intro i x hx
    simp [History.init] at hx
  have hiff : Throughout historyStep AllTransparent (.init upstreamURL) reqs ↔
      Along historyStep Proper (.init upstreamURL) reqs := by
    refine throughout_iff_along ?_ ?_ (kept_init upstreamURL) hinit hrun
    · intro s e s' h hstep
      cases hstep
      exact kept_serve h e
    · intro s e s' h hall hstep
      cases hstep
      rw [allTransparent_serve, transparent_exchange_iff h hall]
      exact and_iff_right hall
  rw [← hiff]
  constructor
  · apply throughout_of_last _ hrun
    intro s e s' hstep hall
    cases hstep
    exact (allTransparent_serve.mp hall).1
  · intro hall
    exact hall.last hrun

/-- A product is read, and the response is kept; then it is written. -/
def readThenWrite : List (Request × Surroundings) :=
  [({ method := "GET", uri := "/products/1", header := .empty, body := [] },
    { lookup := ⟨1, 1⟩, stale := ⟨1, 1⟩, cachedAt := 1, storedAt := 1
      upstream := .sent [] (.complete ⟨200, .empty, "old".toUTF8.data.toList⟩) }),
   ({ method := "PUT", uri := "/products/1", header := .empty, body := "new".toUTF8.data.toList },
    { lookup := ⟨second, second⟩, stale := ⟨second, second⟩, cachedAt := second
      storedAt := second
      upstream := .sent [] (.complete ⟨200, .empty, "new".toUTF8.data.toList⟩) })]

/-- The write is answered with the response to the read, and is not forwarded. -/
theorem write_answered_from_store :
    ∃ x, (readThenWrite.foldl History.serve (.init "http://api:8081")).log[1]? = some x ∧
      x.request.method = "PUT" ∧ x.sent = [] ∧ x.source = some 0 ∧
      x.answer.body = "old".toUTF8.data.toList ∧
      ¬ AllTransparent (readThenWrite.foldl History.serve (.init "http://api:8081")) := by
  refine ⟨_, rfl, rfl, rfl, rfl, rfl, ?_⟩
  intro hall
  have hput : ¬ IsRead "PUT" := by
    unfold IsRead
    decide
  have honce := ((hall 1 _ rfl).forwarded hput).1
  cases honce

end Http
