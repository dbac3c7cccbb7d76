import DistributedCaching.ProxyRetention

/-!
# Concurrent requests through the proxy

Any number of `GET` and `PUT` requests on one URI, interleaved at the steps of
`ServeHTTP`: the store lookup, the upstream call, the store set and the answer.  The
upstream keeps one value for the URI.  It answers a `GET` with the value and a `PUT`
with the new value, with status 200 and without `Cache-Control`.  `run_alone` says
that a request which is not interrupted does what `serveHTTP` does.

The values are numbered in the order in which the upstream took them, and a response
of the upstream is noted with the number of the value it carries.  A `PUT` neither
removes the entry of its URI nor keeps slower requests from replacing it, so a client
may read back what its own `PUT` replaced (`slowGet_reads_replaced`).  By
`readsOwnWrites_of_timely` this takes a request that stores a response older than one
which a `PUT` has stored before.
-/

namespace Http

open Go TransitionRuns

/-! ## Requests in flight -/

/-- Where `ServeHTTP` is for a request. -/
inductive Point
  /-- Before the store is asked. -/
  | lookup
  /-- Before the upstream is called. -/
  | forward
  /-- Before the response is stored; it carries the value with the number `version`. -/
  | store (response : Response) (version : Nat)
  /-- Before the response is written to the client. -/
  | write (answer : Response) (version : Nat)
  /-- The request has been answered; without a `version`, from the store. -/
  | answered (answer : Response) (version : Option Nat)

namespace Point

/-- The number of the value that the request is about to store. -/
def storing? : Point → Option Nat
  | .store _ version => some version
  | _ => none

/-- The number of the value that the request has stored. -/
def stored? : Point → Option Nat
  | .write _ version => some version
  | .answered _ version => version
  | _ => none

def answer? : Point → Option Response
  | .answered answer _ => some answer
  | _ => none

/-- A point with an answer is that of a request that was answered. -/
theorem eq_answered {point : Point} {answer : Response} (h : answer ∈ point.answer?) :
    ∃ version, point = .answered answer version := by
  cases point with
  | answered other version =>
      cases h
      exact ⟨version, rfl⟩
  | _ => cases h

end Point

/-- A request at its point.  `since` notes what `Site.acknowledged` was when the request
started. -/
structure Flight where
  request : Request
  since : Nat
  point : Point

def Flight.isPut (f : Flight) : Bool := f.request.method == "PUT"

/-- The proxy with the requests on one URI, and the upstream with its value for the URI.
`replaced` are the values it had before, oldest first.  `acknowledged` notes the number
of the latest value that the upstream took from a `PUT` which has been answered. -/
structure Site where
  proxy : Proxy
  replaced : List Bytes
  value : Bytes
  flights : List Flight
  acknowledged : Nat

namespace Site

def init (upstreamURL : String) (value : Bytes) : Site where
  proxy := newProxy upstreamURL
  replaced := []
  value := value
  flights := []
  acknowledged := 0

/-- All values so far. -/
def history (s : Site) : List Bytes := s.replaced ++ [s.value]

/-- The number of the value. -/
def version (s : Site) : Nat := s.replaced.length

/-- The upstream processes a request. -/
def process (s : Site) (r : Request) : Site :=
  if r.method = "PUT" then { s with replaced := s.history, value := r.body } else s

/-- The upstream, in this state, may send this response. -/
def Sends (s : Site) (response : Response) : Prop :=
  response.statusCode = 200 ∧ response.header "Cache-Control" = [] ∧ response.body = s.value

instance (s : Site) (response : Response) : Decidable (s.Sends response) :=
  inferInstanceAs (Decidable (_ ∧ _ ∧ _))

def setStore (s : Site) (store : ResponseStore) : Site :=
  { s with proxy := { s.proxy with store := store } }

/-- The request `f`, which has the number `i`, is now at `point`. -/
def move (s : Site) (i : Nat) (f : Flight) (point : Point) : Site :=
  { s with flights := s.flights.set i { f with point := point } }

end Site

inductive SiteEvent
  | start (r : Request)
  /-- Request `i` takes its next step, with what `ServeHTTP` takes from outside. -/
  | step (i : Nat) (env : Surroundings)

/-- The next step of the request `f`, which has the number `i`. -/
def advance (s : Site) (i : Nat) (env : Surroundings) (f : Flight) : Option Site :=
  match f.point with
  | .lookup =>
      match s.proxy.store.get f.request.uri env.lookup with
      | (some cached, store) =>
          some ((s.setStore store).move i f (.answered (serveCached cached) none))
      | (none, store) => some ((s.setStore store).move i f .forward)
  | .forward =>
      let processed := s.process f.request
      env.upstream.response.bind fun response =>
        if processed.Sends response then
          some (processed.move i f (.store response processed.version))
        else none
  | .store response version =>
      let served := Proxy.relay s.proxy.store f.request env [] response
      some ((s.setStore served.store).move i f (.write served.answer version))
  | .write answer version =>
      some { s.move i f (.answered answer (some version)) with
        acknowledged := if f.isPut then max s.acknowledged version else s.acknowledged }
  | .answered _ _ => none

/-- The steps of the system for the requests on `uri`. -/
def siteStep (uri : String) (s : Site) : SiteEvent → Option Site
  | .start r =>
      if r.uri = uri ∧ (r.method = "GET" ∨ r.method = "PUT") then
        some { s with flights := s.flights ++ [⟨r, s.acknowledged, .lookup⟩] }
      else none
  | .step i env => s.flights[i]?.bind (advance s i env)

/-- **Read-your-writes**: a `GET` that has been answered shows the value of the latest
`PUT` that was acknowledged when it started, or a value that came after. -/
def ReadsOwnWrites (s : Site) : Prop :=
  ∀ f ∈ s.flights, f.request.method = "GET" →
    ∀ answer ∈ f.point.answer?, answer.body ∈ s.history.drop f.since

/-- No `PUT` has stored a value after the one with this number. -/
def Site.PutsUpTo (s : Site) (version : Nat) : Prop :=
  ∀ f ∈ s.flights, f.isPut = true → ∀ w ∈ f.point.stored?, w ≤ version

/-- A request that is about to store a response stores one that is at least as new as
what any `PUT` has stored. -/
def Timely (s : Site) : SiteEvent → Prop
  | .start _ => True
  | .step i _ => ∀ f ∈ s.flights[i]?, ∀ version ∈ f.point.storing?, s.PutsUpTo version

instance (s : Site) : Decidable (ReadsOwnWrites s) :=
  inferInstanceAs (Decidable (∀ f ∈ s.flights, _ → ∀ answer ∈ f.point.answer?, _))

instance (s : Site) (version : Nat) : Decidable (s.PutsUpTo version) :=
  inferInstanceAs (Decidable (∀ f ∈ s.flights, _ → ∀ w ∈ f.point.stored?, _))

instance (s : Site) : (e : SiteEvent) → Decidable (Timely s e)
  | .start _ => inferInstanceAs (Decidable True)
  | .step i _ =>
      inferInstanceAs (Decidable (∀ f ∈ s.flights[i]?, ∀ version ∈ f.point.storing?, _))

/-! ## A request that is not interrupted -/

/-- Processing a request concerns the values alone. -/
theorem Site.process_with (s : Site) (r : Request) (proxy : Proxy) (flights : List Flight) :
    Site.process { s with proxy := proxy, flights := flights } r =
      { s.process r with proxy := proxy, flights := flights } := by
  unfold Site.process
  split
  · rfl
  · rfl

/-- **A request alone** does what `serveHTTP` does. -/
theorem run_alone (s : Site) {r : Request} {env : Surroundings} {response : Response}
    (hmethod : r.method = "GET" ∨ r.method = "PUT")
    (hresponse : env.upstream.response = some response)
    (hsends : (s.process r).Sends response) :
    ∃ steps version, (run (siteStep r.uri) s (.start r :: steps)).map
        (fun s' => (s'.proxy, s'.flights)) =
      some ({ s.proxy with store := (s.proxy.serveHTTP r env).store },
        s.flights ++ [⟨r, s.acknowledged,
          .answered (s.proxy.serveHTTP r env).answer version⟩]) := by
  obtain ⟨redirects, hup⟩ := Upstream.response_eq_some hresponse
  let next : SiteEvent := .step s.flights.length env
  cases hget : s.proxy.store.get r.uri env.lookup with
  | mk found store =>
      cases found with
      | some cached =>
          refine ⟨[next], none, ?_⟩
          simp [next, siteStep, advance, hmethod, hget, Site.setStore, Site.move,
            Proxy.serveHTTP]
      | none =>
          refine ⟨[next, next, next, next], some (s.process r).version, ?_⟩
          simp only [Site.Sends] at hsends
          simp [next, siteStep, advance, hmethod, hget, hup, hsends, Site.setStore, Site.move,
            Site.process_with, Site.Sends, Site.version, Upstream.response, Proxy.serveHTTP,
            Proxy.relay]

/-! ## What a step keeps -/

section Steps

variable {uri : String} {s s' : Site} {i : Nat} {f : Flight} {point : Point}

/-- What a request carries or has answered is a value from the history, and no older than
what was acknowledged when the request started. -/
def Site.Shown (s : Site) (since : Nat) : Point → Prop
  | .lookup => True
  | .forward => True
  | .store response version =>
      since ≤ version ∧ s.history[version]? = some response.body ∧ Keepable response
  | .write answer version => since ≤ version ∧ s.history[version]? = some answer.body
  | .answered answer _ => answer.body ∈ s.history.drop since

/-- The notes about a request are right. -/
structure FlightOk (uri : String) (s : Site) (f : Flight) : Prop where
  uri : f.request.uri = uri
  since : f.since ≤ s.acknowledged
  shown : s.Shown f.since f.point

/-- **What holds in every run whose steps are timely**: the entry of the URI is at least as
new as what any `PUT` has stored, and only such values are acknowledged. -/
structure Consistent (uri : String) (s : Site) : Prop where
  flights : ∀ f ∈ s.flights, FlightOk uri s f
  puts : s.PutsUpTo s.version
  acknowledged : ∀ version, s.PutsUpTo version → s.acknowledged ≤ version
  entry : ∀ c, s.proxy.store.entries.lookup uri = some c →
    ∃ version, s.history[version]? = some c.body ∧ s.PutsUpTo version

theorem mem_drop_of_getElem? {α : Type} {l : List α} {n k : Nat} {a : α} (hle : n ≤ k)
    (h : l[k]? = some a) : a ∈ l.drop n := by
  apply List.mem_of_getElem? (i := k - n)
  rw [List.getElem?_drop, Nat.add_sub_cancel' hle, h]

theorem getElem?_of_isPrefix {α : Type} {l l' : List α} {k : Nat} {a : α} (h : l <+: l')
    (hk : l[k]? = some a) : l'[k]? = some a := by
  obtain ⟨tail, rfl⟩ := h
  rw [List.getElem?_append_left (List.getElem?_eq_some_iff.mp hk).1, hk]

/-- A success without `Cache-Control` is kept. -/
theorem keepable_of_plain {response : Response} (hstatus : response.statusCode = 200)
    (hcontrol : response.header "Cache-Control" = []) : Keepable response := by
  have hvalue : cacheControl response = "" := by rw [cacheControl, Header.get, hcontrol]; rfl
  refine ⟨by omega, by omega, ?_⟩
  rw [hvalue]
  exact (parseCacheControl_fst "").mp rfl

/-- The history only grows. -/
theorem Site.Shown.later {since : Nat} (h : s.Shown since point)
    (hhistory : s.history <+: s'.history) : s'.Shown since point := by
  cases point with
  | lookup => trivial
  | forward => trivial
  | store response version => exact ⟨h.1, getElem?_of_isPrefix hhistory h.2.1, h.2.2⟩
  | write answer version => exact ⟨h.1, getElem?_of_isPrefix hhistory h.2⟩
  | answered answer version => exact (hhistory.drop since).subset h

/-- A step that brings the request `f` to `point`, without losing what is noted about
it. -/
structure Moved (s s' : Site) (i : Nat) (f : Flight) (point : Point) : Prop where
  here : s.flights[i]? = some f
  flights : s'.flights = s.flights.set i { f with point := point }
  history : s.history <+: s'.history
  acknowledged : s.acknowledged ≤ s'.acknowledged
  stored : ∀ w ∈ f.point.stored?, w ∈ point.stored?

namespace Moved

/-- A bound on what `PUT`s have stored was one before. -/
theorem putsUpTo_before (h : Moved s s' i f point) {version : Nat}
    (hputs : s'.PutsUpTo version) : s.PutsUpTo version := by
  intro g hg hput w hw
  obtain ⟨k, hk⟩ := List.mem_iff_getElem?.mp hg
  by_cases hki : k = i
  · subst hki
    cases h.here.symm.trans hk
    refine hputs { f with point := point } ?_ hput w (h.stored w hw)
    rw [h.flights]
    exact List.mem_set (List.getElem?_eq_some_iff.mp hk).1 _
  · refine hputs g ?_ hput w hw
    rw [h.flights]
    exact List.mem_iff_getElem?.mpr ⟨k, (List.getElem?_set_ne (Ne.symm hki)).trans hk⟩

/-- A bound stays one if it bounds what the request has stored now. -/
theorem putsUpTo_after (h : Moved s s' i f point) {version : Nat} (hputs : s.PutsUpTo version)
    (hnew : f.isPut = true → ∀ w ∈ point.stored?, w ≤ version) : s'.PutsUpTo version := by
  intro g hg hput w hw
  rw [h.flights] at hg
  rcases List.mem_or_eq_of_mem_set hg with hold | rfl
  · exact hputs g hold hput w hw
  · exact hnew hput w hw

/-- A step takes no version back. -/
theorem version_le (h : Moved s s' i f point) : s.version ≤ s'.version := by
  have hle := h.history.length_le
  simp only [Site.history, List.length_append, List.length_singleton] at hle
  exact Nat.le_of_add_le_add_right hle

/-- **Such a step keeps the state consistent** if it does so for the request itself, for
the acknowledged value and for the entry. -/
theorem consistent (h : Moved s s' i f point) (hs : Consistent uri s)
    (hshown : s'.Shown f.since point)
    (hnew : f.isPut = true → ∀ w ∈ point.stored?, w ≤ s'.version)
    (hacknowledged : ∀ version, s'.PutsUpTo version → s'.acknowledged ≤ version)
    (hentry : ∀ c, s'.proxy.store.entries.lookup uri = some c →
      ∃ version, s'.history[version]? = some c.body ∧ s'.PutsUpTo version) :
    Consistent uri s' where
  flights := by
    intro g hg
    rw [h.flights] at hg
    rcases List.mem_or_eq_of_mem_set hg with hold | rfl
    · have hok := hs.flights g hold
      exact ⟨hok.uri, hok.since.trans h.acknowledged, hok.shown.later h.history⟩
    · have hok := hs.flights f (List.mem_of_getElem? h.here)
      exact ⟨hok.uri, hok.since.trans h.acknowledged, hshown⟩
  puts := by
    apply h.putsUpTo_after _ hnew
    intro g hg hput w hw
    exact (hs.puts g hg hput w hw).trans h.version_le
  acknowledged := hacknowledged
  entry := hentry

end Moved

/-- Since the request started, nothing later was acknowledged than `PUT`s have stored. -/
theorem FlightOk.since_le (h : FlightOk uri s f) (hs : Consistent uri s) {version : Nat}
    (hputs : s.PutsUpTo version) : f.since ≤ version :=
  h.since.trans (hs.acknowledged version hputs)

/-- The request starts. -/
theorem consistent_start (hs : Consistent uri s) {r : Request} (huri : r.uri = uri) :
    Consistent uri { s with flights := s.flights ++ [⟨r, s.acknowledged, .lookup⟩] } := by
  have hputs : ∀ version, s.PutsUpTo version ↔
      Site.PutsUpTo { s with flights := s.flights ++ [⟨r, s.acknowledged, .lookup⟩] } version := by
    intro version
    simp [Site.PutsUpTo, List.mem_append, or_imp, forall_and, Point.stored?]
  refine ⟨?_, (hputs _).mp hs.puts, ?_, ?_⟩
  · intro g hg
    rcases List.mem_append.mp hg with hold | hnew
    · have hok := hs.flights g hold
      exact ⟨hok.uri, hok.since, hok.shown.later (List.prefix_refl _)⟩
    · cases List.mem_singleton.mp hnew
      exact ⟨huri, Nat.le_refl _, trivial⟩
  · intro version hversion
    exact hs.acknowledged version ((hputs version).mpr hversion)
  · intro c hc
    obtain ⟨version, hbody, hversion⟩ := hs.entry c hc
    exact ⟨version, hbody, (hputs version).mp hversion⟩

/-- A step that stores nothing for the request, and leaves the values and the store alone
except that an entry may expire. -/
theorem consistent_quiet (hs : Consistent uri s) (hi : s.flights[i]? = some f)
    (hbefore : f.point.stored? = none) (hafter : point.stored? = none) {store : ResponseStore}
    (hstore : ∀ c, store.entries.lookup uri = some c →
      s.proxy.store.entries.lookup uri = some c)
    (hshown : s.Shown f.since point) : Consistent uri ((s.setStore store).move i f point) := by
  have hmoved : Moved s ((s.setStore store).move i f point) i f point :=
    ⟨hi, rfl, List.prefix_refl _, Nat.le_refl _, by simp [hbefore]⟩
  apply hmoved.consistent hs
  · exact hshown.later (List.prefix_refl _)
  · simp [hafter]
  · intro version hputs
    exact hs.acknowledged version (hmoved.putsUpTo_before hputs)
  · intro c hc
    obtain ⟨version, hbody, hputs⟩ := hs.entry c (hstore c hc)
    exact ⟨version, hbody, hmoved.putsUpTo_after hputs (by simp [hafter])⟩

/-- The current value is the last of the history. -/
theorem Site.history_version (s : Site) : s.history[s.version]? = some s.value := by
  simp [Site.history, Site.version]

/-- Processing a request adds to the history. -/
theorem Site.history_process (s : Site) (r : Request) : s.history <+: (s.process r).history := by
  unfold Site.process
  split
  · exact List.prefix_append _ _
  · exact List.prefix_refl _

/-- The proxy and the requests are untouched. -/
theorem Site.process_rest (s : Site) (r : Request) :
    (s.process r).proxy = s.proxy ∧ (s.process r).flights = s.flights ∧
      (s.process r).acknowledged = s.acknowledged := by
  unfold Site.process
  split
  · exact ⟨rfl, rfl, rfl⟩
  · exact ⟨rfl, rfl, rfl⟩

/-- The upstream answers. -/
theorem consistent_forward (hs : Consistent uri s) (hi : s.flights[i]? = some f)
    (hpoint : f.point = .forward) {response : Response}
    (hsends : (s.process f.request).Sends response) :
    Consistent uri ((s.process f.request).move i f
      (.store response (s.process f.request).version)) := by
  obtain ⟨hproxy, hflights, hacknowledged⟩ := s.process_rest f.request
  have hhistory := s.history_process f.request
  obtain ⟨hstatus, hcontrol, hbody⟩ := hsends
  have hmoved : Moved s ((s.process f.request).move i f
      (.store response (s.process f.request).version)) i f
      (.store response (s.process f.request).version) :=
    ⟨hi, by rw [Site.move, hflights], hhistory, Nat.le_of_eq hacknowledged.symm,
      by simp [hpoint, Point.stored?]⟩
  have hsince := (hs.flights f (List.mem_of_getElem? hi)).since_le hs hs.puts
  apply hmoved.consistent hs
  · refine ⟨hsince.trans hmoved.version_le, ?_, keepable_of_plain hstatus hcontrol⟩
    rw [hbody]
    exact Site.history_version _
  · simp [Point.stored?]
  · intro version hputs
    show (s.process f.request).acknowledged ≤ version
    rw [hacknowledged]
    exact hs.acknowledged version (hmoved.putsUpTo_before hputs)
  · intro c hc
    have hold : s.proxy.store.entries.lookup uri = some c := hproxy ▸ hc
    obtain ⟨version, hshown, hputs⟩ := hs.entry c hold
    exact ⟨version, getElem?_of_isPrefix hhistory hshown,
      hmoved.putsUpTo_after hputs (by simp [Point.stored?])⟩

/-- The response is stored. -/
theorem consistent_store (hs : Consistent uri s) (hi : s.flights[i]? = some f)
    {response : Response} {version : Nat} (hpoint : f.point = .store response version)
    (env : Surroundings) (htimely : s.PutsUpTo version) :
    let served := Proxy.relay s.proxy.store f.request env [] response
    Consistent uri ((s.setStore served.store).move i f (.write served.answer version)) := by
  intro served
  have hok := hs.flights f (List.mem_of_getElem? hi)
  have hshown := hok.shown
  rw [hpoint] at hshown
  obtain ⟨hsince, hbody, hkeep⟩ := hshown
  have hmoved : Moved s ((s.setStore served.store).move i f (.write served.answer version)) i f
      (.write served.answer version) :=
    ⟨hi, rfl, List.prefix_refl _, Nat.le_refl _, by simp [hpoint, Point.stored?]⟩
  have hversion : version ≤ s.version := by
    have hlt := (List.getElem?_eq_some_iff.mp hbody).1
    simpa [Site.history, Site.version, Nat.lt_succ_iff] using hlt
  apply hmoved.consistent hs
  · exact ⟨hsince, hbody⟩
  · intro hput w hw
    cases hw
    exact hversion
  · intro bound hputs
    exact hs.acknowledged bound (hmoved.putsUpTo_before hputs)
  · -- The entry is now the response, whatever was there before.
    intro c hc
    have hway := (Proxy.way_relay s.proxy.store f.request env [] response).mpr hkeep
    rcases Proxy.lookup_relay hc with ⟨_, hother⟩ | ⟨_, _, _, _, hkeeps⟩
    · exact absurd hok.uri.symm (hother hway)
    · refine ⟨version, by rw [hkeeps.2.2]; exact hbody, ?_⟩
      apply hmoved.putsUpTo_after htimely
      intro hput w hw
      cases hw
      exact Nat.le_refl _

/-- The response is written to the client. -/
theorem consistent_write (hs : Consistent uri s) (hi : s.flights[i]? = some f)
    {answer : Response} {version : Nat} (hpoint : f.point = .write answer version) :
    Consistent uri { s.move i f (.answered answer (some version)) with
      acknowledged := if f.isPut then max s.acknowledged version else s.acknowledged } := by
  have hok := hs.flights f (List.mem_of_getElem? hi)
  have hshown := hok.shown
  rw [hpoint] at hshown
  have hstored : f.point.stored? = some version := by rw [hpoint]; rfl
  have hmoved : Moved s { s.move i f (.answered answer (some version)) with
      acknowledged := if f.isPut then max s.acknowledged version else s.acknowledged } i f
      (.answered answer (some version)) := by
    refine ⟨hi, rfl, List.prefix_refl _, ?_, by simp [hpoint, Point.stored?]⟩
    show s.acknowledged ≤ if f.isPut then max s.acknowledged version else s.acknowledged
    split
    · exact Nat.le_max_left _ _
    · exact Nat.le_refl _
  have hbound : ∀ bound, s.PutsUpTo bound → f.isPut = true → version ≤ bound :=
    fun bound hputs hput => hputs f (List.mem_of_getElem? hi) hput version hstored
  apply hmoved.consistent hs
  · exact mem_drop_of_getElem? hshown.1 hshown.2
  · intro hput w hw
    cases hw
    exact hbound s.version hs.puts hput
  · intro bound hputs
    have hbefore := hmoved.putsUpTo_before hputs
    show (if f.isPut then max s.acknowledged version else s.acknowledged) ≤ bound
    split
    · rename_i hput
      exact Nat.max_le.mpr ⟨hs.acknowledged bound hbefore, hbound bound hbefore hput⟩
    · exact hs.acknowledged bound hbefore
  · intro c hc
    obtain ⟨bound, hbody, hputs⟩ := hs.entry c hc
    refine ⟨bound, hbody, hmoved.putsUpTo_after hputs ?_⟩
    intro hput w hw
    cases hw
    exact hbound bound hputs hput

/-- **A timely step keeps the state consistent**; one case for each point. -/
theorem consistent_advance (hs : Consistent uri s) (hi : s.flights[i]? = some f)
    {env : Surroundings} (htimely : ∀ version ∈ f.point.storing?, s.PutsUpTo version)
    (h : advance s i env f = some s') : Consistent uri s' := by
  have hok := hs.flights f (List.mem_of_getElem? hi)
  unfold advance at h
  cases hpoint : f.point with
  | lookup =>
      have hnone : f.point.stored? = none := by rw [hpoint]; rfl
      rw [hpoint] at h
      cases hget : s.proxy.store.get f.request.uri env.lookup with
      | mk found store =>
          have hstore : ∀ c, store.entries.lookup uri = some c →
              s.proxy.store.entries.lookup uri = some c := fun c => lookup_get hget
          cases found with
          | some cached =>
              simp only [hget, Option.some.injEq] at h
              subst h
              apply consistent_quiet hs hi hnone rfl hstore
              -- The entry that was found is no older than what was acknowledged.
              obtain ⟨version, hbody, hputs⟩ := hs.entry cached (hok.uri ▸ get_hit hget)
              exact mem_drop_of_getElem? (hok.since_le hs hputs) hbody
          | none =>
              simp only [hget, Option.some.injEq] at h
              subst h
              exact consistent_quiet hs hi hnone rfl hstore trivial
  | forward =>
      rw [hpoint] at h
      obtain ⟨response, _, hresponse⟩ := Option.bind_eq_some_iff.mp h
      split at hresponse
      · rename_i hsends
        cases hresponse
        exact consistent_forward hs hi hpoint hsends
      · cases hresponse
  | store response version =>
      rw [hpoint] at h htimely
      cases h
      exact consistent_store hs hi hpoint env (htimely version rfl)
  | write answer version =>
      rw [hpoint] at h
      cases h
      exact consistent_write hs hi hpoint
  | answered answer version =>
      rw [hpoint] at h
      cases h

/-- **Every timely step keeps the site consistent.** -/
theorem consistent_siteStep {e : SiteEvent} (hs : Consistent uri s) (htimely : Timely s e)
    (h : siteStep uri s e = some s') : Consistent uri s' := by
  cases e with
  | start r =>
      simp only [siteStep] at h
      split at h
      · rename_i hguard
        cases h
        exact consistent_start hs hguard.1
      · cases h
  | step i env =>
      obtain ⟨f, hf, hadvance⟩ := Option.bind_eq_some_iff.mp h
      exact consistent_advance hs hf (htimely f hf) hadvance

/-- A new site is consistent. -/
theorem consistent_init (uri upstreamURL : String) (value : Bytes) :
    Consistent uri (Site.init upstreamURL value) where
  flights _ hf := nomatch hf
  puts _ hf := nomatch hf
  acknowledged version _ := Nat.zero_le version
  entry _ hc := nomatch hc

/-- In a consistent site every client reads its own writes. -/
theorem Consistent.readsOwnWrites (h : Consistent uri s) : ReadsOwnWrites s := by
  intro f hf _ answer hanswer
  have hshown := (h.flights f hf).shown
  obtain ⟨version, hpoint⟩ := Point.eq_answered hanswer
  rw [hpoint] at hshown
  exact hshown

end Steps

/-! ## Reading back what was written -/

/-- **Read-your-writes without late stores**: in every run in which no request stores a
response older than what a `PUT` has stored, each `GET` that starts after a `PUT` was
answered shows the value of that `PUT` or a later one. -/
theorem readsOwnWrites_of_timely (uri upstreamURL : String) (value : Bytes)
    (events : List SiteEvent) {s : Site}
    (h : run (siteStep uri) (Site.init upstreamURL value) events = some s)
    (htimely : Along (siteStep uri) Timely (Site.init upstreamURL value) events) :
    ReadsOwnWrites s := by
  have hstep : ∀ s e s', Consistent uri s → Timely s e → siteStep uri s e = some s' →
      Consistent uri s' := fun s e s' => consistent_siteStep
  exact (run_invariant_along hstep (consistent_init uri upstreamURL value) htimely h).readsOwnWrites

/-- A request for `/products/1`; a `PUT` writes the byte `body`. -/
def productRequest (method : String) (body : Bytes) : Request :=
  { method := method, uri := "/products/1", header := .empty, body := body }

/-- The next step of the request `i`; the upstream answers with `body`, if it is
called. -/
def stepOf (i : Nat) (body : Bytes) : SiteEvent :=
  .step i
    { lookup := ⟨1, 1⟩, stale := ⟨1, 1⟩, cachedAt := 1, storedAt := 1
      upstream := .sent [] (.complete ⟨200, .empty, body⟩) }

/-- A `GET` is stored before the `PUT` that overtook it at the upstream. -/
def promptGet : List SiteEvent :=
  [.start (productRequest "GET" []), .start (productRequest "PUT" [1]),
    stepOf 0 [0], stepOf 1 [1], stepOf 0 [0], stepOf 1 [1],
    stepOf 0 [0], stepOf 1 [1], stepOf 1 [1],
    .start (productRequest "GET" []), stepOf 2 [1]]

/-- The `GET` stores first, so that the next one reads what the `PUT` has written. -/
theorem readsOwnWrites_of_timely_promptGet :
    ∃ s, run (siteStep "/products/1") (Site.init "http://api:8081" [0]) promptGet = some s ∧
      Along (siteStep "/products/1") Timely (Site.init "http://api:8081" [0]) promptGet ∧
      s.acknowledged = 1 ∧ ReadsOwnWrites s :=
  ⟨_, rfl, by decide, rfl, readsOwnWrites_of_timely "/products/1" "http://api:8081" [0]
    promptGet rfl (by decide)⟩

/-- The same, but the `GET` stores its response after the `PUT` was answered. -/
def slowGet : List SiteEvent :=
  [.start (productRequest "GET" []), .start (productRequest "PUT" [1]),
    stepOf 0 [0], stepOf 1 [1], stepOf 0 [0], stepOf 1 [1],
    stepOf 1 [1], stepOf 1 [1], stepOf 0 [0],
    .start (productRequest "GET" []), stepOf 2 [1]]

/-- The `GET` that starts last is answered from the store, with the value `0` that the
`PUT` of `1` had replaced before it was answered. -/
theorem slowGet_reads_replaced :
    ∃ s, run (siteStep "/products/1") (Site.init "http://api:8081" [0]) slowGet = some s ∧
      s.replaced = [[0]] ∧ s.value = [1] ∧ s.acknowledged = 1 ∧
      (s.flights.map fun f => (f.request.method, f.since, f.point.answer?.map (·.body))) =
        [("GET", 0, none), ("PUT", 0, some [1]), ("GET", 1, some [0])] ∧
      ¬ ReadsOwnWrites s :=
  ⟨_, rfl, rfl, rfl, rfl, by decide, by decide⟩

end Http
