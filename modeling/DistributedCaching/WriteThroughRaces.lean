import DistributedCaching.WriteThroughTraffic

/-!
# Races of write-through

A request stores in the cache a product that it got from the database some time
before.  If the row has been changed since, the cache goes back to the old row,
and stays there until the entry expires.  `coherence_iff_timely` says when this
happens: a store is *timely* if the product is the row of the moment, or if the
update that wrote that row has its own store still to come.  While all stores are
timely, the cache of a quiet service agrees with the database and no read is
stale; after the first store that is not, the next `GetProduct` would be.
-/

namespace Api

open Go Cache Eviction TransitionRuns

/-! ## The property and the condition -/

section Property

variable {P F : Type} {s : Traffic P F}

/-- Whatever the cache has for a product is the serialisation of its row. -/
def InSync (codec : Codec F) (s : Traffic P F) : Prop :=
  ∀ id value expiresAt, s.cache.stored (cacheKey id) = some (value, expiresAt) →
    ∃ p, s.row id = some p ∧ codec.marshal p = some value

/-- Every `GetProduct` that started after an update had returned, and saw no later
one, has returned the row of the update. -/
def ReadsCurrent (s : Traffic P F) : Prop :=
  ∀ read ∈ s.reads, read.afterUpdate = true → ∃ p, read.row = some p ∧ read.answer = .ok p

/-- **A timely store.**  The product is the row of the moment, or the update that
wrote that row has its own store still to come. -/
def Timely (s : Traffic P F) (id : String) (product : Product F) : Prop :=
  s.row id = some product ∨ s.awaited id = true

/-- The event, if it is a store in the cache, is timely. -/
def StoresTimely (s : Traffic P F) : TaskEvent CacheInput F → Prop
  | .step i _ _ => ∀ store ∈ s.tasks[i]?.bind Task.toStore, Timely s store.1 store.2
  | _ => True

instance [DecidableEq F] (s : Traffic P F) (id : String) (product : Product F) :
    Decidable (Timely s id product) :=
  inferInstanceAs (Decidable (_ ∨ _))

instance [DecidableEq F] (s : Traffic P F) :
    (e : TaskEvent CacheInput F) → Decidable (StoresTimely s e)
  | .get _ => .isTrue trivial
  | .update _ _ => .isTrue trivial
  | .step i _ _ =>
      inferInstanceAs (Decidable (∀ store ∈ s.tasks[i]?.bind Task.toStore, Timely s _ _))

/-- If the request is a `GetProduct` that has just returned, on the version of the row that
it started on, then it has returned the row. -/
def AnswersRow (s : Traffic P F) (i : Nat) : Task F Empty → Prop
  | .read id answer => s.since i = some (s.version id) →
      ∃ p, s.row id = some p ∧ answer.map Prod.fst = .ok p
  | _ => True

/-- A read that returns the row it should keeps the reads right. -/
theorem readsCurrent_arrived (hs : ReadsCurrent s) {i : Nat}
    {next : Running (InMemoryCache P) F Empty} {task : Task F Empty}
    (hrow : ∀ id, next.row id = s.row id) (hanswer : AnswersRow s i task) :
    ReadsCurrent (s.arrived i next (some task)) := by
  cases task with
  | read id answer =>
      intro read hmem hafter
      rcases List.mem_cons.mp hmem with rfl | hold
      · rw [hrow]
        exact hanswer (by simpa using hafter)
      · exact hs read hold hafter
  | _ => exact hs

end Property

/-! ## The invariant -/

section Invariant

variable {P F : Type} [LawfulPolicy P] {codec : Codec F} {numeric : F → F}
  {s s' : Traffic P F} {i : Nat} {input : CacheInput} {db : DbInput} {task : Task F Empty}
  {next : Progress (InMemoryCache P) F Empty}

/-- Whatever the cache holds for a product is the serialisation of its row, or the
update that wrote the row has its store still to come. -/
def CachedOk (codec : Codec F) (s : Traffic P F) : Prop :=
  ∀ id v, LawfulCache.Holds s.cache (cacheKey id) v →
    ∃ p, s.row id = some p ∧ (codec.marshal p = some v ∨ s.awaited id = true)

/-- The invariant of the runs whose stores are all timely. -/
structure Current (codec : Codec F) (s : Traffic P F) : Prop where
  valid : LawfulCache.Valid s.cache
  orderly : Orderly s
  cached : CachedOk codec s
  reads : ReadsCurrent s

/-- A cache that holds what the service's holds, and timely products. -/
def AddsTimely (codec : Codec F) (s : Traffic P F) (c : InMemoryCache P) : Prop :=
  ∀ id v, LawfulCache.Holds c (cacheKey id) v →
    LawfulCache.Holds s.cache (cacheKey id) v ∨ ∃ p, codec.marshal p = some v ∧ Timely s id p

/-- The cache as it is. -/
theorem addsTimely_self (codec : Codec F) (s : Traffic P F) : AddsTimely codec s s.cache :=
  fun _ _ hv => Or.inl hv

/-- A call adds timely products, if what it sets is one. -/
theorem addsTimely_perform (hvalid : LawfulCache.Valid s.cache) {req : Cache.Request}
    (hset : ∀ id v ttl, req = .set (cacheKey id) v ttl →
      ∃ p, codec.marshal p = some v ∧ Timely s id p) :
    AddsTimely codec s (perform s.cache input req).1 := by
  intro id v hv
  refine (holds_perform hvalid hv).imp_right ?_
  rintro ⟨ttl, hreq⟩
  exact hset id v ttl hreq

/-- A step that adds timely products only keeps the cache right. -/
theorem Moved.cachedOk (h : Moved s s' i task) (hs : Current codec s)
    (hbefore : ∀ now, s.tasks[i]? = some now → now.beforeWriting = true)
    (hcache : AddsTimely codec s s'.cache) : CachedOk codec s' := by
  intro id v hv
  rw [h.row]
  rcases hcache id v hv with hold | ⟨p, hp, hcurrent | hawaited⟩
  · obtain ⟨p, hp, hcase⟩ := hs.cached id v hold
    exact ⟨p, hp, hcase.imp_right (h.awaited hbefore)⟩
  · exact ⟨p, hcurrent, Or.inl hp⟩
  · obtain ⟨p', hp'⟩ := hs.orderly.row_of_awaited hawaited
    exact ⟨p', hp', Or.inr (h.awaited hbefore hawaited)⟩

/-- What a `GetProduct` finds after an update has returned is the row. -/
theorem Current.found (h : Current codec s) (hcodec : codec.RoundTrip) {id : String}
    {since : Option Nat} {v : Bytes} {p : Product F} (hsince : SinceOk s id since)
    (hv : LawfulCache.Holds s.cache (cacheKey id) v) (hread : codec.unmarshal v = some p)
    (hversion : since = some (s.version id)) : s.row id = some p := by
  have hsettled := (hsince _ hversion).2 rfl
  obtain ⟨p', hp', hmarshal | hawaited⟩ := h.cached id v hv
  · obtain ⟨b, hb, hread'⟩ := hcodec p'
    rw [hmarshal] at hb
    cases hb
    rw [hread] at hread'
    rw [hp', hread']
  · exact absurd hawaited (not_awaited_of_settled hsettled)

/-- A step of a request that has not written, and adds timely products only. -/
theorem Current.move (h : Current codec s) {now : Task F Empty} (hi : s.tasks[i]? = some now)
    (hbefore : now.beforeWriting = true) (htable : next.table = s.table)
    (hstarted : next.started = []) (hnot : next.task.isOnWrite = false)
    (hvalid : LawfulCache.Valid next.cache) (hcache : AddsTimely codec s next.cache)
    (hok : TaskOk s i next.task) (hanswer : AnswersRow s i next.task) :
    Current codec (s.arrived i (s.toRunning.after i next) (some next.task)) := by
  have hmoved := moved_arrived hi htable hstarted hnot (Or.inl hbefore)
  have hcache' : (s.arrived i (s.toRunning.after i next) (some next.task)).cache = next.cache := by
    rw [Traffic.toRunning_arrived]
    rfl
  refine ⟨?_, ?_, ?_, ?_⟩
  · rw [hcache']
    exact hvalid
  · refine hmoved.orderly h.orderly (hok.later hmoved.later ?_)
    rw [Traffic.since_arrived]
  · refine hmoved.cachedOk h ?_ ?_
    · intro task htask
      rw [hi] at htask
      cases htask
      exact hbefore
    · rw [hcache']
      exact hcache
  · refine readsCurrent_arrived h.reads ?_ hanswer
    intro id
    rw [Running.row, Running.after, htable]
    rfl

/-- A `GetProduct` has asked the cache. -/
theorem Current.get (h : Current codec s) (hcodec : codec.RoundTrip) {id : String}
    {call : Option Empty} (hi : s.tasks[i]? = some (.inGet id call))
    (hcache : next.cache = (perform s.cache input (.get (cacheKey id))).1)
    (htable : next.table = s.table) (hstarted : next.started = [])
    (htask : next.task =
      .afterGet codec id (perform s.cache input (.get (cacheKey id))).2) :
    Current codec (s.arrived i (s.toRunning.after i next) (some next.task)) := by
  have hsince : SinceOk s id (s.since i) := h.orderly.tasks i _ hi
  have hmove := h.move hi rfl htable hstarted
  have hvalid : LawfulCache.Valid next.cache := hcache ▸ valid_perform h.valid _ _
  have hold : AddsTimely codec s next.cache :=
    hcache ▸ addsTimely_perform h.valid fun _ _ _ hset => by cases hset
  cases hfound : (perform s.cache input (.get (cacheKey id))).2 with
  | none =>
      rw [hfound] at htask
      rw [htask] at hmove ⊢
      exact hmove rfl hvalid hold hsince trivial
  | some v =>
      rw [hfound] at htask
      cases hread : codec.unmarshal v with
      | none =>
          simp only [Task.afterGet, hread] at htask
          rw [htask] at hmove ⊢
          exact hmove rfl hvalid hold hsince trivial
      | some p =>
          simp only [Task.afterGet, hread] at htask
          rw [htask] at hmove ⊢
          refine hmove rfl hvalid hold trivial ?_
          intro hversion
          exact ⟨p, h.found hcodec hsince (perform_get h.valid hfound) hread hversion, rfl⟩

/-- A write makes the entry of its product stale, but its store is still to come. -/
theorem Current.cachedOk_write (h : Current codec s) {id : String}
    {req : ProductUpdateRequest F} (hi : s.tasks[i]? = some (.beforeWrite id req))
    (row : Db.Product F) : CachedOk codec (s.write i id row) := by
  intro id' v hv
  by_cases hid : id' = id
  · subst hid
    exact ⟨_, (write_self s i id' row).1, Or.inr (awaited_write hi row id' (Or.inl rfl))⟩
  · obtain ⟨p, hp, hcase⟩ := h.cached id' v hv
    refine ⟨p, (write_ne s i row hid).1.trans hp, hcase.imp_right ?_⟩
    intro hawaited
    exact awaited_write hi row id' (Or.inr hawaited)

/-- The store of an update, if timely, keeps the cache right. -/
theorem Current.through (h : Current codec s) {id : String} {p : Product F}
    {call : Option Empty} {b : Bytes} (hb : codec.marshal p = some b)
    (hi : s.tasks[i]? = some (.inOnWrite id p call)) (htimely : Timely s id p)
    (hmoved : Moved s s' i (.updated (.ok p)))
    (hcache : s'.cache = (SharedCache.set s.cache (cacheKey id) b writeThroughTTL input).2) :
    CachedOk codec s' := by
  -- A store that is to come, of another request, is still to come.
  have hawaits : ∀ id' u id'' p' call', s.writer id' = some u →
      s.tasks[u]? = some (.inOnWrite id'' p' call') → u ≠ i → s'.awaited id' = true := by
    intro id' u id'' p' call' hu htask hne
    exact awaited_iff.mpr ⟨u, id'', p', call', by rw [hmoved.writer, hu],
      by rw [hmoved.there u hne, htask]⟩
  intro id' v hv
  rw [hmoved.row]
  rw [hcache] at hv
  rcases LawfulCache.holds_set h.valid (acceptsWrites_inMemory _ _ _ _) hv with
    ⟨hkey, rfl⟩ | ⟨hkey, hold⟩
  · rw [cacheKey_inj] at hkey
    subst hkey
    rcases htimely with hcurrent | hawaited
    · exact ⟨p, hcurrent, Or.inl hb⟩
    · obtain ⟨u, id'', p', call', hu, htask⟩ := awaited_iff.mp hawaited
      obtain ⟨q, hq, htaskq⟩ := h.orderly.writers id' u hu
      by_cases hui : u = i
      · subst hui
        have hqp : q = p := by
          rw [hi] at htaskq
          rcases htaskq with ⟨_, htaskq⟩ | htaskq <;> cases htaskq
          rfl
        exact ⟨q, hq, Or.inl (hqp ▸ hb)⟩
      · exact ⟨q, hq, Or.inr (hawaits id' u id'' p' call' hu htask hui)⟩
  · obtain ⟨q, hq, hcase⟩ := h.cached id' v hold
    refine ⟨q, hq, hcase.imp_right ?_⟩
    intro hawaited
    obtain ⟨u, id'', p', call', hu, htask⟩ := awaited_iff.mp hawaited
    refine hawaits id' u id'' p' call' hu htask ?_
    intro hui
    obtain ⟨q', _, htaskq⟩ := h.orderly.writers id' u hu
    rw [hui, hi] at htaskq
    rcases htaskq with ⟨_, htaskq⟩ | htaskq <;> cases htaskq
    exact hkey rfl

/-- A request that is about to store has its product in the cache after its step, and
leaves the rows alone. -/
theorem steps_store {id : String} {p : Product F} {b : Bytes} (hi : s.tasks[i]? = some task)
    (hstore : task.toStore = some (id, p)) (hb : codec.marshal p = some b)
    (hsteps : task.Steps codec .writeThrough s.cache s.table input db next) :
    next.cache = (SharedCache.set s.cache (cacheKey id) b writeThroughTTL input).2 ∧
      Moved s (s.arrived i (s.toRunning.after i next) (some next.task)) i next.task := by
  cases hsteps with
  | populate id' p' call value c state hvalue hcall =>
      cases hstore
      cases hcall
      rw [hb] at hvalue
      cases hvalue
      exact ⟨rfl, moved_arrived hi rfl rfl rfl (Or.inl rfl)⟩
  | through id' p' call c state hstrategy hcall =>
      cases hstore
      cases hcall
      exact ⟨by rw [hb]; rfl, moved_arrived hi rfl rfl rfl (Or.inr ⟨id, p, call, rfl, rfl⟩)⟩
  | unserialised id' p' call hvalue =>
      cases hstore
      rw [hb] at hvalue
      cases hvalue
  | ignored id' p' call hstrategy => cases hstrategy
  | behind id' p' call hstrategy => cases hstrategy
  | _ => cases hstore

/-- A timely step keeps the invariant. -/
theorem current_advance (hcodec : codec.RoundTrip) (h : Current codec s)
    (hi : s.tasks[i]? = some task) (hdb : db.failure = none)
    (htimely : ∀ store ∈ task.toStore, Timely s store.1 store.2)
    (hsteps : task.Steps codec .writeThrough s.cache s.table input db next) :
    Current codec (s.arrived i (s.toRunning.after i next) (some next.task)) := by
  have hok := h.orderly.tasks i task hi
  have hsame := addsTimely_self codec s
  cases hsteps with
  | get id call c state hcall =>
      cases hcall
      exact h.get hcodec hi rfl rfl rfl rfl
  | discard id call c state hcall =>
      cases hcall
      exact h.move hi rfl rfl rfl rfl (valid_perform h.valid _ _)
        (addsTimely_perform h.valid fun _ _ _ hset => by cases hset) hok trivial
  | fetchFailed id e hrow =>
      refine h.move hi rfl rfl rfl rfl h.valid hsame trivial ?_
      intro hversion
      -- The row of an update that has returned is there.
      obtain ⟨p, hp⟩ := h.orderly.row_of_settled ((hok _ hversion).2 rfl)
      obtain ⟨row, hlookup, _⟩ := Option.map_eq_some_iff.mp hp
      rw [hdb, Db.getProduct, hlookup] at hrow
      cases hrow
  | fetched id row hrow =>
      refine h.move hi rfl rfl rfl rfl h.valid hsame ⟨hok, ?_⟩ trivial
      intro _
      rw [Running.row, hrow]
      rfl
  | unserialised id p call hvalue =>
      obtain ⟨b, hb, _⟩ := hcodec p
      rw [hvalue] at hb
      cases hb
  | populate id p call value c state hvalue hcall =>
      cases hcall
      refine h.move hi rfl rfl rfl rfl (valid_perform h.valid _ _) ?_ trivial ?_
      · refine addsTimely_perform h.valid ?_
        intro id' v ttl hset
        obtain ⟨hkey, rfl, _⟩ := Cache.Request.set.inj hset
        exact ⟨p, hvalue, cacheKey_inj.mp hkey ▸ htimely (id, p) rfl⟩
      · intro hversion
        exact ⟨p, hok.2 (Or.inl hversion), rfl⟩
  | writeFailed id req e => exact h.move hi rfl rfl rfl rfl h.valid hsame trivial trivial
  | written id req row =>
      exact ⟨h.valid, orderly_write h.orderly hi row, h.cachedOk_write hi row, h.reads⟩
  | ignored id p call hstrategy => cases hstrategy
  | through id p call c state hstrategy hcall =>
      obtain ⟨b, hb, _⟩ := hcodec p
      have hsteps : Task.Steps codec .writeThrough s.cache s.table input db
        (.inOnWrite id p call) _ := .through id p call c state hstrategy hcall
      obtain ⟨hcache, hmoved⟩ := steps_store hi rfl hb hsteps
      cases hcall
      exact ⟨valid_perform h.valid _ _, hmoved.orderly h.orderly trivial,
        h.through hb hi (htimely (id, p) rfl) hmoved hcache, h.reads⟩
  | behind id p call hstrategy => cases hstrategy
  | delete key call c state hcall =>
      cases hcall
      exact h.move hi rfl rfl rfl rfl (valid_perform h.valid _ _)
        (addsTimely_perform h.valid fun _ _ _ hset => by cases hset) trivial trivial

/-- A timely event keeps the invariant. -/
theorem current_step (hcodec : codec.RoundTrip) (h : Current codec s)
    {e : TaskEvent CacheInput F} (htimely : StoresTimely s e)
    (hstep : trafficStep codec numeric s e = some s') : Current codec s' := by
  cases e with
  | get id =>
      have hsince : SinceOk s id (if s.settled id then some (s.version id) else none) := by
        intro n hn
        split at hn
        · rename_i hsettled
          cases hn
          exact ⟨Nat.le_refl _, fun _ => hsettled⟩
        · cases hn
      cases hstep
      have hmoved := moved_start s (.inGet id none)
        (if s.settled id then some (s.version id) else none)
      refine ⟨h.valid, hmoved.orderly h.orderly ?_,
        hmoved.cachedOk h (by simp) fun id' v hv => Or.inl hv, h.reads⟩
      show SinceOk _ id (Function.update s.since s.tasks.length _ s.tasks.length)
      rw [Function.update_self]
      exact hsince.later hmoved.later
  | update id req =>
      cases hstep
      have hmoved := moved_start s (.beforeWrite id req) (s.since s.tasks.length)
      rw [Function.update_eq_self] at hmoved
      exact ⟨h.valid, hmoved.orderly h.orderly trivial,
        hmoved.cachedOk h (by simp) fun id' v hv => Or.inl hv, h.reads⟩
  | step i input db =>
      obtain ⟨hdb, task, next, hi, hsteps, rfl⟩ := trafficStep_step hstep
      rw [StoresTimely, hi] at htimely
      exact current_advance hcodec h hi hdb htimely hsteps

/-- A cache that is empty is current. -/
theorem current_init (codec : Codec F) {policy : P} (hpolicy : LawfulPolicy.Tracks policy [])
    {capacity : Nat} (hcap : 1 ≤ capacity) (table : Db.Table F) :
    Current codec (Traffic.init capacity policy table) := by
  refine ⟨⟨sound_new hpolicy capacity, hcap⟩, ⟨?_, ?_⟩, ?_, ?_⟩
  · intro id u hu
    cases hu
  · intro u t ht
    simp [Traffic.init] at ht
  · intro id v hholds
    obtain ⟨expiresAt, hstored⟩ := hholds
    simp [Traffic.init, InMemoryCache.new, InMemoryCache.stored, InMemoryCache.entry] at hstored
  · intro read hread
    cases hread

/-- In a quiet service no store is to come, so the cache agrees with the rows. -/
theorem Current.inSync (h : Current codec s) (hquiet : s.quiet = true) : InSync codec s := by
  intro id value expiresAt hstored
  obtain ⟨p, hp, hmarshal | hawaited⟩ := h.cached id value ⟨expiresAt, hstored⟩
  · exact ⟨p, hp, hmarshal⟩
  · obtain ⟨u, id', p', call, _, htask⟩ := awaited_iff.mp hawaited
    have hover := List.all_eq_true.mp hquiet _ (List.mem_of_getElem? htask)
    cases hover

/-! ## A store that is not timely -/

/-- What a request stores is found as long as the clock stands still. -/
theorem perform_get_set (c : InMemoryCache P) (id : String) (b : Bytes) (input : CacheInput)
    {probe : CacheInput} (hprobe : probe.clock.check = input.now) :
    (perform (SharedCache.set c (cacheKey id) b writeThroughTTL input).2 probe
      (.get (cacheKey id))).2 = some b := by
  have hset : SharedCache.set c (cacheKey id) b writeThroughTTL input =
      (true, c.store (cacheKey id) b (input.now + writeThroughTTL) input.now input.policyNow
        input.draw) := by
    rcases set_cases c (cacheKey id) b writeThroughTTL input with hset | hset
    · have haccepted := acceptsWrites_inMemory c (cacheKey id) b input
      rw [hset] at haccepted
      cases haccepted
    · rw [hset, InMemoryCache.expiryOf, if_neg (by decide)]
  have hstored := stored_store_self c (cacheKey id) b (input.now + writeThroughTTL)
    input.now input.policyNow input.draw
  obtain ⟨e, he, heq⟩ := Option.map_eq_some_iff.mp hstored
  obtain ⟨rfl, hexpires⟩ := Prod.mk.inj heq
  have hfresh : e.isExpired probe.clock.check = false := by
    have hpos : (0 : Int) ≤ writeThroughTTL := by decide
    have hlate : ¬ input.now + writeThroughTTL < input.now :=
      Int.not_lt.mpr (Int.le_add_of_nonneg_right hpos)
    simp [CacheEntry.isExpired, Time.after, hprobe, hexpires, hlate]
  rw [hset]
  simp [perform, SharedCache.get, get_unexpired he hfresh]

omit [LawfulPolicy P] in
/-- After a store that is not timely the row has been returned by the update that
wrote it. -/
theorem Orderly.settled_of_untimely (h : Orderly s) {id : String} {p : Product F}
    (hi : s.tasks[i]? = some task) (hstore : task.toStore = some (id, p))
    (huntimely : ¬ Timely s id p) : s.settled id = true := by
  cases hwriter : s.writer id with
  | none =>
      -- Nothing was written, so the product that the request carries is the row.
      have hcarried := h.tasks i task hi
      have hrow : s.row id = some p := by
        cases task with
        | inPopulate id' p' call =>
            cases hstore
            exact hcarried.2 (Or.inr hwriter)
        | inOnWrite id' p' call =>
            cases hstore
            exact hcarried hwriter
        | _ => cases hstore
      exact absurd (Or.inl hrow) huntimely
  | some u =>
      obtain ⟨q, _, ⟨call, htask⟩ | htask⟩ := h.writers id u hwriter
      · exact absurd (Or.inr (awaited_iff.mpr ⟨u, id, q, call, hwriter, htask⟩)) huntimely
      · exact settled_iff.mpr ⟨u, .ok q, hwriter, htask⟩

/-- One `GetProduct` more, up to its answer from the cache. -/
def probe (s : Traffic P F) (id : String) (input : CacheInput) : List (TaskEvent CacheInput F) :=
  [.get id, .step s.tasks.length input ⟨none, 0⟩]

/-- A `GetProduct` that starts on a row which its update has returned, and hits,
returns what it hits. -/
theorem run_probe {id : String} {v : Bytes} {p : Product F} (hsettled : s.settled id = true)
    (hfound : (perform s.cache input (.get (cacheKey id))).2 = some v)
    (hread : codec.unmarshal v = some p) :
    ∃ s', run (trafficStep codec numeric) s (probe s id input) = some s' ∧
      ⟨.ok p, s.row id, true⟩ ∈ s'.reads := by
  let asked : Traffic P F :=
    { s with
      toRunning := s.toRunning.start (.inGet id none)
      since := Function.update s.since s.tasks.length (some (s.version id)) }
  have hstart : trafficStep codec numeric s (.get id) = some asked := by
    simp only [trafficStep, noted, TaskEvent.dbWorks, if_true, taskStep, Option.map_some,
      Traffic.note, hsettled, asked]
  have hi : asked.tasks[s.tasks.length]? = some (.inGet id none) := Running.start_self _ _
  have hnext : (Task.inGet id none : Task F Empty).next codec numeric .writeThrough asked.cache
      asked.table input ⟨none, 0⟩ =
        some { cache := (perform s.cache input (.get (cacheKey id))).1, table := s.table
               task := .read id (.ok (p, .hit)) } := by
    simp only [Task.next, Task.callNext, SteppedCache.advance, Option.map_some, Task.resume, asked,
      Running.start, hfound, Task.afterGet, hread]
  refine ⟨_, by rw [probe, run_cons, hstart, Option.bind_some, run_cons,
    trafficStep_next hi hnext, Option.bind_some, run_nil], ?_⟩
  have hversion : (asked.since s.tasks.length == some (asked.version id)) = true := by
    simp [asked]
  simp only [Traffic.arrived, hversion]
  exact List.mem_cons_self

/-- A `GetProduct` that only asks the cache stores nothing. -/
theorem along_probe (id : String) :
    Along (trafficStep codec numeric) StoresTimely s (probe s id input) := by
  refine ⟨trivial, ?_⟩
  intro m hm
  cases hm
  refine ⟨?_, fun _ _ => trivial⟩
  intro store hstore
  simp [Traffic.note, Running.start, Task.toStore] at hstore

/-- **A store that is not timely makes the next read stale.** -/
theorem stale_after_untimely (hcodec : codec.RoundTrip) (h : Current codec s)
    {e : TaskEvent CacheInput F} (huntimely : ¬ StoresTimely s e)
    (hstep : trafficStep codec numeric s e = some s') :
    ∃ id input s'', run (trafficStep codec numeric) s' (probe s' id input) = some s'' ∧
      ¬ ReadsCurrent s'' := by
  cases e with
  | get id => exact absurd trivial huntimely
  | update id req => exact absurd trivial huntimely
  | step i input db =>
      obtain ⟨_, task, next, hi, hsteps, rfl⟩ := trafficStep_step hstep
      simp only [StoresTimely, hi, Option.bind_some, not_forall] at huntimely
      obtain ⟨⟨id, p⟩, hstore, hlate⟩ := huntimely
      obtain ⟨b, hb, hread⟩ := hcodec p
      obtain ⟨hcache, hmoved⟩ := steps_store hi hstore hb hsteps
      have hsettled := h.orderly.settled_of_untimely hi hstore hlate
      have hsettled' :
          (s.arrived i (s.toRunning.after i next) (some next.task)).settled id = true := by
        rcases hmoved.later id with ⟨_, _, _, hkept⟩ | ⟨hnewer, _⟩
        · exact hkept hsettled
        · rw [hmoved.version] at hnewer
          omega
      have hfound : (perform (s.arrived i (s.toRunning.after i next) (some next.task)).cache
          (.atTime input.now) (.get (cacheKey id))).2 = some b := by
        rw [Traffic.toRunning_arrived, Running.after, hcache]
        exact perform_get_set s.cache id b input rfl
      obtain ⟨s'', hrun, hnoted⟩ := run_probe hsettled' hfound hread
      refine ⟨id, .atTime input.now, s'', hrun, ?_⟩
      intro hreads
      obtain ⟨q, hq, hanswer⟩ := hreads _ hnoted rfl
      cases hanswer
      exact hlate (Or.inl ((hmoved.row id).symm.trans hq))

end Invariant

/-! ## The result -/

/-- **When write-through is coherent.**  If every store is timely, then in every
state of the run the cache of a quiet service agrees with the database, and no
read that started after an update had returned is stale.  And every store has to
be timely: at the first one that is not, one more `GetProduct` would be stale. -/
theorem coherence_iff_timely {F : Type} (codec : Codec F) (hcodec : codec.RoundTrip)
    (numeric : F → F) (kind : PolicyKind) (capacity : Nat) (hcap : 1 ≤ capacity)
    (table : Db.Table F) (start : Traffic Policy F)
    (hstart : start = Traffic.init capacity (newPolicy kind) table)
    (evs : List (TaskEvent CacheInput F)) (s : Traffic Policy F)
    (h : run (trafficStep codec numeric) start evs = some s) :
    (Along (trafficStep codec numeric) StoresTimely start evs →
      Throughout (trafficStep codec numeric)
        (fun m => (m.quiet = true → InSync codec m) ∧ ReadsCurrent m) start evs) ∧
    (Along (trafficStep codec numeric) StoresTimely start evs ↔
      ∀ pre post m, evs = pre ++ post → run (trafficStep codec numeric) start pre = some m →
        ∀ id input m', run (trafficStep codec numeric) m (probe m id input) = some m' →
          ReadsCurrent m') := by
  have hinit : Current codec start := by
    rw [hstart]
    exact current_init codec (tracks_newPolicy kind) hcap table
  have hstep : ∀ (m : Traffic Policy F) e m', Current codec m → StoresTimely m e →
      trafficStep codec numeric m e = some m' → Current codec m' :=
    fun m e m' hm hP he => current_step hcodec hm hP he
  refine ⟨?_, ?_, ?_⟩
  · intro halong
    exact (throughout_of_along hstep hinit halong).mono fun m hm => ⟨hm.inSync, hm.reads⟩
  · intro halong pre post m hevs hpre id input m' hprobe
    rw [hevs] at halong
    have hm := run_invariant_along hstep hinit (along_append.mp halong).1 hpre
    exact (run_invariant_along hstep hm (along_probe id) hprobe).reads
  · intro hprobes
    by_contra hbreak
    obtain ⟨pre, e, post, m, m', hevs, hpre, halong, huntimely, he⟩ :=
      exists_first_break h hbreak
    have hm := run_invariant_along hstep hinit halong hpre
    obtain ⟨id, input, m'', hprobe, hstale⟩ := stale_after_untimely hcodec hm huntimely he
    refine hstale (hprobes (pre ++ [e]) post m' ?_ (run_snoc hpre he) id input m'' hprobe)
    rw [hevs, List.append_assoc, List.singleton_append]

/-- A service for one entry, on a table with the mat. -/
def sampleTraffic : Traffic Policy Nat :=
  .init 1 (newPolicy .lru) (AList.singleton "p3" sampleMat)

/-- A read and an update overlap, and the update stores last. -/
def updateStoresLast : List (TaskEvent CacheInput Nat) :=
  [.get "p3", .step 0 (.atTime 1) ⟨none, 0⟩, .step 0 (.atTime 1) ⟨none, 0⟩,
   .update "p3" ⟨none, none, some 45, none⟩, .step 1 (.atTime minute) ⟨none, minute⟩,
   .step 0 (.atTime minute) ⟨none, 0⟩, .step 1 (.atTime minute) ⟨none, 0⟩,
   .get "p3", .step 2 (.atTime minute) ⟨none, 0⟩]

/-- The update stores last, so the entry is current and the second read is. -/
theorem coherence_iff_timely_updateStoresLast :
    ∃ s, run (trafficStep sampleCodec id) sampleTraffic updateStoresLast = some s ∧
      s.reads.map Read.answer =
        [.ok (dbToAPIProduct sampleMatReduced), .ok (dbToAPIProduct sampleMat)] ∧
      Along (trafficStep sampleCodec id) StoresTimely sampleTraffic updateStoresLast ∧
      s.quiet = true ∧ InSync sampleCodec s ∧ ReadsCurrent s := by
  obtain ⟨s, hrun, hquiet, hreads⟩ : ∃ s,
      run (trafficStep sampleCodec id) sampleTraffic updateStoresLast = some s ∧
      s.quiet = true ∧ s.reads.map Read.answer =
        [.ok (dbToAPIProduct sampleMatReduced), .ok (dbToAPIProduct sampleMat)] := by
    exact exists_run (by decide +kernel) (by decide +kernel)
  have halong : Along (trafficStep sampleCodec id) StoresTimely sampleTraffic
      updateStoresLast := by decide +kernel
  have hlast := ((coherence_iff_timely sampleCodec sampleCodec_roundTrip id .lru 1
    (Nat.le_refl 1) _ sampleTraffic rfl updateStoresLast s hrun).1 halong).last hrun
  exact ⟨s, hrun, hreads, halong, hquiet, hlast.1 hquiet, hlast.2⟩

/-- A read and an update overlap, and the read stores last, what it read before the
update.  Then the mat is read again. -/
def readStoresLast : List (TaskEvent CacheInput Nat) :=
  [.get "p3", .step 0 (.atTime 1) ⟨none, 0⟩, .step 0 (.atTime 1) ⟨none, 0⟩,
   .update "p3" ⟨none, none, some 45, none⟩, .step 1 (.atTime minute) ⟨none, minute⟩,
   .step 1 (.atTime minute) ⟨none, 0⟩, .step 0 (.atTime minute) ⟨none, 0⟩,
   .get "p3", .step 2 (.atTime (2 * minute)) ⟨none, 0⟩]

/-- The service is quiet, the old row is cached and not expired, and the last read,
which started after the update had returned, is stale. -/
theorem stale_when_read_stores_last :
    ∃ s, run (trafficStep sampleCodec id) sampleTraffic readStoresLast = some s ∧ s.quiet = true ∧
      s.row "p3" = some (dbToAPIProduct sampleMatReduced) ∧
      s.cache.stored (cacheKey "p3") =
        some (sampleMatJson, minute + writeThroughTTL) ∧
      ¬ InSync sampleCodec s ∧ ¬ ReadsCurrent s := by
  obtain ⟨s, hrun, hquiet, hrow, hstored, hread⟩ : ∃ s,
      run (trafficStep sampleCodec id) sampleTraffic readStoresLast = some s ∧
      s.quiet = true ∧ s.row "p3" = some (dbToAPIProduct sampleMatReduced) ∧
        s.cache.stored (cacheKey "p3") = some (sampleMatJson, minute + writeThroughTTL) ∧
        ⟨.ok (dbToAPIProduct sampleMat), some (dbToAPIProduct sampleMatReduced), true⟩ ∈
          s.reads := by
    exact exists_run (by decide +kernel) (by decide +kernel)
  refine ⟨s, hrun, hquiet, hrow, hstored, ?_, ?_⟩
  · intro hsync
    obtain ⟨p, hp, hmarshal⟩ := hsync "p3" sampleMatJson (minute + writeThroughTTL) hstored
    cases hrow.symm.trans hp
    exact absurd hmarshal (by decide)
  · intro hreads
    obtain ⟨p, hp, hanswer⟩ := hreads _ hread rfl
    cases hp
    exact absurd hanswer (by decide)

end Api
