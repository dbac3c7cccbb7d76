import DistributedCaching.BoundedStaleness
import DistributedCaching.WriteThroughTraffic

/-!
# Calls that are not interrupted

The requests of the service are modelled twice: as whole functions, and step by
step for interleavings.  This file ties the two together.  A request whose
goroutine runs alone does what `getProduct` and `updateProduct` do (`get_alone`,
`update_alone`), for every cache whose calls, if they are not interrupted, do what
its operations do (`Agrees`).  That is so for a cache whose calls are single steps
and for the in-memory cache between its locks.

The services with notes take the same runs, so the same is true of them.
-/

namespace Api

open Go Cache Eviction TransitionRuns

/-! ## Calls of a cache -/

section Calls

variable {C L I J : Type} [SteppedCache C L I]

/-- The steps of a call that nothing interrupts, from a point of the call to the cache
after it and what it has found. -/
inductive Performs (req : Cache.Request) : C → Option L → List I → C → Option Bytes → Prop
  | last {c c' : C} {call : Option L} {input : I} {found : Option Bytes}
      (hlast : SteppedCache.advance c input req call = some (c', .returned found)) :
      Performs req c call [input] c' found
  | more {c m c' : C} {call : Option L} {point : L} {input : I} {inputs : List I}
      {found : Option Bytes}
      (hfirst : SteppedCache.advance c input req call = some (m, .inside point))
      (hrest : Performs req m (some point) inputs c' found) :
      Performs req c call (input :: inputs) c' found

/-- A call whose steps all take inputs that meet `ok` does what the operation does when it
reads `j`. -/
def Agrees (C L : Type) [SteppedCache C L I] [SharedCache C J] (ok : I → Prop) (j : J) : Prop :=
  ∀ (c : C) (req : Cache.Request), ∃ inputs, (∀ input ∈ inputs, ok input) ∧
    Performs req c (none : Option L) inputs (perform c j req).1 (perform c j req).2

/-- A call that is one step is the operation. -/
theorem agrees_single [SharedCache C J] (j : J) : Agrees C Empty (fun _ : J => True) j :=
  fun _ _ => ⟨[j], fun _ _ => trivial, .last rfl⟩

end Calls

section InMemory

variable {P : Type} [EvictionPolicy P]

/-- A step of the in-memory cache inside a call. -/
theorem Performs.of_advance {req : Cache.Request} {c c' : InMemoryCache P} {call : Option Call}
    {inp : Inputs} {inputs : List Inputs} {found : Option Bytes} (m : InMemoryCache P)
    (point : Call)
    (hadvance : Cache.advance c inp (call.getD req.start) = some (m, point))
    (hinside : point.state = .inside point)
    (hrest : Performs req m (some point) inputs c' found) :
    Performs req c call (inp :: inputs) c' found := by
  refine .more ?_ hrest
  show (Cache.advance c inp (call.getD req.start)).map _ = _
  rw [hadvance, Option.map_some, hinside]

/-- The last step of the in-memory cache in a call. -/
theorem Performs.of_returned {req : Cache.Request} {c c' : InMemoryCache P} {call : Option Call}
    {inp : Inputs} (result : Result)
    (hadvance : Cache.advance c inp (call.getD req.start) = some (c', .returned result)) :
    Performs req c call [inp] c' result.found := by
  refine .last ?_
  show (Cache.advance c inp (call.getD req.start)).map _ = _
  rw [hadvance]
  rfl

/-- A `Get` of the in-memory cache that is not interrupted. -/
theorem performs_get (c : InMemoryCache P) (key : String) (now : Time) :
    ∃ inputs, (∀ inp ∈ inputs, inp.now = now) ∧
      Performs (.get key) c (none : Option Call) inputs (c.get key ⟨now, now, now, now⟩).2
        (c.get key ⟨now, now, now, now⟩).1 := by
  let inp : Inputs := ⟨now, now, 0⟩
  cases hr : c.entries.lookup key with
  | none =>
      refine ⟨[inp], by simp [inp], ?_⟩
      have hget : c.get key ⟨now, now, now, now⟩ = (none, c) := by simp [InMemoryCache.get, hr]
      rw [hget]
      refine .of_returned (.got none) ?_
      simp [Request.start, Cache.advance, hr]
  | some r =>
      have hlookup : Cache.advance c inp (.getLookup key) = some (c, .getCheck key r) := by
        simp [Cache.advance, hr]
      by_cases hexpired : (c.memory r).isExpired now = true
      · refine ⟨[inp, inp, inp], by simp [inp], ?_⟩
        have hget : c.get key ⟨now, now, now, now⟩ = (none, c.reap key now) := by
          simp [InMemoryCache.get, hr, hexpired]
        rw [hget]
        refine .of_advance c _ hlookup rfl (.of_advance c (.getReap key) ?_ rfl ?_)
        · simp [Cache.advance, inp, hexpired]
        · exact .of_returned (.got none) rfl
      · refine ⟨[inp, inp, inp, inp], by simp [inp], ?_⟩
        have hget : c.get key ⟨now, now, now, now⟩ =
            (some ((c.touch key r now now).memory r).value, c.touch key r now now) := by
          simp [InMemoryCache.get, hr, hexpired]
        rw [hget]
        refine .of_advance c _ hlookup rfl (.of_advance c (.getTouch key r) ?_ rfl ?_)
        · simp [Cache.advance, inp, hexpired]
        · refine .of_advance _ (.getRead r) rfl rfl ?_
          exact .of_returned (.got (some _)) rfl

/-- A `Set` of the in-memory cache that is not interrupted: it stores its value, or returns
the error of the check. -/
theorem performs_set (c : InMemoryCache P) (key : String) (value : Bytes) (ttl : Duration)
    (now : Time) :
    ∃ inputs, (∀ inp ∈ inputs, inp.now = now) ∧
      Performs (.set key value ttl) c (none : Option Call) inputs
        (SharedCache.set c key value ttl (CacheInput.atTime now)).2 none := by
  let inp : Inputs := ⟨now, now, 0⟩
  cases hvalid : InMemoryCache.validateTTL ttl with
  | error e =>
      have hset : (SharedCache.set c key value ttl (CacheInput.atTime now)).2 = c := by
        simp [SharedCache.set, InMemoryCache.set, hvalid]
      rw [hset]
      refine ⟨[inp], by simp [inp], .of_returned (.rejected e) ?_⟩
      simp [Request.start, Cache.advance, hvalid]
  | ok u =>
      have hset : (SharedCache.set c key value ttl (CacheInput.atTime now)).2 =
          c.store key value (InMemoryCache.expiryOf now ttl) now now 0 := by
        simp [SharedCache.set, InMemoryCache.set, hvalid, CacheInput.atTime]
      rw [hset]
      refine ⟨[inp, inp], by simp [inp], ?_⟩
      refine .of_advance c (.setStore key value (InMemoryCache.expiryOf now ttl) now) ?_ rfl ?_
      · simp [Request.start, Cache.advance, hvalid, inp]
      · exact .of_returned .stored rfl

/-- A call of the in-memory cache whose steps all read one time does what the method does. -/
theorem agrees_inMemory (now : Time) :
    Agrees (InMemoryCache P) Call (fun inp => inp.now = now) (CacheInput.atTime now) := by
  intro c req
  cases req with
  | get key => exact performs_get c key now
  | set key value ttl => exact performs_set c key value ttl now
  | delete key =>
      exact ⟨[⟨now, now, 0⟩], by simp, .of_returned .deleted rfl⟩

end InMemory

/-! ## Requests -/

section Requests

variable {C L I J F : Type} [SharedCache C J] [SteppedCache C L I]

/-- The event is a step of goroutine `n` alone, with inputs that meet `ok`. -/
def Only (n : Nat) (ok : I → Prop) (db : DbInput) (ev : TaskEvent I F) : Prop :=
  ∃ input, ok input ∧ ev = .step n input db

variable {codec : Codec F} {numeric : F → F} {strategy : Strategy} {ok : I → Prop}
  {db : DbInput} {c c' : C} {table : Db.Table F} {older : List (Task F L)}

/-- The newest goroutine takes its next step. -/
theorem reaches_next {task task' : Task F L} {started : List (Task F L)} {input : I}
    {table' : Db.Table F} (hok : ok input)
    (hnext : task.next codec numeric strategy c table input db =
      some { cache := c', table := table', task := task', started := started }) :
    TransitionRuns.Reaches (taskStep codec numeric strategy) (Only older.length ok db)
      ⟨⟨c, table⟩, older ++ [task]⟩ ⟨⟨c', table'⟩, older ++ task' :: started⟩ := by
  refine .single ⟨input, hok, rfl⟩ ?_
  simp [taskStep, hnext, Running.after]

/-- The newest goroutine takes the steps of a call of the cache. -/
theorem reaches_call {req : Cache.Request} {call : Option L} {inputs : List I}
    {found : Option Bytes} {within : Option L → Task F L} {past : Option Bytes → Task F L}
    (hperforms : Performs req c call inputs c' found) (hok : ∀ input ∈ inputs, ok input)
    (hwithin : ∀ (c : C) (input : I) call,
      (within call).next codec numeric strategy c table input db =
        Task.callNext c table input req call within past) :
    TransitionRuns.Reaches (taskStep codec numeric strategy) (Only older.length ok db)
      ⟨⟨c, table⟩, older ++ [within call]⟩ ⟨⟨c', table⟩, older ++ [past found]⟩ := by
  induction hperforms with
  | last hlast =>
      refine reaches_next (hok _ List.mem_cons_self) ?_
      rw [hwithin, Task.callNext, hlast]
      rfl
  | more hfirst hrest ih =>
      refine TransitionRuns.Reaches.trans ?_
        (ih fun input hinput => hok input (List.mem_cons_of_mem _ hinput))
      refine reaches_next (hok _ List.mem_cons_self) ?_
      rw [hwithin, Task.callNext, hfirst]
      rfl

/-- A call of the cache does what the operation does. -/
theorem Agrees.reaches {j : J} (hagrees : Agrees C L ok j) (c : C) (req : Cache.Request)
    (within : Option L → Task F L) (past : Option Bytes → Task F L)
    (hwithin : ∀ (c : C) (input : I) call,
      (within call).next codec numeric strategy c table input db =
        Task.callNext c table input req call within past) :
    TransitionRuns.Reaches (taskStep codec numeric strategy) (Only older.length ok db)
      ⟨⟨c, table⟩, older ++ [within none]⟩
      ⟨⟨(perform c j req).1, table⟩, older ++ [past (perform c j req).2]⟩ := by
  obtain ⟨inputs, hok, hperforms⟩ := hagrees c req
  exact reaches_call hperforms hok hwithin

/-- A `GetProduct`, from its query of the database on. -/
theorem fetch_alone {input : I} (hinput : ok input) {i : GetInput J}
    (hset : Agrees C L ok i.set) (hdb : db.failure = i.dbFailure) {id : String}
    (hmiss : checkCache codec c id i.lookup i.delete = (none, c')) :
    TransitionRuns.Reaches (taskStep codec numeric strategy) (Only older.length ok db)
      ⟨⟨c', table⟩, older ++ [.beforeFetch id]⟩
      ⟨⟨(getProduct codec c table id i).2, table⟩,
        older ++ [.read id (getProduct codec c table id i).1]⟩ := by
  cases hrow : Db.getProduct table i.dbFailure id with
  | error e =>
      have hget : getProduct codec c table id i = (.error (Task.fetchError e), c') := by
        cases e <;> simp only [getProduct, hmiss, hrow, Task.fetchError]
      rw [hget]
      refine reaches_next hinput ?_
      simp only [Task.next, hdb, hrow]
  | ok row =>
      have hget : getProduct codec c table id i = (.ok (dbToAPIProduct row, .miss),
          populate codec c' id (dbToAPIProduct row) i.set) := by
        simp only [getProduct, hmiss, hrow]
      have hfetch : (Task.beforeFetch id : Task F L).next codec numeric strategy c' table input
          db = some { cache := c', table, task := .inPopulate id (dbToAPIProduct row) none } := by
        simp only [Task.next, hdb, hrow]
      rw [hget]
      refine (reaches_next hinput hfetch).trans ?_
      cases hbytes : codec.marshal (dbToAPIProduct row) with
      | none =>
          simp only [populate, hbytes]
          refine reaches_next hinput ?_
          simp only [Task.next, hbytes]
      | some bytes =>
          simp only [populate, hbytes]
          refine hset.reaches c' (.set (cacheKey id) bytes defaultProductTTL)
            (.inPopulate id (dbToAPIProduct row))
            (fun _ => .read id (.ok (dbToAPIProduct row, .miss))) ?_
          intro c input call
          simp only [Task.next, hbytes]

/-- **A `GetProduct` alone** does what `getProduct` does. -/
theorem get_alone (input : I) (hinput : ok input) {i : GetInput J}
    (hlookup : Agrees C L ok i.lookup) (hdelete : Agrees C L ok i.delete)
    (hset : Agrees C L ok i.set) (hdb : db.failure = i.dbFailure) (s : Running C F L)
    (id : String) :
    TransitionRuns.Reaches (taskStep codec numeric strategy) (Only s.tasks.length ok db)
      (s.start (.inGet id none))
      ⟨⟨(getProduct codec s.cache s.table id i).2, s.table⟩,
        s.tasks ++ [.read id (getProduct codec s.cache s.table id i).1]⟩ := by
  rcases hget : SharedCache.get s.cache (cacheKey id) i.lookup with ⟨found, c⟩
  have hperform : perform s.cache i.lookup (.get (cacheKey id)) = (c, found.join) := by
    simp only [perform, hget]
  have hasked : TransitionRuns.Reaches (taskStep codec numeric strategy)
      (Only s.tasks.length ok db) (s.start (.inGet id none))
      ⟨⟨(perform s.cache i.lookup (.get (cacheKey id))).1, s.table⟩,
        s.tasks ++ [.afterGet codec id (perform s.cache i.lookup (.get (cacheKey id))).2]⟩ :=
    hlookup.reaches s.cache _ (.inGet id) (.afterGet codec id) (fun _ _ _ => rfl)
  rw [hperform] at hasked
  refine hasked.trans ?_
  cases hfound : found.join with
  | none =>
      have hmiss : checkCache codec s.cache id i.lookup i.delete = (none, c) := by
        rcases found with _ | _ | value
        · simp only [checkCache, hget]
        · simp only [checkCache, hget]
        · cases hfound
      exact fetch_alone hinput hset hdb hmiss
  | some value =>
      cases Option.join_eq_some_iff.mp hfound
      cases hread : codec.unmarshal value with
      | some p =>
          have hhit : getProduct codec s.cache s.table id i = (.ok (p, .hit), c) := by
            simp only [getProduct, checkCache, hget, hread]
          rw [hhit]
          simp only [Task.afterGet, hread]
          exact .refl _ _
      | none =>
          have hmiss : checkCache codec s.cache id i.lookup i.delete =
              (none, (SharedCache.delete c (cacheKey id) i.delete).2) := by
            simp only [checkCache, hget, hread]
          simp only [Task.afterGet, hread]
          refine TransitionRuns.Reaches.trans ?_ (fetch_alone hinput hset hdb hmiss)
          exact hdelete.reaches c (.delete (cacheKey id)) (.inDiscard id)
            (fun _ => .beforeFetch id) (fun _ _ _ => rfl)

/-- **An `UpdateProduct` alone** does what `updateProduct` does, and starts the deletions
that it schedules. -/
theorem update_alone (input : I) (hinput : ok input) {i : WriteInput J}
    (hset : Agrees C L ok i.set) (s : Running C F L) (id : String)
    (req : ProductUpdateRequest F) :
    TransitionRuns.Reaches (taskStep codec numeric strategy)
      (Only s.tasks.length ok ⟨i.dbFailure, i.dbNow⟩) (s.start (.beforeWrite id req))
      (let w := updateProduct codec numeric strategy s.cache s.table id req i
       ⟨⟨w.cache, w.table⟩,
        s.tasks ++ .updated w.answer :: w.scheduled.map fun key => .inDelete key none⟩) := by
  cases hwrite : Db.updateProduct numeric s.table i.dbFailure i.dbNow id req.toDb with
  | error e =>
      have hw : updateProduct codec numeric strategy s.cache s.table id req i =
          ⟨.error (Task.writeError e), s.cache, s.table, []⟩ := by
        cases e <;> simp only [updateProduct, hwrite, Task.writeError]
      rw [hw]
      refine reaches_next hinput ?_
      simp only [Task.next, hwrite, List.map_nil]
  | ok written =>
      obtain ⟨row, table⟩ := written
      have hw : updateProduct codec numeric strategy s.cache s.table id req i =
          ⟨.ok (dbToAPIProduct row),
            (invalidate codec strategy s.cache id (dbToAPIProduct row) i.set).1, table,
            (invalidate codec strategy s.cache id (dbToAPIProduct row) i.set).2⟩ := by
        simp only [updateProduct, hwrite]
      have hnext : (Task.beforeWrite id req : Task F L).next codec numeric strategy s.cache
          s.table input ⟨i.dbFailure, i.dbNow⟩ =
          some { cache := s.cache, table, task := .inOnWrite id (dbToAPIProduct row) none } := by
        simp only [Task.next, hwrite]
      rw [hw]
      refine (reaches_next hinput hnext).trans ?_
      cases strategy with
      | ttl => exact reaches_next hinput rfl
      | writeThrough =>
          exact hset.reaches s.cache (.set (cacheKey id) _ writeThroughTTL)
            (.inOnWrite id (dbToAPIProduct row)) (fun _ => .updated (.ok (dbToAPIProduct row)))
            (fun _ _ _ => rfl)
      | writeBehind => exact reaches_next hinput rfl

end Requests

/-! ## Services with notes -/

section Noted

variable {P F : Type} [EvictionPolicy P] {codec : Codec F} {numeric : F → F}
  {strategy : Strategy}

/-- A run of the service in which the database works is one of the service with notes. -/
theorem exists_traffic_run (s : Traffic P F) {evs : List (TaskEvent CacheInput F)}
    (hworks : ∀ ev ∈ evs, ev.dbWorks = true) {t : Running (InMemoryCache P) F Empty}
    (hrun : run (taskStep codec numeric .writeThrough) s.toRunning evs = some t) :
    ∃ s', run (trafficStep codec numeric) s evs = some s' ∧ s'.toRunning = t :=
  exists_noted_run (I := fun _ => True) Traffic.toRunning_note
    (fun _ _ ev hev => hworks ev hev) (fun _ _ _ _ _ => trivial) trivial hrun

/-- A run of the service whose steps all read one time is one of the service with notes. -/
theorem exists_interleaved_run (s : Interleaved P F) {now : Time} (hclock : s.clock ≤ now)
    {evs : List (TaskEvent Inputs F)}
    (hnow : ∀ ev ∈ evs, ∀ i inp db, ev = .step i inp db → inp.now = now)
    {t : Running (InMemoryCache P) F Call}
    (hrun : run (taskStep codec numeric strategy) s.toRunning evs = some t) :
    ∃ s', run (jobStep codec numeric strategy) s evs = some s' ∧ s'.toRunning = t := by
  refine exists_noted_run (I := fun m => m.clock ≤ now) Interleaved.toRunning_note ?_ ?_ hclock
    hrun
  · intro m hm ev hev
    cases ev with
    | step i inp db => exact decide_eq_true (hnow _ hev i inp db rfl ▸ hm)
    | _ => rfl
  · intro m next hm ev hev
    cases ev with
    | step i inp db => exact Int.le_of_eq (hnow _ hev i inp db rfl)
    | _ => exact hm

/-- A `GetProduct` alone, of the service under write-through. -/
theorem traffic_get_alone (s : Traffic P F) (id : String) {i : GetInput CacheInput}
    (hdb : i.dbFailure = none) :
    ∃ evs s', run (trafficStep codec numeric) s (.get id :: evs) = some s' ∧
      s'.toRunning = ⟨⟨(getProduct codec s.cache s.table id i).2, s.table⟩,
        s.tasks ++ [.read id (getProduct codec s.cache s.table id i).1]⟩ := by
  have hreaches : TransitionRuns.Reaches (taskStep codec numeric .writeThrough)
      (Only s.tasks.length (fun _ : CacheInput => True) ⟨none, 0⟩)
      (s.toRunning.start (.inGet id none)) _ :=
    get_alone i.lookup trivial (agrees_single i.lookup) (agrees_single i.delete)
      (agrees_single i.set) hdb.symm s.toRunning id
  obtain ⟨evs, honly, hrun⟩ := hreaches
  refine ⟨evs, exists_traffic_run s ?_ hrun⟩
  intro ev hev
  rcases List.mem_cons.mp hev with rfl | hev
  · rfl
  · obtain ⟨input, _, rfl⟩ := honly ev hev
    rfl

/-- An `UpdateProduct` alone, of the service under write-through. -/
theorem traffic_update_alone (s : Traffic P F) (id : String) (req : ProductUpdateRequest F)
    {i : WriteInput CacheInput} (hdb : i.dbFailure = none) :
    let w := updateProduct codec numeric .writeThrough s.cache s.table id req i
    ∃ evs s', run (trafficStep codec numeric) s (.update id req :: evs) = some s' ∧
      s'.toRunning = ⟨⟨w.cache, w.table⟩,
        s.tasks ++ .updated w.answer :: w.scheduled.map fun key => .inDelete key none⟩ := by
  intro w
  have hreaches : TransitionRuns.Reaches (taskStep codec numeric .writeThrough)
      (Only s.tasks.length (fun _ : CacheInput => True) ⟨i.dbFailure, i.dbNow⟩)
      (s.toRunning.start (.beforeWrite id req)) _ :=
    update_alone i.set trivial (agrees_single i.set) s.toRunning id req
  obtain ⟨evs, honly, hrun⟩ := hreaches
  refine ⟨evs, exists_traffic_run s ?_ hrun⟩
  intro ev hev
  rcases List.mem_cons.mp hev with rfl | hev
  · rfl
  · obtain ⟨input, _, rfl⟩ := honly ev hev
    rw [TaskEvent.dbWorks, hdb]
    rfl

/-- A `GetProduct` alone, of the service whose calls of the cache have steps. -/
theorem job_get_alone (s : Interleaved P F) (id : String) {now : Time} (hclock : s.clock ≤ now) :
    ∃ evs s', run (jobStep codec numeric strategy) s (.get id :: evs) = some s' ∧
      s'.toRunning = ⟨⟨(getProduct codec s.cache s.table id (.atTime now)).2, s.table⟩,
        s.tasks ++ [.read id (getProduct codec s.cache s.table id (.atTime now)).1]⟩ := by
  have hreaches : TransitionRuns.Reaches (taskStep codec numeric strategy)
      (Only s.tasks.length (fun inp : Inputs => inp.now = now) ⟨none, now⟩)
      (s.toRunning.start (.inGet id none)) _ :=
    get_alone (i := .atTime now) ⟨now, now, 0⟩ (by rfl) (agrees_inMemory now) (agrees_inMemory now)
      (agrees_inMemory now) rfl s.toRunning id
  obtain ⟨evs, honly, hrun⟩ := hreaches
  refine ⟨evs, exists_interleaved_run s hclock ?_ hrun⟩
  intro ev hev i inp db heq
  rcases List.mem_cons.mp hev with rfl | hev
  · cases heq
  · obtain ⟨input, hnow, rfl⟩ := honly ev hev
    cases heq
    exact hnow

/-- An `UpdateProduct` alone, of the service whose calls of the cache have steps. -/
theorem job_update_alone (s : Interleaved P F) (id : String) (req : ProductUpdateRequest F)
    {now : Time} (hclock : s.clock ≤ now) :
    let w := updateProduct codec numeric strategy s.cache s.table id req (.atTime now)
    ∃ evs s', run (jobStep codec numeric strategy) s (.update id req :: evs) = some s' ∧
      s'.toRunning = ⟨⟨w.cache, w.table⟩,
        s.tasks ++ .updated w.answer :: w.scheduled.map fun key => .inDelete key none⟩ := by
  intro w
  have hreaches : TransitionRuns.Reaches (taskStep codec numeric strategy)
      (Only s.tasks.length (fun inp : Inputs => inp.now = now) ⟨none, now⟩)
      (s.toRunning.start (.beforeWrite id req)) _ :=
    update_alone (i := .atTime now) ⟨now, now, 0⟩ (by rfl) (agrees_inMemory now) s.toRunning id req
  obtain ⟨evs, honly, hrun⟩ := hreaches
  refine ⟨evs, exists_interleaved_run s hclock ?_ hrun⟩
  intro ev hev i inp db heq
  rcases List.mem_cons.mp hev with rfl | hev
  · cases heq
  · obtain ⟨input, hnow, rfl⟩ := honly ev hev
    cases heq
    exact hnow

end Noted

end Api
