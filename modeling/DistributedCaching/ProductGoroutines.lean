import DistributedCaching.CacheInterleaving
import DistributedCaching.CacheTransparency

/-!
# The goroutines of the product service

`GetProduct`, `UpdateProduct` and the deletions that write-behind leaves to the
background, as one program for interleavings.  A goroutine is a `Task` at its
program point, `Task.next` is its next step, and a service takes the steps of its
goroutines in any order.

How a call of the cache proceeds is left open (`SteppedCache`).  A cache that is
known through its interface only takes every call in one step.  The in-memory
cache takes the steps between its locks, so that other goroutines come in between.

The interleavings of the service are studied with different notes beside them,
but the program, and `Task.Steps` which says what one step of it can do, is the
same for all.
-/

namespace Cache

/-- Where a call of the cache is after a step: at a point inside, or returned with what it
has found.  What a `Set` or a `Delete` returns is not used. -/
inductive CallState (L : Type)
  | inside (point : L)
  | returned (found : Option Go.Bytes)

/-- What a call has found. -/
def Result.found : Result → Option Go.Bytes
  | .got value => value
  | _ => none

def Call.state : Call → CallState Call
  | .returned result => .returned result.found
  | call => .inside call

end Cache

namespace Api

open Go Cache Eviction TransitionRuns

/-! ## The calls of a cache -/

/-- A cache whose calls take steps.  `L` are the points inside a call. -/
class SteppedCache (C L : Type) (I : outParam Type) where
  /-- The next step of a call, from a point inside or from its start. -/
  advance : C → I → Cache.Request → Option L → Option (C × CallState L)

section Calls

variable {C I P : Type}

/-- A call as one step.  An error of a `Get` counts as a miss. -/
def perform [SharedCache C I] (c : C) (i : I) : Cache.Request → C × Option Bytes
  | .get key => ((SharedCache.get c key i).2, (SharedCache.get c key i).1.join)
  | .set key value ttl => ((SharedCache.set c key value ttl i).2, none)
  | .delete key => ((SharedCache.delete c key i).2, none)

/-- A cache behind its interface: no call has a point inside. -/
instance [SharedCache C I] : SteppedCache C Empty I where
  advance c i req _ := some ((perform c i req).1, .returned (perform c i req).2)

/-- The in-memory cache between its locks. -/
instance [EvictionPolicy P] : SteppedCache (InMemoryCache P) Call Inputs where
  advance c inp req call :=
    (Cache.advance c inp (call.getD req.start)).map fun next => (next.1, next.2.state)

end Calls

/-! ## The program -/

/-- A goroutine at its program point. -/
inductive Task (F L : Type)
  /-- `GetProduct`, in `cache.Get`. -/
  | inGet (id : String) (call : Option L)
  /-- `GetProduct`, in `cache.Delete` for an entry that it could not read. -/
  | inDiscard (id : String) (call : Option L)
  /-- `GetProduct`, before it asks the database. -/
  | beforeFetch (id : String)
  /-- `GetProduct`, populating the cache. -/
  | inPopulate (id : String) (product : Product F) (call : Option L)
  /-- `UpdateProduct`, before it writes to the database. -/
  | beforeWrite (id : String) (req : ProductUpdateRequest F)
  /-- `UpdateProduct`, in `OnWrite` of the strategy. -/
  | inOnWrite (id : String) (product : Product F) (call : Option L)
  /-- The goroutine that write-behind starts, in `cache.Delete`. -/
  | inDelete (key : String) (call : Option L)
  /-- A `GetProduct` that has returned. -/
  | read (id : String) (answer : Except ApiError (Product F × CacheStatus))
  /-- An `UpdateProduct` that has returned. -/
  | updated (answer : Except ApiError (Product F))
  /-- A deletion that has ended. -/
  | deleted
  deriving DecidableEq

/-- What a query takes from outside: a failure, and the time of the transaction. -/
structure DbInput where
  failure : Option String
  now : Time
  deriving DecidableEq, Repr

/-- What one step of a goroutine leaves: the cache, the table, its next program point
and the goroutines that it started. -/
structure Progress (C F L : Type) where
  cache : C
  table : Db.Table F
  task : Task F L
  started : List (Task F L) := []

namespace Task

variable {F L : Type}

/-- The goroutine has ended. -/
def isOver : Task F L → Bool
  | .read _ _ => true
  | .updated _ => true
  | .deleted => true
  | _ => false

/-- A goroutine whose call has come to a state: within the call, or past it. -/
def resume (within : Option L → Task F L) (past : Option Bytes → Task F L) :
    CallState L → Task F L
  | .inside point => within (some point)
  | .returned found => past found

/-- A `GetProduct` whose `cache.Get` has returned. -/
def afterGet (codec : Codec F) (id : String) : Option Bytes → Task F L
  | none => .beforeFetch id
  | some value =>
      match codec.unmarshal value with
      | some p => .read id (.ok (p, .hit))
      | none => .inDiscard id none

/-- The error of a `GetProduct` whose query failed. -/
def fetchError : Db.DbError → ApiError
  | .notFound => .notFound
  | .failed message => .failed ("api: db unavailable: " ++ message)

/-- The error of an `UpdateProduct` whose query failed. -/
def writeError : Db.DbError → ApiError
  | .notFound => .notFound
  | .failed message => .failed ("api: db update failed: " ++ message)

variable {C I : Type} [SteppedCache C L I]

/-- A step of a goroutine in a call of the cache. -/
def callNext (cache : C) (table : Db.Table F) (input : I) (req : Cache.Request) (call : Option L)
    (within : Option L → Task F L) (past : Option Bytes → Task F L) :
    Option (Progress C F L) :=
  (SteppedCache.advance cache input req call).map fun next =>
    { cache := next.1, table, task := resume within past next.2 }

variable (codec : Codec F) (numeric : F → F) (strategy : Strategy)

/-- The next step of a goroutine. -/
def next (cache : C) (table : Db.Table F) (input : I) (db : DbInput) :
    Task F L → Option (Progress C F L)
  | .inGet id call =>
      callNext cache table input (.get (cacheKey id)) call (.inGet id) (afterGet codec id)
  | .inDiscard id call =>
      callNext cache table input (.delete (cacheKey id)) call (.inDiscard id)
        fun _ => .beforeFetch id
  | .beforeFetch id =>
      match Db.getProduct table db.failure id with
      | .error e => some { cache, table, task := .read id (.error (fetchError e)) }
      | .ok row => some { cache, table, task := .inPopulate id (dbToAPIProduct row) none }
  | .inPopulate id product call =>
      match codec.marshal product with
      | none => some { cache, table, task := .read id (.ok (product, .miss)) }
      | some serialised =>
          callNext cache table input (.set (cacheKey id) serialised defaultProductTTL) call
            (.inPopulate id product) fun _ => .read id (.ok (product, .miss))
  | .beforeWrite id req =>
      match Db.updateProduct numeric table db.failure db.now id req.toDb with
      | .error e => some { cache, table, task := .updated (.error (writeError e)) }
      | .ok (row, table) => some { cache, table, task := .inOnWrite id (dbToAPIProduct row) none }
  | .inOnWrite id product call =>
      match strategy with
      | .ttl => some { cache, table, task := .updated (.ok product) }
      | .writeThrough =>
          callNext cache table input
            (.set (cacheKey id) ((codec.marshal product).getD []) writeThroughTTL) call
            (.inOnWrite id product) fun _ => .updated (.ok product)
      | .writeBehind =>
          some { cache, table, task := .updated (.ok product)
                 started := [.inDelete (cacheKey id) none] }
  | .inDelete key call =>
      callNext cache table input (.delete key) call (.inDelete key) fun _ => .deleted
  | .read _ _ => none
  | .updated _ => none
  | .deleted => none

end Task

/-- A service with its goroutines. -/
structure Running (C F L : Type) extends Service C F where
  tasks : List (Task F L)

inductive TaskEvent (I F : Type)
  | get (id : String)
  | update (id : String) (req : ProductUpdateRequest F)
  /-- Goroutine `i` takes its next step, with what the cache and the database read. -/
  | step (i : Nat) (input : I) (db : DbInput)

namespace Running

variable {C F L : Type}

/-- The row of a product, as the API shows it. -/
def row (s : Running C F L) (id : String) : Option (Product F) :=
  (s.table.lookup id).map dbToAPIProduct

/-- No request is in flight and no deletion is outstanding. -/
def quiet (s : Running C F L) : Bool := s.tasks.all Task.isOver

/-- A goroutine starts. -/
def start (s : Running C F L) (task : Task F L) : Running C F L :=
  { s with tasks := s.tasks ++ [task] }

/-- Goroutine `i` has taken a step. -/
def after (s : Running C F L) (i : Nat) (next : Progress C F L) : Running C F L where
  cache := next.cache
  table := next.table
  tasks := s.tasks.set i next.task ++ next.started

end Running

section Steps

variable {C I F L : Type} [SteppedCache C L I] (codec : Codec F) (numeric : F → F)
  (strategy : Strategy)

def taskStep (s : Running C F L) : TaskEvent I F → Option (Running C F L)
  | .get id => some (s.start (.inGet id none))
  | .update id req => some (s.start (.beforeWrite id req))
  | .step i input db =>
      s.tasks[i]?.bind fun task =>
        (task.next codec numeric strategy s.cache s.table input db).map (s.after i)

end Steps

/-! ## What a step does -/

section Inversion

variable {C I F L : Type} [SteppedCache C L I]

/-- The steps of a goroutine: from its program point, to what it leaves. -/
inductive Task.Steps (codec : Codec F) (strategy : Strategy) (cache : C) (table : Db.Table F)
    (input : I) (db : DbInput) : Task F L → Progress C F L → Prop
  | get (id : String) (call : Option L) (c : C) (state : CallState L)
      (hcall : SteppedCache.advance cache input (.get (cacheKey id)) call = some (c, state)) :
      Steps codec strategy cache table input db (.inGet id call)
        { cache := c, table, task := resume (.inGet id) (afterGet codec id) state }
  | discard (id : String) (call : Option L) (c : C) (state : CallState L)
      (hcall : SteppedCache.advance cache input (.delete (cacheKey id)) call = some (c, state)) :
      Steps codec strategy cache table input db (.inDiscard id call)
        { cache := c, table, task := resume (.inDiscard id) (fun _ => .beforeFetch id) state }
  | fetchFailed (id : String) (e : Db.DbError)
      (hrow : Db.getProduct table db.failure id = .error e) :
      Steps codec strategy cache table input db (.beforeFetch id)
        { cache, table, task := .read id (.error (fetchError e)) }
  | fetched (id : String) (row : Db.Product F) (hrow : table.lookup id = some row) :
      Steps codec strategy cache table input db (.beforeFetch id)
        { cache, table, task := .inPopulate id (dbToAPIProduct row) none }
  | unserialised (id : String) (p : Product F) (call : Option L)
      (hvalue : codec.marshal p = none) :
      Steps codec strategy cache table input db (.inPopulate id p call)
        { cache, table, task := .read id (.ok (p, .miss)) }
  | populate (id : String) (p : Product F) (call : Option L) (value : Bytes) (c : C)
      (state : CallState L) (hvalue : codec.marshal p = some value)
      (hcall : SteppedCache.advance cache input (.set (cacheKey id) value defaultProductTTL)
        call = some (c, state)) :
      Steps codec strategy cache table input db (.inPopulate id p call)
        { cache := c, table
          task := resume (.inPopulate id p) (fun _ => .read id (.ok (p, .miss))) state }
  | writeFailed (id : String) (req : ProductUpdateRequest F) (e : Db.DbError) :
      Steps codec strategy cache table input db (.beforeWrite id req)
        { cache, table, task := .updated (.error (writeError e)) }
  | written (id : String) (req : ProductUpdateRequest F) (row : Db.Product F) :
      Steps codec strategy cache table input db (.beforeWrite id req)
        { cache, table := table.insert id row, task := .inOnWrite id (dbToAPIProduct row) none }
  | ignored (id : String) (p : Product F) (call : Option L) (hstrategy : strategy = .ttl) :
      Steps codec strategy cache table input db (.inOnWrite id p call)
        { cache, table, task := .updated (.ok p) }
  | through (id : String) (p : Product F) (call : Option L) (c : C) (state : CallState L)
      (hstrategy : strategy = .writeThrough)
      (hcall : SteppedCache.advance cache input
        (.set (cacheKey id) ((codec.marshal p).getD []) writeThroughTTL) call =
          some (c, state)) :
      Steps codec strategy cache table input db (.inOnWrite id p call)
        { cache := c, table, task := resume (.inOnWrite id p) (fun _ => .updated (.ok p)) state }
  | behind (id : String) (p : Product F) (call : Option L) (hstrategy : strategy = .writeBehind) :
      Steps codec strategy cache table input db (.inOnWrite id p call)
        { cache, table, task := .updated (.ok p), started := [.inDelete (cacheKey id) none] }
  | delete (key : String) (call : Option L) (c : C) (state : CallState L)
      (hcall : SteppedCache.advance cache input (.delete key) call = some (c, state)) :
      Steps codec strategy cache table input db (.inDelete key call)
        { cache := c, table, task := resume (.inDelete key) (fun _ => .deleted) state }

variable {codec : Codec F} {numeric : F → F} {strategy : Strategy} {cache : C}
  {table : Db.Table F} {input : I} {db : DbInput}

/-- A step in a call of the cache is a step of the call. -/
theorem Task.callNext_some {req : Cache.Request} {call : Option L}
    {within : Option L → Task F L} {past : Option Bytes → Task F L} {next : Progress C F L}
    (h : callNext cache table input req call within past = some next) :
    ∃ c state, SteppedCache.advance cache input req call = some (c, state) ∧
      next = { cache := c, table, task := resume within past state } := by
  obtain ⟨⟨c, state⟩, hcall, rfl⟩ := Option.map_eq_some_iff.mp h
  exact ⟨c, state, hcall, rfl⟩

/-- Every step of a goroutine is one of these. -/
theorem Task.next_steps {task : Task F L} {next : Progress C F L}
    (h : task.next codec numeric strategy cache table input db = some next) :
    task.Steps codec strategy cache table input db next := by
  cases task with
  | inGet id call =>
      obtain ⟨c, state, hcall, rfl⟩ := callNext_some h
      exact .get id call c state hcall
  | inDiscard id call =>
      obtain ⟨c, state, hcall, rfl⟩ := callNext_some h
      exact .discard id call c state hcall
  | beforeFetch id =>
      simp only [Task.next] at h
      split at h
      · rename_i e hrow
        cases h
        exact .fetchFailed id e hrow
      · rename_i row hrow
        cases h
        exact .fetched id row (Db.getProduct_ok hrow)
  | inPopulate id p call =>
      simp only [Task.next] at h
      split at h
      · rename_i hvalue
        cases h
        exact .unserialised id p call hvalue
      · rename_i value hvalue
        obtain ⟨c, state, hcall, rfl⟩ := callNext_some h
        exact .populate id p call value c state hvalue hcall
  | beforeWrite id req =>
      simp only [Task.next] at h
      split at h
      · rename_i e _
        cases h
        exact .writeFailed id req e
      · rename_i row table' hrow
        cases h
        rw [Db.updateProduct_ok numeric hrow]
        exact .written id req row
  | inOnWrite id p call =>
      cases strategy with
      | ttl =>
          cases h
          exact .ignored id p call rfl
      | writeThrough =>
          obtain ⟨c, state, hcall, rfl⟩ := callNext_some h
          exact .through id p call c state rfl hcall
      | writeBehind =>
          cases h
          exact .behind id p call rfl
  | inDelete key call =>
      obtain ⟨c, state, hcall, rfl⟩ := callNext_some h
      exact .delete key call c state hcall
  | read id answer => cases h
  | updated answer => cases h
  | deleted => cases h

/-- What a step of the service is made of. -/
theorem taskStep_step {s s' : Running C F L} {i : Nat}
    (h : taskStep codec numeric strategy s (.step i input db) = some s') :
    ∃ task next, s.tasks[i]? = some task ∧
      task.Steps codec strategy s.cache s.table input db next ∧ s' = s.after i next := by
  obtain ⟨task, hi, hmap⟩ := Option.bind_eq_some_iff.mp h
  obtain ⟨next, hnext, rfl⟩ := Option.map_eq_some_iff.mp hmap
  exact ⟨task, next, hi, Task.next_steps hnext, rfl⟩

end Inversion

/-! ## The goroutines after a step -/

namespace Running

variable {C F L : Type} {s : Running C F L} {i : Nat} {task : Task F L} {next : Progress C F L}

/-- The goroutine that took the step. -/
theorem after_self (hi : s.tasks[i]? = some task) :
    (s.after i next).tasks[i]? = some next.task := by
  have hlt := (List.getElem?_eq_some_iff.mp hi).1
  rw [after, List.getElem?_append_left (by simpa using hlt), List.getElem?_set_self hlt]

/-- The other goroutines, if none was started. -/
theorem after_other (hstarted : next.started = []) {u : Nat} (hu : u ≠ i) :
    (s.after i next).tasks[u]? = s.tasks[u]? := by
  rw [after, hstarted, List.append_nil, List.getElem?_set_ne (Ne.symm hu)]

/-- What holds of the others, of the one that took the step and of those it started, holds
of all goroutines after the step. -/
theorem forall_after {Q : Nat → Task F L → Prop}
    (hothers : ∀ u t, u ≠ i → s.tasks[u]? = some t → Q u t) (hself : Q i next.task)
    (hstarted : ∀ u, ∀ t ∈ next.started, Q u t) :
    ∀ u t, (s.after i next).tasks[u]? = some t → Q u t := by
  intro u t hu
  rw [after, List.getElem?_append] at hu
  split at hu
  · by_cases hui : u = i
    · rw [hui] at hu ⊢
      rw [List.getElem?_set_self'] at hu
      obtain ⟨_, _, rfl⟩ := Option.map_eq_some_iff.mp hu
      exact hself
    · rw [List.getElem?_set_ne (Ne.symm hui)] at hu
      exact hothers u t hui hu
  · exact hstarted u t (List.mem_of_getElem? hu)

/-- The goroutine that has started. -/
theorem start_self (s : Running C F L) (task : Task F L) :
    (s.start task).tasks[s.tasks.length]? = some task :=
  List.getElem?_concat_length

/-- Starting a request leaves the others alone. -/
theorem start_other (s : Running C F L) (task : Task F L) {u : Nat} (hu : u ≠ s.tasks.length) :
    (s.start task).tasks[u]? = s.tasks[u]? := by
  simp only [start, List.getElem?_append, List.getElem?_singleton]
  split
  · rfl
  · rename_i hge
    rw [if_neg (by omega), List.getElem?_eq_none (by omega)]

/-- What holds of the goroutines and of the one that starts holds of all. -/
theorem forall_start {Q : Nat → Task F L → Prop} (hold : ∀ u t, s.tasks[u]? = some t → Q u t)
    (hnew : Q s.tasks.length task) : ∀ u t, (s.start task).tasks[u]? = some t → Q u t := by
  intro u t hu
  by_cases hlast : u = s.tasks.length
  · rw [hlast, start_self] at hu
    cases hu
    rw [hlast]
    exact hnew
  · rw [start_other s task hlast] at hu
    exact hold u t hu

end Running

/-! ## Calls that are single steps -/

section Perform

variable {C I : Type} [LawfulCache C I] {c : C} {i : I}

/-- Every call keeps the cache valid. -/
theorem valid_perform (h : LawfulCache.Valid c) (i : I) (req : Cache.Request) :
    LawfulCache.Valid (perform c i req).1 := by
  cases req with
  | get key => exact LawfulCache.valid_get h key i
  | set key value ttl => exact LawfulCache.valid_set h key value ttl i
  | delete key => exact LawfulCache.valid_delete h key i

/-- A `Get` finds a value that the cache holds. -/
theorem perform_get {key : String} {value : Bytes} (h : LawfulCache.Valid c)
    (hfound : (perform c i (.get key)).2 = some value) : LawfulCache.Holds c key value := by
  refine LawfulCache.get_hit h (i := i) ?_
  exact Option.join_eq_some_iff.mp hfound

/-- After a call the cache holds what it held, or what the call has set. -/
theorem holds_perform {req : Cache.Request} {k : String} {v : Bytes} (h : LawfulCache.Valid c)
    (hv : LawfulCache.Holds (perform c i req).1 k v) :
    LawfulCache.Holds c k v ∨ ∃ ttl, req = .set k v ttl := by
  cases req with
  | get key => exact Or.inl (LawfulCache.holds_get h hv)
  | delete key => exact Or.inl (LawfulCache.holds_delete h hv)
  | set key value ttl =>
      cases hok : (SharedCache.set c key value ttl i).1 with
      | false =>
          left
          rw [perform, LawfulCache.set_failed hok] at hv
          exact hv
      | true =>
          rcases LawfulCache.holds_set h hok hv with ⟨rfl, rfl⟩ | ⟨_, hold⟩
          · exact Or.inr ⟨ttl, rfl⟩
          · exact Or.inl hold

end Perform

end Api
