import DistributedCaching.ProductGoroutines

/-!
# Concurrent requests under write-through

Any number of `GetProduct` and `UpdateProduct` calls on one service, interleaved
at their accesses to the cache and to the database; none of these accesses fails.
The goroutines are those of `ProductGoroutines`, with calls of the cache that are
single steps.

The state also notes which request wrote each row and how often it was written,
and for each `GetProduct` which version of its row it started on.  `Orderly` is
what holds of these notes in every run.
-/

namespace Api

open Go Cache Eviction TransitionRuns

namespace Task

variable {F L : Type}

/-- What the request is about to store in the cache. -/
def toStore : Task F L → Option (String × Product F)
  | .inPopulate id product _ => some (id, product)
  | .inOnWrite id product _ => some (id, product)
  | _ => none

/-- The request is an update that has its row to store. -/
def isOnWrite : Task F L → Bool
  | .inOnWrite _ _ _ => true
  | _ => false

/-- The request is no update that has written. -/
def beforeWriting : Task F L → Bool
  | .inOnWrite _ _ _ => false
  | .updated _ => false
  | _ => true

end Task

/-- The database does not fail in this event. -/
def TaskEvent.dbWorks {I F : Type} : TaskEvent I F → Bool
  | .step _ _ db => db.failure.isNone
  | _ => true

/-- What is noted of a `GetProduct` that returns: its answer, the row at that moment,
and whether that row was written by an update which had returned before the
`GetProduct` started. -/
structure Read (F : Type) where
  answer : Except ApiError (Product F)
  row : Option (Product F)
  afterUpdate : Bool
  deriving DecidableEq

/-- A service with its requests.  `writer` and `version` note for each product which
request wrote its row and how often it was written; `since` notes for a `GetProduct`
the version of the row that it started on, if the update which wrote that row had
returned; `reads` are the reads so far. -/
structure Traffic (P F : Type) extends Running (InMemoryCache P) F Empty where
  writer : String → Option Nat
  version : String → Nat
  since : Nat → Option Nat
  reads : List (Read F)

namespace Traffic

variable {P F : Type}

def init (capacity : Nat) (policy : P) (table : Db.Table F) : Traffic P F where
  cache := InMemoryCache.new capacity policy
  table := table
  tasks := []
  writer _ := none
  version _ := 0
  since _ := none
  reads := []

/-- The update that wrote the row has returned. -/
def settled (s : Traffic P F) (id : String) : Bool :=
  match (s.writer id).bind fun u => s.tasks[u]? with
  | some (.updated _) => true
  | _ => false

/-- The update that wrote the row has yet to store it in the cache. -/
def awaited (s : Traffic P F) (id : String) : Bool :=
  match (s.writer id).bind fun u => s.tasks[u]? with
  | some (.inOnWrite _ _ _) => true
  | _ => false

/-- What is noted when request `i` arrives at a program point: an update has written its
row, or a `GetProduct` returns. -/
def arrived (s : Traffic P F) (i : Nat) (next : Running (InMemoryCache P) F Empty) :
    Option (Task F Empty) → Traffic P F
  | some (.inOnWrite id _ _) =>
      { s with
        toRunning := next
        writer := Function.update s.writer id (some i)
        version := Function.update s.version id (s.version id + 1) }
  | some (.read id answer) =>
      { s with
        toRunning := next
        reads := ⟨answer.map Prod.fst, next.row id, s.since i == some (s.version id)⟩ :: s.reads }
  | _ => { s with toRunning := next }

def note (s : Traffic P F) (ev : TaskEvent CacheInput F)
    (next : Running (InMemoryCache P) F Empty) : Traffic P F :=
  match ev with
  | .get id =>
      { s with
        toRunning := next
        since := Function.update s.since s.tasks.length
          (if s.settled id then some (s.version id) else none) }
  | .update _ _ => { s with toRunning := next }
  | .step i _ _ => s.arrived i next next.tasks[i]?

end Traffic

def trafficStep {P F : Type} [EvictionPolicy P] (codec : Codec F) (numeric : F → F) :
    Traffic P F → TaskEvent CacheInput F → Option (Traffic P F) :=
  noted (taskStep codec numeric .writeThrough) Traffic.toRunning (fun _ ev => ev.dbWorks)
    Traffic.note

/-! ## What a step notes -/

section Steps

variable {P F : Type} {s : Traffic P F} {i : Nat}
  {next : Running (InMemoryCache P) F Empty} {task : Option (Task F Empty)}

@[simp] theorem Traffic.toRunning_arrived : (s.arrived i next task).toRunning = next := by
  unfold Traffic.arrived
  split <;> rfl

@[simp] theorem Traffic.since_arrived : (s.arrived i next task).since = s.since := by
  unfold Traffic.arrived
  split <;> rfl

/-- Only an update that has written changes who wrote a row. -/
theorem Traffic.writer_arrived {task : Task F Empty} (hnot : task.isOnWrite = false) :
    (s.arrived i next (some task)).writer = s.writer ∧
      (s.arrived i next (some task)).version = s.version := by
  cases task with
  | inOnWrite id p call => cases hnot
  | _ => exact ⟨rfl, rfl⟩

/-- What is noted leaves the service as it is. -/
theorem Traffic.toRunning_note (s : Traffic P F) (ev : TaskEvent CacheInput F)
    (next : Running (InMemoryCache P) F Empty) : (s.note ev next).toRunning = next := by
  cases ev with
  | get id => rfl
  | update id req => rfl
  | step i input db => exact Traffic.toRunning_arrived

variable [EvictionPolicy P] {codec : Codec F} {numeric : F → F} {input : CacheInput}

/-- A request takes its next step. -/
theorem trafficStep_next {now : Time} {task : Task F Empty}
    {next : Progress (InMemoryCache P) F Empty} (hi : s.tasks[i]? = some task)
    (hnext : task.next codec numeric .writeThrough s.cache s.table input ⟨none, now⟩ =
      some next) :
    trafficStep codec numeric s (.step i input ⟨none, now⟩) =
      some (s.arrived i (s.toRunning.after i next) (some next.task)) := by
  have hstep : taskStep codec numeric .writeThrough s.toRunning (.step i input ⟨none, now⟩) =
      some (s.toRunning.after i next) := by
    simp only [taskStep, hi, Option.bind_some, hnext, Option.map_some]
  simp only [trafficStep, noted, TaskEvent.dbWorks, Option.isNone_none, if_true, hstep,
    Option.map_some, Traffic.note, Running.after_self hi]

/-- What a step of a request is made of. -/
theorem trafficStep_step {s' : Traffic P F} {db : DbInput}
    (h : trafficStep codec numeric s (.step i input db) = some s') :
    db.failure = none ∧ ∃ task next, s.tasks[i]? = some task ∧
      task.Steps codec .writeThrough s.cache s.table input db next ∧
      s' = s.arrived i (s.toRunning.after i next) (some next.task) := by
  obtain ⟨hworks, t, hstep, rfl⟩ := noted_some h
  obtain ⟨task, next, hi, hsteps, rfl⟩ := taskStep_step hstep
  refine ⟨Option.isNone_iff_eq_none.mp hworks, task, next, hi, hsteps, ?_⟩
  rw [Traffic.note, Running.after_self hi]

end Steps

/-! ## The notes -/

section Notes

variable {P F : Type} {s s' : Traffic P F} {i : Nat} {task : Task F Empty}

/-- An update that has settled is one that has returned. -/
theorem settled_iff {id : String} : s.settled id = true ↔
    ∃ u a, s.writer id = some u ∧ s.tasks[u]? = some (.updated a) := by
  unfold Traffic.settled
  cases s.writer id with
  | none => simp
  | some u =>
      simp only [Option.bind_some, Option.some.injEq, exists_and_left, exists_eq_left']
      split <;> simp_all

/-- An update that is awaited is one that is still storing. -/
theorem awaited_iff {id : String} : s.awaited id = true ↔
    ∃ u id' p call, s.writer id = some u ∧ s.tasks[u]? = some (.inOnWrite id' p call) := by
  unfold Traffic.awaited
  cases s.writer id with
  | none => simp
  | some u =>
      simp only [Option.bind_some, Option.some.injEq, exists_and_left, exists_eq_left']
      split <;> simp_all

/-- An update that has returned has no store to come. -/
theorem not_awaited_of_settled {id : String} (h : s.settled id = true) :
    s.awaited id ≠ true := by
  intro hawaited
  obtain ⟨u, a, hu, htask⟩ := settled_iff.mp h
  obtain ⟨u', id', p, call, hu', htask'⟩ := awaited_iff.mp hawaited
  rw [hu] at hu'
  cases hu'
  rw [htask] at htask'
  cases htask'

/-- What `since` notes is right: the version has been there, and while it lasts the
update that wrote it has returned. -/
def SinceOk (s : Traffic P F) (id : String) (since : Option Nat) : Prop :=
  ∀ n, since = some n → n ≤ s.version id ∧ (n = s.version id → s.settled id = true)

/-- What request `u` carries is right. -/
def TaskOk (s : Traffic P F) (u : Nat) : Task F Empty → Prop
  | .inGet id _ => SinceOk s id (s.since u)
  | .inDiscard id _ => SinceOk s id (s.since u)
  | .beforeFetch id => SinceOk s id (s.since u)
  | .inPopulate id p _ =>
      SinceOk s id (s.since u) ∧
        (s.since u = some (s.version id) ∨ s.writer id = none → s.row id = some p)
  | .inOnWrite id p _ => s.writer id = none → s.row id = some p
  | _ => True

/-- What may change about the rows: all is as before, or a newer row was written. -/
def Later (s s' : Traffic P F) : Prop :=
  ∀ id, (s'.row id = s.row id ∧ s'.writer id = s.writer id ∧ s'.version id = s.version id ∧
      (s.settled id = true → s'.settled id = true)) ∨
    (s.version id < s'.version id ∧ s'.writer id ≠ none)

/-- What was noted at the start of a request stays right. -/
theorem SinceOk.later {id : String} {since : Option Nat} (h : SinceOk s id since)
    (hlater : Later s s') : SinceOk s' id since := by
  intro n hn
  obtain ⟨hle, hsettled⟩ := h n hn
  rcases hlater id with ⟨_, _, hversion, hkept⟩ | ⟨hnewer, _⟩
  · rw [hversion]
    exact ⟨hle, fun heq => hkept (hsettled heq)⟩
  · exact ⟨by omega, fun heq => by omega⟩

/-- What a request carries stays right while it does not move. -/
theorem TaskOk.later {u : Nat} (h : TaskOk s u task) (hlater : Later s s')
    (hsince : s'.since u = s.since u) : TaskOk s' u task := by
  cases task with
  | inGet id call =>
      rw [TaskOk, hsince]
      exact SinceOk.later h hlater
  | inDiscard id call =>
      rw [TaskOk, hsince]
      exact SinceOk.later h hlater
  | beforeFetch id =>
      rw [TaskOk, hsince]
      exact SinceOk.later h hlater
  | inPopulate id p call =>
      rw [TaskOk, hsince]
      refine ⟨h.1.later hlater, ?_⟩
      intro hcase
      rcases hlater id with ⟨hrow, hwriter, hversion, _⟩ | ⟨hnewer, hwriter⟩
      · rw [hrow]
        rw [hversion, hwriter] at hcase
        exact h.2 hcase
      · rcases hcase with hsince | hnone
        · have hle := (h.1 _ hsince).1
          omega
        · exact absurd hnone hwriter
  | inOnWrite id p call =>
      intro hnone
      rcases hlater id with ⟨hrow, hwriter, _⟩ | ⟨_, hwriter⟩
      · rw [hrow]
        rw [hwriter] at hnone
        exact h hnone
      · exact absurd hnone hwriter
  | _ => trivial

/-- A step that leaves the rows alone and brings the request `i` to `task`. -/
structure Moved (s s' : Traffic P F) (i : Nat) (task : Task F Empty) : Prop where
  table : s'.table = s.table
  writer : s'.writer = s.writer
  version : s'.version = s.version
  since : ∀ u, u ≠ i → s'.since u = s.since u
  here : s'.tasks[i]? = some task
  there : ∀ u, u ≠ i → s'.tasks[u]? = s.tasks[u]?
  /-- An update that has returned takes no step. -/
  unfinished : ∀ a, s.tasks[i]? ≠ some (.updated a)
  /-- An update that has written returns its row. -/
  through : ∀ id p call, s.tasks[i]? = some (.inOnWrite id p call) → task = .updated (.ok p)

theorem Moved.row (h : Moved s s' i task) (id : String) : s'.row id = s.row id := by
  rw [Running.row, Running.row, h.table]

/-- Such a step loses no update and takes no version back. -/
theorem Moved.later (h : Moved s s' i task) : Later s s' := by
  intro id
  refine Or.inl ⟨h.row id, by rw [h.writer], by rw [h.version], ?_⟩
  intro hsettled
  obtain ⟨u, a, hu, htask⟩ := settled_iff.mp hsettled
  have hne : u ≠ i := fun heq => h.unfinished a (heq ▸ htask)
  exact settled_iff.mpr ⟨u, a, by rw [h.writer, hu], by rw [h.there u hne, htask]⟩

/-- The update that wrote a row carries the row until it returns it. -/
def WritersOk (s : Traffic P F) : Prop :=
  ∀ id u, s.writer id = some u → ∃ p, s.row id = some p ∧
    ((∃ call, s.tasks[u]? = some (.inOnWrite id p call)) ∨
      s.tasks[u]? = some (.updated (.ok p)))

/-- Such a step keeps the writers right. -/
theorem Moved.writersOk (h : Moved s s' i task) (hs : WritersOk s) : WritersOk s' := by
  intro id u hu
  rw [h.writer] at hu
  obtain ⟨p, hp, htask⟩ := hs id u hu
  refine ⟨p, by rw [h.row, hp], ?_⟩
  by_cases hui : u = i
  · subst hui
    rcases htask with ⟨call, htask⟩ | htask
    · right
      rw [h.here, h.through id p call htask]
    · exact absurd htask (h.unfinished _)
  · rw [h.there u hui]
    exact htask

/-- The notes about rows and requests are right. -/
structure Orderly (s : Traffic P F) : Prop where
  writers : WritersOk s
  tasks : ∀ (u : Nat) (t : Task F Empty), s.tasks[u]? = some t → TaskOk s u t

/-- Such a step keeps the notes right, if what the request now carries is. -/
theorem Moved.orderly (h : Moved s s' i task) (hs : Orderly s) (hok : TaskOk s' i task) :
    Orderly s' := by
  refine ⟨h.writersOk hs.writers, ?_⟩
  intro u t ht
  by_cases hui : u = i
  · subst hui
    rw [h.here] at ht
    cases ht
    exact hok
  · rw [h.there u hui] at ht
    exact (hs.tasks u t ht).later h.later (h.since u hui)

/-- A request that starts. -/
theorem moved_start (s : Traffic P F) (task : Task F Empty) (since : Option Nat) :
    Moved s { s with
      toRunning := s.toRunning.start task
      since := Function.update s.since s.tasks.length since } s.tasks.length task where
  table := rfl
  writer := rfl
  version := rfl
  since u hu := Function.update_of_ne hu _ _
  here := Running.start_self _ _
  there u hu := Running.start_other _ _ hu
  unfinished a := by simp
  through id p call := by simp

/-- A request that moves on, other than by writing a row. -/
theorem moved_arrived {now : Task F Empty} {next : Progress (InMemoryCache P) F Empty}
    (hi : s.tasks[i]? = some now) (htable : next.table = s.table) (hstarted : next.started = [])
    (hnot : next.task.isOnWrite = false)
    (hnow : now.beforeWriting = true ∨
      ∃ id p call, now = .inOnWrite id p call ∧ next.task = .updated (.ok p)) :
    Moved s (s.arrived i (s.toRunning.after i next) (some next.task)) i next.task where
  table := by
    rw [Traffic.toRunning_arrived]
    exact htable
  writer := (Traffic.writer_arrived hnot).1
  version := (Traffic.writer_arrived hnot).2
  since u _ := by rw [Traffic.since_arrived]
  here := by
    rw [Traffic.toRunning_arrived]
    exact Running.after_self hi
  there u hu := by
    rw [Traffic.toRunning_arrived]
    exact Running.after_other hstarted hu
  unfinished a ha := by
    cases hi.symm.trans ha
    rcases hnow with hbefore | ⟨_, _, _, hnow, _⟩
    · cases hbefore
    · cases hnow
  through id p call hthrough := by
    cases hi.symm.trans hthrough
    rcases hnow with hbefore | ⟨_, _, _, hnow, hnext⟩
    · cases hbefore
    · cases hnow
      exact hnext

/-- The `UpdateProduct` `i` has written a row. -/
def Traffic.write (s : Traffic P F) (i : Nat) (id : String) (row : Db.Product F) : Traffic P F :=
  { s with
    toRunning := s.toRunning.after i
      { cache := s.cache, table := s.table.insert id row
        task := .inOnWrite id (dbToAPIProduct row) none }
    writer := Function.update s.writer id (some i)
    version := Function.update s.version id (s.version id + 1) }

/-- An update that has written is at its store. -/
theorem write_here {id : String} {row : Db.Product F} (hi : s.tasks[i]? = some task) :
    (s.write i id row).tasks[i]? = some (.inOnWrite id (dbToAPIProduct row) none) :=
  Running.after_self hi

/-- The other requests stay where they are. -/
theorem write_there {id : String} {row : Db.Product F} {u : Nat} (hu : u ≠ i) :
    (s.write i id row).tasks[u]? = s.tasks[u]? :=
  Running.after_other rfl hu

/-- A write sets the row, its writer and its version. -/
theorem write_self (s : Traffic P F) (i : Nat) (id : String) (row : Db.Product F) :
    (s.write i id row).row id = some (dbToAPIProduct row) ∧
      (s.write i id row).writer id = some i ∧
      (s.write i id row).version id = s.version id + 1 := by
  simp [Traffic.write, Running.after, Running.row]

/-- A write leaves the other rows alone. -/
theorem write_ne (s : Traffic P F) (i : Nat) {id id' : String} (row : Db.Product F)
    (hne : id' ≠ id) :
    (s.write i id row).row id' = s.row id' ∧
      (s.write i id row).writer id' = s.writer id' ∧
      (s.write i id row).version id' = s.version id' := by
  simp [Traffic.write, Running.after, Running.row, AList.lookup_insert_ne hne,
    Function.update_of_ne hne]

/-- A request that is not about to write is not the one that writes. -/
theorem ne_of_beforeWrite {id : String} {req : ProductUpdateRequest F} {u : Nat}
    (hi : s.tasks[i]? = some (.beforeWrite id req)) (hu : s.tasks[u]? = some task)
    (hnot : ∀ id req, task ≠ .beforeWrite id req) : u ≠ i := by
  intro heq
  rw [heq, hi] at hu
  exact hnot id req (Option.some.inj hu).symm

/-- A write loses no update that has settled, and takes no version back. -/
theorem later_write {id : String} {req : ProductUpdateRequest F}
    (hi : s.tasks[i]? = some (.beforeWrite id req)) (row : Db.Product F) :
    Later s (s.write i id row) := by
  intro id'
  by_cases hid : id' = id
  · subst hid
    obtain ⟨_, hwriter, hversion⟩ := write_self s i id' row
    exact Or.inr ⟨by omega, by simp [hwriter]⟩
  · obtain ⟨hrow, hwriter, hversion⟩ := write_ne s i row hid
    refine Or.inl ⟨hrow, hwriter, hversion, ?_⟩
    intro hsettled
    obtain ⟨u, a, hu, htask⟩ := settled_iff.mp hsettled
    refine settled_iff.mpr ⟨u, a, by rw [hwriter, hu], ?_⟩
    rw [write_there (ne_of_beforeWrite hi htask (by simp)), htask]

/-- An update that writes a row. -/
theorem orderly_write {id : String} {req : ProductUpdateRequest F} (hs : Orderly s)
    (hi : s.tasks[i]? = some (.beforeWrite id req)) (row : Db.Product F) :
    Orderly (s.write i id row) := by
  constructor
  · intro id' u hu
    by_cases hid : id' = id
    · subst hid
      obtain ⟨hrow, hwriter, _⟩ := write_self s i id' row
      rw [hwriter] at hu
      cases hu
      exact ⟨dbToAPIProduct row, hrow, Or.inl ⟨none, write_here hi⟩⟩
    · obtain ⟨hrow, hwriter, _⟩ := write_ne s i row hid
      rw [hwriter] at hu
      obtain ⟨p, hp, htask⟩ := hs.writers id' u hu
      have hne : u ≠ i := by
        rcases htask with ⟨call, htask⟩ | htask
        · exact ne_of_beforeWrite hi htask (by simp)
        · exact ne_of_beforeWrite hi htask (by simp)
      refine ⟨p, by rw [hrow, hp], ?_⟩
      rw [write_there hne]
      exact htask
  · intro u t ht
    by_cases hui : u = i
    · subst hui
      rw [write_here hi] at ht
      cases ht
      intro hnone
      rw [(write_self s u id row).2.1] at hnone
      cases hnone
    · rw [write_there hui] at ht
      exact (hs.tasks u t ht).later (later_write hi row) rfl

/-- After a write, the store of the row is to come, and other stores that were. -/
theorem awaited_write {id : String} {req : ProductUpdateRequest F}
    (hi : s.tasks[i]? = some (.beforeWrite id req)) (row : Db.Product F) (id' : String)
    (h : id' = id ∨ s.awaited id' = true) : (s.write i id row).awaited id' = true := by
  by_cases hid : id' = id
  · subst hid
    exact awaited_iff.mpr ⟨i, id', _, none, (write_self s i id' row).2.1, write_here hi⟩
  · obtain ⟨u, id'', p, call, hu, htask⟩ := awaited_iff.mp (h.resolve_left hid)
    refine awaited_iff.mpr ⟨u, id'', p, call, by rw [(write_ne s i row hid).2.1, hu], ?_⟩
    rw [write_there (ne_of_beforeWrite hi htask (by simp)), htask]

/-- Steps of other requests leave a store that is to come to come. -/
theorem Moved.awaited (h : Moved s s' i task)
    (hbefore : ∀ now, s.tasks[i]? = some now → now.beforeWriting = true) {id : String}
    (hawaited : s.awaited id = true) : s'.awaited id = true := by
  obtain ⟨u, id', p, call, hu, htask⟩ := awaited_iff.mp hawaited
  have hne : u ≠ i := by
    intro heq
    cases hbefore _ (heq ▸ htask)
  exact awaited_iff.mpr ⟨u, id', p, call, by rw [h.writer, hu], by rw [h.there u hne, htask]⟩

/-- A row whose writer is noted exists. -/
theorem Orderly.row_of_awaited (h : Orderly s) {id : String} (hawaited : s.awaited id = true) :
    ∃ p, s.row id = some p := by
  obtain ⟨u, _, _, _, hu, _⟩ := awaited_iff.mp hawaited
  obtain ⟨p, hp, _⟩ := h.writers id u hu
  exact ⟨p, hp⟩

/-- A row whose update has settled is there. -/
theorem Orderly.row_of_settled (h : Orderly s) {id : String} (hsettled : s.settled id = true) :
    ∃ p, s.row id = some p := by
  obtain ⟨u, _, hu, _⟩ := settled_iff.mp hsettled
  obtain ⟨p, hp, _⟩ := h.writers id u hu
  exact ⟨p, hp⟩

end Notes

end Api
