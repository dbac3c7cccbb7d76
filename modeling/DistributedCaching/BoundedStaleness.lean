import DistributedCaching.CacheCells
import DistributedCaching.CacheContents
import DistributedCaching.ProductGoroutines

/-!
# How stale a hit can be

Any number of `GetProduct` and `UpdateProduct` calls and background deletions over
an `InMemoryCache`, under any of the strategies.  The goroutines are those of
`ProductGoroutines`, interleaved at the steps of the calls of the cache and at the
queries of the database.  The clock does not run backwards.  The state notes which
goroutine has checked an entry when, which row it obtained from the database, and
what it stored with which reading of the clock; `exists_checks`, `exists_obtains` and
`exists_puts` lead from these notes back to the steps of the run.

A `Set` reads the clock before it takes the lock, and a `Get` reads the value after
it has checked the expiry and let go of the lock.  So a `Set` that waits for the
lock until after its own expiry may slip its value under a `Get` that has checked
another one: `hit_past_bound`.  When every `Set` takes the lock before its expiry,
`bounded_staleness` holds: a hit returns a product that one request obtained as the
committed row of its id and stored at most five minutes before the check.
-/

namespace Api

open Go Cache Eviction TransitionRuns

/-- A product stored in the cache, and the reading of the clock that the `Set` took. -/
structure Stored (F : Type) where
  id : String
  product : Product F
  reading : Time
  deriving DecidableEq, Repr

namespace Task

variable {P F : Type}

/-- The point inside a call of the cache that a goroutine is at. -/
def call : Task F Call → Option Call
  | .inGet _ call => call
  | .inDiscard _ call => call
  | .inPopulate _ _ call => call
  | .inOnWrite _ _ call => call
  | .inDelete _ call => call
  | _ => none

/-- The `GetProduct` checks the entry that it has found at `now`, and it has not expired. -/
def checks (cache : InMemoryCache P) (now : Time) : Task F Call → List (String × Time)
  | .inGet id (some (.getCheck _ r)) =>
      if (cache.memory r).isExpired now then [] else [(id, now)]
  | _ => []

/-- The goroutine has just obtained a row from the database. -/
def obtained : Task F Call → List (String × Product F)
  | .inPopulate id product none => [(id, product)]
  | .inOnWrite id product none => [(id, product)]
  | _ => []

/-- The goroutine is at the locked part of a `Set`, which stores its product. -/
def stored : Task F Call → List (Stored F)
  | .inPopulate id product (some (.setStore _ _ _ now)) => [⟨id, product, now⟩]
  | .inOnWrite id product (some (.setStore _ _ _ now)) => [⟨id, product, now⟩]
  | _ => []

end Task

/-- A service with its goroutines.  `checked`, `obtained` and `stores` note the checks of
the readers, the rows obtained from the database and the products stored in the cache,
each with the goroutine that did so. -/
structure Interleaved (P F : Type) extends Running (InMemoryCache P) F Call where
  clock : Time
  checked : List (Nat × String × Time)
  obtained : List (Nat × String × Product F)
  stores : List (Nat × Stored F)

namespace Interleaved

variable {P F : Type}

def init (capacity : Nat) (policy : P) (table : Db.Table F) (clock : Time) :
    Interleaved P F where
  cache := InMemoryCache.new capacity policy
  table := table
  tasks := []
  clock := clock
  checked := []
  obtained := []
  stores := []

/-- A step reads a clock that has not gone back. -/
def admits (s : Interleaved P F) : TaskEvent Inputs F → Bool
  | .step _ inp _ => s.clock ≤ inp.now
  | _ => true

def note (s : Interleaved P F) (ev : TaskEvent Inputs F)
    (next : Running (InMemoryCache P) F Call) : Interleaved P F :=
  match ev with
  | .step i inp _ =>
      { toRunning := next
        clock := inp.now
        checked := (s.tasks[i]?.elim [] (Task.checks s.cache inp.now)).map (Prod.mk i) ++
          s.checked
        obtained := (next.tasks[i]?.elim [] Task.obtained).map (Prod.mk i) ++ s.obtained
        stores := (s.tasks[i]?.elim [] Task.stored).map (Prod.mk i) ++ s.stores }
  | _ => { s with toRunning := next }

/-- What is noted leaves the service as it is. -/
theorem toRunning_note (s : Interleaved P F) (ev : TaskEvent Inputs F)
    (next : Running (InMemoryCache P) F Call) : (s.note ev next).toRunning = next := by
  cases ev <;> rfl

/-- The state after goroutine `i` has taken a step from `task`. -/
def stepped (s : Interleaved P F) (i : Nat) (now : Time) (task : Task F Call)
    (next : Progress (InMemoryCache P) F Call) : Interleaved P F where
  toRunning := s.toRunning.after i next
  clock := now
  checked := (task.checks s.cache now).map (Prod.mk i) ++ s.checked
  obtained := next.task.obtained.map (Prod.mk i) ++ s.obtained
  stores := task.stored.map (Prod.mk i) ++ s.stores

end Interleaved

/-- The steps of the service, noted. -/
def jobStep {P F : Type} [EvictionPolicy P] (codec : Codec F) (numeric : F → F)
    (strategy : Strategy) :
    Interleaved P F → TaskEvent Inputs F → Option (Interleaved P F) :=
  noted (taskStep codec numeric strategy) Interleaved.toRunning Interleaved.admits
    Interleaved.note

section InTime

variable {P F : Type}

/-- A `Set` that stores its value does so no later than at the expiry that it computed,
and this expiry is not the zero time. -/
def StoresInTime (s : Interleaved P F) : TaskEvent Inputs F → Prop
  | .step i inp _ => ∀ expiresAt ∈ (s.tasks[i]?.bind Task.call).bind Call.expiry,
      inp.now ≤ expiresAt ∧ expiresAt ≠ 0
  | _ => True

instance (s : Interleaved P F) : ∀ ev : TaskEvent Inputs F, Decidable (StoresInTime s ev)
  | .get _ => .isTrue trivial
  | .update _ _ => .isTrue trivial
  | .step i inp _ => inferInstanceAs (Decidable
      (∀ expiresAt ∈ (s.tasks[i]?.bind Task.call).bind Call.expiry,
        inp.now ≤ expiresAt ∧ expiresAt ≠ 0))

end InTime

/-! ## Where the cells come from -/

section Sourced

variable {P F : Type}

/-- What a cell holds was obtained as the row of a product and stored by one goroutine, and
expires five minutes after the reading of the `Set`. -/
def Sourced (codec : Codec F) (s : Interleaved P F) (cell : String × Bytes × Time) : Prop :=
  ∃ j x, (j, x) ∈ s.stores ∧ (j, x.id, x.product) ∈ s.obtained ∧ cell.1 = cacheKey x.id ∧
    codec.marshal x.product = some cell.2.1 ∧ cell.2.2 = x.reading + 5 * minute ∧ cell.2.2 ≠ 0

/-- The cell is in use, for the product. -/
def Holding (s : Interleaved P F) (id : String) (r : Nat) : Prop :=
  r < s.cache.fresh ∧ (s.cache.cell r).1 = cacheKey id

/-- Goroutine `j` has checked the cell, which has not expired since. -/
def Checked (s : Interleaved P F) (j : Nat) (id : String) (r : Nat) : Prop :=
  Holding s id r ∧
    ∃ t, (j, id, t) ∈ s.checked ∧ t ≤ s.clock ∧ t ≤ (s.cache.cell r).2.2

/-- What a `GetProduct` in `cache.Get` relies on. -/
def GetOk (s : Interleaved P F) (j : Nat) (id : String) : Option Call → Prop
  | none => True
  | some (.getCheck _ r) => Holding s id r
  | some (.getReap _) => True
  | some (.getTouch _ r) => Checked s j id r
  | some (.getRead r) => Checked s j id r
  | _ => False

/-- A `Set` of the product, for five minutes. -/
def SetOk (codec : Codec F) (id : String) (p : Product F) : Option Call → Prop
  | none => True
  | some (.setStore key value expiresAt now) =>
      key = cacheKey id ∧ codec.marshal p = some value ∧ expiresAt = now + 5 * minute
  | _ => False

/-- The hit of goroutine `i` is a row that was stored at most five minutes before its
check. -/
def Recent (s : Interleaved P F) (i : Nat) (id : String) (p : Product F) : Prop :=
  ∃ t j reading, (i, id, t) ∈ s.checked ∧ (j, ⟨id, p, reading⟩) ∈ s.stores ∧
    (j, id, p) ∈ s.obtained ∧ t ≤ reading + 5 * minute

/-- What goroutine `j` relies on at its program point. -/
def JobOk (codec : Codec F) (s : Interleaved P F) (j : Nat) : Task F Call → Prop
  | .inGet id call => GetOk s j id call
  | .inDiscard _ call => call = none
  | .inPopulate id p call => (j, id, p) ∈ s.obtained ∧ SetOk codec id p call
  | .inOnWrite id p call => (j, id, p) ∈ s.obtained ∧ SetOk codec id p call
  | .inDelete _ call => call = none
  | .read id (.ok (p, .hit)) => Recent s j id p
  | _ => True

/-- **The invariant**: every cell in use is sourced, and every goroutine is right about
the cell that it holds. -/
structure Bounded (codec : Codec F) (s : Interleaved P F) : Prop where
  addressed : Addressed s.cache
  cells : ∀ r, r < s.cache.fresh → Sourced codec s (s.cache.cell r)
  jobs : ∀ j job, s.tasks[j]? = some job → JobOk codec s j job

/-- What other goroutines may do meanwhile: a cell is left alone, or gets a value for the
same key that has not expired yet. -/
structure Meanwhile (s s' : Interleaved P F) : Prop where
  clock : s.clock ≤ s'.clock
  checked : s.checked ⊆ s'.checked
  obtained : s.obtained ⊆ s'.obtained
  stores : s.stores ⊆ s'.stores
  fresh : s.cache.fresh ≤ s'.cache.fresh
  cells : ∀ r, r < s.cache.fresh → s'.cache.cell r = s.cache.cell r ∨
    (s'.cache.cell r).1 = (s.cache.cell r).1 ∧ s'.clock ≤ (s'.cache.cell r).2.2

variable {codec : Codec F} {s s' : Interleaved P F} {id : String} {p : Product F} {r i j : Nat}
  {task : Task F Call} {next : Progress (InMemoryCache P) F Call} {now : Time}

/-- Notes are kept, so a cell stays sourced. -/
theorem Sourced.meanwhile {cell : String × Bytes × Time} (h : Sourced codec s cell)
    (hlater : Meanwhile s s') : Sourced codec s' cell := by
  obtain ⟨j, x, hx, hobtained, hrest⟩ := h
  exact ⟨j, x, hlater.stores hx, hlater.obtained hobtained, hrest⟩

/-- A cell stays in use, and keeps its key. -/
theorem Holding.meanwhile (h : Holding s id r) (hlater : Meanwhile s s') : Holding s' id r := by
  refine ⟨Nat.lt_of_lt_of_le h.1 hlater.fresh, ?_⟩
  rcases hlater.cells r h.1 with hsame | ⟨hkey, _⟩
  · rw [hsame]
    exact h.2
  · rw [hkey]
    exact h.2

/-- The cell of a reader that has checked it does not expire before that check. -/
theorem Checked.meanwhile (h : Checked s j id r) (hlater : Meanwhile s s') :
    Checked s' j id r := by
  obtain ⟨hholding, t, ht, hclock, hfresh⟩ := h
  have hclock' : t ≤ s'.clock := Int.le_trans hclock hlater.clock
  refine ⟨hholding.meanwhile hlater, t, hlater.checked ht, hclock', ?_⟩
  rcases hlater.cells r hholding.1 with hsame | ⟨_, hexpiry⟩
  · rw [hsame]
    exact hfresh
  · exact Int.le_trans hclock' hexpiry

/-- What a goroutine relies on, other goroutines leave alone. -/
theorem JobOk.meanwhile (h : JobOk codec s j task) (hlater : Meanwhile s s') :
    JobOk codec s' j task := by
  cases task with
  | inGet id call =>
      rcases call with _ | call
      · trivial
      · cases call with
        | getCheck key r => exact Holding.meanwhile h hlater
        | getTouch key r => exact Checked.meanwhile h hlater
        | getRead r => exact Checked.meanwhile h hlater
        | _ => exact h
  | inPopulate id p call => exact ⟨hlater.obtained h.1, h.2⟩
  | inOnWrite id p call => exact ⟨hlater.obtained h.1, h.2⟩
  | read id answer =>
      rcases answer with e | ⟨p, status⟩
      · trivial
      · cases status with
        | hit =>
            obtain ⟨t, j', reading, hchecked, hstored, hobtained, hle⟩ := h
            exact ⟨t, j', reading, hlater.checked hchecked, hlater.stores hstored,
              hlater.obtained hobtained, hle⟩
        | miss => trivial
  | _ => exact h

/-- A `Get` is never at the locked part of a `Set`. -/
theorem GetOk.not_setStore {call : Option Call} {key : String} (hget : GetOk s j id call)
    (key' : String) (value : Bytes) (expiresAt now : Time) :
    call.getD (.getLookup key) ≠ .setStore key' value expiresAt now := by
  intro heq
  rcases call with _ | call
  · cases heq
  · cases heq
    exact hget

/-- What a `Set` of an obtained row stores in time is sourced. -/
theorem SetOk.sourced {key : String} {value : Bytes} {expiresAt now : Time}
    (hset : SetOk codec id p (some (.setStore key value expiresAt now)))
    (hobtained : (j, id, p) ∈ s'.obtained) (hstores : (j, ⟨id, p, now⟩) ∈ s'.stores)
    (hzero : expiresAt ≠ 0) : Sourced codec s' (key, value, expiresAt) :=
  ⟨j, ⟨id, p, now⟩, hstores, hobtained, hset.1, hset.2.1, hset.2.2, hzero⟩

/-- A step that leaves the cache alone leaves the other goroutines alone. -/
theorem meanwhile_same (hclock : s.clock ≤ now) (i : Nat) (task : Task F Call)
    (hcache : next.cache = s.cache) : Meanwhile s (s.stepped i now task next) where
  clock := hclock
  checked := List.subset_append_right _ _
  obtained := List.subset_append_right _ _
  stores := List.subset_append_right _ _
  fresh := Nat.le_of_eq (congrArg InMemoryCache.fresh hcache).symm
  cells r _ := Or.inl (congrArg (fun c => c.cell r) hcache)

/-- The goroutines after a step during which the others were left alone. -/
theorem Bounded.jobs_stepped (h : Bounded codec s) (hlater : Meanwhile s (s.stepped i now task next))
    (hjob : JobOk codec (s.stepped i now task next) i next.task)
    (hstarted : ∀ j, ∀ job ∈ next.started, JobOk codec (s.stepped i now task next) j job) :
    ∀ j job, (s.stepped i now task next).tasks[j]? = some job →
      JobOk codec (s.stepped i now task next) j job :=
  Running.forall_after (fun j job _ hj => (h.jobs j job hj).meanwhile hlater) hjob hstarted

/-- A step that leaves the cache alone. -/
theorem Bounded.same (h : Bounded codec s) (hclock : s.clock ≤ now) (i : Nat)
    (task : Task F Call) (hcache : next.cache = s.cache)
    (hjob : JobOk codec (s.stepped i now task next) i next.task)
    (hstarted : ∀ j, ∀ job ∈ next.started, JobOk codec (s.stepped i now task next) j job) :
    Bounded codec (s.stepped i now task next) := by
  have hlater : Meanwhile s (s.stepped i now task next) := meanwhile_same hclock i task hcache
  refine ⟨?_, ?_, h.jobs_stepped hlater hjob hstarted⟩
  · show Addressed next.cache
    rw [hcache]
    exact h.addressed
  · intro r hr
    have hr' : r < s.cache.fresh := hcache ▸ hr
    have hsourced := (h.cells r hr').meanwhile hlater
    rwa [← hcache] at hsourced

/-- A cell that was found fresh has not expired before this check. -/
theorem Holding.check (hheld : Holding s id r) (h : Bounded codec s)
    (hfresh : ¬ (s.cache.memory r).isExpired now = true)
    (hlater : Meanwhile s s') (hcache : s'.cache = s.cache) (hclock : s'.clock = now)
    (hnoted : (i, id, now) ∈ s'.checked) : Checked s' i id r := by
  refine ⟨hheld.meanwhile hlater, now, hnoted, Int.le_of_eq hclock.symm, ?_⟩
  obtain ⟨_, _, _, _, _, _, _, hzero⟩ := h.cells r hheld.1
  rw [hcache]
  have hnot := isExpired_eq_false_iff.mp (Bool.eq_false_iff.mpr hfresh)
  exact hnot.resolve_left hzero

/-- What is read from a cell that was checked is a product that was obtained and stored no
longer ago than its expiry allows. -/
theorem Checked.read (hcodec : codec.RoundTrip) (hchecked : Checked s i id r)
    (h : Bounded codec s) (hlater : Meanwhile s s') :
    JobOk codec s' i (Task.afterGet codec id (some (s.cache.memory r).value)) := by
  obtain ⟨⟨hr, hkey⟩, t, ht, _, hle⟩ := hchecked
  obtain ⟨j, x, hx, hobtained, hxkey, hvalue, hexpiry, _⟩ := h.cells r hr
  obtain ⟨bytes, hbytes, hread⟩ := hcodec x.product
  have hid : id = x.id := cacheKey_inj.mp (hkey.symm.trans hxkey)
  have hunmarshal : codec.unmarshal (s.cache.memory r).value = some x.product := by
    rw [hvalue] at hbytes
    cases hbytes
    exact hread
  have hafter : (Task.afterGet codec id (some (s.cache.memory r).value) : Task F Call) =
      .read id (.ok (x.product, .hit)) := by
    simp only [Task.afterGet, hunmarshal]
  rw [hafter]
  subst hid
  exact ⟨t, j, x.reading, hlater.checked ht, hlater.stores hx, hlater.obtained hobtained,
    Int.le_trans hle (Int.le_of_eq hexpiry)⟩

end Sourced

/-! ## One step -/

section Step

variable {P F : Type} [EvictionPolicy P] {codec : Codec F} {s : Interleaved P F} {inp : Inputs}
  {call' : Call} {cache : InMemoryCache P} {task : Task F Call}
  {next : Progress (InMemoryCache P) F Call} {i : Nat}

/-- A step of a goroutine in a call of the cache is a step of the call. -/
theorem advance_call {req : Cache.Request} {call : Option Call} {state : CallState Call}
    (h : SteppedCache.advance s.cache inp req call = some (cache, state)) :
    ∃ call', Cache.advance s.cache inp (call.getD req.start) = some (cache, call') ∧
      state = call'.state := by
  obtain ⟨⟨cache, call'⟩, hadvance, heq⟩ := Option.map_eq_some_iff.mp h
  cases heq
  exact ⟨call', hadvance, rfl⟩

section Advance

variable {call : Call}

/-- A step of a call of the cache writes a cell in use only in place, and keeps its key. -/
theorem meanwhile_advance (h : Bounded codec s) (hclock : s.clock ≤ inp.now)
    (hadvance : Cache.advance s.cache inp call = some (next.cache, call'))
    (hset : ∀ key value expiresAt now, call = .setStore key value expiresAt now →
      inp.now ≤ expiresAt ∧
        Sourced codec (s.stepped i inp.now task next) (key, value, expiresAt)) :
    Meanwhile s (s.stepped i inp.now task next) where
  clock := hclock
  checked := List.subset_append_right _ _
  obtained := List.subset_append_right _ _
  stores := List.subset_append_right _ _
  fresh := fresh_advance h.addressed hadvance
  cells r hr := by
    rcases cell_advance h.addressed hadvance hr with
      hsame | ⟨value, expiresAt, now, hcall, _, _, hcell⟩
    · exact Or.inl hsame
    · have hkey : (next.cache.cell r).1 = (s.cache.cell r).1 := by rw [hcell]
      have hexpiry : inp.now ≤ (next.cache.cell r).2.2 := by
        rw [hcell]
        exact (hset _ value expiresAt now hcall).1
      exact Or.inr ⟨hkey, hexpiry⟩

/-- After a step of a call every cell in use is sourced. -/
theorem sourced_advance (h : Bounded codec s) (hclock : s.clock ≤ inp.now)
    (hadvance : Cache.advance s.cache inp call = some (next.cache, call'))
    (hset : ∀ key value expiresAt now, call = .setStore key value expiresAt now →
      inp.now ≤ expiresAt ∧
        Sourced codec (s.stepped i inp.now task next) (key, value, expiresAt)) :
    ∀ r, r < next.cache.fresh →
      Sourced codec (s.stepped i inp.now task next) (next.cache.cell r) := by
  intro r hr
  have hlater := meanwhile_advance h hclock hadvance hset
  cases advance_cells h.addressed hadvance with
  | kept hcell hfresh =>
      rw [hcell]
      exact (h.cells r (hfresh ▸ hr)).meanwhile hlater
  | written key value expiresAt now x hcall hplace _ hcell =>
      rw [hcell]
      by_cases hrx : r = x
      · rw [hrx, Function.update_self]
        exact (hset key value expiresAt now hcall).2
      · rw [Function.update_of_ne hrx]
        refine (h.cells r ?_).meanwhile hlater
        rcases hplace with ⟨_, hfresh⟩ | ⟨_, hnew, hfresh⟩ <;> omega

/-- A step of a call of the cache. -/
theorem Bounded.advance (h : Bounded codec s) (hclock : s.clock ≤ inp.now)
    (hadvance : Cache.advance s.cache inp call = some (next.cache, call'))
    (hset : ∀ key value expiresAt now, call = .setStore key value expiresAt now →
      inp.now ≤ expiresAt ∧
        Sourced codec (s.stepped i inp.now task next) (key, value, expiresAt))
    (hjob : Meanwhile s (s.stepped i inp.now task next) →
      JobOk codec (s.stepped i inp.now task next) i next.task)
    (hstarted : next.started = []) : Bounded codec (s.stepped i inp.now task next) := by
  have hlater := meanwhile_advance h hclock hadvance hset
  refine ⟨addressed_advance h.addressed hadvance, sourced_advance h hclock hadvance hset, ?_⟩
  refine h.jobs_stepped hlater (hjob hlater) ?_
  simp [hstarted]

end Advance

/-- A `Get` stays right about its cell, and what it returns is recent. -/
theorem GetOk.advance (hcodec : codec.RoundTrip) {s' : Interleaved P F} {id : String}
    {call : Option Call} (h : Bounded codec s) (hget : GetOk s i id call)
    (hadvance : Cache.advance s.cache inp (call.getD (.getLookup (cacheKey id))) =
      some (cache, call'))
    (hlater : Meanwhile s s') (hcache : s'.cache = cache) (hclock : s'.clock = inp.now)
    (hchecked : ∀ t, (id, t) ∈ (Task.inGet id call : Task F Call).checks s.cache inp.now →
      (i, id, t) ∈ s'.checked) :
    JobOk codec s' i (Task.resume (.inGet id) (.afterGet codec id) call'.state) := by
  rcases call with _ | call
  · simp only [Option.getD_none, Cache.advance] at hadvance
    split at hadvance
    · cases hadvance
      trivial
    · rename_i r hr
      cases hadvance
      exact Holding.meanwhile ⟨h.addressed.bound _ r hr, h.addressed.keyed _ r hr⟩ hlater
  · cases call with
    | getCheck key r =>
        simp only [Option.getD_some, Cache.advance] at hadvance
        split at hadvance
        · cases hadvance
          trivial
        · rename_i hfresh
          cases hadvance
          have hnoted : (i, id, inp.now) ∈ s'.checked := by
            refine hchecked inp.now ?_
            rw [Task.checks, if_neg hfresh]
            exact List.mem_cons_self
          exact Holding.check hget h hfresh hlater hcache hclock hnoted
    | getReap key =>
        cases hadvance
        trivial
    | getTouch key r =>
        cases hadvance
        exact Checked.meanwhile hget hlater
    | getRead r =>
        cases hadvance
        exact Checked.read hcodec hget h hlater
    | _ => cases hget

/-- A `Set` of a product goes on to store it, or has returned. -/
theorem SetOk.advance {id : String} {p : Product F} {call : Option Call} {value : Bytes}
    {ttl : Duration} (hset : SetOk codec id p call) (hvalue : codec.marshal p = some value)
    (httl : ttl = 5 * minute)
    (hadvance : Cache.advance s.cache inp (call.getD (.setValidate (cacheKey id) value ttl)) =
      some (cache, call')) :
    (∃ result, call' = .returned result) ∨
      call'.state = .inside call' ∧ SetOk codec id p (some call') := by
  rcases call with _ | call
  · have hvalid : InMemoryCache.validateTTL ttl = .ok () := by
      rw [httl]
      decide
    simp only [Option.getD_none, Cache.advance, hvalid] at hadvance
    cases hadvance
    exact Or.inr ⟨rfl, rfl, hvalue, by rw [expiryOf_eq, httl]⟩
  · cases call with
    | setStore key value expiresAt now =>
        cases hadvance
        exact Or.inl ⟨_, rfl⟩
    | _ => cases hset

/-- A step of a `Set` of an obtained row. -/
theorem Bounded.set (h : Bounded codec s) (hclock : s.clock ≤ inp.now) {id : String}
    {p : Product F} {call : Option Call} {value : Bytes} {ttl : Duration}
    {state : CallState Call} (hok : (i, id, p) ∈ s.obtained ∧ SetOk codec id p call)
    (hvalue : codec.marshal p = some value) (httl : ttl = 5 * minute)
    (hintime : ∀ expiresAt ∈ call.bind Call.expiry, inp.now ≤ expiresAt ∧ expiresAt ≠ 0)
    (hcall : SteppedCache.advance s.cache inp (.set (cacheKey id) value ttl) call =
      some (next.cache, state))
    (hstored : ∀ key value expiresAt now, call = some (.setStore key value expiresAt now) →
      task.stored = [⟨id, p, now⟩])
    (hstarted : next.started = []) (within : Option Call → Task F Call)
    (past : Option Bytes → Task F Call) (hjob : next.task = Task.resume within past state)
    (hpast : ∀ found, JobOk codec (s.stepped i inp.now task next) i (past found))
    (hwithin : ∀ call, (i, id, p) ∈ (s.stepped i inp.now task next).obtained ∧
      SetOk codec id p call → JobOk codec (s.stepped i inp.now task next) i (within call)) :
    Bounded codec (s.stepped i inp.now task next) := by
  obtain ⟨hobtained, hset⟩ := hok
  obtain ⟨call', hadvance, rfl⟩ := advance_call hcall
  have hobtained' : (i, id, p) ∈ (s.stepped i inp.now task next).obtained :=
    List.mem_append_right _ hobtained
  refine h.advance hclock hadvance ?_ ?_ hstarted
  · intro key value' expiresAt now heq
    rcases call with _ | call
    · cases heq
    · cases heq
      obtain ⟨hle, hzero⟩ := hintime expiresAt rfl
      refine ⟨hle, hset.sourced hobtained' (List.mem_append_left _ ?_) hzero⟩
      rw [hstored key value' expiresAt now rfl]
      exact List.mem_cons_self
  · intro _
    rw [hjob]
    rcases hset.advance hvalue httl hadvance with ⟨result, rfl⟩ | ⟨hinside, hset'⟩
    · exact hpast _
    · rw [hinside]
      exact hwithin (some call') ⟨hobtained', hset'⟩

/-- A step of a `Delete`, which returns. -/
theorem Bounded.delete (h : Bounded codec s) (hclock : s.clock ≤ inp.now) {key : String}
    {state : CallState Call}
    (hcall : SteppedCache.advance s.cache inp (.delete key) (none : Option Call) =
      some (next.cache, state))
    (hstarted : next.started = []) (within : Option Call → Task F Call)
    (past : Option Bytes → Task F Call) (hjob : next.task = Task.resume within past state)
    (hpast : ∀ found, JobOk codec (s.stepped i inp.now task next) i (past found)) :
    Bounded codec (s.stepped i inp.now task next) := by
  obtain ⟨call', hadvance, rfl⟩ := advance_call hcall
  refine h.advance hclock hadvance nofun ?_ hstarted
  intro _
  obtain ⟨_, rfl⟩ := Prod.mk.inj (Option.some.inj hadvance)
  rw [hjob]
  exact hpast _

variable {numeric : F → F} {strategy : Strategy} {db : DbInput}

/-- A step of a goroutine. -/
theorem Bounded.job (hcodec : codec.RoundTrip) (h : Bounded codec s)
    (hclock : s.clock ≤ inp.now) (hi : s.tasks[i]? = some task)
    (hintime : ∀ expiresAt ∈ task.call.bind Call.expiry, inp.now ≤ expiresAt ∧ expiresAt ≠ 0)
    (hsteps : task.Steps codec strategy s.cache s.table inp db next) :
    Bounded codec (s.stepped i inp.now task next) := by
  have hok : JobOk codec s i task := h.jobs i task hi
  have hnone : ∀ {s' : Interleaved P F} (j : Nat), ∀ job ∈ ([] : List (Task F Call)),
      JobOk codec s' j job := fun _ _ hjob => absurd hjob List.not_mem_nil
  cases hsteps with
  | get id call c state hcall =>
      obtain ⟨call', hadvance, rfl⟩ := advance_call hcall
      refine h.advance hclock hadvance ?_ ?_ rfl
      · exact fun key value e now heq => absurd heq (hok.not_setStore key value e now)
      · intro hlater
        refine hok.advance hcodec h hadvance hlater rfl rfl ?_
        exact fun t ht => List.mem_append_left _ (List.mem_map_of_mem ht)
  | discard id call c state hcall =>
      cases hok
      exact h.delete hclock hcall rfl _ _ rfl fun _ => trivial
  | fetchFailed id e hrow => exact h.same hclock i _ rfl trivial hnone
  | fetched id row hrow =>
      exact h.same hclock i _ rfl ⟨List.mem_cons_self, trivial⟩ hnone
  | unserialised id p call hvalue => exact h.same hclock i _ rfl trivial hnone
  | populate id p call value c state hvalue hcall =>
      refine h.set hclock hok hvalue rfl hintime hcall ?_ rfl _ _ rfl (fun _ => trivial)
        fun _ hset => hset
      rintro key value expiresAt now rfl
      rfl
  | writeFailed id req e => exact h.same hclock i _ rfl trivial hnone
  | written id req row => exact h.same hclock i _ rfl ⟨List.mem_cons_self, trivial⟩ hnone
  | ignored id p call hstrategy => exact h.same hclock i _ rfl trivial hnone
  | through id p call c state hstrategy hcall =>
      obtain ⟨value, hvalue, _⟩ := hcodec p
      rw [hvalue] at hcall
      refine h.set hclock hok hvalue rfl hintime hcall ?_ rfl _ _ rfl (fun _ => trivial)
        fun _ hset => hset
      rintro key value expiresAt now rfl
      rfl
  | behind id p call hstrategy =>
      refine h.same hclock i _ rfl trivial ?_
      intro j job hjob
      cases List.mem_singleton.mp hjob
      rfl
  | delete key call c state hcall =>
      cases hok
      exact h.delete hclock hcall rfl _ _ rfl fun _ => trivial

/-- What a step is made of. -/
theorem jobStep_step {s' : Interleaved P F}
    (hstep : jobStep codec numeric strategy s (.step i inp db) = some s') :
    s.clock ≤ inp.now ∧ ∃ task next, s.tasks[i]? = some task ∧
      task.Steps codec strategy s.cache s.table inp db next ∧
      s' = s.stepped i inp.now task next := by
  obtain ⟨hadmits, t, htaken, rfl⟩ := noted_some hstep
  obtain ⟨task, next, hi, hsteps, rfl⟩ := taskStep_step htaken
  refine ⟨of_decide_eq_true hadmits, task, next, hi, hsteps, ?_⟩
  simp only [Interleaved.note, Interleaved.stepped, hi, Running.after_self hi, Option.elim_some]

/-- **An event keeps the invariant**, if its `Set` stores in time. -/
theorem Bounded.step (hcodec : codec.RoundTrip) {s' : Interleaved P F}
    {ev : TaskEvent Inputs F} (h : Bounded codec s) (hintime : StoresInTime s ev)
    (hstep : jobStep codec numeric strategy s ev = some s') : Bounded codec s' := by
  have hstart : ∀ task : Task F Call, (∀ (s' : Interleaved P F) j, JobOk codec s' j task) →
      Bounded codec { s with toRunning := s.toRunning.start task } := by
    intro task htask
    have hlater : Meanwhile s { s with toRunning := s.toRunning.start task } :=
      ⟨Int.le_refl _, fun _ hx => hx, fun _ hx => hx, fun _ hx => hx, Nat.le_refl _,
        fun _ _ => Or.inl rfl⟩
    refine ⟨h.addressed, fun r hr => (h.cells r hr).meanwhile hlater, ?_⟩
    exact Running.forall_start (fun j job hj => (h.jobs j job hj).meanwhile hlater) (htask _ _)
  cases ev with
  | get id =>
      cases hstep
      exact hstart _ fun _ _ => trivial
  | update id req =>
      cases hstep
      exact hstart _ fun _ _ => trivial
  | step i inp db =>
      obtain ⟨hclock, task, next, hi, hsteps, rfl⟩ := jobStep_step hstep
      refine h.job hcodec hclock hi ?_ hsteps
      intro expiresAt hexpiry
      exact hintime expiresAt (by rw [hi]; exact hexpiry)

end Step

/-! ## The steps of a run -/

section Trace

variable {P F : Type} {s s' : Interleaved P F} {ev : TaskEvent Inputs F} {i j : Nat}
  {id : String} {t : Time} {p : Product F}

/-- In this step the `GetProduct` of goroutine `i` checks the entry that it has found, at
time `t`, and the entry has not expired. -/
def Checks (s : Interleaved P F) (ev : TaskEvent Inputs F) (i : Nat) (id : String) (t : Time) :
    Prop :=
  ∃ inp db key r, ev = .step i inp db ∧ inp.now = t ∧
    s.tasks[i]? = some (.inGet id (some (.getCheck key r))) ∧
    (s.cache.memory r).isExpired t = false

/-- In this step the `GetProduct` or `UpdateProduct` of goroutine `j` obtains a product from
the database: it is the row of its id there when the query is done. -/
def Obtains (s : Interleaved P F) (ev : TaskEvent Inputs F) (s' : Interleaved P F) (j : Nat)
    (id : String) (p : Product F) : Prop :=
  ∃ inp db, ev = .step j inp db ∧
    (s.tasks[j]? = some (.beforeFetch id) ∨ ∃ req, s.tasks[j]? = some (.beforeWrite id req)) ∧
    ∃ row, s'.table.lookup id = some row ∧ p = dbToAPIProduct row

/-- In this step goroutine `j` runs the locked part of a `Set` of the serialised product,
under the key of its id.  The `Set` has read the clock before. -/
def Puts (codec : Codec F) (s : Interleaved P F) (ev : TaskEvent Inputs F) (j : Nat)
    (id : String) (p : Product F) (reading : Time) : Prop :=
  ∃ inp db value expiresAt, ev = .step j inp db ∧ codec.marshal p = some value ∧
    (s.tasks[j]? =
        some (.inPopulate id p (some (.setStore (cacheKey id) value expiresAt reading))) ∨
      s.tasks[j]? =
        some (.inOnWrite id p (some (.setStore (cacheKey id) value expiresAt reading))))

/-- **Where a hit comes from**: its `GetProduct` has checked the entry at `t`; and one
goroutine has obtained the product as the row of the id, and after that stored it with a
`Set` that read the clock at most five minutes before `t`. -/
def Traced (step : Interleaved P F → TaskEvent Inputs F → Option (Interleaved P F))
    (codec : Codec F) (start : Interleaved P F) (evs : List (TaskEvent Inputs F)) (i : Nat)
    (id : String) (t : Time) (p : Product F) : Prop :=
  (∃ n s ev s', StepAt step start evs n s ev s' ∧ Checks s ev i id t) ∧
  ∃ j n m reading, n < m ∧
    (∃ s ev s', StepAt step start evs n s ev s' ∧ Obtains s ev s' j id p) ∧
    (∃ s ev s', StepAt step start evs m s ev s' ∧ Puts codec s ev j id p reading) ∧
    t ≤ reading + 5 * minute

/-- What is noted as checked is an entry that the goroutine finds unexpired. -/
theorem Task.eq_getCheck_of_checks {cache : InMemoryCache P} {now : Time} {task : Task F Call}
    (ht : (id, t) ∈ task.checks cache now) : now = t ∧
      ∃ key r, task = .inGet id (some (.getCheck key r)) ∧
        (cache.memory r).isExpired t = false := by
  unfold Task.checks at ht
  split at ht
  · rename_i id' key r
    split at ht
    · cases ht
    · rename_i hfresh
      cases List.mem_singleton.mp ht
      exact ⟨rfl, key, r, rfl, Bool.eq_false_iff.mpr hfresh⟩
  · cases ht

/-- What is noted as stored is what the `Set` of the goroutine stores. -/
theorem Task.eq_setStore_of_stored {task : Task F Call} {x : Stored F} (hx : x ∈ task.stored) :
    ∃ key value expiresAt,
      task = .inPopulate x.id x.product (some (.setStore key value expiresAt x.reading)) ∨
        task = .inOnWrite x.id x.product (some (.setStore key value expiresAt x.reading)) := by
  unfold Task.stored at hx
  split at hx
  · rename_i id p key value expiresAt now
    cases List.mem_singleton.mp hx
    exact ⟨key, value, expiresAt, Or.inl rfl⟩
  · rename_i id p key value expiresAt now
    cases List.mem_singleton.mp hx
    exact ⟨key, value, expiresAt, Or.inr rfl⟩
  · cases hx

variable [EvictionPolicy P] {codec : Codec F} {numeric : F → F} {strategy : Strategy}

/-- A goroutine that has just obtained a row has asked for it. -/
theorem Task.Steps.obtained {cache : InMemoryCache P} {table : Db.Table F} {inp : Inputs}
    {db : DbInput} {task : Task F Call} {next : Progress (InMemoryCache P) F Call}
    (hsteps : task.Steps codec strategy cache table inp db next)
    (hp : (id, p) ∈ next.task.obtained) :
    (task = .beforeFetch id ∨ ∃ req, task = .beforeWrite id req) ∧
      ∃ row, next.table.lookup id = some row ∧ p = dbToAPIProduct row := by
  cases hsteps with
  | fetched id' row hrow =>
      cases List.mem_singleton.mp hp
      exact ⟨Or.inl rfl, row, hrow, rfl⟩
  | written id' req row =>
      cases List.mem_singleton.mp hp
      exact ⟨Or.inr ⟨req, rfl⟩, row, AList.lookup_insert _, rfl⟩
  | get id' call c state hcall =>
      rcases state with point | _ | value
      · cases hp
      · cases hp
      · simp only [Task.resume, Task.afterGet] at hp
        split at hp <;> cases hp
  | discard id' call c state hcall => cases state <;> cases hp
  | populate id' p' call value c state hvalue hcall => cases state <;> cases hp
  | through id' p' call c state hstrategy hcall => cases state <;> cases hp
  | delete key call c state hcall => cases state <;> cases hp
  | fetchFailed id' e hrow => cases hp
  | unserialised id' p' call hvalue => cases hp
  | writeFailed id' req e => cases hp
  | ignored id' p' call hstrategy => cases hp
  | behind id' p' call hstrategy => cases hp

/-- **What was newly noted as checked** was checked in this step. -/
theorem checks_of_noted (hstep : jobStep codec numeric strategy s ev = some s')
    (hnoted : (i, id, t) ∈ s'.checked) (hnew : (i, id, t) ∉ s.checked) : Checks s ev i id t := by
  cases ev with
  | get id' =>
      cases hstep
      exact absurd hnoted hnew
  | update id' req =>
      cases hstep
      exact absurd hnoted hnew
  | step k inp db =>
      obtain ⟨_, task, next, hk, _, rfl⟩ := jobStep_step hstep
      have hmem := (List.mem_append.mp hnoted).resolve_right hnew
      obtain ⟨⟨id', t'⟩, ht, heq⟩ := List.mem_map.mp hmem
      cases heq
      obtain ⟨hnow, key, r, rfl, hfresh⟩ := Task.eq_getCheck_of_checks ht
      exact ⟨inp, db, key, r, rfl, hnow, hk, hfresh⟩

/-- **What was newly noted as obtained** was obtained in this step. -/
theorem obtains_of_noted (hstep : jobStep codec numeric strategy s ev = some s')
    (hnoted : (j, id, p) ∈ s'.obtained) (hnew : (j, id, p) ∉ s.obtained) :
    Obtains s ev s' j id p := by
  cases ev with
  | get id' =>
      cases hstep
      exact absurd hnoted hnew
  | update id' req =>
      cases hstep
      exact absurd hnoted hnew
  | step i inp db =>
      obtain ⟨_, task, next, hi, hsteps, rfl⟩ := jobStep_step hstep
      have hmem := (List.mem_append.mp hnoted).resolve_right hnew
      obtain ⟨⟨id', p'⟩, hp, heq⟩ := List.mem_map.mp hmem
      cases heq
      obtain ⟨htask, hrow⟩ := hsteps.obtained hp
      refine ⟨inp, db, rfl, ?_, hrow⟩
      rcases htask with rfl | ⟨req, rfl⟩
      · exact Or.inl hi
      · exact Or.inr ⟨req, hi⟩

/-- **What was newly noted as stored** was stored in this step, by a goroutine that had
obtained it. -/
theorem Bounded.puts_of_noted (h : Bounded codec s)
    (hstep : jobStep codec numeric strategy s ev = some s') {reading : Time}
    (hnoted : (j, ⟨id, p, reading⟩) ∈ s'.stores) (hnew : (j, ⟨id, p, reading⟩) ∉ s.stores) :
    Puts codec s ev j id p reading ∧ (j, id, p) ∈ s.obtained := by
  cases ev with
  | get id' =>
      cases hstep
      exact absurd hnoted hnew
  | update id' req =>
      cases hstep
      exact absurd hnoted hnew
  | step i inp db =>
      obtain ⟨_, task, next, hi, _, rfl⟩ := jobStep_step hstep
      have hmem := (List.mem_append.mp hnoted).resolve_right hnew
      obtain ⟨x, hx, heq⟩ := List.mem_map.mp hmem
      cases heq
      have hok := h.jobs j task hi
      obtain ⟨key, value, expiresAt, rfl | rfl⟩ := Task.eq_setStore_of_stored hx
      · obtain ⟨hobtained, rfl, hvalue, _⟩ := hok
        exact ⟨⟨inp, db, value, expiresAt, rfl, hvalue, Or.inl hi⟩, hobtained⟩
      · obtain ⟨hobtained, rfl, hvalue, _⟩ := hok
        exact ⟨⟨inp, db, value, expiresAt, rfl, hvalue, Or.inr hi⟩, hobtained⟩

/-- **What is noted as checked** was checked in a step of the run. -/
theorem exists_checks {start : Interleaved P F} (hstart : start.checked = [])
    {evs : List (TaskEvent Inputs F)}
    (hrun : run (jobStep codec numeric strategy) start evs = some s)
    (hnoted : (i, id, t) ∈ s.checked) :
    ∃ n m ev m', StepAt (jobStep codec numeric strategy) start evs n m ev m' ∧
      Checks m ev i id t := by
  obtain ⟨n, m, ev, m', hat, hbefore, hafter⟩ := exists_stepAt
    (Q := fun s => (i, id, t) ∈ s.checked) hrun (by simp [hstart]) hnoted
  exact ⟨n, m, ev, m', hat, checks_of_noted hat.taken hafter hbefore⟩

/-- **What is noted as obtained** was obtained in a step of the run. -/
theorem exists_obtains {start : Interleaved P F} (hstart : start.obtained = [])
    {evs : List (TaskEvent Inputs F)}
    (hrun : run (jobStep codec numeric strategy) start evs = some s)
    (hnoted : (j, id, p) ∈ s.obtained) :
    ∃ n m ev m', StepAt (jobStep codec numeric strategy) start evs n m ev m' ∧
      Obtains m ev m' j id p := by
  obtain ⟨n, m, ev, m', hat, hbefore, hafter⟩ := exists_stepAt
    (Q := fun s => (j, id, p) ∈ s.obtained) hrun (by simp [hstart]) hnoted
  exact ⟨n, m, ev, m', hat, obtains_of_noted hat.taken hafter hbefore⟩

/-- **What is noted as stored** was stored in a step of the run, by a goroutine that had
obtained it in an earlier one. -/
theorem exists_puts {start : Interleaved P F} (hobtained : start.obtained = [])
    (hstores : start.stores = []) {evs : List (TaskEvent Inputs F)}
    (hbounded : ∀ n m, run (jobStep codec numeric strategy) start (evs.take n) = some m →
      Bounded codec m)
    (hrun : run (jobStep codec numeric strategy) start evs = some s) {reading : Time}
    (hnoted : (j, ⟨id, p, reading⟩) ∈ s.stores) :
    ∃ n m, n < m ∧
      (∃ u ev u', StepAt (jobStep codec numeric strategy) start evs n u ev u' ∧
        Obtains u ev u' j id p) ∧
      (∃ u ev u', StepAt (jobStep codec numeric strategy) start evs m u ev u' ∧
        Puts codec u ev j id p reading) := by
  obtain ⟨m, u, ev, u', hat, hbefore, hafter⟩ := exists_stepAt
    (Q := fun s => (j, ⟨id, p, reading⟩) ∈ s.stores) hrun (by simp [hstores]) hnoted
  obtain ⟨hputs, hhas⟩ := (hbounded m u hat.before).puts_of_noted hat.taken hafter hbefore
  obtain ⟨n, v, ev', v', hat', hobtains⟩ := exists_obtains hobtained hat.before hhas
  obtain ⟨hnm, hat'⟩ := hat'.of_take
  exact ⟨n, m, hnm, ⟨v, ev', v', hat', hobtains⟩, u, ev, u', hat, hputs⟩

/-- What a step stores is noted. -/
theorem noted_of_puts {reading : Time} (hstep : jobStep codec numeric strategy s ev = some s')
    (hputs : Puts codec s ev j id p reading) : (j, ⟨id, p, reading⟩) ∈ s'.stores := by
  obtain ⟨inp, db, value, expiresAt, rfl, _, htask⟩ := hputs
  obtain ⟨_, task, next, hj, _, rfl⟩ := jobStep_step hstep
  rcases htask with htask | htask <;> cases hj.symm.trans htask <;> exact List.mem_cons_self

/-- What a step checks is noted. -/
theorem noted_of_checks (hstep : jobStep codec numeric strategy s ev = some s')
    (hchecks : Checks s ev i id t) : (i, id, t) ∈ s'.checked := by
  obtain ⟨inp, db, key, r, rfl, rfl, htask, hfresh⟩ := hchecks
  obtain ⟨_, task, next, hi, _, rfl⟩ := jobStep_step hstep
  cases hi.symm.trans htask
  refine List.mem_append_left _ (List.mem_map_of_mem ?_)
  rw [Task.checks, hfresh]
  exact List.mem_cons_self

/-- Notes are kept. -/
theorem notes_kept (hstep : jobStep codec numeric strategy s ev = some s') :
    s.checked ⊆ s'.checked ∧ s.stores ⊆ s'.stores := by
  cases ev with
  | get id =>
      cases hstep
      exact ⟨fun _ hx => hx, fun _ hx => hx⟩
  | update id req =>
      cases hstep
      exact ⟨fun _ hx => hx, fun _ hx => hx⟩
  | step i inp db =>
      obtain ⟨_, _, _, _, _, rfl⟩ := jobStep_step hstep
      exact ⟨List.subset_append_right _ _, List.subset_append_right _ _⟩

end Trace

/-- **Bounded staleness.**  Interleave any requests and deletions under any strategy, on a
clock that does not run backwards, and let every `Set` store its value no later than
at the expiry that it computed.  A `GetProduct` that reports `HIT` has checked its entry
at some time `t`, and returns a product that one request obtained from the database as
the row of the same id and stored with a `Set` whose reading of the clock is at most five
minutes before `t`.  The steps of a `Get` change no expiry. -/
theorem bounded_staleness {P F : Type} [EvictionPolicy P] (codec : Codec F)
    (hcodec : codec.RoundTrip) (numeric : F → F) (strategy : Strategy) (capacity : Nat)
    (policy : P) (table : Db.Table F) (clock : Time) (evs : List (TaskEvent Inputs F))
    (halong : Along (jobStep codec numeric strategy) StoresInTime
      (.init capacity policy table clock) evs)
    (s : Interleaved P F)
    (hrun : run (jobStep codec numeric strategy) (.init capacity policy table clock) evs =
      some s) :
    (∀ i id p, s.tasks[i]? = some (.read id (.ok (p, .hit))) →
      ∃ t, Traced (jobStep codec numeric strategy) codec (.init capacity policy table clock) evs
        i id t p) ∧
    (∀ i id call inp db s', s.tasks[i]? = some (.inGet id call) →
      jobStep codec numeric strategy s (.step i inp db) = some s' →
      ∀ r, (s'.cache.memory r).expiresAt = (s.cache.memory r).expiresAt) := by
  have hinit : Bounded codec (.init capacity policy table clock) :=
    ⟨addressed_new capacity policy, fun r hr => absurd hr (Nat.not_lt_zero r),
      by simp [Interleaved.init]⟩
  have hbounded : ∀ n m, run (jobStep codec numeric strategy)
      (.init capacity policy table clock) (evs.take n) = some m → Bounded codec m := by
    intro n m hm
    refine run_invariant_along (I := Bounded codec) ?_ hinit (halong.take n) hm
    exact fun _ _ _ h hintime hstep => h.step hcodec hintime hstep
  have h : Bounded codec s := hbounded evs.length s (by rwa [List.take_length])
  constructor
  · intro i id p hi
    obtain ⟨t, j, reading, hchecked, hstored, _, hle⟩ := h.jobs i _ hi
    obtain ⟨n, m, hnm, hobtains, hputs⟩ := exists_puts rfl rfl hbounded hrun hstored
    exact ⟨t, exists_checks rfl hrun hchecked, j, n, m, reading, hnm, hobtains, hputs, hle⟩
  · intro i id call inp db s' hi hstep r
    obtain ⟨_, task, next, hi', hsteps, rfl⟩ := jobStep_step hstep
    rw [hi] at hi'
    cases hi'
    have hget : GetOk s i id call := h.jobs i _ hi
    cases hsteps with
    | get id call c state hcall =>
        obtain ⟨call', hadvance, rfl⟩ := advance_call hcall
        cases advance_cells h.addressed hadvance with
        | kept hcell _ => exact congrArg (fun cell => cell.2.2) (congrFun hcell r)
        | written key value expiresAt now _ heq _ _ _ =>
            exact absurd heq (hget.not_setStore key value expiresAt now)

/-! ## Two runs -/

/-- Goroutine `i` takes a step at time `now`. -/
def jobAt (i : Nat) (now : Time) : TaskEvent Inputs Nat := .step i ⟨now, now, 0⟩ ⟨none, now⟩

/-- The price of the mat is lowered. -/
def reduceMat : TaskEvent Inputs Nat := .update "p3" ⟨none, none, some 45, none⟩

/-- A service whose database has the mat. -/
def matService : Interleaved Policy Nat :=
  .init 1 (newPolicy .lru) ((∅ : Db.Table Nat).insert "p3" sampleMat) 0

/-- The mat is reduced under write-through, and read four minutes later. -/
def readReduced : List (TaskEvent Inputs Nat) :=
  [reduceMat, jobAt 0 minute, jobAt 0 minute, jobAt 0 minute,
   .get "p3", jobAt 1 (5 * minute), jobAt 1 (5 * minute), jobAt 1 (5 * minute),
   jobAt 1 (5 * minute)]

/-- The mat is read four minutes after it was reduced, and the hit is traced. -/
theorem bounded_staleness_reduced :
    ∃ s, run (jobStep sampleCodec id .writeThrough) matService readReduced = some s ∧
      s.tasks[1]? = some (.read "p3" (.ok (dbToAPIProduct sampleMatReduced, .hit))) ∧
      ∃ t, Traced (jobStep sampleCodec id .writeThrough) sampleCodec matService readReduced 1
        "p3" t (dbToAPIProduct sampleMatReduced) := by
  obtain ⟨s, hrun, hhit⟩ : ∃ s,
      run (jobStep sampleCodec id .writeThrough) matService readReduced = some s ∧
        s.tasks[1]? = some (.read "p3" (.ok (dbToAPIProduct sampleMatReduced, .hit))) :=
    exists_run (by decide +kernel) (by decide +kernel)
  refine ⟨s, hrun, hhit, ?_⟩
  exact (bounded_staleness sampleCodec sampleCodec_roundTrip id .writeThrough 1 (newPolicy .lru)
    _ 0 readReduced (by decide +kernel) s hrun).1 1 _ _ hhit

/-- A reader has fetched the mat and computed its expiry.  The mat is reduced.  A second
reader stores the new row after six minutes and a third one checks it; then the first
one gets the lock. -/
def slippedIn : List (TaskEvent Inputs Nat) :=
  [.get "p3", jobAt 0 second, jobAt 0 second, jobAt 0 second,
   reduceMat, jobAt 1 minute, jobAt 1 minute,
   .get "p3", jobAt 2 (6 * minute), jobAt 2 (6 * minute), jobAt 2 (6 * minute),
   jobAt 2 (6 * minute),
   .get "p3", jobAt 3 (6 * minute), jobAt 3 (6 * minute), jobAt 3 (6 * minute),
   jobAt 0 (6 * minute), jobAt 3 (6 * minute)]

/-- **A hit past the bound.**  The third reader reports `HIT` after a check at six minutes,
with the row that was stored only by a `Set` which read the clock after one second. -/
theorem hit_past_bound :
    ∃ s, run (jobStep sampleCodec id .ttl) matService slippedIn = some s ∧
      s.tasks[3]? = some (.read "p3" (.ok (dbToAPIProduct sampleMat, .hit))) ∧
      ¬ ∃ t, Traced (jobStep sampleCodec id .ttl) sampleCodec matService slippedIn 3 "p3" t
        (dbToAPIProduct sampleMat) := by
  obtain ⟨s, hrun, hhit, hlate, hearly⟩ : ∃ s,
      run (jobStep sampleCodec id .ttl) matService slippedIn = some s ∧
        s.tasks[3]? = some (.read "p3" (.ok (dbToAPIProduct sampleMat, .hit))) ∧
        (∀ x ∈ s.checked, x.1 = 3 → x.2.2 = 6 * minute) ∧
        ∀ x ∈ s.stores, x.2.product = dbToAPIProduct sampleMat →
          ¬ 6 * minute ≤ x.2.reading + 5 * minute :=
    exists_run (by decide +kernel) (by decide +kernel)
  refine ⟨s, hrun, hhit, ?_⟩
  intro htraced
  obtain ⟨t, ⟨n, v, ev', v', hat', hchecks⟩, j, _, m, reading, _, _, ⟨u, ev, u', hat, hputs⟩,
    hle⟩ := htraced
  have hchecked := hat'.kept (I := fun s => (3, "p3", t) ∈ s.checked)
    (fun _ _ _ hx hstep => (notes_kept hstep).1 hx) (noted_of_checks hat'.taken hchecks) hrun
  have hstored := hat.kept
    (I := fun s => (j, ⟨"p3", dbToAPIProduct sampleMat, reading⟩) ∈ s.stores)
    (fun _ _ _ hx hstep => (notes_kept hstep).2 hx) (noted_of_puts hat.taken hputs) hrun
  have ht : t = 6 * minute := hlate _ hchecked rfl
  exact hearly _ hstored rfl (ht ▸ hle)

end Api
