import DistributedCaching.CacheContents
import DistributedCaching.ProductGoroutines

/-!
# Cleaning up behind the writes

Any number of `GetProduct` and `UpdateProduct` calls on one service, with the
deletions that write-behind leaves to the background, interleaved at their
accesses to the cache and to the database.  The cache is any one that keeps its
promise and carries out deletions; its calls are single steps.

A deletion cleans up what was stored before it.  A reader that fetched its row
before an update and stores it after the deletion of that update puts the old row
back, and nothing removes it: `old_row_stays` is such a run.  `write_behind_clean`
says that this is the only way: if every reader stores a row that is still the
current one, or has a deletion of the product still to come, then nothing stale is
left when all is quiet.
-/

namespace Api

open Go Cache Eviction TransitionRuns

namespace Task

variable {F L : Type}

/-- What a reader is about to store in the cache. -/
def toPopulate : Task F L → Option (String × Product F)
  | .inPopulate id product _ => some (id, product)
  | _ => none

/-- A deletion of the product is still to come from the goroutine. -/
def cleans (id : String) : Task F L → Bool
  | .inOnWrite id' _ _ => id' == id
  | .inDelete key _ => key == cacheKey id
  | _ => false

end Task

namespace Running

variable {C F L : Type}

/-- A deletion of the product is still to come. -/
def pending (s : Running C F L) (id : String) : Bool := s.tasks.any (Task.cleans id)

end Running

/-- Deletions succeed, and remove what is stored under the key. -/
def CarriesOutDeletions (C : Type) {I : Type} [LawfulCache C I] : Prop :=
  ∀ (c : C) (key : String) (i : I), LawfulCache.Valid c →
    (SharedCache.delete c key i).1 = true ∧
      ∀ v, ¬ LawfulCache.Holds (SharedCache.delete c key i).2 key v

/-! ## What is stored is current, or will be deleted -/

section Clean

variable {C I F : Type}

/-- What a reader stores is the current row, or a deletion of the product is still to
come. -/
def StoresCurrent (s : Running C F Empty) : TaskEvent I F → Prop
  | .step i _ _ => ∀ x ∈ s.tasks[i]?.bind Task.toPopulate,
      s.row x.1 = some x.2 ∨ s.pending x.1 = true
  | _ => True

instance [DecidableEq F] (s : Running C F Empty) :
    ∀ ev : TaskEvent I F, Decidable (StoresCurrent s ev)
  | .get _ => .isTrue trivial
  | .update _ _ => .isTrue trivial
  | .step i _ _ => inferInstanceAs (Decidable (∀ x ∈ s.tasks[i]?.bind Task.toPopulate,
      s.row x.1 = some x.2 ∨ s.pending x.1 = true))

/-- The bytes are the serialisation of the row of a product. -/
def Serialised (codec : Codec F) (table : Db.Table F) (id : String) (v : Bytes) : Prop :=
  ∃ row, table.lookup id = some row ∧ codec.marshal (dbToAPIProduct row) = some v

/-- The row of a product as the API shows it, serialised. -/
theorem serialised_iff {codec : Codec F} {s : Running C F Empty} {id : String} {v : Bytes} :
    Serialised codec s.table id v ↔ ∃ p, s.row id = some p ∧ codec.marshal p = some v := by
  simp [Serialised, Running.row]

variable {codec : Codec F} {s : Running C F Empty} {i : Nat} {task : Task F Empty}
  {next : Progress C F Empty}

/-- A step of one goroutine keeps the deletions of a product that are to come, unless the
goroutine was one of them. -/
theorem pending_after {id : String} (hi : s.tasks[i]? = some task)
    (hkept : task.cleans id = true →
      (next.task :: next.started).any (Task.cleans id) = true)
    (hpending : s.pending id = true) : (s.after i next).pending id = true := by
  obtain ⟨t, hmem, ht⟩ := List.any_eq_true.mp hpending
  obtain ⟨u, hu⟩ := List.mem_iff_getElem?.mp hmem
  by_cases hui : u = i
  · subst hui
    rw [hi] at hu
    cases hu
    obtain ⟨t', hmem', ht'⟩ := List.any_eq_true.mp (hkept ht)
    refine List.any_eq_true.mpr ⟨t', ?_, ht'⟩
    rcases List.mem_cons.mp hmem' with rfl | hstarted
    · exact List.mem_of_getElem? (Running.after_self hi)
    · exact List.mem_append_right _ hstarted
  · refine List.any_eq_true.mpr ⟨t, List.mem_append_left _ ?_, ht⟩
    exact List.mem_of_getElem? ((List.getElem?_set_ne (Ne.symm hui)).trans hu)

variable [LawfulCache C I]

/-- **Clean**: what the cache holds for a product is the serialisation of its row, or a
deletion of the product is still to come. -/
structure Clean (codec : Codec F) (s : Running C F Empty) : Prop where
  valid : LawfulCache.Valid s.cache
  covered : ∀ id v, LawfulCache.Holds s.cache (cacheKey id) v →
    Serialised codec s.table id v ∨ s.pending id = true

/-- A step that leaves the rows alone, stores nothing and is no deletion. -/
theorem Clean.frame (h : Clean codec s) (hi : s.tasks[i]? = some task)
    (hvalid : LawfulCache.Valid next.cache)
    (hold : ∀ k v, LawfulCache.Holds next.cache k v → LawfulCache.Holds s.cache k v)
    (htable : next.table = s.table)
    (hkept : ∀ id, task.cleans id = true →
      (next.task :: next.started).any (Task.cleans id) = true) :
    Clean codec (s.after i next) where
  valid := hvalid
  covered id v hv := by
    rw [Running.after, htable]
    exact (h.covered id v (hold _ v hv)).imp_right (pending_after hi (hkept id))

/-- A reader stores the row that it fetched. -/
theorem Clean.store {id : String} {p : Product F} {call : Option Empty} {value : Bytes}
    (h : Clean codec s) (hi : s.tasks[i]? = some (.inPopulate id p call))
    (hvalue : codec.marshal p = some value) (input : I)
    (hcurrent : s.row id = some p ∨ s.pending id = true) (task' : Task F Empty) :
    Clean codec (s.after i
      { cache := (perform s.cache input (.set (cacheKey id) value defaultProductTTL)).1
        table := s.table, task := task' }) where
  valid := valid_perform h.valid _ _
  covered id' v hv := by
    rcases holds_perform h.valid hv with hold | ⟨ttl, hset⟩
    · exact (h.covered id' v hold).imp_right (pending_after hi nofun)
    · obtain ⟨hkey, rfl, _⟩ := Cache.Request.set.inj hset
      cases cacheKey_inj.mp hkey
      exact hcurrent.imp (fun hrow => serialised_iff.mpr ⟨p, hrow, hvalue⟩)
        (pending_after hi nofun)

/-- An update changes a row, and has its deletion to schedule. -/
theorem Clean.write {id : String} {req : ProductUpdateRequest F} {row : Db.Product F}
    (h : Clean codec s) (hi : s.tasks[i]? = some (.beforeWrite id req)) :
    Clean codec (s.after i
      { cache := s.cache, table := s.table.insert id row
        task := .inOnWrite id (dbToAPIProduct row) none }) where
  valid := h.valid
  covered id' v hv := by
    by_cases hid : id' = id
    · subst hid
      refine Or.inr (List.any_eq_true.mpr ⟨.inOnWrite id' (dbToAPIProduct row) none, ?_, ?_⟩)
      · exact List.mem_of_getElem? (Running.after_self hi)
      · simp [Task.cleans]
    · refine (h.covered id' v hv).imp ?_ (pending_after hi nofun)
      intro hrow
      obtain ⟨row', hrow', hv'⟩ := hrow
      exact ⟨row', (AList.lookup_insert_ne hid).trans hrow', hv'⟩

/-- A deletion runs. -/
theorem Clean.delete {key : String} {call : Option Empty} (hdeletes : CarriesOutDeletions C)
    (h : Clean codec s) (hi : s.tasks[i]? = some (.inDelete key call)) (input : I)
    (task' : Task F Empty) :
    Clean codec (s.after i
      { cache := (perform s.cache input (.delete key)).1, table := s.table, task := task' }) where
  valid := valid_perform h.valid _ _
  covered id v hv := by
    by_cases hkey : key = cacheKey id
    · subst hkey
      exact absurd hv ((hdeletes s.cache _ input h.valid).2 v)
    · refine (h.covered id v (LawfulCache.holds_delete h.valid hv)).imp_right ?_
      refine pending_after hi ?_
      intro hcleans
      exact absurd (of_decide_eq_true hcleans) hkey

/-- A step of a goroutine keeps the service clean. -/
theorem Clean.advance (hdeletes : CarriesOutDeletions C) {input : I} {db : DbInput}
    (h : Clean codec s) (hi : s.tasks[i]? = some task)
    (hcurrent : StoresCurrent s (.step i input db : TaskEvent I F))
    (hsteps : task.Steps codec .writeBehind s.cache s.table input db next) :
    Clean codec (s.after i next) := by
  cases hsteps with
  | get id call c state hcall =>
      cases hcall
      exact h.frame hi (valid_perform h.valid _ _) (fun k v => LawfulCache.holds_get h.valid) rfl
        (fun _ => nofun)
  | discard id call c state hcall =>
      cases hcall
      exact h.frame hi (valid_perform h.valid _ _) (fun k v => LawfulCache.holds_delete h.valid)
        rfl (fun _ => nofun)
  | fetchFailed id e hrow => exact h.frame hi h.valid (fun _ _ hv => hv) rfl (fun _ => nofun)
  | fetched id row hrow => exact h.frame hi h.valid (fun _ _ hv => hv) rfl (fun _ => nofun)
  | unserialised id p call hvalue =>
      exact h.frame hi h.valid (fun _ _ hv => hv) rfl (fun _ => nofun)
  | populate id p call value c state hvalue hcall =>
      cases hcall
      exact h.store hi hvalue input (hcurrent (id, p) (by rw [hi]; rfl)) _
  | writeFailed id req e => exact h.frame hi h.valid (fun _ _ hv => hv) rfl (fun _ => nofun)
  | written id req row => exact h.write hi
  | ignored id p call hstrategy => cases hstrategy
  | through id p call c state hstrategy hcall => cases hstrategy
  | behind id p call hstrategy =>
      refine h.frame hi h.valid (fun _ _ hv => hv) rfl ?_
      intro id' hid
      simp [Task.cleans, of_decide_eq_true hid]
  | delete key call c state hcall =>
      cases hcall
      exact h.delete hdeletes hi input _

/-- **Every step keeps the cache clean**, if it stores what is current. -/
theorem Clean.step (hdeletes : CarriesOutDeletions C) {numeric : F → F}
    {ev : TaskEvent I F} {s' : Running C F Empty} (h : Clean codec s)
    (hcurrent : StoresCurrent s ev)
    (hstep : taskStep codec numeric .writeBehind s ev = some s') : Clean codec s' := by
  have hstart : ∀ task : Task F Empty, Clean codec (s.start task) := by
    refine fun task => ⟨h.valid, fun id v hv => (h.covered id v hv).imp_right ?_⟩
    intro hpending
    exact (List.any_append).trans (by rw [show s.tasks.any (Task.cleans id) = true from hpending,
      Bool.true_or])
  cases ev with
  | get id =>
      cases hstep
      exact hstart _
  | update id req =>
      cases hstep
      exact hstart _
  | step i input db =>
      obtain ⟨task, next, hi, hsteps, rfl⟩ := taskStep_step hstep
      exact h.advance hdeletes hi hcurrent hsteps

end Clean

/-- **Write-behind cleans up.**  Interleave any requests and their deletions over a cache
that starts empty, and let every reader store a row that is still current, or that
a deletion still to come will remove.  When no request is in flight and every
deletion has run, what the cache holds for a product is the serialisation of its
row. -/
theorem write_behind_clean {C I F : Type} [LawfulCache C I] (hdeletes : CarriesOutDeletions C)
    (codec : Codec F) (numeric : F → F) (cache : C) (hvalid : LawfulCache.Valid cache)
    (hempty : ∀ key value, ¬ LawfulCache.Holds cache key value) (table : Db.Table F)
    (evs : List (TaskEvent I F))
    (halong : Along (taskStep codec numeric .writeBehind) StoresCurrent ⟨⟨cache, table⟩, []⟩ evs)
    (s : Running C F Empty)
    (hrun : run (taskStep codec numeric .writeBehind) ⟨⟨cache, table⟩, []⟩ evs = some s)
    (hquiet : s.quiet = true) (id : String) (v : Bytes)
    (hv : LawfulCache.Holds s.cache (cacheKey id) v) :
    ∃ row, s.table.lookup id = some row ∧ codec.marshal (dbToAPIProduct row) = some v := by
  have hclean : Clean codec s := by
    refine run_invariant_along (I := Clean codec) ?_ ?_ halong hrun
    · exact fun _ _ _ hclean hcurrent hstep => hclean.step hdeletes hcurrent hstep
    · exact ⟨hvalid, fun id v hv => absurd hv (hempty _ v)⟩
  refine (hclean.covered id v hv).resolve_right ?_
  intro hpending
  obtain ⟨task, hmem, hcleans⟩ := List.any_eq_true.mp hpending
  have hover := List.all_eq_true.mp hquiet task hmem
  cases task <;> simp [Task.isOver, Task.cleans] at hover hcleans

/-- The in-memory cache carries out deletions. -/
theorem carriesOutDeletions_inMemory {P : Type} [LawfulPolicy P] :
    CarriesOutDeletions (InMemoryCache P) := by
  refine fun c key i _ => ⟨rfl, ?_⟩
  intro v hv
  obtain ⟨expiresAt, hstored⟩ := hv
  cases (stored_delete_self c key).symm.trans hstored

/-! ## Two runs -/

/-- A service whose database has the mat, and whose cache is empty. -/
def matOnly : Running (InMemoryCache Policy) Nat Empty :=
  ⟨⟨InMemoryCache.new 1 (newPolicy .lru), (∅ : Db.Table Nat).insert "p3" sampleMat⟩, []⟩

/-- Goroutine `i` takes a step at time `now`. -/
def stepAt (i : Nat) (now : Time) : TaskEvent CacheInput Nat := .step i (.atTime now) ⟨none, now⟩

/-- A reader fetches the mat, and an update lowers its price. -/
def readAndReduce : List (TaskEvent CacheInput Nat) :=
  [.get "p3", stepAt 0 second, stepAt 0 second,
   .update "p3" ⟨none, none, some 45, none⟩, stepAt 1 minute, stepAt 1 minute]

/-- The reader stores the old row while the deletion is to come; later the mat is read
again. -/
def cleanedUp : List (TaskEvent CacheInput Nat) :=
  readAndReduce ++ [stepAt 0 minute, stepAt 2 minute, .get "p3",
    stepAt 3 (2 * minute), stepAt 3 (2 * minute), stepAt 3 (2 * minute)]

/-- The deletion removes what the reader has stored, and the next read stores the new row. -/
theorem write_behind_clean_read :
    ∃ s, run (taskStep sampleCodec id .writeBehind) matOnly cleanedUp = some s ∧
      s.quiet = true ∧ LawfulCache.Holds s.cache (cacheKey "p3") sampleMatReducedJson ∧
      ∃ row, s.table.lookup "p3" = some row ∧
        sampleCodec.marshal (dbToAPIProduct row) = some sampleMatReducedJson := by
  obtain ⟨s, hrun, hquiet, hstored⟩ : ∃ s,
      run (taskStep sampleCodec id .writeBehind) matOnly cleanedUp = some s ∧ s.quiet = true ∧
        s.cache.stored (cacheKey "p3") = some (sampleMatReducedJson, 7 * minute) :=
    exists_run (by decide +kernel) (by decide +kernel)
  have hempty : ∀ key value, ¬ LawfulCache.Holds matOnly.cache key value := by
    intro key value hholds
    obtain ⟨expiresAt, hstored⟩ := hholds
    simp [matOnly, InMemoryCache.new, InMemoryCache.stored, InMemoryCache.entry] at hstored
  have hholds : LawfulCache.Holds s.cache (cacheKey "p3") sampleMatReducedJson :=
    ⟨7 * minute, hstored⟩
  refine ⟨s, hrun, hquiet, hholds, ?_⟩
  exact write_behind_clean carriesOutDeletions_inMemory sampleCodec id matOnly.cache
    (coherent_new sampleCodec .lru (Nat.le_refl 1) ∅).valid hempty matOnly.table cleanedUp
    (by decide +kernel) s hrun hquiet "p3" _ hholds

/-- The reader stores the old row after the deletion. -/
def storedLate : List (TaskEvent CacheInput Nat) :=
  readAndReduce ++ [stepAt 2 minute, stepAt 0 minute]

/-- **An old row can stay.**  All is quiet, and the cache holds the row before the
update. -/
theorem old_row_stays :
    ∃ s, run (taskStep sampleCodec id .writeBehind) matOnly storedLate = some s ∧
      s.quiet = true ∧ LawfulCache.Holds s.cache (cacheKey "p3") sampleMatJson ∧
      s.table.lookup "p3" = some sampleMatReduced ∧
      sampleCodec.marshal (dbToAPIProduct sampleMatReduced) ≠ some sampleMatJson := by
  obtain ⟨s, hrun, hquiet, hstored, hrow⟩ : ∃ s,
      run (taskStep sampleCodec id .writeBehind) matOnly storedLate = some s ∧ s.quiet = true ∧
        s.cache.stored (cacheKey "p3") = some (sampleMatJson, 6 * minute) ∧
        s.table.lookup "p3" = some sampleMatReduced :=
    exists_run (by decide +kernel) (by decide +kernel)
  exact ⟨s, hrun, hquiet, ⟨6 * minute, hstored⟩, hrow, by decide +kernel⟩

end Api
