import DistributedCaching.CacheTransparency
import DistributedCaching.TransitionRuns

/-!
# Cache updates that fail

Write-through over a cache whose `Set` may fail.  The error is not passed on: the
comments and the requirement say that the next read will be a miss.  It is one only if
the cache has nothing under the key; otherwise the entry from before the update
stays, and is served until it expires.

`failed_sets_hidden`: if no update whose `Set` fails finds an entry of its product in
the cache, every `GetProduct` returns the row of the database.  `failed_set_stale` is
the other case: a read, an update whose `Set` fails, and a read that returns the
previous row.  A `Flaky` cache is any cache that can be made to refuse a `Set`.
-/

namespace Api

open Go Cache Eviction TransitionRuns

section Runs

variable {C I F : Type}

/-- Every request is served. -/
def serveStep [SharedCache C I] (codec : Codec F) (numeric : F → F) (s : Service C F)
    (req : Request I F) : Option (Service C F) := some (serve codec numeric s req)

variable [LawfulCache C I] {codec : Codec F} {numeric : F → F} {s : Service C F}

/-- **From a coherent cache, `GetProduct` is the query**, if the database answers. -/
theorem Coherent.getProduct_row (h : Coherent codec s) (hcodec : codec.RoundTrip) (id : String)
    {i : GetInput I} (hdb : i.dbFailure = none) :
    match s.table.lookup id with
    | some row => ∃ status,
        (getProduct codec s.cache s.table id i).1 = .ok (dbToAPIProduct row, status)
    | none => (getProduct codec s.cache s.table id i).1 = .error .notFound := by
  cases hask : checkCache codec s.cache id i.lookup i.delete with
  | mk found cache =>
      cases found with
      | some p =>
          have hget : (getProduct codec s.cache s.table id i).1 = .ok (p, .hit) := by
            simp [getProduct, hask]
          obtain ⟨row, hrow, rfl⟩ := h.getProduct_ok hcodec hget
          rw [hrow]
          exact ⟨.hit, hget⟩
      | none =>
          cases hrow : s.table.lookup id with
          | none =>
              have hquery : Db.getProduct s.table i.dbFailure id = .error .notFound := by
                simp [Db.getProduct, hdb, hrow]
              simp [getProduct, hask, hquery]
          | some row =>
              have hquery : Db.getProduct s.table i.dbFailure id = .ok row := by
                simp [Db.getProduct, hdb, hrow]
              exact ⟨.miss, by simp [getProduct, hask, hquery]⟩

/-- Requests whose updates all reach the cache keep it coherent. -/
theorem coherent_run_along (hcodec : codec.RoundTrip) (h : Coherent codec s)
    {reqs : List (Request I F)}
    (halong : Along (serveStep codec numeric) (Reaches codec numeric) s reqs)
    {s' : Service C F} (hrun : run (serveStep codec numeric) s reqs = some s') :
    Coherent codec s' := by
  refine run_invariant_along (I := Coherent codec) ?_ h halong hrun
  intro s req s' hcoherent hreach hstep
  cases hstep
  exact coherent_serve hcodec hcoherent req hreach

end Runs

/-- **Failed updates stay hidden if there is nothing to hide.**  Serve any requests, one
after the other, over any cache that starts empty.  If every update whose `Set` fails
finds nothing under the key of its product, then every `GetProduct` returns the row
that is in the database. -/
theorem failed_sets_hidden {C I F : Type} [LawfulCache C I] (codec : Codec F)
    (hcodec : codec.RoundTrip) (numeric : F → F) (cache : C) (hvalid : LawfulCache.Valid cache)
    (hempty : ∀ key value, ¬ LawfulCache.Holds cache key value) (table : Db.Table F)
    (reqs : List (Request I F))
    (halong : Along (serveStep codec numeric) (Reaches codec numeric) ⟨cache, table⟩ reqs)
    (s : Service C F) (hrun : run (serveStep codec numeric) ⟨cache, table⟩ reqs = some s)
    (id : String) (i : GetInput I) (hdb : i.dbFailure = none) :
    match s.table.lookup id with
    | some row => ∃ status,
        (getProduct codec s.cache s.table id i).1 = .ok (dbToAPIProduct row, status)
    | none => (getProduct codec s.cache s.table id i).1 = .error .notFound := by
  have hstart : Coherent codec (⟨cache, table⟩ : Service C F) :=
    ⟨hvalid, fun id value hv => absurd hv (hempty _ value)⟩
  exact (coherent_run_along hcodec hstart halong hrun).getProduct_row hcodec id hdb

/-! ## A cache that can refuse a `Set` -/

/-- A cache each of whose `Set`s may be made to fail. -/
structure Flaky (C : Type) where
  cache : C

section Flaky

variable {C I : Type}

/-- The second input says whether a `Set` fails. -/
instance [SharedCache C I] : SharedCache (Flaky C) (I × Bool) where
  get c key i := ((SharedCache.get c.cache key i.1).1, ⟨(SharedCache.get c.cache key i.1).2⟩)
  set c key value ttl i :=
    if i.2 then (false, c)
    else ((SharedCache.set c.cache key value ttl i.1).1,
      ⟨(SharedCache.set c.cache key value ttl i.1).2⟩)
  delete c key i :=
    ((SharedCache.delete c.cache key i.1).1, ⟨(SharedCache.delete c.cache key i.1).2⟩)

instance [LawfulCache C I] : LawfulCache (Flaky C) (I × Bool) where
  Valid c := LawfulCache.Valid c.cache
  Holds c key value := LawfulCache.Holds c.cache key value
  valid_get h key i := LawfulCache.valid_get h key i.1
  valid_set := by
    intro c h key value ttl i
    simp only [SharedCache.set]
    split
    · exact h
    · exact LawfulCache.valid_set h key value ttl i.1
  valid_delete h key i := LawfulCache.valid_delete h key i.1
  get_hit h hget := LawfulCache.get_hit h hget
  holds_get h hv := LawfulCache.holds_get h hv
  holds_set := by
    intro c key value ttl i k v h hok hv
    simp only [SharedCache.set] at hok hv
    split at hok
    · cases hok
    · rename_i hfails
      rw [if_neg hfails] at hv
      exact LawfulCache.holds_set h hok hv
  set_failed := by
    intro c key value ttl i hfailed
    simp only [SharedCache.set] at hfailed ⊢
    split
    · rfl
    · rename_i hfails
      rw [if_neg hfails] at hfailed
      exact congrArg Flaky.mk (LawfulCache.set_failed hfailed)
  holds_delete h hv := LawfulCache.holds_delete h hv

end Flaky

/-- Readings that are all `now`, and whether a `Set` fails. -/
def flakyGet (now : Time) : GetInput (CacheInput × Bool) :=
  ⟨(.atTime now, false), (.atTime now, false), (.atTime now, false), none⟩

def flakyWrite (now : Time) (fails : Bool) : WriteInput (CacheInput × Bool) :=
  ⟨none, now, (.atTime now, fails)⟩

/-- A service whose database has the mat, and whose cache is empty. -/
def flakyMat : Service (Flaky (InMemoryCache Policy)) Nat :=
  ⟨⟨InMemoryCache.new 1 (newPolicy .lru)⟩, (∅ : Db.Table Nat).insert "p3" sampleMat⟩

/-- The flaky cache starts empty. -/
theorem flakyMat_empty (key : String) (value : Bytes) :
    ¬ LawfulCache.Holds flakyMat.cache key value := by
  intro hholds
  obtain ⟨expiresAt, hstored⟩ := hholds
  simp [flakyMat, InMemoryCache.new, InMemoryCache.stored, InMemoryCache.entry] at hstored

/-- The mat is reduced, and the `Set` fails. -/
def failingUpdate : Request (CacheInput × Bool) Nat :=
  .update "p3" ⟨none, none, some 45, none⟩ (flakyWrite minute true)

/-- While the cache has nothing about the mat, nobody notices. -/
theorem failed_sets_hidden_sample :
    ∃ s, run (serveStep sampleCodec id) flakyMat [failingUpdate] = some s ∧
      s.table.lookup "p3" = some sampleMatReduced ∧
      ∃ status, (getProduct sampleCodec s.cache s.table "p3" (flakyGet (2 * minute))).1 =
        .ok (dbToAPIProduct sampleMatReduced, status) := by
  have hvalid : LawfulCache.Valid flakyMat.cache :=
    (coherent_new sampleCodec .lru (Nat.le_refl 1) ∅).valid
  have halong : Along (serveStep sampleCodec id) (Reaches sampleCodec id)
      ⟨flakyMat.cache, flakyMat.table⟩ [failingUpdate] :=
    ⟨fun _ _ _ _ _ => Or.inr (flakyMat_empty _), fun _ _ => trivial⟩
  refine ⟨_, rfl, rfl, ?_⟩
  exact failed_sets_hidden sampleCodec sampleCodec_roundTrip id flakyMat.cache hvalid
    flakyMat_empty flakyMat.table [failingUpdate] halong _ rfl "p3" (flakyGet (2 * minute)) rfl

/-- **A failed `Set` behind an entry.**  The mat is read, then reduced while the `Set`
fails; the next read is a hit, and returns the row before the update. -/
theorem failed_set_stale :
    let s := [.get "p3" (flakyGet second), failingUpdate].foldl (serve sampleCodec id) flakyMat
    s.table.lookup "p3" = some sampleMatReduced ∧
      (getProduct sampleCodec s.cache s.table "p3" (flakyGet (2 * minute))).1 =
        .ok (dbToAPIProduct sampleMat, .hit) ∧
      dbToAPIProduct sampleMat ≠ dbToAPIProduct sampleMatReduced := by
  refine ⟨by decide +kernel, by decide +kernel, by decide⟩

end Api
