import Mathlib.Data.Countable.Basic
import Mathlib.Logic.Equiv.List
import DistributedCaching.CacheAside
import DistributedCaching.PolicyChoice

/-!
# The cache is transparent to requests that do not overlap

Requests that read, update and create products are served one after the other,
under write-through.  The invariant is `Coherent`: whatever the cache holds for a
product, expired or not, is the serialisation of the row of the product.  It is
proved for every cache that keeps the promise of `LawfulCache` and accepts what
write-through stores, and `cache_transparent` draws from it what a client of a
service with an `InMemoryCache` sees.  No clock reading matters anywhere.
-/

namespace Api

open Go Cache Eviction

/-- A service: its cache and its database. -/
structure Service (C F : Type) where
  cache : C
  table : Db.Table F

inductive Request (I F : Type)
  | get (id : String) (i : GetInput I)
  | update (id : String) (req : ProductUpdateRequest F) (i : WriteInput I)
  | create (body : Except String (Product F)) (i : WriteInput I)

section Serving

variable {C I F : Type}

/-- The service after a request, under write-through. -/
def serve [SharedCache C I] (codec : Codec F) (numeric : F → F) (s : Service C F) :
    Request I F → Service C F
  | .get id i => { s with cache := (getProduct codec s.cache s.table id i).2 }
  | .update id req i =>
      let w := updateProduct codec numeric .writeThrough s.cache s.table id req i
      { cache := w.cache, table := w.table }
  | .create body i =>
      let w := createProduct numeric s.cache s.table body i
      { cache := w.cache, table := w.table }

variable [LawfulCache C I] {codec : Codec F} {numeric : F → F} {s : Service C F}

/-! ## The steps of a request -/

/-- Asking the cache keeps it valid. -/
theorem valid_checkCache (codec : Codec F) {c : C} (h : LawfulCache.Valid c) (id : String)
    (lookup delete : I) :
    LawfulCache.Valid (checkCache codec c id lookup delete).2 := by
  have hget := LawfulCache.valid_get h (cacheKey id) lookup
  unfold checkCache
  split
  · rename_i value c' heq
    rw [heq] at hget
    split
    · exact hget
    · exact LawfulCache.valid_delete hget _ _
  · rename_i c' heq
    rwa [heq] at hget

/-- Asking the cache stores nothing. -/
theorem holds_checkCache {c : C} (h : LawfulCache.Valid c) {id k : String} {lookup delete : I}
    {v : Bytes} (hv : LawfulCache.Holds (checkCache codec c id lookup delete).2 k v) :
    LawfulCache.Holds c k v := by
  have hvalid := LawfulCache.valid_get h (cacheKey id) lookup
  have hget : ∀ {k v}, LawfulCache.Holds (SharedCache.get c (cacheKey id) lookup).2 k v →
      LawfulCache.Holds c k v := fun hv => LawfulCache.holds_get h hv
  unfold checkCache at hv
  split at hv
  · rename_i value c' heq
    rw [heq] at hvalid hget
    split at hv
    · exact hget hv
    · exact hget (LawfulCache.holds_delete hvalid hv)
  · rename_i c' heq
    rw [heq] at hget
    exact hget hv

/-- A hit reads a value that the cache holds. -/
theorem checkCache_hit {c : C} (h : LawfulCache.Valid c) {id : String} {lookup delete : I}
    {p : Product F} (hp : (checkCache codec c id lookup delete).1 = some p) :
    ∃ v, LawfulCache.Holds c (cacheKey id) v ∧ codec.unmarshal v = some p := by
  unfold checkCache at hp
  split at hp
  · rename_i value c' heq
    split at hp
    · rename_i p' hread
      cases hp
      exact ⟨value, LawfulCache.get_hit h (by rw [heq]), hread⟩
    · cases hp
  · cases hp

/-- Populating the cache keeps it valid. -/
theorem valid_populate {c : C} (h : LawfulCache.Valid c) (id : String) (p : Product F) (i : I) :
    LawfulCache.Valid (populate codec c id p i) := by
  unfold populate
  split
  · exact h
  · exact LawfulCache.valid_set h _ _ _ _

/-- Populating the cache stores at most the product under its key. -/
theorem holds_populate {c : C} (h : LawfulCache.Valid c) {id k : String} {p : Product F} {i : I}
    {v : Bytes} (hv : LawfulCache.Holds (populate codec c id p i) k v) :
    LawfulCache.Holds c k v ∨ k = cacheKey id ∧ codec.marshal p = some v := by
  unfold populate at hv
  split at hv
  · exact Or.inl hv
  · rename_i b hb
    cases hok : (SharedCache.set c (cacheKey id) b defaultProductTTL i).1 with
    | false =>
        rw [LawfulCache.set_failed hok] at hv
        exact Or.inl hv
    | true =>
        rcases LawfulCache.holds_set h hok hv with ⟨hk, rfl⟩ | ⟨_, hold⟩
        · exact Or.inr ⟨hk, hb⟩
        · exact Or.inl hold

/-- After write-through, the cache holds the written product or nothing under its
key, and nothing new under any other. -/
theorem holds_writeThrough {c : C} (h : LawfulCache.Valid c) {id k : String} {p : Product F}
    {i : I} {b v : Bytes}
    (hreach : (SharedCache.set c (cacheKey id) b writeThroughTTL i).1 = true ∨
      ∀ v, ¬ LawfulCache.Holds c (cacheKey id) v)
    (hb : codec.marshal p = some b)
    (hv : LawfulCache.Holds (invalidate codec .writeThrough c id p i).1 k v) :
    k = cacheKey id ∧ v = b ∨ k ≠ cacheKey id ∧ LawfulCache.Holds c k v := by
  have htold : (invalidate codec .writeThrough c id p i).1 =
      (SharedCache.set c (cacheKey id) b writeThroughTTL i).2 := by
    rw [invalidate, hb]
    rfl
  rw [htold] at hv
  cases hok : (SharedCache.set c (cacheKey id) b writeThroughTTL i).1 with
  | true => exact LawfulCache.holds_set h hok hv
  | false =>
      rw [LawfulCache.set_failed hok] at hv
      have hnone := hreach.resolve_left (by simp [hok])
      refine Or.inr ⟨?_, hv⟩
      intro heq
      exact hnone v (heq ▸ hv)

/-! ## The invariant -/

/-- **Coherence.**  Whatever the cache holds for a product is the serialisation of
its row. -/
structure Coherent (codec : Codec F) (s : Service C F) : Prop where
  valid : LawfulCache.Valid s.cache
  current : ∀ id value, LawfulCache.Holds s.cache (cacheKey id) value →
    ∃ row, s.table.lookup id = some row ∧ codec.marshal (dbToAPIProduct row) = some value

/-- What a coherent cache holds for a product reads as its row. -/
theorem Coherent.reads (h : Coherent codec s) (hcodec : codec.RoundTrip) {id : String}
    {value : Bytes} (hv : LawfulCache.Holds s.cache (cacheKey id) value) :
    ∃ row, s.table.lookup id = some row ∧
      codec.unmarshal value = some (dbToAPIProduct row) := by
  obtain ⟨row, hrow, hwritten⟩ := h.current id value hv
  obtain ⟨b, hb, hread⟩ := hcodec (dbToAPIProduct row)
  rw [hb] at hwritten
  cases hwritten
  exact ⟨row, hrow, hread⟩

/-- **A read keeps the service coherent**: it stores at most the row that it fetched. -/
theorem coherent_get (h : Coherent codec s) (id : String) (i : GetInput I) :
    Coherent codec { s with cache := (getProduct codec s.cache s.table id i).2 } := by
  have hvalid := valid_checkCache codec h.valid id i.lookup i.delete
  have hasked : Coherent codec
      { s with cache := (checkCache codec s.cache id i.lookup i.delete).2 } :=
    ⟨hvalid, fun id' value hv => h.current id' value (holds_checkCache h.valid hv)⟩
  rcases getProduct_cases codec s.cache s.table id i with
    ⟨p, _, heq⟩ | ⟨_, ⟨e, heq⟩ | ⟨row, hrow, heq⟩⟩
  · rw [heq]
    exact hasked
  · rw [heq]
    exact hasked
  · rw [heq]
    refine ⟨valid_populate hvalid _ _ _, ?_⟩
    intro id' value hv
    rcases holds_populate hvalid hv with hold | ⟨hkey, hb⟩
    · exact hasked.current id' value hold
    · rw [cacheKey_inj] at hkey
      subst hkey
      exact ⟨row, hrow, hb⟩

/-- An update reaches the cache: its `Set` succeeds, or there is nothing under the key of
the product that it would have replaced. -/
def Reaches (codec : Codec F) (numeric : F → F) (s : Service C F) : Request I F → Prop
  | .update id req i => ∀ row table value,
      Db.updateProduct numeric s.table i.dbFailure i.dbNow id req.toDb = .ok (row, table) →
      codec.marshal (dbToAPIProduct row) = some value →
      (SharedCache.set s.cache (cacheKey id) value writeThroughTTL i.set).1 = true ∨
        ∀ v, ¬ LawfulCache.Holds s.cache (cacheKey id) v
  | _ => True

/-- A cache that takes what write-through stores is reached by every update. -/
theorem reaches_of_accepts (haccepts : AcceptsWrites C) (req : Request I F) :
    Reaches codec numeric s req := by
  cases req with
  | update id req i => exact fun _ _ value _ _ => Or.inl (haccepts s.cache _ value i.set)
  | get id i => trivial
  | create body i => trivial

/-- **An update keeps the service coherent**: it stores the row that it wrote. -/
theorem coherent_update (hcodec : codec.RoundTrip) (h : Coherent codec s) (id : String)
    (req : ProductUpdateRequest F) (i : WriteInput I)
    (hreach : Reaches codec numeric s (.update id req i)) :
    Coherent codec (serve codec numeric s (.update id req i)) := by
  cases hdb : Db.updateProduct numeric s.table i.dbFailure i.dbNow id req.toDb with
  | error e => cases e <;> simpa [serve, updateProduct, hdb] using h
  | ok written =>
      obtain ⟨row, table⟩ := written
      have htable := Db.updateProduct_ok numeric hdb
      obtain ⟨b, hb, _⟩ := hcodec (dbToAPIProduct row)
      simp only [serve, updateProduct, hdb]
      refine ⟨LawfulCache.valid_set h.valid _ _ _ _, ?_⟩
      intro id' value hv
      rcases holds_writeThrough h.valid (hreach row table b hdb hb) hb hv with
        ⟨hkey, rfl⟩ | ⟨hkey, hold⟩
      · rw [cacheKey_inj] at hkey
        subst hkey
        exact ⟨row, by simp [htable], hb⟩
      · have hne : id' ≠ id := fun heq => hkey (by rw [heq])
        rw [htable, AList.lookup_insert_ne hne]
        exact h.current id' value hold

/-- A created product has no entry in a coherent cache: its id was free. -/
theorem coherent_create (h : Coherent codec s) (body : Except String (Product F))
    (i : WriteInput I) : Coherent codec (serve codec numeric s (.create body i)) := by
  obtain ⟨hcache, htable⟩ := createProduct_effect numeric s.cache s.table body i
  simp only [serve, hcache]
  rcases htable with hsame | ⟨id, row, hfree, hnew⟩
  · rw [hsame]
    exact h
  · rw [hnew]
    refine ⟨h.valid, ?_⟩
    intro id' value hv
    obtain ⟨row', hrow', hb⟩ := h.current id' value hv
    have hpresent : id' ∈ s.table := GoMap.mem_iff_lookup.mpr ⟨row', hrow'⟩
    have hne : id' ≠ id := fun heq => hfree (heq ▸ hpresent)
    exact ⟨row', by rwa [AList.lookup_insert_ne hne], hb⟩

/-- Every request keeps the service coherent. -/
theorem coherent_serve (hcodec : codec.RoundTrip) (h : Coherent codec s) (req : Request I F)
    (hreach : Reaches codec numeric s req) : Coherent codec (serve codec numeric s req) := by
  cases req with
  | get id i => exact coherent_get h id i
  | update id req i => exact coherent_update hcodec h id req i hreach
  | create body i => exact coherent_create h body i

/-- Requests that do not overlap keep the cache coherent. -/
theorem coherent_run (hcodec : codec.RoundTrip) (haccepts : AcceptsWrites C)
    (h : Coherent codec s) (reqs : List (Request I F)) :
    Coherent codec (reqs.foldl (serve codec numeric) s) := by
  induction reqs generalizing s with
  | nil => exact h
  | cons req reqs ih => exact ih (coherent_serve hcodec h req (reaches_of_accepts haccepts req))

/-- From a coherent cache, a successful `GetProduct` returns the row. -/
theorem Coherent.getProduct_ok (h : Coherent codec s) (hcodec : codec.RoundTrip) {id : String}
    {i : GetInput I} {p : Product F} {status : CacheStatus}
    (hok : (getProduct codec s.cache s.table id i).1 = .ok (p, status)) :
    ∃ row, s.table.lookup id = some row ∧ p = dbToAPIProduct row := by
  rcases getProduct_cases codec s.cache s.table id i with
    ⟨p', hhit, heq⟩ | ⟨_, ⟨e, heq⟩ | ⟨row, hrow, heq⟩⟩
  · rw [heq] at hok
    cases hok
    obtain ⟨v, hv, hread⟩ := checkCache_hit h.valid hhit
    obtain ⟨row, hrow, hread'⟩ := h.reads hcodec hv
    rw [hread] at hread'
    exact ⟨row, hrow, Option.some.inj hread'⟩
  · rw [heq] at hok
    cases hok
  · rw [heq] at hok
    cases hok
    exact ⟨row, hrow, rfl⟩

/-- A `GetProduct` that fails on a coherent cache has done no more than ask it. -/
theorem Coherent.getProduct_error (h : Coherent codec s) (hcodec : codec.RoundTrip)
    {id : String} {i : GetInput I} {e : ApiError}
    (herror : (getProduct codec s.cache s.table id i).1 = .error e) :
    (∀ v, (SharedCache.get s.cache (cacheKey id) i.lookup).1 ≠ some (some v)) ∧
      (getProduct codec s.cache s.table id i).2 =
        (SharedCache.get s.cache (cacheKey id) i.lookup).2 := by
  rcases getProduct_cases codec s.cache s.table id i with
    ⟨p, _, heq⟩ | ⟨hmiss, ⟨e', heq⟩ | ⟨row, _, heq⟩⟩
  · rw [heq] at herror
    cases herror
  · rw [heq]
    unfold checkCache at hmiss ⊢
    split
    · -- An entry that the cache returns can be read, so it was no miss.
      rename_i v c hget
      obtain ⟨row, _, hread⟩ := h.reads hcodec (LawfulCache.get_hit h.valid (by rw [hget]))
      rw [hget] at hmiss
      simp [hread] at hmiss
    · rename_i found c hnot hget
      rw [hget]
      exact ⟨fun v hv => hnot v hv, rfl⟩
  · rw [heq] at herror
    cases herror

end Serving

/-! ## A service with an in-memory cache -/

/-- A `GetProduct` has stored nothing: the cache is as before, or has lost an entry
of the product that had expired. -/
def StoresNothing {P : Type} [EvictionPolicy P] (c c' : InMemoryCache P) (id : String)
    (clock : InMemoryCache.GetClock) : Prop :=
  c' = c ∨ ∃ e, c.entry (cacheKey id) = some e ∧ e.isExpired clock.recheck = true ∧
    c' = c.drop (cacheKey id)

/-- A new service is coherent, for its cache is empty. -/
theorem coherent_new {F : Type} (codec : Codec F) (kind : PolicyKind) {capacity : Nat}
    (hcap : 1 ≤ capacity) (table : Db.Table F) :
    Coherent codec ⟨InMemoryCache.new capacity (newPolicy kind), table⟩ := by
  refine ⟨⟨sound_new (tracks_newPolicy kind) capacity, hcap⟩, ?_⟩
  intro id value hholds
  obtain ⟨expiresAt, hstored⟩ := hholds
  simp [InMemoryCache.new, InMemoryCache.stored, InMemoryCache.entry] at hstored

/-- **Transparency.**  After any requests, one after the other, every entry of a
product is the serialisation of its row; a `GetProduct` that succeeds, hit or
miss, returns the row; and a `GetProduct` or an `UpdateProduct` that fails stores
nothing. -/
theorem cache_transparent {F : Type} (codec : Codec F) (hcodec : codec.RoundTrip)
    (numeric : F → F) (kind : PolicyKind) (capacity : Nat) (hcap : 1 ≤ capacity)
    (table : Db.Table F) (reqs : List (Request CacheInput F))
    (s : Service (InMemoryCache Policy) F)
    (hs : s = reqs.foldl (serve codec numeric)
      ⟨InMemoryCache.new capacity (newPolicy kind), table⟩) :
    (∀ id value expiresAt, s.cache.stored (cacheKey id) = some (value, expiresAt) →
      ∃ row, s.table.lookup id = some row ∧
        codec.marshal (dbToAPIProduct row) = some value) ∧
    (∀ id i p status, (getProduct codec s.cache s.table id i).1 = .ok (p, status) →
      ∃ row, s.table.lookup id = some row ∧ p = dbToAPIProduct row) ∧
    (∀ id i e, (getProduct codec s.cache s.table id i).1 = .error e →
      StoresNothing s.cache (getProduct codec s.cache s.table id i).2 id i.lookup.clock) ∧
    (∀ id req i e,
      (updateProduct codec numeric .writeThrough s.cache s.table id req i).answer = .error e →
      (updateProduct codec numeric .writeThrough s.cache s.table id req i).cache = s.cache ∧
        (updateProduct codec numeric .writeThrough s.cache s.table id req i).table =
          s.table) := by
  have h : Coherent codec s := by
    rw [hs]
    exact coherent_run hcodec acceptsWrites_inMemory (coherent_new codec kind hcap table) reqs
  refine ⟨?_, ?_, ?_, ?_⟩
  · intro id value expiresAt hstored
    exact h.current id value ⟨expiresAt, hstored⟩
  · intro id i p status hok
    exact h.getProduct_ok hcodec hok
  · intro id i e herror
    obtain ⟨hmiss, hcache⟩ := h.getProduct_error hcodec herror
    rw [hcache]
    have hnone : (s.cache.get (cacheKey id) i.lookup.clock).1 = none :=
      Option.eq_none_iff_forall_ne_some.mpr fun v hv => hmiss v (congrArg some hv)
    exact get_miss hnone
  · intro id req i e herror
    exact updateProduct_error herror

/-! ## A sample -/

/-- A row as it is created, with its price in dollars. -/
def sampleMat : Db.Product Nat where
  id := "p3"
  name := "Mat"
  description := ""
  priceUSD := 50
  category := ""
  createdAt := 0
  updatedAt := 0

/-- The row after its price was lowered, one minute later. -/
def sampleMatReduced : Db.Product Nat :=
  { sampleMat with priceUSD := 45, updatedAt := minute }

/-- The JSON texts of the two. -/
def sampleMatJson : Bytes :=
  "\x7b\"id\":\"p3\",\"name\":\"Mat\",\"description\":\"\",\"price_usd\":50,\"category\":\"\"".toUTF8.data.toList ++
    ",\"created_at\":\"0001-01-01T00:00:00Z\",\"updated_at\":\"0001-01-01T00:00:00Z\"\x7d".toUTF8.data.toList

def sampleMatReducedJson : Bytes :=
  "\x7b\"id\":\"p3\",\"name\":\"Mat\",\"description\":\"\",\"price_usd\":45,\"category\":\"\"".toUTF8.data.toList ++
    ",\"created_at\":\"0001-01-01T00:00:00Z\",\"updated_at\":\"0001-01-01T00:01:00Z\"\x7d".toUTF8.data.toList

/-- Products can be told apart by numbers. -/
theorem exists_productCode : ∃ code : Product Nat → Nat, Function.Injective code := by
  have hchar : Countable Char :=
    Function.Injective.countable (f := Char.toNat) fun _ _ h => Char.ext (UInt32.toNat_inj.mp h)
  have hstring : Countable String :=
    Function.Injective.countable (f := String.toList) fun _ _ h => String.toList_inj.mp h
  have hproduct : Countable (Product Nat) :=
    Function.Injective.countable
      (f := fun p : Product Nat =>
        (p.id, p.name, p.description, p.priceUSD, p.category, p.createdAt, p.updatedAt))
      fun p q h => by
        obtain ⟨⟩ := p
        obtain ⟨⟩ := q
        simpa using h
  exact exists_injective_nat (Product Nat)

/-- Any other product is written as a number. -/
noncomputable def otherBytes (p : Product Nat) : Bytes :=
  0 :: List.replicate (exists_productCode.choose p) 1

/-- Other products have other bytes. -/
theorem otherBytes_injective : Function.Injective otherBytes := by
  intro p q h
  have hlength := congrArg List.length h
  simp only [otherBytes, List.length_cons, List.length_replicate] at hlength
  exact exists_productCode.choose_spec (by omega)

/-- A codec that writes the two rows as `encoding/json` does. -/
noncomputable def sampleCodec : Codec Nat where
  marshal p :=
    if p = dbToAPIProduct sampleMat then some sampleMatJson
    else if p = dbToAPIProduct sampleMatReduced then some sampleMatReducedJson
    else some (otherBytes p)
  unmarshal b :=
    if b = sampleMatJson then some (dbToAPIProduct sampleMat)
    else if b = sampleMatReducedJson then some (dbToAPIProduct sampleMatReduced)
    else Function.partialInv otherBytes b

/-- The codec of the samples reads what it writes. -/
theorem sampleCodec_roundTrip : sampleCodec.RoundTrip := by
  intro p
  by_cases hmat : p = dbToAPIProduct sampleMat
  · exact ⟨sampleMatJson, by simp [sampleCodec, hmat], by simp [sampleCodec, hmat]⟩
  · by_cases hreduced : p = dbToAPIProduct sampleMatReduced
    · have hne : sampleMatReducedJson ≠ sampleMatJson := by decide +kernel
      exact ⟨sampleMatReducedJson, by simp [sampleCodec, hmat, ← hreduced],
        by simp [sampleCodec, hne, hreduced]⟩
    · -- The first byte of a JSON text is a brace.
      have hfirst : otherBytes p ≠ sampleMatJson := by
        intro heq
        have hhead : (otherBytes p).head? = some 123 := heq ▸ by decide +kernel
        simp [otherBytes] at hhead
      have hsecond : otherBytes p ≠ sampleMatReducedJson := by
        intro heq
        have hhead : (otherBytes p).head? = some 123 := heq ▸ by decide +kernel
        simp [otherBytes] at hhead
      refine ⟨otherBytes p, by simp [sampleCodec, hmat, hreduced], ?_⟩
      simp [sampleCodec, hfirst, hsecond, Function.partialInv_left otherBytes_injective]

/-- Readings that are all `now`. -/
def CacheInput.atTime (now : Time) : CacheInput := ⟨⟨now, now, now, now⟩, now, now, 0⟩

def GetInput.atTime (now : Time) : GetInput CacheInput :=
  ⟨.atTime now, .atTime now, .atTime now, none⟩

def WriteInput.atTime (now : Time) : WriteInput CacheInput := ⟨none, now, .atTime now⟩

/-- The mat is created, read and reduced. -/
def sampleRequests : List (Request CacheInput Nat) :=
  [.create (.ok (dbToAPIProduct sampleMat)) (.atTime 0),
   .get "p3" (.atTime second),
   .update "p3" ⟨none, none, some 45, none⟩ (.atTime minute)]

/-- The mat is created, read, reduced and read again: a hit with the new price. -/
theorem cache_transparent_sample :
    ∃ s, s = sampleRequests.foldl (serve sampleCodec id)
        ⟨InMemoryCache.new 1 (newPolicy .lfu), ∅⟩ ∧
      (getProduct sampleCodec s.cache s.table "p3" (.atTime (2 * minute))).1 =
        .ok (dbToAPIProduct sampleMatReduced, .hit) ∧
      ∃ row, s.table.lookup "p3" = some row ∧
        dbToAPIProduct sampleMatReduced = dbToAPIProduct row := by
  have hhit : (getProduct sampleCodec
      (sampleRequests.foldl (serve sampleCodec id)
        ⟨InMemoryCache.new 1 (newPolicy .lfu), ∅⟩).cache
      (sampleRequests.foldl (serve sampleCodec id)
        ⟨InMemoryCache.new 1 (newPolicy .lfu), ∅⟩).table
      "p3" (.atTime (2 * minute))).1 =
        .ok (dbToAPIProduct sampleMatReduced, .hit) := by
    decide +kernel
  exact ⟨_, rfl, hhit, (cache_transparent sampleCodec sampleCodec_roundTrip id .lfu 1
    (Nat.le_refl 1) ∅ sampleRequests _ rfl).2.1 _ _ _ _ hhit⟩

end Api
