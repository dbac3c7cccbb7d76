import DistributedCaching.GoText
import DistributedCaching.InMemoryCache
import DistributedCaching.ProductDatabase

/-!
# The cache-aside layer

`CacheAside` of package `api`: products are looked up in a cache first and in the
database on a miss, and an invalidation strategy is told about every write.  The
layer knows its cache through the interface `shared.Cache` only, and so does the
model: `SharedCache` is the interface, and `LawfulCache` what a cache promises
about the values it holds.  `InMemoryCache` is one.

`encoding/json` is a parameter: a `Codec` turns products into bytes and back.
-/

namespace Api

open Go Cache Eviction

/-! ## Products -/

structure Product (F : Type) where
  id : String
  name : String
  description : String
  priceUSD : F
  category : String
  createdAt : Time
  updatedAt : Time
  deriving DecidableEq, Repr

structure ProductUpdateRequest (F : Type) where
  name : Option String
  description : Option String
  priceUSD : Option F
  category : Option String
  deriving DecidableEq, Repr

def dbToAPIProduct {F : Type} (p : Db.Product F) : Product F where
  id := p.id
  name := p.name
  description := p.description
  priceUSD := p.priceUSD
  category := p.category
  createdAt := p.createdAt
  updatedAt := p.updatedAt

/-- The request as it is passed on to the database. -/
def ProductUpdateRequest.toDb {F : Type} (req : ProductUpdateRequest F) :
    Db.ProductUpdateRequest F where
  name := req.name
  description := req.description
  priceUSD := req.priceUSD
  category := req.category

/-- `json.Marshal` and `json.Unmarshal` for products. -/
structure Codec (F : Type) where
  marshal : Product F → Option Bytes
  unmarshal : Bytes → Option (Product F)

/-- Every product can be written, and is read back as it was. -/
def Codec.RoundTrip {F : Type} (codec : Codec F) : Prop :=
  ∀ p, ∃ b, codec.marshal p = some b ∧ codec.unmarshal b = some p

/-! ## The cache interface -/

/-- The interface `shared.Cache`.  An operation takes what it reads from outside,
such as the clock, as an argument. -/
class SharedCache (C : Type) (I : outParam Type) where
  /-- `Get`: `none` is an error, `some none` a miss. -/
  get : C → String → I → Option (Option Bytes) × C
  /-- `Set`: whether it succeeded. -/
  set : C → String → Bytes → Duration → I → Bool × C
  /-- `Delete`: whether it succeeded. -/
  delete : C → String → I → Bool × C

/-- **What a cache promises**: it never holds, and never returns, a value that was
not stored last under the key. -/
class LawfulCache (C : Type) (I : outParam Type) extends SharedCache C I where
  /-- The states a cache gets into. -/
  Valid : C → Prop
  /-- The value is stored under the key, expired or not. -/
  Holds : C → String → Bytes → Prop
  valid_get : ∀ {c}, Valid c → ∀ key i, Valid (get c key i).2
  valid_set : ∀ {c}, Valid c → ∀ key value ttl i, Valid (set c key value ttl i).2
  valid_delete : ∀ {c}, Valid c → ∀ key i, Valid (delete c key i).2
  get_hit : ∀ {c key i value}, Valid c → (get c key i).1 = some (some value) →
    Holds c key value
  holds_get : ∀ {c key i k v}, Valid c → Holds (get c key i).2 k v → Holds c k v
  holds_set : ∀ {c key value ttl i k v}, Valid c → (set c key value ttl i).1 = true →
    Holds (set c key value ttl i).2 k v → k = key ∧ v = value ∨ k ≠ key ∧ Holds c k v
  set_failed : ∀ {c key value ttl i}, (set c key value ttl i).1 = false →
    (set c key value ttl i).2 = c
  holds_delete : ∀ {c key i k v}, Valid c → Holds (delete c key i).2 k v → Holds c k v

/-- What an operation of the in-memory cache reads from outside. -/
structure CacheInput where
  /-- The readings of a `Get`. -/
  clock : InMemoryCache.GetClock
  /-- The reading of a `Set`, and the one its policy takes. -/
  now : Time
  policyNow : Time
  draw : Nat
  deriving DecidableEq, Repr

instance {P : Type} [EvictionPolicy P] : SharedCache (InMemoryCache P) CacheInput where
  get c key i := (some (c.get key i.clock).1, (c.get key i.clock).2)
  set c key value ttl i :=
    match c.set key value ttl i.now i.policyNow i.draw with
    | .error _ => (false, c)
    | .ok c => (true, c)
  delete c key _ := (true, c.delete key)

/-! ## Strategies -/

def defaultProductTTL : Duration := 5 * minute

def writeThroughTTL : Duration := 5 * minute

/-- The cache takes what write-through stores. -/
def AcceptsWrites (C : Type) {I : Type} [SharedCache C I] : Prop :=
  ∀ (c : C) (key : String) (value : Bytes) (i : I),
    (SharedCache.set c key value writeThroughTTL i).1 = true

/-- `cacheKeyPrefix + id`. -/
def cacheKey (id : String) : String := "product:" ++ id

/-- Different products have different keys. -/
theorem cacheKey_inj {id id' : String} : cacheKey id = cacheKey id' ↔ id = id' := by
  simp [cacheKey]

/-- The invalidation strategies. -/
inductive Strategy
  | ttl
  | writeThrough
  | writeBehind
  deriving DecidableEq, Repr

section Requests

variable {C I F : Type} [SharedCache C I]

/-- `OnWrite`: the cache, and the keys whose deletion is scheduled.  An error of the
cache is not passed on. -/
def Strategy.onWrite : Strategy → C → String → Bytes → I → C × List String
  | .ttl, c, _, _, _ => (c, [])
  | .writeThrough, c, key, value, i => ((SharedCache.set c key value writeThroughTTL i).2, [])
  | .writeBehind, c, key, _, _ => (c, [key])

/-! ## Requests -/

inductive CacheStatus
  | hit
  | miss
  deriving DecidableEq, Repr

/-- The errors of `CacheAside`. -/
inductive ApiError
  /-- `db.ErrNotFound`. -/
  | notFound
  /-- Any other error, by its text. -/
  | failed (message : String)
  deriving DecidableEq, Repr

variable (codec : Codec F)

/-- Step 1 of `GetProduct`: ask the cache.  An error counts as a miss, and an entry
that cannot be read is deleted. -/
def checkCache (cache : C) (id : String) (lookup delete : I) : Option (Product F) × C :=
  match SharedCache.get cache (cacheKey id) lookup with
  | (some (some value), cache) =>
      match codec.unmarshal value with
      | some p => (some p, cache)
      | none => (none, (SharedCache.delete cache (cacheKey id) delete).2)
  | (_, cache) => (none, cache)

/-- Step 3 of `GetProduct`: store the product that was fetched. -/
def populate (cache : C) (id : String) (product : Product F) (i : I) : C :=
  match codec.marshal product with
  | none => cache
  | some serialised =>
      (SharedCache.set cache (cacheKey id) serialised defaultProductTTL i).2

/-- Step 2 of `UpdateProduct`: tell the strategy.  A product that cannot be written
is passed on as no bytes. -/
def invalidate (strategy : Strategy) (cache : C) (id : String) (product : Product F) (i : I) :
    C × List String :=
  strategy.onWrite cache (cacheKey id) ((codec.marshal product).getD []) i

/-- What a `GetProduct` takes from outside. -/
structure GetInput (I : Type) where
  lookup : I
  delete : I
  set : I
  dbFailure : Option String

def getProduct (cache : C) (table : Db.Table F) (id : String) (i : GetInput I) :
    Except ApiError (Product F × CacheStatus) × C :=
  match checkCache codec cache id i.lookup i.delete with
  | (some p, cache) => (.ok (p, .hit), cache)
  | (none, cache) =>
      match Db.getProduct table i.dbFailure id with
      | .error .notFound => (.error .notFound, cache)
      | .error (.failed message) => (.error (.failed ("api: db unavailable: " ++ message)), cache)
      | .ok dbProduct =>
          let product := dbToAPIProduct dbProduct
          (.ok (product, .miss), populate codec cache id product i.set)

/-- What an `UpdateProduct` or a `CreateProduct` takes from outside. -/
structure WriteInput (I : Type) where
  dbFailure : Option String
  dbNow : Time
  set : I

/-- The outcome of a write: the answer, the cache, the table, and the keys whose
deletion is scheduled. -/
structure Written (C F ε : Type) where
  answer : Except ε (Product F)
  cache : C
  table : Db.Table F
  scheduled : List String := []

variable (numeric : F → F)

def updateProduct (strategy : Strategy) (cache : C) (table : Db.Table F) (id : String)
    (req : ProductUpdateRequest F) (i : WriteInput I) : Written C F ApiError :=
  match Db.updateProduct numeric table i.dbFailure i.dbNow id req.toDb with
  | .error .notFound => { answer := .error .notFound, cache := cache, table := table }
  | .error (.failed message) =>
      { answer := .error (.failed ("api: db update failed: " ++ message))
        cache := cache, table := table }
  | .ok (dbProduct, table) =>
      let product := dbToAPIProduct dbProduct
      let told := invalidate codec strategy cache id product i.set
      { answer := .ok product, cache := told.1, table := table, scheduled := told.2 }

/-- An error response. -/
structure HttpError where
  status : Nat
  message : String
  deriving DecidableEq, Repr

def isUniqueViolation : Db.DbError → Bool
  | .notFound => false
  | .failed message =>
      contains message.toList "23505".toList || contains message.toList "unique".toList

/-- The handler of `POST /products`; `body` is the outcome of decoding the body.  It
does not touch the cache. -/
def createProduct (cache : C) (table : Db.Table F) (body : Except String (Product F))
    (i : WriteInput I) : Written C F HttpError :=
  match body with
  | .error e =>
      { answer := .error ⟨400, "invalid request body: " ++ e⟩, cache := cache, table := table }
  | .ok p =>
      if p.id = "" ∨ p.name = "" then
        { answer := .error ⟨400, "id and name are required"⟩, cache := cache, table := table }
      else
        match Db.createProduct numeric table i.dbFailure i.dbNow
            { id := p.id, name := p.name, description := p.description, priceUSD := p.priceUSD
              category := p.category, createdAt := 0, updatedAt := 0 } with
        | .error e =>
            if isUniqueViolation e then
              { answer := .error ⟨409, "product with this ID already exists"⟩
                cache := cache, table := table }
            else
              { answer := .error ⟨503, "service temporarily unavailable"⟩
                cache := cache, table := table }
        | .ok (dbProduct, table) =>
            { answer := .ok (dbToAPIProduct dbProduct), cache := cache, table := table }

/-! ## Outcomes -/

/-- The outcomes of `GetProduct`. -/
theorem getProduct_cases (c : C) (t : Db.Table F) (id : String)
    (i : GetInput I) :
    (∃ p, (checkCache codec c id i.lookup i.delete).1 = some p ∧
      getProduct codec c t id i =
        (.ok (p, .hit), (checkCache codec c id i.lookup i.delete).2)) ∨
    (checkCache codec c id i.lookup i.delete).1 = none ∧
      ((∃ e, getProduct codec c t id i =
          (.error e, (checkCache codec c id i.lookup i.delete).2)) ∨
        ∃ row, t.lookup id = some row ∧ getProduct codec c t id i =
          (.ok (dbToAPIProduct row, .miss),
            populate codec (checkCache codec c id i.lookup i.delete).2 id (dbToAPIProduct row)
              i.set)) := by
  unfold getProduct
  split
  · rename_i p c' heq
    exact Or.inl ⟨p, by rw [heq], by rw [heq]⟩
  · rename_i c' heq
    refine Or.inr ⟨by rw [heq], ?_⟩
    rw [heq]
    split
    · exact Or.inl ⟨_, rfl⟩
    · exact Or.inl ⟨_, rfl⟩
    · rename_i row hrow
      exact Or.inr ⟨row, Db.getProduct_ok hrow, rfl⟩

omit [SharedCache C I] in
/-- A `CreateProduct` leaves the cache alone and the table, or adds a row under a free
id to the table. -/
theorem createProduct_effect (c : C) (t : Db.Table F) (body : Except String (Product F))
    (i : WriteInput I) :
    (createProduct numeric c t body i).cache = c ∧
      ((createProduct numeric c t body i).table = t ∨
        ∃ id row, id ∉ t ∧ (createProduct numeric c t body i).table = t.insert id row) := by
  unfold createProduct
  split
  · exact ⟨rfl, Or.inl rfl⟩
  · split
    · exact ⟨rfl, Or.inl rfl⟩
    · split
      · split
        · exact ⟨rfl, Or.inl rfl⟩
        · exact ⟨rfl, Or.inl rfl⟩
      · rename_i row table hdb
        obtain ⟨hfree, htable⟩ := Db.createProduct_ok numeric hdb
        exact ⟨rfl, Or.inr ⟨_, row, hfree, htable⟩⟩

variable {codec numeric}

/-- An `UpdateProduct` that fails changes nothing. -/
theorem updateProduct_error {strategy : Strategy} {c : C} {t : Db.Table F} {id : String}
    {req : ProductUpdateRequest F} {i : WriteInput I} {e : ApiError}
    (herror : (updateProduct codec numeric strategy c t id req i).answer = .error e) :
    (updateProduct codec numeric strategy c t id req i).cache = c ∧
      (updateProduct codec numeric strategy c t id req i).table = t := by
  unfold updateProduct at herror ⊢
  split at herror
  · exact ⟨rfl, rfl⟩
  · exact ⟨rfl, rfl⟩
  · cases herror

end Requests

/-! ## The in-memory cache keeps its promise -/

section InMemory

variable {P : Type} [LawfulPolicy P]

/-- A `Set` is refused, or is the store of its section. -/
theorem set_cases (c : InMemoryCache P) (key : String) (value : Bytes) (ttl : Duration)
    (i : CacheInput) :
    SharedCache.set c key value ttl i = (false, c) ∨
      SharedCache.set c key value ttl i =
        (true, c.store key value (InMemoryCache.expiryOf i.now ttl) i.now i.policyNow i.draw) := by
  cases hvalid : InMemoryCache.validateTTL ttl with
  | error e => exact Or.inl (by simp [SharedCache.set, InMemoryCache.set, hvalid])
  | ok u => exact Or.inr (by simp [SharedCache.set, InMemoryCache.set, hvalid])

/-- The TTL of write-through is accepted. -/
theorem acceptsWrites_inMemory : AcceptsWrites (InMemoryCache P) := by
  intro c key value i
  have hvalid : InMemoryCache.validateTTL writeThroughTTL = .ok () := by decide
  simp [SharedCache.set, InMemoryCache.set, hvalid]

instance : LawfulCache (InMemoryCache P) CacheInput where
  Valid c := Sound c ∧ 1 ≤ c.capacity
  Holds c key value := ∃ expiresAt, c.stored key = some (value, expiresAt)
  valid_get := fun h key i => ⟨sound_get h.1 key i.clock, by simpa [SharedCache.get] using h.2⟩
  valid_set := by
    intro c h key value ttl i
    rcases set_cases c key value ttl i with hset | hset
    · rw [hset]
      exact h
    · rw [hset]
      exact ⟨sound_store h.1 h.2 _ _ _ _ _ _, by simpa using h.2⟩
  valid_delete := fun h key i => ⟨sound_delete h.1 key, by simpa [SharedCache.delete] using h.2⟩
  get_hit := by
    intro c key i value h hget
    obtain ⟨e, he, hvalue, _⟩ := get_hit (Option.some.inj hget)
    exact ⟨e.expiresAt, by simp [InMemoryCache.stored, he, hvalue]⟩
  holds_get := by
    intro c key i k v h hholds
    obtain ⟨expiresAt, hstored⟩ := hholds
    exact ⟨expiresAt, stored_get hstored⟩
  holds_set := by
    intro c key value ttl i k v h hok hholds
    obtain ⟨expiresAt, hstored⟩ := hholds
    rcases set_cases c key value ttl i with hset | hset
    · rw [hset] at hok
      cases hok
    · rw [hset] at hstored
      by_cases hk : k = key
      · subst hk
        rw [stored_store_self] at hstored
        cases hstored
        exact Or.inl ⟨rfl, rfl⟩
      · exact Or.inr ⟨hk, expiresAt, stored_store_ne h.1.addressed hk hstored⟩
  set_failed := by
    intro c key value ttl i hfailed
    rcases set_cases c key value ttl i with hset | hset
    · rw [hset]
    · rw [hset] at hfailed
      cases hfailed
  holds_delete := by
    intro c key i k v h hholds
    obtain ⟨expiresAt, hstored⟩ := hholds
    refine ⟨expiresAt, ?_⟩
    simp only [SharedCache.delete, InMemoryCache.delete] at hstored
    split at hstored
    · exact hstored
    · by_cases hk : k = key
      · subst hk
        simp [InMemoryCache.stored] at hstored
      · rwa [InMemoryCache.stored, entry_drop_ne c hk] at hstored

end InMemory

end Api
