import DistributedCaching.CacheTransparency
import DistributedCaching.ProductJson

/-!
# The product API as its clients see it

The handlers of `GET /products/{id}`, `POST /products` and `PUT /products/{id}` from the
text of the request to the status, the headers and the text of the response, over the
cache-aside layer with write-through and the JSON of `ProductJson`.

What the API is for is a catalogue: a product or nothing under every id.  `Answers` says
what a request may be answered, and what becomes of the catalogue, with no word about a
cache.  `api_refines_catalogue` is the refinement: in every sequence of requests, every
response is one that the catalogue allows.

A product that JSON cannot write needs care.  Write-through then stores no bytes at all
for it, so a held value need not be the text of the row.  The invariant therefore speaks
about what can be read (`CachedCurrent`): a held value that reads as a product reads as
the row.
-/

namespace Api

open Go Cache Eviction Json

/-! ## Responses -/

structure Response where
  status : Nat
  headers : GoMap String String
  body : Text

/-- `writeJSON`.  The error of a value that cannot be written is dropped, and the body is
then empty. -/
def writeJSON (headers : GoMap String String) (status : Nat) (v : Option Value) : Response where
  status := status
  headers := headers.insert "Content-Type" "application/json"
  body := (v.map fun v => print v ++ ['\n']).getD []

def writeError (headers : GoMap String String) (status : Nat) (msg : String) : Response :=
  writeJSON headers status (some (.object [("error".toList, .text msg.toList)]))

def xCacheHeader : String := "X-Cache"

def CacheStatus.text : CacheStatus → String
  | .hit => "HIT"
  | .miss => "MISS"

section Handlers

variable {C I F : Type} [SharedCache C I] (formats : Formats F)

/-- `Handler.GetProduct`: the response and the cache. -/
def handleGet (cache : C) (table : Db.Table F) (id : String) (i : GetInput I) : Response × C :=
  match getProduct (productCodec formats) cache table id i with
  | (.error .notFound, cache) => (writeError ∅ 404 "product not found", cache)
  | (.error (.failed _), cache) => (writeError ∅ 503 "service temporarily unavailable", cache)
  | (.ok (product, status), cache) =>
      let headers : GoMap String String := (∅ : GoMap String String).insert xCacheHeader status.text
      if headers.lookup xCacheHeader ≠ some status.text then
        (writeError headers 500 "failed to set cache status header", cache)
      else (writeJSON headers 200 (productValue formats product), cache)

variable (numeric : F → F) (explain : Text → String)

/-- `Handler.UpdateProduct` under write-through; `explain` is the text of a decoding error. -/
def handleUpdate (cache : C) (table : Db.Table F) (id : String) (body : Text)
    (i : WriteInput I) : Response × Service C F :=
  match decodeUpdate formats body with
  | none => (writeError ∅ 400 ("invalid request body: " ++ explain body), ⟨cache, table⟩)
  | some req =>
      let w := updateProduct (productCodec formats) numeric .writeThrough cache table id req i
      match w.answer with
      | .error .notFound => (writeError ∅ 404 "product not found", ⟨w.cache, w.table⟩)
      | .error (.failed _) =>
          (writeError ∅ 503 "service temporarily unavailable", ⟨w.cache, w.table⟩)
      | .ok product => (writeJSON ∅ 200 (productValue formats product), ⟨w.cache, w.table⟩)

/-- `Handler.CreateProduct`. -/
def handleCreate (cache : C) (table : Db.Table F) (body : Text) (i : WriteInput I) :
    Response × Service C F :=
  let decoded : Except String (Product F) :=
    match decodeProduct formats body with
    | none => .error (explain body)
    | some p => .ok p
  let w := createProduct numeric cache table decoded i
  match w.answer with
  | .error e => (writeError ∅ e.status e.message, ⟨w.cache, w.table⟩)
  | .ok product => (writeJSON ∅ 201 (productValue formats product), ⟨w.cache, w.table⟩)

/-- A request as it comes in, with what serving it takes from outside. -/
inductive HttpRequest (I : Type)
  | get (id : String) (i : GetInput I)
  | put (id : String) (body : Text) (i : WriteInput I)
  | post (body : Text) (i : WriteInput I)

def handle (s : Service C F) : HttpRequest I → Response × Service C F
  | .get id i =>
      let r := handleGet formats s.cache s.table id i
      (r.1, { s with cache := r.2 })
  | .put id body i => handleUpdate formats numeric explain s.cache s.table id body i
  | .post body i => handleCreate formats numeric explain s.cache s.table body i

/-- Requests served one after the other. -/
def handleAll (s : Service C F) : List (HttpRequest I) → List Response × Service C F
  | [] => ([], s)
  | req :: reqs =>
      let r := handle formats numeric explain s req
      let rest := handleAll r.2 reqs
      (r.1 :: rest.1, rest.2)

end Handlers

/-! ## The catalogue -/

/-- What a client takes the service for: the products by id. -/
abbrev Products (F : Type) := String → Option (Product F)

/-- The catalogue that a table holds. -/
def productsOf {F : Type} (table : Db.Table F) : Products F :=
  fun id => (table.lookup id).map dbToAPIProduct

section Catalogue

variable {I F : Type} (formats : Formats F)

/-- The response shows the product: a client reads it from the body, unless JSON cannot
write it, and then there is no body. -/
def Shows (r : Response) (status : Nat) (p : Product F) : Prop :=
  r.status = status ∧
    ((productValue formats p).isSome = true ∧ decodeProduct formats r.body = some p ∨
      productValue formats p = none ∧ r.body = [])

/-- A product after an update at time `now`. -/
def Product.change (numeric : F → F) (req : ProductUpdateRequest F) (now : Time)
    (p : Product F) : Product F :=
  { p with
    name := req.name.getD p.name
    description := req.description.getD p.description
    priceUSD := (req.priceUSD.map numeric).getD p.priceUSD
    category := req.category.getD p.category
    updatedAt := now }

/-- A product as it is created at time `now`. -/
def Product.fresh (numeric : F → F) (now : Time) (p : Product F) : Product F :=
  { p with priceUSD := numeric p.priceUSD, createdAt := now, updatedAt := now }

variable (numeric : F → F) (explain : Text → String)

/-- **What the catalogue allows**: the response to a request, and the catalogue after it.
Only a `GET` has a choice, and only while the database fails: a product that is in the
cache is found all the same. -/
inductive Answers (cat : Products F) : HttpRequest I → Response → Products F → Prop
  | found {id i r p} (hp : cat id = some p) (hr : Shows formats r 200 p)
      (hcache : r.headers.lookup xCacheHeader = some "HIT" ∨
        r.headers.lookup xCacheHeader = some "MISS" ∧ i.dbFailure = none) :
      Answers cat (.get id i) r cat
  | missing {id i} (hdb : i.dbFailure = none) (hp : cat id = none) :
      Answers cat (.get id i) (writeError ∅ 404 "product not found") cat
  | unread {id i} (hdb : i.dbFailure ≠ none) :
      Answers cat (.get id i) (writeError ∅ 503 "service temporarily unavailable") cat
  | badUpdate {id body i} (hbody : decodeUpdate formats body = none) :
      Answers cat (.put id body i)
        (writeError ∅ 400 ("invalid request body: " ++ explain body)) cat
  | notUpdated {id body i req} (hbody : decodeUpdate formats body = some req)
      (hdb : i.dbFailure ≠ none) :
      Answers cat (.put id body i) (writeError ∅ 503 "service temporarily unavailable") cat
  | noSuch {id body i req} (hbody : decodeUpdate formats body = some req)
      (hdb : i.dbFailure = none) (hp : cat id = none) :
      Answers cat (.put id body i) (writeError ∅ 404 "product not found") cat
  | updated {id body i r req p} (hbody : decodeUpdate formats body = some req)
      (hdb : i.dbFailure = none) (hp : cat id = some p)
      (hr : Shows formats r 200 (p.change numeric req i.dbNow)) :
      Answers cat (.put id body i) r
        (Function.update cat id (some (p.change numeric req i.dbNow)))
  | badProduct {body i} (hbody : decodeProduct formats body = none) :
      Answers cat (.post body i)
        (writeError ∅ 400 ("invalid request body: " ++ explain body)) cat
  | incomplete {body i p} (hbody : decodeProduct formats body = some p)
      (hempty : p.id = "" ∨ p.name = "") :
      Answers cat (.post body i) (writeError ∅ 400 "id and name are required") cat
  /-- A failure whose text looks like a taken id is reported as one. -/
  | mistaken {body i p cause} (hbody : decodeProduct formats body = some p)
      (hfull : ¬ (p.id = "" ∨ p.name = "")) (hdb : i.dbFailure = some cause)
      (htext : isUniqueViolation (.failed ("db: create product: " ++ cause)) = true) :
      Answers cat (.post body i) (writeError ∅ 409 "product with this ID already exists") cat
  | notCreated {body i p cause} (hbody : decodeProduct formats body = some p)
      (hfull : ¬ (p.id = "" ∨ p.name = "")) (hdb : i.dbFailure = some cause)
      (htext : isUniqueViolation (.failed ("db: create product: " ++ cause)) = false) :
      Answers cat (.post body i) (writeError ∅ 503 "service temporarily unavailable") cat
  | taken {body i p} (hbody : decodeProduct formats body = some p)
      (hfull : ¬ (p.id = "" ∨ p.name = "")) (hdb : i.dbFailure = none) (hp : cat p.id ≠ none) :
      Answers cat (.post body i) (writeError ∅ 409 "product with this ID already exists") cat
  | created {body i r p} (hbody : decodeProduct formats body = some p)
      (hfull : ¬ (p.id = "" ∨ p.name = "")) (hdb : i.dbFailure = none) (hp : cat p.id = none)
      (hr : Shows formats r 201 (p.fresh numeric i.dbNow)) :
      Answers cat (.post body i) r (Function.update cat p.id (some (p.fresh numeric i.dbNow)))

/-- The responses to several requests. -/
inductive AnswersAll : Products F → List (HttpRequest I) → List Response → Products F → Prop
  | nil (cat : Products F) : AnswersAll cat [] [] cat
  | cons {cat cat' cat'' : Products F} {req : HttpRequest I} {r : Response}
      {reqs : List (HttpRequest I)} {rs : List Response}
      (head : Answers formats numeric explain cat req r cat') (tail : AnswersAll cat' reqs rs cat'') :
      AnswersAll cat (req :: reqs) (r :: rs) cat''

end Catalogue

section Refinement

variable {C I F : Type} [LawfulCache C I] {formats : Formats F} {numeric : F → F}
  {explain : Text → String} {s : Service C F}

/-- A response written for a product shows it. -/
theorem shows_writeJSON (headers : GoMap String String) (status : Nat) (p : Product F) :
    Shows formats (writeJSON headers status (productValue formats p)) status p := by
  refine ⟨rfl, ?_⟩
  cases hv : productValue formats p with
  | none => exact Or.inr ⟨rfl, rfl⟩
  | some v =>
      refine Or.inl ⟨rfl, ?_⟩
      exact decodeProduct_print hv (delimited_cons (by decide) [])

/-! ## The invariant -/

/-- Whatever the cache holds for a product and can be read, reads as its row. -/
structure CachedCurrent (formats : Formats F) (s : Service C F) : Prop where
  valid : LawfulCache.Valid s.cache
  current : ∀ id value p, LawfulCache.Holds s.cache (cacheKey id) value →
    (productCodec formats).unmarshal value = some p → productsOf s.table id = some p

/-- A `GetProduct` leaves what can be read current. -/
theorem cachedCurrent_get (h : CachedCurrent formats s) (id : String) (i : GetInput I) :
    CachedCurrent formats
      { s with cache := (getProduct (productCodec formats) s.cache s.table id i).2 } := by
  have hvalid := valid_checkCache (productCodec formats) h.valid id i.lookup i.delete
  rcases getProduct_cases (productCodec formats) s.cache s.table id i with
    ⟨p, _, heq⟩ | ⟨_, ⟨e, heq⟩ | ⟨row, hrow, heq⟩⟩
  · rw [heq]
    exact ⟨hvalid, fun k v q hv => h.current k v q (holds_checkCache h.valid hv)⟩
  · rw [heq]
    exact ⟨hvalid, fun k v q hv => h.current k v q (holds_checkCache h.valid hv)⟩
  · rw [heq]
    refine ⟨valid_populate hvalid id _ _, ?_⟩
    intro k v q hv hread
    rcases holds_populate hvalid hv with hold | ⟨hk, hwritten⟩
    · exact h.current k v q (holds_checkCache h.valid hold) hread
    · rw [unmarshal_marshal hwritten] at hread
      cases hread
      rw [cacheKey_inj.mp hk]
      simp [productsOf, hrow]

/-- What write-through stores can be read as the row, or not at all. -/
theorem cachedCurrent_update (numeric : F → F) (haccepts : AcceptsWrites C) (h : CachedCurrent formats s)
    (id : String) (req : ProductUpdateRequest F) (i : WriteInput I) :
    let w := updateProduct (productCodec formats) numeric .writeThrough s.cache s.table id req i
    CachedCurrent formats ⟨w.cache, w.table⟩ := by
  intro w
  cases hdb : Db.updateProduct numeric s.table i.dbFailure i.dbNow id req.toDb with
  | error e =>
      have hw : w.cache = s.cache ∧ w.table = s.table := by
        cases e <;> simp [w, updateProduct, hdb]
      rw [hw.1, hw.2]
      exact h
  | ok result =>
      obtain ⟨row, table⟩ := result
      obtain rfl := Db.updateProduct_ok numeric hdb
      have hcache : w.cache = (SharedCache.set s.cache (cacheKey id)
          (((productCodec formats).marshal (dbToAPIProduct row)).getD []) writeThroughTTL
          i.set).2 := by
        simp [w, updateProduct, hdb, invalidate, Strategy.onWrite]
      have htable : w.table = s.table.insert id row := by simp [w, updateProduct, hdb]
      rw [hcache, htable]
      refine ⟨LawfulCache.valid_set h.valid _ _ _ _, ?_⟩
      intro k v q hv hread
      rcases LawfulCache.holds_set h.valid (haccepts _ _ _ _) hv with ⟨hk, rfl⟩ | ⟨hk, hold⟩
      · rw [cacheKey_inj.mp hk]
        cases hwritten : (productCodec formats).marshal (dbToAPIProduct row) with
        | none =>
            rw [hwritten, Option.getD_none, unmarshal_nil] at hread
            cases hread
        | some b =>
            rw [hwritten, Option.getD_some, unmarshal_marshal hwritten] at hread
            cases hread
            simp [productsOf]
      · have hne : k ≠ id := fun heq => hk (congrArg cacheKey heq)
        have hcur := h.current k v q hold hread
        simpa [productsOf, AList.lookup_insert_ne hne] using hcur

/-- A `CreateProduct` adds a row for which the cache holds nothing that can be read. -/
theorem cachedCurrent_create (numeric : F → F) (h : CachedCurrent formats s) (body : Except String (Product F))
    (i : WriteInput I) :
    let w := createProduct numeric s.cache s.table body i
    CachedCurrent formats ⟨w.cache, w.table⟩ := by
  intro w
  obtain ⟨hcache, htable | ⟨id, row, hfree, htable⟩⟩ :=
    createProduct_effect numeric s.cache s.table body i
  · simp only [w, hcache, htable]
    exact h
  · simp only [w, hcache, htable]
    refine ⟨h.valid, ?_⟩
    intro k v q hv hread
    have hcur := h.current k v q hv hread
    have hne : k ≠ id := by
      rintro rfl
      rw [productsOf, AList.lookup_eq_none.mpr hfree] at hcur
      cases hcur
    simpa [productsOf, AList.lookup_insert_ne hne] using hcur

/-! ## One request -/

/-- A `GET` is answered as the catalogue allows. -/
theorem answers_get (h : CachedCurrent formats s) (id : String) (i : GetInput I) :
    Answers formats numeric explain (productsOf s.table) (.get id i)
      (handleGet formats s.cache s.table id i).1 (productsOf s.table) := by
  unfold handleGet getProduct
  cases hcheck : checkCache (productCodec formats) s.cache id i.lookup i.delete with
  | mk found cache =>
    cases found with
    | some p =>
        obtain ⟨v, hv, hread⟩ := checkCache_hit h.valid (congrArg Prod.fst hcheck)
        have hheader : ((∅ : GoMap String String).insert xCacheHeader "HIT").lookup
            xCacheHeader = some "HIT" := AList.lookup_insert _
        simp only [CacheStatus.text, hheader, ne_eq, not_true_eq_false, if_false]
        refine .found (h.current id v p hv hread) (shows_writeJSON _ _ _) (Or.inl ?_)
        rw [writeJSON, AList.lookup_insert_ne (by decide), hheader]
    | none =>
        cases hdb : i.dbFailure with
        | some cause => exact .unread (by simp [hdb])
        | none =>
            cases hrow : s.table.lookup id with
            | none =>
                simp only [Db.getProduct, hrow]
                exact .missing hdb (by simp [productsOf, hrow])
            | some row =>
                have hheader : ((∅ : GoMap String String).insert xCacheHeader "MISS").lookup
                    xCacheHeader = some "MISS" := AList.lookup_insert _
                simp only [Db.getProduct, hrow, CacheStatus.text, hheader, ne_eq,
                  not_true_eq_false, if_false]
                refine .found (p := dbToAPIProduct row) (by simp [productsOf, hrow])
                  (shows_writeJSON _ _ _) (Or.inr ⟨?_, hdb⟩)
                rw [writeJSON, AList.lookup_insert_ne (by decide), hheader]

omit [LawfulCache C I] in
/-- The catalogue of a table with another row. -/
theorem productsOf_insert (t : Db.Table F) (id : String) (row : Db.Product F) :
    productsOf (t.insert id row) =
      Function.update (productsOf t) id (some (dbToAPIProduct row)) := by
  funext k
  by_cases hk : k = id
  · subst hk
    simp [productsOf]
  · simp [productsOf, Function.update_of_ne hk, AList.lookup_insert_ne hk]

/-- A `PUT` is answered as the catalogue allows. -/
theorem answers_put (id : String) (body : Text) (i : WriteInput I) :
    Answers formats numeric explain (productsOf s.table) (.put id body i)
      (handleUpdate formats numeric explain s.cache s.table id body i).1
      (productsOf (handleUpdate formats numeric explain s.cache s.table id body i).2.table) := by
  unfold handleUpdate
  cases hbody : decodeUpdate formats body with
  | none => exact .badUpdate hbody
  | some req =>
      cases hdb : i.dbFailure with
      | some cause =>
          simp only [updateProduct, hdb, Db.updateProduct]
          exact .notUpdated hbody (by simp [hdb])
      | none =>
          cases hrow : s.table.lookup id with
          | none =>
              simp only [updateProduct, hdb, Db.updateProduct, hrow]
              exact .noSuch hbody hdb (by simp [productsOf, hrow])
          | some row =>
              simp only [updateProduct, hdb, Db.updateProduct, hrow, productsOf_insert]
              exact .updated hbody hdb (p := dbToAPIProduct row) (by simp [productsOf, hrow])
                (shows_writeJSON _ _ _)

/-- The error of a taken id is recognised by its text. -/
theorem isUniqueViolation_duplicateKey :
    isUniqueViolation (.failed ("db: create product: " ++ Db.duplicateKey)) = true := by
  have hinfix : "unique".toList <:+: Db.duplicateKey.toList :=
    ⟨"ERROR: duplicate key value violates ".toList,
      " constraint \"products_pkey\" (SQLSTATE 23505)".toList, rfl⟩
  have hmessage : "unique".toList <:+: ("db: create product: " ++ Db.duplicateKey).toList := by
    rw [String.toList_append]
    exact hinfix.trans (List.suffix_append _ _).isInfix
  rw [isUniqueViolation, contains, contains, decide_eq_true hmessage, Bool.or_true]

omit [LawfulCache C I] in
/-- A `POST` is answered as the catalogue allows. -/
theorem answers_post (body : Text) (i : WriteInput I) :
    Answers formats numeric explain (productsOf s.table) (.post body i)
      (handleCreate formats numeric explain s.cache s.table body i).1
      (productsOf (handleCreate formats numeric explain s.cache s.table body i).2.table) := by
  unfold handleCreate
  cases hbody : decodeProduct formats body with
  | none => exact .badProduct hbody
  | some p =>
      by_cases hempty : p.id = "" ∨ p.name = ""
      · simp only [createProduct, if_pos hempty]
        exact .incomplete hbody hempty
      · cases hdb : i.dbFailure with
        | some cause =>
            cases htext : isUniqueViolation (.failed ("db: create product: " ++ cause)) with
            | true =>
                simp only [createProduct, if_neg hempty, hdb, Db.createProduct, htext, if_true]
                exact .mistaken hbody hempty hdb htext
            | false =>
                simp only [createProduct, if_neg hempty, hdb, Db.createProduct, htext,
                  Bool.false_eq_true, if_false]
                exact .notCreated hbody hempty hdb htext
        | none =>
            by_cases hmem : p.id ∈ s.table
            · simp only [createProduct, if_neg hempty, hdb, Db.createProduct, if_pos hmem,
                isUniqueViolation_duplicateKey, if_true]
              refine .taken hbody hempty hdb ?_
              obtain ⟨row, hrow⟩ := Option.isSome_iff_exists.mp (AList.lookup_isSome.mpr hmem)
              simp [productsOf, hrow]
            · simp only [createProduct, if_neg hempty, hdb, Db.createProduct, if_neg hmem,
                productsOf_insert]
              exact .created hbody hempty hdb (by simp [productsOf, AList.lookup_eq_none.mpr hmem])
                (shows_writeJSON _ _ _)

/-- Every request is answered as the catalogue allows. -/
theorem answers_handle (h : CachedCurrent formats s) (req : HttpRequest I) :
    Answers formats numeric explain (productsOf s.table) req
      (handle formats numeric explain s req).1
      (productsOf (handle formats numeric explain s req).2.table) := by
  cases req with
  | get id i => exact answers_get h id i
  | put id body i => exact answers_put id body i
  | post body i => exact answers_post body i

omit [LawfulCache C I] in
/-- The handler leaves the cache as `getProduct` leaves it. -/
theorem handleGet_cache [SharedCache C I] (c : C) (t : Db.Table F) (id : String) (i : GetInput I) :
    (handleGet formats c t id i).2 = (getProduct (productCodec formats) c t id i).2 := by
  unfold handleGet
  split
  · rename_i heq; rw [heq]
  · rename_i heq; rw [heq]
  · rename_i heq
    rw [heq]
    dsimp only
    split <;> rfl

/-- Every request keeps what can be read current. -/
theorem cachedCurrent_handle (haccepts : AcceptsWrites C) (h : CachedCurrent formats s)
    (req : HttpRequest I) : CachedCurrent formats (handle formats numeric explain s req).2 := by
  cases req with
  | get id i =>
      have hget := cachedCurrent_get h id i
      rwa [← handleGet_cache] at hget
  | put id body i =>
      change CachedCurrent formats
        (handleUpdate formats numeric explain s.cache s.table id body i).2
      unfold handleUpdate
      split
      · exact h
      · rename_i req _
        have hupdate := cachedCurrent_update numeric haccepts h id req i
        dsimp only
        split <;> exact hupdate
  | post body i =>
      change CachedCurrent formats (handleCreate formats numeric explain s.cache s.table body i).2
      unfold handleCreate
      have hcreate := cachedCurrent_create numeric h
        (match decodeProduct formats body with
          | none => .error (explain body)
          | some p => .ok p) i
      dsimp only
      split <;> exact hcreate

/-! ## Every sequence of requests -/

/-- The run lemma: responses and catalogue follow what is allowed, by induction on the
requests. -/
theorem answersAll_handleAll (haccepts : AcceptsWrites C) (h : CachedCurrent formats s)
    (reqs : List (HttpRequest I)) :
    AnswersAll formats numeric explain (productsOf s.table) reqs
      (handleAll formats numeric explain s reqs).1
      (productsOf (handleAll formats numeric explain s reqs).2.table) := by
  induction reqs generalizing s with
  | nil => exact .nil _
  | cons req reqs ih =>
      exact .cons (answers_handle h req) (ih (cachedCurrent_handle haccepts h req))

end Refinement

/-- What a fresh cache holds is current: it holds nothing. -/
theorem cachedCurrent_new {F : Type} (formats : Formats F) (kind : PolicyKind) {capacity : Nat}
    (hcap : 1 ≤ capacity) (table : Db.Table F) :
    CachedCurrent formats
      (⟨InMemoryCache.new capacity (newPolicy kind), table⟩ : Service (InMemoryCache Policy) F) := by
  refine ⟨⟨sound_new (tracks_newPolicy kind) capacity, hcap⟩, ?_⟩
  intro id value p hholds _
  obtain ⟨expiresAt, hstored⟩ := hholds
  simp [InMemoryCache.new, InMemoryCache.stored, InMemoryCache.entry] at hstored

/-- Whole prices, and times as seconds; a time before the epoch is refused. -/
def wholeFormats : Formats Nat where
  writePrice n := some (Nat.toDigits 10 n)
  readPrice := unsigned
  writeTime t := if 0 ≤ t then some (formatInt t) else none
  readTime s := (unsigned s).map Int.ofNat
  zeroPrice := 0
  zeroTime := 0
  isNumber_price := by
    intro n s hs
    cases hs
    simpa [formatInt_of_nonneg] using isNumber_formatInt n
  isLiteral_time := by
    intro t s hs
    obtain ⟨ht, ⟨⟩⟩ := Option.ite_none_right_eq_some.mp hs
    rw [formatInt_of_nonneg ht]
    exact isLiteral_toDigits _
  read_price := by
    intro n s hs
    cases hs
    exact unsigned_toDigits n
  read_time := by
    intro t s hs
    obtain ⟨ht, ⟨⟩⟩ := Option.ite_none_right_eq_some.mp hs
    rw [formatInt_of_nonneg ht, unsigned_toDigits, Option.map_some, Int.ofNat_eq_natCast,
      Int.natAbs_of_nonneg ht]

/-- A product is created, read and made cheaper, then changed at a time that JSON refuses,
and read again.  A product whose time is written with an escape sequence is refused. -/
def shopping : List (HttpRequest CacheInput) :=
  [.post "\x7b\"id\":\"p1\",\"name\":\"Mat\",\"price_usd\":49\x7d".toList (.atTime 10),
   .get "p1" (.atTime 11),
   .put "p1" "\x7b\"price_usd\":39\x7d".toList (.atTime 12),
   .put "p1" "\x7b\"name\":\"Rug\"\x7d".toList (.atTime (-1)),
   .get "p1" (.atTime 14),
   .post "\x7b\"id\":\"p2\",\"name\":\"Rug\",\"created_at\":\"\\u0035\"\x7d".toList (.atTime 15),
   .get "p2" (.atTime 16)]

end Api
