import DistributedCaching.GoRuntime

/-!
# The products table

The queries of package `db` on the table of products, by the effect of their SQL.
Prices are of an arbitrary type; `numeric` is what storing a price in the
`NUMERIC(10, 2)` column and reading it back makes of it.  A call may fail: `failure`
is then the text of the error below it, and nothing changes.
-/

namespace Db

open Go

structure Product (F : Type) where
  id : String
  name : String
  description : String
  priceUSD : F
  category : String
  createdAt : Time
  updatedAt : Time
  deriving DecidableEq, Repr

/-- The fields to change; `none` leaves a field alone. -/
structure ProductUpdateRequest (F : Type) where
  name : Option String
  description : Option String
  priceUSD : Option F
  category : Option String
  deriving DecidableEq, Repr

inductive DbError
  /-- `ErrNotFound`. -/
  | notFound
  /-- Any other error, by its text. -/
  | failed (message : String)
  deriving DecidableEq, Repr

/-- The error of an insertion whose id is taken. -/
def duplicateKey : String :=
  "ERROR: duplicate key value violates unique constraint \"products_pkey\" (SQLSTATE 23505)"

/-- The rows by primary key. -/
abbrev Table (F : Type) := GoMap String (Product F)

variable {F : Type} (numeric : F → F)

def getProduct (t : Table F) (failure : Option String) (id : String) :
    Except DbError (Product F) :=
  match failure with
  | some cause => .error (.failed ("db: get product " ++ id ++ ": " ++ cause))
  | none =>
      match t.lookup id with
      | none => .error .notFound
      | some p => .ok p

/-- The row after the `SET` clauses of a request, at transaction time `now`. -/
def ProductUpdateRequest.apply (req : ProductUpdateRequest F) (now : Time) (p : Product F) :
    Product F :=
  { p with
    name := req.name.getD p.name
    description := req.description.getD p.description
    priceUSD := (req.priceUSD.map numeric).getD p.priceUSD
    category := req.category.getD p.category
    updatedAt := now }

/-- The updated row and the table with it. -/
def updateProduct (t : Table F) (failure : Option String) (now : Time) (id : String)
    (req : ProductUpdateRequest F) : Except DbError (Product F × Table F) :=
  match failure with
  | some cause => .error (.failed ("db: update product " ++ id ++ ": " ++ cause))
  | none =>
      match t.lookup id with
      | none => .error .notFound
      | some p =>
          let row := req.apply numeric now p
          .ok (row, t.insert id row)

/-- The inserted row and the table with it.  The two times are the defaults of their
columns. -/
def createProduct (t : Table F) (failure : Option String) (now : Time) (p : Product F) :
    Except DbError (Product F × Table F) :=
  match failure with
  | some cause => .error (.failed ("db: create product: " ++ cause))
  | none =>
      if p.id ∈ t then .error (.failed ("db: create product: " ++ duplicateKey))
      else
        let row := { p with priceUSD := numeric p.priceUSD, createdAt := now, updatedAt := now }
        .ok (row, t.insert p.id row)

variable {t : Table F} {failure : Option String} {now : Time} {id : String}

/-- A product that the query returns is the row of its id. -/
theorem getProduct_ok {p : Product F} (h : getProduct t failure id = .ok p) :
    t.lookup id = some p := by
  unfold getProduct at h
  split at h
  · cases h
  · split at h
    · cases h
    · rename_i hp
      cases h
      exact hp

/-- An update puts the row that it returns under the id. -/
theorem updateProduct_ok {req : ProductUpdateRequest F} {row : Product F} {t' : Table F}
    (h : updateProduct numeric t failure now id req = .ok (row, t')) :
    t' = t.insert id row := by
  unfold updateProduct at h
  split at h
  · cases h
  · split at h
    · cases h
    · cases h
      rfl

/-- An insertion puts the row that it returns under an id that was free. -/
theorem createProduct_ok {p row : Product F} {t' : Table F}
    (h : createProduct numeric t failure now p = .ok (row, t')) :
    p.id ∉ t ∧ t' = t.insert p.id row := by
  unfold createProduct at h
  split at h
  · cases h
  · split at h
    · cases h
    · rename_i hfree
      cases h
      exact ⟨hfree, rfl⟩

end Db
