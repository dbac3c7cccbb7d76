import DistributedCaching.CacheAside
import DistributedCaching.OrderedQuery

/-!
# Listing the products

`GET /products` answers with one page of the products, the newest first.  Every request is
a query of its own, so the pages fit together only if all queries list the rows in one
order.  The rows are ordered by `created_at` alone: there is one order exactly if no two
products were created at the same time (`pagination_partitions`).  The products that
`migrate` inserts all were (`createdAt_migrate`).

The offset of a page is a product of 64-bit integers.  For huge page numbers it wraps: to a
negative offset, which the database refuses, or to the offset of an earlier page
(`seeded_pages_overlap`).  A request is answered right exactly if its offset does not wrap,
or wraps to one that is past the end as well (`OffsetOk`, `listProducts_eq_iff`).
-/

/-! ## The database -/

namespace Db

open Go

/-- A table whose rows are stored under their ids. -/
structure Catalogue (F : Type) where
  table : Table F
  keyed : ∀ x ∈ table.entries, x.2.id = x.1

variable {F : Type}

/-- One row of an `INSERT` with `ON CONFLICT (id) DO NOTHING`. -/
def insertNew (t : Table F) (p : Product F) : Table F := if p.id ∈ t then t else t.insert p.id p

namespace Catalogue

def rows (c : Catalogue F) : List (Product F) := c.table.entries.map fun x => x.2

/-- The rows have the ids of the table, in its order. -/
theorem map_id_rows (c : Catalogue F) : c.rows.map Product.id = c.table.keys := by
  rw [rows, List.map_map]
  exact List.map_congr_left c.keyed

theorem nodup_rows (c : Catalogue F) : c.rows.Nodup := by
  have hids : (c.rows.map Product.id).Nodup := c.map_id_rows ▸ c.table.keys_nodup
  exact hids.of_map

def empty : Catalogue F := ⟨∅, fun _ hx => absurd hx List.not_mem_nil⟩

theorem mem_entries_insertNew {t : Table F} {p : Product F} {x : Sigma fun _ : String => Product F}
    (h : x ∈ (Db.insertNew t p).entries) : x = ⟨p.id, p⟩ ∨ x ∈ t.entries := by
  unfold Db.insertNew at h
  split at h
  · exact Or.inr h
  · rename_i hnew
    rw [AList.entries_insert_of_notMem hnew] at h
    exact List.mem_cons.mp h

/-- A row is stored under its id. -/
def insertNew (c : Catalogue F) (p : Product F) : Catalogue F where
  table := Db.insertNew c.table p
  keyed := by
    intro x hx
    rcases mem_entries_insertNew hx with rfl | hold
    · rfl
    · exact c.keyed x hold

/-- A new row is the only one that an insertion adds. -/
theorem mem_rows_insertNew {c : Catalogue F} {p q : Product F} (h : q ∈ (c.insertNew p).rows) :
    q = p ∨ q ∈ c.rows := by
  obtain ⟨x, hx, rfl⟩ := List.mem_map.mp h
  rcases mem_entries_insertNew hx with rfl | hold
  · exact Or.inl rfl
  · exact Or.inr (List.mem_map_of_mem hold)

end Catalogue

/-- The rows that `migrate` inserts, with prices in cents; the times are the defaults of their
columns. -/
def seedProducts (usd : Nat → F) (now : Time) : List (Product F) :=
  [⟨"prod-001", "Wireless Headphones", "Noise-cancelling over-ear headphones", usd 7999,
      "electronics", now, now⟩,
    ⟨"prod-002", "Mechanical Keyboard", "TKL layout with Cherry MX switches", usd 12999,
      "electronics", now, now⟩,
    ⟨"prod-003", "Standing Desk Mat", "Anti-fatigue mat for standing desks", usd 4999,
      "office", now, now⟩,
    ⟨"prod-004", "USB-C Hub", "7-in-1 USB-C hub with HDMI and PD", usd 3999,
      "electronics", now, now⟩,
    ⟨"prod-005", "Notebook (A5)", "Dotted grid, 200 pages", usd 1299, "office", now, now⟩,
    ⟨"prod-006", "Laptop Backpack", "Water-resistant 30L backpack", usd 8999, "bags", now, now⟩,
    ⟨"prod-007", "Monitor Light Bar", "Screenbar clip-on monitor light", usd 5999,
      "electronics", now, now⟩,
    ⟨"prod-008", "Cable Management Box", "Hide power strips and cables cleanly", usd 2499,
      "office", now, now⟩,
    ⟨"prod-009", "Webcam 1080p", "Autofocus webcam with privacy cover", usd 6999,
      "electronics", now, now⟩,
    ⟨"prod-010", "Desk Plant (Small)", "Low-maintenance succulent", usd 1499, "decor", now, now⟩]

/-- `migrate`, at transaction time `now`. -/
def migrate (usd : Nat → F) (now : Time) (c : Catalogue F) : Catalogue F :=
  (seedProducts usd now).foldl Catalogue.insertNew c

/-- **The first migration gives all products one time.** -/
theorem createdAt_migrate (usd : Nat → F) (now : Time) :
    ∀ p ∈ (migrate usd now Catalogue.empty).rows, p.createdAt = now := by
  have hseed : ∀ p ∈ seedProducts usd now, p.createdAt = now := by simp [seedProducts]
  refine List.foldlRecOn (motive := fun c : Catalogue F => ∀ p ∈ c.rows, p.createdAt = now)
    (seedProducts usd now) Catalogue.insertNew (b := Catalogue.empty)
    (fun p hp => absurd hp List.not_mem_nil) ?_
  intro c hc p hp q hq
  cases Catalogue.mem_rows_insertNew hq with
  | inl hnew => exact hnew ▸ hseed p hp
  | inr hold => exact hc q hold

/-- The order of one query. -/
abbrev ListOrder (c : Catalogue F) := QueryOrder Product.createdAt c.rows

/-- Where a call of `ListProducts` fails, with the text of the error below. -/
inductive ListFault
  | count (cause : String)
  | query (cause : String)
  | scan (cause : String)
  /-- `rows.Err()`. -/
  | rows (cause : String)

def ListFault.error : ListFault → DbError
  | .count cause => .failed ("db: count products: " ++ cause)
  | .query cause => .failed ("db: list products: " ++ cause)
  | .scan cause => .failed ("db: scan product: " ++ cause)
  | .rows cause => .failed cause

/-- `ListProducts`: a page, and the number of all products. -/
def listProducts (c : Catalogue F) (order : ListOrder c) (fault : Option ListFault)
    (page pageSize : Int) : Except DbError (List (Product F) × Int) :=
  match fault with
  | some fault => .error fault.error
  | none =>
      let offset := int64 ((page - 1) * pageSize)
      if offset < 0 then
        .error (ListFault.rows "ERROR: OFFSET must not be negative (SQLSTATE 2201X)").error
      else .ok (limitOffset pageSize.toNat offset.toNat order.listed, c.table.len)

end Db

/-! ## The API layer -/

namespace Api

open Go

structure ProductListResponse (F : Type) where
  products : List (Product F)
  page : Int
  pageSize : Int
  totalCount : Int
  deriving DecidableEq, Repr

/-- `queryInt`, with the value of the parameter; it is empty if the parameter is missing. -/
def queryInt (s : Text) (defaultVal : Int) : Int :=
  if s = [] then defaultVal else (atoi s).getD defaultVal

/-- The page that a request is for. -/
def pageOf (page : Text) : Int :=
  if queryInt page 1 < 1 then 1 else queryInt page 1

/-- The size of the pages that a request is for. -/
def pageSizeOf (pageSize : Text) : Int :=
  let n := if queryInt pageSize 20 < 1 then 1 else queryInt pageSize 20
  if n > 100 then 100 else n

variable {F : Type}

/-- The handler of `GET /products`, with the two parameters.  It answers 200 unless there is an
error. -/
def listProducts (c : Db.Catalogue F) (order : Db.ListOrder c) (fault : Option Db.ListFault)
    (page pageSize : Text) : Except HttpError (ProductListResponse F) :=
  match Db.listProducts c order fault (pageOf page) (pageSizeOf pageSize) with
  | .error _ => .error ⟨503, "service temporarily unavailable"⟩
  | .ok (products, total) =>
      .ok { products := products.map dbToAPIProduct, page := pageOf page
            pageSize := pageSizeOf pageSize, totalCount := total }

/-! ## The parameters -/

/-- A page is at least one, whatever the text. -/
theorem one_le_pageOf (page : Text) : 1 ≤ pageOf page := by
  unfold pageOf
  split <;> omega

/-- A page size is between 1 and 100, whatever the text. -/
theorem pageSizeOf_range (pageSize : Text) :
    1 ≤ pageSizeOf pageSize ∧ pageSizeOf pageSize ≤ 100 := by
  simp only [pageSizeOf]
  split <;> split <;> omega

/-- A page is read back from its text, in 64 bits. -/
theorem pageOf_formatInt {n : Int} (hmin : 1 ≤ n) (hmax : n < 2 ^ 63) :
    pageOf (formatInt n) = n := by
  have hquery : queryInt (formatInt n) 1 = n := by
    rw [queryInt, if_neg (formatInt_ne_nil n), atoi_formatInt (by omega) hmax, Option.getD_some]
  rw [pageOf, hquery, if_neg (by omega)]

/-- The offset of the page that a request is for. -/
def offsetOf (page pageSize : Text) : Int := (pageOf page - 1) * pageSizeOf pageSize

/-- An offset is not negative. -/
theorem offsetOf_nonneg (page pageSize : Text) : 0 ≤ offsetOf page pageSize := by
  have hpage := one_le_pageOf page
  have hsize := (pageSizeOf_range pageSize).1
  exact Int.mul_nonneg (by omega) (by omega)

/-- The offset that the query is given: it is computed in 64-bit integers. -/
def askedOffset (page pageSize : Text) : Int := int64 (offsetOf page pageSize)

/-- An offset only gets smaller by wrapping. -/
theorem askedOffset_le (page pageSize : Text) :
    askedOffset page pageSize ≤ offsetOf page pageSize :=
  int64_le (offsetOf_nonneg page pageSize)

/-! ## The pages -/

/-- The response that lists the part of `listed` at an offset. -/
def responseAt (c : Db.Catalogue F) (listed : List (Db.Product F)) (offset : Int)
    (page pageSize : Text) : ProductListResponse F where
  products := (limitOffset (pageSizeOf pageSize).toNat offset.toNat listed).map dbToAPIProduct
  page := pageOf page
  pageSize := pageSizeOf pageSize
  totalCount := c.table.len

/-- **The page that a request is for**: it begins at `(page - 1) * pageSize`. -/
def pageResponse (c : Db.Catalogue F) (listed : List (Db.Product F)) (page pageSize : Text) :
    ProductListResponse F :=
  responseAt c listed (offsetOf page pageSize) page pageSize

/-- What a request is answered, from the offset that its query is given. -/
theorem listProducts_eq (c : Db.Catalogue F) (order : Db.ListOrder c) (page pageSize : Text) :
    listProducts c order none page pageSize =
      if askedOffset page pageSize < 0 then .error ⟨503, "service temporarily unavailable"⟩
      else .ok (responseAt c order.listed (askedOffset page pageSize) page pageSize) := by
  have hoffset : int64 ((pageOf page - 1) * pageSizeOf pageSize) = askedOffset page pageSize := rfl
  simp only [listProducts, Db.listProducts, hoffset]
  by_cases hneg : askedOffset page pageSize < 0
  · simp only [if_pos hneg]
  · simp only [if_neg hneg, responseAt]

/-- **A request with a good offset**: the query is given no negative one, and it is the offset
of the page or, like that one, past the end. -/
def OffsetOk (c : Db.Catalogue F) (page pageSize : Text) : Prop :=
  0 ≤ askedOffset page pageSize ∧
    (askedOffset page pageSize = offsetOf page pageSize ∨
      (c.rows.length : Int) ≤ askedOffset page pageSize)

/-- Different rows are different products. -/
theorem dbToAPIProduct_injective : Function.Injective (dbToAPIProduct (F := F)) := by
  intro p q h
  cases p
  cases q
  simpa [dbToAPIProduct] using h

/-- Two parts of the list are the same response only if they list the same rows. -/
theorem responseAt_eq_iff {c : Db.Catalogue F} {listed : List (Db.Product F)}
    (hperm : listed.Perm c.rows) {a b : Int} (ha : 0 ≤ a) (hb : 0 ≤ b) (page pageSize : Text) :
    responseAt c listed a page pageSize = responseAt c listed b page pageSize ↔
      a = b ∨ (c.rows.length : Int) ≤ a ∧ (c.rows.length : Int) ≤ b := by
  have hsize := (pageSizeOf_range pageSize).1
  have hlimit : 0 < (pageSizeOf pageSize).toNat := by omega
  have hrows := limitOffset_eq_iff hlimit (hperm.nodup_iff.mpr c.nodup_rows)
    (a := a.toNat) (b := b.toNat)
  have hlength := hperm.length_eq
  have hproducts : responseAt c listed a page pageSize = responseAt c listed b page pageSize ↔
      limitOffset (pageSizeOf pageSize).toNat a.toNat listed =
        limitOffset (pageSizeOf pageSize).toNat b.toNat listed := by
    constructor
    · intro hsame
      exact List.map_injective_iff.mpr dbToAPIProduct_injective
        (congrArg ProductListResponse.products hsame)
    · intro hsame
      rw [responseAt, responseAt, hsame]
  rw [hproducts, hrows]
  omega

/-- **When a request is answered right**: it gets its page of the list that its query follows
exactly if its offset is good. -/
theorem listProducts_eq_iff (c : Db.Catalogue F) (order : Db.ListOrder c) (page pageSize : Text) :
    listProducts c order none page pageSize = .ok (pageResponse c order.listed page pageSize) ↔
      OffsetOk c page pageSize := by
  rw [listProducts_eq, OffsetOk]
  by_cases hneg : askedOffset page pageSize < 0
  · rw [if_pos hneg]
    constructor
    · intro herror
      cases herror
    · intro hok
      exact absurd hneg (Int.not_lt.mpr hok.1)
  · have hle := askedOffset_le page pageSize
    have hiff := responseAt_eq_iff order.perm (Int.not_lt.mp hneg)
      (offsetOf_nonneg page pageSize) page pageSize
    rw [if_neg hneg, Except.ok.injEq, pageResponse, hiff]
    omega

/-- An offset below `2 ^ 63` does not wrap. -/
theorem offsetOk_of_lt (c : Db.Catalogue F) {page pageSize : Text}
    (h : offsetOf page pageSize < 2 ^ 63) : OffsetOk c page pageSize := by
  have hnonneg := offsetOf_nonneg page pageSize
  have hasked : askedOffset page pageSize = offsetOf page pageSize := by
    unfold askedOffset int64
    omega
  exact ⟨hasked ▸ hnonneg, Or.inl hasked⟩

/-- **One list for all requests** with a good offset. -/
def Paginates (c : Db.Catalogue F) : Prop :=
  ∃ listed : List (Db.Product F), listed.Perm c.rows ∧
    ∀ page pageSize : Text, OffsetOk c page pageSize → ∀ order : Db.ListOrder c,
      listProducts c order none page pageSize = .ok (pageResponse c listed page pageSize)

/-- Pages of size one show every row of the list. -/
theorem distinct_of_paginates {c : Db.Catalogue F} (hfew : c.rows.length < 2 ^ 63)
    (h : Paginates c) : (c.rows.map Db.Product.createdAt).Nodup := by
  obtain ⟨listed, hperm, hpages⟩ := h
  have hone : pageSizeOf "1".toList = 1 := by decide
  have hall : ∀ order : Db.ListOrder c, order.listed = listed := by
    intro order
    have hlength : order.listed.length = c.rows.length := order.perm.length_eq
    refine List.ext_getElem (hlength.trans hperm.length_eq.symm) ?_
    intro i hi hi'
    have hpage : pageOf (formatInt (i + 1)) = i + 1 := pageOf_formatInt (by omega) (by omega)
    have hoffset : offsetOf (formatInt (i + 1)) "1".toList = i := by
      rw [offsetOf, hpage, hone]
      omega
    have hok : OffsetOk c (formatInt (i + 1)) "1".toList := offsetOk_of_lt c (by omega)
    have hsame := hpages (formatInt (i + 1)) "1".toList hok order
    rw [(listProducts_eq_iff c order _ _).mpr hok] at hsame
    have hproducts := congrArg ProductListResponse.products (Except.ok.inj hsame)
    simp only [pageResponse, responseAt, hoffset, hone] at hproducts
    have hrows := List.map_injective_iff.mpr dbToAPIProduct_injective hproducts
    simpa [limitOffset, List.take_one, List.head?_drop, hi, hi'] using hrows
  exact QueryOrder.nodup_keys_of_listed_eq c.nodup_rows fun o o' => (hall o).trans (hall o').symm

/-- The products that a reply lists. -/
def listedProducts : Except HttpError (ProductListResponse F) → List (Product F)
  | .error _ => []
  | .ok resp => resp.products

/-- The pages of a list, one after the other, are the list. -/
theorem flatMap_pageResponse (c : Db.Catalogue F) (listed : List (Db.Product F)) (pageSize : Text)
    {n : Nat} (hn : n < 2 ^ 63) :
    ((List.range n).flatMap fun i : Nat =>
        (pageResponse c listed (formatInt (i + 1)) pageSize).products) =
      (listed.take (n * (pageSizeOf pageSize).toNat)).map dbToAPIProduct := by
  have hsize := (pageSizeOf_range pageSize).1
  have hpages : ∀ i ∈ List.range n,
      (pageResponse c listed (formatInt (i + 1)) pageSize).products =
        (limitOffset (pageSizeOf pageSize).toNat (i * (pageSizeOf pageSize).toNat) listed).map
          dbToAPIProduct := by
    intro i hi
    have hi := List.mem_range.mp hi
    have hpage : pageOf (formatInt (i + 1)) = i + 1 := pageOf_formatInt (by omega) (by omega)
    have hoffset : offsetOf (formatInt (i + 1)) pageSize =
        ((i * (pageSizeOf pageSize).toNat : Nat) : Int) := by
      rw [offsetOf, hpage, Int.natCast_mul, Int.toNat_of_nonneg (by omega)]
      congr 1
      omega
    rw [pageResponse, responseAt, hoffset, Int.toNat_natCast]
  rw [List.flatMap_congr hpages, ← List.map_flatMap, flatMap_page]

/-- **The pages together list every product once**, whatever the order that each query
follows. -/
theorem pages_cover {c : Db.Catalogue F} {listed : List (Db.Product F)}
    (hperm : listed.Perm c.rows)
    (hpages : ∀ (page pageSize : Text) (order : Db.ListOrder c), OffsetOk c page pageSize →
      listProducts c order none page pageSize = .ok (pageResponse c listed page pageSize))
    (pageSize : Text) {n : Nat} (hn : n < 2 ^ 63)
    (hall : c.rows.length ≤ n * (pageSizeOf pageSize).toNat)
    (hoffsets : ∀ i, i < n → OffsetOk c (formatInt (i + 1)) pageSize)
    (orders : Nat → Db.ListOrder c) :
    ((List.range n).flatMap fun i =>
        listedProducts (listProducts c (orders i) none (formatInt (i + 1)) pageSize)).Perm
      (c.rows.map dbToAPIProduct) := by
  have hright : ∀ i ∈ List.range n,
      listedProducts (listProducts c (orders i) none (formatInt (i + 1)) pageSize) =
        (pageResponse c listed (formatInt (i + 1)) pageSize).products := by
    intro i hi
    rw [hpages _ _ (orders i) (hoffsets i (List.mem_range.mp hi)), listedProducts]
  rw [List.flatMap_congr hright, flatMap_pageResponse c listed pageSize hn,
    List.take_of_length_le (hperm.length_eq ▸ hall)]
  exact hperm.map dbToAPIProduct

/-- **When the pages fit together.**  If the products were created at distinct times, there
is one list of them of which every request gets its page exactly if its offset is good, and
consecutive pages with good offsets list every product once.  If two were created at one
time, no list will do for all requests with good offsets. -/
theorem pagination_partitions (c : Db.Catalogue F) :
    ((c.rows.map Db.Product.createdAt).Nodup →
      ∃ listed : List (Db.Product F), listed.Perm c.rows ∧
        (∀ (page pageSize : Text) (order : Db.ListOrder c),
          listProducts c order none page pageSize =
              .ok (pageResponse c listed page pageSize) ↔
            OffsetOk c page pageSize) ∧
        ∀ (pageSize : Text) (n : Nat), n < 2 ^ 63 →
          c.rows.length ≤ n * (pageSizeOf pageSize).toNat →
          (∀ i, i < n → OffsetOk c (formatInt (i + 1)) pageSize) →
          ∀ orders : Nat → Db.ListOrder c,
            ((List.range n).flatMap fun i =>
                listedProducts (listProducts c (orders i) none (formatInt (i + 1)) pageSize)).Perm
              (c.rows.map dbToAPIProduct)) ∧
    (c.rows.length < 2 ^ 63 → Paginates c → (c.rows.map Db.Product.createdAt).Nodup) := by
  refine ⟨?_, distinct_of_paginates⟩
  intro hdistinct
  let order : Db.ListOrder c := QueryOrder.bySort _ _
  have hiff : ∀ (page pageSize : Text) (order' : Db.ListOrder c),
      listProducts c order' none page pageSize =
          .ok (pageResponse c order.listed page pageSize) ↔ OffsetOk c page pageSize := by
    intro page pageSize order'
    rw [← QueryOrder.listed_eq hdistinct order' order]
    exact listProducts_eq_iff c order' page pageSize
  refine ⟨order.listed, order.perm, hiff, ?_⟩
  intro pageSize n hn hall hoffsets orders
  exact pages_cover order.perm (fun page pageSize order' => (hiff page pageSize order').mpr)
    pageSize hn hall hoffsets orders

/-- A list of rows of one time, in the order it has. -/
def sameTimeOrder {c : Db.Catalogue F} {now : Time} (hnow : ∀ p ∈ c.rows, p.createdAt = now)
    (listed : List (Db.Product F)) (hperm : listed.Perm c.rows) : Db.ListOrder c where
  listed := listed
  perm := hperm
  sorted := by
    have hlisted : ∀ p ∈ listed, p.createdAt = now := fun p hp => hnow p (hperm.mem_iff.mp hp)
    refine List.pairwise_of_forall_mem_list ?_
    intro a ha b hb
    rw [hlisted a ha, hlisted b hb]

/-- The table after the first migration, with prices in cents. -/
def seeded : Db.Catalogue Nat := Db.migrate id 0 Db.Catalogue.empty

/-- **The seeded products**: a product that page 1 lists can be on page 10 as well.  A huge
page number is refused, or answered with the first page. -/
theorem seeded_pages_overlap :
    ∃ o o' : Db.ListOrder seeded,
      listedProducts (listProducts seeded o none "1".toList "1".toList) ≠ [] ∧
      listedProducts (listProducts seeded o none "1".toList "1".toList) =
        listedProducts (listProducts seeded o' none "10".toList "1".toList) ∧
      listProducts seeded o none "4611686018427387905".toList "2".toList =
        .error ⟨503, "service temporarily unavailable"⟩ ∧
      listedProducts (listProducts seeded o none "4611686018427387905".toList "4".toList) =
        listedProducts (listProducts seeded o none "1".toList "4".toList) := by
  refine ⟨sameTimeOrder (c := seeded) (Db.createdAt_migrate id 0) _ (List.Perm.refl _),
    sameTimeOrder (c := seeded) (Db.createdAt_migrate id 0) _ (List.reverse_perm _),
    ?_, ?_, ?_, ?_⟩
  · decide
  · decide
  · rfl
  · decide

end Api
