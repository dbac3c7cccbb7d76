import DistributedCaching.CacheAside
import DistributedCaching.GoJson
import DistributedCaching.TokenEncoding

/-!
# Products as JSON

The JSON of products and of update requests, as the struct tags of package `api` have it.
How a price and a time are written is a parameter, `Formats`: it may refuse a value, as
`encoding/json` refuses an infinite price and a year beyond 9999, and what it writes it
reads back.  A time is read from the string literal as it stands in the text, since
`Time.UnmarshalJSON` is handed the raw text and undoes no escape sequences.

A product that is written is read back as it was, from the bytes in the cache
(`unmarshal_marshal`) and from a response body (`decodeProduct_print`).
-/

namespace Go

/-- The text that bytes encode. -/
def decodeUtf8 (b : Bytes) : Option Text := (String.fromUTF8? ⟨b.toArray⟩).map String.toList

/-- A text is decoded from its bytes. -/
theorem decodeUtf8_utf8 (s : Text) : decodeUtf8 (utf8 s) = some s := by
  have harray : (⟨(utf8 s).toArray⟩ : ByteArray) = (String.ofList s).toUTF8 := by simp [utf8]
  have hread : String.fromUTF8? (String.ofList s).toUTF8 = some (String.ofList s) := by
    rw [String.fromUTF8?]
    exact dif_pos (String.ofList s).isValidUTF8
  rw [decodeUtf8, harray, hread, Option.map_some, String.toList_ofList]

end Go

namespace Api

open Go Json

/-- How prices and times are written and read. -/
structure Formats (F : Type) where
  writePrice : F → Option Text
  readPrice : Text → Option F
  writeTime : Time → Option Text
  readTime : Text → Option Time
  /-- The price and the time of a struct that nothing was decoded into. -/
  zeroPrice : F
  zeroTime : Time
  isNumber_price : ∀ {x s}, writePrice x = some s → isNumber s = true
  isLiteral_time : ∀ {t s}, writeTime t = some s → isLiteral s = true
  read_price : ∀ {x s}, writePrice x = some s → readPrice s = some x
  read_time : ∀ {t s}, writeTime t = some s → readTime s = some t

section Decoding

variable {F : Type} (formats : Formats F)

/-- A value decoded into a field of type `float64`. -/
def decodePrice (v : Value) (current : F) : Option F :=
  match v with
  | .null => some current
  | .number literal => formats.readPrice literal
  | _ => none

/-- `Time.UnmarshalJSON`, which reads what stands between the quotes as it is. -/
def decodeTime (v : Value) (current : Time) : Option Time :=
  match v with
  | .null => some current
  | .string literal => formats.readTime literal
  | _ => none

/-- A value decoded into a pointer: `null` makes it nil, and anything else is decoded into
what it points to. -/
def decodePointer {α : Type} (decode : Value → α → Option α) (zero : α) (v : Value)
    (current : Option α) : Option (Option α) :=
  match v with
  | .null => some none
  | v => (decode v (current.getD zero)).map some

/-- A product that nothing was decoded into. -/
def zeroProduct : Product F where
  id := ""
  name := ""
  description := ""
  priceUSD := formats.zeroPrice
  category := ""
  createdAt := formats.zeroTime
  updatedAt := formats.zeroTime

/-- The fields of a product. -/
def productFields : Fields (Product F) :=
  [("id".toList, decodeField (·.id) (fun p x => { p with id := x }) decodeString),
    ("name".toList, decodeField (·.name) (fun p x => { p with name := x }) decodeString),
    ("description".toList,
      decodeField (·.description) (fun p x => { p with description := x }) decodeString),
    ("price_usd".toList,
      decodeField (·.priceUSD) (fun p x => { p with priceUSD := x }) (decodePrice formats)),
    ("category".toList,
      decodeField (·.category) (fun p x => { p with category := x }) decodeString),
    ("created_at".toList,
      decodeField (·.createdAt) (fun p x => { p with createdAt := x }) (decodeTime formats)),
    ("updated_at".toList,
      decodeField (·.updatedAt) (fun p x => { p with updatedAt := x }) (decodeTime formats))]

/-- The fields of an update request. -/
def updateFields : Fields (ProductUpdateRequest F) :=
  [("name".toList,
      decodeField (·.name) (fun req x => { req with name := x }) (decodePointer decodeString "")),
    ("description".toList,
      decodeField (·.description) (fun req x => { req with description := x })
        (decodePointer decodeString "")),
    ("price_usd".toList,
      decodeField (·.priceUSD) (fun req x => { req with priceUSD := x })
        (decodePointer (decodePrice formats) formats.zeroPrice)),
    ("category".toList,
      decodeField (·.category) (fun req x => { req with category := x })
        (decodePointer decodeString ""))]

/-- The body of a `POST /products`. -/
def decodeProduct (body : Text) : Option (Product F) :=
  decodeStream (productFields formats) (zeroProduct formats) body

/-- The body of a `PUT /products/{id}`. -/
def decodeUpdate (body : Text) : Option (ProductUpdateRequest F) :=
  decodeStream (updateFields formats) ⟨none, none, none, none⟩ body

/-! ## Encoding -/

/-- A product as a JSON value, unless its price or one of its times is refused. -/
def productValue (p : Product F) : Option Value := do
  let price ← formats.writePrice p.priceUSD
  let created ← formats.writeTime p.createdAt
  let updated ← formats.writeTime p.updatedAt
  return .object [("id".toList, .text p.id.toList), ("name".toList, .text p.name.toList),
    ("description".toList, .text p.description.toList), ("price_usd".toList, .number price),
    ("category".toList, .text p.category.toList), ("created_at".toList, .string created),
    ("updated_at".toList, .string updated)]

/-- `json.Marshal` and `json.Unmarshal` for products. -/
def productCodec : Codec F where
  marshal p := (productValue formats p).map fun v => utf8 (print v)
  unmarshal b := (decodeUtf8 b).bind (unmarshal (productFields formats) (zeroProduct formats))

/-! ## The round trip -/

variable {formats}

/-- A product's value is well formed. -/
theorem valid_productValue {p : Product F} {v : Value} (h : productValue formats p = some v) :
    v.Valid ∧ v.depth ≤ maxNestingDepth := by
  obtain ⟨price, hprice, h⟩ := Option.bind_eq_some_iff.mp h
  obtain ⟨created, hcreated, h⟩ := Option.bind_eq_some_iff.mp h
  obtain ⟨updated, hupdated, h⟩ := Option.bind_eq_some_iff.mp h
  cases h
  refine ⟨⟨isLiteral_escape _, isLiteral_escape _, isLiteral_escape _,
    formats.isNumber_price hprice, isLiteral_escape _, formats.isLiteral_time hcreated,
    formats.isLiteral_time hupdated, trivial⟩, ?_⟩
  exact show 1 ≤ 10000 by decide

/-- A product's value decodes to the product. -/
theorem decodeStruct_productValue {p : Product F} {v : Value} (h : productValue formats p = some v) :
    decodeStruct (productFields formats) (zeroProduct formats) v = some p := by
  obtain ⟨price, hprice, h⟩ := Option.bind_eq_some_iff.mp h
  obtain ⟨created, hcreated, h⟩ := Option.bind_eq_some_iff.mp h
  obtain ⟨updated, hupdated, h⟩ := Option.bind_eq_some_iff.mp h
  cases h
  have hid (r ms) : decodeMembers (productFields formats) r
      (("id".toList, .text p.id.toList) :: ms) =
      decodeMembers (productFields formats) { r with id := p.id } ms := by
    refine decodeMembers_field rfl ?_ ms
    exact decodeField_eq (decodeString_text p.id _)
  have hname (r ms) : decodeMembers (productFields formats) r
      (("name".toList, .text p.name.toList) :: ms) =
      decodeMembers (productFields formats) { r with name := p.name } ms := by
    refine decodeMembers_field rfl ?_ ms
    exact decodeField_eq (decodeString_text p.name _)
  have hdescription (r ms) : decodeMembers (productFields formats) r
      (("description".toList, .text p.description.toList) :: ms) =
      decodeMembers (productFields formats) { r with description := p.description } ms := by
    refine decodeMembers_field rfl ?_ ms
    exact decodeField_eq (decodeString_text p.description _)
  have hprice (r ms) : decodeMembers (productFields formats) r
      (("price_usd".toList, .number price) :: ms) =
      decodeMembers (productFields formats) { r with priceUSD := p.priceUSD } ms := by
    refine decodeMembers_field rfl ?_ ms
    exact decodeField_eq (formats.read_price hprice)
  have hcategory (r ms) : decodeMembers (productFields formats) r
      (("category".toList, .text p.category.toList) :: ms) =
      decodeMembers (productFields formats) { r with category := p.category } ms := by
    refine decodeMembers_field rfl ?_ ms
    exact decodeField_eq (decodeString_text p.category _)
  have hcreated (r ms) : decodeMembers (productFields formats) r
      (("created_at".toList, .string created) :: ms) =
      decodeMembers (productFields formats) { r with createdAt := p.createdAt } ms := by
    refine decodeMembers_field rfl ?_ ms
    exact decodeField_eq (formats.read_time hcreated)
  have hupdated (r ms) : decodeMembers (productFields formats) r
      (("updated_at".toList, .string updated) :: ms) =
      decodeMembers (productFields formats) { r with updatedAt := p.updatedAt } ms := by
    refine decodeMembers_field rfl ?_ ms
    exact decodeField_eq (formats.read_time hupdated)
  rw [decodeStruct, hid, hname, hdescription, hprice, hcategory, hcreated, hupdated]
  rfl

/-- The cache reads the bytes of a product as the product. -/
theorem unmarshal_marshal {p : Product F} {b : Bytes}
    (h : (productCodec formats).marshal p = some b) :
    (productCodec formats).unmarshal b = some p := by
  obtain ⟨v, hv, rfl⟩ := Option.map_eq_some_iff.mp h
  obtain ⟨hvalid, hdepth⟩ := valid_productValue hv
  have hread := unmarshal_print hvalid hdepth (decodeStruct_productValue hv)
  simp only [productCodec, decodeUtf8_utf8, Option.bind_some, hread]

/-- No bytes are no product. -/
theorem unmarshal_nil : (productCodec formats).unmarshal [] = none := by
  have hempty : decodeUtf8 [] = some [] := decodeUtf8_utf8 []
  simp only [productCodec, hempty, Option.bind_some]
  rfl

/-- A client reads the text of a product as the product, whatever comes after it. -/
theorem decodeProduct_print {p : Product F} {v : Value} (h : productValue formats p = some v)
    {rest : Text} (hrest : Delimited rest) :
    decodeProduct formats (print v ++ rest) = some p := by
  obtain ⟨hvalid, hdepth⟩ := valid_productValue h
  exact decodeStream_print hvalid hdepth (decodeStruct_productValue h) hrest

end Decoding

end Api
