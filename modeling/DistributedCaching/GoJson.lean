import DistributedCaching.GoText
import DistributedCaching.JsonText

/-!
# `encoding/json` for structs

How Go decodes a JSON value into the fields of a struct: keys are compared without
regard to case, `null` leaves a field as it is, a value of another kind is an error, and
members that no field is named after are ignored.  `Unmarshal` reads a text that holds
one value; a `Decoder` reads the first value of a stream.  Neither reads a value with more
than 10000 arrays and objects inside each other.

A struct is the table of its `Fields`, which says for each name how a value is decoded into
the field.  A written object is decoded one member at a time (`decodeMembers_field`).
-/

namespace Go

open Json

/-- The folding of a character under which keys are compared with field names, which are
ASCII: besides the capital letters only the long s and the Kelvin sign fold into ASCII. -/
def foldRune (c : Char) : Char :=
  if c.toNat = 0x17F then 's' else if c.toNat = 0x212A then 'k' else c.toLower

def foldName (key : Text) : Text := key.map foldRune

/-- A value decoded into a field of type `int64` that holds `current`. -/
def decodeInt64 (v : Value) (current : Int) : Option Int :=
  match v with
  | .null => some current
  | .number literal => atoi literal
  | _ => none

/-- A value decoded into a field of type `string`. -/
def decodeString (v : Value) (current : String) : Option String :=
  match v with
  | .null => some current
  | .string literal => some (String.ofList (unquote literal))
  | _ => none

theorem decodeString_text (s current : String) :
    decodeString (.text s.toList) current = some s := by
  simp [decodeString, Value.text]

/-- A value decoded into a field of type `bool`. -/
def decodeBool (v : Value) (current : Bool) : Option Bool :=
  match v with
  | .null => some current
  | .bool b => some b
  | _ => none

variable {ρ : Type}

/-- The fields of a struct by the names in their tags, folded, and what a value that is decoded into
a field does to the struct. -/
abbrev Fields (ρ : Type) := List (Text × (Value → ρ → Option ρ))

/-- A value decoded into one field of a struct. -/
def decodeField {α : Type} (get : ρ → α) (set : ρ → α → ρ) (decode : Value → α → Option α)
    (v : Value) (r : ρ) : Option ρ :=
  (decode v (get r)).map (set r)

theorem decodeField_eq {α : Type} {get : ρ → α} {set : ρ → α → ρ}
    {decode : Value → α → Option α} {v : Value} {r : ρ} {x : α} (h : decode v (get r) = some x) :
    decodeField get set decode v r = some (set r x) := by
  rw [decodeField, h, Option.map_some]

/-- A member of an object decoded into the field that its key names, if there is one. -/
def Fields.assign (fields : Fields ρ) (r : ρ) (m : Member) : Option ρ :=
  match fields.lookup (foldName m.1) with
  | none => some r
  | some decode => decode m.2 r

/-- The members of an object decoded one after the other. -/
def decodeMembers (fields : Fields ρ) (init : ρ) (members : List Member) : Option ρ :=
  members.foldlM fields.assign init

theorem decodeMembers_cons (fields : Fields ρ) (init : ρ) (m : Member) (ms : List Member) :
    decodeMembers fields init (m :: ms) =
      (fields.assign init m).bind fun r => decodeMembers fields r ms := rfl

/-- **A member that names a field** is decoded into it, and then the others are. -/
theorem decodeMembers_field {fields : Fields ρ} {name : Text} {decode : Value → ρ → Option ρ}
    (hfield : fields.lookup (foldName name) = some decode) {v : Value} {r r' : ρ}
    (h : decode v r = some r') (ms : List Member) :
    decodeMembers fields r ((name, v) :: ms) = decodeMembers fields r' ms := by
  rw [decodeMembers_cons, Fields.assign]
  simp only [hfield, h, Option.bind_some]

/-- What every field keeps is kept by a member. -/
theorem Fields.assign_invariant {fields : Fields ρ} {I : ρ → Prop}
    (hkeep : ∀ f ∈ fields, ∀ v r r', I r → f.2 v r = some r' → I r') {r r' : ρ} {m : Member}
    (hr : I r) (h : fields.assign r m = some r') : I r' := by
  unfold Fields.assign at h
  split at h
  · cases h
    exact hr
  · rename_i decode hfield
    obtain ⟨before, after, rfl, _⟩ := List.lookup_eq_some_iff.mp hfield
    exact hkeep (foldName m.1, decode) (by simp) m.2 r r' hr h

/-- What every field keeps holds of the struct in the end. -/
theorem decodeMembers_invariant {fields : Fields ρ} {I : ρ → Prop}
    (hkeep : ∀ f ∈ fields, ∀ v r r', I r → f.2 v r = some r' → I r') {init r : ρ}
    {ms : List Member} (hinit : I init) (h : decodeMembers fields init ms = some r) : I r := by
  induction ms generalizing init with
  | nil =>
      cases h
      exact hinit
  | cons m ms ih =>
      rw [decodeMembers_cons] at h
      obtain ⟨r', hr', hrest⟩ := Option.bind_eq_some_iff.mp h
      exact ih (Fields.assign_invariant hkeep hinit hr') hrest

/-- A value decoded into a struct. -/
def decodeStruct (fields : Fields ρ) (init : ρ) : Value → Option ρ
  | .object members => decodeMembers fields init members
  | .null => some init
  | _ => none

/-- The scanner's `maxNestingDepth`. -/
def maxNestingDepth : Nat := 10000

/-- `json.Unmarshal` into a struct. -/
def unmarshal (fields : Fields ρ) (init : ρ) (data : Text) : Option ρ :=
  (parse maxNestingDepth data).bind (decodeStruct fields init)

/-- `json.NewDecoder(body).Decode` into a struct. -/
def decodeStream (fields : Fields ρ) (init : ρ) (body : Text) : Option ρ :=
  (parseFirst maxNestingDepth body).bind fun (v, _) => decodeStruct fields init v

/-- A struct is unmarshalled from the text it was marshalled to if its members decode. -/
theorem unmarshal_print {fields : Fields ρ} {init r : ρ} {v : Value} (hv : v.Valid)
    (hdepth : v.depth ≤ maxNestingDepth) (hdecode : decodeStruct fields init v = some r) :
    unmarshal fields init (print v) = some r := by
  rw [unmarshal, parse_print _ hv, if_pos hdepth]
  exact hdecode

/-- The same for a stream that starts with the text. -/
theorem decodeStream_print {fields : Fields ρ} {init r : ρ} {v : Value} (hv : v.Valid)
    (hdepth : v.depth ≤ maxNestingDepth) (hdecode : decodeStruct fields init v = some r)
    {rest : Text} (hrest : Delimited rest) :
    decodeStream fields init (print v ++ rest) = some r := by
  rw [decodeStream, parseFirst_print _ hv hrest, if_pos hdepth]
  exact hdecode

/-- What every field keeps holds of a struct that is unmarshalled. -/
theorem unmarshal_invariant {fields : Fields ρ} {I : ρ → Prop}
    (hkeep : ∀ f ∈ fields, ∀ v r r', I r → f.2 v r = some r' → I r') {init r : ρ} {data : Text}
    (hinit : I init) (h : unmarshal fields init data = some r) : I r := by
  obtain ⟨v, _, hv⟩ := Option.bind_eq_some_iff.mp h
  cases v with
  | object members => exact decodeMembers_invariant hkeep hinit hv
  | null =>
      cases hv
      exact hinit
  | _ => cases hv

/-! ## Integers as number literals -/

/-- Digits alone complete a number. -/
theorem completes_digits {s : Text} (h : ∀ c ∈ s, c.isDigit = true) :
    NumberState.digits.completes s = true := by
  induction s with
  | nil => rfl
  | cons c s ih =>
      have hc : c.isDigit = true := h c List.mem_cons_self
      simp only [NumberState.completes, NumberState.next, hc, if_true]
      exact ih fun d hd => h d (List.mem_cons_of_mem _ hd)

/-- The decimal digits of a positive number do not start with a zero. -/
theorem head_toDigits {n : Nat} (hn : 0 < n) :
    ∃ c s, Nat.toDigits 10 n = c :: s ∧ c.isDigit = true ∧ c ≠ '0' := by
  induction n using Nat.strongRecOn with
  | ind n ih =>
      by_cases hlt : n < 10
      · refine ⟨n.digitChar, [], Nat.toDigits_of_lt_base hlt, ?_, ?_⟩
        · simpa [Nat.isDigit_digitChar] using hlt
        · rw [ne_eq, Nat.digitChar_eq_zero]
          omega
      · obtain ⟨c, s, hs, hc, hzero⟩ := ih (n / 10) (by omega) (by omega)
        refine ⟨c, s ++ [(n % 10).digitChar], ?_, hc, hzero⟩
        rw [Nat.toDigits_of_base_le (by decide) (by omega), hs]
        rfl

/-- Digits as `strconv` writes them are a number literal, with or without a sign. -/
theorem completes_toDigits {q : NumberState} (hq : q = .start ∨ q = .sign) (n : Nat) :
    q.completes (Nat.toDigits 10 n) = true := by
  by_cases hn : 0 < n
  · obtain ⟨c, s, hs, hc, hzero⟩ := head_toDigits hn
    have hrest : ∀ d ∈ s, d.isDigit = true := fun d hd =>
      isDigit_of_mem_toDigits (hs ▸ List.mem_cons_of_mem _ hd)
    have hminus : c ≠ '-' := ne_of_isDigit hc (by decide)
    have hdigits := completes_digits hrest
    rcases hq with rfl | rfl <;>
      simp [hs, NumberState.completes, NumberState.next, hc, hzero, hminus, hdigits]
  · obtain rfl : n = 0 := by omega
    rcases hq with rfl | rfl <;> decide

/-- **The decimal text of an integer is a number literal.** -/
theorem isNumber_formatInt (n : Int) : isNumber (formatInt n) = true := by
  unfold formatInt isNumber
  split
  · exact completes_toDigits (Or.inr rfl) n.natAbs
  · exact completes_toDigits (Or.inl rfl) n.natAbs

/-- **The decimal text of a number is a string literal.** -/
theorem isLiteral_toDigits (n : Nat) : isLiteral (Nat.toDigits 10 n) = true := by
  have hread : ∀ s : Text, (∀ c ∈ s, c.isDigit = true) →
      ∃ ps, readPieces (s ++ ['"']) = some (ps, []) := by
    intro s hs
    induction s with
    | nil => exact ⟨[], rfl⟩
    | cons c s ih =>
        obtain ⟨ps, hps⟩ := ih fun d hd => hs d (List.mem_cons_of_mem _ hd)
        have hc : c.isDigit = true := hs c List.mem_cons_self
        have hplain : ¬ c.toNat < 0x20 := by
          have hlow : 48 ≤ c.toNat := (Char.isDigit_iff_toNat.mp hc).1
          omega
        refine ⟨.char c :: ps, ?_⟩
        rw [List.cons_append, readPieces_plain (ne_of_isDigit hc (by decide))
          (ne_of_isDigit hc (by decide)) hplain, hps]
        rfl
  exact isLiteral_iff.mpr (hread _ fun c => isDigit_of_mem_toDigits)

/-- A text that `Atoi` accepts is a number of 64 bits. -/
theorem atoi_range {s : Text} {n : Int} (h : atoi s = some n) : -2 ^ 63 ≤ n ∧ n < 2 ^ 63 := by
  unfold atoi at h
  split at h <;>
    · obtain ⟨m, _, hm⟩ := Option.bind_eq_some_iff.mp h
      split at hm
      · cases hm
        omega
      · cases hm

end Go
