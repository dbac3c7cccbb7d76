import Mathlib.Algebra.Group.Int.Defs
import Mathlib.Data.List.AList
import Mathlib.Order.Defs.LinearOrder
import Mathlib.Tactic.Common

/-!
# The parts of the Go runtime the services rely on

Instants and durations are integers counting nanoseconds.  The origin of
instants is Go's zero `time.Time`, so that `IsZero` is equality with `0`; the
comparison methods are those of the integers.

A Go `map` is an association list without repeated keys (`AList`).  Go leaves
the order of a map unspecified; no modelled function depends on it, and
theorems about the keys of a map speak of permutations.
-/

namespace Go

/-- `time.Time`: nanoseconds since the zero instant. -/
abbrev Time := Int

/-- `time.Duration`: nanoseconds. -/
abbrev Duration := Int

/-- `time.Second`. -/
def second : Duration := 1000000000

/-- `time.Millisecond`. -/
def millisecond : Duration := 1000000

/-- `time.Minute`. -/
def minute : Duration := 60 * second

/-- `t.IsZero()`. -/
def Time.isZero (t : Time) : Bool := t == 0

/-- `t.After(u)`. -/
def Time.after (t u : Time) : Bool := decide (u < t)

/-- `[]byte`. -/
abbrev Bytes := List UInt8

/-- `x++` on an `int64`: the largest value wraps to the smallest. -/
def incInt64 (x : Int) : Int :=
  if x = 2 ^ 63 - 1 then -2 ^ 63 else x + 1

/-- Below the largest `int64` an increment is an increment. -/
theorem incInt64_of_lt {x : Int} (h : x + 1 < 2 ^ 63) : incInt64 x = x + 1 := by
  have hne : x ≠ 2 ^ 63 - 1 := by omega
  rw [incInt64, if_neg hne]

/-- The numeric order of `uint32`. -/
instance linearOrderUInt32 : LinearOrder UInt32 where
  le_refl := UInt32.le_refl
  le_trans _ _ _ := UInt32.le_trans
  le_antisymm _ _ := UInt32.le_antisymm
  le_total := UInt32.le_total
  lt_iff_le_not_ge a b := by
    simp only [UInt32.le_iff_toNat_le, UInt32.lt_iff_toNat_lt]
    omega
  toDecidableLE := inferInstance

/-- A Go map from keys `κ` to values `ν`. -/
abbrev GoMap (κ ν : Type*) := AList fun _ : κ => ν

namespace GoMap

variable {κ ν : Type*} [DecidableEq κ]

/-- `m[k]` for a missing key is the zero value of the value type. -/
def getZero [Inhabited ν] (m : GoMap κ ν) (k : κ) : ν := (m.lookup k).getD default

/-- `len(m)`. -/
def len (m : GoMap κ ν) : Nat := m.keys.length

/-- Inserting a new key adds it to the keys. -/
theorem keys_insert_new {m : GoMap κ ν} {k : κ} (v : ν) (h : k ∉ m) :
    (m.insert k v).keys = k :: m.keys := by
  rw [AList.keys_insert, List.erase_of_not_mem (by simpa [AList.mem_keys] using h)]

/-- A new key makes the map one longer. -/
theorem len_insert_new {m : GoMap κ ν} {k : κ} (v : ν) (h : k ∉ m) :
    len (m.insert k v) = len m + 1 := by
  simp [len, keys_insert_new v h]

theorem len_insert_present {m : GoMap κ ν} {k : κ} (v : ν) (h : k ∈ m) :
    len (m.insert k v) = len m := by
  have hk : k ∈ m.keys := AList.mem_keys.mp h
  have hpos : 0 < m.keys.length := List.length_pos_of_mem hk
  simp only [len, AList.keys_insert, List.length_cons, List.length_erase_of_mem hk]
  omega

theorem len_insert_le (m : GoMap κ ν) (k : κ) (v : ν) : len (m.insert k v) ≤ len m + 1 := by
  by_cases hk : k ∈ m
  · rw [len_insert_present v hk]
    exact Nat.le_succ _
  · rw [len_insert_new v hk]

theorem len_erase_present {m : GoMap κ ν} {k : κ} (h : k ∈ m) :
    len (m.erase k) + 1 = len m := by
  have hk : k ∈ m.keys := AList.mem_keys.mp h
  have hpos : 0 < m.keys.length := List.length_pos_of_mem hk
  simp only [len, AList.keys_erase, List.length_erase_of_mem hk]
  omega

/-- A key is there exactly if its lookup finds a value. -/
theorem mem_iff_lookup {m : GoMap κ ν} {k : κ} :
    k ∈ m ↔ ∃ v, m.lookup k = some v := by
  rw [← AList.lookup_isSome, Option.isSome_iff_exists]

/-- A loop that writes to a map: a key has the value of an element that was written under
it, or none was and it is as before. -/
theorem lookup_foldl_insert {α : Type*} (key : α → κ) (value : α → ν) (l : List α)
    (m : GoMap κ ν) (k : κ) :
    (∃ x ∈ l, key x = k ∧
      (l.foldl (fun m x => m.insert (key x) (value x)) m).lookup k = some (value x)) ∨
    ((∀ x ∈ l, key x ≠ k) ∧
      (l.foldl (fun m x => m.insert (key x) (value x)) m).lookup k = m.lookup k) := by
  induction l generalizing m with
  | nil => exact Or.inr ⟨fun _ hx => absurd hx List.not_mem_nil, rfl⟩
  | cons x l ih =>
      rw [List.foldl_cons]
      rcases ih (m.insert (key x) (value x)) with ⟨y, hy, hkey, hlookup⟩ | ⟨hnone, hlookup⟩
      · exact Or.inl ⟨y, List.mem_cons_of_mem _ hy, hkey, hlookup⟩
      · by_cases hx : key x = k
        · refine Or.inl ⟨x, List.mem_cons_self, hx, ?_⟩
          rw [hlookup, ← hx, AList.lookup_insert]
        · refine Or.inr ⟨?_, ?_⟩
          · intro y hy
            rcases List.mem_cons.mp hy with rfl | hy
            · exact hx
            · exact hnone y hy
          · rw [hlookup, AList.lookup_insert_ne (Ne.symm hx)]

end GoMap

end Go
