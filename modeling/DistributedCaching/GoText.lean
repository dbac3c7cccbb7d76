import DistributedCaching.GoRuntime
import Mathlib.Algebra.Group.Nat.Defs
import Mathlib.Data.List.Infix

/-!
# Texts and numbers of Go

The functions of `strings` and `strconv` that the services use, on texts as lists
of characters, and the wrapping of `int64`.  `formatInt` and `atoi` are inverse to each
other on the integers of 64 bits (`atoi_formatInt`).
-/

namespace Go

/-- A text. -/
abbrev Text := List Char

/-- `strings.Contains(s, sub)`. -/
def contains (s sub : Text) : Bool := decide (sub <:+: s)

/-- `strings.HasPrefix(s, start)`. -/
def startsWith (s start : Text) : Bool := start.isPrefixOf s

/-- `unicode.ToLower`, up to letters outside ASCII: the only two that have a lower
case in ASCII are the dotted capital I and the Kelvin sign. -/
def lowerRune (c : Char) : Char :=
  if c.toNat = 0x130 then 'i' else if c.toNat = 0x212A then 'k' else c.toLower

/-- `strings.ToLower`. -/
def toLower (s : Text) : Text := s.map lowerRune

/-- `unicode.IsSpace`. -/
def isSpace (c : Char) : Bool :=
  c.toNat ∈ [0x09, 0x0A, 0x0B, 0x0C, 0x0D, 0x20, 0x85, 0xA0, 0x1680, 0x2028, 0x2029, 0x202F,
    0x205F, 0x3000] || (0x2000 ≤ c.toNat && c.toNat ≤ 0x200A)

/-- `strings.TrimSpace`. -/
def trimSpace (s : Text) : Text :=
  ((s.dropWhile isSpace).reverse.dropWhile isSpace).reverse

/-- `strings.TrimRight(s, cutset)` for a cutset of one character. -/
def trimRight (s : Text) (c : Char) : Text := (s.reverse.dropWhile (· == c)).reverse

/-- `strings.Split(s, sep)` for a separator of one character. -/
def split (s : Text) (sep : Char) : List Text := s.splitOn sep

/-- `strings.Index(s, c)` for one character: `-1` if it is not there. -/
def index (s : Text) (c : Char) : Int := if c ∈ s then (s.idxOf c : Int) else -1

/-- The text before the first occurrence of a character. -/
theorem take_idxOf (s : Text) (c : Char) : s.take (s.idxOf c) = s.takeWhile (· != c) := by
  rw [List.takeWhile_eq_take_findIdx_not, List.idxOf]
  simp only [bne, Bool.not_not]

/-- The value of decimal digits, after `acc`. -/
def digitsFrom (acc : Nat) : Text → Option Nat
  | [] => some acc
  | c :: cs => if c.isDigit then digitsFrom (10 * acc + (c.toNat - '0'.toNat)) cs else none

/-- The value of a text of at least one decimal digit. -/
def unsigned (s : Text) : Option Nat := if s = [] then none else digitsFrom 0 s

/-- `strconv.Atoi`: `none` is an error, of the syntax or of the range of `int64`. -/
def atoi : Text → Option Int
  | '-' :: s => (unsigned s).bind fun n => if n ≤ 2 ^ 63 then some (-(n : Int)) else none
  | '+' :: s => (unsigned s).bind fun n => if n < 2 ^ 63 then some (n : Int) else none
  | s => (unsigned s).bind fun n => if n < 2 ^ 63 then some (n : Int) else none

/-- The decimal text of an integer, as `strconv` and the verb `%d` write it. -/
def formatInt (n : Int) : Text :=
  if n < 0 then '-' :: Nat.toDigits 10 n.natAbs else Nat.toDigits 10 n.natAbs

/-- The digits that a text starts with are read as one number. -/
theorem digitsFrom_eq (acc : Nat) {s : Text} (h : ∀ c ∈ s, c.isDigit = true) :
    digitsFrom acc s = some (Nat.ofDigitChars 10 s acc) := by
  induction s generalizing acc with
  | nil => rfl
  | cons c s ih =>
      have hc : c.isDigit = true := h c List.mem_cons_self
      rw [digitsFrom, if_pos hc, ih _ fun x hx => h x (List.mem_cons_of_mem _ hx),
        Nat.ofDigitChars_cons]

/-- The text of a number has digits only. -/
theorem isDigit_of_mem_toDigits {n : Nat} {c : Char} (h : c ∈ Nat.toDigits 10 n) :
    c.isDigit = true :=
  Nat.isDigit_of_mem_toDigits (by decide) (by decide) h

/-- A number is read back from its text. -/
theorem unsigned_toDigits (n : Nat) : unsigned (Nat.toDigits 10 n) = some n := by
  rw [unsigned, if_neg Nat.toDigits_ne_nil,
    digitsFrom_eq 0 fun c hc => isDigit_of_mem_toDigits hc, Nat.ofDigitChars_ten_toDigits]

/-- A text of digits starts with a digit. -/
theorem exists_toDigits_cons (n : Nat) :
    ∃ c s, Nat.toDigits 10 n = c :: s ∧ c.isDigit = true := by
  cases hs : Nat.toDigits 10 n with
  | nil => exact absurd hs Nat.toDigits_ne_nil
  | cons c s => exact ⟨c, s, rfl, isDigit_of_mem_toDigits (hs ▸ List.mem_cons_self)⟩

theorem ne_of_isDigit {c d : Char} (hc : c.isDigit = true) (hd : d.isDigit = false) : c ≠ d := by
  intro heq
  rw [heq, hd] at hc
  exact Bool.false_ne_true hc

theorem formatInt_of_nonneg {n : Int} (h : 0 ≤ n) : formatInt n = Nat.toDigits 10 n.natAbs :=
  if_neg (Int.not_lt.mpr h)

theorem formatInt_of_neg {n : Int} (h : n < 0) : formatInt n = '-' :: Nat.toDigits 10 n.natAbs :=
  if_pos h

/-- **A decimal text is read back** as the integer of 64 bits that it was written for. -/
theorem atoi_formatInt {n : Int} (hmin : -2 ^ 63 ≤ n) (hmax : n < 2 ^ 63) :
    atoi (formatInt n) = some n := by
  by_cases hneg : n < 0
  · have hfits : n.natAbs ≤ 2 ^ 63 := by omega
    rw [formatInt_of_neg hneg, atoi, unsigned_toDigits, Option.bind_some, if_pos hfits]
    exact congrArg some (by omega)
  · have hfits : n.natAbs < 2 ^ 63 := by omega
    rw [formatInt_of_nonneg (by omega)]
    obtain ⟨c, s, hcs, hc⟩ := exists_toDigits_cons n.natAbs
    have hminus : c ≠ '-' := ne_of_isDigit hc (by decide)
    have hplus : c ≠ '+' := ne_of_isDigit hc (by decide)
    rw [hcs, atoi, ← hcs, unsigned_toDigits, Option.bind_some, if_pos hfits]
    · exact congrArg some (by omega)
    · intro s' heq
      exact hminus (List.cons.inj heq).1
    · intro s' heq
      exact hplus (List.cons.inj heq).1

theorem formatInt_ne_nil (n : Int) : formatInt n ≠ [] := by
  unfold formatInt
  split
  · exact List.cons_ne_nil _ _
  · exact Nat.toDigits_ne_nil

/-- Different numbers have different texts. -/
theorem toDigits_injective {m n : Nat} (h : Nat.toDigits 10 m = Nat.toDigits 10 n) : m = n := by
  have hm := unsigned_toDigits m
  rw [h, unsigned_toDigits n] at hm
  exact (Option.some.inj hm).symm

/-- Different integers have different decimal texts. -/
theorem formatInt_injective : Function.Injective formatInt := by
  -- A minus sign is not a digit.
  have hsign : ∀ {m n : Nat}, '-' :: Nat.toDigits 10 m ≠ Nat.toDigits 10 n := by
    intro m n heq
    have hdigit := isDigit_of_mem_toDigits (heq ▸ List.mem_cons_self : '-' ∈ Nat.toDigits 10 n)
    exact absurd hdigit (by decide)
  intro m n h
  by_cases hm : m < 0
  · by_cases hn : n < 0
    · rw [formatInt_of_neg hm, formatInt_of_neg hn] at h
      have habs := toDigits_injective (List.cons.inj h).2
      omega
    · rw [formatInt_of_neg hm, formatInt_of_nonneg (Int.not_lt.mp hn)] at h
      exact absurd h hsign
  · by_cases hn : n < 0
    · rw [formatInt_of_nonneg (Int.not_lt.mp hm), formatInt_of_neg hn] at h
      exact absurd h.symm hsign
    · rw [formatInt_of_nonneg (Int.not_lt.mp hm), formatInt_of_nonneg (Int.not_lt.mp hn)] at h
      have habs := toDigits_injective h
      omega

/-- A decimal text consists of digits and a sign. -/
theorem of_mem_formatInt {n : Int} {c : Char} (h : c ∈ formatInt n) :
    c = '-' ∨ c.isDigit = true := by
  unfold formatInt at h
  split at h
  · exact (List.mem_cons.mp h).imp_right isDigit_of_mem_toDigits
  · exact Or.inr (isDigit_of_mem_toDigits h)

/-- The `int64` that an integer wraps to. -/
def int64 (x : Int) : Int := (x + 2 ^ 63) % 2 ^ 64 - 2 ^ 63

/-- An increment of an `int64`. -/
theorem incInt64_int64 (x : Int) : incInt64 (int64 x) = int64 (x + 1) := by
  unfold incInt64 int64
  split <;> omega

/-- A difference of `int64`s. -/
theorem int64_sub (x y : Int) : int64 (int64 x - int64 y) = int64 (x - y) := by
  unfold int64
  omega

/-- Wrapping makes no positive number larger. -/
theorem int64_le {x : Int} (h : 0 ≤ x) : int64 x ≤ x := by
  unfold int64
  omega

/-- Below `2 ^ 63` a count is an `int64`. -/
theorem int64_of_lt {n : Nat} (h : n < 2 ^ 63) : int64 n = n := by
  unfold int64
  omega

example : atoi "-5".toList = some (-5) := by decide

example : atoi "9223372036854775808".toList = none := by decide

end Go
