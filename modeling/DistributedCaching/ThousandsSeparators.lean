import DistributedCaching.GoText
import DistributedCaching.RightGroups

/-!
# Thousands separators

`formatInt` of the Go report walks over the decimal text of a number and writes a comma
before every character but the first that has a multiple of three characters from it on.
The sign is a character like any other, so that a negative number whose digits fill their
groups gets a comma behind the sign.  `format_int` of the Python report groups the digits.

`ThousandsSeparated` says what a text with separators is; the only such text is the one of
Python (`thousandsSeparated_iff`).  `thousands_separators_iff` says for which numbers the
text of Go is that one.
-/

open Go RightGroups

namespace Llm

/-- One round of the loop of `formatInt`, on a text of the length `len`: a character and
its position. -/
def formatIntRound (len : Nat) (out : Text) (x : Char × Nat) : Text :=
  (if 0 < x.2 ∧ (len - x.2) % 3 = 0 then out ++ [','] else out) ++ [x.1]

/-- `formatInt` of the report. -/
def formatInt (n : Int) : Text :=
  let s := Go.formatInt n
  s.zipIdx.foldl (formatIntRound s.length) []

end Llm

namespace Llmsim

/-- `format_int`: the format `,d` is the sign, and the digits in groups of three. -/
def formatInt (value : Int) : Text :=
  let digits := [','].intercalate (groups 3 (Nat.toDigits 10 value.natAbs))
  if value < 0 then '-' :: digits else digits

/-- The digits of a number, in groups. -/
def separatedDigits (n : Nat) : Text := [','].intercalate (groups 3 (Nat.toDigits 10 n))

theorem formatInt_of_nonneg {n : Int} (h : 0 ≤ n) :
    formatInt n = separatedDigits n.natAbs :=
  if_neg (Int.not_lt.mpr h)

theorem formatInt_of_neg {n : Int} (h : n < 0) :
    formatInt n = '-' :: separatedDigits n.natAbs :=
  if_pos h

end Llmsim

namespace Llm

/-! ## What a text with separators is -/

open Llmsim (separatedDigits)

/-- A text without its sign. -/
def withoutSign : Text → Text
  | '-' :: s => s
  | s => s

/-- **A number with thousands separators.** -/
structure ThousandsSeparated (n : Int) (out : Text) : Prop where
  /-- Deleting the commas gives the decimal text. -/
  deleted : out.filter (· != ',') = Go.formatInt n
  /-- Every comma has a digit on both sides. -/
  beside : ∀ before after, out = before ++ ',' :: after →
    (∃ a, before.getLast? = some a ∧ a.isDigit = true) ∧
      ∃ b, after.head? = some b ∧ b.isDigit = true
  /-- The first group has one to three digits, and the others have three. -/
  grouped : ∃ first rest, (withoutSign out).splitOn ',' = first :: rest ∧ Grouped 3 first rest

theorem withoutSign_of_ne {c : Char} (s : Text) (h : c ≠ '-') : withoutSign (c :: s) = c :: s := by
  unfold withoutSign
  split
  · rename_i heq
    exact absurd (List.cons.inj heq).1 h
  · rfl

section Digits

variable {n : Nat}

/-- The digits of a number contain no comma. -/
theorem comma_notMem_toDigits : ',' ∉ Nat.toDigits 10 n := by
  intro hmem
  exact absurd (isDigit_of_mem_toDigits hmem) (by decide)

/-- The loop that puts the commas separates groups of three. -/
theorem separatedDigits_eq (n : Nat) :
    separatedDigits n = separate ',' 3 (Nat.toDigits 10 n) := (separate_eq _ _ _).symm

/-- The text of a number starts with a digit. -/
theorem exists_separatedDigits_cons (n : Nat) :
    ∃ c s, separatedDigits n = c :: s ∧ c.isDigit = true := by
  obtain ⟨c, s, hs, hc⟩ := exists_toDigits_cons n
  rw [separatedDigits_eq, hs, separate]
  split
  · exact ⟨c, _, rfl, hc⟩
  · exact ⟨c, _, rfl, hc⟩

/-- Without its commas the text is that of the digits. -/
theorem filter_separatedDigits (n : Nat) :
    (separatedDigits n).filter (· != ',') = Nat.toDigits 10 n := by
  rw [separatedDigits_eq]
  exact filter_separate comma_notMem_toDigits

/-- A comma between digits has a digit on both sides. -/
theorem separatedDigits_beside {before after : Text}
    (h : separatedDigits n = before ++ ',' :: after) :
    (∃ a, before.getLast? = some a ∧ a.isDigit = true) ∧
      ∃ b, after.head? = some b ∧ b.isDigit = true := by
  rw [separatedDigits_eq] at h
  obtain ⟨⟨a, ha, hlast⟩, b, hb, hhead⟩ := separate_beside comma_notMem_toDigits h
  exact ⟨⟨a, hlast, isDigit_of_mem_toDigits ha⟩, b, hhead, isDigit_of_mem_toDigits hb⟩

/-- The groups of the digits are found again at the commas. -/
theorem splitOn_separatedDigits (n : Nat) :
    (separatedDigits n).splitOn ',' = groups 3 (Nat.toDigits 10 n) := by
  refine List.splitOn_intercalate ',' ?_ (groups_ne_nil Nat.toDigits_ne_nil)
  intro g hg hmem
  have hdigits : ',' ∈ (groups 3 (Nat.toDigits 10 n)).flatten := List.mem_flatten.mpr ⟨g, hg, hmem⟩
  rw [flatten_groups] at hdigits
  exact comma_notMem_toDigits hdigits

/-- **Groups of the right sizes with the right digits** are the groups of the digits. -/
theorem eq_separatedDigits {s : Text} (hdeleted : s.filter (· != ',') = Nat.toDigits 10 n)
    {first : Text} {rest : List Text} (hsplit : s.splitOn ',' = first :: rest)
    (hgrouped : Grouped 3 first rest) : s = separatedDigits n := by
  have hdigits : first ++ rest.flatten = Nat.toDigits 10 n := by
    rw [← hdeleted, ← flatten_splitOn, hsplit, List.flatten_cons]
  rw [separatedDigits, ← hdigits, groups_eq hgrouped, ← hsplit, List.intercalate_splitOn]

end Digits

/-- The first character of a text that is kept when the commas are deleted. -/
theorem ThousandsSeparated.exists_cons {n : Int} {out : Text} (h : ThousandsSeparated n out) :
    ∃ c s, out = c :: s ∧ c ≠ ',' ∧ Go.formatInt n = c :: s.filter (· != ',') := by
  have hdeleted := h.deleted
  cases out with
  | nil => exact absurd hdeleted.symm (formatInt_ne_nil n)
  | cons c s =>
      have hc : c ≠ ',' := by
        intro hcomma
        obtain ⟨⟨a, hlast, _⟩, _⟩ := h.beside [] s (by rw [hcomma, List.nil_append])
        cases hlast
      refine ⟨c, s, rfl, hc, ?_⟩
      rw [← hdeleted]
      simp [hc]

/-- The text of Python has separators. -/
theorem thousandsSeparated_formatInt (n : Int) : ThousandsSeparated n (Llmsim.formatInt n) := by
  have hgroups := grouped_groups (show 0 < 3 by omega)
    (Nat.toDigits_ne_nil (b := 10) (n := n.natAbs))
  obtain ⟨c, s, hs, hc⟩ := exists_separatedDigits_cons n.natAbs
  have hminus : c ≠ '-' := ne_of_isDigit hc (by decide)
  by_cases hneg : n < 0
  · rw [Llmsim.formatInt_of_neg hneg]
    refine ⟨?_, ?_, ?_⟩
    · rw [Go.formatInt_of_neg hneg, List.filter_cons_of_pos (by decide), filter_separatedDigits]
    · intro before after heq
      cases before with
      | nil => cases heq
      | cons x before =>
          obtain ⟨rfl, htail⟩ := List.cons.inj heq
          obtain ⟨⟨a, hlast, ha⟩, hafter⟩ := separatedDigits_beside htail
          refine ⟨⟨a, ?_, ha⟩, hafter⟩
          rw [List.getLast?_cons, hlast, Option.getD_some]
    · rw [withoutSign, splitOn_separatedDigits]
      exact hgroups
  · have hpos := Int.not_lt.mp hneg
    rw [Llmsim.formatInt_of_nonneg hpos]
    refine ⟨?_, fun before after heq => separatedDigits_beside heq, ?_⟩
    · rw [Go.formatInt_of_nonneg hpos, filter_separatedDigits]
    · rw [hs, withoutSign_of_ne s hminus, ← hs, splitOn_separatedDigits]
      exact hgroups

/-- **Only the text of Python has separators.** -/
theorem thousandsSeparated_iff {n : Int} {out : Text} :
    ThousandsSeparated n out ↔ out = Llmsim.formatInt n := by
  constructor
  · intro h
    obtain ⟨first, rest, hsplit, hgrouped⟩ := h.grouped
    obtain ⟨c, s, rfl, hc, hfirst⟩ := h.exists_cons
    by_cases hneg : n < 0
    · rw [Go.formatInt_of_neg hneg] at hfirst
      obtain ⟨rfl, hdeleted⟩ := List.cons.inj hfirst
      rw [Llmsim.formatInt_of_neg hneg, eq_separatedDigits hdeleted.symm hsplit hgrouped]
    · have hpos := Int.not_lt.mp hneg
      have hminus : c ≠ '-' := by
        obtain ⟨d, t, ht, hd⟩ := exists_toDigits_cons n.natAbs
        rw [Go.formatInt_of_nonneg hpos, ht] at hfirst
        rw [← (List.cons.inj hfirst).1]
        exact ne_of_isDigit hd (by decide)
      have hdeleted := h.deleted
      rw [Go.formatInt_of_nonneg hpos] at hdeleted
      rw [withoutSign_of_ne s hminus] at hsplit
      rw [Llmsim.formatInt_of_nonneg hpos]
      exact eq_separatedDigits hdeleted hsplit hgrouped
  · intro h
    rw [h]
    exact thousandsSeparated_formatInt n

/-! ## The loop of Go -/

/-- The comma that the loop writes before the rest of the text. -/
def commaBefore (s : Text) : Text := if s ≠ [] ∧ s.length % 3 = 0 then [','] else []

/-- A comma follows the first digit exactly if the rest is a number of whole groups. -/
theorem separate_cons (c : Char) (s : Text) :
    separate ',' 3 (c :: s) = c :: (commaBefore s ++ separate ',' 3 s) := by
  rw [separate, commaBefore]
  split <;> rfl

/-- The loop from a position on that is not the first. -/
theorem foldl_formatIntRound (s out : Text) {i len : Nat} (hi : 0 < i)
    (hlen : i + s.length = len) :
    (s.zipIdx i).foldl (formatIntRound len) out =
      out ++ (commaBefore s ++ separate ',' 3 s) := by
  induction s generalizing out i with
  | nil => simp [commaBefore, separate]
  | cons c s ih =>
      have hrest : len - i = (c :: s).length := by omega
      rw [List.zipIdx_cons, List.foldl_cons, ih _ (Nat.succ_pos i) (by
        rw [← hlen, List.length_cons]
        omega), separate_cons, formatIntRound]
      dsimp only
      rw [hrest]
      by_cases hmod : (c :: s).length % 3 = 0
      · have hcomma : commaBefore (c :: s) = [','] := if_pos ⟨List.cons_ne_nil c s, hmod⟩
        rw [if_pos ⟨hi, hmod⟩, hcomma]
        simp
      · have hnone : commaBefore (c :: s) = [] := if_neg fun hboth => hmod hboth.2
        rw [if_neg fun hboth => hmod hboth.2, hnone]
        simp

/-- **The loop separates the groups of the whole text**, the sign included. -/
theorem formatInt_eq (n : Int) : formatInt n = separate ',' 3 (Go.formatInt n) := by
  unfold formatInt
  cases Go.formatInt n with
  | nil => rfl
  | cons c s =>
      have hfirst : formatIntRound (c :: s).length [] (c, 0) = [c] := by
        rw [formatIntRound, if_neg fun hboth => Nat.lt_irrefl 0 hboth.1]
        rfl
      dsimp only
      rw [List.zipIdx_cons, List.foldl_cons, hfirst,
        foldl_formatIntRound s [c] (Nat.succ_pos 0) (by rw [List.length_cons]; omega),
        separate_cons]
      rfl

/-- The text of Go is the one of Python, or the sign takes part in the grouping. -/
theorem formatInt_eq_iff (n : Int) :
    formatInt n = Llmsim.formatInt n ↔ 0 ≤ n ∨ (Nat.toDigits 10 n.natAbs).length % 3 ≠ 0 := by
  rw [formatInt_eq]
  by_cases hneg : n < 0
  · have hnot : ¬ 0 ≤ n := Int.not_le.mpr hneg
    rw [Go.formatInt_of_neg hneg, Llmsim.formatInt_of_neg hneg, separate_cons, separatedDigits_eq,
      List.cons_inj_right, commaBefore]
    by_cases hmod : (Nat.toDigits 10 n.natAbs).length % 3 = 0
    · rw [if_pos ⟨Nat.toDigits_ne_nil, hmod⟩]
      simp [hmod, hnot]
    · rw [if_neg fun hboth => hmod hboth.2]
      simp [hmod]
  · have hpos := Int.not_lt.mp hneg
    rw [Go.formatInt_of_nonneg hpos, Llmsim.formatInt_of_nonneg hpos, separatedDigits_eq]
    simp [hpos]

/-- **Thousands separators.**  The text that Go writes has them in the right places, and
is the text that Python writes, exactly if the number is not negative or the number of its
digits is not a multiple of three. -/
theorem thousands_separators_iff (n : Int) :
    (ThousandsSeparated n (formatInt n) ↔
      0 ≤ n ∨ (Nat.toDigits 10 n.natAbs).length % 3 ≠ 0) ∧
    (formatInt n = Llmsim.formatInt n ↔
      0 ≤ n ∨ (Nat.toDigits 10 n.natAbs).length % 3 ≠ 0) := by
  refine ⟨?_, formatInt_eq_iff n⟩
  rw [thousandsSeparated_iff]
  exact formatInt_eq_iff n

example : formatInt 1000000 = "1,000,000".toList := by decide

/-- **A comma behind the sign.** -/
theorem comma_behind_sign :
    formatInt (-100) = "-,100".toList ∧ Llmsim.formatInt (-100) = "-100".toList ∧
      ¬ ThousandsSeparated (-100) (formatInt (-100)) := by
  have hpython : Llmsim.formatInt (-100) = "-100".toList := by decide
  have hgo : formatInt (-100) = "-,100".toList := by decide
  refine ⟨hgo, hpython, ?_⟩
  rw [thousandsSeparated_iff, hgo, hpython]
  decide

end Llm
