import DistributedCaching.GoText

/-!
# Formatted input of Go

`fmt.Fscanf` into variables of type `int64`, for formats of text, white space and verbs
without a width.  A format is parsed into items; the scan follows them through the input,
and stops at the first item that the input does not match.  The values that it has stored
by then stay, so the result of a scan is the list of these values.

A verb that integers do not have stops the scan whatever the input is
(`scanf_stops_at_badVerb`).  A line that was written with `%d` is read back with `%d`
(`scanf_line`).
-/

namespace Go

/-- One step of a format. -/
inductive FormatItem
  /-- A run of white space: so many newlines, and whether other space follows them. -/
  | spaces (newlines : Nat) (trailing : Bool)
  | literal (c : Char)
  /-- `%d`. -/
  | decimal
  /-- A verb that integers do not have. -/
  | badVerb (c : Char)
  deriving DecidableEq, Repr

namespace FormatItem

/-- Put a character of white space before the rest of a format. -/
def consSpace (c : Char) : List FormatItem → List FormatItem
  | spaces newlines trailing :: items =>
      if c = '\n' then spaces (newlines + 1) trailing :: items
      else spaces newlines trailing :: items
  | items => if c = '\n' then spaces 1 false :: items else spaces 0 true :: items

/-- The items of a format; `none` for one with a verb of another kind, a width or `%%`. -/
def parse : Text → Option (List FormatItem)
  | [] => some []
  | ['%'] => none
  | '%' :: c :: format =>
      if c = 'd' then (parse format).map (decimal :: ·)
      else if c.isDigit ∨ c ∈ ['%', 'b', 'c', 'o', 'U', 'x', 'X', 'v'] then none
      else (parse format).map (badVerb c :: ·)
  | c :: format =>
      if isSpace c then (parse format).map (consSpace c)
      else (parse format).map (literal c :: ·)

end FormatItem

/-! ## The scan -/

/-- White space other than a newline. -/
def isBlank (c : Char) : Bool := isSpace c && c != '\n'

/-- A newline of the format matches blanks and then a newline or the end of the input. -/
def matchNewline (input : Text) : Option Text :=
  match input.dropWhile isBlank with
  | [] => some []
  | c :: input => if c = '\n' then some input else none

def matchNewlines : Nat → Text → Option Text
  | 0, input => some input
  | n + 1, input => (matchNewline input).bind (matchNewlines n)

/-- Space that stands alone needs a blank in the input, unless the input is at its end. -/
def matchBlanks (alone : Bool) (input : Text) : Option Text :=
  match input with
  | [] => some []
  | c :: rest =>
      if alone && !isBlank c then none else some ((c :: rest).dropWhile isBlank)

def matchSpaces (newlines : Nat) (trailing : Bool) (input : Text) : Option Text :=
  (matchNewlines newlines input).bind fun input =>
    if trailing then matchBlanks (newlines == 0) input else some input

/-- `SkipSpace`, which refuses a newline. -/
def skipSpace : Text → Option Text
  | [] => some []
  | c :: input =>
      if c = '\n' then none
      else if isSpace c then skipSpace input
      else some (c :: input)

/-- The sign of a number, and what follows. -/
def acceptSign : Text → Text × Text
  | '-' :: input => (['-'], input)
  | '+' :: input => (['+'], input)
  | input => ([], input)

/-- Read a decimal integer. -/
def scanInt (input : Text) : Option (Int × Text) :=
  (skipSpace input).bind fun input =>
    let (sign, input) := acceptSign input
    (atoi (sign ++ input.takeWhile Char.isDigit)).map fun n => (n, input.dropWhile Char.isDigit)

/-- `Fscanf` with so many operands: the values that it stores before it stops. -/
def scanf : List FormatItem → Nat → Text → List Int
  | [], _, _ => []
  | .spaces newlines trailing :: items, operands, input =>
      match matchSpaces newlines trailing input with
      | none => []
      | some input => scanf items operands input
  | .literal c :: items, operands, input =>
      match input with
      | [] => []
      | c' :: input => if c = c' then scanf items operands input else []
  | .decimal :: items, operands + 1, input =>
      match scanInt input with
      | none => []
      | some (n, input) => n :: scanf items operands input
  -- Too few operands.
  | .decimal :: _, 0, _ => []
  | .badVerb _ :: _, _, _ => []

/-! ## A verb that integers do not have -/

/-- **The scan stops** at the latest at the first verb that integers do not have. -/
theorem scanf_stops_at_badVerb (before : List FormatItem) (hbefore : .decimal ∉ before) (c : Char)
    (after : List FormatItem) (operands : Nat) (input : Text) :
    scanf (before ++ .badVerb c :: after) operands input = [] := by
  induction before generalizing input with
  | nil => rfl
  | cons item before ih =>
      rw [List.mem_cons, not_or] at hbefore
      have hrest := ih hbefore.2
      cases item with
      | spaces newlines trailing =>
          rw [List.cons_append, scanf]
          split
          · rfl
          · exact hrest _
      | literal c' =>
          cases input with
          | nil => rfl
          | cons d input =>
              rw [List.cons_append, scanf]
              split
              · exact hrest _
              · rfl
      | decimal => exact absurd rfl hbefore.1
      | badVerb c' => rfl

/-! ## Reading back what was written -/

section RoundTrip

variable {items : List FormatItem} {operands : Nat}

/-- A literal text is matched by itself. -/
theorem scanf_literals (name input : Text) :
    scanf (name.map .literal ++ items) operands (name ++ input) = scanf items operands input := by
  induction name with
  | nil => rfl
  | cons c name ih =>
      rw [List.map_cons, List.cons_append, List.cons_append, scanf, if_pos rfl]
      exact ih

theorem toNat_of_isDigit {c : Char} (h : c.isDigit = true) : 48 ≤ c.toNat ∧ c.toNat ≤ 57 := by
  simpa [Char.isDigit, UInt32.le_iff_toNat_le] using h

theorem isSpace_of_isDigit {c : Char} (h : c.isDigit = true) : isSpace c = false := by
  have hrange := toNat_of_isDigit h
  simp [isSpace]
  omega

/-- A number starts with a character that is not white space. -/
theorem exists_formatInt_cons (n : Int) : ∃ c s, formatInt n = c :: s ∧ isSpace c = false := by
  cases hs : formatInt n with
  | nil => exact absurd hs (formatInt_ne_nil n)
  | cons c s =>
      refine ⟨c, s, rfl, ?_⟩
      have hmem : c ∈ formatInt n := hs ▸ List.mem_cons_self
      cases of_mem_formatInt hmem with
      | inl hminus => exact hminus ▸ by decide
      | inr hdigit => exact isSpace_of_isDigit hdigit

/-- A blank of the format and of the input, before a number. -/
theorem matchSpaces_blank (n : Int) (input : Text) :
    matchSpaces 0 true (' ' :: (formatInt n ++ input)) = some (formatInt n ++ input) := by
  obtain ⟨c, s, hs, hc⟩ := exists_formatInt_cons n
  have hblank : isBlank c = false := by simp [isBlank, hc]
  have hspace : isBlank ' ' = true := by decide
  rw [hs, List.cons_append]
  simp [matchSpaces, matchNewlines, matchBlanks, hspace, hblank]

theorem matchSpaces_newline (input : Text) : matchSpaces 1 false ('\n' :: input) = some input := by
  have hblank : isBlank '\n' = false := by decide
  simp [matchSpaces, matchNewlines, matchNewline, hblank]

/-- Digits are scanned up to the first other character. -/
theorem span_digits {s : Text} (hs : ∀ c ∈ s, c.isDigit = true) {d : Char}
    (hd : d.isDigit = false) (input : Text) :
    (s ++ d :: input).takeWhile Char.isDigit = s ∧
      (s ++ d :: input).dropWhile Char.isDigit = d :: input := by
  constructor
  · rw [List.takeWhile_append_of_pos hs]
    simp [hd]
  · rw [List.dropWhile_append_of_pos hs]
    simp [hd]

/-- **An integer is read back**, if no digit follows it. -/
theorem scanInt_formatInt {n : Int} (hmin : -2 ^ 63 ≤ n) (hmax : n < 2 ^ 63) {d : Char}
    (hd : d.isDigit = false) (input : Text) :
    scanInt (formatInt n ++ d :: input) = some (n, d :: input) := by
  have hskip : skipSpace (formatInt n ++ d :: input) = some (formatInt n ++ d :: input) := by
    obtain ⟨c, s, hs, hc⟩ := exists_formatInt_cons n
    have hnewline : c ≠ '\n' := by
      intro heq
      rw [heq] at hc
      exact absurd hc (by decide)
    rw [hs, List.cons_append, skipSpace, if_neg hnewline, if_neg (by simp [hc])]
  have hread := atoi_formatInt hmin hmax
  rw [scanInt, hskip, Option.bind_some]
  by_cases hneg : n < 0
  · rw [formatInt_of_neg hneg] at hread ⊢
    obtain ⟨htake, hdrop⟩ := span_digits (s := Nat.toDigits 10 n.natAbs)
      (fun c hc => isDigit_of_mem_toDigits hc) hd input
    simp only [List.cons_append, acceptSign, htake, hdrop, List.nil_append, hread, Option.map_some]
  · rw [formatInt_of_nonneg (Int.not_lt.mp hneg)] at hread ⊢
    obtain ⟨htake, hdrop⟩ := span_digits (s := Nat.toDigits 10 n.natAbs)
      (fun c hc => isDigit_of_mem_toDigits hc) hd input
    have hsign : acceptSign (Nat.toDigits 10 n.natAbs ++ d :: input) =
        ([], Nat.toDigits 10 n.natAbs ++ d :: input) := by
      obtain ⟨c, s, hs, hc⟩ := exists_toDigits_cons n.natAbs
      rw [hs, List.cons_append, acceptSign]
      · intro s' heq
        exact ne_of_isDigit hc (by decide) (List.cons.inj heq).1
      · intro s' heq
        exact ne_of_isDigit hc (by decide) (List.cons.inj heq).1
    simp only [hsign, htake, hdrop, List.nil_append, hread, Option.map_some]

/-- A line of a name and a number, as it is written. -/
def numberLine (name : Text) (n : Int) : Text := name ++ ' ' :: (formatInt n ++ ['\n'])

/-- The format `name %d\n`. -/
def numberLineFormat (name : Text) : List FormatItem :=
  name.map .literal ++ [.spaces 0 true, .decimal, .spaces 1 false]

/-- **A line is read back**, and the scan goes on behind it. -/
theorem scanf_line (name : Text) {n : Int} (hmin : -2 ^ 63 ≤ n) (hmax : n < 2 ^ 63)
    (input : Text) :
    scanf (numberLineFormat name ++ items) (operands + 1) (numberLine name n ++ input) =
      n :: scanf items operands input := by
  simp only [numberLineFormat, numberLine, List.append_assoc, List.cons_append, List.nil_append]
  rw [scanf_literals, scanf, matchSpaces_blank]
  simp only [scanf, scanInt_formatInt hmin hmax (by decide : Char.isDigit '\n' = false),
    matchSpaces_newline]

end RoundTrip

end Go
