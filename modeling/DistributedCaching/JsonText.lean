import Mathlib.Tactic.Common
import Mathlib.Data.List.TakeWhile

/-!
# JSON texts

Values of JSON, the compact text that an encoder writes for them, and a parser for
the whole syntax: blanks between the tokens, every escape sequence, surrogate pairs,
and the grammar of number literals as a small automaton.  Numbers and strings are kept
as their literals; what a number denotes is left to the reader of the value, and what a
string denotes is `unquote`.  A parser refuses values that are nested too deeply.

`parse_print` is the round trip: the parser returns the value that was printed, unless it
is nested too deeply.  It is an induction over the value on a stronger statement, in which
any text may follow the printed one (`reads`); the only thing asked of that text is that it
does not go on with a number (`Delimited`).
-/

namespace Json

/-! ## Strings -/

/-- The value of a hexadecimal digit. -/
def hexValue (c : Char) : Option Nat :=
  if '0' ≤ c ∧ c ≤ '9' then some (c.toNat - 48)
  else if 'a' ≤ c ∧ c ≤ 'f' then some (c.toNat - 87)
  else if 'A' ≤ c ∧ c ≤ 'F' then some (c.toNat - 55)
  else none

/-- The number that four hexadecimal digits stand for. -/
def hex4 (a b c d : Char) : Option Nat := do
  let a ← hexValue a
  let b ← hexValue b
  let c ← hexValue c
  let d ← hexValue d
  return 4096 * a + 256 * b + 16 * c + d

/-- Four hexadecimal digits. -/
def hexDigits4 (n : Nat) : List Char :=
  [Nat.digitChar (n / 4096 % 16), Nat.digitChar (n / 256 % 16), Nat.digitChar (n / 16 % 16),
   Nat.digitChar (n % 16)]

/-- The escape sequences of two characters, by the second one. -/
def shortEscape : Char → Option Char
  | '"' => some '"'
  | '\\' => some '\\'
  | '/' => some '/'
  | 'b' => some '\x08'
  | 'f' => some '\x0c'
  | 'n' => some '\n'
  | 'r' => some '\r'
  | 't' => some '\t'
  | _ => none

/-- Characters that are written as `\u` and four digits: control characters, those
with a meaning in HTML, and the two line separators. -/
def isEscaped (c : Char) : Bool :=
  c.toNat < 0x20 || c = '<' || c = '>' || c = '&' || c.toNat = 0x2028 || c.toNat = 0x2029

/-- A character of a string, as it is written. -/
def escape (c : Char) : List Char :=
  if c = '"' then ['\\', '"']
  else if c = '\\' then ['\\', '\\']
  else if c = '\x08' then ['\\', 'b']
  else if c = '\x0c' then ['\\', 'f']
  else if c = '\n' then ['\\', 'n']
  else if c = '\r' then ['\\', 'r']
  else if c = '\t' then ['\\', 't']
  else if isEscaped c then '\\' :: 'u' :: hexDigits4 c.toNat
  else [c]

/-- A string in quotes. -/
def quote (s : List Char) : List Char := '"' :: (s.flatMap escape ++ ['"'])

/-- A character of a string literal, or the number in a `\\u` sequence. -/
inductive Piece
  | char (c : Char)
  | code (n : Nat)

/-- The pieces up to the closing quote, and what follows it. -/
def readPieces : List Char → Option (List Piece × List Char)
  | [] => none
  | '"' :: r => some ([], r)
  | '\\' :: 'u' :: a :: b :: c :: d :: r =>
      match hex4 a b c d with
      | none => none
      | some n => (readPieces r).map fun (ps, r) => (.code n :: ps, r)
  | '\\' :: e :: r =>
      match shortEscape e with
      | none => none
      | some c => (readPieces r).map fun (ps, r) => (.char c :: ps, r)
  | c :: r =>
      if c.toNat < 0x20 || c = '\\' then none
      else (readPieces r).map fun (ps, r) => (.char c :: ps, r)

/-- The halves of surrogate pairs. -/
def isSurrogate (n : Nat) : Bool := 0xD800 ≤ n && n < 0xE000

/-- The character of a surrogate pair. -/
def surrogatePair (n m : Nat) : Option Char :=
  if n < 0xDC00 ∧ 0xDC00 ≤ m ∧ m < 0xE000 then
    some (Char.ofNat (0x10000 + 0x400 * (n - 0xD800) + (m - 0xDC00)))
  else none

/-- The characters that the pieces stand for.  Half a surrogate pair becomes the
replacement character. -/
def joinPieces : List Piece → List Char
  | [] => []
  | .char c :: r => c :: joinPieces r
  | .code n :: .code m :: r =>
      if isSurrogate n then
        match surrogatePair n m with
        | some c => c :: joinPieces r
        | none => '\uFFFD' :: joinPieces (.code m :: r)
      else Char.ofNat n :: joinPieces (.code m :: r)
  | .code n :: r => (if isSurrogate n then '\uFFFD' else Char.ofNat n) :: joinPieces r

/-- The characters up to the closing quote, and what follows it. -/
def readString (s : List Char) : Option (List Char × List Char) :=
  (readPieces s).map fun (ps, r) => (joinPieces ps, r)

/-- The literal up to the closing quote, and what follows it. -/
def readLiteral (s : List Char) : Option (List Char × List Char) :=
  (readPieces s).map fun (_, r) => (s.take (s.length - (r.length + 1)), r)

/-- What may stand between quotes. -/
def isLiteral (literal : List Char) : Bool :=
  (readPieces (literal ++ ['"'])).any fun (_, r) => r.isEmpty

/-- The characters that a string literal denotes. -/
def unquote (literal : List Char) : List Char :=
  ((readPieces (literal ++ ['"'])).map fun (ps, _) => joinPieces ps).getD []

example : readString "a\\u00e9\\ud83d\\ude00\\ud83d\\n\" rest".toList =
    some ("aé😀\uFFFD\n".toList, " rest".toList) := by decide

/-- The piece that is read back for a character. -/
def pieceOf (c : Char) : Piece :=
  if c ∈ ['"', '\\', '\x08', '\x0c', '\n', '\r', '\t'] then .char c
  else if isEscaped c then .code c.toNat
  else .char c

theorem hexValue_digitChar : ∀ d : Fin 16, hexValue (Nat.digitChar d) = some d.val := by
  decide

/-- Four hexadecimal digits are read back. -/
theorem hex4_hexDigits4 {n : Nat} (h : n < 65536) :
    hex4 (Nat.digitChar (n / 4096 % 16)) (Nat.digitChar (n / 256 % 16))
      (Nat.digitChar (n / 16 % 16)) (Nat.digitChar (n % 16)) = some n := by
  have hd : ∀ m, hexValue (Nat.digitChar (m % 16)) = some (m % 16) := fun m =>
    hexValue_digitChar ⟨m % 16, Nat.mod_lt m (by decide)⟩
  simp only [hex4, hd, Option.bind_eq_bind, Option.bind_some, Option.pure_def, Option.some.injEq]
  omega

theorem isEscaped_lt {c : Char} (h : isEscaped c = true) : c.toNat < 0xD800 := by
  simp only [isEscaped, Bool.or_eq_true, decide_eq_true_eq] at h
  rcases h with ((((h | rfl) | rfl) | rfl) | h) | h
  · omega
  · decide
  · decide
  · decide
  · omega
  · omega

/-- A character that needs no escape stands for itself. -/
theorem readPieces_plain {c : Char} (hquote : c ≠ '"') (hslash : c ≠ '\\')
    (hcontrol : ¬ c.toNat < 0x20) (rest : List Char) :
    readPieces (c :: rest) = (readPieces rest).map fun (ps, r) => (.char c :: ps, r) := by
  rw [readPieces.eq_def]
  split
  · cases ‹_›
  · cases ‹_›
    exact absurd rfl hquote
  · cases ‹_›
    exact absurd rfl hslash
  · cases ‹_›
    exact absurd rfl hslash
  · cases ‹_›
    simp [hcontrol, hslash]

/-- An escape sequence of two characters stands for its character. -/
theorem readPieces_short {e c : Char} (h : shortEscape e = some c) (rest : List Char) :
    readPieces ('\\' :: e :: rest) = (readPieces rest).map fun (ps, r) => (.char c :: ps, r) := by
  unfold shortEscape at h
  split at h <;> cases h <;> rfl

/-- An escape sequence of six characters stands for its number. -/
theorem readPieces_code {n : Nat} (h : n < 65536) (rest : List Char) :
    readPieces ('\\' :: 'u' :: (hexDigits4 n ++ rest)) =
      (readPieces rest).map fun (ps, r) => (.code n :: ps, r) := by
  simp only [hexDigits4, List.cons_append, List.nil_append, readPieces, hex4_hexDigits4 h]

/-- A written character is read back as one piece. -/
theorem readPieces_escape (c : Char) (rest : List Char) :
    readPieces (escape c ++ rest) = (readPieces rest).map fun (ps, r) => (pieceOf c :: ps, r) := by
  by_cases hshort : c ∈ ['"', '\\', '\x08', '\x0c', '\n', '\r', '\t']
  · simp only [List.mem_cons, List.not_mem_nil, or_false] at hshort
    rcases hshort with rfl | rfl | rfl | rfl | rfl | rfl | rfl <;> rfl
  · have hpiece : pieceOf c = if isEscaped c then .code c.toNat else .char c := by
      rw [pieceOf, if_neg hshort]
    simp only [List.mem_cons, List.not_mem_nil, or_false, not_or] at hshort
    obtain ⟨h1, h2, h3, h4, h5, h6, h7⟩ := hshort
    rw [hpiece]
    simp only [escape, h1, h2, h3, h4, h5, h6, h7, if_false]
    by_cases hesc : isEscaped c = true
    · simp only [hesc, if_true, List.cons_append]
      exact readPieces_code (by have := isEscaped_lt hesc; omega) rest
    · have hplain : ¬ c.toNat < 0x20 := by
        intro hlt
        exact hesc (by simp [isEscaped, hlt])
      simp only [hesc, if_false, List.cons_append, List.nil_append, Bool.false_eq_true]
      exact readPieces_plain h1 h2 hplain rest

/-- The pieces of a quoted string are those of its characters. -/
theorem readPieces_quoted (s rest : List Char) :
    readPieces (s.flatMap escape ++ '"' :: rest) = some (s.map pieceOf, rest) := by
  induction s with
  | nil => rfl
  | cons c s ih =>
      rw [List.flatMap_cons, List.append_assoc, readPieces_escape, ih]
      rfl

theorem joinPieces_code {n : Nat} (h : isSurrogate n = false) (ps : List Piece) :
    joinPieces (.code n :: ps) = Char.ofNat n :: joinPieces ps := by
  cases ps with
  | nil => simp [joinPieces, h]
  | cons p ps => cases p <;> simp [joinPieces, h]

/-- The pieces of a string join to the string. -/
theorem joinPieces_map (s : List Char) : joinPieces (s.map pieceOf) = s := by
  induction s with
  | nil => rfl
  | cons c s ih =>
      rw [List.map_cons, pieceOf]
      split
      · rw [joinPieces, ih]
      · split
        · rename_i hesc
          have hlt := isEscaped_lt hesc
          have hhalf : isSurrogate c.toNat = false := by simp [isSurrogate]; omega
          rw [joinPieces_code hhalf, ih, Char.ofNat_toNat]
        · rw [joinPieces, ih]

/-- **A string is read back** from its quotes, whatever follows. -/
theorem readString_quoted (s rest : List Char) :
    readString (s.flatMap escape ++ '"' :: rest) = some (s, rest) := by
  rw [readString, readPieces_quoted]
  exact congrArg (fun s => some (s, rest)) (joinPieces_map s)

/-- What is read from a text is read from a longer one too. -/
theorem readPieces_append {s r : List Char} {ps : List Piece}
    (h : readPieces s = some (ps, r)) (t : List Char) :
    readPieces (s ++ t) = some (ps, r ++ t) := by
  induction s using readPieces.induct generalizing ps with
  | case1 => cases h
  | case2 r' =>
      cases h
      rfl
  | case3 a b c d r' hnone => simp [readPieces, hnone] at h
  | case4 a b c d r' n hcode ih =>
      simp only [readPieces, hcode] at h
      obtain ⟨⟨ps', _⟩, hrest, heq⟩ := Option.map_eq_some_iff.mp h
      cases heq
      simp [readPieces, hcode, ih hrest]
  | case5 e r' _ hnone =>
      -- The longer text could be a sequence of six characters, the shorter one is refused.
      simp [readPieces, hnone] at h
  | case6 e r' _ c hshort ih =>
      rw [readPieces_short hshort] at h
      obtain ⟨⟨ps', _⟩, hrest, heq⟩ := Option.map_eq_some_iff.mp h
      cases heq
      rw [List.cons_append, List.cons_append, readPieces_short hshort, ih hrest]
      rfl
  | case7 c r' _ _ _ hbad =>
      simp [readPieces, hbad] at h
  | case8 c r' hquote _ _ hgood ih =>
      simp only [Bool.or_eq_true, decide_eq_true_eq, not_or] at hgood
      rw [readPieces_plain hquote hgood.2 hgood.1] at h
      obtain ⟨⟨ps', _⟩, hrest, heq⟩ := Option.map_eq_some_iff.mp h
      cases heq
      rw [List.cons_append, readPieces_plain hquote hgood.2 hgood.1, ih hrest]
      rfl

/-- A literal is a text that is read up to its closing quote. -/
theorem isLiteral_iff {literal : List Char} :
    isLiteral literal = true ↔ ∃ ps, readPieces (literal ++ ['"']) = some (ps, []) := by
  unfold isLiteral
  rcases readPieces (literal ++ ['"']) with _ | ⟨ps, r⟩ <;> simp

/-- The literal is what was read up to the quote. -/
theorem readLiteral_of_readPieces {literal rest : List Char} {ps : List Piece}
    (h : readPieces (literal ++ '"' :: rest) = some (ps, rest)) :
    readLiteral (literal ++ '"' :: rest) = some (literal, rest) := by
  simp [readLiteral, h]

/-- **A string literal is read back** up to its closing quote. -/
theorem readLiteral_append {literal : List Char} (h : isLiteral literal = true)
    (rest : List Char) : readLiteral (literal ++ '"' :: rest) = some (literal, rest) := by
  obtain ⟨ps, hps⟩ := isLiteral_iff.mp h
  have hread := readPieces_append hps rest
  rw [List.append_assoc, List.singleton_append, List.nil_append] at hread
  exact readLiteral_of_readPieces hread

/-- What is written between the quotes is a literal. -/
theorem isLiteral_escape (s : List Char) : isLiteral (s.flatMap escape) = true :=
  isLiteral_iff.mpr ⟨_, readPieces_quoted s []⟩

/-- **It denotes the string that was written.** -/
@[simp]
theorem unquote_escape (s : List Char) : unquote (s.flatMap escape) = s := by
  simp [unquote, readPieces_quoted, joinPieces_map]

/-! ## Number literals -/

/-- Where a number literal has got to. -/
inductive NumberState
  | start
  | sign
  | zero
  | digits
  | point
  | fraction
  | exponent
  | exponentSign
  | exponentDigits
  deriving DecidableEq

/-- The next character of a number literal. -/
def NumberState.next : NumberState → Char → Option NumberState
  | .start, c =>
      if c = '-' then some .sign else if c = '0' then some .zero
      else if c.isDigit then some .digits else none
  | .sign, c => if c = '0' then some .zero else if c.isDigit then some .digits else none
  | .zero, c =>
      if c = '.' then some .point else if c = 'e' || c = 'E' then some .exponent else none
  | .digits, c =>
      if c.isDigit then some .digits else if c = '.' then some .point
      else if c = 'e' || c = 'E' then some .exponent else none
  | .point, c => if c.isDigit then some .fraction else none
  | .fraction, c =>
      if c.isDigit then some .fraction else if c = 'e' || c = 'E' then some .exponent else none
  | .exponent, c =>
      if c = '+' || c = '-' then some .exponentSign
      else if c.isDigit then some .exponentDigits else none
  | .exponentSign, c => if c.isDigit then some .exponentDigits else none
  | .exponentDigits, c => if c.isDigit then some .exponentDigits else none

/-- The literal may end here. -/
def NumberState.accepts : NumberState → Bool
  | .zero | .digits | .fraction | .exponentDigits => true
  | _ => false

/-- Reading on from a state ends where the literal may end. -/
def NumberState.completes : NumberState → List Char → Bool
  | q, [] => q.accepts
  | q, c :: cs =>
      match q.next c with
      | none => false
      | some q => q.completes cs

def isNumber (s : List Char) : Bool := NumberState.start.completes s

/-- The characters of number literals. -/
def isNumberChar (c : Char) : Bool := c.isDigit || c ∈ ['+', '-', '.', 'e', 'E']

/-- A number literal, and what follows it.  No character of a number literal can follow a
number, so the literal is all such characters from here on. -/
def readNumber (s : List Char) : Option (List Char × List Char) :=
  if isNumber (s.takeWhile isNumberChar) then
    some (s.takeWhile isNumberChar, s.dropWhile isNumberChar)
  else none

/-- A number goes on with such characters only. -/
theorem isNumberChar_of_next {q q' : NumberState} {c : Char} (h : q.next c = some q') :
    isNumberChar c = true := by
  have hzero : ∀ d : Char, d = '0' → d.isDigit = true := by
    rintro d rfl
    decide
  unfold isNumberChar
  cases q <;> simp only [NumberState.next] at h <;> grind

/-- A number has no other characters. -/
theorem isNumberChar_of_completes {q : NumberState} {s : List Char}
    (h : q.completes s = true) : ∀ c ∈ s, isNumberChar c = true := by
  induction s generalizing q with
  | nil => simp
  | cons c s ih =>
      rw [NumberState.completes] at h
      split at h
      · cases h
      · rename_i q' hq
        intro d hd
        rcases List.mem_cons.mp hd with rfl | hd
        · exact isNumberChar_of_next hq
        · exact ih h d hd

/-- What follows does not go on with a number. -/
def Delimited (rest : List Char) : Prop := ∀ c ∈ rest.head?, isNumberChar c = false

theorem delimited_nil : Delimited [] := by simp [Delimited]

theorem delimited_cons {c : Char} (h : isNumberChar c = false) (rest : List Char) :
    Delimited (c :: rest) := by
  simpa [Delimited] using h

/-- **A number literal is read back** up to its end. -/
theorem readNumber_append {s rest : List Char} (hs : isNumber s = true) (hrest : Delimited rest) :
    readNumber (s ++ rest) = some (s, rest) := by
  have hall := isNumberChar_of_completes hs
  have htake : (s ++ rest).takeWhile isNumberChar = s := by
    rw [List.takeWhile_append_of_pos hall]
    cases rest with
    | nil => simp
    | cons c rest =>
        have hc : isNumberChar c = false := hrest c rfl
        simp [hc]
  have hdrop : (s ++ rest).dropWhile isNumberChar = rest := by
    rw [List.dropWhile_append_of_pos hall]
    cases rest with
    | nil => rfl
    | cons c rest =>
        have hc : isNumberChar c = false := hrest c rfl
        simp [hc]
  rw [readNumber, htake, hdrop, if_pos hs]

/-! ## Values -/

inductive Value
  | null
  | bool (b : Bool)
  | number (literal : List Char)
  | string (literal : List Char)
  | array (items : List Value)
  | object (members : List (List Char × Value))

/-- The value whose literal denotes `s`. -/
def Value.text (s : List Char) : Value := .string (s.flatMap escape)

/-- A key and its value. -/
abbrev Member := List Char × Value

/-- Parts of a text with a separator between them. -/
def joinWith (sep : Char) : List (List Char) → List Char
  | [] => []
  | [t] => t
  | t :: u :: ts => t ++ sep :: joinWith sep (u :: ts)

mutual

/-- The compact text of a value. -/
def print : Value → List Char
  | .null => "null".toList
  | .bool true => "true".toList
  | .bool false => "false".toList
  | .number literal => literal
  | .string literal => '"' :: (literal ++ ['"'])
  | .array items => '[' :: (joinWith ',' (printItems items) ++ [']'])
  | .object members => '{' :: (joinWith ',' (printMembers members) ++ ['}'])

def printItems : List Value → List (List Char)
  | [] => []
  | v :: vs => print v :: printItems vs

def printMembers : List Member → List (List Char)
  | [] => []
  | m :: ms => printMember m :: printMembers ms

def printMember : Member → List Char
  | (key, v) => quote key ++ ':' :: print v

end

/-- The blanks that may stand between tokens. -/
def isBlank (c : Char) : Bool := c = ' ' || c = '\t' || c = '\r' || c = '\n'

def skipBlanks (s : List Char) : List Char := s.dropWhile isBlank

mutual

/-- A value, and what follows it.  The fuel bounds the nesting and the number of items. -/
def parseValue : Nat → List Char → Option (Value × List Char)
  | 0, _ => none
  | fuel + 1, s =>
      match skipBlanks s with
      | 'n' :: 'u' :: 'l' :: 'l' :: r => some (.null, r)
      | 't' :: 'r' :: 'u' :: 'e' :: r => some (.bool true, r)
      | 'f' :: 'a' :: 'l' :: 's' :: 'e' :: r => some (.bool false, r)
      | '"' :: r => (readLiteral r).map fun (literal, r) => (.string literal, r)
      | '[' :: r =>
          match skipBlanks r with
          | ']' :: r => some (.array [], r)
          | r => (parseItems fuel r).map fun (vs, r) => (.array vs, r)
      | '{' :: r =>
          match skipBlanks r with
          | '}' :: r => some (.object [], r)
          | r => (parseMembers fuel r).map fun (ms, r) => (.object ms, r)
      | r => (readNumber r).map fun (literal, r) => (.number literal, r)

/-- The items of an array up to its closing bracket. -/
def parseItems : Nat → List Char → Option (List Value × List Char)
  | 0, _ => none
  | fuel + 1, s =>
      match parseValue fuel s with
      | none => none
      | some (v, r) =>
          match skipBlanks r with
          | ',' :: r => (parseItems fuel r).map fun (vs, r) => (v :: vs, r)
          | ']' :: r => some ([v], r)
          | _ => none

/-- The members of an object up to its closing brace. -/
def parseMembers : Nat → List Char → Option (List Member × List Char)
  | 0, _ => none
  | fuel + 1, s =>
      match skipBlanks s with
      | '"' :: r =>
          match readString r with
          | none => none
          | some (key, r) =>
              match skipBlanks r with
              | ':' :: r =>
                  match parseValue fuel r with
                  | none => none
                  | some (v, r) =>
                      match skipBlanks r with
                      | ',' :: r => (parseMembers fuel r).map fun (ms, r) => ((key, v) :: ms, r)
                      | '}' :: r => some ([(key, v)], r)
                      | _ => none
              | _ => none
      | _ => none

end

mutual

/-- How deeply arrays and objects are nested. -/
def Value.depth : Value → Nat
  | .array items => itemsDepth items + 1
  | .object members => membersDepth members + 1
  | _ => 0

def itemsDepth : List Value → Nat
  | [] => 0
  | v :: vs => max v.depth (itemsDepth vs)

def membersDepth : List Member → Nat
  | [] => 0
  | m :: ms => max (memberDepth m) (membersDepth ms)

def memberDepth : Member → Nat
  | (_, v) => v.depth

end

/-- The first value of a text, if it is not nested more deeply than `maxDepth`. -/
def parseFirst (maxDepth : Nat) (s : List Char) : Option (Value × List Char) :=
  (parseValue (s.length + 1) s).filter fun (v, _) => decide (v.depth ≤ maxDepth)

/-- The value of a text that holds one value and nothing else. -/
def parse (maxDepth : Nat) (s : List Char) : Option Value :=
  match parseFirst maxDepth s with
  | none => none
  | some (v, r) => if skipBlanks r = [] then some v else none

/-! ## The round trip -/

mutual

/-- The literals in the value are literals of numbers and strings. -/
def Value.Valid : Value → Prop
  | .number literal => isNumber literal = true
  | .string literal => isLiteral literal = true
  | .array items => validItems items
  | .object members => validMembers members
  | _ => True

def validItems : List Value → Prop
  | [] => True
  | v :: vs => v.Valid ∧ validItems vs

def validMembers : List Member → Prop
  | [] => True
  | m :: ms => validMember m ∧ validMembers ms

def validMember : Member → Prop
  | (_, v) => v.Valid

end

mutual

/-- The fuel that the text of a value asks for. -/
def Value.fuel : Value → Nat
  | .array items => itemsFuel items + 1
  | .object members => membersFuel members + 1
  | _ => 1

def itemsFuel : List Value → Nat
  | [] => 0
  | v :: vs => max v.fuel (itemsFuel vs) + 1

def membersFuel : List Member → Nat
  | [] => 0
  | m :: ms => max (memberFuel m) (membersFuel ms) + 1

def memberFuel : Member → Nat
  | (_, v) => v.fuel

end

theorem skipBlanks_cons {c : Char} (h : isBlank c = false) (s : List Char) :
    skipBlanks (c :: s) = c :: s := by
  simp [skipBlanks, h]

/-- A number literal starts with a digit or a minus sign. -/
theorem isNumber_head {s : List Char} (h : isNumber s = true) :
    ∃ c t, s = c :: t ∧ (c = '-' ∨ c.isDigit = true) := by
  cases s with
  | nil => cases h
  | cons c t =>
      refine ⟨c, t, rfl, ?_⟩
      simp only [isNumber, NumberState.completes, NumberState.next] at h
      have hzero : ∀ d : Char, d = '0' → d.isDigit = true := by
        rintro d rfl
        decide
      grind

/-- The text of a value starts with a character that is neither a blank nor a closing
bracket. -/
theorem print_head {v : Value} (hv : v.Valid) :
    ∃ c t, print v = c :: t ∧ isBlank c = false ∧ c ≠ ']' := by
  cases v with
  | null => exact ⟨'n', _, rfl, by decide, by decide⟩
  | bool b => cases b <;> exact ⟨_, _, rfl, by decide, by decide⟩
  | number literal =>
      obtain ⟨c, t, hct, hc⟩ := isNumber_head hv
      refine ⟨c, t, by simpa [print] using hct, ?_, ?_⟩
      · rcases hc with rfl | hdigit
        · decide
        · simp only [isBlank, Bool.or_eq_false_iff, decide_eq_false_iff_not]
          refine ⟨⟨⟨?_, ?_⟩, ?_⟩, ?_⟩ <;> (rintro rfl; revert hdigit; decide)
      · rcases hc with rfl | hdigit
        · decide
        · rintro rfl
          revert hdigit
          decide
  | string literal => exact ⟨'"', _, by rw [print], by decide, by decide⟩
  | array items => exact ⟨'[', _, by rw [print], by decide, by decide⟩
  | object members => exact ⟨'{', _, by rw [print], by decide, by decide⟩

/-- Skipping blanks in front of a value. -/
theorem skipBlanks_print {v : Value} (hv : v.Valid) (rest : List Char) :
    skipBlanks (print v ++ rest) = print v ++ rest := by
  obtain ⟨c, t, hct, hblank, _⟩ := print_head hv
  rw [hct, List.cons_append, skipBlanks_cons hblank]

/-- A number is read up to where it ends. -/
theorem parseValue_number {literal : List Char} (h : isNumber literal = true) (fuel : Nat)
    {rest : List Char} (hrest : Delimited rest) :
    parseValue (fuel + 1) (literal ++ rest) = some (.number literal, rest) := by
  have hskip : skipBlanks (literal ++ rest) = literal ++ rest :=
    skipBlanks_print (v := .number literal) h rest
  obtain ⟨c, t, rfl, hc⟩ := isNumber_head h
  have hread := readNumber_append h hrest
  rw [parseValue, hskip]
  simp only [List.cons_append] at hread ⊢
  have hne : c ≠ 'n' ∧ c ≠ 't' ∧ c ≠ 'f' ∧ c ≠ '"' ∧ c ≠ '[' ∧ c ≠ '{' := by
    rcases hc with rfl | hdigit
    · decide
    · refine ⟨?_, ?_, ?_, ?_, ?_, ?_⟩ <;> (rintro rfl; revert hdigit; decide)
  split <;> simp_all

/-- A string is parsed as its literal. -/
theorem parseValue_string {s literal rest : List Char}
    (h : readLiteral s = some (literal, rest)) (fuel : Nat) :
    parseValue (fuel + 1) ('"' :: s) = some (.string literal, rest) := by
  rw [parseValue, skipBlanks_cons (by decide)]
  simp [h]

theorem joinWith_cons_cons (sep : Char) (t u : List Char) (ts : List (List Char)) :
    joinWith sep (t :: u :: ts) = t ++ sep :: joinWith sep (u :: ts) := rfl

/-- An array with items is parsed item by item. -/
theorem parseValue_items {r : List Char} {c : Char} {t : List Char} (hr : r = c :: t)
    (hblank : isBlank c = false) (hc : c ≠ ']') (fuel : Nat) :
    parseValue (fuel + 1) ('[' :: r) =
      (parseItems fuel r).map fun (vs, r) => (.array vs, r) := by
  subst hr
  rw [parseValue, skipBlanks_cons (by decide)]
  simp only [skipBlanks_cons hblank]
  split
  · rename_i heq
    exact absurd (List.cons.inj heq).1 hc
  · rfl

/-- An object with members is parsed member by member. -/
theorem parseValue_members (t : List Char) (fuel : Nat) :
    parseValue (fuel + 1) ('{' :: '"' :: t) =
      (parseMembers fuel ('"' :: t)).map fun (ms, r) => (.object ms, r) := by
  rw [parseValue, skipBlanks_cons (by decide)]
  simp only [skipBlanks_cons (show isBlank '"' = false by decide)]
  rfl

/-- A number ends at a comma and at a closing bracket. -/
theorem delimited_of_mem {c : Char} (h : c ∈ [',', ']', '}']) (rest : List Char) :
    Delimited (c :: rest) := by
  refine delimited_cons ?_ rest
  simp only [List.mem_cons, List.not_mem_nil, or_false] at h
  rcases h with rfl | rfl | rfl <;> decide

/-- With this fuel, the parser reads every printed value, whatever follows it. -/
def ReadsValues (fuel : Nat) : Prop :=
  ∀ v : Value, v.Valid → v.fuel ≤ fuel → ∀ rest, Delimited rest →
    parseValue fuel (print v ++ rest) = some (v, rest)

/-- The same for the items of an array up to the bracket. -/
def ReadsItems (fuel : Nat) : Prop :=
  ∀ v vs, validItems (v :: vs) → itemsFuel (v :: vs) ≤ fuel → ∀ rest,
    parseItems fuel (joinWith ',' (printItems (v :: vs)) ++ ']' :: rest) = some (v :: vs, rest)

/-- The same for the members of an object up to the brace. -/
def ReadsMembers (fuel : Nat) : Prop :=
  ∀ m ms, validMembers (m :: ms) → membersFuel (m :: ms) ≤ fuel → ∀ rest,
    parseMembers fuel (joinWith ',' (printMembers (m :: ms)) ++ '}' :: rest) =
      some (m :: ms, rest)

/-- With one more unit of fuel values are read, if items and members are. -/
theorem readsValues_succ {fuel : Nat} (hitems : ReadsItems fuel) (hmembers : ReadsMembers fuel) :
    ReadsValues (fuel + 1) := by
  intro v hv hfuel rest hrest
  cases v with
  | null => rfl
  | bool b => cases b <;> rfl
  | number literal => exact parseValue_number hv fuel hrest
  | string literal =>
      rw [print, List.cons_append, List.append_assoc, List.singleton_append]
      exact parseValue_string (readLiteral_append hv rest) fuel
  | array items =>
      rw [print, List.cons_append, List.append_assoc, List.singleton_append]
      cases items with
      | nil => rfl
      | cons v vs =>
          obtain ⟨c, t, hct, hblank, hc⟩ := print_head hv.1
          obtain ⟨t', ht'⟩ : ∃ t', joinWith ',' (printItems (v :: vs)) ++ ']' :: rest = c :: t' := by
            cases vs <;> simp [printItems, joinWith, hct]
          rw [parseValue_items ht' hblank hc,
            hitems v vs hv (by simpa [Value.fuel] using hfuel) rest]
          rfl
  | object members =>
      rw [print, List.cons_append, List.append_assoc, List.singleton_append]
      cases members with
      | nil => rfl
      | cons m ms =>
          obtain ⟨t', ht'⟩ :
              ∃ t', joinWith ',' (printMembers (m :: ms)) ++ '}' :: rest = '"' :: t' := by
            obtain ⟨key, v⟩ := m
            cases ms <;> simp [printMembers, printMember, quote, joinWith]
          rw [ht', parseValue_members, ← ht',
            hmembers m ms hv (by simpa [Value.fuel] using hfuel) rest]
          rfl

/-- With one more unit of fuel the items of an array are read. -/
theorem readsItems_succ {fuel : Nat} (hvalues : ReadsValues fuel) (hitems : ReadsItems fuel) :
    ReadsItems (fuel + 1) := by
  intro v vs hvs hfuel rest
  rw [itemsFuel] at hfuel
  cases vs with
  | nil =>
      have hread := hvalues v hvs.1 (by omega) (']' :: rest) (delimited_of_mem (by decide) rest)
      simp only [printItems, joinWith]
      rw [parseItems, hread]
      simp only [skipBlanks_cons (show isBlank ']' = false by decide)]
  | cons u us =>
      have hread := hvalues v hvs.1 (by omega)
        (',' :: (joinWith ',' (printItems (u :: us)) ++ ']' :: rest))
        (delimited_of_mem (by decide) _)
      have hrest := hitems u us hvs.2 (by omega) rest
      simp only [printItems] at hread hrest ⊢
      rw [joinWith_cons_cons, List.append_assoc, List.cons_append, parseItems, hread]
      simp only [skipBlanks_cons (show isBlank ',' = false by decide), hrest, Option.map_some]

/-- One member, if its value is read. -/
theorem parseMembers_value {fuel : Nat} (key : List Char) {v : Value} {s rest : List Char}
    (h : parseValue fuel s = some (v, rest)) :
    parseMembers (fuel + 1) (quote key ++ ':' :: s) =
      match skipBlanks rest with
      | ',' :: r => (parseMembers fuel r).map fun (ms, r) => ((key, v) :: ms, r)
      | '}' :: r => some ([(key, v)], r)
      | _ => none := by
  simp only [quote, List.cons_append, List.append_assoc, List.nil_append]
  rw [parseMembers, skipBlanks_cons (by decide)]
  simp only [readString_quoted, skipBlanks_cons (show isBlank ':' = false by decide), h]

/-- A member whose value cannot be read ends the object. -/
theorem parseMembers_none {fuel : Nat} (key : List Char) {s : List Char}
    (h : parseValue fuel s = none) : parseMembers (fuel + 1) (quote key ++ ':' :: s) = none := by
  simp only [quote, List.cons_append, List.append_assoc, List.nil_append]
  rw [parseMembers, skipBlanks_cons (by decide)]
  simp only [readString_quoted, skipBlanks_cons (show isBlank ':' = false by decide), h]

/-- With one more unit of fuel the members of an object are read. -/
theorem readsMembers_succ {fuel : Nat} (hvalues : ReadsValues fuel)
    (hmembers : ReadsMembers fuel) : ReadsMembers (fuel + 1) := by
  intro m ms hms hfuel rest
  obtain ⟨key, v⟩ := m
  rw [membersFuel, memberFuel] at hfuel
  cases ms with
  | nil =>
      have hread := hvalues v hms.1 (by omega) ('}' :: rest) (delimited_of_mem (by decide) rest)
      simp only [printMembers, printMember, joinWith, List.append_assoc, List.cons_append]
      rw [parseMembers_value key hread, skipBlanks_cons (by decide)]
      rfl
  | cons u us =>
      have hread := hvalues v hms.1 (by omega)
        (',' :: (joinWith ',' (printMembers (u :: us)) ++ '}' :: rest))
        (delimited_of_mem (by decide) _)
      have hrest := hmembers u us hms.2 (by omega) rest
      simp only [printMembers, printMember] at hread hrest ⊢
      simp only [joinWith_cons_cons, List.append_assoc, List.cons_append]
      rw [parseMembers_value key hread, skipBlanks_cons (by decide)]
      simp only [hrest, Option.map_some]

/-- **The parser reads what was printed**, if it has enough fuel. -/
theorem reads (fuel : Nat) : ReadsValues fuel ∧ ReadsItems fuel ∧ ReadsMembers fuel := by
  induction fuel with
  | zero =>
      refine ⟨?_, ?_, ?_⟩
      · intro v _ hfuel
        cases v <;> simp [Value.fuel] at hfuel
      · intro v vs _ hfuel
        simp [itemsFuel] at hfuel
      · intro m ms _ hfuel
        simp [membersFuel] at hfuel
  | succ fuel ih =>
      exact ⟨readsValues_succ ih.2.1 ih.2.2, readsItems_succ ih.1 ih.2.1,
        readsMembers_succ ih.1 ih.2.2⟩

mutual

/-- The text of a value is at least as long as the fuel it asks for. -/
theorem Value.fuel_le (v : Value) (hv : v.Valid) : v.fuel ≤ (print v).length := by
  cases v with
  | array items =>
      have := itemsFuel_le items hv
      simp only [Value.fuel, print, List.length_cons, List.length_append, List.length_nil]
      omega
  | object members =>
      have := membersFuel_le members hv
      simp only [Value.fuel, print, List.length_cons, List.length_append, List.length_nil]
      omega
  | number literal =>
      obtain ⟨c, t, hct, _⟩ := isNumber_head hv
      simp [Value.fuel, print, hct]
  | bool b => cases b <;> decide
  | null => decide
  | string literal => simp [Value.fuel, print]

/-- The text of an array is long enough for its fuel. -/
theorem itemsFuel_le (vs : List Value) (hvs : validItems vs) :
    itemsFuel vs ≤ (joinWith ',' (printItems vs)).length + 1 := by
  cases vs with
  | nil => simp [itemsFuel]
  | cons v vs =>
      have hv := v.fuel_le hvs.1
      have hrest := itemsFuel_le vs hvs.2
      cases vs with
      | nil =>
          simp only [itemsFuel, printItems, joinWith]
          omega
      | cons u us =>
          rw [itemsFuel]
          simp only [printItems, joinWith_cons_cons, List.length_append, List.length_cons] at hrest ⊢
          omega

/-- The text of an object is long enough for its fuel. -/
theorem membersFuel_le (ms : List Member) (hms : validMembers ms) :
    membersFuel ms ≤ (joinWith ',' (printMembers ms)).length + 1 := by
  cases ms with
  | nil => simp [membersFuel]
  | cons m ms =>
      have hm := memberFuel_le m hms.1
      have hrest := membersFuel_le ms hms.2
      cases ms with
      | nil =>
          simp only [membersFuel, printMembers, joinWith]
          omega
      | cons u us =>
          rw [membersFuel]
          simp only [printMembers, joinWith_cons_cons, List.length_append, List.length_cons]
            at hrest ⊢
          omega

/-- The text of a member is long enough for its fuel. -/
theorem memberFuel_le (m : Member) (hm : validMember m) :
    memberFuel m ≤ (printMember m).length := by
  obtain ⟨key, v⟩ := m
  have hv := v.fuel_le hm
  simp only [memberFuel, printMember, List.length_append, List.length_cons]
  omega

end

/-- A printed value is the first value of a text that it starts, unless it is nested too
deeply. -/
theorem parseFirst_print (maxDepth : Nat) {v : Value} (hv : v.Valid) {rest : List Char}
    (hrest : Delimited rest) :
    parseFirst maxDepth (print v ++ rest) =
      if v.depth ≤ maxDepth then some (v, rest) else none := by
  have hread : parseValue ((print v ++ rest).length + 1) (print v ++ rest) = some (v, rest) := by
    refine (reads _).1 v hv ?_ rest hrest
    have := v.fuel_le hv
    rw [List.length_append]
    omega
  rw [parseFirst, hread]
  simp [Option.filter_some]

/-- **The round trip**: a value is parsed as it was printed, unless it is nested too
deeply. -/
theorem parse_print (maxDepth : Nat) {v : Value} (hv : v.Valid) :
    parse maxDepth (print v) = if v.depth ≤ maxDepth then some v else none := by
  have hfirst := parseFirst_print maxDepth hv delimited_nil
  rw [List.append_nil] at hfirst
  by_cases hdepth : v.depth ≤ maxDepth
  · rw [if_pos hdepth] at hfirst ⊢
    rw [parse, hfirst]
    rfl
  · rw [if_neg hdepth] at hfirst ⊢
    rw [parse, hfirst]

end Json
