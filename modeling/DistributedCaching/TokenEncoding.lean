import DistributedCaching.PrefixCache

/-!
# The bytes that identify a prefix

Both simulators key their caches by a hash of the token sequence: the sequence is written
as JSON, and 16 bytes of the SHA-256 of the text become 32 hexadecimal digits.  SHA-256
is a parameter here.

The text is the same in both languages (`dumps_eq_marshal`) and can be read back: the
tokens are the pieces between the commas (`dumps_injective`).  So prefixes with one key
and different tokens are a collision of the truncated hash (`hashed_bytes_identify`).
-/

namespace Go

/-- The bytes of a text in UTF-8. -/
def utf8 (s : Text) : Bytes := (String.ofList s).toUTF8.data.toList

theorem utf8_injective {s s' : Text} (h : utf8 s = utf8 s') : s = s' := by
  refine String.ofList_injective (String.toByteArray_inj.mp ?_)
  exact ByteArray.ext (Array.toList_inj.mp h)

/-- The two hexadecimal digits of a byte. -/
def hexByte (b : UInt8) : Text := [Nat.digitChar (b.toNat / 16), Nat.digitChar (b.toNat % 16)]

/-- `hex.EncodeToString`. -/
def hexEncode (bs : Bytes) : Text := bs.flatMap hexByte

theorem digitChar_injective : ∀ i j : Fin 16, Nat.digitChar i = Nat.digitChar j → i = j := by
  decide

theorem hexByte_injective {b b' : UInt8} (h : hexByte b = hexByte b') : b = b' := by
  have hb := b.toNat_lt
  have hb' := b'.toNat_lt
  simp only [hexByte, List.cons.injEq, and_true] at h
  have hhigh := digitChar_injective ⟨b.toNat / 16, by omega⟩ ⟨b'.toNat / 16, by omega⟩ h.1
  have hlow := digitChar_injective ⟨b.toNat % 16, by omega⟩ ⟨b'.toNat % 16, by omega⟩ h.2
  simp only [Fin.mk.injEq] at hhigh hlow
  refine UInt8.toNat_inj.mp ?_
  omega

theorem length_hexEncode (bs : Bytes) : (hexEncode bs).length = 2 * bs.length := by
  induction bs with
  | nil => rfl
  | cons b bs ih =>
      rw [hexEncode, List.flatMap_cons, List.length_append, ← hexEncode, ih, List.length_cons]
      simp only [hexByte, List.length_cons, List.length_nil]
      omega

theorem hexEncode_injective {bs bs' : Bytes} (h : hexEncode bs = hexEncode bs') : bs = bs' := by
  induction bs generalizing bs' with
  | nil =>
      cases bs' with
      | nil => rfl
      | cons b' bs' => cases h
  | cons b bs ih =>
      cases bs' with
      | nil => cases h
      | cons b' bs' =>
          obtain ⟨hbyte, hrest⟩ := List.append_inj h rfl
          rw [hexByte_injective hbyte, ih hrest]

end Go

namespace Llm

open Go

/-- `json.Marshal` of a slice of integers; `none` is the slice `nil`. -/
def marshal : Option (List Int64) → Text
  | none => ['n', 'u', 'l', 'l']
  | some tokens =>
      '[' :: (tokens.zipIdx.flatMap fun x =>
        (if x.2 > 0 then [','] else []) ++ Go.formatInt x.1.toInt) ++ [']']

/-- The first 16 bytes of a digest, as a key. -/
def keyOf (digest : Vector UInt8 32) : PrefixHash where
  text := String.ofList (hexEncode (digest.toList.take 16))
  digits := by
    rw [String.length_ofList, length_hexEncode, List.length_take, Vector.length_toList]
    rfl

/-- `HashPrefix`. -/
def hashPrefix (sha256 : Bytes → Vector UInt8 32) (tokens : Option (List Int64)) : PrefixHash :=
  keyOf (sha256 (utf8 (marshal tokens)))

/-- A key holds the 16 bytes that it was made from. -/
theorem keyOf_text {d d' : Vector UInt8 32} (h : (keyOf d).text = (keyOf d').text) :
    d.toList.take 16 = d'.toList.take 16 :=
  hexEncode_injective (String.ofList_injective h)

end Llm

namespace Llmsim

open Go
open Llm (PrefixHash keyOf marshal keyOf_text)

/-- `json.dumps(tokens, separators=(",", ":"))`. -/
def dumps (tokens : List Int) : Text :=
  if tokens = [] then ['[', ']'] else '[' :: [','].intercalate (tokens.map Go.formatInt) ++ [']']

/-- `hash_prefix`. -/
def hashPrefix (sha256 : Bytes → Vector UInt8 32) (tokens : List Int) : PrefixHash :=
  keyOf (sha256 (utf8 (dumps tokens)))

/-- The text of a list of numbers: their texts with commas, in brackets. -/
theorem dumps_eq (tokens : List Int) :
    dumps tokens = '[' :: [','].intercalate (tokens.map Go.formatInt) ++ [']'] := by
  unfold dumps
  split
  · rename_i hnil
    rw [hnil]
    rfl
  · rfl

/-- Elements after the first one are written with a comma before them. -/
theorem intercalate_eq_flatMap (t : Int64) (tokens : List Int64) (i : Nat) :
    [','].intercalate ((t :: tokens).map fun x => Go.formatInt x.toInt) =
      Go.formatInt t.toInt ++ (tokens.zipIdx (i + 1)).flatMap fun x =>
        (if x.2 > 0 then [','] else []) ++ Go.formatInt x.1.toInt := by
  induction tokens generalizing t i with
  | nil => simp
  | cons t' tokens ih =>
      have hrest := ih t' (i + 1)
      rw [List.map_cons] at hrest
      rw [List.map_cons, List.map_cons, List.intercalate_cons_cons, hrest, List.zipIdx_cons,
        List.flatMap_cons]
      simp

/-- **Both languages write the same text.** -/
theorem dumps_eq_marshal (tokens : List Int64) :
    dumps (tokens.map Int64.toInt) = marshal (some tokens) := by
  rw [dumps_eq, List.map_map]
  cases tokens with
  | nil => rfl
  | cons t tokens =>
      have hrest := intercalate_eq_flatMap t tokens 0
      simp only [marshal, List.zipIdx_cons, List.flatMap_cons]
      show '[' :: [','].intercalate ((t :: tokens).map fun x => Go.formatInt x.toInt) ++ [']'] = _
      rw [hrest]
      simp

/-- The pieces between the commas are the tokens. -/
theorem splitOn_elements {tokens : List Int} (h : tokens ≠ []) :
    ([','].intercalate (tokens.map Go.formatInt)).splitOn ',' = tokens.map Go.formatInt := by
  refine List.splitOn_intercalate ',' ?_ (by simpa using h)
  intro s hs hcomma
  obtain ⟨t, _, rfl⟩ := List.mem_map.mp hs
  rcases of_mem_formatInt hcomma with heq | hdigit
  · exact absurd heq (by decide)
  · exact absurd hdigit (by decide)

/-- **The text determines the tokens.** -/
theorem dumps_injective {a b : List Int} (h : dumps a = dumps b) : a = b := by
  have hinner :
      [','].intercalate (a.map Go.formatInt) = [','].intercalate (b.map Go.formatInt) := by
    rw [dumps_eq, dumps_eq] at h
    exact List.append_cancel_right (List.cons.inj h).2
  -- Only the empty sequence leaves nothing between the brackets.
  have hnone : ∀ {l : List Int}, [','].intercalate (l.map Go.formatInt) = [] → l = [] := by
    intro l hl
    by_contra hne
    have hsplit := splitOn_elements hne
    rw [hl] at hsplit
    have hmem : [] ∈ l.map Go.formatInt := hsplit ▸ List.mem_singleton.mpr rfl
    obtain ⟨t, _, ht⟩ := List.mem_map.mp hmem
    exact formatInt_ne_nil t ht
  by_cases ha : a = []
  · subst ha
    exact (hnone hinner.symm).symm
  · have hb : b ≠ [] := by
      intro hb
      subst hb
      exact ha (hnone hinner)
    have hsplit := splitOn_elements ha
    rw [hinner, splitOn_elements hb] at hsplit
    exact (List.map_injective_iff.mpr formatInt_injective hsplit).symm

/-- The truncated hash takes two different byte strings to the same 16 bytes. -/
def Collides (sha256 : Bytes → Vector UInt8 32) (x y : Bytes) : Prop :=
  x ≠ y ∧ (sha256 x).toList.take 16 = (sha256 y).toList.take 16

/-- **The hashed bytes identify the token sequence.**  Go and Python hash the same bytes
for the same 64-bit tokens and so get the same key; the bytes are equal only for equal
sequences, in both languages; and different sequences with one key are a collision of
the truncated hash. -/
theorem hashed_bytes_identify (sha256 : Bytes → Vector UInt8 32) (a b : List Int64) :
    utf8 (marshal (some a)) = utf8 (dumps (a.map Int64.toInt)) ∧
      Llm.hashPrefix sha256 (some a) = hashPrefix sha256 (a.map Int64.toInt) ∧
      (utf8 (marshal (some a)) = utf8 (marshal (some b)) ↔ a = b) ∧
      (utf8 (dumps (a.map Int64.toInt)) = utf8 (dumps (b.map Int64.toInt)) ↔ a = b) ∧
      ((Llm.hashPrefix sha256 (some a)).text = (Llm.hashPrefix sha256 (some b)).text ↔
        a = b ∨ Collides sha256 (utf8 (marshal (some a))) (utf8 (marshal (some b)))) := by
  have hpython : utf8 (dumps (a.map Int64.toInt)) = utf8 (dumps (b.map Int64.toInt)) ↔ a = b := by
    constructor
    · intro h
      have htokens := dumps_injective (utf8_injective h)
      exact List.map_injective_iff.mpr (fun x y hxy => Int64.toInt_inj.mp hxy) htokens
    · intro h
      rw [h]
  have hgo : utf8 (marshal (some a)) = utf8 (marshal (some b)) ↔ a = b := by
    rw [← dumps_eq_marshal, ← dumps_eq_marshal]
    exact hpython
  refine ⟨by rw [dumps_eq_marshal], ?_, hgo, hpython, ?_⟩
  · rw [Llm.hashPrefix, hashPrefix, dumps_eq_marshal]
  · constructor
    · intro h
      by_cases hab : a = b
      · exact Or.inl hab
      · exact Or.inr ⟨fun hbytes => hab (hgo.mp hbytes), keyOf_text h⟩
    · intro h
      rcases h with hab | hcollision
      · rw [hab]
      · simp only [Llm.hashPrefix, keyOf, hcollision.2]

end Llmsim
