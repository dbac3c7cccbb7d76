import DistributedCaching.TokenEncoding
import Mathlib.Data.Finset.Dedup
import Mathlib.Data.List.Sort

/-!
# The prefix of a retrieval

A retrieval samples document indices, with repetition and in any order.  Both simulators
turn them into a token sequence: eight marker tokens for each document, and then the
tokens of the query.  Python sorts the set of the indices, and Go sorts the list.

Markers and query tokens share a range, but a block of eight equal tokens is never the
start of a query, whose tokens increase: so the Python sequence determines the set of
documents and the length of the query (`prefix_determines_set`).  Go keeps the
repetitions, computes in 64 bits, and panics if it cannot make the slice; it builds the same
sequence exactly for indices that do not repeat, if the tokens fit and the slice can be made
(`rag_prefixes_agree`).
-/

namespace Llmsim

/-- The marker tokens of documents, and the tokens of a query. -/
def encode (indices : List Int) (queryTokens : Nat) : List Int :=
  (indices.flatMap fun idx => List.replicate 8 (500000 + idx)) ++
    (List.range queryTokens).map fun j : Nat => 900000 + (j : Int)

/-- `sorted(set(indices))`. -/
def sortedSet (indices : List Int) : List Int := indices.dedup.insertionSort (· ≤ ·)

/-- `build_prefix_tokens`. -/
def buildPrefixTokens (docIndices : List Int) (queryTokens : Int) : List Int :=
  encode (sortedSet docIndices) queryTokens.toNat

/-- Eight numbers for every document, and one for every token of the query. -/
theorem length_encode (indices : List Int) (n : Nat) :
    (encode indices n).length = 8 * indices.length + n := by
  induction indices with
  | nil => simp [encode]
  | cons i indices ih =>
      simp only [encode, List.flatMap_cons, List.length_append, List.length_replicate,
        List.length_map, List.length_range, List.length_cons] at ih ⊢
      omega

/-- The documents come first, each with its eight numbers. -/
theorem encode_cons (i : Int) (indices : List Int) (n : Nat) :
    encode (i :: indices) n = List.replicate 8 (500000 + i) ++ encode indices n := by
  simp only [encode, List.flatMap_cons, List.append_assoc]

/-- A query does not start with a block of markers: its first two tokens differ. -/
theorem encode_nil_ne (p : Nat) (i : Int) (indices : List Int) (q : Nat) :
    encode [] p ≠ encode (i :: indices) q := by
  intro h
  have hlength := congrArg List.length h
  rw [length_encode, length_encode, List.length_nil, List.length_cons] at hlength
  have hquery : ∀ j < p, (encode [] p)[j]? = some (900000 + (j : Int)) := by
    intro j hj
    simp [encode, hj]
  have hmarker : ∀ j < 8, (encode (i :: indices) q)[j]? = some (500000 + i) := by
    intro j hj
    rw [encode_cons, List.getElem?_append_left (by simpa using hj), List.getElem?_replicate,
      if_pos hj]
  have hzero := hquery 0 (by omega)
  have hone := hquery 1 (by omega)
  rw [h, hmarker 0 (by decide), Option.some_inj] at hzero
  rw [h, hmarker 1 (by decide), Option.some_inj] at hone
  omega

/-- **The sequence determines the documents and the length of the query.** -/
theorem encode_injective {xs ys : List Int} {p q : Nat} (h : encode xs p = encode ys q) :
    xs = ys ∧ p = q := by
  induction xs generalizing ys with
  | nil =>
      cases ys with
      | nil =>
          have hlength := congrArg List.length h
          rw [length_encode, length_encode, List.length_nil] at hlength
          exact ⟨rfl, by omega⟩
      | cons y ys => exact absurd h (encode_nil_ne p y ys q)
  | cons x xs ih =>
      cases ys with
      | nil => exact absurd h.symm (encode_nil_ne q x xs p)
      | cons y ys =>
          rw [encode_cons, encode_cons] at h
          obtain ⟨hblock, hrest⟩ := List.append_inj h (by simp)
          have hhead := (List.cons.inj hblock).1
          obtain ⟨htail, hquery⟩ := ih hrest
          exact ⟨by rw [htail, Int.add_left_cancel hhead], hquery⟩

/-- Sorting and removing duplicates keeps the documents. -/
theorem mem_sortedSet {indices : List Int} {i : Int} : i ∈ sortedSet indices ↔ i ∈ indices := by
  rw [sortedSet, List.mem_insertionSort, List.mem_dedup]

/-- The documents are in strictly increasing order. -/
theorem pairwise_sortedSet (indices : List Int) : (sortedSet indices).Pairwise (· < ·) := by
  have hnodup : (sortedSet indices).Nodup :=
    (List.perm_insertionSort _ _).nodup_iff.mpr (List.nodup_dedup indices)
  have hsorted : (sortedSet indices).Pairwise (· ≤ ·) := List.pairwise_insertionSort _ _
  exact (hsorted.and hnodup).imp fun hab => lt_of_le_of_ne hab.1 hab.2

/-- The sorted list depends on the set only. -/
theorem sortedSet_eq_iff {a b : List Int} : sortedSet a = sortedSet b ↔ ∀ i, i ∈ a ↔ i ∈ b := by
  constructor
  · intro h i
    rw [← mem_sortedSet, h, mem_sortedSet]
  · intro h
    refine (pairwise_sortedSet a).eq_of_mem_iff (pairwise_sortedSet b) fun i => ?_
    rw [mem_sortedSet, mem_sortedSet]
    exact h i

/-- **The RAG prefix determines the document set**, and the length of the query: for all
lists of integers, in any range. -/
theorem prefix_determines_set (a b : List Int) (p q : Nat) :
    buildPrefixTokens a p = buildPrefixTokens b q ↔ a.toFinset = b.toFinset ∧ p = q := by
  have hset : a.toFinset = b.toFinset ↔ ∀ i, i ∈ a ↔ i ∈ b := by
    rw [Finset.ext_iff]
    simp only [List.mem_toFinset]
  rw [hset, ← sortedSet_eq_iff, buildPrefixTokens, buildPrefixTokens, Int.toNat_natCast,
    Int.toNat_natCast]
  constructor
  · exact encode_injective
  · intro h
    rw [h.1, h.2]

end Llmsim

namespace Llm

open Go

/-- `sort.Ints`. -/
def sortInts (indices : List Int64) : List Int64 := indices.insertionSort (· ≤ ·)

/-- The number of documents that `Retrieve` returns from a store of `stored` documents. -/
def retrieved (stored : Nat) (docIndices : List Int64) : Nat :=
  (docIndices.filter fun idx => 0 ≤ idx.toInt ∧ idx.toInt < (stored : Int)).length

/-- The tokens of a prefix. -/
def prefixTokens (queryTokens : Int64) (docIndices : List Int64) : List Int64 :=
  (docIndices.flatMap fun idx => List.replicate 8 (500000 + idx)) ++
    (List.range queryTokens.toInt.toNat).map fun j => 900000 + Int64.ofNat j

variable (maxInts : Nat)

/-- The capacity of the slice; `maxInts` is the largest capacity of a slice of `int`s. -/
def CanMake (docs : Nat) (queryTokens : Int64) : Prop :=
  0 ≤ (Int64.ofNat docs * 8 + queryTokens).toInt ∧
    (Int64.ofNat docs * 8 + queryTokens).toInt ≤ maxInts

instance (docs : Nat) (queryTokens : Int64) : Decidable (CanMake maxInts docs queryTokens) :=
  inferInstanceAs (Decidable (_ ∧ _))

/-- `buildPrefixTokens`, given the number of documents; `none` is the panic of `make`. -/
def buildPrefixTokens (docs : Nat) (queryTokens : Int64) (docIndices : List Int64) :
    Option (List Int64) :=
  if CanMake maxInts docs queryTokens then some (prefixTokens queryTokens docIndices) else none

/-- The prefix of a request of `RunRAGSimulation`. -/
def ragPrefix (stored : Nat) (docIndices : List Int64) (queryTokens : Int64) :
    Option (List Int64) :=
  let docIndices := sortInts docIndices
  buildPrefixTokens maxInts (retrieved stored docIndices) queryTokens docIndices

/-- Indices and a query whose tokens are integers of 64 bits. -/
structure Fits (docIndices : List Int64) (queryTokens : Int64) : Prop where
  indices : ∀ idx ∈ docIndices, 500000 + idx.toInt < 2 ^ 63
  query : 900000 + queryTokens.toInt ≤ 2 ^ 63

/-- A sum with a small number is the integer sum exactly if it has not wrapped. -/
theorem toInt_add_eq_iff {a b : Int64} (ha : 0 ≤ a.toInt) :
    (a + b).toInt = a.toInt + b.toInt ↔ a.toInt + b.toInt < 2 ^ 63 := by
  constructor
  · intro h
    rw [← h]
    exact Int64.toInt_lt _
  · intro h
    have hlow := Int64.le_toInt b
    rw [Int64.toInt_add]
    exact Int.bmod_eq_of_le (by omega) (by omega)

/-- Blocks of copies are the same exactly if the things copied are. -/
theorem flatMap_replicate_inj {α β : Type} {n : Nat} (hn : 0 < n) {f g : α → β} (l : List α) :
    l.flatMap (fun a => List.replicate n (f a)) = l.flatMap (fun a => List.replicate n (g a)) ↔
      ∀ a ∈ l, f a = g a := by
  constructor
  · intro h
    induction l with
    | nil => simp
    | cons a l ih =>
        rw [List.flatMap_cons, List.flatMap_cons] at h
        obtain ⟨hblock, hrest⟩ := List.append_inj h (by simp)
        have ha : f a = g a := (List.replicate_right_inj hn.ne').mp hblock
        exact List.forall_mem_cons.mpr ⟨ha, ih hrest⟩
  · intro h
    exact List.flatMap_congr fun a ha => by rw [h a ha]

variable {maxInts} {a b : List Int64} {q : Int64}

/-- Sorting in Go is sorting the values. -/
theorem map_toInt_sortInts (a : List Int64) :
    (sortInts a).map Int64.toInt = (a.map Int64.toInt).insertionSort (· ≤ ·) :=
  List.map_insertionSort _ _ _ _ fun _ _ _ _ => Int64.le_iff_toInt_le

/-- **The tokens of Go are those of Python** for the sorted indices exactly if they fit. -/
theorem map_toInt_prefixTokens :
    (prefixTokens q (sortInts a)).map Int64.toInt =
        Llmsim.encode ((sortInts a).map Int64.toInt) q.toInt.toNat ↔ Fits a q := by
  have hmarker : ∀ idx : Int64, (500000 + idx).toInt = 500000 + idx.toInt ↔
      500000 + idx.toInt < 2 ^ 63 := fun idx =>
    toInt_add_eq_iff (a := 500000) (by decide)
  have hquery : ∀ j < q.toInt.toNat, ((900000 + Int64.ofNat j).toInt = 900000 + (j : Int) ↔
      900000 + (j : Int) < 2 ^ 63) := by
    intro j hj
    have hlast := Int64.toInt_lt q
    have hsmall : (Int64.ofNat j).toInt = j := Int64.toInt_ofNat_of_lt (by omega)
    have hadd := toInt_add_eq_iff (a := 900000) (b := Int64.ofNat j) (by decide)
    rwa [hsmall] at hadd
  rw [prefixTokens, List.map_append, List.map_flatMap, List.map_map, Llmsim.encode,
    List.flatMap_map]
  simp only [List.map_replicate, Function.comp_def]
  constructor
  · intro h
    obtain ⟨hblocks, hrest⟩ := List.append_inj' h (by simp)
    have hindices := (flatMap_replicate_inj (by decide) _).mp hblocks
    have htokens := List.map_inj_left.mp hrest
    refine ⟨fun idx hidx => ?_, ?_⟩
    · exact (hmarker idx).mp (hindices idx ((List.mem_insertionSort _).mpr hidx))
    · by_contra hlarge
      have hj : q.toInt.toNat - 1 < q.toInt.toNat := by omega
      have hlast := (hquery _ hj).mp (htokens _ (List.mem_range.mpr hj))
      omega
  · intro h
    refine congrArg₂ _ ((flatMap_replicate_inj (by decide) _).mpr ?_) (List.map_congr_left ?_)
    · intro idx hidx
      exact (hmarker idx).mpr (h.indices idx ((List.mem_insertionSort _).mp hidx))
    · intro j hj
      rw [List.mem_range] at hj
      have hbound := h.query
      exact (hquery j hj).mpr (by omega)

/-- The prefix has eight tokens for every document, and those of the query. -/
theorem length_prefixTokens (q : Int64) (l : List Int64) :
    (prefixTokens q l).length = 8 * l.length + q.toInt.toNat := by
  induction l with
  | nil => simp [prefixTokens]
  | cons i l ih =>
      simp only [prefixTokens, List.flatMap_cons, List.length_append, List.length_replicate,
        List.length_cons] at ih ⊢
      omega

theorem toInt_injective : Function.Injective Int64.toInt := fun _ _ h => Int64.toInt_inj.mp h

/-- **They are those that Python builds** exactly if moreover no index repeats. -/
theorem prefixTokens_eq_iff :
    (prefixTokens q (sortInts a)).map Int64.toInt =
        Llmsim.buildPrefixTokens (a.map Int64.toInt) q.toInt ↔ a.Nodup ∧ Fits a q := by
  have hsorted : a.Nodup → Llmsim.sortedSet (a.map Int64.toInt) = (sortInts a).map Int64.toInt := by
    intro hnodup
    rw [Llmsim.sortedSet, List.dedup_eq_self.mpr (hnodup.map toInt_injective), map_toInt_sortInts]
  constructor
  · intro heq
    have hlength := congrArg List.length heq
    rw [Llmsim.buildPrefixTokens, Llmsim.length_encode, Llmsim.sortedSet,
      List.length_insertionSort] at hlength
    rw [List.length_map, length_prefixTokens, sortInts, List.length_insertionSort] at hlength
    have hself := (List.dedup_sublist (a.map Int64.toInt)).eq_of_length (by simp; omega)
    have hnodup : a.Nodup := (List.nodup_map_iff toInt_injective).mp (List.dedup_eq_self.mp hself)
    rw [Llmsim.buildPrefixTokens, hsorted hnodup] at heq
    exact ⟨hnodup, map_toInt_prefixTokens.mp heq⟩
  · rintro ⟨hnodup, hfits⟩
    rw [Llmsim.buildPrefixTokens, hsorted hnodup]
    exact map_toInt_prefixTokens.mpr hfits

/-- **When Go and Python build the same prefix**: exactly for indices that do not repeat, whose
tokens fit into 64 bits, as those of the query must, and if the slice can be made.  The keys are
then the same too.  And without repetitions, retrievals of the same documents get the same
prefix in Go, as they always do in Python. -/
theorem rag_prefixes_agree (maxInts stored : Nat) (a : List Int64) (q : Int64) :
    ((ragPrefix maxInts stored a q).map (List.map Int64.toInt) =
        some (Llmsim.buildPrefixTokens (a.map Int64.toInt) q.toInt) ↔
      a.Nodup ∧ Fits a q ∧ CanMake maxInts (retrieved stored (sortInts a)) q) ∧
      (a.Nodup → Fits a q → ∀ sha256, ∀ tokens ∈ ragPrefix maxInts stored a q,
        hashPrefix sha256 (some tokens) =
          Llmsim.hashPrefix sha256 (Llmsim.buildPrefixTokens (a.map Int64.toInt) q.toInt)) ∧
      ∀ b : List Int64, (∀ i, i ∈ a ↔ i ∈ b) →
        (a.Nodup → b.Nodup → ragPrefix maxInts stored a q = ragPrefix maxInts stored b q) ∧
          Llmsim.buildPrefixTokens (a.map Int64.toInt) q.toInt =
            Llmsim.buildPrefixTokens (b.map Int64.toInt) q.toInt := by
  refine ⟨?_, ?_, ?_⟩
  · rw [ragPrefix, buildPrefixTokens]
    by_cases hmake : CanMake maxInts (retrieved stored (sortInts a)) q
    · rw [if_pos hmake, Option.map_some, Option.some_inj, prefixTokens_eq_iff]
      simp only [hmake, and_true]
    · rw [if_neg hmake, Option.map_none]
      simp only [hmake, and_false, reduceCtorEq]
  · intro hnodup hfits sha256 tokens htokens
    obtain ⟨_, ⟨⟩⟩ := Option.ite_none_right_eq_some.mp htokens
    rw [← prefixTokens_eq_iff.mpr ⟨hnodup, hfits⟩, hashPrefix, Llmsim.hashPrefix,
      Llmsim.dumps_eq_marshal]
  · intro b hsame
    refine ⟨fun ha hb => ?_, ?_⟩
    · have hperm : a.Perm b := (List.perm_ext_iff_of_nodup ha hb).mpr hsame
      have hsorted : (sortInts a).Perm (sortInts b) :=
        (List.perm_insertionSort _ a).trans (hperm.trans (List.perm_insertionSort _ b).symm)
      have hsort : sortInts a = sortInts b := hsorted.eq_of_pairwise'
        (List.pairwise_insertionSort _ a) (List.pairwise_insertionSort _ b)
      simp only [ragPrefix, hsort]
    · have hset : Llmsim.sortedSet (a.map Int64.toInt) = Llmsim.sortedSet (b.map Int64.toInt) := by
        rw [Llmsim.sortedSet_eq_iff]
        intro i
        simp only [List.mem_map, hsame]
      rw [Llmsim.buildPrefixTokens, Llmsim.buildPrefixTokens, hset]

/-- Three documents in another order. -/
theorem rag_prefixes_agree_reordered :
    (ragPrefix (2 ^ 45) 50 [7, 2, 5] 1).map (List.map Int64.toInt) =
        some (Llmsim.buildPrefixTokens [7, 2, 5] 1) ∧
      ragPrefix (2 ^ 45) 50 [7, 2, 5] 1 = ragPrefix (2 ^ 45) 50 [2, 5, 7] 1 := by
  have hfits : Fits [7, 2, 5] 1 := by
    constructor
    · simp only [List.mem_cons, List.not_mem_nil, or_false, forall_eq_or_imp, forall_eq]
      decide
    · decide
  obtain ⟨hsame, _, hset⟩ := rag_prefixes_agree (2 ^ 45) 50 [7, 2, 5] 1
  exact ⟨hsame.mpr ⟨by decide, hfits, by decide⟩,
    (hset [2, 5, 7] (by simp; tauto)).1 (by decide) (by decide)⟩

/-- A query of negative length, whose slice cannot be made. -/
example : ragPrefix (2 ^ 45) 50 [7, 2, 5] (-25) = none := by decide

/-- **A document sampled twice**: Go writes its markers twice, and Python once.  Two
retrievals of the documents 3 and 4 get one prefix in Python, and two in Go. -/
theorem repeated_document_differs :
    (ragPrefix (2 ^ 45) 50 [3, 3] 0).map (List.map Int64.toInt) ≠
        some (Llmsim.buildPrefixTokens [3, 3] 0) ∧
      Llmsim.buildPrefixTokens [3, 3, 4] 0 = Llmsim.buildPrefixTokens [3, 4, 4] 0 ∧
      ragPrefix (2 ^ 45) 50 [3, 3, 4] 0 ≠ ragPrefix (2 ^ 45) 50 [3, 4, 4] 0 := by
  decide

end Llm
