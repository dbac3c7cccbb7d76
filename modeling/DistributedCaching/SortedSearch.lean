import Mathlib.Data.List.Sort
import Mathlib.Order.Bounds.Basic
import Mathlib.Tactic.Common

/-!
# Binary search and circular successors

`search n f` is the loop of Go's `sort.Search`: the smallest index of `[0, n)` at
which the monotone test `f` succeeds, or `n`.  On a sorted list it finds the
first element not below a given one; wrapping around to the head when there is
none gives the successor on a circle, which is `clockwise` without any indices, and
`IsSuccessor` without any order of the list: it speaks of the set of elements.
-/

namespace SortedSearch

/-- The halving loop on the interval `[i, j)`, for at most `fuel` rounds. -/
def searchLoop (f : Nat → Bool) : Nat → Nat → Nat → Nat
  | 0, i, _ => i
  | fuel + 1, i, j =>
      if i < j then
        if f ((i + j) / 2) then searchLoop f fuel i ((i + j) / 2)
        else searchLoop f fuel ((i + j) / 2 + 1) j
      else i

/-- `sort.Search(n, f)`.  Every round shortens the interval, so `n` rounds suffice. -/
def search (n : Nat) (f : Nat → Bool) : Nat := searchLoop f n 0 n

/-- The test separates the indices below `n`: once true, it stays true. -/
def Monotone (n : Nat) (f : Nat → Bool) : Prop :=
  ∀ k l, k ≤ l → l < n → f k = true → f l = true

/-- **The loop invariant**: the test fails below `i` and succeeds from `j` on. -/
structure Narrowed (n : Nat) (f : Nat → Bool) (i j : Nat) : Prop where
  le : i ≤ j
  bound : j ≤ n
  below : ∀ k < i, f k = false
  above : ∀ k, j ≤ k → k < n → f k = true

variable {n : Nat} {f : Nat → Bool}

/-- With enough fuel the loop closes the interval. -/
theorem searchLoop_narrowed (hf : Monotone n f) {fuel i j : Nat}
    (h : Narrowed n f i j) (hfuel : j - i ≤ fuel) :
    Narrowed n f (searchLoop f fuel i j) (searchLoop f fuel i j) := by
  induction fuel generalizing i j with
  | zero =>
      have hij : i = j := by
        have := h.le
        omega
      subst hij
      exact h
  | succ fuel ih =>
      have hle := h.le
      have hbound := h.bound
      simp only [searchLoop]
      by_cases hlt : i < j
      · rw [if_pos hlt]
        by_cases hmid : f ((i + j) / 2) = true
        · rw [if_pos hmid]
          apply ih _ (by omega)
          refine ⟨by omega, by omega, h.below, ?_⟩
          intro k hk hkn
          exact hf _ k hk hkn hmid
        · rw [if_neg hmid]
          apply ih _ (by omega)
          refine ⟨by omega, hbound, ?_, h.above⟩
          intro k hk
          by_contra hne
          have hk' : f k = true := by simpa using hne
          exact hmid (hf k _ (by omega) (by omega) hk')
      · rw [if_neg hlt]
        have hij : i = j := by omega
        subst hij
        exact h

/-- **Binary search finds the boundary** of a monotone test. -/
theorem search_narrowed (hf : Monotone n f) : Narrowed n f (search n f) (search n f) := by
  apply searchLoop_narrowed hf _ (by omega)
  refine ⟨Nat.zero_le n, le_rfl, ?_, ?_⟩
  · intro k hk
    omega
  · intro k hk hkn
    omega

variable {α : Type*} [LinearOrder α]

/-- The first element of a sorted list not below `x`, wrapping around to the head. -/
def clockwise (l : List α) (x : α) : Option α :=
  (l.find? (x ≤ ·)).or l.head?

variable {l : List α} {x t : α}

theorem clockwise_mem (h : clockwise l x = some t) : t ∈ l := by
  rw [clockwise, Option.or_eq_some_iff] at h
  rcases h with h | ⟨_, h⟩
  · exact List.mem_of_find?_eq_some h
  · exact List.mem_of_mem_head? h

/-- A position is found exactly if there is one. -/
theorem clockwise_isSome : (clockwise l x).isSome ↔ l ≠ [] := by
  cases l with
  | nil => simp [clockwise]
  | cons a l => cases h : (a :: l).find? (x ≤ ·) <;> simp [clockwise, h]

/-- **The successor on the circle**: the least element not below `x`, or the least
element of all if every element is below `x`. -/
def IsSuccessor (T : Set α) (x t : α) : Prop :=
  IsLeast {u | u ∈ T ∧ x ≤ u} t ∨ (∀ u ∈ T, u < x) ∧ IsLeast T t

theorem IsSuccessor.mem {T : Set α} (h : IsSuccessor T x t) : t ∈ T := by
  rcases h with h | ⟨_, h⟩
  · exact h.1.1
  · exact h.1

/-- There is one successor at most. -/
theorem IsSuccessor.unique {T : Set α} {u : α} (ht : IsSuccessor T x t)
    (hu : IsSuccessor T x u) : t = u := by
  rcases ht with ht | ⟨hbelow, ht⟩
  · rcases hu with hu | ⟨hbelow, _⟩
    · exact ht.unique hu
    · exact absurd ht.1.2 (not_le.mpr (hbelow t ht.1.1))
  · rcases hu with hu | ⟨_, hu⟩
    · exact absurd hu.1.2 (not_le.mpr (hbelow u hu.1.1))
    · exact ht.unique hu

/-- Elements other than the successor may go. -/
theorem IsSuccessor.subset {S T : Set α} (h : IsSuccessor T x t) (hST : S ⊆ T) (ht : t ∈ S) :
    IsSuccessor S x t := by
  rcases h with h | ⟨hbelow, h⟩
  · exact Or.inl ⟨⟨ht, h.1.2⟩, fun u hu => h.2 ⟨hST hu.1, hu.2⟩⟩
  · exact Or.inr ⟨fun u hu => hbelow u (hST hu), ht, fun u hu => h.2 (hST hu)⟩

/-- In a sorted list the first element that passes is the least one. -/
theorem isLeast_of_find? {p : α → Bool} (hsorted : l.Pairwise (· ≤ ·)) (h : l.find? p = some t) :
    IsLeast {u | u ∈ l ∧ p u = true} t := by
  obtain ⟨hp, A, B, rfl, hA⟩ := List.find?_eq_some_iff_append.mp h
  refine ⟨⟨by simp, hp⟩, ?_⟩
  intro u hu
  obtain ⟨hmem, hpu⟩ := hu
  have hB := (List.pairwise_cons.mp (List.pairwise_append.mp hsorted).2.1).1
  rcases List.mem_append.mp hmem with hmem | hmem
  · exact absurd hpu (by simpa using hA u hmem)
  · rcases List.mem_cons.mp hmem with rfl | hmem
    · exact le_rfl
    · exact hB u hmem

/-- **The search finds the successor** on the circle. -/
theorem isSuccessor_of_clockwise (hsorted : l.Pairwise (· ≤ ·)) (h : clockwise l x = some t) :
    IsSuccessor {u | u ∈ l} x t := by
  rw [clockwise, Option.or_eq_some_iff] at h
  rcases h with h | ⟨hnone, h⟩
  · have hleast := isLeast_of_find? hsorted h
    exact Or.inl (by simpa using hleast)
  · refine Or.inr ⟨fun u hu => by simpa using List.find?_eq_none.mp hnone u hu, ?_⟩
    cases l with
    | nil => cases h
    | cons a l =>
        cases h
        refine ⟨List.mem_cons_self, ?_⟩
        intro u hu
        rcases List.mem_cons.mp hu with rfl | hu
        · exact le_rfl
        · exact (List.pairwise_cons.mp hsorted).1 u hu

/-- **On a sorted list the two descriptions agree.** -/
theorem clockwise_eq_some_iff (hsorted : l.Pairwise (· ≤ ·)) :
    clockwise l x = some t ↔ IsSuccessor {u | u ∈ l} x t := by
  constructor
  · exact isSuccessor_of_clockwise hsorted
  · intro h
    have hne : l ≠ [] := List.ne_nil_of_mem h.mem
    obtain ⟨u, hu⟩ := Option.isSome_iff_exists.mp (clockwise_isSome (x := x).mpr hne)
    rw [hu, (isSuccessor_of_clockwise hsorted hu).unique h]

/-- An element of the list is its own successor. -/
theorem clockwise_self (hsorted : l.Pairwise (· ≤ ·)) (ht : t ∈ l) :
    clockwise l t = some t := by
  rw [clockwise_eq_some_iff hsorted]
  exact Or.inl ⟨⟨ht, le_rfl⟩, fun u hu => hu.2⟩

/-- Comparing with the elements of a sorted list is a monotone test. -/
theorem monotone_of_sorted (hsorted : l.Pairwise (· ≤ ·)) (x d : α) :
    Monotone l.length fun i => decide (x ≤ l.getD i d) := by
  intro i j hij hj hi
  have hi' : i < l.length := by omega
  have hgeti : l.getD i d = l[i] := by simp [hi']
  have hgetj : l.getD j d = l[j] := by simp [hj]
  simp only [decide_eq_true_eq, hgeti, hgetj] at hi ⊢
  rcases Nat.eq_or_lt_of_le hij with rfl | hlt
  · exact hi
  · exact hi.trans (List.pairwise_iff_getElem.mp hsorted i j hi' hj hlt)

/-- **The search with its wrap-around is the circular successor.** -/
theorem getElem?_search (hsorted : l.Pairwise (· ≤ ·)) (x d : α) :
    (let i := search l.length fun i => decide (x ≤ l.getD i d)
     l[if i = l.length then 0 else i]?) = clockwise l x := by
  have h := search_narrowed (monotone_of_sorted hsorted x d)
  generalize search l.length (fun i => decide (x ≤ l.getD i d)) = r at h
  dsimp only
  have hbelow : ∀ k (hk : k < l.length), k < r → ¬ x ≤ l[k] := by
    intro k hk hkr
    simpa [hk] using h.below k hkr
  by_cases hr : r = l.length
  · have hnone : l.find? (x ≤ ·) = none := by
      rw [List.find?_eq_none]
      intro a ha
      obtain ⟨k, hk, rfl⟩ := List.getElem_of_mem ha
      simpa using hbelow k hk (by omega)
    rw [if_pos hr, clockwise, hnone, Option.none_or, List.head?_eq_getElem?]
  · have hlt : r < l.length := by
      have := h.bound
      omega
    have hfound : x ≤ l[r] := by simpa [hlt] using h.above r le_rfl hlt
    have hfind : l.find? (x ≤ ·) = some l[r] := by
      rw [List.find?_eq_some_iff_getElem]
      refine ⟨by simpa using hfound, r, hlt, rfl, ?_⟩
      intro k hk
      simpa using hbelow k (by omega) hk
    rw [if_neg hr, clockwise, hfind, Option.some_or, List.getElem?_eq_getElem hlt]

end SortedSearch
