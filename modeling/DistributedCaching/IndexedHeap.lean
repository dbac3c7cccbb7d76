import Mathlib.Data.List.Nodup
import Mathlib.Data.List.Perm.Basic
import Mathlib.Logic.Function.Basic
import Mathlib.Tactic.Common

/-!
# Binary heaps whose elements know their position

The algorithms of Go's `container/heap` on a slice of references, where every
reference has an `index` field that `Swap`, `Push` and `Pop` keep up to date.
The comparison is a parameter, so that the same development serves every heap.

All the algorithms move elements by `swap` only.  `Shuffles n H H'` is what a
series of swaps below position `n` can do: permute the slice, leave the
positions from `n` on alone, and keep every element's index true.  From it come
`push_spec`, `remove_spec` and `fix_spec`.
-/

namespace IndexedHeap

/-- A slice of references, and the index field of every reference. -/
structure Heap (ρ : Type*) where
  slice : List ρ
  index : ρ → Int

variable {ρ : Type*} [DecidableEq ρ]

/-- `Swap(i, j)`: exchange two elements and write their index fields. -/
def Heap.swap (H : Heap ρ) (i j : Nat) : Heap ρ :=
  match H.slice[i]?, H.slice[j]? with
  | some a, some b =>
      { slice := (H.slice.set i b).set j a
        index := Function.update (Function.update H.index b i) a j }
  | _, _ => H

/-- The method `Push`: append an element. -/
def Heap.append (H : Heap ρ) (x : ρ) : Heap ρ :=
  { slice := H.slice ++ [x]
    index := Function.update H.index x H.slice.length }

/-- The method `Pop`: drop the last element and mark it as removed. -/
def Heap.dropLast (H : Heap ρ) : Heap ρ :=
  match H.slice.getLast? with
  | none => H
  | some x =>
      { slice := H.slice.dropLast
        index := Function.update H.index x (-1) }

/-- `Less(i, j)` for a comparison of references. -/
def Heap.lessAt (H : Heap ρ) (less : ρ → ρ → Bool) (i j : Nat) : Bool :=
  match H.slice[i]?, H.slice[j]? with
  | some a, some b => less a b
  | _, _ => false

section Algorithms

variable (less : ρ → ρ → Bool)

/-- `up`: swap the element at `j` with its parent while it is less. -/
def up : Nat → Heap ρ → Nat → Heap ρ
  | 0, H, _ => H
  | fuel + 1, H, j =>
      let i := (j - 1) / 2
      if i = j ∨ H.lessAt less j i = false then H
      else up fuel (H.swap i j) i

/-- The child of `i` below `n` that `down` compares with. -/
def lesserChild (H : Heap ρ) (i n : Nat) : Nat :=
  let j := 2 * i + 1
  if j + 1 < n ∧ H.lessAt less (j + 1) j = true then j + 1 else j

/-- `down`: swap the element at `i` with its lesser child while that is less.
Returns the position where it ends. -/
def down : Nat → Heap ρ → Nat → Nat → Heap ρ × Nat
  | 0, H, i, _ => (H, i)
  | fuel + 1, H, i, n =>
      if n ≤ 2 * i + 1 then (H, i)
      else
        let j := lesserChild less H i n
        if H.lessAt less j i = true then down fuel (H.swap i j) j n else (H, i)

/-- `down`, and `up` if that did not move the element. -/
def settle (H : Heap ρ) (i n : Nat) : Heap ρ :=
  let moved := down less n H i n
  if moved.2 > i then moved.1 else up less n moved.1 i

/-- `heap.Push`. -/
def push (H : Heap ρ) (x : ρ) : Heap ρ :=
  let H := H.append x
  up less H.slice.length H (H.slice.length - 1)

/-- `heap.Remove`. -/
def remove (H : Heap ρ) (i : Nat) : Heap ρ :=
  let n := H.slice.length - 1
  let H := if n ≠ i then settle less (H.swap i n) i n else H
  H.dropLast

/-- `heap.Fix`. -/
def fix (H : Heap ρ) (i : Nat) : Heap ρ :=
  settle less H i H.slice.length

end Algorithms

/-- Every element knows its position. -/
def Heap.Tracked (H : Heap ρ) : Prop :=
  ∀ (i : Nat) (r : ρ), H.slice[i]? = some r → H.index r = i

omit [DecidableEq ρ] in
/-- No element stands at two positions. -/
theorem Heap.Tracked.unique {H : Heap ρ} (h : H.Tracked) {i j : Nat} {r : ρ}
    (hi : H.slice[i]? = some r) (hj : H.slice[j]? = some r) : i = j := by
  have hij := (h i r hi).symm.trans (h j r hj)
  exact Int.ofNat_inj.mp hij

omit [DecidableEq ρ] in
/-- A record is in the heap once. -/
theorem Heap.Tracked.nodup {H : Heap ρ} (h : H.Tracked) : H.slice.Nodup := by
  rw [List.nodup_iff_getElem?_ne_getElem?]
  intro i j hij hj heq
  obtain ⟨r, hr⟩ : ∃ r, H.slice[j]? = some r := ⟨_, List.getElem?_eq_getElem hj⟩
  exact Nat.ne_of_lt hij (h.unique (heq.trans hr) hr)

omit [DecidableEq ρ] in
/-- The index field of an element is its position. -/
theorem Heap.Tracked.at_index {H : Heap ρ} (h : H.Tracked) {r : ρ} (hr : r ∈ H.slice) :
    H.slice[(H.index r).toNat]? = some r := by
  obtain ⟨i, hi, rfl⟩ := List.getElem_of_mem hr
  have hi' := List.getElem?_eq_getElem hi
  rw [h i _ hi', Int.toNat_natCast, hi']

/-! ## Swapping -/

/-- What swaps below position `n` can do. -/
structure Shuffles (n : Nat) (H H' : Heap ρ) : Prop where
  perm : H'.slice.Perm H.slice
  tracked : H.Tracked → H'.Tracked
  beyond : ∀ k, n ≤ k → H'.slice[k]? = H.slice[k]?

variable {H H' : Heap ρ} {n : Nat}

omit [DecidableEq ρ] in
theorem Shuffles.refl (n : Nat) (H : Heap ρ) : Shuffles n H H where
  perm := List.Perm.refl _
  tracked := id
  beyond := fun _ _ => rfl

omit [DecidableEq ρ] in
theorem Shuffles.trans {H₁ H₂ H₃ : Heap ρ} (h₁ : Shuffles n H₁ H₂) (h₂ : Shuffles n H₂ H₃) :
    Shuffles n H₁ H₃ where
  perm := h₂.perm.trans h₁.perm
  tracked := fun h => h₂.tracked (h₁.tracked h)
  beyond := fun k hk => (h₂.beyond k hk).trans (h₁.beyond k hk)

omit [DecidableEq ρ] in
theorem Shuffles.length_eq (h : Shuffles n H H') : H'.slice.length = H.slice.length :=
  h.perm.length_eq

theorem shuffles_swap {i j : Nat} (hi : i < n) (hj : j < n) (hn : n ≤ H.slice.length) :
    Shuffles n H (H.swap i j) := by
  have hil : i < H.slice.length := by omega
  have hjl : j < H.slice.length := by omega
  have hswap : H.swap i j =
      { slice := (H.slice.set i H.slice[j]).set j H.slice[i]
        index := Function.update (Function.update H.index H.slice[j] i) H.slice[i] j } := by
    simp [Heap.swap, List.getElem?_eq_getElem hil, List.getElem?_eq_getElem hjl]
  rw [hswap]
  refine ⟨List.set_set_perm hil hjl, ?_, ?_⟩
  · intro htracked k r hr
    dsimp only at hr ⊢
    by_cases hkj : k = j
    · subst hkj
      have hra : r = H.slice[i] := by simpa [hjl] using hr.symm
      rw [hra, Function.update_self]
    · rw [List.getElem?_set_ne (Ne.symm hkj)] at hr
      by_cases hki : k = i
      · subst hki
        have hrb : r = H.slice[j] := by simpa [hil] using hr.symm
        have hne : H.slice[j] ≠ H.slice[k] := by
          intro heq
          refine hkj (htracked.unique (r := H.slice[k]) (List.getElem?_eq_getElem hil) ?_)
          rw [List.getElem?_eq_getElem hjl, heq]
        rw [hrb, Function.update_of_ne hne, Function.update_self]
      · rw [List.getElem?_set_ne (Ne.symm hki)] at hr
        have hne : ∀ l (hl : l < H.slice.length), k ≠ l → r ≠ H.slice[l] := by
          intro l hl hkl heq
          refine hkl (htracked.unique hr ?_)
          rw [List.getElem?_eq_getElem hl, heq]
        rw [Function.update_of_ne (hne i hil hki), Function.update_of_ne (hne j hjl hkj)]
        exact htracked k r hr
  · intro k hk
    have hki : i ≠ k := by omega
    have hkj : j ≠ k := by omega
    simp [List.getElem?_set_ne hkj, List.getElem?_set_ne hki]

section Algorithms

variable (less : ρ → ρ → Bool)

/-- Moving a record up takes swaps only. -/
theorem shuffles_up (fuel : Nat) {j : Nat} (hj : j < n) (hn : n ≤ H.slice.length) :
    Shuffles n H (up less fuel H j) := by
  induction fuel generalizing H j with
  | zero => exact Shuffles.refl n H
  | succ fuel ih =>
      simp only [up]
      split
      · exact Shuffles.refl n H
      · have hparent : (j - 1) / 2 < n := by omega
        have hswap := shuffles_swap hparent hj hn
        exact hswap.trans (ih hparent (by rw [hswap.length_eq]; exact hn))

/-- Moving a record down takes swaps only. -/
theorem shuffles_down (fuel i : Nat) (hn : n ≤ H.slice.length) :
    Shuffles n H (down less fuel H i n).1 := by
  induction fuel generalizing H i with
  | zero => exact Shuffles.refl n H
  | succ fuel ih =>
      simp only [down]
      split
      · exact Shuffles.refl n H
      · rename_i hchild
        have hj : lesserChild less H i n < n := by
          unfold lesserChild
          dsimp only
          split <;> omega
        split
        · have hswap := shuffles_swap (show i < n by omega) hj hn
          exact hswap.trans (ih _ (by rw [hswap.length_eq]; exact hn))
        · exact Shuffles.refl n H

/-- Settling a record takes swaps only. -/
theorem shuffles_settle {i : Nat} (hi : i < n) (hn : n ≤ H.slice.length) :
    Shuffles n H (settle less H i n) := by
  have hdown := shuffles_down less n i hn
  unfold settle
  dsimp only
  split
  · exact hdown
  · exact hdown.trans (shuffles_up less n hi (by rw [hdown.length_eq]; exact hn))

end Algorithms

/-! ## The operations -/

/-- Dropping the last element. -/
theorem dropLast_spec {r : ρ} (h : H.Tracked)
    (hr : H.slice[H.slice.length - 1]? = some r) :
    H.dropLast.Tracked ∧ H.slice.Perm (r :: H.dropLast.slice) := by
  have hlast : H.slice.getLast? = some r := by
    rw [List.getLast?_eq_getElem?, hr]
  have hdrop : H.dropLast =
      { slice := H.slice.dropLast, index := Function.update H.index r (-1) } := by
    simp [Heap.dropLast, hlast]
  rw [hdrop]
  constructor
  · intro i x hx
    dsimp only at hx ⊢
    rw [List.getElem?_dropLast] at hx
    split at hx
    · rename_i hi
      have hne : x ≠ r := by
        intro heq
        subst heq
        have := h.unique hx hr
        omega
      rw [Function.update_of_ne hne]
      exact h i x hx
    · cases hx
  · have hsplit : H.slice = H.slice.dropLast ++ [r] := by
      rw [List.dropLast_append_getLast? r hlast]
    dsimp only
    conv_lhs => rw [hsplit]
    exact List.perm_append_singleton r _

variable (less : ρ → ρ → Bool)

/-- **Pushing** adds the element. -/
theorem push_spec {x : ρ} (h : H.Tracked) (hx : x ∉ H.slice) :
    (push less H x).Tracked ∧ (push less H x).slice.Perm (x :: H.slice) := by
  have happend : (H.append x).Tracked := by
    intro i r hr
    simp only [Heap.append] at hr ⊢
    rcases Nat.lt_or_ge i H.slice.length with hi | hi
    · rw [List.getElem?_append_left hi] at hr
      have hne : r ≠ x := by
        intro heq
        subst heq
        exact hx (List.mem_of_getElem? hr)
      rw [Function.update_of_ne hne]
      exact h i r hr
    · rw [List.getElem?_append_right hi] at hr
      have hi' : i - H.slice.length = 0 := by
        by_contra hne
        rw [List.getElem?_eq_none (by simp; omega)] at hr
        cases hr
      rw [hi'] at hr
      cases hr
      rw [Function.update_self]
      omega
  have hlen : (H.append x).slice.length = H.slice.length + 1 := by simp [Heap.append]
  have hup := shuffles_up less (H.append x).slice.length
    (show (H.append x).slice.length - 1 < (H.append x).slice.length by omega) (Nat.le_refl _)
  refine ⟨hup.tracked happend, hup.perm.trans ?_⟩
  exact List.perm_append_singleton x _

/-- **Removing** takes out the element at the position. -/
theorem remove_spec {i : Nat} {r : ρ} (h : H.Tracked) (hr : H.slice[i]? = some r) :
    (remove less H i).Tracked ∧ H.slice.Perm (r :: (remove less H i).slice) := by
  have hi : i < H.slice.length := (List.getElem?_eq_some_iff.mp hr).1
  unfold remove
  dsimp only
  split
  · rename_i hne
    have hin : i < H.slice.length - 1 := by omega
    have hswap : Shuffles H.slice.length H (H.swap i (H.slice.length - 1)) :=
      shuffles_swap hi (by omega) (Nat.le_refl _)
    have hsettle := shuffles_settle less hin
      (show H.slice.length - 1 ≤ (H.swap i (H.slice.length - 1)).slice.length by
        rw [hswap.length_eq]
        omega)
    -- The element has been swapped to the end, where settling does not reach.
    have hend : (settle less (H.swap i (H.slice.length - 1)) i
        (H.slice.length - 1)).slice[H.slice.length - 1]? = some r := by
      rw [hsettle.beyond _ (Nat.le_refl _)]
      have hlast : H.slice.length - 1 < H.slice.length := by omega
      have hri : H.slice[i] = r := (List.getElem?_eq_some_iff.mp hr).2
      simp [Heap.swap, List.getElem?_eq_getElem hi, hri, hlast]
    have hlen := hsettle.length_eq.trans hswap.length_eq
    have hpop := dropLast_spec (hsettle.tracked (hswap.tracked h))
      (by rw [hlen]; exact hend)
    exact ⟨hpop.1, (hswap.perm.symm.trans hsettle.perm.symm).trans hpop.2⟩
  · rename_i heq
    have hlast : H.slice.length - 1 = i := by simpa using heq
    exact dropLast_spec h (by rw [hlast]; exact hr)

/-- **Fixing** a position only shuffles. -/
theorem fix_spec {i : Nat} (h : H.Tracked) (hi : i < H.slice.length) :
    (fix less H i).Tracked ∧ (fix less H i).slice.Perm H.slice := by
  have hsettle := shuffles_settle less hi (Nat.le_refl _)
  exact ⟨hsettle.tracked h, hsettle.perm⟩

end IndexedHeap
