import Mathlib.Order.WithBot
import DistributedCaching.IndexedHeap

/-!
# The order of a binary heap

The position `k > 0` of a heap has the parent `(k - 1) / 2`; a heap is ordered when no
position ranks below its parent.  Both sifting loops work on a heap that is ordered
except around one position: the pairs that do not touch it are in order, and its
children are in order with its parent (`OrderedExcept`).  A step of `up` or `down`
moves that position; `exchange_up` and `exchange_down` are the two steps, stated for
the ranks as a function of the position.

From this come `ordered_push`, `ordered_remove` and `ordered_fix`, and the purpose of
it all, `Heap.Ordered.root_le`: the first element ranks lowest.
-/

namespace IndexedHeap

/-! ## Ranks by position -/

/-- The parent of a position other than the first. -/
def parent (k : Nat) : Nat := (k - 1) / 2

section Positions

variable {β : Type*} {f : Nat → β} {n i j : Nat}

/-- Swap the ranks of two positions. -/
def exchange (f : Nat → β) (i j : Nat) : Nat → β :=
  fun k => if k = j then f i else if k = i then f j else f k

theorem exchange_right (f : Nat → β) (i j : Nat) : exchange f i j j = f i := if_pos rfl

theorem exchange_left (f : Nat → β) (hij : i ≠ j) : exchange f i j i = f j := by
  rw [exchange, if_neg hij, if_pos rfl]

theorem exchange_other (f : Nat → β) {k : Nat} (hi : k ≠ i) (hj : k ≠ j) :
    exchange f i j k = f k := by
  rw [exchange, if_neg hj, if_neg hi]

variable [LinearOrder β]

/-- The first `n` positions are in heap order. -/
def Ordered (f : Nat → β) (n : Nat) : Prop := ∀ k, 0 < k → k < n → f (parent k) ≤ f k

/-- **Heap order except around `i`.** -/
structure OrderedExcept (f : Nat → β) (n i : Nat) : Prop where
  /-- The pairs that do not touch `i` are in order. -/
  apart : ∀ k, 0 < k → k < n → k ≠ i → parent k ≠ i → f (parent k) ≤ f k
  /-- The children of `i` are in order with the parent of `i`. -/
  across : 0 < i → ∀ k, 0 < k → k < n → parent k = i → f (parent i) ≤ f k

/-- `i` is in order with its parent. -/
def OrderedAbove (f : Nat → β) (i : Nat) : Prop := 0 < i → f (parent i) ≤ f i

/-- `i` is in order with its children. -/
def OrderedBelow (f : Nat → β) (n i : Nat) : Prop :=
  ∀ k, 0 < k → k < n → parent k = i → f i ≤ f k

/-- A heap that is ordered but at one position, and ordered there, is ordered. -/
theorem OrderedExcept.ordered (h : OrderedExcept f n i) (habove : OrderedAbove f i)
    (hbelow : OrderedBelow f n i) : Ordered f n := by
  intro k hk hkn
  by_cases hki : k = i
  · subst hki
    exact habove hk
  · by_cases hparent : parent k = i
    · rw [hparent]
      exact hbelow k hk hkn hparent
    · exact h.apart k hk hkn hki hparent

/-- Changing the rank of one position. -/
theorem Ordered.orderedExcept {g : Nat → β} (h : Ordered f n) (hi : i < n)
    (hg : ∀ k, k < n → k ≠ i → g k = f k) : OrderedExcept g n i where
  apart k hk hkn hki hparent := by
    have hlt : parent k < n := by
      unfold parent
      omega
    rw [hg k hkn hki, hg _ hlt hparent]
    exact h k hk hkn
  across hpos k hk hkn hparent := by
    have hne : k ≠ i ∧ parent i ≠ i ∧ parent i < n := by
      unfold parent at hparent ⊢
      omega
    rw [hg k hkn hne.1, hg _ hne.2.2 hne.2.1]
    have hki := h k hk hkn
    rw [hparent] at hki
    exact (h i hpos hi).trans hki

/-- **The root ranks lowest.** -/
theorem Ordered.zero_le (h : Ordered f n) {k : Nat} (hk : k < n) : f 0 ≤ f k := by
  induction k using Nat.strongRecOn with
  | ind k ih =>
      by_cases hpos : 0 < k
      · have hlt : parent k < k := by
          unfold parent
          omega
        exact (ih (parent k) hlt (by omega)).trans (h k hpos hk)
      · have hzero : k = 0 := by omega
        rw [hzero]

/-- **A step of `up`**: a position that ranks below its parent changes places with it. -/
theorem exchange_up (h : OrderedExcept f n j) (hj : 0 < j) (hjn : j < n)
    (hless : f j < f (parent j)) :
    OrderedExcept (exchange f (parent j) j) n (parent j) ∧
      OrderedBelow (exchange f (parent j) j) n (parent j) := by
  have hij : parent j ≠ j := by
    unfold parent
    omega
  -- The other child of the parent is in order with it.
  have hsibling : ∀ k, 0 < k → k < n → parent k = parent j → k ≠ j → f (parent j) ≤ f k := by
    intro k hk hkn hparent hkj
    rw [← hparent]
    exact h.apart k hk hkn hkj (by rw [hparent]; exact hij)
  have hmoved : ∀ k, 0 < k → parent k = parent j → k ≠ parent j := by
    intro k hk hparent
    unfold parent at hparent ⊢
    omega
  refine ⟨⟨?_, ?_⟩, ?_⟩
  · intro k hk hkn hki hparent
    have hkj : k ≠ j := by
      intro heq
      exact hparent (by rw [heq])
    rw [exchange_other f hki hkj]
    by_cases hchild : parent k = j
    · rw [hchild, exchange_right]
      exact h.across hj k hk hkn hchild
    · rw [exchange_other f hparent hchild]
      exact h.apart k hk hkn hkj hchild
  · intro hpos k hk hkn hparent
    have hgrand : parent (parent j) ≠ parent j ∧ parent (parent j) ≠ j := by
      unfold parent at hpos ⊢
      omega
    have hup : f (parent (parent j)) ≤ f (parent j) :=
      h.apart (parent j) hpos (by unfold parent; omega) hij hgrand.2
    rw [exchange_other f hgrand.1 hgrand.2]
    by_cases hkj : k = j
    · rw [hkj, exchange_right]
      exact hup
    · rw [exchange_other f (hmoved k hk hparent) hkj]
      exact hup.trans (hsibling k hk hkn hparent hkj)
  · intro k hk hkn hparent
    rw [exchange_left f hij]
    by_cases hkj : k = j
    · rw [hkj, exchange_right]
      exact hless.le
    · rw [exchange_other f (hmoved k hk hparent) hkj]
      exact hless.le.trans (hsibling k hk hkn hparent hkj)

/-- **A step of `down`**: a position that ranks above its lesser child changes places
with it. -/
theorem exchange_down (h : OrderedExcept f n i) (hj : 0 < j) (hjn : j < n)
    (hparent : parent j = i) (hless : f j < f i)
    (hleast : ∀ k, 0 < k → k < n → parent k = i → f j ≤ f k) :
    OrderedExcept (exchange f i j) n j ∧ OrderedAbove (exchange f i j) j := by
  have hij : i < j := by
    unfold parent at hparent
    omega
  refine ⟨⟨?_, ?_⟩, ?_⟩
  · intro k hk hkn hkj hchild
    by_cases hki : k = i
    · have hup : parent i ≠ i ∧ parent i ≠ j := by
        unfold parent
        omega
      rw [hki, exchange_left f (Nat.ne_of_lt hij), exchange_other f hup.1 hup.2]
      exact h.across (by omega) j hj hjn hparent
    · rw [exchange_other f hki hkj]
      by_cases hsibling : parent k = i
      · rw [hsibling, exchange_left f (Nat.ne_of_lt hij)]
        exact hleast k hk hkn hsibling
      · rw [exchange_other f hsibling hchild]
        exact h.apart k hk hkn hki hsibling
  · intro _ k hk hkn hchild
    have hne : k ≠ i ∧ k ≠ j := by
      unfold parent at hchild
      omega
    rw [hparent, exchange_left f (Nat.ne_of_lt hij), exchange_other f hne.1 hne.2]
    have hapart := h.apart k hk hkn hne.1 (by rw [hchild]; omega)
    rwa [hchild] at hapart
  · intro _
    rw [hparent, exchange_left f (Nat.ne_of_lt hij), exchange_right]
    exact hless.le

end Positions

/-! ## The sifting loops -/

variable {ρ κ : Type*} {rank : ρ → κ} {H : Heap ρ} {n i j : Nat}

/-- The rank of the element at a position; positions beyond the end rank highest. -/
def Heap.rankAt (H : Heap ρ) (rank : ρ → κ) (k : Nat) : WithTop κ :=
  match H.slice[k]? with
  | some r => (rank r : WithTop κ)
  | none => ⊤

theorem rankAt_of_getElem? {r : ρ} (h : H.slice[i]? = some r) :
    H.rankAt rank i = (rank r : WithTop κ) := by
  simp [Heap.rankAt, h]

theorem rankAt_congr {H' : Heap ρ} (h : H'.slice[i]? = H.slice[j]?) :
    H'.rankAt rank i = H.rankAt rank j := by
  rw [Heap.rankAt, Heap.rankAt, h]

variable [LinearOrder κ]

/-- The heap is ordered by rank. -/
def Heap.Ordered (H : Heap ρ) (rank : ρ → κ) : Prop :=
  IndexedHeap.Ordered (H.rankAt rank) H.slice.length

/-- **The first element ranks lowest.** -/
theorem Heap.Ordered.root_le (h : H.Ordered rank) {r x : ρ} (hr : H.slice.head? = some r)
    (hx : x ∈ H.slice) : rank r ≤ rank x := by
  obtain ⟨k, hk, rfl⟩ := List.getElem_of_mem hx
  have hle := h.zero_le hk
  rw [List.head?_eq_getElem?] at hr
  rw [rankAt_of_getElem? hr, rankAt_of_getElem? (List.getElem?_eq_getElem hk)] at hle
  exact WithTop.coe_le_coe.mp hle

section Loops

variable [DecidableEq ρ] {less : ρ → ρ → Bool}

omit [LinearOrder κ] in
/-- Swapping elements exchanges their ranks. -/
theorem rankAt_swap (hi : i < H.slice.length) (hj : j < H.slice.length) :
    (H.swap i j).rankAt rank = exchange (H.rankAt rank) i j := by
  funext k
  have hslice : (H.swap i j).slice = (H.slice.set i H.slice[j]).set j H.slice[i] := by
    simp [Heap.swap, List.getElem?_eq_getElem hi, List.getElem?_eq_getElem hj]
  by_cases hkj : k = j
  · subst hkj
    rw [exchange_right]
    apply rankAt_congr
    simp [hslice, hj, List.getElem?_eq_getElem hi]
  · by_cases hki : k = i
    · subst hki
      rw [exchange_left _ hkj]
      apply rankAt_congr
      rw [hslice, List.getElem?_set_ne (Ne.symm hkj)]
      simp [hi, List.getElem?_eq_getElem hj]
    · rw [exchange_other _ hki hkj]
      apply rankAt_congr
      rw [hslice, List.getElem?_set_ne (Ne.symm hkj), List.getElem?_set_ne (Ne.symm hki)]

variable (hless : ∀ a b, less a b = decide (rank a < rank b))

include hless

omit [DecidableEq ρ] in
/-- Within the slice, `less` compares the ranks. -/
theorem lessAt_iff (hi : i < H.slice.length) (hj : j < H.slice.length) :
    H.lessAt less i j = true ↔ H.rankAt rank i < H.rankAt rank j := by
  have hi' := List.getElem?_eq_getElem hi
  have hj' := List.getElem?_eq_getElem hj
  rw [rankAt_of_getElem? hi', rankAt_of_getElem? hj', WithTop.coe_lt_coe]
  simp [Heap.lessAt, hi', hj', hless]

/-- `up` restores the order above a position. -/
theorem ordered_up {fuel : Nat} (hn : n ≤ H.slice.length) (hj : j < n) (hfuel : j ≤ fuel)
    (h : OrderedExcept (H.rankAt rank) n j) (hbelow : OrderedBelow (H.rankAt rank) n j) :
    Ordered ((up less fuel H j).rankAt rank) n := by
  induction fuel generalizing H j with
  | zero =>
      refine h.ordered (fun hpos => ?_) hbelow
      omega
  | succ fuel ih =>
      simp only [up]
      have hiff := lessAt_iff hless (show j < H.slice.length by omega)
        (show parent j < H.slice.length by unfold parent; omega)
      split
      · rename_i hstop
        refine h.ordered (fun hpos => ?_) hbelow
        rcases hstop with hroot | hnot
        · omega
        · apply not_lt.mp
          intro hlt
          cases hnot.symm.trans (hiff.mpr hlt)
      · rename_i hgo
        simp only [not_or, Bool.not_eq_false] at hgo
        obtain ⟨hne, hlt⟩ := hgo
        have hjl : j < H.slice.length := by omega
        have hpl : (j - 1) / 2 < H.slice.length := by omega
        have hswap : (H.swap ((j - 1) / 2) j).rankAt rank =
            exchange (H.rankAt rank) ((j - 1) / 2) j := rankAt_swap hpl hjl
        have hlen := (shuffles_swap hpl hjl (Nat.le_refl _)).length_eq
        have hstep := exchange_up h (by omega) hj (hiff.mp hlt)
        apply ih (by rw [hlen]; exact hn) (by omega) (by omega)
        · rw [hswap]
          exact hstep.1
        · rw [hswap]
          exact hstep.2

omit hless [DecidableEq ρ] in
/-- The lesser child is a child, and within the bound. -/
theorem lesserChild_spec (less : ρ → ρ → Bool) (H : Heap ρ) (hn : 2 * i + 1 < n) :
    parent (lesserChild less H i n) = i ∧ 0 < lesserChild less H i n ∧
      lesserChild less H i n < n := by
  unfold lesserChild parent
  dsimp only
  split <;> omega

omit [DecidableEq ρ] in
/-- The lesser child ranks lowest among the children. -/
theorem lesserChild_le (hn : n ≤ H.slice.length) {k : Nat} (hk : 0 < k) (hkn : k < n)
    (hparent : parent k = i) :
    H.rankAt rank (lesserChild less H i n) ≤ H.rankAt rank k := by
  have hchild : k = 2 * i + 1 ∨ k = 2 * i + 2 := by
    unfold parent at hparent
    omega
  have hiff : 2 * i + 2 < n → (H.lessAt less (2 * i + 2) (2 * i + 1) = true ↔ _) := fun hright =>
    lessAt_iff hless (show 2 * i + 2 < H.slice.length by omega)
      (show 2 * i + 1 < H.slice.length by omega)
  unfold lesserChild
  dsimp only
  split
  · rename_i hright
    have hlt := (hiff hright.1).mp hright.2
    rcases hchild with rfl | rfl
    · exact hlt.le
    · exact le_rfl
  · rename_i hright
    rcases hchild with rfl | rfl
    · exact le_rfl
    · apply not_lt.mp
      intro hlt
      exact hright ⟨hkn, (hiff hkn).mpr hlt⟩

/-- What one round of `down` does: it stops in order with the children, or exchanges the
element with its lesser child. -/
theorem down_round (fuel : Nat) (hn : n ≤ H.slice.length) (hi : i < n)
    (h : OrderedExcept (H.rankAt rank) n i) :
    (down less (fuel + 1) H i n = (H, i) ∧ OrderedBelow (H.rankAt rank) n i) ∨
    ∃ j, i < j ∧ j < n ∧ down less (fuel + 1) H i n = down less fuel (H.swap i j) j n ∧
      (H.swap i j).slice.length = H.slice.length ∧
      OrderedExcept ((H.swap i j).rankAt rank) n j ∧
      OrderedAbove ((H.swap i j).rankAt rank) j := by
  by_cases hleaf : n ≤ 2 * i + 1
  · refine Or.inl ⟨by simp [down, hleaf], ?_⟩
    intro k hk hkn hparent
    unfold parent at hparent
    omega
  · obtain ⟨hparent, hpos, hjn⟩ := lesserChild_spec less H (show 2 * i + 1 < n by omega)
    have hil : i < H.slice.length := by omega
    have hjl : lesserChild less H i n < H.slice.length := by omega
    have hleast : ∀ k, 0 < k → k < n → parent k = i →
        H.rankAt rank (lesserChild less H i n) ≤ H.rankAt rank k := fun k hk hkn hki =>
      lesserChild_le hless hn hk hkn hki
    have hiff := lessAt_iff hless hjl hil
    by_cases hless' : H.lessAt less (lesserChild less H i n) i = true
    · have hij : i < lesserChild less H i n := by
        unfold parent at hparent
        omega
      have hswap : (H.swap i (lesserChild less H i n)).rankAt rank =
          exchange (H.rankAt rank) i (lesserChild less H i n) := rankAt_swap hil hjl
      have hlen := (shuffles_swap hil hjl (Nat.le_refl _)).length_eq
      have hstep := exchange_down h hpos hjn hparent (hiff.mp hless') hleast
      refine Or.inr ⟨lesserChild less H i n, hij, hjn, ?_, hlen, ?_, ?_⟩
      · simp [down, hleaf, hless']
      · rw [hswap]
        exact hstep.1
      · rw [hswap]
        exact hstep.2
    · refine Or.inl ⟨by simp [down, hleaf, hless'], ?_⟩
      intro k hk hkn hki
      exact (not_lt.mp fun hlt => hless' (hiff.mpr hlt)).trans (hleast k hk hkn hki)

/-- `down` restores the order below a position. -/
theorem ordered_down {fuel : Nat} (hn : n ≤ H.slice.length) (hi : i < n) (hfuel : n - i ≤ fuel)
    (h : OrderedExcept (H.rankAt rank) n i) (habove : OrderedAbove (H.rankAt rank) i) :
    Ordered ((down less fuel H i n).1.rankAt rank) n ∧ i ≤ (down less fuel H i n).2 := by
  induction fuel generalizing H i with
  | zero => omega
  | succ fuel ih =>
      rcases down_round hless fuel hn hi h with
        ⟨hstop, hbelow⟩ | ⟨j, hij, hjn, hgo, hlen, hexcept, habove'⟩
      · rw [hstop]
        exact ⟨h.ordered habove hbelow, Nat.le_refl i⟩
      · obtain ⟨hordered, hle⟩ := ih (by rw [hlen]; exact hn) hjn (by omega) hexcept habove'
        rw [hgo]
        exact ⟨hordered, by omega⟩

/-- **Settling** a position restores the order. -/
theorem ordered_settle (hn : n ≤ H.slice.length) (hi : i < n)
    (h : OrderedExcept (H.rankAt rank) n i) :
    Ordered ((settle less H i n).rankAt rank) n := by
  obtain ⟨fuel, rfl⟩ : ∃ fuel, n = fuel + 1 := ⟨n - 1, by omega⟩
  unfold settle
  dsimp only
  rcases down_round hless fuel hn hi h with
    ⟨hstop, hbelow⟩ | ⟨j, hij, hjn, hgo, hlen, hexcept, habove⟩
  · rw [hstop, if_neg (Nat.lt_irrefl i)]
    exact ordered_up hless hn hi (by omega) h hbelow
  · obtain ⟨hordered, hle⟩ := ordered_down hless (by rw [hlen]; exact hn) hjn
      (show fuel + 1 - j ≤ fuel by omega) hexcept habove
    rw [hgo, if_pos (by omega)]
    exact hordered

/-! ## The operations -/

/-- **Pushing** keeps the order. -/
theorem ordered_push (h : H.Ordered rank) (x : ρ) : (push less H x).Ordered rank := by
  have hlen : (H.append x).slice.length = H.slice.length + 1 := by simp [Heap.append]
  have hup := shuffles_up less (H := H.append x) (H.append x).slice.length
    (show (H.append x).slice.length - 1 < (H.append x).slice.length by omega) (Nat.le_refl _)
  have hexcept : OrderedExcept ((H.append x).rankAt rank) (H.append x).slice.length
      H.slice.length := by
    constructor
    · intro k hk hkn hkx hparent
      have hold : ∀ l, l < H.slice.length → (H.append x).rankAt rank l = H.rankAt rank l :=
        fun l hl => rankAt_congr (List.getElem?_append_left hl)
      rw [hold k (by omega), hold _ (by unfold parent; omega)]
      exact h k hk (by omega)
    · intro _ k hk hkn hparent
      unfold parent at hparent
      omega
  have hbelow : OrderedBelow ((H.append x).rankAt rank) (H.append x).slice.length
      H.slice.length := by
    intro k hk hkn hparent
    unfold parent at hparent
    omega
  unfold Heap.Ordered push
  dsimp only
  rw [hup.length_eq]
  have hlast : (H.append x).slice.length - 1 = H.slice.length := by omega
  rw [hlast]
  exact ordered_up hless (Nat.le_refl _) (by omega) (by omega) hexcept hbelow

/-- **Fixing** a position restores the order around it. -/
theorem ordered_fix (hi : i < H.slice.length)
    (h : OrderedExcept (H.rankAt rank) H.slice.length i) : (fix less H i).Ordered rank := by
  have hlen := (shuffles_settle less hi (Nat.le_refl _)).length_eq
  unfold Heap.Ordered fix
  rw [hlen]
  exact ordered_settle hless (Nat.le_refl _) hi h

omit hless in
/-- Dropping the last element leaves the positions before it. -/
theorem ordered_dropLast (h : IndexedHeap.Ordered (H.rankAt rank) (H.slice.length - 1)) :
    H.dropLast.Ordered rank := by
  have hslice : H.dropLast.slice = H.slice.dropLast := by
    unfold Heap.dropLast
    split
    · rename_i hnone
      rw [List.getLast?_eq_none_iff.mp hnone]
      rfl
    · rfl
  have hlen : H.dropLast.slice.length = H.slice.length - 1 := by
    rw [hslice, List.length_dropLast]
  have hsame : ∀ k, k < H.slice.length - 1 → H.dropLast.rankAt rank k = H.rankAt rank k := by
    intro k hk
    apply rankAt_congr
    rw [hslice, List.getElem?_dropLast, if_pos hk]
  intro k hk hkn
  rw [hlen] at hkn
  rw [hsame k hkn, hsame _ (by unfold parent; omega)]
  exact h k hk hkn

/-- **Removing** keeps the order. -/
theorem ordered_remove (h : H.Ordered rank) (hi : i < H.slice.length) :
    (remove less H i).Ordered rank := by
  have hfront : IndexedHeap.Ordered (H.rankAt rank) (H.slice.length - 1) :=
    fun k hk hkn => h k hk (by omega)
  unfold remove
  dsimp only
  split
  · rename_i hne
    have hlast : H.slice.length - 1 < H.slice.length := by omega
    have hin : i < H.slice.length - 1 := by omega
    have hswap := shuffles_swap hi hlast (Nat.le_refl _)
    have hlen : H.slice.length - 1 ≤ (H.swap i (H.slice.length - 1)).slice.length := by
      rw [hswap.length_eq]
      omega
    have hsettle := (shuffles_settle less hin hlen).length_eq.trans hswap.length_eq
    apply ordered_dropLast
    rw [hsettle]
    -- The last element now stands at `i`; the positions up to it are otherwise as before.
    refine ordered_settle hless hlen hin (hfront.orderedExcept hin ?_)
    intro k hk hki
    rw [rankAt_swap hi hlast, exchange_other _ hki (by omega)]
  · exact ordered_dropLast hfront

end Loops

end IndexedHeap
