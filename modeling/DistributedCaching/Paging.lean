import Mathlib.Data.Finset.Card
import Mathlib.Tactic.Ring
import DistributedCaching.RecencyStack

/-!
# Least recently used against every other replacement

A cache of `n` keys that replaces the least recently used one holds the top of the recency
stack.  It is compared with a cache of `h ≤ n` keys that may choose what it replaces with
full knowledge of the uses to come (`Schedule`).

The argument is a potential.  A key of the top that the other cache does not hold weighs
its distance from the bottom of the top (`weight`), and free room counts as well:

* the other cache changes by a miss only, and drops one key, so that the potential grows
  by at most `n` (`weight_move`);
* a use of a key in the top moves it up and the others down (`weight_hit`);
* a use of another key moves the whole top down, and at least `n - h + 1` of its keys are
  not in the other cache, for that holds the key that is used (`weight_miss`).

`misses_le` adds this up over all uses.
-/

namespace Paging

open RecencyStack

variable {κ : Type*} [DecidableEq κ]

/-! ## The two caches -/

/-- The misses of a cache of `n` keys that replaces the least recently used one. -/
def misses (n : Nat) : List κ → List κ → Nat
  | _, [] => 0
  | stack, k :: ks => (if k ∈ stack.take n then 0 else 1) + misses n (touch k stack) ks

/-- `Schedule h o ks m`: a cache of at most `h` keys that holds `o` can serve the uses `ks`
with `m` misses.  A hit changes nothing; on a miss the key comes in, and one other key may
be dropped. -/
inductive Schedule (h : Nat) : Finset κ → List κ → Nat → Prop
  | nil (o : Finset κ) : Schedule h o [] 0
  | hit {o : Finset κ} {k : κ} {ks : List κ} {m : Nat} (hk : k ∈ o) (rest : Schedule h o ks m) :
      Schedule h o (k :: ks) m
  | miss {o : Finset κ} {k : κ} {ks : List κ} {m : Nat} (y : κ) (hk : k ∉ o)
      (hcard : (insert k (o.erase y)).card ≤ h) (rest : Schedule h (insert k (o.erase y)) ks m) :
      Schedule h o (k :: ks) (m + 1)

/-! ## Weights -/

/-- The weights of the keys of a list that are not in `o`: `n` for the first one, and one
less from key to key. -/
def weight (o : Finset κ) : Nat → List κ → Nat
  | _, [] => 0
  | n, x :: l => (if x ∈ o then 0 else n) + weight o (n - 1) l

variable {o o' : Finset κ} {k y : κ} {n h : Nat} {l stack : List κ}

/-- The more keys are held by the other cache, the less weighs the list. -/
theorem weight_anti (hsub : o ⊆ o') (n : Nat) (l : List κ) : weight o' n l ≤ weight o n l := by
  induction l generalizing n with
  | nil => exact Nat.le_refl _
  | cons x l ih =>
      refine Nat.add_le_add ?_ (ih (n - 1))
      by_cases hx : x ∈ o
      · simp [hx, hsub hx]
      · rw [if_neg hx]
        split
        · exact Nat.zero_le n
        · exact Nat.le_refl n

/-- A key outside the list has no weight in it. -/
theorem weight_erase_of_not_mem (hy : y ∉ l) (n : Nat) : weight (o.erase y) n l = weight o n l := by
  induction l generalizing n with
  | nil => rfl
  | cons x l ih =>
      rw [List.mem_cons, not_or] at hy
      have hx : x ∈ o.erase y ↔ x ∈ o := by simp [Finset.mem_erase, Ne.symm hy.1]
      simp only [weight, ih hy.2 (n - 1), hx]

/-- Dropping a key costs at most the largest weight. -/
theorem weight_erase (hnodup : l.Nodup) (n : Nat) :
    weight (o.erase y) n l ≤ weight o n l + n := by
  induction l generalizing n with
  | nil => exact Nat.zero_le _
  | cons x l ih =>
      rw [List.nodup_cons] at hnodup
      by_cases hx : x = y
      · subst hx
        simp only [weight, weight_erase_of_not_mem hnodup.1]
        split <;> split <;> omega
      · have hmem : x ∈ o.erase y ↔ x ∈ o := by simp [Finset.mem_erase, hx]
        have hrest := ih hnodup.2 (n - 1)
        simp only [weight, hmem]
        omega

/-- **The other cache misses**: the weight grows by at most `n`. -/
theorem weight_move (hnodup : l.Nodup) (k y : κ) (n : Nat) :
    weight (insert k (o.erase y)) n l ≤ weight o n l + n :=
  (weight_anti (Finset.subset_insert k _) n l).trans (weight_erase hnodup n)

/-- Without a key of the list that has no weight, everything below it moves up. -/
theorem weight_filter (hnodup : l.Nodup) (hk : k ∈ l) (ho : k ∈ o) (n : Nat) :
    weight o (n - 1) (l.filter fun x => x ≠ k) ≤ weight o n l := by
  induction l generalizing n with
  | nil => simp at hk
  | cons x l ih =>
      rw [List.nodup_cons] at hnodup
      by_cases hx : x = k
      · subst hx
        have hrest : (l.filter fun z => z ≠ x) = l :=
          List.filter_eq_self.mpr fun z hz => decide_eq_true fun heq => hnodup.1 (heq ▸ hz)
        rw [List.filter_cons_of_neg (by simp), hrest, weight]
        omega
      · have hmem : k ∈ l := by
          rcases List.mem_cons.mp hk with heq | hmem
          · exact absurd heq.symm hx
          · exact hmem
        have hrest := ih hnodup.2 hmem (n - 1)
        rw [List.filter_cons_of_pos (by simp [hx]), weight, weight]
        split <;> omega

/-- **A use of a key in the top** does not add weight. -/
theorem weight_hit (hnodup : l.Nodup) (hk : k ∈ l) (ho : k ∈ o) (n : Nat) :
    weight o n (touch k l) ≤ weight o n l := by
  have hrest := weight_filter hnodup hk ho n
  rw [touch, weight, if_pos ho]
  omega

/-- The keys of a list that are not in `o`. -/
def missing (o : Finset κ) (l : List κ) : Nat := l.countP fun x => x ∉ o

/-- Moving a list that fits down by one, where its last key may fall out, takes one from the
weight of every key that is not in `o`. -/
theorem weight_down (hlen : l.length ≤ n) :
    weight o (n - 1) (l.take (n - 1)) + missing o l ≤ weight o n l := by
  induction l generalizing n with
  | nil => simp [weight, missing]
  | cons x l ih =>
      rw [List.length_cons] at hlen
      obtain ⟨n, rfl⟩ : ∃ m, n = m + 1 := ⟨n - 1, by omega⟩
      have hlen' : l.length ≤ n := by omega
      have hrest := ih hlen'
      simp only [missing, List.countP_cons, weight, Nat.add_sub_cancel] at hrest ⊢
      cases n with
      | zero =>
          obtain rfl : l = [] := List.length_eq_zero_iff.mp (by omega)
          by_cases hx : x ∈ o <;> simp [weight, hx]
      | succ n =>
          rw [List.take_succ_cons, weight]
          by_cases hx : x ∈ o
          · simp only [hx, if_true, not_true_eq_false, decide_false, Bool.false_eq_true, if_false,
              Nat.add_sub_cancel] at hrest ⊢
            omega
          · simp only [hx, if_false, not_false_eq_true, decide_true, if_true,
              Nat.add_sub_cancel] at hrest ⊢
            omega

/-- Another cache that holds a key outside the list lacks all but `h - 1` keys of it. -/
theorem length_le_missing (hnodup : l.Nodup) (hk : k ∉ l) (ho : k ∈ o) (hcard : o.card ≤ h) :
    l.length + 1 ≤ missing o l + h := by
  have hsplit : l.length = missing o l + l.countP fun x => x ∈ o := by
    rw [missing, Nat.add_comm]
    simpa using List.length_eq_countP_add_countP (fun x => decide (x ∈ o)) (l := l)
  have hheld : (l.countP fun x => x ∈ o) ≤ (o.erase k).card := by
    rw [List.countP_eq_length_filter, ← List.toFinset_card_of_nodup (hnodup.filter _)]
    refine Finset.card_le_card fun x hx => ?_
    obtain ⟨hxl, hxo⟩ := List.mem_filter.mp (List.mem_toFinset.mp hx)
    exact Finset.mem_erase.mpr ⟨fun heq => hk (heq ▸ hxl), of_decide_eq_true hxo⟩
  have hpos : 0 < o.card := Finset.card_pos.mpr ⟨k, ho⟩
  rw [Finset.card_erase_of_mem ho] at hheld
  omega

/-! ## The potential -/

/-- The weight of the top, and `n - h + 1` for each place that is free in it. -/
def potential (n h : Nat) (o : Finset κ) (stack : List κ) : Nat :=
  weight o n (stack.take n) + (n - h + 1) * (n - (stack.take n).length)

/-- A use of a key of the list keeps the length. -/
theorem length_touch (hnodup : l.Nodup) (hk : k ∈ l) : (touch k l).length = l.length := by
  have hfilter : (l.filter fun x => x ≠ k) = l.erase k := by
    rw [hnodup.erase_eq_filter]
    refine List.filter_congr fun x _ => ?_
    by_cases hx : x = k <;> simp [hx]
  have hpos := List.length_pos_of_mem hk
  rw [touch, List.length_cons, hfilter, List.length_erase_of_mem hk]
  omega

/-- A use of another key: the top moves down, and has a place less or lacks `n - h + 1` of
its keys in the other cache. -/
theorem potential_miss (hn : 1 ≤ n) (hh : h ≤ n) (hnodup : stack.Nodup)
    (hk : k ∉ stack.take n) (ho : k ∈ o) (hcard : o.card ≤ h) :
    n - h + 1 + potential n h o (touch k stack) ≤ potential n h o stack := by
  have htop : (stack.take n).Nodup := hnodup.sublist (List.take_sublist n stack)
  have hlen : (stack.take n).length ≤ n := List.length_take_le n stack
  have hdown := weight_down (o := o) hlen
  have hmissing := length_le_missing htop hk ho hcard
  obtain ⟨m, rfl⟩ : ∃ m, n = m + 1 := ⟨n - 1, by omega⟩
  rw [Nat.add_sub_cancel, List.take_take, Nat.min_eq_left (Nat.le_succ m)] at hdown
  rw [potential, potential, take_touch_miss hk, weight, if_pos ho, Nat.add_sub_cancel,
    List.length_cons]
  have hlength : (stack.take (m + 1)).length = min (m + 1) stack.length := List.length_take
  have hlength' : (stack.take m).length = min m stack.length := List.length_take
  by_cases hfull : m + 1 ≤ stack.length
  · -- The top is full before and after.
    have hbefore : m + 1 - (stack.take (m + 1)).length = 0 := by omega
    have hafter : m + 1 - ((stack.take m).length + 1) = 0 := by omega
    rw [hbefore, hafter, Nat.mul_zero]
    omega
  · -- A place that was free is taken.
    obtain ⟨free, hfree⟩ : ∃ free, m + 1 - (stack.take (m + 1)).length = free + 1 :=
      ⟨m - stack.length, by omega⟩
    have hafter : m + 1 - ((stack.take m).length + 1) = free := by omega
    rw [hfree, hafter, Nat.mul_succ]
    omega

/-- **One use**, after the other cache has taken the key in. -/
theorem potential_touch (hn : 1 ≤ n) (hh : h ≤ n) (hnodup : stack.Nodup) (ho : k ∈ o)
    (hcard : o.card ≤ h) :
    (n - h + 1) * (if k ∈ stack.take n then 0 else 1) + potential n h o (touch k stack) ≤
      potential n h o stack := by
  have htop : (stack.take n).Nodup := hnodup.sublist (List.take_sublist n stack)
  by_cases hk : k ∈ stack.take n
  · have hweight := weight_hit htop hk ho n
    rw [if_pos hk, potential, potential, take_touch_hit hnodup hk, length_touch htop hk]
    omega
  · rw [if_neg hk, Nat.mul_one]
    exact potential_miss hn hh hnodup hk ho hcard

/-- **All uses.**  The misses of the cache that replaces the least recently used key are paid
by the misses of the other one and by the potential at the start. -/
theorem misses_le (hn : 1 ≤ n) (hh : h ≤ n) {ks : List κ} {m : Nat}
    (hschedule : Schedule h o ks m) (hcard : o.card ≤ h) (hnodup : stack.Nodup) :
    (n - h + 1) * misses n stack ks ≤ potential n h o stack + n * m := by
  induction hschedule generalizing stack with
  | nil o => exact Nat.zero_le _
  | @hit o k ks m hk rest ih =>
      have hstep := potential_touch hn hh hnodup hk hcard
      have hrest := ih hcard (nodup_touch hnodup k)
      rw [misses, Nat.mul_add]
      omega
  | @miss o k ks m y hk hcard' rest ih =>
      have hmove : potential n h (insert k (o.erase y)) stack ≤ potential n h o stack + n := by
        have hweight := weight_move (o := o) (hnodup.sublist (List.take_sublist n stack)) k y n
        rw [potential, potential]
        omega
      have hstep := potential_touch hn hh hnodup (Finset.mem_insert_self k (o.erase y)) hcard'
      have hrest := ih hcard' (nodup_touch hnodup k)
      rw [misses, Nat.mul_add, Nat.mul_succ]
      omega

/-- From an empty cache, only the free places have to be paid. -/
theorem potential_nil (n h : Nat) (o : Finset κ) : potential n h o [] = (n - h + 1) * n := by
  simp [potential, weight]

end Paging
