import Mathlib.Data.List.Nodup
import Mathlib.Tactic.Common

/-!
# The recency stack

All keys that were ever used, the latest use first.  A use moves its key to the top
(`touch`).  What a least-recently-used cache of some capacity holds is the top of this
stack, whatever the capacity: `take_touch_hit` and `take_touch_miss` say how the top
moves when a key in it is used and when another one is.
-/

namespace RecencyStack

variable {κ : Type*} [DecidableEq κ]

/-- The stack after a use of `k`. -/
def touch (k : κ) (stack : List κ) : List κ := k :: stack.filter fun x => x ≠ k

/-- The stack after some uses, the latest one last. -/
def touchAll (stack : List κ) (ks : List κ) : List κ := ks.foldl (fun s k => touch k s) stack

variable {k : κ} {stack : List κ} {n : Nat}

/-- A use of a key does not put it there twice. -/
theorem nodup_touch (h : stack.Nodup) (k : κ) : (touch k stack).Nodup := by
  refine List.nodup_cons.mpr ⟨?_, h.filter _⟩
  intro hmem
  simpa using (List.mem_filter.mp hmem).2

/-- Taking a key of the top away moves everything below it up by one. -/
theorem take_filter_of_mem (hnodup : stack.Nodup) (h : k ∈ stack.take (n + 1)) :
    (stack.filter fun x => x ≠ k).take n = (stack.take (n + 1)).filter fun x => x ≠ k := by
  induction stack generalizing n with
  | nil => simp at h
  | cons x stack ih =>
      rw [List.nodup_cons] at hnodup
      by_cases hx : x = k
      · subst hx
        have hrest : ∀ y ∈ stack, decide (y ≠ x) = true := by
          intro y hy
          exact decide_eq_true fun heq => hnodup.1 (heq ▸ hy)
        have htop : ∀ y ∈ stack.take n, decide (y ≠ x) = true :=
          fun y hy => hrest y (List.mem_of_mem_take hy)
        simp only [List.take_succ_cons, List.filter_cons, ne_eq, not_true, decide_false,
          Bool.false_eq_true, if_false]
        rw [List.filter_eq_self.mpr hrest, List.filter_eq_self.mpr htop]
      · rw [List.take_succ_cons, List.mem_cons] at h
        have hk : k ∈ stack.take n := h.resolve_left fun heq => hx heq.symm
        cases n with
        | zero => simp at hk
        | succ n =>
            have hstep := ih hnodup.2 hk
            simp only [List.take_succ_cons, List.filter_cons, ne_eq, hx, not_false_eq_true,
              decide_true, if_true] at hstep ⊢
            rw [hstep]

/-- Taking a key away from below the top leaves the top alone. -/
theorem take_filter_of_not_mem (h : k ∉ stack.take n) :
    (stack.filter fun x => x ≠ k).take n = stack.take n := by
  induction stack generalizing n with
  | nil => rfl
  | cons x stack ih =>
      cases n with
      | zero => rfl
      | succ n =>
          rw [List.take_succ_cons, List.mem_cons, not_or] at h
          have hx : x ≠ k := fun heq => h.1 heq.symm
          have hstep := ih h.2
          simp only [List.take_succ_cons, List.filter_cons, ne_eq, hx, not_false_eq_true,
            decide_true, if_true] at hstep ⊢
          rw [hstep]

/-- **A use of a key in the top** stays in the top. -/
theorem take_touch_hit (hnodup : stack.Nodup) (h : k ∈ stack.take n) :
    (touch k stack).take n = touch k (stack.take n) := by
  cases n with
  | zero => simp at h
  | succ n => rw [touch, touch, List.take_succ_cons, take_filter_of_mem hnodup h]

/-- **A use of another key** pushes the last key out of a top that is full. -/
theorem take_touch_miss (h : k ∉ stack.take (n + 1)) :
    (touch k stack).take (n + 1) = k :: stack.take n := by
  have hbelow : k ∉ stack.take n := by
    intro hmem
    exact h (List.take_subset_take_left _ (Nat.le_succ n) hmem)
  rw [touch, List.take_succ_cons, take_filter_of_not_mem hbelow]

end RecencyStack
