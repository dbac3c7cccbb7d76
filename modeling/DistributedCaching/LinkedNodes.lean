import Mathlib.Data.List.Nodup
import Mathlib.Logic.Function.Basic
import Mathlib.Tactic.Common

/-!
# Doubly linked nodes

A memory of nodes with `next` and `prev` pointers, and the two edits that a
doubly linked list is made of: linking a node in behind another one, and
unlinking a node.  `Path m a l` says that from node `a` the forward pointers
lead through `l` and the backward pointers lead back; it reads `next` of every
node but the last and `prev` of every node but the first, so an edit only has to
be followed around the nodes it touches (`Path.frame`).

With a sentinel `a` in front and a sentinel `t` behind, `path_insertAfter` and
`path_unlink` are list insertion at the head and list erasure.
-/

namespace LinkedNodes

/-- The pointers of all nodes. -/
structure Links (ρ : Type*) where
  next : ρ → ρ
  prev : ρ → ρ

variable {ρ : Type*} [DecidableEq ρ]

/-- `a.next = b`. -/
def Links.setNext (m : Links ρ) (a b : ρ) : Links ρ :=
  { m with next := Function.update m.next a b }

/-- `a.prev = b`. -/
def Links.setPrev (m : Links ρ) (a b : ρ) : Links ρ :=
  { m with prev := Function.update m.prev a b }

/-- Link `n` in right behind `a`. -/
def Links.insertAfter (m : Links ρ) (a n : ρ) : Links ρ :=
  let m := m.setPrev n a
  let m := m.setNext n (m.next a)
  let m := m.setPrev (m.next a) n
  m.setNext a n

/-- Detach `n` from its neighbours. -/
def Links.unlink (m : Links ρ) (n : ρ) : Links ρ :=
  let m := m.setNext (m.prev n) (m.next n)
  m.setPrev (m.next n) (m.prev n)

/-- From `a` the pointers lead through the list, and back. -/
def Path (m : Links ρ) : ρ → List ρ → Prop
  | _, [] => True
  | a, b :: rest => m.next a = b ∧ m.prev b = a ∧ Path m b rest

/-! ## The pointers after an edit -/

theorem next_insertAfter {m : Links ρ} {a n : ρ} (hne : n ≠ a) (x : ρ) :
    (m.insertAfter a n).next x =
      if x = a then n else if x = n then m.next a else m.next x := by
  by_cases hx : x = a
  · subst hx
    simp [Links.insertAfter, Links.setNext]
  · simp [Links.insertAfter, Links.setNext, Links.setPrev, Function.update_apply, hx]

theorem prev_insertAfter {m : Links ρ} {a n : ρ} (hne : n ≠ a) (x : ρ) :
    (m.insertAfter a n).prev x =
      if x = m.next a then n else if x = n then a else m.prev x := by
  simp [Links.insertAfter, Links.setNext, Links.setPrev, Function.update_apply, hne.symm]

theorem next_unlink (m : Links ρ) (n x : ρ) :
    (m.unlink n).next x = if x = m.prev n then m.next n else m.next x := by
  simp [Links.unlink, Links.setNext, Links.setPrev, Function.update_apply]

theorem prev_unlink (m : Links ρ) (n x : ρ) :
    (m.unlink n).prev x = if x = m.next n then m.prev n else m.prev x := by
  simp [Links.unlink, Links.setNext, Links.setPrev, Function.update_apply]

/-! ## Paths -/

variable {m m' : Links ρ} {a n t : ρ} {l A B : List ρ}

omit [DecidableEq ρ] in
/-- A path is kept by any change of other pointers. -/
theorem Path.frame (h : Path m a l) (hnext : ∀ x ∈ a :: l, m'.next x = m.next x)
    (hprev : ∀ x ∈ l, m'.prev x = m.prev x) : Path m' a l := by
  induction l generalizing a with
  | nil => trivial
  | cons b rest ih =>
      obtain ⟨hab, hba, hrest⟩ := h
      refine ⟨?_, ?_, ih hrest ?_ ?_⟩
      · rw [hnext a List.mem_cons_self, hab]
      · rw [hprev b List.mem_cons_self, hba]
      · intro x hx
        exact hnext x (List.mem_cons_of_mem _ hx)
      · intro x hx
        exact hprev x (List.mem_cons_of_mem _ hx)

omit [DecidableEq ρ] in
/-- The predecessor of a node on the path lies on the path before it. -/
theorem Path.prev_mem (h : Path m a (A ++ n :: B)) : m.prev n ∈ a :: A := by
  induction A generalizing a with
  | nil =>
      rw [h.2.1]
      exact List.mem_cons_self
  | cons b A ih => exact List.mem_cons_of_mem _ (ih h.2.2)

omit [DecidableEq ρ] in
/-- The successor of a node on the path. -/
theorem Path.next_eq {q : ρ} (h : Path m a (A ++ n :: q :: B)) : m.next n = q := by
  induction A generalizing a with
  | nil => exact h.2.2.1
  | cons b A ih => exact ih h.2.2

omit [DecidableEq ρ] in
/-- Which node stands before the end of a path. -/
theorem Path.prev_end (h : Path m a (l ++ [t])) : m.prev t = l.getLast?.getD a := by
  induction l generalizing a with
  | nil => exact h.2.1
  | cons b l ih =>
      rw [ih h.2.2]
      cases l with
      | nil => rfl
      | cons c l => simp [List.getLast?_cons]

/-- **Linking in behind the first node** puts the new node at the head. -/
theorem path_insertAfter (h : Path m a l) (hnd : (a :: l).Nodup) (hl : l ≠ [])
    (hnew : n ∉ a :: l) : Path (m.insertAfter a n) a (n :: l) := by
  cases l with
  | nil => exact absurd rfl hl
  | cons q rest =>
      obtain ⟨haq, _, hrest⟩ := h
      have hna : n ≠ a := fun heq => hnew (by simp [heq])
      have hnq : n ≠ q := fun heq => hnew (by simp [heq])
      refine ⟨?_, ?_, ?_, ?_, hrest.frame ?_ ?_⟩
      · simp [next_insertAfter hna]
      · rw [prev_insertAfter hna, haq, if_neg hnq, if_pos rfl]
      · rw [next_insertAfter hna, if_neg hna, if_pos rfl, haq]
      · rw [prev_insertAfter hna, haq, if_pos rfl]
      · intro x hx
        have hxa : x ≠ a := fun heq => (List.nodup_cons.mp hnd).1 (heq ▸ hx)
        have hxn : x ≠ n := fun heq => hnew (List.mem_cons_of_mem _ (heq ▸ hx))
        rw [next_insertAfter hna, if_neg hxa, if_neg hxn]
      · intro x hx
        have hxq : x ≠ q := fun heq =>
          (List.nodup_cons.mp (List.nodup_cons.mp hnd).2).1 (heq ▸ hx)
        have hxn : x ≠ n := fun heq =>
          hnew (List.mem_cons_of_mem _ (List.mem_cons_of_mem _ (heq ▸ hx)))
        rw [prev_insertAfter hna, haq, if_neg hxq, if_neg hxn]

/-- **Unlinking** takes the node out of the path. -/
theorem path_unlink {q : ρ} (h : Path m a (A ++ n :: q :: B))
    (hnd : (a :: (A ++ n :: q :: B)).Nodup) : Path (m.unlink n) a (A ++ q :: B) := by
  have hnq : m.next n = q := h.next_eq
  induction A generalizing a with
  | nil =>
      obtain ⟨_, hpn, _, _, hrest⟩ := h
      simp only [List.nil_append, List.nodup_cons, List.mem_cons, not_or] at hnd
      obtain ⟨⟨_, haq, haB⟩, _, hqB, _⟩ := hnd
      refine ⟨?_, ?_, hrest.frame ?_ ?_⟩
      · rw [next_unlink, hpn, if_pos rfl, hnq]
      · rw [prev_unlink, hnq, if_pos rfl, hpn]
      · intro x hx
        have hxa : x ≠ a := by
          intro heq
          subst heq
          rcases List.mem_cons.mp hx with hx | hx
          · exact haq hx
          · exact haB hx
        rw [next_unlink, hpn, if_neg hxa]
      · intro x hx
        have hxq : x ≠ q := fun heq => hqB (heq ▸ hx)
        rw [prev_unlink, hnq, if_neg hxq]
  | cons b A ih =>
      obtain ⟨hab, hba, hrest⟩ := h
      obtain ⟨ha, hnd'⟩ := List.nodup_cons.mp hnd
      refine ⟨?_, ?_, ih hrest hnd'⟩
      · -- The edit touches `next` of the node before `n`, which is not `a`.
        have hap : a ≠ m.prev n := by
          intro heq
          have hmem := hrest.prev_mem
          rw [← heq] at hmem
          apply ha
          rcases List.mem_cons.mp hmem with hmem | hmem
          · simp [hmem]
          · simp [hmem]
        rw [next_unlink, if_neg hap, hab]
      · have hbq : b ≠ q := by
          intro heq
          subst heq
          exact (List.nodup_cons.mp hnd').1 (by simp)
        rw [prev_unlink, hnq, if_neg hbq, hba]

/-! ## Traversal -/

/-- The nodes met from `a` on before `stop`, for at most `fuel` nodes. -/
def Links.forward (m : Links ρ) (stop : ρ) : Nat → ρ → List ρ
  | 0, _ => []
  | fuel + 1, a => if a = stop then [] else a :: m.forward stop fuel (m.next a)

/-- Walking a path yields its nodes. -/
theorem forward_path {fuel : Nat} (h : Path m a (l ++ [t])) (ht : t ∉ l)
    (hfuel : l.length < fuel) : m.forward t fuel (m.next a) = l := by
  induction l generalizing a fuel with
  | nil =>
      obtain ⟨fuel, rfl⟩ := Nat.exists_eq_succ_of_ne_zero (Nat.ne_of_gt hfuel)
      rw [h.1, Links.forward, if_pos rfl]
  | cons b l ih =>
      obtain ⟨fuel, rfl⟩ := Nat.exists_eq_succ_of_ne_zero (by omega : fuel ≠ 0)
      have hbt : b ≠ t := fun heq => ht (by simp [heq])
      rw [h.1, Links.forward, if_neg hbt,
        ih h.2.2 (fun hmem => ht (List.mem_cons_of_mem _ hmem)) (by simpa using hfuel)]

/-- The same nodes with the two directions exchanged. -/
def Links.flip (m : Links ρ) : Links ρ where
  next := m.prev
  prev := m.next

omit [DecidableEq ρ] in
/-- A path goes on to a node behind its last one. -/
theorem Path.concat {b c : ρ} (h : Path m a (l ++ [b])) (hnext : m.next b = c)
    (hprev : m.prev c = b) : Path m a (l ++ [b] ++ [c]) := by
  induction l generalizing a with
  | nil => exact ⟨h.1, h.2.1, hnext, hprev, trivial⟩
  | cons d l ih => exact ⟨h.1, h.2.1, ih h.2.2⟩

omit [DecidableEq ρ] in
/-- **A path runs backwards** when the directions are exchanged. -/
theorem path_flip (h : Path m a (l ++ [t])) : Path m.flip t (l.reverse ++ [a]) := by
  induction l generalizing a with
  | nil => exact ⟨h.2.1, h.1, trivial⟩
  | cons b l ih =>
      obtain ⟨hab, hba, hrest⟩ := h
      rw [List.reverse_cons]
      exact (ih hrest).concat hba hab

end LinkedNodes
