import Mathlib.Tactic.Common

/-!
# Groups counted from the right

A list cut into groups of one size from its end, as the digits of a number are: the first
group may be shorter, the others are full (`Grouped`).  `groups` computes them from the
left, where an element ends its group if the number of elements after it is a multiple of
the size.

There is one way to cut a list so (`groups_eq`), and writing a separator after each
element that ends a group is writing it between the groups (`separate_eq`).
-/

namespace RightGroups

variable {α : Type*} {size : Nat}

/-- Groups of one size, of which the first may be shorter. -/
structure Grouped (size : Nat) (first : List α) (rest : List (List α)) : Prop where
  pos : 0 < first.length
  le : first.length ≤ size
  full : ∀ g ∈ rest, g.length = size

/-- Put an element in front of the first group. -/
def consFirst (c : α) : List (List α) → List (List α)
  | [] => [[c]]
  | g :: gs => (c :: g) :: gs

/-- The groups of a list. -/
def groups (size : Nat) : List α → List (List α)
  | [] => []
  | c :: cs =>
      if cs.length % size = 0 then [c] :: groups size cs else consFirst c (groups size cs)

/-- The list with a separator between its groups. -/
def separate (sep : α) (size : Nat) : List α → List α
  | [] => []
  | c :: cs =>
      if cs ≠ [] ∧ cs.length % size = 0 then c :: sep :: separate sep size cs
      else c :: separate sep size cs

theorem flatten_consFirst (c : α) (gs : List (List α)) :
    (consFirst c gs).flatten = c :: gs.flatten := by
  cases gs <;> rfl

theorem flatten_groups (size : Nat) (l : List α) : (groups size l).flatten = l := by
  induction l with
  | nil => rfl
  | cons c cs ih =>
      rw [groups]
      split
      · rw [List.flatten_cons, ih, List.singleton_append]
      · rw [flatten_consFirst, ih]

theorem groups_ne_nil {l : List α} (h : l ≠ []) : groups size l ≠ [] := by
  intro heq
  apply h
  rw [← flatten_groups size l, heq, List.flatten_nil]

/-! ## The one way to cut a list -/

theorem length_flatten_full {gs : List (List α)} (h : ∀ g ∈ gs, g.length = size) :
    gs.flatten.length = size * gs.length := by
  induction gs with
  | nil => rfl
  | cons g gs ih =>
      have hrest := ih fun x hx => h x (List.mem_cons_of_mem _ hx)
      rw [List.flatten_cons, List.length_append, h g List.mem_cons_self, hrest,
        List.length_cons, Nat.mul_succ, Nat.add_comm]

/-- The first group of a list whose rest is cut without remainder. -/
theorem groups_append {first t : List α} (hpos : 0 < first.length) (hle : first.length ≤ size)
    (ht : t.length % size = 0) : groups size (first ++ t) = first :: groups size t := by
  induction first with
  | nil => cases hpos
  | cons c cs ih =>
      have hmod : (cs ++ t).length % size = cs.length % size := by
        rw [List.length_append, Nat.add_mod, ht, Nat.add_zero, Nat.mod_mod]
      rw [List.cons_append, groups, hmod]
      cases cs with
      | nil => rw [List.length_nil, Nat.zero_mod, if_pos rfl, List.nil_append]
      | cons c' cs =>
          rw [List.length_cons] at hle
          have hne : (c' :: cs).length % size ≠ 0 := by
            rw [Nat.mod_eq_of_lt hle]
            exact Nat.succ_ne_zero _
          rw [if_neg hne, ih (Nat.succ_pos _) (Nat.le_of_lt hle)]
          rfl

/-- Full groups are found again. -/
theorem groups_flatten (hsize : 0 < size) {gs : List (List α)} (h : ∀ g ∈ gs, g.length = size) :
    groups size gs.flatten = gs := by
  induction gs with
  | nil => rfl
  | cons g gs ih =>
      have hg : g.length = size := h g List.mem_cons_self
      have hgs : ∀ x ∈ gs, x.length = size := fun x hx => h x (List.mem_cons_of_mem _ hx)
      have hmod : gs.flatten.length % size = 0 := by
        rw [length_flatten_full hgs, Nat.mul_mod_right]
      rw [List.flatten_cons, groups_append (hg ▸ hsize) (Nat.le_of_eq hg) hmod, ih hgs]

/-- **There is one way to cut a list**, and `groups` finds it. -/
theorem groups_eq {first : List α} {rest : List (List α)} (h : Grouped size first rest) :
    groups size (first ++ rest.flatten) = first :: rest := by
  have hsize : 0 < size := Nat.lt_of_lt_of_le h.pos h.le
  have hmod : rest.flatten.length % size = 0 := by
    rw [length_flatten_full h.full, Nat.mul_mod_right]
  rw [groups_append h.pos h.le hmod, groups_flatten hsize h.full]

/-- The groups of a list that is not empty. -/
theorem grouped_groups (hsize : 0 < size) {l : List α} (h : l ≠ []) :
    ∃ first rest, groups size l = first :: rest ∧ Grouped size first rest := by
  induction l with
  | nil => exact absurd rfl h
  | cons c cs ih =>
      rw [groups]
      by_cases hcs : cs = []
      · subst hcs
        exact ⟨[c], [], by simp [groups], ⟨by simp, hsize, by simp⟩⟩
      · obtain ⟨first, rest, heq, hgrouped⟩ := ih hcs
        have hlen : cs.length % size = first.length % size := by
          rw [← flatten_groups size cs, heq, List.flatten_cons, List.length_append,
            length_flatten_full hgrouped.full, Nat.add_mul_mod_self_left]
        obtain ⟨hpos, hle, hfull⟩ := hgrouped
        rw [heq, hlen]
        split
        · -- The first group was full.
          rename_i hmod
          have hfirst : first.length = size := by
            rcases Nat.lt_or_eq_of_le hle with hlt | heq
            · rw [Nat.mod_eq_of_lt hlt] at hmod
              omega
            · exact heq
          refine ⟨[c], first :: rest, rfl, ⟨by simp, hsize, ?_⟩⟩
          intro g hg
          rcases List.mem_cons.mp hg with rfl | hg
          · exact hfirst
          · exact hfull g hg
        · rename_i hmod
          have hlt : first.length ≠ size := by
            intro heq
            apply hmod
            rw [heq, Nat.mod_self]
          refine ⟨c :: first, rest, rfl, ⟨by simp, ?_, hfull⟩⟩
          rw [List.length_cons]
          omega

/-! ## Separators -/

theorem intercalate_consFirst (sep : List α) (c : α) (gs : List (List α)) :
    sep.intercalate (consFirst c gs) = c :: sep.intercalate gs := by
  cases gs with
  | nil => rfl
  | cons g gs =>
      cases gs with
      | nil => simp [consFirst]
      | cons g' gs => simp [consFirst, List.intercalate_cons_cons]

/-- **Separators after the elements that end a group** stand between the groups. -/
theorem separate_eq (sep : α) (size : Nat) (l : List α) :
    separate sep size l = [sep].intercalate (groups size l) := by
  induction l with
  | nil => rfl
  | cons c cs ih =>
      rw [separate, groups]
      by_cases hcs : cs = []
      · subst hcs
        simp [groups, separate]
      · by_cases hmod : cs.length % size = 0
        · rw [if_pos ⟨hcs, hmod⟩, if_pos hmod, ih,
            List.intercalate_cons_of_ne_nil (groups_ne_nil hcs)]
          rfl
        · rw [if_neg fun hboth => hmod hboth.2, if_neg hmod, intercalate_consFirst, ih]

section Separator

variable [DecidableEq α] {sep : α}

/-- The separators are all that is added. -/
theorem filter_separate {l : List α} (h : sep ∉ l) :
    (separate sep size l).filter (· != sep) = l := by
  induction l with
  | nil => rfl
  | cons c cs ih =>
      have hc : c ≠ sep := fun heq => h (heq ▸ List.mem_cons_self)
      have hrest := ih fun hmem => h (List.mem_cons_of_mem _ hmem)
      rw [separate]
      split <;> simp [hc, hrest]

omit [DecidableEq α] in
/-- A separator stands between two elements of the list. -/
theorem separate_beside {l before after : List α} (h : sep ∉ l)
    (heq : separate sep size l = before ++ sep :: after) :
    (∃ a ∈ l, before.getLast? = some a) ∧ ∃ b ∈ l, after.head? = some b := by
  induction l generalizing before with
  | nil => simp [separate] at heq
  | cons c cs ih =>
      have hc : c ≠ sep := fun hsep => h (hsep ▸ List.mem_cons_self)
      have hcs : sep ∉ cs := fun hmem => h (List.mem_cons_of_mem _ hmem)
      -- What the rest says of a separator in it is true behind `c` as well.
      have hlater : ∀ {between : List α} (middle : List α),
          separate sep size cs = between ++ sep :: after → before = c :: middle ++ between →
          (∃ a ∈ c :: cs, before.getLast? = some a) ∧ ∃ b ∈ c :: cs, after.head? = some b := by
        intro between middle hrest hbefore
        obtain ⟨⟨a, ha, hlast⟩, b, hb, hhead⟩ := ih hcs hrest
        refine ⟨⟨a, List.mem_cons_of_mem _ ha, ?_⟩, b, List.mem_cons_of_mem _ hb, hhead⟩
        rw [hbefore, List.getLast?_append, hlast, Option.some_or]
      rw [separate] at heq
      cases before with
      | nil =>
          split at heq <;> exact absurd (List.cons.inj heq).1 hc
      | cons x before =>
          split at heq
          · rename_i hends
            obtain ⟨rfl, htail⟩ := List.cons.inj heq
            cases before with
            | nil =>
                obtain ⟨d, ds, rfl⟩ := List.exists_cons_of_ne_nil hends.1
                have hafter : separate sep size (d :: ds) = after := (List.cons.inj htail).2
                refine ⟨⟨c, List.mem_cons_self, rfl⟩, d, by simp, ?_⟩
                rw [← hafter, separate]
                split <;> rfl
            | cons y before =>
                obtain ⟨rfl, hrest⟩ := List.cons.inj htail
                exact hlater [sep] hrest rfl
          · obtain ⟨rfl, hrest⟩ := List.cons.inj heq
            exact hlater [] hrest rfl

/-- Splitting at the separators and joining deletes them. -/
theorem flatten_splitOn (sep : α) (l : List α) : (l.splitOn sep).flatten = l.filter (· != sep) := by
  induction l with
  | nil => rfl
  | cons c cs ih =>
      rw [List.splitOn_cons_eq_if_modifyHead]
      by_cases hc : c = sep
      · simp [hc, ih]
      · obtain ⟨g, gs, hsplit⟩ := List.exists_cons_of_ne_nil (List.splitOn_ne_nil sep cs)
        rw [hsplit] at ih ⊢
        simp only [List.flatten_cons] at ih
        simp [hc, ← ih]

end Separator

end RightGroups
