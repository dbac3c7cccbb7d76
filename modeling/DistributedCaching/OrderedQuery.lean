import Mathlib.Data.List.Chain
import Mathlib.Data.List.Sort

/-!
# Queries with an order, a limit and an offset

A query `ORDER BY key DESC LIMIT size OFFSET off` lists the rows of a table from the
greatest key to the least, and returns a part of this list.  Rows with equal keys come in
any order, which may be another one for each query: `QueryOrder` is one list that a query
may follow.

All queries follow the same list exactly if the keys are distinct (`listed_eq`,
`nodup_keys_of_listed_eq`), and then the parts at consecutive offsets are consecutive parts
of it (`flatMap_page`).  Two offsets give the same part only if they are the same or both
past the end (`limitOffset_eq_iff`).
-/

/-- A list that a query may follow. -/
structure QueryOrder {α κ : Type*} [LE κ] (key : α → κ) (rows : List α) where
  listed : List α
  perm : listed.Perm rows
  sorted : listed.Pairwise fun a b => key b ≤ key a

/-- The rows from an offset on, up to a limit. -/
def limitOffset {α : Type*} (limit offset : Nat) (listed : List α) : List α :=
  (listed.drop offset).take limit

/-- **Parts at two offsets** of a list without repetitions: they begin with different rows,
unless the offsets are the same or both past the end. -/
theorem limitOffset_eq_iff {α : Type*} {limit : Nat} (hlimit : 0 < limit) {listed : List α}
    (hnodup : listed.Nodup) {a b : Nat} :
    limitOffset limit a listed = limitOffset limit b listed ↔
      a = b ∨ listed.length ≤ a ∧ listed.length ≤ b := by
  have hfirst : ∀ offset, (limitOffset limit offset listed).head? = listed[offset]? := by
    intro offset
    rw [limitOffset, List.head?_take, if_neg (by omega), List.head?_drop]
  constructor
  · intro hsame
    have hheads : listed[a]? = listed[b]? := by rw [← hfirst, ← hfirst, hsame]
    by_cases ha : a < listed.length
    · exact Or.inl ((List.getElem?_inj ha hnodup).mp hheads)
    · have hnone : listed[b]? = none := by rw [← hheads, List.getElem?_eq_none (by omega)]
      exact Or.inr ⟨by omega, List.getElem?_eq_none_iff.mp hnone⟩
  · intro hcases
    rcases hcases with rfl | ⟨ha, hb⟩
    · rfl
    · rw [limitOffset, limitOffset, List.drop_eq_nil_of_le ha, List.drop_eq_nil_of_le hb]

/-- **Consecutive pages**, one after the other. -/
theorem flatMap_page {α : Type*} (size n : Nat) (listed : List α) :
    ((List.range n).flatMap fun i => limitOffset size (i * size) listed) =
      listed.take (n * size) := by
  induction n with
  | zero => simp
  | succ n ih =>
      rw [List.range_succ, List.flatMap_append, ih, Nat.succ_mul, List.take_add]
      simp [limitOffset]

namespace QueryOrder

variable {α κ : Type*} [LinearOrder κ] {key : α → κ} {rows : List α}

/-- The order of a stable sort. -/
def bySort (key : α → κ) (rows : List α) : QueryOrder key rows where
  listed := rows.insertionSort fun a b => key b ≤ key a
  perm := List.perm_insertionSort _ rows
  sorted := by
    have htotal : Std.Total fun a b : α => key b ≤ key a := ⟨fun a b => le_total (key b) (key a)⟩
    have htrans : IsTrans α fun a b : α => key b ≤ key a := ⟨fun _ _ _ hab hbc => hbc.trans hab⟩
    exact List.pairwise_insertionSort _ rows

/-- Rows with distinct keys are listed in one order. -/
theorem listed_eq (hdistinct : (rows.map key).Nodup) (o o' : QueryOrder key rows) :
    o.listed = o'.listed := by
  refine List.Perm.eq_of_pairwise ?_ o.sorted o'.sorted (o.perm.trans o'.perm.symm)
  intro a b ha hb hab hba
  exact List.inj_on_of_nodup_map hdistinct (o.perm.mem_iff.mp ha) (o'.perm.mem_iff.mp hb)
    (le_antisymm hba hab)

/-- The order with two neighbours of equal keys exchanged. -/
def exchange (o : QueryOrder key rows) {l₁ l₂ : List α} {a b : α}
    (hlisted : o.listed = l₁ ++ a :: b :: l₂) (hkey : key a = key b) : QueryOrder key rows where
  listed := l₁ ++ b :: a :: l₂
  perm := ((List.Perm.swap a b l₂).append_left l₁).trans (hlisted ▸ o.perm)
  sorted := by
    have hsorted := o.sorted
    rw [hlisted] at hsorted
    simp only [List.pairwise_append, List.pairwise_cons, List.mem_cons, forall_eq_or_imp]
      at hsorted ⊢
    obtain ⟨hfirst, ⟨⟨hab, ha⟩, hb, hrest⟩, hacross⟩ := hsorted
    refine ⟨hfirst, ⟨⟨hkey.le, hb⟩, ha, hrest⟩, ?_⟩
    intro x hx
    obtain ⟨hxa, hxb, hxrest⟩ := hacross x hx
    exact ⟨hxb, hxa, hxrest⟩

/-- **If all queries follow one list, the keys are distinct.** -/
theorem nodup_keys_of_listed_eq (hnodup : rows.Nodup)
    (hsame : ∀ o o' : QueryOrder key rows, o.listed = o'.listed) : (rows.map key).Nodup := by
  let o := bySort key rows
  -- Two neighbours with equal keys could be exchanged.
  have hchain : o.listed.IsChain fun a b => key b < key a := by
    rw [List.isChain_iff_forall_rel_of_append_cons_cons]
    intro a b l₁ l₂ hlisted
    have hsorted := o.sorted
    have hdistinct := o.perm.nodup_iff.mpr hnodup
    rw [hlisted] at hsorted hdistinct
    have hle : key b ≤ key a :=
      (List.pairwise_cons.mp (List.pairwise_append.mp hsorted).2.1).1 b List.mem_cons_self
    refine lt_of_le_of_ne hle ?_
    intro hkey
    have hother := hsame o (o.exchange hlisted hkey.symm)
    rw [hlisted] at hother
    have hab : a = b := (List.cons.inj (List.append_cancel_left hother)).1
    rw [hab] at hdistinct
    have hhead := (List.nodup_cons.mp (List.nodup_append.mp hdistinct).2.1).1
    exact hhead List.mem_cons_self
  have htrans : Trans (fun a b : α => key b < key a) (fun a b => key b < key a)
      (fun a b => key b < key a) := ⟨fun hab hbc => hbc.trans hab⟩
  have hpairwise := List.isChain_iff_pairwise.mp hchain
  have hkeys : (o.listed.map key).Nodup :=
    List.pairwise_map.mpr (hpairwise.imp fun hab => hab.ne')
  exact (o.perm.map key).nodup_iff.mp hkeys

end QueryOrder
