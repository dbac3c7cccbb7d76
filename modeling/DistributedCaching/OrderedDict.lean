import Mathlib.Data.List.Nodup
import Mathlib.Tactic.Common

/-!
# Ordered dictionaries

A dictionary that remembers the order of its keys, the oldest first, as
`collections.OrderedDict` of Python does: assignment to a new key appends it and
assignment to an old key leaves it where it is, `moveToEnd` makes a key the newest, and
`popFirst` drops the oldest.

An operation that makes a key the newest is described by one list: the other items
in their order, and the key at the end.
-/

structure OrderedDict (κ ν : Type*) where
  /-- The items, the oldest first. -/
  items : List (κ × ν)
  nodup : (items.map Prod.fst).Nodup

namespace OrderedDict

variable {κ ν : Type*}

def empty : OrderedDict κ ν := ⟨[], List.nodup_nil⟩

def keys (d : OrderedDict κ ν) : List κ := d.items.map Prod.fst

/-- `len(d)`. -/
def len (d : OrderedDict κ ν) : Nat := d.items.length

/-- `d.popitem(last=False)`, on a dictionary that is not empty. -/
def popFirst (d : OrderedDict κ ν) : OrderedDict κ ν :=
  ⟨d.items.tail, d.nodup.sublist ((List.tail_sublist d.items).map Prod.fst)⟩

@[simp] theorem keys_empty : (empty : OrderedDict κ ν).keys = [] := rfl

theorem keys_popFirst (d : OrderedDict κ ν) : d.popFirst.keys = d.keys.tail := List.map_tail

theorem length_keys (d : OrderedDict κ ν) : d.keys.length = d.len := List.length_map _

variable [DecidableEq κ]

/-- `d.get(k)`. -/
def lookup (d : OrderedDict κ ν) (k : κ) : Option ν :=
  (d.items.find? fun x => x.1 = k).map Prod.snd

/-- The items of the other keys, and then this one. -/
def withLast (d : OrderedDict κ ν) (k : κ) (v : ν) : List (κ × ν) :=
  (d.items.filter fun x => x.1 ≠ k) ++ [(k, v)]

theorem nodup_withLast (d : OrderedDict κ ν) (k : κ) (v : ν) :
    ((d.withLast k v).map Prod.fst).Nodup := by
  rw [withLast, List.map_append, List.nodup_append]
  refine ⟨d.nodup.sublist (List.filter_sublist.map _), List.nodup_singleton _, ?_⟩
  intro a ha b hb
  obtain ⟨x, hx, rfl⟩ := List.mem_map.mp ha
  rw [List.map_singleton, List.mem_singleton] at hb
  subst hb
  simpa using (List.mem_filter.mp hx).2

/-- The item, with the value `v` if it is the one of `k`. -/
def put (k : κ) (v : ν) (x : κ × ν) : κ × ν := if x.1 = k then (k, v) else x

@[simp] theorem put_fst (k : κ) (v : ν) (x : κ × ν) : (put k v x).1 = x.1 := by
  unfold put
  split
  · rename_i hx
    exact hx.symm
  · rfl

theorem put_of_ne {k : κ} {x : κ × ν} (v : ν) (h : x.1 ≠ k) : put k v x = x := if_neg h

/-- `d[k] = v`. -/
def assign (d : OrderedDict κ ν) (k : κ) (v : ν) : OrderedDict κ ν :=
  if h : k ∈ d.keys then
    ⟨d.items.map (put k v), by
      have hkeys : (d.items.map (put k v)).map Prod.fst = d.keys := by
        simp [keys, Function.comp_def]
      rw [hkeys]
      exact d.nodup⟩
  else
    ⟨d.items ++ [(k, v)], by
      rw [List.map_append, List.nodup_append]
      refine ⟨d.nodup, List.nodup_singleton _, ?_⟩
      intro a ha b hb heq
      rw [List.map_singleton, List.mem_singleton] at hb
      rw [heq, hb] at ha
      exact h ha⟩

/-- `d.move_to_end(k)`, for a key that is there. -/
def moveToEnd (d : OrderedDict κ ν) (k : κ) : OrderedDict κ ν :=
  match d.lookup k with
  | none => d
  | some v => ⟨d.withLast k v, d.nodup_withLast k v⟩

variable {d : OrderedDict κ ν} {k : κ} {v : ν}

/-- A lookup finds exactly the items. -/
theorem lookup_eq_some_iff : d.lookup k = some v ↔ (k, v) ∈ d.items := by
  obtain ⟨items, hnodup⟩ := d
  simp only [lookup]
  induction items with
  | nil => simp
  | cons x items ih =>
      rw [List.map_cons, List.nodup_cons] at hnodup
      by_cases hx : x.1 = k
      · have hrest : (k, v) ∉ items := by
          intro hmem
          exact hnodup.1 (hx ▸ List.mem_map_of_mem hmem)
        have heq : x.2 = v ↔ (k, v) = x := by
          rw [Prod.ext_iff]
          simp [hx, eq_comm]
        simp [hx, hrest, heq]
      · have hne : (k, v) ≠ x := fun heq => hx (heq ▸ rfl)
        simpa [hx, hne] using ih hnodup.2

theorem mem_keys_iff : k ∈ d.keys ↔ ∃ v, d.lookup k = some v := by
  simp [keys, lookup_eq_some_iff]

theorem lookup_eq_none_iff : d.lookup k = none ↔ k ∉ d.keys := by
  rw [mem_keys_iff, Option.eq_none_iff_forall_ne_some]
  simp

/-- What is in the dictionary after an item was put last. -/
theorem mem_withLast {x : κ × ν} : x ∈ d.withLast k v ↔ (x.1 ≠ k ∧ x ∈ d.items) ∨ x = (k, v) := by
  simp [withLast, and_comm]

/-- A dictionary whose newest item is the one of `k`, and is otherwise `d`. -/
theorem lookup_withLast_self {d' : OrderedDict κ ν} (h : d'.items = d.withLast k v) :
    d'.lookup k = some v := by
  rw [lookup_eq_some_iff, h]
  exact mem_withLast.mpr (Or.inr rfl)

theorem lookup_withLast_ne {d' : OrderedDict κ ν} (h : d'.items = d.withLast k v) {k' : κ}
    (hne : k' ≠ k) : d'.lookup k' = d.lookup k' := by
  refine Option.ext fun w => ?_
  rw [lookup_eq_some_iff, lookup_eq_some_iff, h, mem_withLast]
  simp [hne]

theorem mem_keys_withLast {d' : OrderedDict κ ν} (h : d'.items = d.withLast k v) {k' : κ} :
    k' ∈ d'.keys ↔ k' = k ∨ k' ∈ d.keys := by
  by_cases hk : k' = k
  · subst hk
    simp [mem_keys_iff, lookup_withLast_self h]
  · simp [mem_keys_iff, lookup_withLast_ne h hk, hk]

/-- The keys in their order, with `k` as the newest. -/
theorem keys_withLast {d' : OrderedDict κ ν} (h : d'.items = d.withLast k v) :
    d'.keys = (d.keys.filter fun x => x ≠ k) ++ [k] := by
  rw [keys, h, withLast, List.map_append, keys, List.filter_map]
  rfl

/-- The oldest key is gone, and the others are as they were. -/
theorem lookup_popFirst_self {x : κ × ν} {rest : List (κ × ν)} (h : d.items = x :: rest) :
    d.popFirst.lookup x.1 = none := by
  have hnodup := d.nodup
  rw [h, List.map_cons, List.nodup_cons] at hnodup
  rw [lookup_eq_none_iff]
  simpa [keys, popFirst, h] using hnodup.1

theorem lookup_popFirst_ne {x : κ × ν} {rest : List (κ × ν)} (h : d.items = x :: rest)
    (hne : k ≠ x.1) : d.popFirst.lookup k = d.lookup k := by
  refine Option.ext fun w => ?_
  have hx : (k, w) ≠ x := fun heq => hne (heq ▸ rfl)
  rw [lookup_eq_some_iff, lookup_eq_some_iff, h]
  simp [popFirst, h, hx]

/-- Moving a key to the end puts its item last. -/
theorem items_moveToEnd (h : d.lookup k = some v) :
    (d.moveToEnd k).items = d.withLast k v := by
  simp [moveToEnd, h]

/-- **A key that is made the newest, and assigned to.** -/
theorem items_moveToEnd_assign {w : ν} (h : d.lookup k = some w) :
    ((d.moveToEnd k).assign k v).items = d.withLast k v := by
  have hmem : k ∈ (d.moveToEnd k).keys := by
    rw [mem_keys_iff]
    refine ⟨w, lookup_eq_some_iff.mpr ?_⟩
    rw [items_moveToEnd h]
    exact mem_withLast.mpr (Or.inr rfl)
  have hsame : (d.items.filter fun x => x.1 ≠ k).map (put k v) =
      d.items.filter fun x => x.1 ≠ k := by
    refine (List.map_congr_left fun x hx => ?_).trans (List.map_id _)
    exact put_of_ne v (by simpa using (List.mem_filter.mp hx).2)
  rw [assign, dif_pos hmem]
  show (d.moveToEnd k).items.map (put k v) = _
  rw [items_moveToEnd h, withLast, List.map_append, hsame]
  simp [withLast, put]

/-- **A key that is assigned to, and made the newest.** -/
theorem items_assign_moveToEnd (d : OrderedDict κ ν) (k : κ) (v : ν) :
    ((d.assign k v).moveToEnd k).items = d.withLast k v := by
  by_cases hk : k ∈ d.keys
  · have hitems : (d.assign k v).items = d.items.map (put k v) := by
      rw [assign, dif_pos hk]
    have hlookup : (d.assign k v).lookup k = some v := by
      obtain ⟨w, hw⟩ := mem_keys_iff.mp hk
      rw [lookup_eq_some_iff, hitems, List.mem_map]
      exact ⟨(k, w), lookup_eq_some_iff.mp hw, if_pos rfl⟩
    have hsame : (d.items.map (put k v)).filter (fun x => x.1 ≠ k) =
        d.items.filter fun x => x.1 ≠ k := by
      rw [List.filter_map]
      refine (List.map_congr_left fun x hx => ?_).trans ((List.map_id _).trans ?_)
      · exact put_of_ne v (by simpa using (List.mem_filter.mp hx).2)
      · simp [Function.comp_def]
    rw [items_moveToEnd hlookup, withLast, withLast, hitems, hsame]
  · have hitems : (d.assign k v).items = d.items ++ [(k, v)] := by
      rw [assign, dif_neg hk]
    have hlookup : (d.assign k v).lookup k = some v := by
      rw [lookup_eq_some_iff, hitems]
      simp
    rw [items_moveToEnd hlookup, withLast, withLast, hitems]
    simp

end OrderedDict
