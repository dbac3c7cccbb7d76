import DistributedCaching.CacheInterleaving

/-!
# The cells of the cache

An entry of the cache is a cell of its memory.  A `Get` holds on to the cell that
it looked up while other calls write it in place, detach it from its key or file
another cell under the key.  This file says what one step of a call can do to the
cells and to the keys they are filed under, whatever the policy does: `advance_cells`
and `lookup_advance`.  Only the section of a `Set` writes a cell, and it writes the
cell that is filed under its key afterwards.
-/

namespace Cache

open Go Eviction InMemoryCache

/-- What a cell holds: its key, its value and its expiry. -/
def InMemoryCache.cell {P : Type} (c : InMemoryCache P) (r : Nat) : String × Bytes × Time :=
  ((c.memory r).key, (c.memory r).value, (c.memory r).expiresAt)

/-- The expiry with which the call is about to store its value. -/
def Call.expiry : Call → Option Time
  | .setStore _ _ expiresAt _ => some expiresAt
  | _ => none

variable {P : Type} [EvictionPolicy P] {c c' : InMemoryCache P} {inp : Inputs}
  {call call' : Call} {key k : String} {r : Nat}

/-! ## The sections -/

@[simp] theorem cell_touch (c : InMemoryCache P) (key : String) (r : Nat)
    (now policyNow : Time) : (c.touch key r now policyNow).cell = c.cell := by
  funext x
  by_cases hx : x = r
  · subst hx
    simp [cell, touch]
  · simp [cell, touch, Function.update_of_ne hx]

/-- The section of a `Set` writes one cell, which is filed under its key afterwards: the
one that was, or a new one. -/
theorem store_cells (h : Addressed c) (key : String) (value : Bytes)
    (expiresAt now policyNow : Time) (draw : Nat) :
    ∃ r, (c.entries.lookup key = some r ∧
          (c.store key value expiresAt now policyNow draw).fresh = c.fresh ∨
        c.entries.lookup key = none ∧ r = c.fresh ∧
          (c.store key value expiresAt now policyNow draw).fresh = c.fresh + 1) ∧
      (c.store key value expiresAt now policyNow draw).entries.lookup key = some r ∧
      (c.store key value expiresAt now policyNow draw).cell =
        Function.update c.cell r (key, value, expiresAt) := by
  cases hr : c.entries.lookup key with
  | some r =>
      have hstore : c.store key value expiresAt now policyNow draw =
          c.upsert key r value expiresAt now policyNow := by simp [store, hr]
      rw [hstore]
      refine ⟨r, Or.inl ⟨rfl, rfl⟩, hr, ?_⟩
      funext x
      by_cases hx : x = r
      · subst hx
        simp [cell, upsert, h.keyed key x hr]
      · simp [cell, upsert, Function.update_of_ne hx]
  | none =>
      have hroom : (c.makeRoom draw).fresh = c.fresh ∧ (c.makeRoom draw).cell = c.cell := by
        rcases makeRoom_cases c draw with hsame | ⟨victim, hdrop⟩
        · rw [hsame]
          exact ⟨rfl, rfl⟩
        · rw [hdrop]
          exact ⟨rfl, rfl⟩
      have hstore : c.store key value expiresAt now policyNow draw =
          (c.makeRoom draw).add key value expiresAt now policyNow := by simp [store, hr]
      rw [hstore]
      refine ⟨c.fresh, Or.inr ⟨rfl, rfl, congrArg (· + 1) hroom.1⟩, ?_, ?_⟩
      · rw [← hroom.1]
        exact AList.lookup_insert _
      · funext x
        rw [← hroom.1, ← hroom.2]
        by_cases hx : x = (c.makeRoom draw).fresh
        · subst hx
          simp [cell, add]
        · simp [cell, add, Function.update_of_ne hx]

/-! ## The steps -/

/-- What a step does to the cells: nothing, or it is the section of a `Set` and writes
one. -/
inductive CellEffect (c : InMemoryCache P) (call : Call) (c' : InMemoryCache P) : Prop
  | kept (hcell : c'.cell = c.cell) (hfresh : c'.fresh = c.fresh)
  | written (key : String) (value : Bytes) (expiresAt now : Time) (r : Nat)
      (hcall : call = .setStore key value expiresAt now)
      (hplace : c.entries.lookup key = some r ∧ c'.fresh = c.fresh ∨
        c.entries.lookup key = none ∧ r = c.fresh ∧ c'.fresh = c.fresh + 1)
      (hfiled : c'.entries.lookup key = some r)
      (hcell : c'.cell = Function.update c.cell r (key, value, expiresAt))

/-- **What one step of a call does to the cells.** -/
theorem advance_cells (h : Addressed c) (hadvance : advance c inp call = some (c', call')) :
    CellEffect c call c' := by
  cases advance_section hadvance with
  | unlocked _ _ => exact .kept rfl rfl
  | touched key r => exact .kept (cell_touch c key r _ _) rfl
  | reaped key =>
      rcases reap_cases c key inp.now with hsame | ⟨_, _, _, hdrop⟩
      · rw [hsame]
        exact .kept rfl rfl
      · rw [hdrop]
        exact .kept rfl rfl
  | stored key value expiresAt now =>
      obtain ⟨r, hplace, hfiled, hcell⟩ :=
        store_cells h key value expiresAt now inp.policyNow inp.draw
      exact .written key value expiresAt now r rfl hplace hfiled hcell
  | deleted key =>
      rcases delete_cases c key with ⟨_, hsame⟩ | hdrop
      · rw [hsame]
        exact .kept rfl rfl
      · rw [hdrop]
        exact .kept rfl rfl

/-- Cells are never given back. -/
theorem fresh_advance (h : Addressed c) (hadvance : advance c inp call = some (c', call')) :
    c.fresh ≤ c'.fresh := by
  cases advance_cells h hadvance with
  | kept _ hfresh => omega
  | written _ _ _ _ _ _ hplace _ _ => rcases hplace with ⟨_, hfresh⟩ | ⟨_, _, hfresh⟩ <;> omega

/-- A cell in use is left alone, or written in place by the section of a `Set`. -/
theorem cell_advance (h : Addressed c) (hadvance : advance c inp call = some (c', call'))
    (hr : r < c.fresh) :
    c'.cell r = c.cell r ∨ ∃ value expiresAt now,
      call = .setStore (c.cell r).1 value expiresAt now ∧
      c.entries.lookup (c.cell r).1 = some r ∧ c'.entries.lookup (c.cell r).1 = some r ∧
      c'.cell r = ((c.cell r).1, value, expiresAt) := by
  cases advance_cells h hadvance with
  | kept hcell _ => exact Or.inl (congrFun hcell r)
  | written key value expiresAt now x hcall hplace hfiled hcell =>
      by_cases hrx : r = x
      · subst hrx
        rcases hplace with ⟨hlookup, _⟩ | ⟨_, hnew, _⟩
        · have hkey : (c.cell r).1 = key := h.keyed key r hlookup
          rw [hkey]
          exact Or.inr ⟨value, expiresAt, now, hcall, hlookup, hfiled, by
            rw [hcell, Function.update_self]⟩
        · omega
      · exact Or.inl (by rw [hcell, Function.update_of_ne hrx])

/-- Dropping a key files no cell under another one. -/
theorem lookup_drop (hr : c.entries.lookup k = some r) (key : String) :
    (c.drop key).entries.lookup k = some r ∨ (c.drop key).entries.lookup k = none := by
  by_cases hk : k = key
  · subst hk
    exact Or.inr (AList.lookup_erase _ _)
  · exact Or.inl ((AList.lookup_erase_ne hk).trans hr)

/-- Making room files no cell under another key. -/
theorem lookup_makeRoom (hr : c.entries.lookup k = some r) (draw : Nat) :
    (c.makeRoom draw).entries.lookup k = some r ∨
      (c.makeRoom draw).entries.lookup k = none := by
  rcases makeRoom_cases c draw with hsame | ⟨victim, hdrop⟩
  · rw [hsame]
    exact Or.inl hr
  · rw [hdrop]
    exact lookup_drop hr victim

/-- In one step, a key keeps its cell or loses it; it does not get another. -/
theorem lookup_advance (hadvance : advance c inp call = some (c', call'))
    (hr : c.entries.lookup k = some r) :
    c'.entries.lookup k = some r ∨ c'.entries.lookup k = none := by
  cases advance_section hadvance with
  | unlocked _ _ => exact Or.inl hr
  | touched key r => exact Or.inl hr
  | reaped key =>
      rcases reap_cases c key inp.now with hsame | ⟨_, _, _, hdrop⟩
      · rw [hsame]
        exact Or.inl hr
      · rw [hdrop]
        exact lookup_drop hr key
  | stored key value expiresAt now =>
      cases hkey : c.entries.lookup key with
      | some r' =>
          simp only [store, hkey]
          exact Or.inl hr
      | none =>
          have hne : k ≠ key := by
            intro heq
            rw [heq, hkey] at hr
            cases hr
          have hadd : (c.store key value expiresAt now inp.policyNow inp.draw).entries.lookup k =
              (c.makeRoom inp.draw).entries.lookup k := by
            simp only [store, hkey]
            exact AList.lookup_insert_ne hne
          rw [hadd]
          exact lookup_makeRoom hr inp.draw
  | deleted key =>
      rcases delete_cases c key with ⟨_, hsame⟩ | hdrop
      · rw [hsame]
        exact Or.inl hr
      · rw [hdrop]
        exact lookup_drop hr key

end Cache
