import DistributedCaching.HeapPolicies
import DistributedCaching.TransitionRuns

/-!
# Heap and map of a policy under any calls

LFU and TTL-only are called from outside, by a cache or by anybody else, and every
`heap.Fix` and `heap.Remove` relies on an index that `Swap`, `Push` and `Pop` wrote long
before.  Here the calls come in any order, with any keys, expiry times and clock readings;
only a key that is tracked must not be inserted again.

Both policies are trackers that push, fix and remove (`IsHeapPolicy`), so one step lemma
serves both: `sound_step`.  Along a run it gives `indexed_heaps_consistent`: the map and
the slice stay in bijection, indices stay true, the slice stays a heap, and what follows
from that for the next call.
-/

namespace Eviction

open Go IndexedHeap TransitionRuns Tracker

/-- A call of a policy, with the clock reading or the random number it may take. -/
inductive PolicyCall
  | onInsert (key : String) (expiresAt now : Time)
  | onAccess (key : String) (now : Time)
  | onEvict (key : String)
  | evict (draw : Nat)
  deriving DecidableEq, Repr

variable {π : Type}

/-- A call of a policy that keeps a tracker.  A key that is tracked is not inserted. -/
def policyStep [EvictionPolicy (Tracker π)] (t : Tracker π) : PolicyCall → Option (Tracker π)
  | .onInsert key expiresAt now =>
      if key ∈ t.entries then none else some (EvictionPolicy.onInsert t key expiresAt now)
  | .onAccess key now => some (EvictionPolicy.onAccess t key now)
  | .onEvict key => some (EvictionPolicy.onEvict t key)
  | .evict _ => some t

/-- The index that a call for this key hands to `heap.Fix` or `heap.Remove`. -/
def Tracker.heapIndex (t : Tracker π) (k : String) : Option Int :=
  (t.entries.lookup k).map t.h.index

/-- **Map, slice and indices are intact.** -/
structure Intact (key : π → String) (less : π → π → Bool) (t : Tracker π) : Prop where
  /-- No entry stands in the slice twice. -/
  nodup : t.h.slice.Nodup
  /-- The map finds exactly the entries of the slice, each under its key. -/
  bijection : ∀ k r, t.entries.lookup k = some r ↔ r ∈ t.h.slice ∧ key (t.memory r) = k
  /-- `h[e.index] = e` for every tracked entry. -/
  position : ∀ k r, t.entries.lookup k = some r →
    0 ≤ t.h.index r ∧ t.h.slice[(t.h.index r).toNat]? = some r
  /-- No position is `Less` than its parent. -/
  order : ∀ i, 0 < i → i < t.h.slice.length →
    t.h.lessAt (lessIn less t.memory) i ((i - 1) / 2) = false

/-- **What the next call does**, in a policy that is intact. -/
structure Answers [EvictionPolicy (Tracker π)] (less : π → π → Bool) (t : Tracker π) : Prop where
  /-- The heap operations get an index in range. -/
  inRange : ∀ k i, t.heapIndex k = some i → 0 ≤ i ∧ i < t.h.slice.length
  /-- `OnEvict` untracks its key and no other. -/
  untracks : ∀ k k', (EvictionPolicy.onEvict t k).entryOf k' = if k' = k then none else t.entryOf k'
  /-- `Evict` fails only if nothing is tracked. -/
  fails : ∀ draw, EvictionPolicy.evict t draw = none → ∀ k, t.entryOf k = none
  /-- It returns a tracked key such that no tracked key is `Less`. -/
  least : ∀ draw v, EvictionPolicy.evict t draw = some v →
    ∃ e, t.entryOf v = some e ∧ ∀ k e', t.entryOf k = some e' → less e' e = false

/-! ## Policies that keep a heap -/

/-- A policy all of whose calls are heap operations of a tracker ordered by `rank`. -/
structure IsHeapPolicy {κ : Type} [LinearOrder κ] [EvictionPolicy (Tracker π)]
    (key : π → String) (less : π → π → Bool) (rank : π → κ) : Prop where
  less_eq : ∀ a b, less a b = decide (rank a < rank b)
  insert : ∀ (t : Tracker π) k expiresAt now, ∃ e, key e = k ∧
    EvictionPolicy.onInsert t k expiresAt now = t.track key less e
  access : ∀ (t : Tracker π) k now, EvictionPolicy.onAccess t k now = t ∨
    ∃ change : π → π, (∀ e, key (change e) = key e) ∧
      EvictionPolicy.onAccess t k now = t.modify less k change
  remove : ∀ (t : Tracker π) k, EvictionPolicy.onEvict t k = t.untrack less k
  peek : ∀ (t : Tracker π) draw, EvictionPolicy.evict t draw = t.top key

/-- `LFU` is a heap policy, ordered by count and then by time. -/
theorem lfu_isHeapPolicy : IsHeapPolicy LfuEntry.key lfuLess lfuRank where
  less_eq := lfuLess_eq
  insert _ k _ now := ⟨⟨k, 1, now⟩, rfl, rfl⟩
  access _ _ now := by
    right
    exact ⟨fun e => { e with freq := incInt64 e.freq, accessedAt := now }, fun _ => rfl, rfl⟩
  remove _ _ := rfl
  peek _ _ := rfl

/-- `TTLOnly` is a heap policy, ordered by expiry. -/
theorem ttl_isHeapPolicy : IsHeapPolicy TtlEntry.key ttlLess TtlEntry.expiresAt where
  less_eq _ _ := rfl
  insert _ k expiresAt _ := ⟨⟨k, expiresAt⟩, rfl, rfl⟩
  access _ _ _ := Or.inl rfl
  remove _ _ := rfl
  peek _ _ := rfl

section Policy

variable {κ : Type} [LinearOrder κ] {key : π → String} {less : π → π → Bool} {rank : π → κ}
  {t t' : Tracker π}

/-- The invariant of a run. -/
structure HeapSound (key : π → String) (rank : π → κ) (t : Tracker π) : Prop where
  consistent : Consistent key t
  inOrder : InOrder rank t

/-- A new policy is sound. -/
theorem heapSound_new (unused : π) : HeapSound key rank (new unused) where
  consistent := consistent_new key unused
  inOrder := inOrder_new unused

/-- An invariant policy is intact. -/
theorem HeapSound.intact (h : HeapSound key rank t)
    (hless : ∀ a b, less a b = decide (rank a < rank b)) : Intact key less t where
  nodup := h.consistent.index.nodup
  bijection := h.consistent.index.lookup
  position := by
    intro k r hr
    have hat := h.consistent.tracked.at_index ((h.consistent.index.lookup k r).mp hr).1
    refine ⟨?_, hat⟩
    rw [h.consistent.tracked _ r hat]
    exact Int.natCast_nonneg _
  order := by
    intro i hi hlen
    have hparent : (i - 1) / 2 < t.h.slice.length := by omega
    have hless' : ∀ a b, lessIn less t.memory a b =
        decide (rank (t.memory a) < rank (t.memory b)) := fun a b => hless _ _
    have hiff := lessAt_iff hless' hlen hparent
    rw [← Bool.not_eq_true]
    intro hlt
    exact absurd (hiff.mp hlt) (not_lt.mpr (h.inOrder i hi hlen))

variable [EvictionPolicy (Tracker π)]

/-- **What one call keeps.** -/
theorem sound_step (hpolicy : IsHeapPolicy key less rank) (h : HeapSound key rank t)
    {call : PolicyCall} (hstep : policyStep t call = some t') : HeapSound key rank t' := by
  cases call with
  | onInsert k expiresAt now =>
      simp only [policyStep] at hstep
      split at hstep
      · cases hstep
      · rename_i hnew
        cases hstep
        obtain ⟨e, rfl, heq⟩ := hpolicy.insert t k expiresAt now
        rw [heq]
        exact ⟨(consistent_track less h.consistent hnew).1,
          inOrder_track less hpolicy.less_eq h.consistent h.inOrder e⟩
  | onAccess k now =>
      cases hstep
      rcases hpolicy.access t k now with heq | ⟨change, hchange, heq⟩
      · rw [heq]
        exact h
      · rw [heq]
        exact ⟨(consistent_modify less h.consistent hchange).1,
          inOrder_modify less hpolicy.less_eq h.consistent h.inOrder k change⟩
  | onEvict k =>
      cases hstep
      rw [hpolicy.remove]
      refine ⟨?_, inOrder_untrack less hpolicy.less_eq h.consistent h.inOrder k⟩
      by_cases hk : k ∈ t.entries
      · exact (consistent_untrack less h.consistent hk).1
      · -- A key that is not tracked is passed over.
        have hsame : t.untrack less k = t := by
          simp [untrack, AList.lookup_eq_none.mpr hk]
        rw [hsame]
        exact h.consistent
  | evict draw =>
      cases hstep
      exact h

/-- **What one call answers.** -/
theorem HeapSound.answers (hpolicy : IsHeapPolicy key less rank) (h : HeapSound key rank t) :
    Answers less t where
  inRange := by
    intro k i hi
    obtain ⟨r, hr, rfl⟩ := Option.map_eq_some_iff.mp hi
    obtain ⟨hnonneg, hat⟩ := (h.intact hpolicy.less_eq).position k r hr
    have hlt := (List.getElem?_eq_some_iff.mp hat).1
    omega
  untracks := by
    intro k k'
    rw [hpolicy.remove]
    exact entryOf_untrack less k k'
  fails := by
    intro draw hnone k
    rw [hpolicy.peek, top, Option.map_eq_none_iff, List.head?_eq_none_iff] at hnone
    have hno : ∀ r, t.entries.lookup k ≠ some r := by
      intro r hr
      have hmem := ((h.consistent.index.lookup k r).mp hr).1
      rw [hnone] at hmem
      cases hmem
    rw [entryOf, Option.eq_none_iff_forall_ne_some.mpr hno]
    rfl
  least := by
    intro draw v hv
    rw [hpolicy.peek] at hv
    obtain ⟨e, he, hle⟩ := top_least h.consistent h.inOrder hv
    refine ⟨e, he, ?_⟩
    intro k e' he'
    rw [hpolicy.less_eq, decide_eq_false_iff_not]
    exact not_lt.mpr (hle k e' he')

/-- A whole run of calls. -/
theorem run_sound (hpolicy : IsHeapPolicy key less rank) (unused : π) {calls : List PolicyCall}
    (hrun : run policyStep (new unused) calls = some t) : HeapSound key rank t :=
  run_invariant (fun _ _ _ hs hstep => sound_step hpolicy hs hstep) (heapSound_new unused) hrun

end Policy

/-- **Indexed heaps stay consistent.**  After any calls, LFU and TTL-only are intact, and
so the next call finds its entry, drops no other, and evicts a least key. -/
theorem indexed_heaps_consistent (calls : List PolicyCall) :
    (∀ l : LFU, run policyStep newLFU calls = some l →
      Intact LfuEntry.key lfuLess l ∧ Answers lfuLess l) ∧
    (∀ t : TTLOnly, run policyStep newTTLOnly calls = some t →
      Intact TtlEntry.key ttlLess t ∧ Answers ttlLess t) := by
  constructor
  · intro l hrun
    have hsound := run_sound lfu_isHeapPolicy _ hrun
    exact ⟨hsound.intact lfuLess_eq, hsound.answers lfu_isHeapPolicy⟩
  · intro t hrun
    have hsound := run_sound ttl_isHeapPolicy _ hrun
    exact ⟨hsound.intact fun _ _ => rfl, hsound.answers ttl_isHeapPolicy⟩

/-- Three keys are inserted, one is used, one is dropped, and a dropped key comes back. -/
def someCalls : List PolicyCall :=
  [.onInsert "a" 30 1, .onInsert "b" 20 2, .onInsert "c" 10 3, .onAccess "a" 4, .onEvict "b",
   .evict 0, .onEvict "d", .onInsert "b" 5 5]

/-- Some calls on `LFU` and on `TTLOnly`, and what each would evict. -/
theorem indexed_heaps_consistent_someCalls :
    (∃ l : LFU, run policyStep newLFU someCalls = some l ∧ l.evict = some "c" ∧
      Intact LfuEntry.key lfuLess l ∧ Answers lfuLess l) ∧
    (∃ t : TTLOnly, run policyStep newTTLOnly someCalls = some t ∧ t.evict = some "b" ∧
      Intact TtlEntry.key ttlLess t ∧ Answers ttlLess t) := by
  obtain ⟨hlfu, httl⟩ := indexed_heaps_consistent someCalls
  obtain ⟨l, hl, hlevict⟩ : ∃ l : LFU, run policyStep newLFU someCalls = some l ∧
      l.evict = some "c" := exists_run (by decide) (by decide)
  obtain ⟨t, ht, htevict⟩ : ∃ t : TTLOnly, run policyStep newTTLOnly someCalls = some t ∧
      t.evict = some "b" := exists_run (by decide) (by decide)
  exact ⟨⟨l, hl, hlevict, hlfu l hl⟩, ⟨t, ht, htevict, httl t ht⟩⟩

end Eviction
