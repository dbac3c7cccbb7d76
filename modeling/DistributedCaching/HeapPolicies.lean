import Mathlib.Data.Prod.Lex
import DistributedCaching.EvictionPolicy
import DistributedCaching.HeapOrder

/-!
# The LFU and TTL-only policies

Both policies keep one heap entry for every key, in a min-heap whose entries know
their position, and a map from keys to entries.  They differ in what an entry
holds, in the order of the heap, and in what an access does.  `Tracker` is the
common structure, over the type of entries; the policies are instances of it.

Entries live in a memory addressed by numbers; `fresh` is the next unused
address.
-/

namespace Eviction

open Go IndexedHeap

/-- A heap of entries, and the map that finds them by key. -/
structure Tracker (π : Type) where
  /-- The entries by address. -/
  memory : Nat → π
  h : Heap Nat
  entries : GoMap String Nat
  fresh : Nat

namespace Tracker

variable {π : Type}

/-- An empty heap; addresses that are not in use hold some entry. -/
def new (unused : π) : Tracker π where
  memory := fun _ => unused
  h := { slice := [], index := fun _ => 0 }
  entries := ∅
  fresh := 0

variable (key : π → String) (less : π → π → Bool)

/-- The order of the heap on addresses. -/
def lessIn (memory : Nat → π) (a b : Nat) : Bool := less (memory a) (memory b)

/-- Allocate an entry, file it under its key, and `heap.Push` it. -/
def track (t : Tracker π) (entry : π) : Tracker π :=
  let memory := Function.update t.memory t.fresh entry
  { memory := memory
    entries := t.entries.insert (key entry) t.fresh
    h := push (lessIn less memory) t.h t.fresh
    fresh := t.fresh + 1 }

/-- Look an entry up, change it, and `heap.Fix` its position. -/
def modify (t : Tracker π) (k : String) (change : π → π) : Tracker π :=
  match t.entries.lookup k with
  | none => t
  | some r =>
      let memory := Function.update t.memory r (change (t.memory r))
      { t with
        memory := memory
        h := fix (lessIn less memory) t.h (t.h.index r).toNat }

/-- Look an entry up, `heap.Remove` it, and forget its key. -/
def untrack (t : Tracker π) (k : String) : Tracker π :=
  match t.entries.lookup k with
  | none => t
  | some r =>
      { t with
        h := remove (lessIn less t.memory) t.h (t.h.index r).toNat
        entries := t.entries.erase k }

/-- The key of the entry at the top of the heap. -/
def top (t : Tracker π) : Option String :=
  t.h.slice.head?.map fun r => key (t.memory r)

/-- The keys of the entries in the heap. -/
def heapKeys (t : Tracker π) : List String :=
  t.h.slice.map fun r => key (t.memory r)

/-- **Heap and map agree**: every element of the heap knows its position, and the
map finds exactly the elements of the heap. -/
structure Consistent (t : Tracker π) : Prop where
  tracked : t.h.Tracked
  bound : ∀ r ∈ t.h.slice, r < t.fresh
  index : IndexOf t.entries (fun r => key (t.memory r)) t.h.slice

/-- A new policy is consistent. -/
theorem consistent_new (unused : π) : Consistent key (new unused) where
  tracked := fun i r hr => by simp [new] at hr
  bound := fun r hr => by cases hr
  index := indexOf_empty _

variable {key} {t : Tracker π} {k : String}

/-- A tracked entry is a new key of the heap. -/
theorem consistent_track (h : Consistent key t) {entry : π} (hkey : key entry ∉ t.entries) :
    Consistent key (t.track key less entry) ∧
      (heapKeys key (t.track key less entry)).Perm (key entry :: heapKeys key t) := by
  have hfresh : t.fresh ∉ t.h.slice := fun hmem =>
    absurd (h.bound _ hmem) (Nat.lt_irrefl _)
  have hmemory : ∀ r ∈ t.h.slice,
      key ((t.track key less entry).memory r) = key (t.memory r) := by
    intro r hr
    have hne : r ≠ t.fresh := Nat.ne_of_lt (h.bound r hr)
    exact congrArg key (Function.update_of_ne hne _ _)
  have hself : key ((t.track key less entry).memory t.fresh) = key entry :=
    congrArg key (Function.update_self _ _ _)
  obtain ⟨htracked, hperm⟩ := push_spec
    (lessIn less (Function.update t.memory t.fresh entry)) h.tracked hfresh
  refine ⟨⟨htracked, ?_, ?_⟩, ?_⟩
  · intro r hr
    show r < t.fresh + 1
    rcases List.mem_cons.mp (hperm.mem_iff.mp hr) with rfl | hr
    · exact Nat.lt_succ_self _
    · exact Nat.lt_succ_of_lt (h.bound r hr)
  · exact (h.index.insert hkey hfresh hmemory hself).perm hperm
  · refine (hperm.map _).trans (List.Perm.of_eq ?_)
    rw [List.map_cons, hself, heapKeys]
    exact congrArg _ (List.map_congr_left hmemory)

/-- A modified entry keeps its key, so the heap keeps its keys. -/
theorem consistent_modify (h : Consistent key t) {change : π → π}
    (hchange : ∀ e, key (change e) = key e) :
    Consistent key (t.modify less k change) ∧
      (heapKeys key (t.modify less k change)).Perm (heapKeys key t) := by
  cases hr : t.entries.lookup k with
  | none =>
      have : t.modify less k change = t := by simp [modify, hr]
      rw [this]
      exact ⟨h, List.Perm.refl _⟩
  | some r =>
      have hmem : r ∈ t.h.slice := ((h.index.lookup k r).mp hr).1
      have hbound : (t.h.index r).toNat < t.h.slice.length :=
        (List.getElem?_eq_some_iff.mp (h.tracked.at_index hmem)).1
      obtain ⟨htracked, hperm⟩ := fix_spec
        (lessIn less (Function.update t.memory r (change (t.memory r)))) h.tracked hbound
      have hmodify : t.modify less k change =
          { t with
            memory := Function.update t.memory r (change (t.memory r))
            h := fix (lessIn less (Function.update t.memory r (change (t.memory r)))) t.h
              (t.h.index r).toNat } := by
        simp [modify, hr]
      -- The change of the entry leaves its key alone.
      have hmemory : ∀ x, key (Function.update t.memory r (change (t.memory r)) x) =
          key (t.memory x) := by
        intro x
        by_cases hx : x = r
        · rw [hx, Function.update_self, hchange]
        · rw [Function.update_of_ne hx]
      rw [hmodify]
      refine ⟨⟨htracked, ?_, ?_⟩, ?_⟩
      · intro x hx
        exact h.bound x (hperm.mem_iff.mp hx)
      · exact (h.index.congr fun x _ => hmemory x).perm hperm
      · refine (hperm.map _).trans (List.Perm.of_eq ?_)
        exact List.map_congr_left fun x _ => hmemory x

/-- An entry that is no longer tracked leaves the heap. -/
theorem consistent_untrack (h : Consistent key t) (hk : k ∈ t.entries) :
    Consistent key (t.untrack less k) ∧
      (heapKeys key (t.untrack less k)).Perm ((heapKeys key t).erase k) := by
  obtain ⟨r, hr⟩ := GoMap.mem_iff_lookup.mp hk
  have hmem : r ∈ t.h.slice := ((h.index.lookup k r).mp hr).1
  obtain ⟨htracked, hperm⟩ := remove_spec (lessIn less t.memory) h.tracked
    (h.tracked.at_index hmem)
  have huntrack : t.untrack less k =
      { t with
        h := remove (lessIn less t.memory) t.h (t.h.index r).toNat
        entries := t.entries.erase k } := by
    simp [untrack, hr]
  have herase : (remove (lessIn less t.memory) t.h (t.h.index r).toNat).slice.Perm
      (t.h.slice.erase r) := by
    have := hperm.erase r
    rw [List.erase_cons_head] at this
    exact this.symm
  rw [huntrack]
  refine ⟨⟨htracked, ?_, (h.index.erase hr).perm herase⟩, ?_⟩
  · intro x hx
    exact h.bound x (List.mem_of_mem_erase (herase.mem_iff.mp hx))
  · exact (herase.map _).trans (h.index.map_erase hr)

/-- The policy tracks the keys in its heap. -/
def Tracks (key : π → String) (t : Tracker π) (ks : List String) : Prop :=
  Consistent key t ∧ (heapKeys key t).Perm ks

/-- The heap and the map of a policy that tracks some keys. -/
theorem Tracks.structures {ks : List String} (h : Tracks key t ks) :
    (heapKeys key t).Perm ks ∧ t.entries.keys.Perm ks :=
  ⟨h.2, h.1.index.keys_perm.trans h.2⟩

/-- The keys are tracked once each. -/
theorem Tracks.nodup {ks : List String} (h : Tracks key t ks) : ks.Nodup :=
  h.2.nodup_iff.mp h.1.index.keys_nodup

/-- The entries are those of the tracked keys. -/
theorem Tracks.mem_entries {ks : List String} (h : Tracks key t ks) :
    k ∈ t.entries ↔ k ∈ ks := by
  rw [AList.mem_keys, h.structures.2.mem_iff]

theorem tracks_track {ks : List String} (h : Tracks key t ks) {entry : π}
    (hkey : key entry ∉ ks) : Tracks key (t.track key less entry) (key entry :: ks) := by
  have hspec := consistent_track less h.1 (fun hmem => hkey (h.mem_entries.mp hmem))
  exact ⟨hspec.1, hspec.2.trans (h.2.cons _)⟩

theorem tracks_modify {ks : List String} (h : Tracks key t ks) {change : π → π}
    (hchange : ∀ e, key (change e) = key e) : Tracks key (t.modify less k change) ks := by
  have hspec := consistent_modify less (k := k) h.1 hchange
  exact ⟨hspec.1, hspec.2.trans h.2⟩

theorem tracks_untrack {ks : List String} (h : Tracks key t ks) (hk : k ∈ ks) :
    Tracks key (t.untrack less k) (ks.erase k) := by
  have hspec := consistent_untrack less h.1 (h.mem_entries.mpr hk)
  exact ⟨hspec.1, hspec.2.trans (h.2.erase k)⟩

theorem top_eq_none {ks : List String} (h : Tracks key t ks) (hnone : t.top key = none) :
    ks = [] := by
  rw [top, Option.map_eq_none_iff, List.head?_eq_none_iff] at hnone
  have hperm := h.2
  rw [heapKeys, hnone] at hperm
  exact hperm.symm.eq_nil

theorem top_mem {ks : List String} (h : Tracks key t ks) (hsome : t.top key = some k) :
    k ∈ ks := by
  obtain ⟨r, hr, rfl⟩ := Option.map_eq_some_iff.mp hsome
  exact h.2.mem_iff.mp (List.mem_map_of_mem (List.mem_of_mem_head? hr))

/-! ### The entry of a key -/

/-- The entry that the policy keeps for a key. -/
def entryOf (t : Tracker π) (k : String) : Option π := (t.entries.lookup k).map t.memory

/-- There is one for each key that is tracked. -/
theorem Tracks.exists_entryOf {ks : List String} (h : Tracks key t ks) (hk : k ∈ ks) :
    ∃ e, t.entryOf k = some e := by
  obtain ⟨r, hr⟩ := GoMap.mem_iff_lookup.mp (h.mem_entries.mpr hk)
  exact ⟨t.memory r, by rw [entryOf, hr, Option.map_some]⟩

theorem Consistent.lookup_lt (h : Consistent key t) {r : Nat} (hr : t.entries.lookup k = some r) :
    r < t.fresh := h.bound r ((h.index.lookup k r).mp hr).1

theorem entryOf_track (h : Consistent key t) (entry : π) (k : String) :
    (t.track key less entry).entryOf k = if k = key entry then some entry else t.entryOf k := by
  unfold entryOf track
  dsimp only
  by_cases hk : k = key entry
  · rw [if_pos hk, hk, AList.lookup_insert, Option.map_some, Function.update_self]
  · rw [if_neg hk, AList.lookup_insert_ne hk]
    cases hr : t.entries.lookup k with
    | none => rfl
    | some r =>
        rw [Option.map_some, Option.map_some,
          Function.update_of_ne (Nat.ne_of_lt (h.lookup_lt hr))]

theorem entryOf_modify (h : Consistent key t) (change : π → π) (k k' : String) :
    (t.modify less k change).entryOf k' =
      if k' = k then (t.entryOf k).map change else t.entryOf k' := by
  cases hr : t.entries.lookup k with
  | none =>
      have hsame : t.modify less k change = t := by simp [modify, hr]
      rw [hsame]
      by_cases hk : k' = k
      · subst hk
        simp [entryOf, hr]
      · rw [if_neg hk]
  | some r =>
      have hentries : (t.modify less k change).entries = t.entries := by simp [modify, hr]
      have hmemory : (t.modify less k change).memory =
          Function.update t.memory r (change (t.memory r)) := by simp [modify, hr]
      unfold entryOf
      rw [hentries, hmemory]
      by_cases hk : k' = k
      · rw [if_pos hk, hk, hr, Option.map_some, Option.map_some, Option.map_some,
          Function.update_self]
      · rw [if_neg hk]
        cases hr' : t.entries.lookup k' with
        | none => rfl
        | some r' =>
            have hne : r' ≠ r := by
              intro heq
              subst heq
              exact hk (((h.index.lookup k' r').mp hr').2.symm.trans
                ((h.index.lookup k r').mp hr).2)
            rw [Option.map_some, Option.map_some, Function.update_of_ne hne]

theorem entryOf_untrack (k k' : String) :
    (t.untrack less k).entryOf k' = if k' = k then none else t.entryOf k' := by
  unfold untrack entryOf
  cases hr : t.entries.lookup k with
  | none =>
      by_cases hk : k' = k
      · subst hk
        simp [hr]
      · simp [hk]
  | some r =>
      by_cases hk : k' = k
      · subst hk
        simp
      · simp [hk, AList.lookup_erase_ne hk]

/-! ### The order of the heap -/

section Order

variable {κ : Type} [LinearOrder κ] {rank : π → κ}

/-- The heap is ordered by the ranks of the entries. -/
def InOrder (rank : π → κ) (t : Tracker π) : Prop :=
  t.h.Ordered fun r => rank (t.memory r)

/-- A new heap is in order. -/
theorem inOrder_new (unused : π) : InOrder rank (new unused) := fun k _ hk => by
  simp [new] at hk

variable (hless : ∀ a b, less a b = decide (rank a < rank b))

include hless

/-- Tracking an entry keeps the heap in order. -/
theorem inOrder_track (h : Consistent key t) (horder : InOrder rank t) (entry : π) :
    InOrder rank (t.track key less entry) := by
  -- The new entry is written to an address that the heap does not hold.
  have hsame : t.h.Ordered fun r => rank (Function.update t.memory t.fresh entry r) := by
    intro k hk hkn
    have hranks : ∀ l, l < t.h.slice.length →
        t.h.rankAt (fun r => rank (Function.update t.memory t.fresh entry r)) l =
          t.h.rankAt (fun r => rank (t.memory r)) l := by
      intro l hl
      have hget := List.getElem?_eq_getElem hl
      have hne : t.h.slice[l] ≠ t.fresh := Nat.ne_of_lt (h.bound _ (List.getElem_mem hl))
      rw [rankAt_of_getElem? hget, rankAt_of_getElem? hget, Function.update_of_ne hne]
    rw [hranks k hkn, hranks _ (by unfold parent; omega)]
    exact horder k hk hkn
  have hless' : ∀ a b, lessIn less (Function.update t.memory t.fresh entry) a b = decide
      (rank (Function.update t.memory t.fresh entry a) <
        rank (Function.update t.memory t.fresh entry b)) := fun a b => hless _ _
  exact ordered_push hless' hsame t.fresh

/-- Modifying an entry and fixing its place keeps the heap in order. -/
theorem inOrder_modify (h : Consistent key t) (horder : InOrder rank t) (k : String)
    (change : π → π) : InOrder rank (t.modify less k change) := by
  cases hr : t.entries.lookup k with
  | none =>
      have hsame : t.modify less k change = t := by simp [modify, hr]
      rw [hsame]
      exact horder
  | some r =>
      have hat := h.tracked.at_index ((h.index.lookup k r).mp hr).1
      have hlt := (List.getElem?_eq_some_iff.mp hat).1
      have hless' : ∀ a b, lessIn less (Function.update t.memory r (change (t.memory r))) a b =
          decide (rank (Function.update t.memory r (change (t.memory r)) a) <
            rank (Function.update t.memory r (change (t.memory r)) b)) := fun a b => hless _ _
      -- Only the position of the changed entry may be out of order.
      have hfix : (fix (lessIn less (Function.update t.memory r (change (t.memory r)))) t.h
          (t.h.index r).toNat).Ordered
            fun x => rank (Function.update t.memory r (change (t.memory r)) x) := by
        refine ordered_fix hless' hlt (horder.orderedExcept hlt ?_)
        intro l hl hne
        have hget := List.getElem?_eq_getElem hl
        have hother : t.h.slice[l] ≠ r := by
          intro heq
          rw [heq] at hget
          exact hne (h.tracked.unique hget hat)
        rw [rankAt_of_getElem? hget, rankAt_of_getElem? hget, Function.update_of_ne hother]
      simpa [modify, hr, InOrder] using hfix

/-- Dropping an entry keeps the heap in order. -/
theorem inOrder_untrack (h : Consistent key t) (horder : InOrder rank t) (k : String) :
    InOrder rank (t.untrack less k) := by
  cases hr : t.entries.lookup k with
  | none =>
      have hsame : t.untrack less k = t := by simp [untrack, hr]
      rw [hsame]
      exact horder
  | some r =>
      have hat := h.tracked.at_index ((h.index.lookup k r).mp hr).1
      have hless' : ∀ a b, lessIn less t.memory a b =
          decide (rank (t.memory a) < rank (t.memory b)) := fun a b => hless _ _
      have hremove := ordered_remove hless' horder (List.getElem?_eq_some_iff.mp hat).1
      simpa [untrack, hr, InOrder] using hremove

omit hless in
/-- **The top of the heap** is the key of an entry that ranks lowest. -/
theorem top_least (h : Consistent key t) (horder : InOrder rank t) {v : String}
    (hv : t.top key = some v) :
    ∃ e, t.entryOf v = some e ∧ ∀ k' e', t.entryOf k' = some e' → rank e ≤ rank e' := by
  obtain ⟨r, hr, rfl⟩ := Option.map_eq_some_iff.mp hv
  have hlookup := (h.index.lookup _ r).mpr ⟨List.mem_of_mem_head? hr, rfl⟩
  refine ⟨t.memory r, by rw [entryOf, hlookup, Option.map_some], ?_⟩
  intro k' e' he'
  obtain ⟨r', hr', rfl⟩ := Option.map_eq_some_iff.mp he'
  exact horder.root_le hr ((h.index.lookup k' r').mp hr').1

end Order

end Tracker

/-! ## Least frequently used -/

structure LfuEntry where
  key : String
  freq : Int
  accessedAt : Time
  deriving DecidableEq, Repr

/-- `lfuHeap.Less`: by frequency, then by the time of the last access. -/
def lfuLess (a b : LfuEntry) : Bool :=
  if a.freq ≠ b.freq then decide (a.freq < b.freq)
  else decide (a.accessedAt < b.accessedAt)

/-- What the heap of LFU is ordered by. -/
def lfuRank (e : LfuEntry) : Int ×ₗ Time := toLex (e.freq, e.accessedAt)

/-- `less` of `LFU` compares count and time. -/
theorem lfuLess_eq (a b : LfuEntry) : lfuLess a b = decide (lfuRank a < lfuRank b) := by
  unfold lfuLess lfuRank
  rw [Bool.eq_iff_iff, decide_eq_true_eq, Prod.Lex.toLex_lt_toLex]
  split
  · rename_i hne
    simp [hne]
  · rename_i heq
    simp only [ne_eq, not_not] at heq
    simp [heq]

abbrev LFU := Tracker LfuEntry

def newLFU : LFU := Tracker.new ⟨"", 0, 0⟩

def LFU.onAccess (l : LFU) (key : String) (now : Time) : LFU :=
  l.modify lfuLess key fun entry =>
    { entry with freq := incInt64 entry.freq, accessedAt := now }

def LFU.onInsert (l : LFU) (key : String) (now : Time) : LFU :=
  l.track LfuEntry.key lfuLess { key := key, freq := 1, accessedAt := now }

def LFU.onEvict (l : LFU) (key : String) : LFU := l.untrack lfuLess key

def LFU.evict (l : LFU) : Option String := l.top LfuEntry.key

instance : LawfulPolicy LFU where
  onAccess := LFU.onAccess
  onInsert l key _ now := LFU.onInsert l key now
  onEvict := LFU.onEvict
  evict l _ := LFU.evict l
  Tracks := Tracker.Tracks LfuEntry.key
  nodup := Tracker.Tracks.nodup
  perm := fun h hks => ⟨h.1, h.2.trans hks⟩
  tracks_onAccess := fun h _ _ => Tracker.tracks_modify _ h fun _ => rfl
  tracks_onInsert := fun h hkey _ _ => Tracker.tracks_track _ h hkey
  tracks_onEvict := Tracker.tracks_untrack _
  evict_none := Tracker.top_eq_none
  evict_some := Tracker.top_mem

/-! ## Earliest expiry -/

structure TtlEntry where
  key : String
  expiresAt : Time
  deriving DecidableEq, Repr

/-- `ttlHeap.Less`. -/
def ttlLess (a b : TtlEntry) : Bool := decide (a.expiresAt < b.expiresAt)

abbrev TTLOnly := Tracker TtlEntry

def newTTLOnly : TTLOnly := Tracker.new ⟨"", 0⟩

/-- An access does nothing. -/
def TTLOnly.onAccess (t : TTLOnly) (_key : String) : TTLOnly := t

def TTLOnly.onInsert (t : TTLOnly) (key : String) (expiresAt : Time) : TTLOnly :=
  t.track TtlEntry.key ttlLess { key := key, expiresAt := expiresAt }

def TTLOnly.onEvict (t : TTLOnly) (key : String) : TTLOnly := t.untrack ttlLess key

def TTLOnly.evict (t : TTLOnly) : Option String := t.top TtlEntry.key

instance : LawfulPolicy TTLOnly where
  onAccess t key _ := TTLOnly.onAccess t key
  onInsert t key expiresAt _ := TTLOnly.onInsert t key expiresAt
  onEvict := TTLOnly.onEvict
  evict t _ := TTLOnly.evict t
  Tracks := Tracker.Tracks TtlEntry.key
  nodup := Tracker.Tracks.nodup
  perm := fun h hks => ⟨h.1, h.2.trans hks⟩
  tracks_onAccess := fun h _ _ => h
  tracks_onInsert := fun h hkey _ _ => Tracker.tracks_track _ h hkey
  tracks_onEvict := Tracker.tracks_untrack _
  evict_none := Tracker.top_eq_none
  evict_some := Tracker.top_mem

end Eviction
