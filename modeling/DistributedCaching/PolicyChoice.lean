import DistributedCaching.HeapPolicies
import DistributedCaching.LruPolicy

/-!
# Random eviction, and the choice of a policy

The random policy, which keeps the keys in a slice, and the sum of the four
policies that a cache is configured with.  `Policy.structures` lists the keys as
they stand in each structure of the chosen policy; in a policy that tracks some
keys, every one of these lists is a permutation of them.
-/

namespace Eviction

open Go

/-! ## Random -/

structure Random where
  keys : List String
  deriving DecidableEq, Repr

def newRandom : Random := ⟨[]⟩

/-- An access does nothing. -/
def Random.onAccess (r : Random) (_key : String) : Random := r

def Random.onInsert (r : Random) (key : String) : Random := ⟨r.keys ++ [key]⟩

/-- Overwrite the first occurrence of the key with the last key, and truncate. -/
def Random.onEvict (r : Random) (key : String) : Random :=
  match r.keys.idxOf? key with
  | none => r
  | some i => ⟨(r.keys.set i (r.keys.getLastD "")).dropLast⟩

/-- `keys[rng.Intn(len(keys))]`. -/
def Random.evict (r : Random) (draw : Nat) : Option String :=
  if r.keys.length = 0 then none else r.keys[draw % r.keys.length]?

/-- Swapping with the last element and truncating erases the element. -/
theorem set_last_dropLast_perm {α : Type} (A B : List α) (x d : α) :
    (((A ++ x :: B).set A.length ((A ++ x :: B).getLastD d)).dropLast).Perm (A ++ B) := by
  rcases List.eq_nil_or_concat B with rfl | ⟨B', z, rfl⟩
  · simp
  · have hsplit : ∀ y, A ++ y :: (B' ++ [z]) = (A ++ y :: B') ++ [z] := by simp
    have hlast : (A ++ x :: (B' ++ [z])).getLastD d = z := by
      rw [hsplit, List.getLastD_concat]
    rw [List.concat_eq_append, hlast, List.set_append_right _ _ (Nat.le_refl _),
      Nat.sub_self, List.set_cons_zero, hsplit, List.dropLast_concat, ← List.append_assoc]
    exact List.perm_middle.trans (List.perm_append_singleton z _).symm

/-- An eviction takes its key out of the slice, in some order. -/
theorem random_onEvict_perm {r : Random} {key : String} (h : key ∈ r.keys) :
    (r.onEvict key).keys.Perm (r.keys.erase key) := by
  obtain ⟨A, B, hA, hkeys, herase⟩ := List.exists_erase_eq h
  have hidx : r.keys.idxOf? key = some A.length := by
    rw [hkeys, List.idxOf?_eq_some_iff]
    refine ⟨by simp, by simp, ?_⟩
    intro j hj
    rw [List.getElem_append_left hj]
    intro heq
    exact hA (heq ▸ List.getElem_mem hj)
  rw [herase]
  have hevict : (r.onEvict key).keys =
      (r.keys.set A.length (r.keys.getLastD "")).dropLast := by
    simp [Random.onEvict, hidx]
  rw [hevict, hkeys]
  exact set_last_dropLast_perm A B key ""

instance : LawfulPolicy Random where
  onAccess r key _ := r.onAccess key
  onInsert r key _ _ := r.onInsert key
  onEvict := Random.onEvict
  evict := Random.evict
  Tracks r ks := r.keys.Nodup ∧ r.keys.Perm ks
  nodup := fun h => h.2.nodup_iff.mp h.1
  perm := fun h hks => ⟨h.1, h.2.trans hks⟩
  tracks_onAccess := fun h _ _ => h
  tracks_onInsert := by
    intro r ks key h hkey _ _
    have hnew : key ∉ r.keys := fun hmem => hkey (h.2.mem_iff.mp hmem)
    have hperm : (r.keys ++ [key]).Perm (key :: r.keys) := List.perm_append_singleton key _
    exact ⟨hperm.nodup_iff.mpr (List.nodup_cons.mpr ⟨hnew, h.1⟩), hperm.trans (h.2.cons key)⟩
  tracks_onEvict := by
    intro r ks key h hkey
    have hperm := random_onEvict_perm (h.2.mem_iff.mpr hkey)
    exact ⟨hperm.nodup_iff.mpr (h.1.erase key), hperm.trans (h.2.erase key)⟩
  evict_none := by
    intro r ks draw h hnone
    have hperm := h.2
    unfold Random.evict at hnone
    split at hnone
    · rename_i hlen
      rw [List.length_eq_zero_iff.mp hlen] at hperm
      exact hperm.symm.eq_nil
    · rename_i hlen
      rw [List.getElem?_eq_none_iff] at hnone
      exact absurd (Nat.mod_lt draw (Nat.pos_of_ne_zero hlen)) (by omega)
  evict_some := by
    intro r ks draw key h hsome
    unfold Random.evict at hsome
    split at hsome
    · cases hsome
    · exact h.2.mem_iff.mp (List.mem_of_getElem? hsome)

/-! ## The four policies -/

inductive PolicyKind
  | lru
  | lfu
  | ttl
  | random
  deriving DecidableEq, Repr

/-- A policy as a cache holds it. -/
inductive Policy
  | lru (l : LRU)
  | lfu (l : LFU)
  | ttl (t : TTLOnly)
  | random (r : Random)

def newPolicy : PolicyKind → Policy
  | .lru => .lru newLRU
  | .lfu => .lfu newLFU
  | .ttl => .ttl newTTLOnly
  | .random => .random newRandom

/-- The keys as they stand in each structure of the policy: the list and the map
of LRU, the heap and the map of LFU and TTL-only, the slice of Random. -/
def Policy.structures : Policy → List (List String)
  | .lru l => [l.listKeys, l.nodes.keys]
  | .lfu l => [l.heapKeys LfuEntry.key, l.entries.keys]
  | .ttl t => [t.heapKeys TtlEntry.key, t.entries.keys]
  | .random r => [r.keys]

/-- The keys tracked by whichever policy it is. -/
def Policy.Tracks : Policy → List String → Prop
  | .lru l, ks => LawfulPolicy.Tracks l ks
  | .lfu l, ks => LawfulPolicy.Tracks l ks
  | .ttl t, ks => LawfulPolicy.Tracks t ks
  | .random r, ks => LawfulPolicy.Tracks r ks

instance : EvictionPolicy Policy where
  onAccess
    | .lru l, key, now => .lru (EvictionPolicy.onAccess l key now)
    | .lfu l, key, now => .lfu (EvictionPolicy.onAccess l key now)
    | .ttl t, key, now => .ttl (EvictionPolicy.onAccess t key now)
    | .random r, key, now => .random (EvictionPolicy.onAccess r key now)
  onInsert
    | .lru l, key, expiresAt, now => .lru (EvictionPolicy.onInsert l key expiresAt now)
    | .lfu l, key, expiresAt, now => .lfu (EvictionPolicy.onInsert l key expiresAt now)
    | .ttl t, key, expiresAt, now => .ttl (EvictionPolicy.onInsert t key expiresAt now)
    | .random r, key, expiresAt, now => .random (EvictionPolicy.onInsert r key expiresAt now)
  onEvict
    | .lru l, key => .lru (EvictionPolicy.onEvict l key)
    | .lfu l, key => .lfu (EvictionPolicy.onEvict l key)
    | .ttl t, key => .ttl (EvictionPolicy.onEvict t key)
    | .random r, key => .random (EvictionPolicy.onEvict r key)
  evict
    | .lru l, draw => EvictionPolicy.evict l draw
    | .lfu l, draw => EvictionPolicy.evict l draw
    | .ttl t, draw => EvictionPolicy.evict t draw
    | .random r, draw => EvictionPolicy.evict r draw

instance : LawfulPolicy Policy where
  Tracks := Policy.Tracks
  nodup {p _} h := by cases p <;> exact LawfulPolicy.nodup h
  perm {p _ _} h hks := by cases p <;> exact LawfulPolicy.perm h hks
  tracks_onAccess {p _} h key now := by
    cases p <;> exact LawfulPolicy.tracks_onAccess h key now
  tracks_onInsert {p _ _} h hkey expiresAt now := by
    cases p <;> exact LawfulPolicy.tracks_onInsert h hkey expiresAt now
  tracks_onEvict {p _ _} h hkey := by cases p <;> exact LawfulPolicy.tracks_onEvict h hkey
  evict_none {p ks draw} h hnone := by
    cases p <;> exact @LawfulPolicy.evict_none _ _ _ ks draw h hnone
  evict_some {p ks draw key} h hsome := by
    cases p <;> exact @LawfulPolicy.evict_some _ _ _ ks draw key h hsome

/-- A new policy tracks nothing. -/
theorem tracks_newPolicy (kind : PolicyKind) : (newPolicy kind).Tracks [] := by
  cases kind with
  | lru => exact ⟨[], chain_new, List.Perm.nil⟩
  | lfu => exact ⟨Tracker.consistent_new _ _, List.Perm.nil⟩
  | ttl => exact ⟨Tracker.consistent_new _ _, List.Perm.nil⟩
  | random => exact ⟨List.nodup_nil, List.Perm.nil⟩

/-- **Every structure of a policy holds the tracked keys**, each once. -/
theorem Policy.Tracks.structures {p : Policy} {ks : List String} (h : p.Tracks ks) :
    ∀ held ∈ p.structures, held.Perm ks := by
  cases p with
  | lru l =>
      obtain ⟨hlist, hmap⟩ := LRU.Tracks.structures h
      simp [Policy.structures, hlist, hmap]
  | lfu l =>
      obtain ⟨hheap, hmap⟩ := Tracker.Tracks.structures h
      simp [Policy.structures, hheap, hmap]
  | ttl t =>
      obtain ⟨hheap, hmap⟩ := Tracker.Tracks.structures h
      simp [Policy.structures, hheap, hmap]
  | random r => simpa [Policy.structures] using h.2

end Eviction
