import DistributedCaching.EvictionPolicy
import DistributedCaching.LinkedNodes

/-!
# The LRU policy

A doubly linked list of nodes between two sentinels, most recently used first,
and a map from keys to nodes.  Nodes live in a memory addressed by numbers;
`fresh` is the next unused address.  The pointers of a new node are written
before they are read, so its nil pointers are never followed.

`Chain l L` says that the list of `l` runs through the nodes `L`; each operation
is a list operation on `L` (`chain_onInsert`, `chain_onAccess`, `chain_onEvict`).
-/

namespace Eviction

open Go LinkedNodes

structure LRU where
  /-- Key to node. -/
  nodes : GoMap String Nat
  /-- The key field of every node. -/
  key : Nat → String
  /-- The pointer fields of every node. -/
  links : Links Nat
  head : Nat
  tail : Nat
  fresh : Nat

def newLRU : LRU where
  nodes := ∅
  key := fun _ => ""
  links := (Links.setNext ⟨fun _ => 0, fun _ => 0⟩ 0 1).setPrev 1 0
  head := 0
  tail := 1
  fresh := 2

def LRU.insertAtFront (l : LRU) (node : Nat) : LRU :=
  { l with links := l.links.insertAfter l.head node }

def LRU.removeNode (l : LRU) (node : Nat) : LRU :=
  { l with links := l.links.unlink node }

def LRU.moveToFront (l : LRU) (node : Nat) : LRU :=
  (l.removeNode node).insertAtFront node

def LRU.onAccess (l : LRU) (key : String) : LRU :=
  match l.nodes.lookup key with
  | none => l
  | some node => l.moveToFront node

def LRU.onInsert (l : LRU) (key : String) : LRU :=
  let node := l.fresh
  let l := { l with key := Function.update l.key node key, fresh := l.fresh + 1 }
  let l := { l with nodes := l.nodes.insert key node }
  l.insertAtFront node

def LRU.onEvict (l : LRU) (key : String) : LRU :=
  match l.nodes.lookup key with
  | none => l
  | some node =>
      let l := l.removeNode node
      { l with nodes := l.nodes.erase key }

/-- The key before the tail sentinel. -/
def LRU.evict (l : LRU) : Option String :=
  if l.links.prev l.tail = l.head then none
  else some (l.key (l.links.prev l.tail))

/-- The keys met on the way from the head sentinel to the tail sentinel. -/
def LRU.listKeys (l : LRU) : List String :=
  (l.links.forward l.tail l.fresh (l.links.next l.head)).map l.key

/-- The keys met on the way back from the tail sentinel. -/
def LRU.listKeysBack (l : LRU) : List String :=
  (l.links.flip.forward l.head l.fresh (l.links.prev l.tail)).map l.key

/-- **The list runs through these nodes**, front to back, and the map finds
exactly them. -/
structure Chain (l : LRU) (L : List Nat) : Prop where
  path : Path l.links l.head (L ++ [l.tail])
  nodup : (l.head :: (L ++ [l.tail])).Nodup
  bound : ∀ x ∈ l.head :: (L ++ [l.tail]), x < l.fresh
  index : IndexOf l.nodes l.key L

/-- A new list is empty. -/
theorem chain_new : Chain newLRU [] where
  path := ⟨rfl, rfl, trivial⟩
  nodup := by decide
  bound := by decide
  index := indexOf_empty _

variable {l : LRU} {L : List Nat} {key : String}

/-- A new key comes to the front. -/
theorem chain_onInsert (h : Chain l L) (hkey : key ∉ l.nodes) :
    Chain (l.onInsert key) (l.fresh :: L) := by
  have hfresh : l.fresh ∉ l.head :: (L ++ [l.tail]) := fun hmem =>
    absurd (h.bound _ hmem) (Nat.lt_irrefl _)
  have hL : l.fresh ∉ L := fun hmem => hfresh (by simp [hmem])
  refine ⟨path_insertAfter h.path h.nodup (by simp) hfresh, ?_, ?_, ?_⟩
  · show (l.head :: l.fresh :: (L ++ [l.tail])).Nodup
    have hnd := h.nodup
    simp only [List.nodup_cons, List.mem_cons, not_or] at hnd hfresh ⊢
    exact ⟨⟨Ne.symm hfresh.1, hnd.1⟩, hfresh.2, hnd.2⟩
  · intro x hx
    show x < l.fresh + 1
    rcases List.mem_cons.mp hx with rfl | hx
    · exact Nat.lt_succ_of_lt (h.bound _ List.mem_cons_self)
    · rcases List.mem_cons.mp hx with rfl | hx
      · exact Nat.lt_succ_self _
      · exact Nat.lt_succ_of_lt (h.bound x (List.mem_cons_of_mem _ hx))
  · refine h.index.insert hkey hL ?_ ?_
    · intro x hx
      have hne : x ≠ l.fresh := fun heq => hL (heq ▸ hx)
      exact Function.update_of_ne hne _ _
    · exact Function.update_self _ _ _

/-- Detaching a node of the list. -/
theorem path_removeNode (h : Chain l L) {node : Nat} (hnode : node ∈ L) :
    Path (l.removeNode node).links l.head (L.erase node ++ [l.tail]) := by
  obtain ⟨A, B, hA, rfl, herase⟩ := List.exists_erase_eq hnode
  rw [herase]
  have hpath := h.path
  have hnd := h.nodup
  -- The node after the detached one is in the list or is the tail sentinel.
  obtain ⟨q, Q, hq⟩ : ∃ q Q, B ++ [l.tail] = q :: Q := by
    cases B with
    | nil => exact ⟨_, _, rfl⟩
    | cons b B => exact ⟨_, _, rfl⟩
  rw [List.append_assoc, List.cons_append, hq] at hpath hnd
  rw [List.append_assoc, hq]
  exact path_unlink hpath hnd

theorem sublist_erase (L : List Nat) (head tail node : Nat) :
    (head :: (L.erase node ++ [tail])).Sublist (head :: (L ++ [tail])) :=
  (List.erase_sublist.append_right _).cons_cons head

/-- A touched key comes to the front. -/
theorem chain_onAccess (h : Chain l L) {node : Nat} (hnode : l.nodes.lookup key = some node) :
    Chain (l.onAccess key) (node :: L.erase node) := by
  have hmem : node ∈ L := ((h.index.lookup key node).mp hnode).1
  have hsub := sublist_erase L l.head l.tail node
  have hout : node ∉ l.head :: (L.erase node ++ [l.tail]) := by
    have hnd := h.nodup
    have hLnd := h.index.nodup
    simp only [List.nodup_cons, List.mem_append, List.mem_singleton, not_or] at hnd
    rw [List.nodup_append] at hnd
    simp only [List.mem_cons, List.mem_append, hLnd.mem_erase_iff, not_or]
    refine ⟨?_, by simp, ?_, by simp⟩
    · intro heq
      subst heq
      exact hnd.1.1 hmem
    · exact hnd.2.2.2 node hmem l.tail (by simp)
  have haccess : l.onAccess key = l.moveToFront node := by simp [LRU.onAccess, hnode]
  rw [haccess]
  refine ⟨path_insertAfter (path_removeNode h hmem) (h.nodup.sublist hsub) (by simp) hout,
    ?_, ?_, ?_⟩
  · show (l.head :: node :: (L.erase node ++ [l.tail])).Nodup
    have hnd := h.nodup.sublist hsub
    simp only [List.nodup_cons, List.mem_cons, not_or] at hnd hout ⊢
    exact ⟨⟨Ne.symm hout.1, hnd.1⟩, hout.2, hnd.2⟩
  · intro x hx
    rcases List.mem_cons.mp hx with rfl | hx
    · exact h.bound _ List.mem_cons_self
    · rcases List.mem_cons.mp hx with rfl | hx
      · exact h.bound _ (by simp [hmem])
      · exact h.bound x (hsub.subset (List.mem_cons_of_mem _ hx))
  · exact h.index.perm (List.perm_cons_erase hmem).symm

/-- A dropped key leaves the list. -/
theorem chain_onEvict (h : Chain l L) {node : Nat} (hnode : l.nodes.lookup key = some node) :
    Chain (l.onEvict key) (L.erase node) := by
  have hmem : node ∈ L := ((h.index.lookup key node).mp hnode).1
  have hsub := sublist_erase L l.head l.tail node
  have hevict : l.onEvict key =
      { l.removeNode node with nodes := (l.removeNode node).nodes.erase key } := by
    simp [LRU.onEvict, hnode]
  rw [hevict]
  exact ⟨path_removeNode h hmem, h.nodup.sublist hsub, fun x hx => h.bound x (hsub.subset hx),
    h.index.erase hnode⟩

/-- The victim is the last node of the list. -/
theorem evict_eq (h : Chain l L) : l.evict = L.getLast?.map l.key := by
  rw [LRU.evict, h.path.prev_end]
  cases hlast : L.getLast? with
  | none => simp
  | some z =>
      have hz : z ∈ L := List.mem_of_getLast? hlast
      have hne : z ≠ l.head := by
        intro heq
        subst heq
        exact (List.nodup_cons.mp h.nodup).1 (List.mem_append_left _ hz)
      simp [hne]

/-- There are fewer nodes in the list than addresses in use. -/
theorem Chain.length_lt (h : Chain l L) : L.length < l.fresh := by
  have hlen : (l.head :: (L ++ [l.tail])).length ≤ (List.range l.fresh).length :=
    (List.subperm_of_subset h.nodup fun x hx => List.mem_range.mpr (h.bound x hx)).length_le
  simp only [List.length_cons, List.length_append, List.length_nil, List.length_range] at hlen
  omega

/-- The sentinels are not in the list. -/
theorem Chain.sentinels (h : Chain l L) : l.head ∉ L ∧ l.tail ∉ L := by
  obtain ⟨hhead, hnd⟩ := List.nodup_cons.mp h.nodup
  rw [List.nodup_append] at hnd
  constructor
  · intro hmem
    exact hhead (List.mem_append_left _ hmem)
  · intro hmem
    exact hnd.2.2 l.tail hmem l.tail (by simp) rfl

/-- Walking the list yields the keys of its nodes. -/
theorem listKeys_eq (h : Chain l L) : l.listKeys = L.map l.key := by
  rw [LRU.listKeys, forward_path h.path h.sentinels.2 h.length_lt]

/-- Walking it back yields them in reverse. -/
theorem listKeysBack_eq (h : Chain l L) : l.listKeysBack = (L.map l.key).reverse := by
  have hpath := path_flip h.path
  have hhead : l.head ∉ L.reverse := by simpa using h.sentinels.1
  have hlen : L.reverse.length < l.fresh := by simpa using h.length_lt
  have hwalk := forward_path hpath hhead hlen
  rw [LRU.listKeysBack, ← List.map_reverse]
  exact congrArg _ hwalk

/-- The policy tracks the keys on its list. -/
def LRU.Tracks (l : LRU) (ks : List String) : Prop :=
  ∃ L, Chain l L ∧ (L.map l.key).Perm ks

/-- The list and the map of a policy that tracks some keys. -/
theorem LRU.Tracks.structures {ks : List String} (h : l.Tracks ks) :
    l.listKeys.Perm ks ∧ l.nodes.keys.Perm ks := by
  obtain ⟨L, hchain, hperm⟩ := h
  rw [listKeys_eq hchain]
  exact ⟨hperm, hchain.index.keys_perm.trans hperm⟩

/-- An access moves a node, and the keys stay. -/
theorem lru_tracks_onAccess {ks : List String} (h : l.Tracks ks) (key : String) :
    (l.onAccess key).Tracks ks := by
  obtain ⟨L, hchain, hperm⟩ := h
  cases hnode : l.nodes.lookup key with
  | none =>
      have : l.onAccess key = l := by simp [LRU.onAccess, hnode]
      rw [this]
      exact ⟨L, hchain, hperm⟩
  | some node =>
      have hmem : node ∈ L := ((hchain.index.lookup key node).mp hnode).1
      refine ⟨_, chain_onAccess hchain hnode, ?_⟩
      have hkey : (l.onAccess key).key = l.key := by
        simp [LRU.onAccess, hnode, LRU.moveToFront, LRU.insertAtFront, LRU.removeNode]
      rw [hkey]
      exact ((List.perm_cons_erase hmem).symm.map l.key).trans hperm

/-- An insertion adds its key. -/
theorem lru_tracks_onInsert {ks : List String} (h : l.Tracks ks) (hkey : key ∉ ks) :
    (l.onInsert key).Tracks (key :: ks) := by
  obtain ⟨L, hchain, hperm⟩ := h
  have hnew : key ∉ l.nodes := by
    rw [AList.mem_keys, (hchain.index.keys_perm.trans hperm).mem_iff]
    exact hkey
  refine ⟨_, chain_onInsert hchain hnew, ?_⟩
  have hmap : (l.fresh :: L).map (Function.update l.key l.fresh key) = key :: L.map l.key := by
    rw [List.map_cons, Function.update_self]
    congr 1
    refine List.map_congr_left fun x hx => ?_
    have hlt := hchain.bound x (by simp [hx])
    exact Function.update_of_ne (Nat.ne_of_lt hlt) _ _
  exact (List.Perm.of_eq hmap).trans (hperm.cons key)

/-- An eviction takes its key. -/
theorem lru_tracks_onEvict {ks : List String} (h : l.Tracks ks) (hkey : key ∈ ks) :
    (l.onEvict key).Tracks (ks.erase key) := by
  obtain ⟨L, hchain, hperm⟩ := h
  have hold : key ∈ l.nodes := by
    rw [AList.mem_keys, (hchain.index.keys_perm.trans hperm).mem_iff]
    exact hkey
  obtain ⟨node, hnode⟩ := GoMap.mem_iff_lookup.mp hold
  refine ⟨_, chain_onEvict hchain hnode, ?_⟩
  have hsame : (l.onEvict key).key = l.key := by
    simp [LRU.onEvict, hnode, LRU.removeNode]
  rw [hsame]
  exact (hchain.index.map_erase hnode).trans (hperm.erase key)

instance : LawfulPolicy LRU where
  onAccess l key _ := l.onAccess key
  onInsert l key _ _ := l.onInsert key
  onEvict := LRU.onEvict
  evict l _ := l.evict
  Tracks := LRU.Tracks
  nodup := fun ⟨_, hchain, hperm⟩ => hperm.nodup_iff.mp hchain.index.keys_nodup
  perm := fun ⟨L, hchain, hperm⟩ hks => ⟨L, hchain, hperm.trans hks⟩
  tracks_onAccess := fun h key _ => lru_tracks_onAccess h key
  tracks_onInsert := fun h hkey _ _ => lru_tracks_onInsert h hkey
  tracks_onEvict := lru_tracks_onEvict
  evict_none := by
    intro l ks draw htracks hnone
    obtain ⟨L, hchain, hperm⟩ := htracks
    rw [evict_eq hchain, Option.map_eq_none_iff, List.getLast?_eq_none_iff] at hnone
    subst hnone
    exact hperm.symm.eq_nil
  evict_some := by
    intro l ks draw key htracks hsome
    obtain ⟨L, hchain, hperm⟩ := htracks
    rw [evict_eq hchain] at hsome
    obtain ⟨z, hz, rfl⟩ := Option.map_eq_some_iff.mp hsome
    exact hperm.mem_iff.mp (List.mem_map_of_mem (List.mem_of_getLast? hz))

end Eviction
