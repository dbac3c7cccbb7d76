import DistributedCaching.GoRuntime
import DistributedCaching.SortedSearch

/-!
# The consistent hashing ring

`Ring` maps keys to cache nodes.  Every node places `virtualNodes` tokens on the
circle of 32-bit positions; a key belongs to the owner of the first token at or
after the key's own position.  Three structures are kept side by side: the map
from token to owner, the sorted slice of tokens, and the map from node to
address.  The slice may hold a token more than once, when a node is added again
or when tokens of two nodes collide; the map holds it once.

For each operation one lemma says what it does to each of the three:
`add_perm`, `lookup_add`, `remove_count`, `lookup_remove`, and `get_eq` for the
lookup.
-/

namespace Cluster

open Go SortedSearch

/-- The 32-bit FNV-1a hash of package `hash/fnv`. -/
def fnv32a (bytes : List UInt8) : UInt32 :=
  bytes.foldl (fun h b => (h ^^^ b.toUInt32) * 16777619) 2166136261

/-- `hashKey`: the position of a string on the ring. -/
def hashKey (key : String) : UInt32 :=
  fnv32a key.toUTF8.data.toList

/-- Virtual tokens per physical node. -/
def defaultVirtualNodes : Nat := 150

structure Ring where
  /-- Token position to node id. -/
  tokens : GoMap UInt32 String
  /-- Token positions in ascending order, for binary search. -/
  sortedTokens : List UInt32
  /-- Node id to gRPC address. -/
  nodeAddrs : GoMap String String
  virtualNodes : Nat

def newRing : Ring where
  tokens := ∅
  sortedTokens := []
  nodeAddrs := ∅
  virtualNodes := defaultVirtualNodes

/-- The `i`-th virtual token of a node: the hash of `"nodeID-i"`. -/
def virtualToken (nodeID : String) (i : Nat) : UInt32 :=
  hashKey (nodeID ++ "-" ++ toString i)

/-- One round of the loop of `Add`. -/
def Ring.place (nodeID : String) (r : Ring) (i : Nat) : Ring :=
  let token := virtualToken nodeID i
  { r with
    tokens := r.tokens.insert token nodeID
    sortedTokens := r.sortedTokens ++ [token] }

/-- `Add`. -/
def Ring.add (r : Ring) (nodeID addr : String) : Ring :=
  let r := { r with nodeAddrs := r.nodeAddrs.insert nodeID addr }
  let r := (List.range r.virtualNodes).foldl (Ring.place nodeID) r
  { r with sortedTokens := r.sortedTokens.insertionSort (· ≤ ·) }

/-- The loop of `Remove`: the map and the filtered slice.  The map is read as it
is being emptied, so that the second occurrence of a token in the slice finds
no owner any more. -/
def removeTokens (nodeID : String) (tokens : GoMap UInt32 String) :
    List UInt32 → GoMap UInt32 String × List UInt32
  | [] => (tokens, [])
  | token :: rest =>
      if tokens.getZero token = nodeID then
        removeTokens nodeID (tokens.erase token) rest
      else
        let kept := removeTokens nodeID tokens rest
        (kept.1, token :: kept.2)

/-- `Remove`. -/
def Ring.remove (r : Ring) (nodeID : String) : Ring :=
  let kept := removeTokens nodeID r.tokens r.sortedTokens
  { r with
    nodeAddrs := r.nodeAddrs.erase nodeID
    tokens := kept.1
    sortedTokens := kept.2 }

/-- `r.tokens[token]`, which is empty for a token without an owner. -/
def Ring.owner (r : Ring) (token : UInt32) : String := r.tokens.getZero token

/-- `Get`: the node responsible for a key and its address; `none` is `ok = false`. -/
def Ring.get (r : Ring) (key : String) : Option (String × String) :=
  if r.sortedTokens.length = 0 then none
  else
    let position := hashKey key
    let idx := search r.sortedTokens.length fun i =>
      decide (position ≤ r.sortedTokens.getD i 0)
    let idx := if idx = r.sortedTokens.length then 0 else idx
    let token := r.sortedTokens.getD idx 0
    let nodeID := r.owner token
    some (nodeID, r.nodeAddrs.getZero nodeID)

/-- `Nodes`. -/
def Ring.nodes (r : Ring) : List String := r.nodeAddrs.keys

/-- `NodeAddr`. -/
def Ring.nodeAddr (r : Ring) (nodeID : String) : Option String :=
  r.nodeAddrs.lookup nodeID

/-- The owner of a token is the node that it is filed under. -/
theorem owner_of_lookup {r : Ring} {t : UInt32} {n : String}
    (h : r.tokens.lookup t = some n) : r.owner t = n := by
  rw [Ring.owner, GoMap.getZero, h, Option.getD_some]

/-- A token without an owner answers with the empty id. -/
theorem owner_of_notMem {r : Ring} {t : UInt32} (h : t ∉ r.tokens) : r.owner t = "" := by
  rw [Ring.owner, GoMap.getZero, AList.lookup_eq_none.mpr h]
  rfl

/-! ## Adding a node -/

/-- All virtual tokens of a node. -/
def virtualTokens (nodeID : String) (n : Nat) : List UInt32 :=
  (List.range n).map (virtualToken nodeID)

/-- The loop of `Add`, run for some list of indices. -/
theorem foldl_place (nodeID : String) (is : List Nat) (r : Ring) :
    (is.foldl (Ring.place nodeID) r).sortedTokens =
        r.sortedTokens ++ is.map (virtualToken nodeID) ∧
      (is.foldl (Ring.place nodeID) r).nodeAddrs = r.nodeAddrs ∧
      (is.foldl (Ring.place nodeID) r).virtualNodes = r.virtualNodes ∧
      ∀ t, (is.foldl (Ring.place nodeID) r).tokens.lookup t =
        if t ∈ is.map (virtualToken nodeID) then some nodeID else r.tokens.lookup t := by
  induction is generalizing r with
  | nil => simp
  | cons i is ih =>
      obtain ⟨hsorted, haddrs, hvirtual, htokens⟩ := ih (r.place nodeID i)
      refine ⟨?_, haddrs, hvirtual, ?_⟩
      · rw [List.foldl_cons, hsorted]
        simp [Ring.place]
      · intro t
        rw [List.foldl_cons, htokens t]
        by_cases hrest : t ∈ is.map (virtualToken nodeID)
        · rw [if_pos hrest, List.map_cons, if_pos (List.mem_cons_of_mem _ hrest)]
        · rw [if_neg hrest]
          by_cases hi : t = virtualToken nodeID i
          · subst hi
            simp [Ring.place]
          · have hnot : t ∉ (i :: is).map (virtualToken nodeID) := by
              rw [List.map_cons, List.mem_cons]
              intro hcase
              rcases hcase with h | h
              · exact hi h
              · exact hrest h
            rw [if_neg hnot]
            exact AList.lookup_insert_ne hi

variable (r : Ring) (nodeID addr : String)

@[simp]
theorem nodeAddrs_add : (r.add nodeID addr).nodeAddrs = r.nodeAddrs.insert nodeID addr :=
  (foldl_place nodeID _ _).2.1

@[simp]
theorem virtualNodes_add : (r.add nodeID addr).virtualNodes = r.virtualNodes :=
  (foldl_place nodeID _ _).2.2.1

/-- The slice gains the tokens of the node. -/
theorem add_perm :
    (r.add nodeID addr).sortedTokens.Perm
      (r.sortedTokens ++ virtualTokens nodeID r.virtualNodes) := by
  refine (List.perm_insertionSort _ _).trans ?_
  rw [(foldl_place nodeID _ _).1]
  exact List.Perm.refl _

/-- The tokens are sorted after an addition. -/
theorem sorted_add : (r.add nodeID addr).sortedTokens.Pairwise (· ≤ ·) :=
  List.pairwise_insertionSort _ _

/-- The node takes its tokens over, from whoever owned them. -/
theorem lookup_add (t : UInt32) :
    (r.add nodeID addr).tokens.lookup t =
      if t ∈ virtualTokens nodeID r.virtualNodes then some nodeID
      else r.tokens.lookup t :=
  (foldl_place nodeID _ _).2.2.2 t

/-! ## Removing a node -/

/-- What is left of the positions is a part of them, in their order. -/
theorem removeTokens_sublist (tokens : GoMap UInt32 String) (l : List UInt32) :
    (removeTokens nodeID tokens l).2.Sublist l := by
  induction l generalizing tokens with
  | nil => exact List.Sublist.refl _
  | cons token rest ih =>
      rw [removeTokens]
      split
      · exact (ih _).cons token
      · exact (ih _).cons_cons token

/-- Erasing a token leaves the owners of the others. -/
theorem getZero_erase_ne {tokens : GoMap UInt32 String} {t token : UInt32} (h : t ≠ token) :
    GoMap.getZero (tokens.erase token) t = tokens.getZero t := by
  rw [GoMap.getZero, GoMap.getZero, AList.lookup_erase_ne h]

theorem getZero_erase_self {tokens : GoMap UInt32 String} (token : UInt32) :
    GoMap.getZero (tokens.erase token) token = "" := by
  rw [GoMap.getZero, AList.lookup_erase]
  rfl

/-- A removal erases the tokens that the node owned, and no other. -/
theorem removeTokens_lookup (tokens : GoMap UInt32 String) (l : List UInt32) (t : UInt32) :
    (removeTokens nodeID tokens l).1.lookup t =
      if t ∈ l ∧ tokens.getZero t = nodeID then none else tokens.lookup t := by
  induction l generalizing tokens with
  | nil => simp [removeTokens]
  | cons token rest ih =>
      rw [removeTokens]
      split
      · rename_i hown
        rw [ih]
        by_cases ht : t = token
        · subst ht
          simp [hown]
        · rw [getZero_erase_ne ht, AList.lookup_erase_ne ht]
          simp [ht]
      · rename_i hown
        rw [ih]
        by_cases ht : t = token
        · subst ht
          simp [hown]
        · simp [ht]

/-- **What the loop of `Remove` leaves of a token.**  Of a token of the removed
node only the first occurrence goes, because erasing it from the map hides the
owner of the others, unless the removed id is the empty one that the map
returns for tokens without an owner. -/
theorem removeTokens_count (tokens : GoMap UInt32 String) (l : List UInt32) (t : UInt32) :
    (removeTokens nodeID tokens l).2.count t =
      if tokens.getZero t = nodeID then (if nodeID = "" then 0 else l.count t - 1)
      else l.count t := by
  induction l generalizing tokens with
  | nil => simp [removeTokens]
  | cons token rest ih =>
      rw [removeTokens]
      split
      · rename_i hown
        rw [ih]
        by_cases ht : t = token
        · subst ht
          rw [getZero_erase_self, if_pos hown, List.count_cons_self]
          by_cases hempty : nodeID = ""
          · simp [hempty]
          · have hne : "" ≠ nodeID := Ne.symm hempty
            simp [hempty, hne]
        · rw [getZero_erase_ne ht, List.count_cons_of_ne (Ne.symm ht)]
      · rename_i hown
        dsimp only
        by_cases ht : t = token
        · subst ht
          rw [List.count_cons_self, ih, if_neg hown, if_neg hown, List.count_cons_self]
        · rw [List.count_cons_of_ne (Ne.symm ht), ih, List.count_cons_of_ne (Ne.symm ht)]

/-- The tokens stay sorted after a removal. -/
theorem sorted_remove (h : r.sortedTokens.Pairwise (· ≤ ·)) :
    (r.remove nodeID).sortedTokens.Pairwise (· ≤ ·) :=
  h.sublist (removeTokens_sublist nodeID _ _)

theorem remove_sublist : (r.remove nodeID).sortedTokens.Sublist r.sortedTokens :=
  removeTokens_sublist nodeID _ _

/-- After a removal the tokens of the node are not filed, and the others are as they were. -/
theorem lookup_remove (t : UInt32) :
    (r.remove nodeID).tokens.lookup t =
      if t ∈ r.sortedTokens ∧ r.owner t = nodeID then none else r.tokens.lookup t :=
  removeTokens_lookup nodeID _ _ t

/-- A removal takes one position of each token that the node owned; under the empty name it
takes all of them. -/
theorem remove_count (t : UInt32) :
    (r.remove nodeID).sortedTokens.count t =
      if r.owner t = nodeID then (if nodeID = "" then 0 else r.sortedTokens.count t - 1)
      else r.sortedTokens.count t :=
  removeTokens_count nodeID _ _ t

/-! ## Looking a key up -/

/-- On a sorted slice `Get` answers with the owner of the next token clockwise. -/
theorem get_eq (h : r.sortedTokens.Pairwise (· ≤ ·)) (key : String) :
    r.get key = (clockwise r.sortedTokens (hashKey key)).map fun t =>
      (r.owner t, r.nodeAddrs.getZero (r.owner t)) := by
  have hsearch := getElem?_search h (hashKey key) 0
  dsimp only at hsearch
  by_cases hempty : r.sortedTokens = []
  · simp [Ring.get, hempty, clockwise]
  · have hsome := clockwise_isSome (x := hashKey key).mpr hempty
    obtain ⟨t, ht⟩ := Option.isSome_iff_exists.mp hsome
    rw [ht] at hsearch
    have hlen : r.sortedTokens.length ≠ 0 := by simpa using hempty
    rw [Ring.get, if_neg hlen, ht, Option.map_some]
    dsimp only
    rw [List.getD_eq_getElem?_getD, hsearch, Option.getD_some]

/-- The same without the order of the slice. -/
theorem get_eq_some_iff (h : r.sortedTokens.Pairwise (· ≤ ·)) (key n a : String) :
    r.get key = some (n, a) ↔ ∃ t, IsSuccessor {u | u ∈ r.sortedTokens} (hashKey key) t ∧
      r.owner t = n ∧ r.nodeAddrs.getZero n = a := by
  rw [get_eq r h, Option.map_eq_some_iff]
  refine exists_congr fun t => ?_
  rw [clockwise_eq_some_iff h, Prod.mk.injEq]
  refine and_congr_right fun _ => ?_
  constructor
  · intro hboth
    obtain ⟨rfl, ha⟩ := hboth
    exact ⟨rfl, ha⟩
  · intro hboth
    obtain ⟨rfl, ha⟩ := hboth
    exact ⟨rfl, ha⟩

/-- A key has no node exactly if the ring has no position. -/
theorem get_eq_none_iff (h : r.sortedTokens.Pairwise (· ≤ ·)) (key : String) :
    r.get key = none ↔ r.sortedTokens = [] := by
  rw [get_eq r h, Option.map_eq_none_iff, ← Option.not_isSome_iff_eq_none, clockwise_isSome,
    not_not]

/-- Right after an `Add` every key has an owner. -/
theorem get_add_isSome (h : 0 < r.virtualNodes) (key : String) :
    ((r.add nodeID addr).get key).isSome := by
  have hfirst : virtualToken nodeID 0 ∈ virtualTokens nodeID r.virtualNodes :=
    List.mem_map_of_mem (List.mem_range.mpr h)
  have hlisted : virtualToken nodeID 0 ∈ (r.add nodeID addr).sortedTokens :=
    (add_perm r nodeID addr).mem_iff.mpr (List.mem_append_right _ hfirst)
  rw [get_eq _ (sorted_add r nodeID addr), Option.isSome_map, clockwise_isSome]
  exact List.ne_nil_of_mem hlisted

end Cluster
