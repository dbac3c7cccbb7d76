import Mathlib.Data.List.Dedup
import Mathlib.Data.List.Induction
import Mathlib.Data.List.Nodup
import DistributedCaching.RingIntegrity

/-!
# Where the ring routes a key

What `Get` answers, in terms of sets of tokens.  The successor of a position stays
the successor when other tokens go, and a token that was there before is the
successor after tokens have come only if it was the successor before.  So a key
moves only away from a node that leaves and only to a node that joins, on every
ring that calls of `Add` and `Remove` lead to, ghosts and collisions included.

When no two tokens collide and no node is added twice, the answer is that of the
plain definition over the registered nodes (`PlainOwner`), whatever the history.
When tokens of two nodes do collide, the node added last owns them, so that rings
filled in different orders route differently: `agreement_iff` says that this is the
only way to disagree.
-/

namespace Cluster

open Go SortedSearch TransitionRuns

/-- The ring and the registry after some calls on a new ring. -/
def Membership.after (ops : List RingOp) : Membership := ops.foldl Membership.call .init

/-- A ring after any calls is well placed. -/
theorem wellPlaced_after (ops : List RingOp) : WellPlaced (.after ops) :=
  run_invariant (fun _ _ _ => wellPlaced_step) wellPlaced_init
    (run_total (fun _ _ => rfl) Membership.init ops)

/-! ## Leaving and joining -/

/-- **A node that leaves** takes along its own keys only. -/
theorem get_remove_of_other_owner (ops : List RingOp) (nodeID key : String)
    (hother : ∀ addr, (Membership.after ops).ring.get key ≠ some (nodeID, addr)) :
    ((Membership.after ops).ring.remove nodeID).get key =
      (Membership.after ops).ring.get key := by
  have hsorted := (wellPlaced_after ops).sorted
  generalize (Membership.after ops).ring = r at hother hsorted
  have hsorted' := sorted_remove r nodeID hsorted
  have hsub := remove_sublist r nodeID
  cases hget : r.get key with
  | none =>
      rw [get_eq_none_iff r hsorted] at hget
      rw [get_eq_none_iff _ hsorted']
      rw [hget] at hsub
      exact List.sublist_nil.mp hsub
  | some found =>
      obtain ⟨n, a⟩ := found
      have hne : n ≠ nodeID := by
        intro heq
        subst heq
        exact hother a hget
      obtain ⟨t, ht, howner, ha⟩ := (get_eq_some_iff r hsorted key n a).mp hget
      rw [get_eq_some_iff _ hsorted']
      have hnot : ¬ (t ∈ r.sortedTokens ∧ r.owner t = nodeID) :=
        fun hboth => hne (howner.symm.trans hboth.2)
      have hstays : t ∈ (r.remove nodeID).sortedTokens :=
        mem_remove.mpr ⟨ht.mem, Or.inl fun heq => hnot ⟨ht.mem, heq⟩⟩
      refine ⟨t, ht.subset (fun u hu => hsub.subset hu) hstays, ?_, ?_⟩
      · rw [Ring.owner, GoMap.getZero, lookup_remove, if_neg hnot]
        exact howner
      · rw [← ha]
        show GoMap.getZero (r.nodeAddrs.erase nodeID) n = _
        rw [GoMap.getZero, GoMap.getZero, AList.lookup_erase_ne hne]

/-- **A node that joins** receives keys; no key moves between other nodes. -/
theorem get_add_of_reachable (ops : List RingOp) (nodeID addr key : String) :
    ((Membership.after ops).ring.add nodeID addr).get key = some (nodeID, addr) ∨
      ∃ n a, n ≠ nodeID ∧ (Membership.after ops).ring.get key = some (n, a) ∧
        ((Membership.after ops).ring.add nodeID addr).get key = some (n, a) := by
  have h := wellPlaced_after ops
  have hsorted := h.sorted
  have hvirtual := h.virtual
  generalize (Membership.after ops).ring = r at hsorted hvirtual
  have hsorted' := sorted_add r nodeID addr
  have hsome := get_add_isSome r nodeID addr (by rw [hvirtual]; decide) key
  obtain ⟨⟨n, a⟩, hget⟩ := Option.isSome_iff_exists.mp hsome
  obtain ⟨t, ht, howner, ha⟩ := (get_eq_some_iff _ hsorted' key n a).mp hget
  rw [nodeAddrs_add] at ha
  by_cases hn : n = nodeID
  · subst hn
    rw [GoMap.getZero, AList.lookup_insert] at ha
    cases ha
    exact Or.inl hget
  · refine Or.inr ⟨n, a, hn, ?_, hget⟩
    have hnot : t ∉ virtualTokens nodeID r.virtualNodes := by
      intro hmem
      refine hn (howner.symm.trans (owner_of_lookup ?_))
      rw [lookup_add, if_pos hmem]
    have hperm := add_perm r nodeID addr
    have hold : t ∈ r.sortedTokens :=
      (List.mem_append.mp (hperm.mem_iff.mp ht.mem)).resolve_right hnot
    rw [get_eq_some_iff r hsorted]
    refine ⟨t, ht.subset (fun u hu => hperm.mem_iff.mpr (List.mem_append_left _ hu)) hold, ?_, ?_⟩
    · rw [← howner, Ring.owner, Ring.owner, GoMap.getZero, GoMap.getZero, lookup_add, if_neg hnot]
    · rw [← ha, GoMap.getZero, GoMap.getZero, AList.lookup_insert_ne hn]

/-- A token of the node that was added last answers for it. -/
theorem get_add_hit (r : Ring) (nodeID addr : String) {i : Nat} (hi : i < r.virtualNodes) :
    (r.add nodeID addr).get (nodeID ++ "-" ++ toString i) = some (nodeID, addr) := by
  have hmem : virtualToken nodeID i ∈ virtualTokens nodeID r.virtualNodes :=
    List.mem_map_of_mem (List.mem_range.mpr hi)
  have hlisted : virtualToken nodeID i ∈ (r.add nodeID addr).sortedTokens :=
    (add_perm r nodeID addr).mem_iff.mpr (List.mem_append_right _ hmem)
  have hself := clockwise_self (sorted_add r nodeID addr) hlisted
  rw [get_eq_some_iff _ (sorted_add r nodeID addr)]
  refine ⟨virtualToken nodeID i, (clockwise_eq_some_iff (sorted_add _ _ _)).mp hself, ?_, ?_⟩
  · exact owner_of_lookup ((lookup_add r nodeID addr _).trans (if_pos hmem))
  · rw [nodeAddrs_add, GoMap.getZero, AList.lookup_insert, Option.getD_some]

/-- With `node1` and `node2` on the ring, a key of `node2` stays when `node1` leaves. -/
theorem get_remove_of_other_owner_node1 :
    let ops := [RingOp.add "node1" "node1:9001", .add "node2" "node2:9002"]
    ((Membership.after ops).ring.remove "node1").get "node2-0" = some ("node2", "node2:9002") := by
  intro ops
  have hkey : "node2-0" = "node2" ++ "-" ++ toString 0 := by decide
  have hvirtual : 0 < (newRing.add "node1" "node1:9001").virtualNodes := by
    rw [virtualNodes_add]
    decide
  have hget : (Membership.after ops).ring.get "node2-0" = some ("node2", "node2:9002") := by
    rw [hkey]
    exact get_add_hit _ "node2" "node2:9002" hvirtual
  rw [get_remove_of_other_owner ops "node1" "node2-0" ?_, hget]
  intro addr
  rw [hget]
  simp

/-! ## The plain definition -/

/-- The tokens of all registered nodes. -/
def registeredTokens (latest : String → Option String) : Set UInt32 :=
  {t | ∃ n, (latest n).isSome ∧ t ∈ virtualTokens n defaultVirtualNodes}

/-- **The plain definition of a lookup**: the registered node with the successor of
the key's position among the tokens of all registered nodes, and its address. -/
def PlainOwner (latest : String → Option String) (key n a : String) : Prop :=
  latest n = some a ∧ ∃ t ∈ virtualTokens n defaultVirtualNodes,
    IsSuccessor (registeredTokens latest) (hashKey key) t

/-- A node that is added is not there yet. -/
def AddsNew (s : Membership) : RingOp → Prop
  | .add nodeID _ => s.latest nodeID = none
  | .remove _ => True

instance AddsNew.decidable : ∀ s op, Decidable (AddsNew s op)
  | _, .add _ _ => inferInstanceAs (Decidable (_ = none))
  | _, .remove _ => .isTrue trivial

/-- The nodes that are added at some time. -/
def addedNodes (ops : List RingOp) : List String :=
  ops.filterMap fun
    | .add nodeID _ => some nodeID
    | .remove _ => none

/-- All virtual tokens of all these nodes are different. -/
def DistinctTokens (nodes : List String) : Prop :=
  (nodes.dedup.flatMap fun n => virtualTokens n defaultVirtualNodes).Nodup

section Distinct

variable {nodes : List String} {n m : String}

/-- The tokens of one node are distinct. -/
theorem DistinctTokens.nodup (h : DistinctTokens nodes) (hn : n ∈ nodes) :
    (virtualTokens n defaultVirtualNodes).Nodup :=
  (List.nodup_flatMap.mp h).1 n (List.mem_dedup.mpr hn)

/-- A token belongs to one node. -/
theorem DistinctTokens.eq (h : DistinctTokens nodes) (hn : n ∈ nodes) (hm : m ∈ nodes)
    {t : UInt32} (htn : t ∈ virtualTokens n defaultVirtualNodes)
    (htm : t ∈ virtualTokens m defaultVirtualNodes) : n = m := by
  by_contra hne
  have hsymm : Std.Symm (Function.onFun List.Disjoint fun n =>
      virtualTokens n defaultVirtualNodes) := ⟨fun _ _ hdisjoint t ht hu => hdisjoint hu ht⟩
  exact (List.nodup_flatMap.mp h).2.forall (List.mem_dedup.mpr hn) (List.mem_dedup.mpr hm) hne
    htn htm

end Distinct

/-- **A ring that mirrors the registry**: a token is listed once, and is owned by
the registered node whose token it is. -/
structure Mirrors (nodes : List String) (s : Membership) : Prop extends WellPlaced s where
  known : ∀ n, (s.latest n).isSome → n ∈ nodes
  once : s.ring.sortedTokens.Nodup
  noGhost : ∀ t ∈ s.ring.sortedTokens, t ∈ s.ring.tokens
  placed : ∀ t n, s.ring.tokens.lookup t = some n ↔
    (s.latest n).isSome ∧ t ∈ virtualTokens n defaultVirtualNodes

/-- An empty ring mirrors the empty registry. -/
theorem mirrors_init (nodes : List String) : Mirrors nodes .init where
  toWellPlaced := wellPlaced_init
  known n hn := by simp [Membership.init] at hn
  once := List.nodup_nil
  noGhost t ht := by cases ht
  placed t n := by simp [Membership.init, newRing]

variable {nodes : List String} {s : Membership}

/-- The listed tokens are those of the registered nodes. -/
theorem Mirrors.mem_iff (h : Mirrors nodes s) {t : UInt32} :
    t ∈ s.ring.sortedTokens ↔ t ∈ registeredTokens s.latest := by
  constructor
  · intro ht
    obtain ⟨n, hn⟩ := GoMap.mem_iff_lookup.mp (h.noGhost t ht)
    exact ⟨n, (h.placed t n).mp hn⟩
  · intro ht
    obtain ⟨n, hn⟩ := ht
    exact h.listed t n ((h.placed t n).mpr hn)

/-- A new node with tokens of its own. -/
theorem mirrors_add (hdistinct : DistinctTokens nodes) (h : Mirrors nodes s) {nodeID : String}
    (hnode : nodeID ∈ nodes) (hnew : s.latest nodeID = none) (addr : String) :
    Mirrors nodes (s.call (.add nodeID addr)) := by
  have hperm := add_perm s.ring nodeID addr
  rw [h.virtual] at hperm
  have hlookup : ∀ t, (s.ring.add nodeID addr).tokens.lookup t =
      if t ∈ virtualTokens nodeID defaultVirtualNodes then some nodeID
      else s.ring.tokens.lookup t := by
    intro t
    rw [lookup_add, h.virtual]
  -- A node that is registered is another one, and so are its tokens.
  have hapart : ∀ n t, (s.latest n).isSome → t ∈ virtualTokens n defaultVirtualNodes →
      n ≠ nodeID ∧ t ∉ virtualTokens nodeID defaultVirtualNodes := by
    intro n t hn ht
    have hne : n ≠ nodeID := by
      intro heq
      subst heq
      rw [hnew] at hn
      cases hn
    exact ⟨hne, fun ht' => hne (hdistinct.eq (h.known n hn) hnode ht ht')⟩
  refine ⟨wellPlaced_add h.toWellPlaced nodeID addr, ?_, ?_, ?_, ?_⟩
  · intro n hn
    by_cases heq : n = nodeID
    · rw [heq]
      exact hnode
    · simp only [Membership.call, Function.update_of_ne heq] at hn
      exact h.known n hn
  · refine (hperm.nodup_iff).mpr (List.nodup_append.mpr ⟨h.once, hdistinct.nodup hnode, ?_⟩)
    intro t ht u hu heq
    subst heq
    obtain ⟨n, hn, htn⟩ := h.mem_iff.mp ht
    exact (hapart n t hn htn).2 hu
  · intro t ht
    apply GoMap.mem_iff_lookup.mpr
    by_cases hown : t ∈ virtualTokens nodeID defaultVirtualNodes
    · exact ⟨nodeID, (hlookup t).trans (if_pos hown)⟩
    · have hold := (List.mem_append.mp (hperm.mem_iff.mp ht)).resolve_right hown
      obtain ⟨n, hn⟩ := GoMap.mem_iff_lookup.mp (h.noGhost t hold)
      exact ⟨n, (hlookup t).trans ((if_neg hown).trans hn)⟩
  · intro t n
    refine (Eq.congr_left (hlookup t)).trans ?_
    by_cases heq : n = nodeID
    · subst heq
      simp only [Membership.call, Function.update_self, Option.isSome_some, true_and]
      refine ⟨?_, fun ht => if_pos ht⟩
      intro hn
      split at hn
      · assumption
      · have hn' := ((h.placed t n).mp hn).1
        rw [hnew] at hn'
        cases hn'
    · simp only [Membership.call, Function.update_of_ne heq, ← h.placed]
      constructor
      · intro hn
        split at hn
        · exact absurd (Option.some.inj hn).symm heq
        · exact hn
      · intro hn
        obtain ⟨hreg, ht⟩ := (h.placed t n).mp hn
        exact (if_neg (hapart n t hreg ht).2).trans hn

/-- Removing a node keeps the ring a mirror. -/
theorem mirrors_remove (h : Mirrors nodes s) (nodeID : String) :
    Mirrors nodes (s.call (.remove nodeID)) := by
  have hlookup : ∀ t n, (s.ring.remove nodeID).tokens.lookup t = some n ↔
      s.ring.tokens.lookup t = some n ∧ n ≠ nodeID := by
    intro t n
    constructor
    · exact lookup_of_remove h.toWellPlaced
    · intro hboth
      obtain ⟨hn, hne⟩ := hboth
      rw [lookup_remove, if_neg fun hgone => hne ((owner_of_lookup hn).symm.trans hgone.2)]
      exact hn
  have hlatest : ∀ n, ((s.call (.remove nodeID)).latest n).isSome ↔
      (s.latest n).isSome ∧ n ≠ nodeID := by
    intro n
    by_cases heq : n = nodeID
    · simp [Membership.call, heq]
    · simp [Membership.call, heq]
  refine ⟨wellPlaced_remove h.toWellPlaced nodeID, ?_, ?_, ?_, ?_⟩
  · intro n hn
    exact h.known n ((hlatest n).mp hn).1
  · exact h.once.sublist (remove_sublist s.ring nodeID)
  · intro t ht
    obtain ⟨hlisted, hkept⟩ := mem_remove.mp ht
    have hcount := List.nodup_iff_count_le_one.mp h.once t
    have howner : s.ring.owner t ≠ nodeID := by
      rcases hkept with howner | ⟨_, htwice⟩
      · exact howner
      · omega
    obtain ⟨n, hn⟩ := GoMap.mem_iff_lookup.mp (h.noGhost t hlisted)
    rw [owner_of_lookup hn] at howner
    exact GoMap.mem_iff_lookup.mpr ⟨n, (hlookup t n).mpr ⟨hn, howner⟩⟩
  · intro t n
    refine (hlookup t n).trans ?_
    rw [h.placed, hlatest]
    exact and_right_comm

/-- **Calls that add new nodes only keep the ring a mirror of the registry.** -/
theorem mirrors_run (hdistinct : DistinctTokens nodes) {ops : List RingOp} (h : Mirrors nodes s)
    (hadded : ∀ n ∈ addedNodes ops, n ∈ nodes) (hnew : Along ringStep AddsNew s ops) :
    Mirrors nodes (ops.foldl Membership.call s) := by
  induction ops generalizing s with
  | nil => exact h
  | cons op ops ih =>
      obtain ⟨hop, hrest⟩ := hnew
      cases op with
      | add nodeID addr =>
          refine ih (mirrors_add hdistinct h (hadded nodeID (by simp [addedNodes])) hop addr)
            ?_ (hrest _ rfl)
          intro n hn
          exact hadded n (List.mem_cons_of_mem _ hn)
      | remove nodeID => exact ih (mirrors_remove h nodeID) hadded (hrest _ rfl)

/-- The answers of a ring that mirrors its registry. -/
theorem Mirrors.get_iff (h : Mirrors nodes s) (key n a : String) :
    s.ring.get key = some (n, a) ↔ PlainOwner s.latest key n a := by
  have hset : {u | u ∈ s.ring.sortedTokens} = registeredTokens s.latest := by
    ext t
    exact h.mem_iff
  rw [get_eq_some_iff _ h.sorted, hset]
  constructor
  · intro hget
    obtain ⟨t, ht, howner, ha⟩ := hget
    obtain ⟨m, hm⟩ := GoMap.mem_iff_lookup.mp (h.noGhost t (h.mem_iff.mpr ht.mem))
    rw [owner_of_lookup hm] at howner
    subst howner
    obtain ⟨hreg, htm⟩ := (h.placed t m).mp hm
    obtain ⟨a', ha'⟩ := Option.isSome_iff_exists.mp hreg
    rw [GoMap.getZero, h.latest, ha', Option.getD_some] at ha
    subst ha
    exact ⟨ha', t, htm, ht⟩
  · intro hplain
    obtain ⟨ha, t, htn, ht⟩ := hplain
    refine ⟨t, ht, owner_of_lookup ((h.placed t n).mpr ⟨by simp [ha], htn⟩), ?_⟩
    rw [GoMap.getZero, h.latest, ha, Option.getD_some]

/-- **Lookup is the clockwise successor.**  When nodes are added only while they are
absent and all their tokens differ, `Get` is the plain definition over the nodes
that are registered, and so does not depend on how they came to be registered. -/
theorem get_iff_plainOwner (ops : List RingOp) (hnew : Along ringStep AddsNew .init ops)
    (hdistinct : DistinctTokens (addedNodes ops)) :
    (∀ key n a, (Membership.after ops).ring.get key = some (n, a) ↔
      PlainOwner (Membership.after ops).latest key n a) ∧
    ∀ ops', Along ringStep AddsNew .init ops' → DistinctTokens (addedNodes ops') →
      (Membership.after ops').latest = (Membership.after ops).latest →
      ∀ key, (Membership.after ops').ring.get key = (Membership.after ops).ring.get key := by
  have hmirrors : ∀ ops, Along ringStep AddsNew .init ops → DistinctTokens (addedNodes ops) →
      Mirrors (addedNodes ops) (.after ops) := fun ops hnew hdistinct =>
    mirrors_run hdistinct (mirrors_init _) (fun _ hn => hn) hnew
  refine ⟨(hmirrors ops hnew hdistinct).get_iff, ?_⟩
  intro ops' hnew' hdistinct' hlatest key
  apply Option.ext
  intro answer
  obtain ⟨n, a⟩ := answer
  rw [(hmirrors ops hnew hdistinct).get_iff, (hmirrors ops' hnew' hdistinct').get_iff, hlatest]

/-- Three nodes, of which one leaves and comes back under a new address. -/
theorem get_iff_plainOwner_comeback :
    let ops := [RingOp.add "node1" "node1:9001", .add "node2" "node2:9002",
      .add "node3" "node3:9003", .remove "node2", .add "node2" "node2:9102"]
    ∀ key n a, (Membership.after ops).ring.get key = some (n, a) ↔
      PlainOwner (Membership.after ops).latest key n a := by
  intro ops
  have hdistinct : DistinctTokens (addedNodes ops) :=
    List.Nodup.of_map UInt32.toNat (by decide +kernel)
  exact (get_iff_plainOwner ops (by decide) hdistinct).1

/-! ## Rings filled in different orders -/

/-- A new ring to which nodes are added in order. -/
def ringOf (pairs : List (String × String)) : Ring :=
  pairs.foldl (fun r p => r.add p.1 p.2) newRing

/-- Some node of the list owns each token, and it is one of those that have it. -/
structure Filled (pairs : List (String × String)) (r : Ring) : Prop where
  sorted : r.sortedTokens.Pairwise (· ≤ ·)
  virtual : r.virtualNodes = defaultVirtualNodes
  listed : ∀ t, t ∈ r.sortedTokens ↔
    ∃ p ∈ pairs, t ∈ virtualTokens p.1 defaultVirtualNodes
  owned : ∀ t ∈ r.sortedTokens, ∃ p ∈ pairs,
    t ∈ virtualTokens p.1 defaultVirtualNodes ∧ r.tokens.lookup t = some p.1
  addressed : (pairs.map Prod.fst).Nodup → ∀ p ∈ pairs, r.nodeAddrs.lookup p.1 = some p.2

theorem ringOf_concat (pairs : List (String × String)) (p : String × String) :
    ringOf (pairs ++ [p]) = (ringOf pairs).add p.1 p.2 :=
  List.foldl_concat _ _ _ _

/-- Adding a pair keeps the ring filled. -/
theorem filled_add {pairs : List (String × String)} {r : Ring} (h : Filled pairs r)
    (p : String × String) : Filled (pairs ++ [p]) (r.add p.1 p.2) := by
  have hperm := add_perm r p.1 p.2
  rw [h.virtual] at hperm
  have hlookup := lookup_add r p.1 p.2
  rw [h.virtual] at hlookup
  refine ⟨sorted_add _ _ _, (virtualNodes_add _ _ _).trans h.virtual, ?_, ?_, ?_⟩
  · intro t
    rw [hperm.mem_iff, List.mem_append, h.listed]
    simp only [List.mem_append, List.mem_singleton, or_and_right, exists_or, exists_eq_left]
  · intro t ht
    by_cases hnew : t ∈ virtualTokens p.1 defaultVirtualNodes
    · exact ⟨p, by simp, hnew, (hlookup t).trans (if_pos hnew)⟩
    · have hold := (List.mem_append.mp (hperm.mem_iff.mp ht)).resolve_right hnew
      obtain ⟨q, hq, htq, howner⟩ := h.owned t hold
      exact ⟨q, List.mem_append_left _ hq, htq, (hlookup t).trans ((if_neg hnew).trans howner)⟩
  · intro hids q hq
    rw [nodeAddrs_add]
    rw [List.map_append, List.nodup_append] at hids
    rcases List.mem_append.mp hq with hq | hq
    · have hne : q.1 ≠ p.1 := hids.2.2 q.1 (List.mem_map_of_mem hq) p.1 (by simp)
      rw [AList.lookup_insert_ne hne]
      exact h.addressed hids.1 q hq
    · rw [List.mem_singleton.mp hq, AList.lookup_insert]

/-- A ring that is built from pairs is filled by them. -/
theorem filled_ringOf (pairs : List (String × String)) : Filled pairs (ringOf pairs) := by
  induction pairs using List.reverseRecOn with
  | nil =>
      refine ⟨List.Pairwise.nil, rfl, ?_, ?_, ?_⟩
      · intro t
        simp [ringOf, newRing]
      · intro t ht
        cases ht
      · intro _ p hp
        cases hp
  | append_singleton pairs p ih =>
      rw [ringOf_concat]
      exact filled_add ih p

/-- No two of these nodes have a token in common. -/
def DisjointTokens (pairs : List (String × String)) : Prop :=
  ∀ p ∈ pairs, ∀ q ∈ pairs, p.1 ≠ q.1 →
    ∀ t ∈ virtualTokens p.1 defaultVirtualNodes, t ∉ virtualTokens q.1 defaultVirtualNodes

/-- Without common tokens, the answers depend on the set of nodes only. -/
theorem Filled.get_iff {pairs : List (String × String)} {r : Ring} (h : Filled pairs r)
    (hids : (pairs.map Prod.fst).Nodup) (hdisjoint : DisjointTokens pairs) (key n a : String) :
    r.get key = some (n, a) ↔ (n, a) ∈ pairs ∧ ∃ t ∈ virtualTokens n defaultVirtualNodes,
      IsSuccessor {t | ∃ p ∈ pairs, t ∈ virtualTokens p.1 defaultVirtualNodes}
        (hashKey key) t := by
  have hset : {u | u ∈ r.sortedTokens} =
      {t | ∃ p ∈ pairs, t ∈ virtualTokens p.1 defaultVirtualNodes} := by
    ext t
    exact h.listed t
  rw [get_eq_some_iff _ h.sorted, hset]
  constructor
  · intro hget
    obtain ⟨t, ht, howner, ha⟩ := hget
    obtain ⟨p, hp, htp, hp'⟩ := h.owned t ((h.listed t).mpr ht.mem)
    rw [owner_of_lookup hp'] at howner
    subst howner
    rw [GoMap.getZero, h.addressed hids p hp, Option.getD_some] at ha
    subst ha
    exact ⟨hp, t, htp, ht⟩
  · intro hboth
    obtain ⟨hmem, t, htn, ht⟩ := hboth
    obtain ⟨p, hp, htp, hp'⟩ := h.owned t ((h.listed t).mpr ht.mem)
    refine ⟨t, ht, ?_, ?_⟩
    · rw [owner_of_lookup hp']
      by_contra hne
      exact hdisjoint p hp (n, a) hmem hne t htp htn
    · rw [GoMap.getZero, h.addressed hids (n, a) hmem, Option.getD_some]

/-- The last node of an order answers at each of its tokens. -/
theorem get_ringOf_last (pairs : List (String × String)) (p : String × String) {i : Nat}
    (hi : i < defaultVirtualNodes) (key : String) (hkey : hashKey key = virtualToken p.1 i) :
    (ringOf (pairs ++ [p])).get key = some p := by
  have hvirtual := (filled_ringOf pairs).virtual
  have hget := get_add_hit (ringOf pairs) p.1 p.2 (i := i) (by rw [hvirtual]; exact hi)
  rw [ringOf_concat, get_eq _ (sorted_add _ _ _), hkey]
  rw [get_eq _ (sorted_add _ _ _)] at hget
  exact hget

/-- **Routing agreement.**  Rings filled with the same nodes in any two orders route
every key alike exactly if no two of the nodes have a token in common. -/
theorem agreement_iff (pairs : List (String × String)) (hids : (pairs.map Prod.fst).Nodup) :
    (∀ l₁ l₂ : List (String × String), l₁.Perm pairs → l₂.Perm pairs →
      ∀ key, (ringOf l₁).get key = (ringOf l₂).get key) ↔ DisjointTokens pairs := by
  constructor
  · intro hagree p hp q hq hne t htp htq
    obtain ⟨i, hi, rfl⟩ := List.mem_map.mp htp
    obtain ⟨j, hj, hij⟩ := List.mem_map.mp htq
    rw [List.mem_range] at hi hj
    have hlast : ∀ p ∈ pairs, (pairs.erase p ++ [p]).Perm pairs := fun p hp =>
      (List.perm_append_singleton p _).trans (List.perm_cons_erase hp).symm
    -- The key that hashes to the common token goes to whichever node came last.
    have hroute := hagree _ _ (hlast p hp) (hlast q hq) (p.1 ++ "-" ++ toString i)
    have hp' := get_ringOf_last (pairs.erase p) p hi (p.1 ++ "-" ++ toString i) rfl
    have hq' := get_ringOf_last (pairs.erase q) q hj (p.1 ++ "-" ++ toString i) hij.symm
    rw [hroute, hq'] at hp'
    exact hne (congrArg Prod.fst (Option.some.inj hp')).symm
  · intro hdisjoint l₁ l₂ hl₁ hl₂ key
    have hget : ∀ l : List (String × String), l.Perm pairs → ∀ n a,
        (ringOf l).get key = some (n, a) ↔ (n, a) ∈ pairs ∧
          ∃ t ∈ virtualTokens n defaultVirtualNodes,
            IsSuccessor {t | ∃ p ∈ pairs, t ∈ virtualTokens p.1 defaultVirtualNodes}
              (hashKey key) t := by
      intro l hl n a
      have hdisjoint' : DisjointTokens l := fun p hp q hq =>
        hdisjoint p (hl.mem_iff.mp hp) q (hl.mem_iff.mp hq)
      rw [(filled_ringOf l).get_iff ((hl.map _).nodup_iff.mpr hids) hdisjoint']
      simp only [hl.mem_iff]
    apply Option.ext
    intro answer
    obtain ⟨n, a⟩ := answer
    rw [hget l₁ hl₁, hget l₂ hl₂]

/-- Two nodes with a token in common. -/
def collidingNodes : List (String × String) :=
  [("node941", "node941:9001"), ("node1862", "node1862:9002")]

/-- Two nodes whose tokens collide. -/
theorem collidingNodes_token : virtualToken "node941" 9 = virtualToken "node1862" 64 := by
  decide +kernel

/-- The two nodes do not agree: each takes the common token for the one it added last. -/
theorem agreement_iff_collidingNodes :
    ¬ ∀ l₁ l₂ : List (String × String), l₁.Perm collidingNodes → l₂.Perm collidingNodes →
      ∀ key, (ringOf l₁).get key = (ringOf l₂).get key := by
  rw [agreement_iff collidingNodes (by decide)]
  intro hdisjoint
  refine hdisjoint ("node941", "node941:9001") (by decide) ("node1862", "node1862:9002")
    (by decide) (by decide) (virtualToken "node941" 9) ?_ ?_
  · exact List.mem_map_of_mem (by decide)
  · rw [collidingNodes_token]
    exact List.mem_map_of_mem (by decide)

/-- The key that hashes to the common token, on a ring filled in one order and in the
other. -/
theorem routes_apart_collidingNodes :
    (ringOf collidingNodes).get "node941-9" = some ("node1862", "node1862:9002") ∧
      (ringOf collidingNodes.reverse).get "node941-9" = some ("node941", "node941:9001") := by
  have hkey : "node941-9" = "node941" ++ "-" ++ toString 9 := by decide
  have hhash : hashKey "node941-9" = virtualToken "node941" 9 := by
    rw [hkey]
    rfl
  constructor
  · exact get_ringOf_last [("node941", "node941:9001")] ("node1862", "node1862:9002")
      (i := 64) (by decide) _ (hhash.trans collidingNodes_token)
  · exact get_ringOf_last [("node1862", "node1862:9002")] ("node941", "node941:9001")
      (i := 9) (by decide) _ hhash

end Cluster
