import DistributedCaching.HashRing
import DistributedCaching.TransitionRuns

/-!
# Integrity of the ring

A ring is driven by calls of `Add` and `Remove` next to a plain registry that
records the latest address of every registered node.  The ring is intact when
every key is answered exactly while some node is registered, and then by a
registered node with its latest address.

On every reachable ring this comes down to the slice of tokens: none of its
tokens is a ghost, that is, without an owner (`intact_iff`).  `Add` keeps a ring
intact.  `Remove` does not always: of a token that the slice lists twice it
leaves one occurrence behind as a ghost, and it can take the last token with it
while another node is still registered.  `integrity_iff` says that these are the
only ways to break a ring.
-/

namespace Cluster

open Go SortedSearch TransitionRuns

/-- A call on the ring. -/
inductive RingOp
  | add (nodeID addr : String)
  | remove (nodeID : String)
  deriving DecidableEq, Repr

/-- A ring, and the latest address of every registered node. -/
structure Membership where
  ring : Ring
  latest : String → Option String

def Membership.init : Membership where
  ring := newRing
  latest := fun _ => none

def Membership.call (s : Membership) : RingOp → Membership
  | .add nodeID addr =>
      { ring := s.ring.add nodeID addr
        latest := Function.update s.latest nodeID (some addr) }
  | .remove nodeID =>
      { ring := s.ring.remove nodeID
        latest := Function.update s.latest nodeID none }

/-- Every call succeeds. -/
def ringStep (s : Membership) (op : RingOp) : Option Membership := some (s.call op)

/-- **A ring is intact** if it answers every key exactly while some node is
registered, with a registered node and the latest address of that node. -/
def Intact (s : Membership) : Prop :=
  ∀ key, ((s.ring.get key).isSome ↔ s.ring.nodes ≠ []) ∧
    ∀ nodeID addr, s.ring.get key = some (nodeID, addr) →
      nodeID ∈ s.ring.nodes ∧ s.latest nodeID = some addr

/-- What holds of every reachable ring, intact or not. -/
structure WellPlaced (s : Membership) : Prop where
  sorted : s.ring.sortedTokens.Pairwise (· ≤ ·)
  /-- Every token with an owner is listed. -/
  listed : ∀ t n, s.ring.tokens.lookup t = some n → t ∈ s.ring.sortedTokens
  /-- Every owner is registered. -/
  owned : ∀ t n, s.ring.tokens.lookup t = some n → n ∈ s.ring.nodeAddrs
  /-- Every listed token is the position of some key. -/
  hit : ∀ t ∈ s.ring.sortedTokens, ∃ key, hashKey key = t
  virtual : s.ring.virtualNodes = defaultVirtualNodes
  latest : ∀ n, s.ring.nodeAddrs.lookup n = s.latest n

/-- An empty ring is well placed. -/
theorem wellPlaced_init : WellPlaced Membership.init where
  sorted := List.Pairwise.nil
  listed := fun t n h => by simp [Membership.init, newRing] at h
  owned := fun t n h => by simp [Membership.init, newRing] at h
  hit := fun t ht => by cases ht
  virtual := rfl
  latest := fun n => by simp [Membership.init, newRing]

variable {s s' : Membership}

/-- Adding a node keeps the ring well placed. -/
theorem wellPlaced_add (h : WellPlaced s) (nodeID addr : String) :
    WellPlaced (s.call (.add nodeID addr)) where
  sorted := sorted_add _ _ _
  listed := by
    intro t n hn
    apply (add_perm s.ring nodeID addr).mem_iff.mpr
    have hn' := (lookup_add s.ring nodeID addr t).symm.trans hn
    split at hn'
    · rename_i ht
      exact List.mem_append_right _ ht
    · exact List.mem_append_left _ (h.listed t n hn')
  owned := by
    intro t n hn
    have hn' := (lookup_add s.ring nodeID addr t).symm.trans hn
    show n ∈ (s.ring.add nodeID addr).nodeAddrs
    rw [nodeAddrs_add, AList.mem_insert]
    split at hn'
    · cases hn'
      exact Or.inl rfl
    · exact Or.inr (h.owned t n hn')
  hit := by
    intro t ht
    have ht' := (add_perm s.ring nodeID addr).mem_iff.mp ht
    rcases List.mem_append.mp ht' with ht' | ht'
    · exact h.hit t ht'
    · obtain ⟨i, _, hi⟩ := List.mem_map.mp ht'
      exact ⟨_, hi⟩
  virtual := (virtualNodes_add _ _ _).trans h.virtual
  latest := by
    intro n
    show (s.ring.add nodeID addr).nodeAddrs.lookup n = Function.update s.latest nodeID _ n
    rw [nodeAddrs_add]
    by_cases hn : n = nodeID
    · subst hn
      simp
    · rw [AList.lookup_insert_ne hn, Function.update_of_ne hn]
      exact h.latest n

/-- A token still owned after a removal was owned by the same node before, which
is not the removed one. -/
theorem lookup_of_remove (h : WellPlaced s) {nodeID n : String} {t : UInt32}
    (hn : (s.ring.remove nodeID).tokens.lookup t = some n) :
    s.ring.tokens.lookup t = some n ∧ n ≠ nodeID := by
  rw [lookup_remove] at hn
  split at hn
  · cases hn
  · rename_i hnot
    refine ⟨hn, ?_⟩
    intro heq
    subst heq
    exact hnot ⟨h.listed t n hn, owner_of_lookup hn⟩

/-- Removing a node keeps the ring well placed. -/
theorem wellPlaced_remove (h : WellPlaced s) (nodeID : String) :
    WellPlaced (s.call (.remove nodeID)) where
  sorted := sorted_remove _ _ h.sorted
  listed := by
    intro t n hn
    obtain ⟨hold, hne⟩ := lookup_of_remove h hn
    have howner : s.ring.owner t ≠ nodeID := by
      rw [owner_of_lookup hold]
      exact hne
    apply List.count_pos_iff.mp
    show 0 < (s.ring.remove nodeID).sortedTokens.count t
    rw [remove_count, if_neg howner]
    exact List.count_pos_iff.mpr (h.listed t n hold)
  owned := by
    intro t n hn
    obtain ⟨hold, hne⟩ := lookup_of_remove h hn
    exact AList.mem_erase.mpr ⟨hne, h.owned t n hold⟩
  hit := fun t ht => h.hit t ((remove_sublist s.ring nodeID).subset ht)
  virtual := h.virtual
  latest := by
    intro n
    show (s.ring.nodeAddrs.erase nodeID).lookup n = Function.update s.latest nodeID none n
    by_cases hn : n = nodeID
    · subst hn
      simp
    · rw [AList.lookup_erase_ne hn, Function.update_of_ne hn]
      exact h.latest n

/-- **Every call keeps the ring well placed.** -/
theorem wellPlaced_step {op : RingOp} (h : WellPlaced s) (hstep : ringStep s op = some s') :
    WellPlaced s' := by
  cases hstep
  cases op with
  | add nodeID addr => exact wellPlaced_add h nodeID addr
  | remove nodeID => exact wellPlaced_remove h nodeID

/-! ## Ghost tokens -/

theorem mem_nodes {r : Ring} {n : String} : n ∈ r.nodes ↔ n ∈ r.nodeAddrs :=
  AList.mem_keys.symm

/-- A listed token answers for its owner at the key that hits it. -/
theorem get_of_listed (h : WellPlaced s) {t : UInt32} (ht : t ∈ s.ring.sortedTokens) :
    ∃ key, s.ring.get key =
      some (s.ring.owner t, s.ring.nodeAddrs.getZero (s.ring.owner t)) := by
  obtain ⟨key, rfl⟩ := h.hit t ht
  exact ⟨key, by rw [get_eq _ h.sorted, clockwise_self h.sorted ht, Option.map_some]⟩

/-- **Intact rings have no ghosts.**  A reachable ring is intact exactly when
every listed token has an owner, or the empty id that a token without owner
answers with is registered, and tokens are listed while nodes are registered. -/
theorem intact_iff (h : WellPlaced s) :
    Intact s ↔
      (∀ t ∈ s.ring.sortedTokens, t ∈ s.ring.tokens ∨ "" ∈ s.ring.nodes) ∧
      (s.ring.nodes ≠ [] → s.ring.sortedTokens ≠ []) := by
  have hanswer : ∀ key, (s.ring.get key).isSome ↔ s.ring.sortedTokens ≠ [] := by
    intro key
    rw [get_eq _ h.sorted, Option.isSome_map, clockwise_isSome]
  constructor
  · intro hintact
    constructor
    · intro t ht
      by_cases howned : t ∈ s.ring.tokens
      · exact Or.inl howned
      · obtain ⟨key, hkey⟩ := get_of_listed h ht
        rw [owner_of_notMem howned] at hkey
        exact Or.inr ((hintact key).2 _ _ hkey).1
    · intro hnodes
      exact (hanswer "").mp ((hintact "").1.mpr hnodes)
  · intro hboth key
    obtain ⟨hghosts, hlisted⟩ := hboth
    have hright : ∀ nodeID addr, s.ring.get key = some (nodeID, addr) →
        nodeID ∈ s.ring.nodes ∧ s.latest nodeID = some addr := by
      intro nodeID addr hget
      rw [get_eq _ h.sorted] at hget
      obtain ⟨t, ht, heq⟩ := Option.map_eq_some_iff.mp hget
      cases heq
      have hreg : s.ring.owner t ∈ s.ring.nodeAddrs := by
        by_cases howned : t ∈ s.ring.tokens
        · obtain ⟨n, hn⟩ := GoMap.mem_iff_lookup.mp howned
          rw [owner_of_lookup hn]
          exact h.owned t n hn
        · rw [owner_of_notMem howned]
          exact mem_nodes.mp ((hghosts t (clockwise_mem ht)).resolve_left howned)
      obtain ⟨a, ha⟩ := GoMap.mem_iff_lookup.mp hreg
      refine ⟨mem_nodes.mpr hreg, ?_⟩
      rw [← h.latest, ha, GoMap.getZero, ha, Option.getD_some]
    refine ⟨?_, hright⟩
    rw [hanswer]
    refine ⟨?_, hlisted⟩
    intro hne
    obtain ⟨⟨nodeID, addr⟩, hget⟩ := Option.isSome_iff_exists.mp ((hanswer key).mpr hne)
    exact List.ne_nil_of_mem (hright _ _ hget).1

/-! ## The steps -/

/-- **When a call keeps the ring intact.**  A removal must find every token of
the node listed once (unless the empty id is involved), and must leave a token
if it leaves a node. -/
def KeepsIntact (s : Membership) : RingOp → Prop
  | .add _ _ => True
  | .remove nodeID =>
      (nodeID = "" ∨ "" ∈ s.ring.nodes ∨
        ∀ t ∈ s.ring.sortedTokens, s.ring.owner t = nodeID →
          s.ring.sortedTokens.count t = 1) ∧
      ((∃ n ∈ s.ring.nodes, n ≠ nodeID) →
        ∃ t ∈ s.ring.sortedTokens, s.ring.owner t ≠ nodeID ∨
          nodeID ≠ "" ∧ 2 ≤ s.ring.sortedTokens.count t)

/-- Adding a node keeps an intact ring intact. -/
theorem intact_add (h : WellPlaced s) (hintact : Intact s) (nodeID addr : String) :
    Intact (s.call (.add nodeID addr)) := by
  have hperm := add_perm s.ring nodeID addr
  have hnodes : ∀ n ∈ s.ring.nodes, n ∈ (s.ring.add nodeID addr).nodes := by
    intro n hn
    rw [mem_nodes, nodeAddrs_add, AList.mem_insert]
    exact Or.inr (mem_nodes.mp hn)
  rw [intact_iff (wellPlaced_add h nodeID addr)]
  constructor
  · intro t ht
    by_cases hnew : t ∈ virtualTokens nodeID s.ring.virtualNodes
    · refine Or.inl (GoMap.mem_iff_lookup.mpr ⟨nodeID, ?_⟩)
      exact (lookup_add s.ring nodeID addr t).trans (if_pos hnew)
    · have hold : t ∈ s.ring.sortedTokens :=
        (List.mem_append.mp (hperm.mem_iff.mp ht)).resolve_right hnew
      rcases ((intact_iff h).mp hintact).1 t hold with howned | hempty
      · obtain ⟨n, hn⟩ := GoMap.mem_iff_lookup.mp howned
        refine Or.inl (GoMap.mem_iff_lookup.mpr ⟨n, ?_⟩)
        exact (lookup_add s.ring nodeID addr t).trans ((if_neg hnew).trans hn)
      · exact Or.inr (hnodes _ hempty)
  · intro _
    have hfirst : virtualToken nodeID 0 ∈ virtualTokens nodeID s.ring.virtualNodes := by
      rw [h.virtual]
      exact List.mem_map_of_mem (by decide)
    exact List.ne_nil_of_mem (hperm.mem_iff.mpr (List.mem_append_right _ hfirst))

/-- Which tokens a removal leaves in the slice. -/
theorem mem_remove {r : Ring} {nodeID : String} {t : UInt32} :
    t ∈ (r.remove nodeID).sortedTokens ↔
      t ∈ r.sortedTokens ∧
        (r.owner t ≠ nodeID ∨ nodeID ≠ "" ∧ 2 ≤ r.sortedTokens.count t) := by
  rw [← List.count_pos_iff, ← List.count_pos_iff, remove_count]
  by_cases howner : r.owner t = nodeID
  · by_cases hempty : nodeID = ""
    · simp [howner, hempty]
    · simp only [howner, hempty, if_true, if_false, ne_eq, not_true_eq_false, false_or,
        not_false_eq_true, true_and]
      omega
  · simp [howner]

/-- **A removal keeps the ring intact exactly under its condition.** -/
theorem intact_remove_iff (h : WellPlaced s) (hintact : Intact s) (nodeID : String) :
    Intact (s.call (.remove nodeID)) ↔ KeepsIntact s (.remove nodeID) := by
  rw [intact_iff (wellPlaced_remove h nodeID)]
  have hnodes : ∀ n, n ∈ (s.ring.remove nodeID).nodes ↔ n ≠ nodeID ∧ n ∈ s.ring.nodes := by
    intro n
    rw [mem_nodes, mem_nodes]
    exact AList.mem_erase
  have hnonempty : ∀ {α : Type} (l : List α), l ≠ [] ↔ ∃ a, a ∈ l := fun l =>
    ⟨List.exists_mem_of_ne_nil l, fun ⟨_, ha⟩ => List.ne_nil_of_mem ha⟩
  refine and_congr ?_ ?_
  · constructor
    · intro hghosts
      by_contra hnot
      push Not at hnot
      obtain ⟨hne, hempty, t, ht, howner, hcount⟩ := hnot
      have hpos := List.count_pos_iff.mpr ht
      -- A second occurrence of a token of the node stays, without an owner.
      have hstays : t ∈ (s.ring.remove nodeID).sortedTokens :=
        mem_remove.mpr ⟨ht, Or.inr ⟨hne, by omega⟩⟩
      rcases hghosts t hstays with howned | hreg
      · obtain ⟨n, hn⟩ := GoMap.mem_iff_lookup.mp howned
        obtain ⟨hold, hnn⟩ := lookup_of_remove h hn
        exact hnn ((owner_of_lookup hold).symm.trans howner)
      · exact hempty ((hnodes "").mp hreg).2
    · intro hsafe t ht
      obtain ⟨hlisted, hkept⟩ := mem_remove.mp ht
      by_cases hreg : "" ∈ (s.ring.remove nodeID).nodes
      · exact Or.inr hreg
      · refine Or.inl ?_
        -- With the empty id not registered afterwards, the token keeps an owner.
        have howner : s.ring.owner t ≠ nodeID := by
          rcases hkept with howner | ⟨hne, hcount⟩
          · exact howner
          · rcases hsafe with hempty | hempty | honce
            · exact absurd hempty hne
            · exact absurd ((hnodes "").mpr ⟨Ne.symm hne, hempty⟩) hreg
            · intro howner
              have := honce t hlisted howner
              omega
        have howned : t ∈ s.ring.tokens := by
          rcases ((intact_iff h).mp hintact).1 t hlisted with howned | hempty
          · exact howned
          · by_contra hghost
            rw [owner_of_notMem hghost] at howner
            exact hreg ((hnodes "").mpr ⟨howner, hempty⟩)
        obtain ⟨n, hn⟩ := GoMap.mem_iff_lookup.mp howned
        refine GoMap.mem_iff_lookup.mpr ⟨n, ?_⟩
        rw [← hn]
        exact (lookup_remove _ _ _).trans (if_neg fun hboth => howner hboth.2)
  · have hsome : (s.ring.remove nodeID).nodes ≠ [] ↔ ∃ n ∈ s.ring.nodes, n ≠ nodeID := by
      rw [hnonempty]
      constructor
      · intro hboth
        obtain ⟨n, hn⟩ := hboth
        exact ⟨n, ((hnodes n).mp hn).2, ((hnodes n).mp hn).1⟩
      · intro hboth
        obtain ⟨n, hn, hne⟩ := hboth
        exact ⟨n, (hnodes n).mpr ⟨hne, hn⟩⟩
    have htokens : (s.ring.remove nodeID).sortedTokens ≠ [] ↔
        ∃ t ∈ s.ring.sortedTokens, s.ring.owner t ≠ nodeID ∨
          nodeID ≠ "" ∧ 2 ≤ s.ring.sortedTokens.count t := by
      rw [hnonempty]
      exact exists_congr fun t => mem_remove
    exact imp_congr hsome htokens

/-- **Ring integrity.**  Throughout any sequence of calls on a new ring the ring
is intact exactly when every removal meets its condition. -/
theorem integrity_iff (ops : List RingOp) :
    Throughout ringStep Intact Membership.init ops ↔
      Along ringStep KeepsIntact Membership.init ops := by
  refine throughout_iff_along (fun s op s' => wellPlaced_step) ?_ wellPlaced_init ?_
    (run_total (fun _ _ => rfl) Membership.init ops)
  · intro s op s' h hintact hstep
    cases hstep
    cases op with
    | add nodeID addr => exact ⟨fun _ => trivial, fun _ => intact_add h hintact nodeID addr⟩
    | remove nodeID => exact intact_remove_iff h hintact nodeID
  · rw [intact_iff wellPlaced_init]
    constructor
    · intro t ht
      cases ht
    · intro hnodes
      exact absurd rfl hnodes

/-- A node that is added twice and then removed leaves its tokens behind: no node
is registered, and still every key is answered, by the empty id. -/
theorem ghosts_after_readd {nodeID : String} (hne : nodeID ≠ "") (addr addr' : String) :
    let s := [.add nodeID addr, .add nodeID addr', .remove nodeID].foldl
      Membership.call Membership.init
    s.ring.nodes = [] ∧ ∀ key, s.ring.get key = some ("", "") := by
  intro s
  have h₁ := wellPlaced_add wellPlaced_init nodeID addr
  have h₂ := wellPlaced_add h₁ nodeID addr'
  have h₃ : WellPlaced s := wellPlaced_remove h₂ nodeID
  have hnodes : ∀ n, n ∉ s.ring.nodeAddrs := by
    intro n hn
    obtain ⟨a, ha⟩ := GoMap.mem_iff_lookup.mp hn
    rw [h₃.latest n] at ha
    simp [s, Membership.call, Membership.init] at ha
  have howner : ∀ t, s.ring.owner t = "" := by
    intro t
    refine owner_of_notMem fun ht => ?_
    obtain ⟨n, hn⟩ := GoMap.mem_iff_lookup.mp ht
    exact hnodes n (h₃.owned t n hn)
  -- The first virtual token is listed twice before the removal.
  have hlisted : virtualToken nodeID 0 ∈ s.ring.sortedTokens := by
    have hfirst : virtualToken nodeID 0 ∈ virtualTokens nodeID defaultVirtualNodes :=
      List.mem_map_of_mem (by decide)
    have hpos := List.count_pos_iff.mpr hfirst
    have hperm₁ := (add_perm newRing nodeID addr).count_eq (virtualToken nodeID 0)
    have hperm₂ := (add_perm (newRing.add nodeID addr) nodeID addr').count_eq
      (virtualToken nodeID 0)
    rw [virtualNodes_add] at hperm₂
    simp only [List.count_append, newRing] at hperm₁ hperm₂
    refine mem_remove.mpr ⟨?_, Or.inr ⟨hne, ?_⟩⟩
    · apply List.count_pos_iff.mp
      show 0 < ((newRing.add nodeID addr).add nodeID addr').sortedTokens.count _
      simp only [newRing] at hperm₁ hperm₂ ⊢
      omega
    · show 2 ≤ ((newRing.add nodeID addr).add nodeID addr').sortedTokens.count _
      simp only [newRing] at hperm₁ hperm₂ ⊢
      omega
  constructor
  · exact List.eq_nil_iff_forall_not_mem.mpr fun n hn => hnodes n (mem_nodes.mp hn)
  · intro key
    obtain ⟨t, ht⟩ := Option.isSome_iff_exists.mp
      (clockwise_isSome (x := hashKey key).mpr (List.ne_nil_of_mem hlisted))
    rw [get_eq _ h₃.sorted, ht, Option.map_some, howner, GoMap.getZero,
      AList.lookup_eq_none.mpr (hnodes ""), Option.getD_none]
    rfl

/-- A node that is added twice and then removed leaves positions without an owner. -/
theorem ghosts_of_node1 :
    let s := [.add "node1" "node1:9001", .add "node1" "node1:9001", .remove "node1"].foldl
      Membership.call Membership.init
    s.ring.nodes = [] ∧ s.ring.get "product:1" = some ("", "") ∧ ¬ Intact s := by
  have hne : ("node1" : String) ≠ "" := by decide
  obtain ⟨hnodes, hget⟩ := ghosts_after_readd hne
    "node1:9001" "node1:9001"
  refine ⟨hnodes, hget _, ?_⟩
  intro hintact
  have hreg := ((hintact "product:1").2 _ _ (hget "product:1")).1
  rw [hnodes] at hreg
  cases hreg

end Cluster
