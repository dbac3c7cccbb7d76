import DistributedCaching.GoText
import DistributedCaching.LeaderWiring

/-!
# The peers of a cache node

`main` reads the addresses of the peers from a flag, and registers each of them in the ring
and in the map of health trackers under an id.  The id is not configured: it is the text
before the first colon of the address, or the whole address if that text is empty.  Peers
whose addresses agree up to the first colon (two ports of one host, two bracketed addresses)
get one id, and the later one replaces the earlier one wherever ids are keys.

`peers_registered` says that every peer has its place exactly if no two addresses agree up
to the first colon, and what is lost if two do.
-/

namespace Cluster

open Go Raft

/-- The id that `parsePeers` gives to an address. -/
def peerID (p : Text) : Text :=
  let colonIdx := index p ':'
  if 0 < colonIdx then p.take colonIdx.toNat else p

def peerOf (p : Text) : PeerConfig := ⟨String.ofList (peerID p), String.ofList p⟩

/-- One round of the loop of `parsePeers`. -/
def appendPeer (peers : List PeerConfig) (part : Text) : List PeerConfig :=
  let p := trimSpace part
  if p = [] then peers else peers ++ [peerOf p]

/-- `parsePeers`. -/
def parsePeers (peersFlag : String) : List PeerConfig :=
  if peersFlag = "" then [] else (split peersFlag.toList ',').foldl appendPeer []

/-- The addresses in the flag: its parts without spaces around them, if there is something
left. -/
def peerParts (peersFlag : String) : List Text :=
  ((split peersFlag.toList ',').map trimSpace).filter (· ≠ [])

/-- An address up to its first colon. -/
def beforeColon (p : Text) : Text := p.takeWhile (· != ':')

/-- No two addresses agree up to the first colon, unless it is their first character. -/
def HostsDiffer (parts : List Text) : Prop :=
  parts.Pairwise fun p q => beforeColon p = beforeColon q → beforeColon p = []

instance (parts : List Text) : Decidable (HostsDiffer parts) :=
  inferInstanceAs (Decidable (parts.Pairwise _))

/-! ## The ids -/

/-- The loop appends a peer for every part that is not blank. -/
theorem foldl_appendPeer (parts : List Text) (peers : List PeerConfig) :
    parts.foldl appendPeer peers =
      peers ++ ((parts.map trimSpace).filter (· ≠ [])).map peerOf := by
  induction parts generalizing peers with
  | nil => simp
  | cons part parts ih =>
      rw [List.foldl_cons, ih, appendPeer]
      by_cases hempty : trimSpace part = []
      · simp [hempty]
      · simp [hempty]

/-- **One peer for each address**, in their order. -/
theorem parsePeers_eq (peersFlag : String) :
    parsePeers peersFlag = (peerParts peersFlag).map peerOf := by
  unfold parsePeers
  split
  · rename_i hempty
    rw [hempty]
    decide
  · rw [foldl_appendPeer, List.nil_append, peerParts]

/-- The id of a peer is what stands before the colon, and the whole part if nothing does. -/
theorem peerID_eq (p : Text) :
    peerID p = if beforeColon p = [] then p else beforeColon p := by
  have htake := take_idxOf p ':'
  unfold peerID index beforeColon
  dsimp only
  rw [← htake]
  by_cases hcolon : ':' ∈ p
  · have hlt : p.idxOf ':' < p.length := List.idxOf_lt_length_iff.mpr hcolon
    rw [if_pos hcolon, Int.toNat_natCast]
    by_cases hzero : p.idxOf ':' = 0
    · simp [hzero]
    · have hne : p.take (p.idxOf ':') ≠ [] := by
        intro hnil
        have hlen := congrArg List.length hnil
        rw [List.length_take, List.length_nil] at hlen
        omega
      rw [if_neg hne, if_pos (by omega)]
  · have hend : p.idxOf ':' = p.length := List.idxOf_eq_length_iff.mpr hcolon
    rw [if_neg hcolon, hend, List.take_length]
    simp

theorem colon_notMem_beforeColon (p : Text) : ':' ∉ beforeColon p := by
  intro hmem
  exact absurd (List.all_eq_true.mp List.all_takeWhile _ hmem) (by decide)

/-- An address that starts with a colon is not the beginning of another one. -/
theorem ne_beforeColon {p q : Text} (hp : beforeColon p = []) (hq : beforeColon q ≠ []) :
    p ≠ beforeColon q := by
  intro heq
  cases p with
  | nil => exact hq heq.symm
  | cons c p =>
      have hc : c = ':' := by
        by_contra hne
        rw [beforeColon, List.takeWhile_cons_of_pos (by simpa using hne)] at hp
        cases hp
      apply colon_notMem_beforeColon q
      rw [← heq, hc]
      exact List.mem_cons_self

/-- Two addresses get one id if they are the same, or agree up to the first colon. -/
theorem peerID_eq_iff {p q : Text} :
    peerID p = peerID q ↔ p = q ∨ beforeColon p = beforeColon q ∧ beforeColon p ≠ [] := by
  rw [peerID_eq, peerID_eq]
  by_cases hp : beforeColon p = []
  · by_cases hq : beforeColon q = []
    · simp [hp, hq]
    · rw [if_pos hp, if_neg hq]
      constructor
      · intro heq
        exact absurd heq (ne_beforeColon hp hq)
      · rintro (rfl | ⟨_, hne⟩)
        · exact absurd hp hq
        · exact absurd hp hne
  · by_cases hq : beforeColon q = []
    · rw [if_neg hp, if_pos hq]
      constructor
      · intro heq
        exact absurd heq.symm (ne_beforeColon hq hp)
      · rintro (rfl | ⟨hsame, hne⟩)
        · exact absurd hq hp
        · exact absurd (hsame.trans hq) hne
    · rw [if_neg hp, if_neg hq]
      constructor
      · intro heq
        exact Or.inr ⟨heq, hp⟩
      · rintro (rfl | ⟨hsame, _⟩)
        · rfl
        · exact hsame

/-- **The ids are distinct** exactly if no two hosts agree. -/
theorem nodup_ids_iff {parts : List Text} (hdistinct : parts.Nodup) :
    ((parts.map peerOf).map PeerConfig.id).Nodup ↔ HostsDiffer parts := by
  have hpair : ∀ p q : Text, (peerOf p).id ≠ (peerOf q).id ↔
      p ≠ q ∧ (beforeColon p = beforeColon q → beforeColon p = []) := by
    intro p q
    rw [peerOf, peerOf, Ne, String.ofList_inj, peerID_eq_iff]
    tauto
  rw [List.map_map, List.Nodup, List.pairwise_map]
  simp only [Function.comp_apply, hpair]
  rw [List.pairwise_and_iff]
  exact and_iff_right hdistinct

/-- Different parts are different addresses. -/
theorem nodup_addrs {parts : List Text} (hdistinct : parts.Nodup) :
    ((parts.map peerOf).map PeerConfig.addr).Nodup := by
  rw [List.map_map]
  exact hdistinct.map fun _ _ heq => String.ofList_inj.mp heq

/-! ## The ring and the health trackers -/

section Ring

variable {nodeID : String} {grpcPort : Int} {peers : List PeerConfig}

/-- Adding the peers files their addresses, the last one under each id. -/
theorem nodeAddrs_foldl_add (peers : List PeerConfig) (r : Ring) :
    (peers.foldl (fun ring p => ring.add p.id p.addr) r).nodeAddrs =
      peers.foldl (fun m p => m.insert p.id p.addr) r.nodeAddrs := by
  induction peers generalizing r with
  | nil => rfl
  | cons p peers ih => rw [List.foldl_cons, ih, nodeAddrs_add, List.foldl_cons]

/-- The addresses in the ring that `main` builds. -/
theorem nodeAddrs_mainRing (nodeID : String) (grpcPort : Int) (peers : List PeerConfig) :
    (mainRing nodeID grpcPort peers).nodeAddrs =
      peers.foldl (fun m p => m.insert p.id p.addr)
        ((∅ : GoMap String String).insert nodeID (nodeID ++ ":" ++ toString grpcPort)) := by
  rw [mainRing, nodeAddrs_foldl_add, nodeAddrs_add]
  rfl

/-- The address under an id is the one of a peer with this id, or of the node itself. -/
theorem nodeAddr_mainRing (nodeID : String) (grpcPort : Int) (peers : List PeerConfig)
    (k : String) :
    (∃ p ∈ peers, p.id = k ∧ (mainRing nodeID grpcPort peers).nodeAddr k = some p.addr) ∨
    ((∀ p ∈ peers, p.id ≠ k) ∧ (mainRing nodeID grpcPort peers).nodeAddr k =
      if k = nodeID then some (nodeID ++ ":" ++ toString grpcPort) else none) := by
  have hself : ((∅ : GoMap String String).insert nodeID
      (nodeID ++ ":" ++ toString grpcPort)).lookup k =
      if k = nodeID then some (nodeID ++ ":" ++ toString grpcPort) else none := by
    by_cases hk : k = nodeID
    · rw [if_pos hk, hk, AList.lookup_insert]
    · rw [if_neg hk, AList.lookup_insert_ne hk, AList.lookup_empty]
  rw [Ring.nodeAddr, nodeAddrs_mainRing, ← hself]
  exact GoMap.lookup_foldl_insert PeerConfig.id PeerConfig.addr peers _ k

/-- The nodes of a ring are those with an address. -/
theorem mem_nodes_iff {r : Ring} {k : String} : k ∈ r.nodes ↔ ∃ a, r.nodeAddr k = some a := by
  rw [Ring.nodes, ← AList.mem_keys, GoMap.mem_iff_lookup]
  rfl

/-- The ring of `main` has the node itself and its peers. -/
theorem mem_nodes_mainRing {k : String} :
    k ∈ (mainRing nodeID grpcPort peers).nodes ↔ k ∈ nodeID :: peers.map PeerConfig.id := by
  rw [mem_nodes_iff, List.mem_cons, List.mem_map]
  rcases nodeAddr_mainRing nodeID grpcPort peers k with ⟨p, hp, hid, haddr⟩ | ⟨hnone, haddr⟩
  · exact iff_of_true ⟨p.addr, haddr⟩ (Or.inr ⟨p, hp, hid⟩)
  · rw [haddr]
    by_cases hk : k = nodeID
    · exact iff_of_true ⟨_, if_pos hk⟩ (Or.inl hk)
    · rw [if_neg hk]
      refine iff_of_false (by simp) ?_
      rintro (hself | ⟨p, hp, hid⟩)
      · exact hk hself
      · exact hnone p hp hid

theorem nodes_nodup (r : Ring) : r.nodes.Nodup := r.nodeAddrs.keys_nodup

/-- Every node of the ring has a health tracker with its address. -/
theorem lookup_mainHealth {r : Ring} {k a : String} (h : r.nodeAddr k = some a) :
    (mainHealth r).lookup k = some (newNodeHealth k a) := by
  rcases GoMap.lookup_foldl_insert (fun id => id)
      (fun id => newNodeHealth id ((r.nodeAddr id).getD "")) r.nodes ∅ k with
    ⟨id, _, hid, hlookup⟩ | ⟨hnone, _⟩
  · rw [mainHealth, hlookup, hid, h, Option.getD_some]
  · exact absurd rfl (hnone k (mem_nodes_iff.mpr ⟨a, h⟩))

/-- **Distinct ids**: every peer has its node, its address and its health tracker. -/
theorem registered_of_nodup (hids : (peers.map PeerConfig.id).Nodup)
    (hself : ∀ p ∈ peers, p.id ≠ nodeID) :
    let ring := mainRing nodeID grpcPort peers
    (∀ p ∈ peers, ring.nodeAddr p.id = some p.addr ∧
      (mainHealth ring).lookup p.id = some (newNodeHealth p.id p.addr)) ∧
    ring.nodes.Perm (nodeID :: peers.map PeerConfig.id) := by
  intro ring
  constructor
  · intro p hp
    have haddr : ring.nodeAddr p.id = some p.addr := by
      rcases nodeAddr_mainRing nodeID grpcPort peers p.id with ⟨q, hq, hid, haddr⟩ | ⟨hnone, _⟩
      · rwa [List.inj_on_of_nodup_map hids hq hp hid] at haddr
      · exact absurd rfl (hnone p hp)
    exact ⟨haddr, lookup_mainHealth haddr⟩
  · have hnodup : (nodeID :: peers.map PeerConfig.id).Nodup := by
      refine List.nodup_cons.mpr ⟨?_, hids⟩
      intro hmem
      obtain ⟨p, hp, hid⟩ := List.mem_map.mp hmem
      exact hself p hp hid
    rw [List.perm_ext_iff_of_nodup (nodes_nodup ring) hnodup]
    exact fun k => mem_nodes_mainRing

/-- Two peers with one id: the address of the earlier one is replaced. -/
theorem replaced_of_clash {front back : List PeerConfig} {p q : PeerConfig} (hp : p ∈ front)
    (hq : q ∈ back) (hclash : p.id = q.id)
    (haddrs : ((front ++ back).map PeerConfig.addr).Nodup) {k : String}
    (hk : (mainRing nodeID grpcPort (front ++ back)).nodeAddr k = some p.addr) : k = nodeID := by
  have hsplit : (mainRing nodeID grpcPort (front ++ back)).nodeAddrs =
      back.foldl (fun m p => m.insert p.id p.addr) (mainRing nodeID grpcPort front).nodeAddrs := by
    rw [nodeAddrs_mainRing, nodeAddrs_mainRing, List.foldl_append]
  rw [List.map_append, List.nodup_append] at haddrs
  obtain ⟨hfront, _, hapart⟩ := haddrs
  rw [Ring.nodeAddr, hsplit] at hk
  rcases GoMap.lookup_foldl_insert PeerConfig.id PeerConfig.addr back
      (mainRing nodeID grpcPort front).nodeAddrs k with ⟨r, hr, _, hlookup⟩ | ⟨hnone, hlookup⟩
  · -- A peer of the back has another address.
    have haddr : p.addr = r.addr := Option.some.inj (hk.symm.trans hlookup)
    exact absurd haddr (hapart _ (List.mem_map_of_mem hp) _ (List.mem_map_of_mem hr))
  · rw [hlookup] at hk
    rcases nodeAddr_mainRing nodeID grpcPort front k with ⟨r, hr, hid, haddr⟩ | ⟨_, haddr⟩
    · -- The only peer of the front with this address has an id that the back writes.
      have hrp : r = p :=
        List.inj_on_of_nodup_map hfront hr hp (Option.some.inj (haddr.symm.trans hk))
      rw [hrp, hclash] at hid
      exact absurd hid (hnone q hq)
    · by_contra hne
      rw [if_neg hne] at haddr
      cases haddr.symm.trans hk

/-- The ring has fewer nodes than there are. -/
theorem length_nodes_of_clash (hids : ¬ (peers.map PeerConfig.id).Nodup) :
    (mainRing nodeID grpcPort peers).nodes.length < peers.length + 1 := by
  have hsub : (mainRing nodeID grpcPort peers).nodes.Subperm (nodeID :: peers.map PeerConfig.id) :=
    List.subperm_of_subset (nodes_nodup _) fun k hk => mem_nodes_mainRing.mp hk
  by_contra hlen
  have hperm := hsub.perm_of_length_le (by
    rw [List.length_cons, List.length_map]
    omega)
  exact hids (List.nodup_cons.mp (hperm.nodup_iff.mp (nodes_nodup _))).2

/-- **A clash of ids**: the address of some peer is not in the ring, unless the node itself
has that address. -/
theorem lost_of_clash (haddrs : (peers.map PeerConfig.addr).Nodup)
    (hids : ¬ (peers.map PeerConfig.id).Nodup) :
    ∃ p ∈ peers, ∀ k, (mainRing nodeID grpcPort peers).nodeAddr k = some p.addr → k = nodeID := by
  obtain ⟨p, q, hpq, hclash⟩ : ∃ p q, [p, q].Sublist peers ∧ p.id = q.id := by
    rw [List.Nodup, List.pairwise_map, List.pairwise_iff_forall_sublist] at hids
    push Not at hids
    exact hids
  obtain ⟨front, back, rfl, hp, hq⟩ := List.cons_sublist_iff.mp hpq
  rw [List.singleton_sublist] at hq
  exact ⟨p, List.mem_append_left _ hp, fun _ hk => replaced_of_clash hp hq hclash haddrs hk⟩

end Ring

/-- **Every configured peer has its own place**, if no two addresses agree up to the first
colon.  If two do, their ids clash, and a peer is missing from the ring. -/
theorem peers_registered (peersFlag : String) (hdistinct : (peerParts peersFlag).Nodup)
    (nodeID : String) (grpcPort : Int) (hself : ∀ p ∈ parsePeers peersFlag, p.id ≠ nodeID) :
    let peers := parsePeers peersFlag
    let ring := mainRing nodeID grpcPort peers
    peers.map PeerConfig.addr = (peerParts peersFlag).map String.ofList ∧
    (HostsDiffer (peerParts peersFlag) →
      (peers.map PeerConfig.id).Nodup ∧
      (∀ p ∈ peers, ring.nodeAddr p.id = some p.addr ∧
        (mainHealth ring).lookup p.id = some (newNodeHealth p.id p.addr)) ∧
      ring.nodes.Perm (nodeID :: peers.map PeerConfig.id)) ∧
    (¬ HostsDiffer (peerParts peersFlag) →
      ¬ (peers.map PeerConfig.id).Nodup ∧ ring.nodes.length < peers.length + 1 ∧
      ∃ p ∈ peers, ∀ k, ring.nodeAddr k = some p.addr → k = nodeID) := by
  intro peers ring
  have hpeers : peers = (peerParts peersFlag).map peerOf := parsePeers_eq peersFlag
  have hids : (peers.map PeerConfig.id).Nodup ↔ HostsDiffer (peerParts peersFlag) := by
    rw [hpeers]
    exact nodup_ids_iff hdistinct
  have haddrs : (peers.map PeerConfig.addr).Nodup := by
    rw [hpeers]
    exact nodup_addrs hdistinct
  refine ⟨?_, ?_, ?_⟩
  · rw [hpeers, List.map_map]
    rfl
  · intro hhosts
    exact ⟨hids.mpr hhosts, registered_of_nodup (hids.mpr hhosts) hself⟩
  · intro hclash
    have hnot : ¬ (peers.map PeerConfig.id).Nodup := fun hnodup => hclash (hids.mp hnodup)
    exact ⟨hnot, length_nodes_of_clash hnot, lost_of_clash haddrs hnot⟩

/-- The peers of `node1` in `docker-compose.yml`. -/
theorem peers_registered_compose :
    let ring := mainRing "node1" 9001 (parsePeers "node2:9002,node3:9003")
    ring.nodeAddr "node2" = some "node2:9002" ∧ ring.nodeAddr "node3" = some "node3:9003" ∧
      ring.nodes.Perm ["node1", "node2", "node3"] := by
  intro ring
  have hpeers : parsePeers "node2:9002,node3:9003" =
      [⟨"node2", "node2:9002"⟩, ⟨"node3", "node3:9003"⟩] := by decide
  obtain ⟨_, hregistered, _⟩ := peers_registered "node2:9002,node3:9003" (by decide) "node1" 9001
    (by decide)
  obtain ⟨_, haddrs, hnodes⟩ := hregistered (by decide)
  rw [hpeers] at haddrs hnodes
  refine ⟨?_, ?_, ?_⟩
  · exact (haddrs ⟨"node2", "node2:9002"⟩ (by decide)).1
  · exact (haddrs ⟨"node3", "node3:9003"⟩ (by decide)).1
  · exact hnodes

/-- **Two ports of one host.**  The second peer replaces the first. -/
theorem same_host_replaced :
    let peers := parsePeers "localhost:9002,localhost:9003"
    let ring := mainRing "node1" 9001 peers
    peers = [⟨"localhost", "localhost:9002"⟩, ⟨"localhost", "localhost:9003"⟩] ∧
      ring.nodes = ["localhost", "node1"] ∧ ∀ k, ring.nodeAddr k ≠ some "localhost:9002" := by
  intro peers ring
  have hpeers : peers =
      [⟨"localhost", "localhost:9002"⟩, ⟨"localhost", "localhost:9003"⟩] := by decide
  have hnodes : ring.nodes = ["localhost", "node1"] := by
    rw [Ring.nodes, nodeAddrs_mainRing, hpeers]
    decide
  refine ⟨hpeers, hnodes, ?_⟩
  intro k hk
  have hmem : k ∈ ring.nodes := mem_nodes_iff.mpr ⟨_, hk⟩
  rw [Ring.nodeAddr, nodeAddrs_mainRing, hpeers] at hk
  rw [hnodes] at hmem
  simp only [List.mem_cons, List.not_mem_nil, or_false] at hmem
  rcases hmem with rfl | rfl
  · exact absurd hk (by decide)
  · exact absurd hk (by decide)

end Cluster
