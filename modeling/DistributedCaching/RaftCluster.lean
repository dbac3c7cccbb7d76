import DistributedCaching.RaftProcess
import DistributedCaching.TransitionRuns

/-!
# A cluster of Raft processes

The processes of a cluster, their state files, and the network between them.
The network remembers every request handed to the transport and every reply a
handler produced: a request may reach the addressed peer at any later moment,
any number of times or never, so messages may be lost, delayed, duplicated and
reordered.  The call of a vote or heartbeat goroutine returns either an error
or a reply that the addressed peer's handler produced for that very request.

A process may crash between two critical sections (`Event.crash`) or inside
one, after any number of the section's writes to the state file
(`Event.crashDuring`); it is started again by `newRaftNode` on the file it
left.  Here every write succeeds, and elections start only below the largest
`int64` term.

The votes cast, the leaders elected and the heartbeats accepted are recorded
for the statements; no process reads them.
-/

namespace Raft

open Go MajorityVotes

/-- A cluster on the nodes `ν`: distinct non-empty ids, and for each node the
list of all others. -/
structure Cluster (ν : Type) where
  id : ν → String
  addr : ν → String
  others : ν → List ν
  id_injective : Function.Injective id
  id_ne_empty : ∀ i, id i ≠ ""
  others_nodup : ∀ i, (others i).Nodup
  mem_others : ∀ i j, j ∈ others i ↔ j ≠ i

variable {ν : Type}

/-- How the others refer to a node. -/
def Cluster.peer (c : Cluster ν) (i : ν) : PeerConfig := ⟨c.id i, c.addr i⟩

/-- The `peers` a node is created with. -/
def Cluster.peers (c : Cluster ν) (i : ν) : List PeerConfig := (c.others i).map c.peer

/-- Different nodes of a cluster are different peers. -/
theorem Cluster.peer_injective (c : Cluster ν) : Function.Injective c.peer := by
  intro i j h
  exact c.id_injective (congrArg PeerConfig.id h)

/-- The three-node deployment of `docker-compose.yml`. -/
def threeNodes : Cluster (Fin 3) where
  id := ["node1", "node2", "node3"].get
  addr := ["node1:9001", "node2:9002", "node3:9003"].get
  others i := (List.finRange 3).filter (· ≠ i)
  id_injective := by unfold Function.Injective; decide
  id_ne_empty := by decide
  others_nodup := by decide
  mem_others := by decide

structure World (ν : Type) where
  process : ν → Process
  file : ν → Option PersistentState
  voteRequests : List (PeerConfig × RequestVoteRequest) := []
  voteReplies : List (PeerConfig × RequestVoteRequest × RequestVoteResponse) := []
  appendRequests : List (PeerConfig × AppendEntriesRequest) := []
  appendReplies : List (PeerConfig × AppendEntriesRequest × AppendEntriesResponse) := []
  /-- The votes each node has cast. -/
  votes : ν → List (Int × String) := fun _ => []
  /-- Every execution of `becomeLeader`, with its term. -/
  elected : List (ν × Int) := []
  /-- Every heartbeat a node has accepted. -/
  accepted : List (ν × AppendEntriesRequest) := []

/-- Every process freshly started on whatever its state directory holds. -/
def World.init (c : Cluster ν) (files : ν → Option PersistentState) : World ν :=
  { process := fun i => startProcess (c.id i) (c.peers i) (files i), file := files }

/-! ## Reading the outputs of an action -/

def Output.voteRequest : Output → Option (PeerConfig × RequestVoteRequest)
  | .requestVote peer req => some (peer, req)
  | _ => none

def Output.appendRequest : Output → Option (PeerConfig × AppendEntriesRequest)
  | .appendEntries peer req => some (peer, req)
  | _ => none

def Output.voteReplyOf (self : PeerConfig) :
    Output → Option (PeerConfig × RequestVoteRequest × RequestVoteResponse)
  | .voteReply req resp => some (self, req, resp)
  | _ => none

def Output.appendReplyOf (self : PeerConfig) :
    Output → Option (PeerConfig × AppendEntriesRequest × AppendEntriesResponse)
  | .appendReply req resp => some (self, req, resp)
  | _ => none

def Output.electedIn (i : ν) : Output → Option (ν × Int)
  | .elected term => some (i, term)
  | _ => none

def Output.acceptedBy (i : ν) : Output → Option (ν × AppendEntriesRequest)
  | .appendReply req resp => if resp.success then some (i, req) else none
  | _ => none

/-- The state file after all of these writes succeeded. -/
def saveAll (file : Option PersistentState) (saves : List PersistentState) :
    Option PersistentState :=
  saves.foldl (fun _ r => some r) file

/-- What the environment may supply: requests that were sent to this node,
replies that were produced for the very request of the goroutine, and terms
that stay below the largest `int64`. -/
def Allowed (c : Cluster ν) (w : World ν) (i : ν) : Action → Prop
  | .handleRequestVote req => (c.peer i, req) ∈ w.voteRequests
  | .handleAppendEntries req _ => (c.peer i, req) ∈ w.appendRequests
  | .startElection => (w.process i).node.ps.currentTerm + 1 < 2 ^ 63
  | .voteReturn peer result =>
      result = .failed ∨ ∃ m ∈ w.voteReplies,
        m.1 = peer ∧ (w.process i).loop.campaignTerm = some m.2.1.term ∧
        m.2.1.candidateID = c.id i ∧ result = ⟨m.2.2.voteGranted, m.2.2.term⟩
  | .heartbeatReturn peer term (some resp) => (peer, ⟨term, c.id i⟩, resp) ∈ w.appendReplies
  | _ => True

instance (c : Cluster ν) (w : World ν) (i : ν) : ∀ a, Decidable (Allowed c w i a)
  | .handleRequestVote _ => inferInstanceAs (Decidable (_ ∈ w.voteRequests))
  | .handleAppendEntries _ _ => inferInstanceAs (Decidable (_ ∈ w.appendRequests))
  | .startElection => inferInstanceAs (Decidable ((_ : Int) < _))
  | .voteReturn _ _ => inferInstanceAs (Decidable (_ ∨ ∃ m ∈ w.voteReplies, _))
  | .heartbeatReturn _ _ (some _) => inferInstanceAs (Decidable (_ ∈ w.appendReplies))
  | .heartbeatReturn _ _ none => inferInstanceAs (Decidable True)
  | .heartbeatTick => inferInstanceAs (Decidable True)
  | .electionTimeout _ => inferInstanceAs (Decidable True)
  | .collect => inferInstanceAs (Decidable True)
  | .sendHeartbeats => inferInstanceAs (Decidable True)
  | .receiveLeader => inferInstanceAs (Decidable True)
  | .stop => inferInstanceAs (Decidable True)

variable [DecidableEq ν]

/-- Process `i` completes an action. -/
def World.commit (c : Cluster ν) (w : World ν) (i : ν) (e : Effect) : World ν :=
  { process := Function.update w.process i e.process
    file := Function.update w.file i (saveAll (w.file i) e.saves)
    voteRequests := w.voteRequests ++ e.out.filterMap Output.voteRequest
    voteReplies := w.voteReplies ++ e.out.filterMap (Output.voteReplyOf (c.peer i))
    appendRequests := w.appendRequests ++ e.out.filterMap Output.appendRequest
    appendReplies := w.appendReplies ++ e.out.filterMap (Output.appendReplyOf (c.peer i))
    votes := Function.update w.votes i
      (e.out.filterMap (Output.vote (c.id i)) ++ w.votes i)
    elected := w.elected ++ e.out.filterMap (Output.electedIn i)
    accepted := w.accepted ++ e.out.filterMap (Output.acceptedBy i) }

/-- Process `i` is started again on the state file `file`. -/
def World.restart (c : Cluster ν) (w : World ν) (i : ν)
    (file : Option PersistentState) : World ν :=
  { w with
    process := Function.update w.process i (startProcess (c.id i) (c.peers i) file)
    file := Function.update w.file i file }

inductive Event (ν : Type)
  | act (i : ν) (a : Action)
  | crash (i : ν)
  /-- A crash inside the section of `a`, after `k` of its writes. -/
  | crashDuring (i : ν) (a : Action) (k : Nat)

def step (c : Cluster ν) (w : World ν) : Event ν → Option (World ν)
  | .act i a =>
      if Allowed c w i a then (perform (w.process i) a).map (w.commit c i) else none
  | .crash i => some (w.restart c i (w.file i))
  | .crashDuring i a k =>
      if Allowed c w i a then
        (perform (w.process i) a).map fun e =>
          w.restart c i (saveAll (w.file i) (e.saves.take k))
      else none

/-- **What a step can do.**  A process completes an allowed action, or it is
started again on the file some prefix of an action's writes has left. -/
theorem step_cases {c : Cluster ν} {w w' : World ν} {ev : Event ν}
    (h : step c w ev = some w') :
    (∃ i a e, ev = .act i a ∧ Allowed c w i a ∧ perform (w.process i) a = some e ∧
      w' = w.commit c i e) ∨
    (∃ i file, (∀ j a, ev ≠ .act j a) ∧ w' = w.restart c i file ∧ (file = w.file i ∨
      ∃ a e k, Allowed c w i a ∧ perform (w.process i) a = some e ∧
        file = saveAll (w.file i) (e.saves.take k))) := by
  cases ev with
  | act i a =>
      simp only [step] at h
      split at h
      · rename_i hallowed
        obtain ⟨e, he, rfl⟩ := Option.map_eq_some_iff.mp h
        exact Or.inl ⟨i, a, e, rfl, hallowed, he, rfl⟩
      · cases h
  | crash i =>
      cases h
      exact Or.inr ⟨i, _, by simp, rfl, Or.inl rfl⟩
  | crashDuring i a k =>
      simp only [step] at h
      split at h
      · rename_i hallowed
        obtain ⟨e, he, rfl⟩ := Option.map_eq_some_iff.mp h
        exact Or.inr ⟨i, _, by simp, rfl, Or.inr ⟨a, e, k, hallowed, he, rfl⟩⟩
      · cases h

/-! ## The state file keeps up with the node -/

/-- After all writes of a section the file holds the node's record. -/
theorem saveAll_load {ps ps' : PersistentState} {saves : List PersistentState}
    {file : Option PersistentState} (h : SavesAdvance ps saves ps')
    (hfile : loadState file = ps) : loadState (saveAll file saves) = ps' := by
  induction saves generalizing ps file with
  | nil =>
      cases h
      exact hfile
  | cons r rs ih => exact ih h.2 rfl

/-- After some of the writes of a section the file still holds a record that
advances the one it started from. -/
theorem saveAll_take_advances {ps ps' : PersistentState} {saves : List PersistentState}
    {file : Option PersistentState} (h : SavesAdvance ps saves ps')
    (hfile : loadState file = ps) (k : Nat) :
    Advances ps.ballot (loadState (saveAll file (saves.take k))).ballot := by
  induction saves generalizing ps file k with
  | nil =>
      rw [List.take_nil]
      exact hfile ▸ Advances.refl _
  | cons r rs ih =>
      cases k with
      | zero =>
          rw [List.take_zero]
          exact hfile ▸ Advances.refl _
      | succ k => exact h.1.trans (ih h.2 rfl k)

end Raft
