import Mathlib.Data.Finset.Max
import DistributedCaching.ElectionSafety

/-!
# A responsive majority can always elect a leader

Safety alone would be met by a cluster that never elects anybody.  Here the
other half: from every reachable world, a node that waits in the `select` of
its `runLoop` and is no leader can become one, with the help of any set of
peers that is a majority together with it, while all other nodes do nothing.
No state file, no message in flight and no vote given earlier can prevent it.

The run that shows it has three parts.

1.  `catches_up`.  If a responsive peer is in a term at or past the one the
    node would campaign in, one round brings the node into that term: the
    peer refuses and the node adopts the term in the refusal, or, when the
    campaign is in the peer's own term, every call of the round fails.
2.  `campaign_wins`.  The node campaigns in a term that is new to all
    responsive peers, so each of them grants its vote, one after the other,
    until they are a majority (`gains_vote`).
3.  `all_follow`.  The heartbeats that follow the win make every responsive
    peer a follower that names the new leader.
-/

namespace Raft

open Go MajorityVotes TransitionRuns

/-! ## What the handlers do for a new term -/

/-- A vote request in a new term is granted. -/
theorem handleRequestVote_newTerm (n : RaftNode) (req : RequestVoteRequest)
    (h : n.ps.currentTerm < req.term) :
    (handleRequestVote n req).node =
        { n with state := .follower, ps := ⟨req.term, req.candidateID⟩ } ∧
      (handleRequestVote n req).reply = ⟨req.term, true⟩ := by
  have hstale : ¬ req.term < n.ps.currentTerm := by omega
  have hseen : adoptTerm n req.term =
      { node := { n with state := .follower, ps := ⟨req.term, ""⟩ }
        saves := [⟨req.term, ""⟩], reply := () } := by
    simp [adoptTerm, becomeFollower, h]
  simp [handleRequestVote, hstale, hseen]

/-- A request of an earlier term is refused, and tells the sender the term. -/
theorem handleRequestVote_stale (n : RaftNode) (req : RequestVoteRequest)
    (h : req.term < n.ps.currentTerm) :
    (handleRequestVote n req).node = n ∧
      (handleRequestVote n req).reply = ⟨n.ps.currentTerm, false⟩ := by
  simp [handleRequestVote, h]

/-- The node is a follower of `leaderID` in term `t`. -/
def FollowsIn (t : Int) (leaderID : String) (n : RaftNode) : Prop :=
  n.state = .follower ∧ n.ps.currentTerm = t ∧ n.leaderID = leaderID

/-- The node has not reached term `t`, or is a follower in it. -/
def ReadyFor (t : Int) (n : RaftNode) : Prop :=
  n.ps.currentTerm < t ∨ n.ps.currentTerm = t ∧ n.state = .follower

/-- A heartbeat makes such a node a follower of its sender. -/
theorem handleAppendEntries_follows (n : RaftNode) (req : AppendEntriesRequest) (now : Time)
    (h : ReadyFor req.term n) :
    FollowsIn req.term req.leaderID (handleAppendEntries n req now).node := by
  rcases h with h | ⟨hterm, hstate⟩
  · have hstale : ¬ req.term < n.ps.currentTerm := by omega
    simp [FollowsIn, handleAppendEntries, hstale, adoptTerm, becomeFollower, h]
  · simp [FollowsIn, handleAppendEntries, adoptTerm, hterm, hstate]

/-! ## Runs of some of the nodes -/

variable {ν : Type} [DecidableEq ν] {c : Cluster ν} {w : World ν} {i j : ν} {a : Action}
  {e : Effect} {S : List ν}

/-- The event is an action of one of the nodes of `S`. -/
def Among (S : List ν) (ev : Event ν) : Prop := ∃ j ∈ S, ∃ a, ev = .act j a

/-- The node that acts has acted. -/
theorem commit_self : (w.commit c i e).process i = e.process := by
  simp [World.commit]

/-- A node acts on itself only. -/
theorem commit_of_ne (h : j ≠ i) : (w.commit c i e).process j = w.process j := by
  simp [World.commit, Function.update_of_ne h]

/-- An allowed act of a node in `S` is a step among `S`. -/
theorem reaches_act (hj : j ∈ S) (hallowed : Allowed c w j a)
    (he : perform (w.process j) a = some e) :
    Reaches (step c) (Among S) w (w.commit c j e) :=
  .single ⟨j, hj, a, rfl⟩ (by simp [step, hallowed, he])

/-- `i` is the node the cluster says it is, at program point `loop`. -/
structure At (c : Cluster ν) (i : ν) (loop : Loop) (w : World ν) : Prop where
  id : (w.process i).node.id = c.id i
  peers : (w.process i).node.peers = c.peers i
  loop : (w.process i).loop = loop

omit [DecidableEq ν] in
/-- The majority of a node is that of its cluster. -/
theorem At.majority_eq {loop : Loop} (h : At c i loop w) :
    majority (w.process i).node = ((c.others i).length + 1) / 2 + 1 := by
  simp [majority, h.peers, Cluster.peers]

/-- Only node `i` has moved. -/
def Only (i : ν) (w w' : World ν) : Prop := ∀ j, j ≠ i → w'.process j = w.process j

/-- Node `i` waits in its `select` in term `t` and is no leader. -/
structure Waits (c : Cluster ν) (i : ν) (t : Int) (w : World ν) : Prop where
  at' : At c i .select w
  notLeader : (w.process i).node.state ≠ .leader
  term : (w.process i).node.ps.currentTerm = t

/-! ## The start of a campaign -/

/-- Node `i` is a candidate in term `t`, all its vote requests are on the
network, and it waits for the results of `waiting`. -/
structure Campaigning (c : Cluster ν) (i : ν) (t : Int) (votes received : Nat)
    (waiting : List PeerConfig) (w : World ν) : Prop where
  at' : At c i (.collecting t votes received waiting []) w
  candidate : (w.process i).node.state = .candidate
  term : (w.process i).node.ps.currentTerm = t
  asked : ∀ j, j ≠ i → (c.peer j, ⟨t, c.id i⟩) ∈ w.voteRequests

omit [DecidableEq ν] in
theorem Only.trans {w w' w'' : World ν} (h : Only i w w') (h' : Only i w' w'') :
    Only i w w'' :=
  fun j hj => (h' j hj).trans (h j hj)

theorem only_commit : Only i w (w.commit c i e) := fun _ hj => commit_of_ne hj

/-- **A waiting node can start a campaign** in the next term. -/
theorem starts_campaign (hi : i ∈ S) (hat : At c i .select w)
    (hnot : (w.process i).node.state ≠ .leader) (hpeers : c.others i ≠ [])
    (hterm : (w.process i).node.ps.currentTerm + 1 < 2 ^ 63) :
    ∃ w', Reaches (step c) (Among S) w w' ∧ Only i w w' ∧
      Campaigning c i ((w.process i).node.ps.currentTerm + 1) 1 0 (c.peers i) w' := by
  -- The timer fires when the last heartbeat is as old as the timeout.
  have hdue : perform (w.process i)
      (.electionTimeout ((w.process i).node.lastHeartbeat + electionTimeoutMin)) =
      some { process := { w.process i with loop := .electionDue } } := by
    have hold : ∀ last timeout : Int, ¬ last + timeout - last < timeout := by omega
    simp only [perform, hat.loop, hnot, if_true, if_false]
    rw [if_neg (hold _ _)]
  obtain ⟨w₁, hreach, honly, hself⟩ : ∃ w₁, Reaches (step c) (Among S) w w₁ ∧ Only i w w₁ ∧
      w₁.process i = { w.process i with loop := .electionDue } :=
    ⟨_, reaches_act hi (a := .electionTimeout _) trivial hdue, only_commit, commit_self⟩
  have hallowed : Allowed c w₁ i .startElection := by
    simp only [Allowed, hself]
    exact hterm
  have hstart : perform (w₁.process i) .startElection =
      some (startElection { w.process i with loop := .electionDue }) := by
    rw [hself]
    rfl
  have hnode : (startElection { w.process i with loop := .electionDue }).process.node =
      { (w.process i).node with
        state := .candidate
        ps := ⟨(w.process i).node.ps.currentTerm + 1, c.id i⟩ } := by
    simp [startElection, becomeCandidate, incInt64_of_lt hterm, hat.id]
  have hlen : 0 < (c.peers i).length := by
    rw [Cluster.peers, List.length_map]
    exact List.length_pos_iff.mpr hpeers
  refine ⟨_, hreach.trans (reaches_act hi hallowed hstart), honly.trans only_commit,
    ⟨?_, ?_, ?_⟩, ?_, ?_, ?_⟩
  · rw [commit_self, hnode]
    exact hat.id
  · rw [commit_self, hnode]
    exact hat.peers
  · rw [commit_self]
    simp [startElection, becomeCandidate, nextIteration, incInt64_of_lt hterm, hat.peers, hlen]
  · rw [commit_self, hnode]
  · rw [commit_self, hnode]
  · intro j hj
    refine List.mem_append_right _ (List.mem_filterMap.mpr
      ⟨.requestVote (c.peer j) ⟨(w.process i).node.ps.currentTerm + 1, c.id i⟩, ?_, rfl⟩)
    have hmem : c.peer j ∈ c.peers i := List.mem_map_of_mem ((c.mem_others i j).mpr hj)
    simpa [startElection, becomeCandidate, incInt64_of_lt hterm, hat.peers, hat.id] using hmem

/-! ## Winning in a new term -/

/-- Node `i` has become the leader of term `t` and has not yet sent the
heartbeats that follow. -/
structure HasWon (c : Cluster ν) (i : ν) (t : Int) (w : World ν) : Prop where
  at' : At c i .won w
  leader : (w.process i).node.state = .leader
  term : (w.process i).node.ps.currentTerm = t
  recorded : (i, t) ∈ w.elected

section Campaign

variable {t : Int} {votes received : Nat} {waiting : List PeerConfig}

/-- A peer answers the request of a campaigning node, and the call returns. -/
theorem receives_reply (hi : i ∈ S) (hj : j ∈ S) (hne : j ≠ i)
    (hw : Campaigning c i t votes received waiting w) (hwaiting : c.peer j ∈ waiting) :
    ∃ w', Reaches (step c) (Among S) w w' ∧
      (∀ k, k ≠ i → k ≠ j → w'.process k = w.process k) ∧
      w'.process j = { w.process j with
        node := (handleRequestVote (w.process j).node ⟨t, c.id i⟩).node } ∧
      w'.process i = { w.process i with
        loop := .collecting t votes received (waiting.erase (c.peer j))
          [(c.peer j, ⟨(handleRequestVote (w.process j).node ⟨t, c.id i⟩).reply.voteGranted,
            (handleRequestVote (w.process j).node ⟨t, c.id i⟩).reply.term⟩)] } ∧
      w'.voteRequests = w.voteRequests := by
  obtain ⟨w₁, hreach, hself, hrest, hreply, hrequests⟩ : ∃ w₁,
      Reaches (step c) (Among S) w w₁ ∧
      w₁.process j = { w.process j with
        node := (handleRequestVote (w.process j).node ⟨t, c.id i⟩).node } ∧
      (∀ k, k ≠ j → w₁.process k = w.process k) ∧
      (c.peer j, ⟨t, c.id i⟩, (handleRequestVote (w.process j).node ⟨t, c.id i⟩).reply) ∈
        w₁.voteReplies ∧
      w₁.voteRequests = w.voteRequests := by
    refine ⟨_, reaches_act hj (a := .handleRequestVote ⟨t, c.id i⟩) (hw.asked j hne) rfl,
      commit_self, fun k hk => commit_of_ne hk, ?_, ?_⟩
    · exact List.mem_append_right _ (by simp [Output.voteReplyOf])
    · simp [World.commit, Output.voteRequest]
  have hloop : (w₁.process i).loop = .collecting t votes received waiting [] := by
    rw [hrest i hne.symm]
    exact hw.at'.loop
  have hreturn : perform (w₁.process i) (.voteReturn (c.peer j)
      ⟨(handleRequestVote (w.process j).node ⟨t, c.id i⟩).reply.voteGranted,
        (handleRequestVote (w.process j).node ⟨t, c.id i⟩).reply.term⟩) =
      some { process := { w₁.process i with
        loop := .collecting t votes received (waiting.erase (c.peer j))
          [(c.peer j, ⟨(handleRequestVote (w.process j).node ⟨t, c.id i⟩).reply.voteGranted,
            (handleRequestVote (w.process j).node ⟨t, c.id i⟩).reply.term⟩)] } } := by
    simp [perform, hloop, hwaiting]
  have hallowed : Allowed c w₁ i (.voteReturn (c.peer j)
      ⟨(handleRequestVote (w.process j).node ⟨t, c.id i⟩).reply.voteGranted,
        (handleRequestVote (w.process j).node ⟨t, c.id i⟩).reply.term⟩) := by
    refine Or.inr ⟨_, hreply, rfl, ?_, rfl, rfl⟩
    rw [hloop]
    rfl
  refine ⟨_, hreach.trans (reaches_act hi hallowed hreturn), ?_, ?_, ?_, ?_⟩
  · intro k hki hkj
    rw [commit_of_ne hki, hrest k hkj]
  · rw [commit_of_ne hne, hself]
  · rw [commit_self, hrest i hne.symm]
  · rw [← hrequests]
    simp [World.commit]

/-- A result that decides nothing is counted: the candidate goes on, or waits
for its next timer if this was the last result. -/
theorem counts_result {w₁ : World ν} {votes' : Nat} {rest : List PeerConfig}
    {peer : PeerConfig} {result : VoteResult} (hi : i ∈ S)
    (hw : Campaigning c i t votes received waiting w)
    (hself : w₁.process i = { w.process i with
      loop := .collecting t votes received rest [(peer, result)] })
    (hrequests : w₁.voteRequests = w.voteRequests)
    (hcount : countVote (w.process i).node votes result =
      { node := (w.process i).node, reply := .undecided votes' }) :
    ∃ w', Reaches (step c) (Among S) w₁ w' ∧ Only i w₁ w' ∧
      (received + 1 < (c.others i).length →
        Campaigning c i t votes' (received + 1) rest w') ∧
      (¬ received + 1 < (c.others i).length → Waits c i t w') := by
  have hcollect : perform (w₁.process i) .collect =
      some (collectResult (w₁.process i) t votes received rest [] result) := by
    simp [perform, hself]
  obtain ⟨w', hreach, honly, hprocess, hasked⟩ : ∃ w', Reaches (step c) (Among S) w₁ w' ∧
      Only i w₁ w' ∧ w'.process i = { w.process i with
        loop := nextIteration (w.process i).node t votes' (received + 1) rest [] } ∧
      ∀ m ∈ w.voteRequests, m ∈ w'.voteRequests := by
    refine ⟨_, reaches_act hi (a := .collect) trivial hcollect, only_commit, ?_, ?_⟩
    · rw [commit_self]
      simp [collectResult, hself, hcount, afterVerdict]
    · rw [← hrequests]
      exact fun m hm => List.mem_append_left _ hm
  have hnode : (w'.process i).node = (w.process i).node := by rw [hprocess]
  have hlen : (w.process i).node.peers.length = (c.others i).length := by
    simp [hw.at'.peers, Cluster.peers]
  refine ⟨w', hreach, honly, ?_, ?_⟩
  · intro hmore
    refine ⟨⟨hnode ▸ hw.at'.id, hnode ▸ hw.at'.peers, ?_⟩, hnode ▸ hw.candidate, hnode ▸ hw.term,
      fun k hk => hasked _ (hw.asked k hk)⟩
    rw [hprocess]
    exact if_pos (hlen ▸ hmore)
  · intro hlast
    refine ⟨⟨hnode ▸ hw.at'.id, hnode ▸ hw.at'.peers, ?_⟩, ?_, hnode ▸ hw.term⟩
    · rw [hprocess]
      exact if_neg (hlen ▸ hlast)
    · rw [hnode, hw.candidate]
      decide

/-- **One more vote**: a peer that has not reached the term grants its vote, and
the candidate wins with it, or counts it and goes on. -/
theorem gains_vote (hi : i ∈ S) (hj : j ∈ S) (hne : j ≠ i)
    (hw : Campaigning c i t votes received waiting w) (hwaiting : c.peer j ∈ waiting)
    (hbehind : (w.process j).node.ps.currentTerm < t) :
    ∃ w', Reaches (step c) (Among S) w w' ∧
      (∀ k, k ≠ i → k ≠ j → w'.process k = w.process k) ∧
      ReadyFor t (w'.process j).node ∧
      (HasWon c i t w' ∨ votes + 1 < ((c.others i).length + 1) / 2 + 1 ∧
        (received + 1 < (c.others i).length →
          Campaigning c i t (votes + 1) (received + 1) (waiting.erase (c.peer j)) w')) := by
  obtain ⟨w₁, hreach, hrest, hvoter, hself, hrequests⟩ := receives_reply hi hj hne hw hwaiting
  obtain ⟨hnode, hreply⟩ :=
    handleRequestVote_newTerm (w.process j).node ⟨t, c.id i⟩ hbehind
  rw [hnode] at hvoter
  rw [hreply] at hself
  have hready : ReadyFor t (w₁.process j).node := by
    rw [hvoter]
    exact Or.inr ⟨rfl, rfl⟩
  have hnot : ¬ t > (w.process i).node.ps.currentTerm := by
    rw [hw.term]
    exact lt_irrefl t
  by_cases hmaj : majority (w.process i).node ≤ votes + 1
  · have hcount : countVote (w₁.process i).node votes ⟨true, t⟩ =
        { node := becomeLeader (w.process i).node, reply := .won } := by
      simp [countVote, hself, hnot, hmaj, hw.candidate]
    have hcollect : perform (w₁.process i) .collect = some (collectResult (w₁.process i) t votes
        received (waiting.erase (c.peer j)) [] ⟨true, t⟩) := by
      simp [perform, hself]
    refine ⟨_, hreach.trans (reaches_act hi (a := .collect) trivial hcollect), ?_, ?_,
      Or.inl ⟨⟨?_, ?_, ?_⟩, ?_, ?_, ?_⟩⟩
    · intro k hki hkj
      rw [commit_of_ne hki, hrest k hki hkj]
    · rw [commit_of_ne hne]
      exact hready
    · rw [commit_self]
      simpa [collectResult, hcount, becomeLeader] using hw.at'.id
    · rw [commit_self]
      simpa [collectResult, hcount, becomeLeader] using hw.at'.peers
    · rw [commit_self]
      simp [collectResult, hcount, afterVerdict]
    · rw [commit_self]
      simp [collectResult, hcount, becomeLeader]
    · rw [commit_self]
      simpa [collectResult, hcount, becomeLeader] using hw.term
    · refine List.mem_append_right _ (List.mem_filterMap.mpr ⟨.elected t, ?_, rfl⟩)
      simp [collectResult, hcount, becomeLeader, hw.term]
  · have hcount : countVote (w.process i).node votes ⟨true, t⟩ =
        { node := (w.process i).node, reply := .undecided (votes + 1) } := by
      simp [countVote, hnot, hmaj]
    obtain ⟨w₂, hreach₂, honly, hgoes, _⟩ := counts_result hi hw hself hrequests hcount
    rw [hw.at'.majority_eq] at hmaj
    refine ⟨w₂, hreach.trans hreach₂, ?_, ?_, Or.inr ⟨Nat.lt_of_not_le hmaj, hgoes⟩⟩
    · intro k hki hkj
      rw [honly k hki, hrest k hki hkj]
    · rw [honly j hne]
      exact hready

/-- **A campaign in a new term is won** with the votes of enough peers that have
not reached it; they end up behind the term, or as followers in it. -/
theorem campaign_wins (hi : i ∈ S) (voters : List ν) (hS : ∀ j ∈ voters, j ∈ S)
    (hnodup : voters.Nodup) (hself : i ∉ voters)
    (hw : Campaigning c i t votes received waiting w)
    (hwaiting : ∀ j ∈ voters, c.peer j ∈ waiting)
    (hbehind : ∀ j ∈ voters, (w.process j).node.ps.currentTerm < t)
    (hvotes : votes = received + 1) (hfew : votes < ((c.others i).length + 1) / 2 + 1)
    (henough : ((c.others i).length + 1) / 2 + 1 ≤ votes + voters.length) :
    ∃ w', Reaches (step c) (Among S) w w' ∧ HasWon c i t w' ∧
      (∀ k, k ≠ i → k ∉ voters → w'.process k = w.process k) ∧
      ∀ j ∈ voters, ReadyFor t (w'.process j).node := by
  induction voters generalizing w votes received waiting with
  | nil =>
      rw [List.length_nil] at henough
      omega
  | cons j rest ih =>
      have hne : j ≠ i := fun h => hself (h ▸ List.mem_cons_self)
      obtain ⟨hfresh, hrest⟩ := List.nodup_cons.mp hnodup
      obtain ⟨w₁, hreach, hsame, hready, hafter⟩ := gains_vote hi (hS j List.mem_cons_self) hne hw
        (hwaiting j List.mem_cons_self) (hbehind j List.mem_cons_self)
      have hkept : ∀ k ∈ rest, w₁.process k = w.process k := by
        intro k hk
        refine hsame k ?_ ?_
        · rintro rfl
          exact hself (List.mem_cons_of_mem _ hk)
        · rintro rfl
          exact hfresh hk
      have hlater : ∀ k ∈ rest, (w₁.process k).node.ps.currentTerm < t := by
        intro k hk
        rw [hkept k hk]
        exact hbehind k (List.mem_cons_of_mem _ hk)
      rcases hafter with hwon | ⟨hmiss, hgoes⟩
      · refine ⟨w₁, hreach, hwon, ?_, ?_⟩
        · intro k hk hnot
          exact hsame k hk fun h => hnot (h ▸ List.mem_cons_self)
        · intro k hk
          rcases List.mem_cons.mp hk with rfl | hk
          · exact hready
          · exact Or.inl (hlater k hk)
      · -- A majority is missing, so results are missing too.
        rw [List.length_cons] at henough
        obtain ⟨w₂, hreach₂, hwon, hsame₂, hready₂⟩ := ih
          (fun k hk => hS k (List.mem_cons_of_mem _ hk)) hrest
          (fun h => hself (List.mem_cons_of_mem _ h)) (hgoes (by omega)) (by
            intro k hk
            refine (List.mem_erase_of_ne ?_).mpr (hwaiting k (List.mem_cons_of_mem _ hk))
            intro hpeer
            exact hfresh (c.peer_injective hpeer ▸ hk))
          hlater (by omega) hmiss (by omega)
        refine ⟨w₂, hreach.trans hreach₂, hwon, ?_, ?_⟩
        · intro k hk hnot
          rw [hsame₂ k hk fun h => hnot (List.mem_cons_of_mem _ h)]
          exact hsame k hk fun h => hnot (h ▸ List.mem_cons_self)
        · intro k hk
          rcases List.mem_cons.mp hk with rfl | hk
          · rw [hsame₂ k hne hfresh]
            exact hready
          · exact hready₂ k hk

/-! ## Catching up with a later term -/

/-- A peer in a later term refuses, and the candidate adopts that term. -/
theorem campaign_superseded (hi : i ∈ S) (hj : j ∈ S) (hne : j ≠ i)
    (hw : Campaigning c i t votes received waiting w) (hwaiting : c.peer j ∈ waiting)
    (hahead : t < (w.process j).node.ps.currentTerm) :
    ∃ w', Reaches (step c) (Among S) w w' ∧ Only i w w' ∧
      Waits c i (w.process j).node.ps.currentTerm w' := by
  obtain ⟨w₁, hreach, hrest, hvoter, hself, _⟩ := receives_reply hi hj hne hw hwaiting
  obtain ⟨hnode, hreply⟩ :=
    handleRequestVote_stale (w.process j).node ⟨t, c.id i⟩ hahead
  rw [hnode] at hvoter
  rw [hreply] at hself
  have hcollect : perform (w₁.process i) .collect = some (collectResult (w₁.process i) t votes
      received (waiting.erase (c.peer j)) [] ⟨false, (w.process j).node.ps.currentTerm⟩) := by
    simp [perform, hself]
  have hlater : (w.process i).node.ps.currentTerm < (w.process j).node.ps.currentTerm := by
    rw [hw.term]
    exact hahead
  have hcount : countVote (w₁.process i).node votes
      ⟨false, (w.process j).node.ps.currentTerm⟩ =
      { node := { (w.process i).node with
          state := .follower, ps := ⟨(w.process j).node.ps.currentTerm, ""⟩ }
        saves := [⟨(w.process j).node.ps.currentTerm, ""⟩], reply := .superseded } := by
    simp [countVote, hself, becomeFollower, hlater]
  refine ⟨_, hreach.trans (reaches_act hi (a := .collect) trivial hcollect), ?_, ⟨?_, ?_, ?_⟩,
    ?_, ?_⟩
  · intro k hk
    rw [commit_of_ne hk]
    by_cases hkj : k = j
    · rw [hkj, hvoter]
    · exact hrest k hk hkj
  · rw [commit_self]
    simpa [collectResult, hcount] using hw.at'.id
  · rw [commit_self]
    simpa [collectResult, hcount] using hw.at'.peers
  · rw [commit_self]
    simp [collectResult, hcount, afterVerdict]
  · rw [commit_self]
    simp [collectResult, hcount]
  · rw [commit_self]
    simp [collectResult, hcount]

/-- Every call of the round fails, and the candidate waits for its next timer. -/
theorem campaign_fails (hi : i ∈ S) (hterm : 0 ≤ t)
    (hw : Campaigning c i t votes received waiting w)
    (hall : received + waiting.length = (c.others i).length) (hmore : waiting ≠ []) :
    ∃ w', Reaches (step c) (Among S) w w' ∧ Only i w w' ∧ Waits c i t w' := by
  induction waiting generalizing w received with
  | nil => exact absurd rfl hmore
  | cons peer rest ih =>
      have hreturn : perform (w.process i) (.voteReturn peer .failed) =
          some { process := { w.process i with
            loop := .collecting t votes received rest [(peer, .failed)] } } := by
        simp [perform, hw.at'.loop]
      obtain ⟨w₁, hreach, honly, hself, hrequests⟩ : ∃ w₁,
          Reaches (step c) (Among S) w w₁ ∧ Only i w w₁ ∧
          w₁.process i = { w.process i with
            loop := .collecting t votes received rest [(peer, .failed)] } ∧
          w₁.voteRequests = w.voteRequests :=
        ⟨_, reaches_act hi (a := .voteReturn peer .failed) (Or.inl rfl) hreturn, only_commit,
          commit_self, by simp [World.commit]⟩
      have hcount : countVote (w.process i).node votes .failed =
          { node := (w.process i).node, reply := .undecided votes } := by
        simp [countVote, VoteResult.failed, hw.term, hterm]
      obtain ⟨w₂, hreach₂, honly₂, hgoes, hends⟩ := counts_result hi hw hself hrequests hcount
      rw [List.length_cons] at hall
      by_cases hlast : rest = []
      · have hdone : ¬ received + 1 < (c.others i).length := by
          rw [hlast, List.length_nil] at hall
          omega
        exact ⟨w₂, hreach.trans hreach₂, honly.trans honly₂, hends hdone⟩
      · have hopen : received + 1 < (c.others i).length := by
          have := List.length_pos_iff.mpr hlast
          omega
        obtain ⟨w₃, hreach₃, honly₃, hwaits⟩ := ih (hgoes hopen) (by omega) hlast
        exact ⟨w₃, (hreach.trans hreach₂).trans hreach₃, (honly.trans honly₂).trans honly₃,
          hwaits⟩

end Campaign

/-- **A waiting node catches up** with a responsive peer that is ahead of it. -/
theorem catches_up {t : Int} (hi : i ∈ S) (hj : j ∈ S) (hne : j ≠ i) (hw : Waits c i t w)
    (hterm : 0 ≤ t) (hlimit : t + 1 < 2 ^ 63)
    (hahead : t < (w.process j).node.ps.currentTerm) :
    ∃ w', Reaches (step c) (Among S) w w' ∧ Only i w w' ∧
      Waits c i (w.process j).node.ps.currentTerm w' := by
  have hother : j ∈ c.others i := (c.mem_others i j).mpr hne
  obtain ⟨w₁, hreach, honly, hcampaign⟩ := starts_campaign hi hw.at' hw.notLeader
    (List.ne_nil_of_mem hother) (by rw [hw.term]; exact hlimit)
  rw [hw.term] at hcampaign
  by_cases hfar : t + 1 < (w.process j).node.ps.currentTerm
  · obtain ⟨w₂, hreach₂, honly₂, hwaits⟩ := campaign_superseded hi hj hne hcampaign
      (List.mem_map_of_mem hother) (by rw [honly j hne]; exact hfar)
    rw [honly j hne] at hwaits
    exact ⟨w₂, hreach.trans hreach₂, honly.trans honly₂, hwaits⟩
  · have hsame : (w.process j).node.ps.currentTerm = t + 1 := by omega
    have hpeers : c.peers i ≠ [] := List.ne_nil_of_mem (List.mem_map_of_mem hother)
    obtain ⟨w₂, hreach₂, honly₂, hwaits⟩ := campaign_fails hi (by omega) hcampaign
      (by simp [Cluster.peers]) hpeers
    rw [hsame]
    exact ⟨w₂, hreach.trans hreach₂, honly.trans honly₂, hwaits⟩

/-! ## The heartbeats of the new leader -/

section Heartbeats

variable {t : Int}

/-- The leader's heartbeats reach the nodes of a list, one after the other. -/
theorem hears (followers : List ν) (hS : ∀ j ∈ followers, j ∈ S) (hnodup : followers.Nodup)
    (hsent : ∀ j ∈ followers, (c.peer j, ⟨t, c.id i⟩) ∈ w.appendRequests)
    (hready : ∀ j ∈ followers, ReadyFor t (w.process j).node) :
    ∃ w', Reaches (step c) (Among S) w w' ∧
      (∀ k ∉ followers, w'.process k = w.process k) ∧
      (∀ j ∈ followers, FollowsIn t (c.id i) (w'.process j).node) ∧
      ∀ m ∈ w.elected, m ∈ w'.elected := by
  induction followers generalizing w with
  | nil => exact ⟨w, .refl _ _, fun _ _ => rfl, by simp, fun _ hm => hm⟩
  | cons j rest ih =>
      obtain ⟨hfresh, hrest⟩ := List.nodup_cons.mp hnodup
      obtain ⟨w₁, hreach, hself, hsame, hkept, hrecord⟩ : ∃ w₁,
          Reaches (step c) (Among S) w w₁ ∧
          FollowsIn t (c.id i) (w₁.process j).node ∧
          (∀ k, k ≠ j → w₁.process k = w.process k) ∧
          (∀ m ∈ w.appendRequests, m ∈ w₁.appendRequests) ∧ ∀ m ∈ w.elected, m ∈ w₁.elected := by
        refine ⟨_, reaches_act (hS j List.mem_cons_self)
          (a := .handleAppendEntries ⟨t, c.id i⟩ 0) (hsent j List.mem_cons_self) rfl, ?_,
          fun k hk => commit_of_ne hk, fun m hm => List.mem_append_left _ hm,
          fun m hm => List.mem_append_left _ hm⟩
        rw [commit_self]
        exact handleAppendEntries_follows _ ⟨t, c.id i⟩ 0 (hready j List.mem_cons_self)
      have hne : ∀ k ∈ rest, k ≠ j := by
        rintro k hk rfl
        exact hfresh hk
      obtain ⟨w₂, hreach₂, hsame₂, hfollow, hrecord₂⟩ := ih
        (fun k hk => hS k (List.mem_cons_of_mem _ hk)) hrest
        (fun k hk => hkept _ (hsent k (List.mem_cons_of_mem _ hk))) (by
          intro k hk
          rw [hsame k (hne k hk)]
          exact hready k (List.mem_cons_of_mem _ hk))
      refine ⟨w₂, hreach.trans hreach₂, ?_, ?_, fun m hm => hrecord₂ m (hrecord m hm)⟩
      · intro k hk
        rw [hsame₂ k fun h => hk (List.mem_cons_of_mem _ h)]
        exact hsame k fun h => hk (h ▸ List.mem_cons_self)
      · intro k hk
        rcases List.mem_cons.mp hk with rfl | hk
        · rw [hsame₂ k hfresh]
          exact hself
        · exact hfollow k hk

/-- **The new leader is followed** by every peer its heartbeats reach. -/
theorem all_follow (hi : i ∈ S) (followers : List ν) (hS : ∀ j ∈ followers, j ∈ S)
    (hnodup : followers.Nodup) (hself : i ∉ followers) (hw : HasWon c i t w)
    (hready : ∀ j ∈ followers, ReadyFor t (w.process j).node) :
    ∃ w', Reaches (step c) (Among S) w w' ∧ (w'.process i).node.state = .leader ∧
      (w'.process i).node.ps.currentTerm = t ∧ (i, t) ∈ w'.elected ∧
      ∀ j ∈ followers, FollowsIn t (c.id i) (w'.process j).node := by
  have hsend : perform (w.process i) .sendHeartbeats = some (sendHeartbeats (w.process i)) := by
    simp [perform, hw.at'.loop]
  obtain ⟨w₁, hreach, hnode, hsame, hsent, hrecord⟩ : ∃ w₁,
      Reaches (step c) (Among S) w w₁ ∧ (w₁.process i).node = (w.process i).node ∧
      Only i w w₁ ∧ (∀ j, j ≠ i → (c.peer j, ⟨t, c.id i⟩) ∈ w₁.appendRequests) ∧
      (i, t) ∈ w₁.elected := by
    refine ⟨_, reaches_act hi (a := .sendHeartbeats) trivial hsend, ?_, only_commit, ?_,
      List.mem_append_left _ hw.recorded⟩
    · rw [commit_self]
      rfl
    · intro j hj
      refine List.mem_append_right _ (List.mem_filterMap.mpr
        ⟨.appendEntries (c.peer j) ⟨t, c.id i⟩, ?_, rfl⟩)
      have hmem : c.peer j ∈ c.peers i := List.mem_map_of_mem ((c.mem_others i j).mpr hj)
      simpa [sendHeartbeats, hw.at'.peers, hw.at'.id, hw.term] using hmem
  have hne : ∀ j ∈ followers, j ≠ i := by
    rintro j hj rfl
    exact hself hj
  obtain ⟨w₂, hreach₂, hsame₂, hfollow, hrecord₂⟩ := hears (c := c) (i := i) (t := t) followers hS
    hnodup (fun j hj => hsent j (hne j hj)) (by
      intro j hj
      rw [hsame j (hne j hj)]
      exact hready j hj)
  refine ⟨w₂, hreach.trans hreach₂, ?_, ?_, hrecord₂ _ hrecord, hfollow⟩
  · rw [hsame₂ i hself, hnode]
    exact hw.leader
  · rw [hsame₂ i hself, hnode]
    exact hw.term

end Heartbeats

/-! ## From every reachable world -/

/-- A waiting node gets into the latest term among its own and those of the
responsive peers. -/
theorem reaches_latest {t : Int} (up : List ν) (hself : i ∉ up) (hw : Waits c i t w)
    (hterm : 0 ≤ t) (hlimit : t + 1 < 2 ^ 63) :
    ∃ w' t', Reaches (step c) (Among (i :: up)) w w' ∧ Only i w w' ∧ Waits c i t' w' ∧
      (∀ j ∈ up, (w.process j).node.ps.currentTerm ≤ t') ∧
      ∃ k ∈ i :: up, t' = (w.process k).node.ps.currentTerm := by
  by_cases hahead : ∃ j ∈ up, t < (w.process j).node.ps.currentTerm
  · obtain ⟨j, hj, hlt⟩ := hahead
    obtain ⟨m, hm, hmax⟩ := up.toFinset.exists_max_image
      (fun j => (w.process j).node.ps.currentTerm) ⟨j, List.mem_toFinset.mpr hj⟩
    rw [List.mem_toFinset] at hm
    have hlast : t < (w.process m).node.ps.currentTerm :=
      hlt.trans_le (hmax j (List.mem_toFinset.mpr hj))
    have hne : m ≠ i := fun h => hself (h ▸ hm)
    obtain ⟨w', hreach, honly, hwaits⟩ := catches_up List.mem_cons_self
      (List.mem_cons_of_mem _ hm) hne hw hterm hlimit hlast
    exact ⟨w', _, hreach, honly, hwaits, fun k hk => hmax k (List.mem_toFinset.mpr hk), m,
      List.mem_cons_of_mem _ hm, rfl⟩
  · refine ⟨w, t, .refl _ _, fun _ _ => rfl, hw, ?_, i, List.mem_cons_self, hw.term.symm⟩
    intro j hj
    by_contra hlt
    exact hahead ⟨j, hj, not_le.mp hlt⟩

/-- **A responsive majority can always elect a leader.**  From every reachable
world, a node that waits in its `select` and is no leader can become the leader
with the help of any peers `up` that are a majority together with it, while no
other node moves and nobody crashes.  The new term is at most one later than
the terms these nodes were in, and in the end all of them follow the leader.
The node's term must not be negative, and no term of these nodes may be the last
that an `int64` holds. -/
theorem leader_electable [Fintype ν] (c : Cluster ν) (files : ν → Option PersistentState)
    (evs : List (Event ν)) (w : World ν)
    (h : run (step c) (World.init c files) evs = some w) (i : ν) (up : List ν)
    (hnodup : up.Nodup) (hself : i ∉ up) (hmajority : Fintype.card ν < 2 * (up.length + 1))
    (hmany : 1 < Fintype.card ν) (hloop : (w.process i).loop = .select)
    (hnot : (w.process i).node.state ≠ .leader)
    (hterm : 0 ≤ (w.process i).node.ps.currentTerm)
    (hlimit : ∀ j ∈ i :: up, (w.process j).node.ps.currentTerm + 1 < 2 ^ 63) :
    ∃ later w' t, run (step c) w later = some w' ∧ (∀ ev ∈ later, Among (i :: up) ev) ∧
      (w'.process i).node.state = .leader ∧ (w'.process i).node.ps.currentTerm = t ∧
      (i, t) ∈ w'.elected ∧
      (∀ s, (∀ j ∈ i :: up, (w.process j).node.ps.currentTerm ≤ s) → t ≤ s + 1) ∧
      ∀ j ∈ up, FollowsIn t (c.id i) (w'.process j).node := by
  obtain ⟨hr, _⟩ := reachable_invariants c files h
  have hcard := others_length c i
  have hwaits : Waits c i (w.process i).node.ps.currentTerm w :=
    ⟨⟨(hr.identity i).1, (hr.identity i).2, hloop⟩, hnot, rfl⟩
  have hne : ∀ j ∈ up, j ≠ i := by
    rintro j hj rfl
    exact hself hj
  obtain ⟨w₁, t, hreach₁, honly₁, hwaits₁, hlatest, k, hk, ht⟩ :=
    reaches_latest up hself hwaits hterm (hlimit i List.mem_cons_self)
  have hothers : c.others i ≠ [] := by
    intro hnone
    rw [hnone, List.length_nil] at hcard
    omega
  obtain ⟨w₂, hreach₂, honly₂, hcampaign⟩ := starts_campaign (S := i :: up) List.mem_cons_self
    hwaits₁.at' hwaits₁.notLeader hothers (by rw [hwaits₁.term, ht]; exact hlimit k hk)
  rw [hwaits₁.term] at hcampaign
  obtain ⟨w₃, hreach₃, hwon, _, hready⟩ := campaign_wins List.mem_cons_self up
    (fun j hj => List.mem_cons_of_mem _ hj) hnodup hself hcampaign
    (fun j hj => List.mem_map_of_mem ((c.mem_others i j).mpr (hne j hj))) (by
      intro j hj
      rw [honly₂ j (hne j hj), honly₁ j (hne j hj)]
      exact Int.lt_add_one_of_le (hlatest j hj))
    rfl (by omega) (by omega)
  obtain ⟨w₄, hreach₄, hlead, hterm₄, hrecord, hfollow⟩ := all_follow List.mem_cons_self up
    (fun j hj => List.mem_cons_of_mem _ hj) hnodup hself hwon hready
  obtain ⟨later, hamong, hrun⟩ := ((hreach₁.trans hreach₂).trans hreach₃).trans hreach₄
  refine ⟨later, w₄, t + 1, hrun, hamong, hlead, hterm₄, hrecord, ?_, hfollow⟩
  intro s hs
  have := hs k hk
  omega

/-- After the second of three nodes has become the leader of term one without
the third, the first and the third can elect the third. -/
def electsSecond : List (Event (Fin 3)) :=
  [.act node2 (.electionTimeout second), .act node2 .startElection,
   .act node1 (.handleRequestVote ⟨1, "node2"⟩),
   .act node2 (.voteReturn ⟨"node1", "node1:9001"⟩ ⟨true, 1⟩), .act node2 .collect]

/-- The second node is elected; then the third one can be, in a later term. -/
theorem leader_electable_electsSecond :
    ∃ w, run (step threeNodes) (World.init threeNodes fun _ => none) electsSecond = some w ∧
      (w.process node2).node.state = .leader ∧
      ∃ later w', run (step threeNodes) w later = some w' ∧
        (w'.process node3).node.state = .leader ∧ (w'.process node3).node.ps.currentTerm ≤ 2 ∧
        FollowsIn (w'.process node3).node.ps.currentTerm "node3" (w'.process node1).node := by
  obtain ⟨w, hrun, hlead, hloop, hnot, hone, hlast⟩ : ∃ w,
      run (step threeNodes) (World.init threeNodes fun _ => none) electsSecond = some w ∧
        (w.process node2).node.state = .leader ∧ (w.process node3).loop = .select ∧
        (w.process node3).node.state ≠ .leader ∧
        (w.process node1).node.ps.currentTerm = 1 ∧ (w.process node3).node.ps.currentTerm = 0 :=
    exists_run (by decide) (by decide)
  have hterms : ∀ j ∈ [node3, node1], (w.process j).node.ps.currentTerm ≤ 1 := by
    simp [hone, hlast]
  obtain ⟨later, w', t, hlater, _, hleader, ht, _, hbound, hfollow⟩ :=
    leader_electable threeNodes _ _ w hrun node3 [node1] (by decide) (by decide) (by decide)
      (by decide) hloop hnot (by rw [hlast])
      (fun j hj => (Int.add_le_add_right (hterms j hj) 1).trans_lt (by decide))
  refine ⟨w, hrun, hlead, later, w', hlater, hleader, ?_, ?_⟩
  · rw [ht]
    exact hbound 1 hterms
  · rw [ht]
    exact hfollow node1 (by decide)

end Raft
