import DistributedCaching.LeaderStability
import DistributedCaching.LeaderWiring

/-!
# The transport that the cache node is started with

`main` starts the Raft node with `NewGRPCTransport`.  Both calls of that
transport dial the peer and then return an error: the generated client is not
there yet.  `main` registers no handler for incoming calls either, so the only
inputs of a deployed node are its timers, the failures of its own calls, the
goroutine that drains the channel of leaders, and health reports.

`deployed_never_leads` says what follows for every run of a deployed node, on
any state file and with any peers: it never becomes the leader, its coordinator
never leaves the state in which it rejects every request, and each election it
starts makes its term one larger and nothing else.
-/

namespace Cluster

open Go Raft TransitionRuns

/-! ## The calls -/

/-- What both calls return, whether or not the dial succeeded. -/
def grpcCall {ρ : Type} (dialError : Option String) (peerAddr : String) : Except String ρ :=
  match dialError with
  | some err => .error ("transport: dial " ++ peerAddr ++ ": " ++ err)
  | none => .error "transport: proto-gen required — run make proto-gen"

/-- `grpcTransport.RequestVote`, given how the dial ends. -/
def grpcRequestVote (dialError : Option String) (peerAddr : String)
    (_ : RequestVoteRequest) : Except String RequestVoteResponse :=
  grpcCall dialError peerAddr

/-- `grpcTransport.AppendEntries`, given how the dial ends. -/
def grpcAppendEntries (dialError : Option String) (peerAddr : String)
    (_ : AppendEntriesRequest) : Except String AppendEntriesResponse :=
  grpcCall dialError peerAddr

/-- What a goroutine of `startElection` puts on `resultCh`. -/
def voteResultOf : Except String RequestVoteResponse → VoteResult
  | .error _ => .failed
  | .ok resp => ⟨resp.voteGranted, resp.term⟩

@[simp]
theorem voteResultOf_grpc (dialError : Option String) (peerAddr : String)
    (req : RequestVoteRequest) :
    voteResultOf (grpcRequestVote dialError peerAddr req) = .failed := by
  cases dialError <;> rfl

@[simp]
theorem toOption_grpc (dialError : Option String) (peerAddr : String)
    (req : AppendEntriesRequest) :
    (grpcAppendEntries dialError peerAddr req).toOption = none := by
  cases dialError <;> rfl

/-! ## A deployed node -/

inductive DeployedEvent
  | heartbeatTick
  | electionTimeout (now : Time)
  | startElection
  /-- The vote call to `peer` returns after its dial ended so. -/
  | voteReturn (peer : PeerConfig) (dialError : Option String)
  | collect
  | sendHeartbeats
  /-- The heartbeat call to `peer` returns after its dial ended so. -/
  | heartbeatReturn (peer : PeerConfig) (term : Int) (dialError : Option String)
  | stop
  | receiveLeader
  | setLeader
  | health (nodeID : String) (available : Bool)
  deriving DecidableEq, Repr

/-- The event as one of the wired node, with the calls made through the
transport. -/
def DeployedEvent.atNode (s : CacheNode) : DeployedEvent → NodeEvent
  | .heartbeatTick => .raft .heartbeatTick
  | .electionTimeout now => .raft (.electionTimeout now)
  | .startElection => .raft .startElection
  | .voteReturn peer dialError =>
      .raft (.voteReturn peer (voteResultOf (grpcRequestVote dialError peer.addr
        ⟨s.process.loop.campaignTerm.getD 0, s.process.node.id⟩)))
  | .collect => .raft .collect
  | .sendHeartbeats => .raft .sendHeartbeats
  | .heartbeatReturn peer term dialError =>
      .raft (.heartbeatReturn peer term
        (grpcAppendEntries dialError peer.addr ⟨term, s.process.node.id⟩).toOption)
  | .stop => .raft .stop
  | .receiveLeader => .receiveLeader
  | .setLeader => .setLeader
  | .health nodeID available => .health nodeID available

def deployedStep (s : CacheNode) (ev : DeployedEvent) : Option CacheNode :=
  nodeStep s (ev.atNode s)

/-- No leader, nothing announced, and no vote waiting to be counted. -/
structure Unelected (s : CacheNode) : Prop where
  state : s.process.node.state ≠ .leader
  quiet : ¬ Announced s
  results : ∀ r ∈ s.process.loop.results, r.2 = .failed

/-- A node that has just started is no leader, has announced nothing and waits for no vote. -/
theorem unelected_start (nodeID : String) (grpcPort : Int) (peers : List PeerConfig)
    (file : Option PersistentState) :
    Unelected (startCacheNode nodeID grpcPort peers file) where
  state := by simp [startCacheNode, startProcess, newRaftNode]
  quiet := by simp [Announced, startCacheNode, startProcess, newRaftNode, newCoordinator]
  results := by simp [startCacheNode, startProcess, Loop.results]

section Steps

variable {s s' : CacheNode} {ev : DeployedEvent} {a : Action}

/-- The vote calls of a deployed node fail. -/
theorem failed_of_voteReturn {peer : PeerConfig} {result : VoteResult}
    (h : ev.atNode s = .raft (.voteReturn peer result)) : result = .failed := by
  cases ev <;> simp [DeployedEvent.atNode] at h
  exact h.2.symm

/-- A section of the Raft node does not elect it when all results have failed. -/
theorem not_leader_perform {e : Effect} (hs : Unelected s)
    (he : perform s.process a = some e) : e.process.node.state ≠ .leader := by
  intro hlead
  rcases perform_leader he hlead with ⟨hwas, _⟩ | helected
  · exact hs.state hwas
  · obtain ⟨peer, result, _, _, _, _, _, hloop, hgranted, _⟩ := perform_elected he helected
    have hfailed : result = .failed := hs.results (peer, result) (by rw [hloop]; exact .head _)
    rw [hfailed] at hgranted
    cases hgranted

/-- **One step of a deployed node elects nobody.** -/
theorem unelected_step (hs : Unelected s) (h : deployedStep s ev = some s') : Unelected s' := by
  rcases nodeStep_cases h with ⟨a, e, hev, ha, he, rfl⟩ | ⟨l, rest, _, _, hch, rfl⟩ |
    ⟨l, _, hl, rfl⟩ | ⟨n, available, _, rfl⟩
  · have hstate := not_leader_perform hs he
    refine ⟨hstate, ?_, ?_⟩
    · intro hann
      rcases perform_channel he ha with hsame | hnode
      · refine hs.quiet ?_
        rcases hann with hflag | hpending | hch
        · exact Or.inl hflag
        · exact Or.inr (Or.inl hpending)
        · exact Or.inr (Or.inr (hsame ▸ hch))
      · exact hstate (by rw [hnode]; rfl)
    · intro r hr
      rcases perform_results he hr with hold | rfl
      · exact hs.results r hold
      · exact failed_of_voteReturn hev
  · exact absurd (Or.inr (Or.inr (by simp [hch]))) hs.quiet
  · exact absurd (Or.inr (Or.inl (by simp [hl]))) hs.quiet
  · refine ⟨hs.state, ?_, hs.results⟩
    intro hann
    refine hs.quiet ?_
    rcases hann with hflag | hrest
    · exact Or.inl (by simpa using hflag)
    · exact Or.inr hrest

/-! ## The term counts the elections -/

/-- An event that starts an election. -/
def DeployedEvent.isElection : DeployedEvent → Bool
  | .startElection => true
  | _ => false

/-- The number of elections that a run starts. -/
def elections (evs : List DeployedEvent) : Nat := evs.countP DeployedEvent.isElection

/-- No input of a deployed node carries a positive term. -/
theorem inputTerm_le_zero (h : ev.atNode s = .raft a) : ∀ t ∈ a.inputTerm, t ≤ 0 := by
  intro t ht
  cases ev <;> simp [DeployedEvent.atNode] at h <;> subst h <;> simp [Action.inputTerm] at ht
  simp [← ht, VoteResult.failed]

/-- Only an election changes a term that is not negative. -/
theorem term_step (hs : Unelected s) (hterm : 0 ≤ s.process.node.ps.currentTerm)
    (hlimit : ev.isElection = true → s.process.node.ps.currentTerm + 1 < 2 ^ 63)
    (h : deployedStep s ev = some s') :
    s'.process.node.ps.currentTerm =
      s.process.node.ps.currentTerm + if ev.isElection then 1 else 0 := by
  rcases nodeStep_cases h with ⟨a, e, hev, _, he, rfl⟩ | ⟨l, rest, hev, _, _, rfl⟩ |
    ⟨l, hev, _, rfl⟩ | ⟨n, available, hev, rfl⟩
  · by_cases helection : ev.isElection = true
    · have ha : a = .startElection := by
        cases ev <;> simp [DeployedEvent.isElection] at helection
        simpa [DeployedEvent.atNode] using hev.symm
      subst ha
      simp only [perform] at he
      split at he <;> cases he
      simp [helection, startElection, becomeCandidate, incInt64_of_lt (hlimit helection)]
    · have ha : a ≠ .startElection := by
        rintro rfl
        cases ev <;> simp [DeployedEvent.atNode, DeployedEvent.isElection] at hev helection
      have hle : e.process.node.ps.currentTerm ≤ s.process.node.ps.currentTerm := by
        refine perform_term_le he ha (le_refl _) ?_ ?_
        · intro t ht
          exact (inputTerm_le_zero hev t ht).trans hterm
        · intro r hr
          rw [hs.results r hr]
          exact hterm
      have hge : s.process.node.ps.currentTerm ≤ e.process.node.ps.currentTerm :=
        (perform_advance he fun heq => absurd heq ha).advances.term_le
      simp only [helection, Bool.false_eq_true, if_false, Int.add_zero]
      exact le_antisymm hle hge
  all_goals
    have hnot : ev.isElection = false := by
      cases ev <;> simp [DeployedEvent.atNode] at hev
      rfl
    simp [hnot]

end Steps

/-- Along a run the term grows by one with every election. -/
theorem term_run {s t : CacheNode} {evs : List DeployedEvent} (hs : Unelected s)
    (hterm : 0 ≤ s.process.node.ps.currentTerm)
    (hlimit : s.process.node.ps.currentTerm + elections evs < 2 ^ 63)
    (h : run deployedStep s evs = some t) :
    t.process.node.ps.currentTerm = s.process.node.ps.currentTerm + elections evs := by
  induction evs generalizing s with
  | nil =>
      cases h
      simp [elections]
  | cons ev evs ih =>
      obtain ⟨m, hm, hmt⟩ := run_cons_some h
      have hcount : (elections (ev :: evs) : Int) =
          elections evs + if ev.isElection then 1 else 0 := by
        simp only [elections, List.countP_cons]
        split <;> simp
      rw [hcount] at hlimit ⊢
      have hroom : ev.isElection = true → s.process.node.ps.currentTerm + 1 < 2 ^ 63 := by
        intro hev
        rw [if_pos hev] at hlimit
        omega
      have hstep := term_step hs hterm hroom hm
      have hrest := ih (unelected_step hs hm) (by rw [hstep]; split <;> omega)
        (by rw [hstep]; omega) hmt
      rw [hrest, hstep]
      omega

/-- The coordinator of a deployed node keeps its flag down. -/
theorem deployed_flag {nodeID : String} {grpcPort : Int} {peers : List PeerConfig}
    {file : Option PersistentState} {evs : List DeployedEvent} {s : CacheNode}
    (h : run deployedStep (startCacheNode nodeID grpcPort peers file) evs = some s) :
    Unelected s ∧ s.coordinator.isLeader = false := by
  have hs : Unelected s := run_invariant (fun _ _ _ hinv hstep => unelected_step hinv hstep)
    (unelected_start nodeID grpcPort peers file) h
  refine ⟨hs, ?_⟩
  by_contra hup
  exact hs.quiet (Or.inl (by simpa using hup))

/-- **A deployed node never leads.**  In every run of a cache node as `main`
starts it, on any state file and with any peers: it is never the leader, its
coordinator rejects every request, and its term is the one it was started in
plus the number of elections it has started, if the term it was started in is
not negative, up to the largest `int64`. -/
theorem deployed_never_leads (nodeID : String) (grpcPort : Int) (peers : List PeerConfig)
    (file : Option PersistentState) (evs : List DeployedEvent) (s : CacheNode)
    (h : run deployedStep (startCacheNode nodeID grpcPort peers file) evs = some s) :
    s.process.node.state ≠ .leader ∧ s.coordinator.isLeader = false ∧
      (∀ key, s.coordinator.route key = .error .noCoordinator) ∧
      (0 ≤ (loadState file).currentTerm →
        (loadState file).currentTerm + elections evs < 2 ^ 63 →
        s.process.node.ps.currentTerm = (loadState file).currentTerm + elections evs) := by
  obtain ⟨hs, hflag⟩ := deployed_flag h
  refine ⟨hs.state, hflag, fun key => route_eq_noCoordinator.mpr (Or.inl hflag), ?_⟩
  intro hterm hlimit
  exact term_run (unelected_start nodeID grpcPort peers file) hterm hlimit h

/-- Two rounds of a node with one peer: the dial fails, then it succeeds and the
call fails all the same. -/
def twoRounds : List DeployedEvent :=
  [.electionTimeout second, .startElection,
   .voteReturn ⟨"node2", "node2:9002"⟩ (some "context deadline exceeded"), .collect,
   .electionTimeout (2 * second), .startElection,
   .voteReturn ⟨"node2", "node2:9002"⟩ none, .collect]

/-- Two rounds of elections lead to term six and to no coordinator. -/
theorem deployed_never_leads_twoRounds :
    ∃ s, run deployedStep
        (startCacheNode "node1" 9001 [⟨"node2", "node2:9002"⟩] (some ⟨4, "node2"⟩)) twoRounds =
          some s ∧
      s.process.node.ps.currentTerm = 6 ∧
      s.coordinator.route "product:1" = .error .noCoordinator := by
  obtain ⟨s, hs⟩ : ∃ s, run deployedStep
      (startCacheNode "node1" 9001 [⟨"node2", "node2:9002"⟩] (some ⟨4, "node2"⟩)) twoRounds =
        some s :=
    Option.isSome_iff_exists.mp (by decide)
  obtain ⟨_, _, hroute, hterm⟩ := deployed_never_leads _ _ _ _ _ s hs
  exact ⟨s, hs, hterm (by decide) (by decide), hroute _⟩

end Cluster
