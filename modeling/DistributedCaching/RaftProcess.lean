import DistributedCaching.RaftNode

/-!
# One Raft process: the node, its `runLoop` and its goroutines

A process is a node together with the program point of its single `runLoop`
and the heartbeat goroutines still waiting for a reply.  An `Action` is one
critical section, or one communication on a channel; between two actions the
mutex is free and any other action of the process may run.  In particular the
check `state == Leader` of the ticker branch and the read of the term in
`sendHeartbeats` are two different actions, as are the check of the timer
branch and `becomeCandidate`.

Messages of the environment are parameters of the actions.  What is handed to
the transport, what is returned to callers, and the moments at which votes
are cast and leaders appear are recorded as `Output`s.
-/

namespace Raft

open Go MajorityVotes

/-- `electionTimeoutMin`. -/
def electionTimeoutMin : Duration := 150 * millisecond

/-- The program point of `runLoop`. -/
inductive Loop
  /-- Blocked in the `select`. -/
  | select
  /-- The ticker branch has seen `Leader` and is about to send heartbeats. -/
  | heartbeatDue
  /-- The timer branch has decided to call `startElection`. -/
  | electionDue
  /-- In the vote-collecting loop of `startElection`: the term in the requests,
  the votes counted, the results received, the goroutines still waiting for
  their call to return, and the results on `resultCh`.  Each result is tagged
  with the peer it came from; the loop does not look at the tag. -/
  | collecting (term : Int) (votes received : Nat) (waiting : List PeerConfig)
      (resultCh : List (PeerConfig × VoteResult))
  /-- `becomeLeader` has run and the heartbeats that follow it have not. -/
  | won
  /-- `runLoop` has returned. -/
  | stopped
  deriving DecidableEq, Repr

/-- The term of the vote requests of the election in progress. -/
def Loop.campaignTerm : Loop → Option Int
  | .collecting term _ _ _ _ => some term
  | _ => none

structure Process where
  node : RaftNode
  loop : Loop := .select
  /-- Heartbeat goroutines waiting for a reply: the peer and the term sent. -/
  heartbeats : List (PeerConfig × Int) := []
  deriving DecidableEq, Repr

/-- A process as it is started on a state directory holding `file`. -/
def startProcess (id : String) (peers : List PeerConfig)
    (file : Option PersistentState) : Process :=
  { node := newRaftNode id peers file }

inductive Action
  | handleRequestVote (req : RequestVoteRequest)
  | handleAppendEntries (req : AppendEntriesRequest) (now : Time)
  /-- The ticker branch of `runLoop`, up to its unlock. -/
  | heartbeatTick
  /-- The timer branch of `runLoop`, up to the decision it takes. -/
  | electionTimeout (now : Time)
  /-- The first section of `startElection` and the start of its goroutines. -/
  | startElection
  /-- The call of one of these goroutines returns. -/
  | voteReturn (peer : PeerConfig) (result : VoteResult)
  /-- One iteration of the vote-collecting loop. -/
  | collect
  /-- The section of `sendHeartbeats` and the start of its goroutines. -/
  | sendHeartbeats
  /-- The call of one of these returns, with an error (`none`) or a reply. -/
  | heartbeatReturn (peer : PeerConfig) (term : Int)
      (resp : Option AppendEntriesResponse)
  /-- A receive from `LeaderCh()`. -/
  | receiveLeader
  /-- `runLoop` sees the closed `stopCh`. -/
  | stop
  deriving DecidableEq, Repr

inductive Output
  | voteReply (req : RequestVoteRequest) (resp : RequestVoteResponse)
  | appendReply (req : AppendEntriesRequest) (resp : AppendEntriesResponse)
  | requestVote (peer : PeerConfig) (req : RequestVoteRequest)
  | appendEntries (peer : PeerConfig) (req : AppendEntriesRequest)
  /-- `becomeCandidate` ran: the node voted for itself in this term. -/
  | campaign (term : Int)
  /-- `becomeLeader` ran in this term. -/
  | elected (term : Int)
  /-- The value a receive from `LeaderCh()` yields. -/
  | leaderNotice (leaderID : String)
  deriving DecidableEq, Repr

/-- The outcome of an action. -/
structure Effect where
  process : Process
  saves : List PersistentState := []
  out : List Output := []

/-- The loop after an iteration that did not decide the election. -/
def nextIteration (n : RaftNode) (term : Int) (votes received : Nat)
    (waiting : List PeerConfig) (resultCh : List (PeerConfig × VoteResult)) : Loop :=
  if received < n.peers.length then .collecting term votes received waiting resultCh
  else .select

/-- The program point an iteration of the vote-collecting loop leads to. -/
def afterVerdict (n : RaftNode) (term : Int) (received : Nat)
    (waiting : List PeerConfig) (resultCh : List (PeerConfig × VoteResult)) :
    Verdict → Loop
  | .superseded => .select
  | .won => .won
  | .undecided votes => nextIteration n term votes received waiting resultCh

/-- The first section of `startElection`: become a candidate, and start one
goroutine for each peer. -/
def startElection (p : Process) : Effect :=
  let r := becomeCandidate p.node
  let term := r.node.ps.currentTerm
  { process := { p with
      node := r.node
      loop := nextIteration r.node term 1 0 r.node.peers [] }
    saves := r.saves
    out := .campaign term ::
      r.node.peers.map fun peer => .requestVote peer ⟨term, r.node.id⟩ }

/-- The loop body of `startElection` on the next result. -/
def collectResult (p : Process) (term : Int) (votes received : Nat)
    (waiting : List PeerConfig) (resultCh : List (PeerConfig × VoteResult))
    (result : VoteResult) : Effect :=
  let r := countVote p.node votes result
  { process := { p with
      node := r.node
      loop := afterVerdict r.node term (received + 1) waiting resultCh r.reply }
    saves := r.saves
    out := if r.reply = .won then [.elected r.node.ps.currentTerm] else [] }

/-- `sendHeartbeats`: read the term, and start one goroutine for each peer. -/
def sendHeartbeats (p : Process) : Effect :=
  let term := p.node.ps.currentTerm
  { process := { p with
      loop := .select
      heartbeats := p.heartbeats ++ p.node.peers.map fun peer => (peer, term) }
    out := p.node.peers.map fun peer => .appendEntries peer ⟨term, p.node.id⟩ }

/-- What an action does, or `none` when the process is not at the program
point that the action belongs to. -/
def perform (p : Process) : Action → Option Effect
  | .handleRequestVote req =>
      let r := handleRequestVote p.node req
      some { process := { p with node := r.node }, saves := r.saves
             out := [.voteReply req r.reply] }
  | .handleAppendEntries req now =>
      let r := handleAppendEntries p.node req now
      some { process := { p with node := r.node }, saves := r.saves
             out := [.appendReply req r.reply] }
  | .heartbeatTick =>
      if p.loop = .select then
        if p.node.state = .leader then
          some { process := { p with loop := .heartbeatDue } }
        else some { process := p }
      else none
  | .electionTimeout now =>
      if p.loop = .select then
        if p.node.state = .leader then some { process := p }
        else if now - p.node.lastHeartbeat < electionTimeoutMin then some { process := p }
        else some { process := { p with loop := .electionDue } }
      else none
  | .startElection =>
      if p.loop = .electionDue then some (startElection p) else none
  | .voteReturn peer result =>
      match p.loop with
      | .collecting term votes received waiting resultCh =>
          if peer ∈ waiting then
            some { process := { p with
                     loop := .collecting term votes received (waiting.erase peer)
                       (resultCh ++ [(peer, result)]) } }
          else none
      | _ => none
  | .collect =>
      match p.loop with
      | .collecting term votes received waiting ((_, result) :: resultCh) =>
          some (collectResult p term votes received waiting resultCh result)
      | _ => none
  | .sendHeartbeats =>
      if p.loop = .heartbeatDue ∨ p.loop = .won then some (sendHeartbeats p) else none
  | .heartbeatReturn peer term resp =>
      if (peer, term) ∈ p.heartbeats then
        let waiting := p.heartbeats.erase (peer, term)
        match resp with
        | none => some { process := { p with heartbeats := waiting } }
        | some resp =>
            let r := heartbeatReply p.node resp
            some { process := { p with node := r.node, heartbeats := waiting }
                   saves := r.saves }
      else none
  | .receiveLeader =>
      match p.node.leaderCh with
      | leaderID :: rest =>
          some { process := { p with node := { p.node with leaderCh := rest } }
                 out := [.leaderNotice leaderID] }
      | [] => none
  | .stop =>
      if p.loop = .select then some { process := { p with loop := .stopped } } else none

/-! ## What an action can do

Three actions belong to an election: starting it, the return of a vote call,
and an iteration of the loop.  All others are `Quiet`: they never make a
candidate or a leader, and never enter or change the vote-collecting loop. -/

/-- The effect of an action outside an election. -/
structure Quiet (p : Process) (a : Action) (e : Effect) : Prop where
  identity : SameIdentity p.node e.process.node
  advance : SavesAdvance p.node.ps e.saves e.process.node.ps
  role : KeepsRole p.node e.process.node
  loop : e.process.loop = p.loop ∨
    e.process.loop = .select ∨ e.process.loop = .heartbeatDue ∨
    e.process.loop = .electionDue ∨ e.process.loop = .stopped
  due : e.process.loop = .electionDue →
    p.loop = .electionDue ∨ e.process.node.state ≠ .leader
  tick : e.process.loop = .heartbeatDue →
    p.loop = .heartbeatDue ∨ e.process.node.state = .leader
  out : ∀ o ∈ e.out,
    (∃ req, a = .handleRequestVote req ∧
      o = .voteReply req (handleRequestVote p.node req).reply ∧
      e.process.node = (handleRequestVote p.node req).node) ∨
    (∃ req now, a = .handleAppendEntries req now ∧
      o = .appendReply req (handleAppendEntries p.node req now).reply) ∨
    (∃ peer ∈ p.node.peers, a = .sendHeartbeats ∧
      o = .appendEntries peer ⟨p.node.ps.currentTerm, p.node.id⟩) ∨
    (∃ leaderID, a = .receiveLeader ∧ o = .leaderNotice leaderID)

variable {p : Process} {a : Action} {e : Effect}

/-- A quiet action that leaves the node alone and outputs nothing. -/
theorem Quiet.of_same_node {p' : Process} (hnode : p'.node = p.node)
    (hloop : p'.loop = p.loop ∨ p'.loop = .select ∨ p'.loop = .heartbeatDue ∨
      p'.loop = .electionDue ∨ p'.loop = .stopped)
    (hdue : p'.loop = .electionDue → p.loop = .electionDue ∨ p'.node.state ≠ .leader)
    (htick : p'.loop = .heartbeatDue → p.loop = .heartbeatDue ∨ p'.node.state = .leader) :
    Quiet p a { process := p' } where
  identity := by rw [hnode]; exact ⟨rfl, rfl⟩
  advance := by rw [hnode]; rfl
  role := by rw [hnode]; exact KeepsRole.refl _
  loop := hloop
  due := hdue
  tick := htick
  out := by simp

/-- **What an action can do.**  It is quiet, or it starts an election, or it
receives the reply of a vote call, or it is an iteration of the loop. -/
theorem perform_cases (h : perform p a = some e) :
    Quiet p a e ∨
    (a = .startElection ∧ p.loop = .electionDue ∧ e = startElection p) ∨
    (∃ peer result term votes received waiting resultCh,
      a = .voteReturn peer result ∧
      p.loop = .collecting term votes received waiting resultCh ∧ peer ∈ waiting ∧
      e = { process := { p with
              loop := .collecting term votes received (waiting.erase peer)
                (resultCh ++ [(peer, result)]) } }) ∨
    (∃ peer result term votes received waiting resultCh,
      a = .collect ∧
      p.loop = .collecting term votes received waiting ((peer, result) :: resultCh) ∧
      e = collectResult p term votes received waiting resultCh result) := by
  cases a with
  | handleRequestVote req =>
      cases h
      refine Or.inl
        { identity := handleRequestVote_identity p.node req
          advance := handleRequestVote_advance p.node req
          role := handleRequestVote_keepsRole p.node req
          loop := Or.inl rfl
          due := Or.inl
          tick := Or.inl
          out := ?_ }
      intro o ho
      exact Or.inl ⟨req, rfl, List.mem_singleton.mp ho, rfl⟩
  | handleAppendEntries req now =>
      cases h
      refine Or.inl
        { identity := handleAppendEntries_identity p.node req now
          advance := handleAppendEntries_advance p.node req now
          role := handleAppendEntries_keepsRole p.node req now
          loop := Or.inl rfl
          due := Or.inl
          tick := Or.inl
          out := ?_ }
      intro o ho
      exact Or.inr (Or.inl ⟨req, now, rfl, List.mem_singleton.mp ho⟩)
  | heartbeatTick =>
      left
      simp only [perform] at h
      split at h
      · split at h <;> cases h
        · rename_i hleader
          exact Quiet.of_same_node rfl (by simp) (by simp) fun _ => Or.inr hleader
        · exact Quiet.of_same_node rfl (by simp) Or.inl Or.inl
      · cases h
  | electionTimeout now =>
      left
      simp only [perform] at h
      split at h
      · split at h
        · cases h
          exact Quiet.of_same_node rfl (by simp) Or.inl Or.inl
        · rename_i hleader
          split at h <;> cases h
          · exact Quiet.of_same_node rfl (by simp) Or.inl Or.inl
          · exact Quiet.of_same_node rfl (by simp) (fun _ => Or.inr hleader) (by simp)
      · cases h
  | startElection =>
      right; left
      simp only [perform] at h
      split at h <;> cases h
      rename_i hdue
      exact ⟨rfl, hdue, rfl⟩
  | voteReturn peer result =>
      right; right; left
      simp only [perform] at h
      split at h
      · rename_i term votes received waiting resultCh hloop
        split at h <;> cases h
        rename_i hpeer
        exact ⟨peer, result, term, votes, received, waiting, resultCh, rfl, hloop, hpeer, rfl⟩
      · cases h
  | collect =>
      right; right; right
      simp only [perform] at h
      split at h <;> cases h
      rename_i term votes received waiting peer result resultCh hloop
      exact ⟨peer, result, term, votes, received, waiting, resultCh, rfl, hloop, rfl⟩
  | sendHeartbeats =>
      left
      simp only [perform] at h
      split at h <;> cases h
      refine
        { identity := ⟨rfl, rfl⟩, advance := rfl, role := KeepsRole.refl _
          loop := by simp [sendHeartbeats]
          due := by simp [sendHeartbeats]
          tick := by simp [sendHeartbeats]
          out := ?_ }
      intro o ho
      obtain ⟨peer, hpeer, rfl⟩ := List.mem_map.mp ho
      exact Or.inr (Or.inr (Or.inl ⟨peer, hpeer, rfl, rfl⟩))
  | heartbeatReturn peer term resp =>
      left
      simp only [perform] at h
      split at h
      · split at h <;> cases h
        · exact Quiet.of_same_node rfl (Or.inl rfl) Or.inl Or.inl
        · rename_i resp
          exact
            { identity := heartbeatReply_identity p.node resp
              advance := heartbeatReply_advance p.node resp
              role := heartbeatReply_keepsRole p.node resp
              loop := Or.inl rfl, due := Or.inl, tick := Or.inl, out := by simp }
      · cases h
  | receiveLeader =>
      left
      simp only [perform] at h
      split at h <;> cases h
      rename_i leaderID rest hch
      exact
        { identity := ⟨rfl, rfl⟩, advance := rfl, role := KeepsRole.refl _
          loop := Or.inl rfl, due := Or.inl, tick := Or.inl
          out := by simp }
  | stop =>
      left
      simp only [perform] at h
      split at h <;> cases h
      exact Quiet.of_same_node rfl (by simp) (by simp) (by simp)

/-- **No section changes the node's id or its peers.** -/
theorem perform_identity (h : perform p a = some e) :
    SameIdentity p.node e.process.node := by
  rcases perform_cases h with hq | ⟨_, _, rfl⟩ | ⟨_, _, _, _, _, _, _, _, _, _, rfl⟩ |
    ⟨_, _, _, _, _, _, _, _, _, rfl⟩
  · exact hq.identity
  · exact ⟨rfl, rfl⟩
  · exact ⟨rfl, rfl⟩
  · exact countVote_identity _ _ _

/-- The vote that an output stands for, at a node with the given id: a granted
reply, or the candidate's vote for itself. -/
def Output.vote (id : String) : Output → Option (Int × String)
  | .voteReply req resp => if resp.voteGranted then some (req.term, req.candidateID) else none
  | .campaign term => some (term, id)
  | _ => none

/-- A vote is cast for what the register holds when the section ends: the
node itself, or the candidate whose request is being handled. -/
theorem perform_votes (h : perform p a = some e) {v : Int × String}
    (hv : v ∈ e.out.filterMap (Output.vote p.node.id)) :
    e.process.node.ps = ⟨v.1, v.2⟩ ∧
      (v.2 = p.node.id ∨ ∃ req, a = .handleRequestVote req ∧ v.2 = req.candidateID) := by
  obtain ⟨o, ho, hov⟩ := List.mem_filterMap.mp hv
  rcases perform_cases h with hq | ⟨_, _, rfl⟩ | ⟨_, _, _, _, _, _, _, _, _, _, rfl⟩ |
    ⟨_, _, _, _, _, _, _, _, _, rfl⟩
  · rcases hq.out o ho with ⟨req, ha, rfl, hnode⟩ | ⟨req, now, _, rfl⟩ | ⟨peer, _, _, rfl⟩ |
      ⟨leaderID, _, rfl⟩
    · simp only [Output.vote, Option.ite_none_right_eq_some, Option.some.injEq] at hov
      obtain ⟨hgranted, rfl⟩ := hov
      rw [hnode, handleRequestVote_granted hgranted]
      exact ⟨rfl, Or.inr ⟨req, ha, rfl⟩⟩
    all_goals simp [Output.vote] at hov
  · rcases List.mem_cons.mp ho with rfl | ho
    · cases hov
      exact ⟨rfl, Or.inl rfl⟩
    · obtain ⟨peer, _, rfl⟩ := List.mem_map.mp ho
      simp [Output.vote] at hov
  · simp at ho
  · simp only [collectResult] at ho
    split at ho <;> simp at ho
    subst ho
    simp [Output.vote] at hov

/-- Vote requests are sent only by `startElection`, in the node's own name. -/
theorem perform_requestVote (h : perform p a = some e) {peer : PeerConfig}
    {req : RequestVoteRequest} (ho : .requestVote peer req ∈ e.out) :
    req.candidateID = p.node.id := by
  rcases perform_cases h with hq | ⟨_, _, rfl⟩ | ⟨_, _, _, _, _, _, _, _, _, _, rfl⟩ |
    ⟨_, _, _, _, _, _, _, _, _, rfl⟩
  · rcases hq.out _ ho with ⟨_, _, ho, _⟩ | ⟨_, _, _, ho⟩ | ⟨_, _, _, ho⟩ | ⟨_, _, ho⟩ <;>
      cases ho
  · rcases List.mem_cons.mp ho with ho | ho
    · cases ho
    · obtain ⟨_, _, ho⟩ := List.mem_map.mp ho
      cases ho
      rfl
  · simp at ho
  · simp only [collectResult] at ho
    split at ho <;> simp at ho

/-- A leader appears only in the vote-collecting loop: with a granted reply
that completes a majority, at a node that is still a candidate. -/
theorem perform_elected (h : perform p a = some e) {t : Int}
    (ho : .elected t ∈ e.out) :
    ∃ peer result term votes received waiting resultCh,
      p.loop = .collecting term votes received waiting ((peer, result) :: resultCh) ∧
      result.granted = true ∧ majority p.node ≤ votes + 1 ∧ p.node.state = .candidate ∧
      p.node.ps.currentTerm = t ∧ e.process.node = becomeLeader p.node := by
  rcases perform_cases h with hq | ⟨_, _, rfl⟩ | ⟨_, _, _, _, _, _, _, _, _, _, rfl⟩ |
    ⟨peer, result, term, votes, received, waiting, resultCh, _, hloop, rfl⟩
  · rcases hq.out _ ho with ⟨_, _, ho, _⟩ | ⟨_, _, _, ho⟩ | ⟨_, _, _, ho⟩ | ⟨_, _, ho⟩ <;>
      cases ho
  · rcases List.mem_cons.mp ho with ho | ho
    · cases ho
    · obtain ⟨_, _, ho⟩ := List.mem_map.mp ho
      cases ho
  · simp at ho
  · refine ⟨peer, result, term, votes, received, waiting, resultCh, hloop, ?_⟩
    simp only [collectResult] at ho ⊢
    rcases countVote_cases p.node votes result with ⟨hreply, _⟩ |
      ⟨hreply, hgranted, hmaj, hcand, hnode⟩ | ⟨_, votes', hreply, _⟩
    · simp [hreply] at ho
    · simp only [hreply, if_true, List.mem_singleton, Output.elected.injEq] at ho
      refine ⟨hgranted, hmaj, hcand, ?_, hnode⟩
      rw [ho, hnode]
      rfl
    · simp [hreply] at ho

/-- Heartbeats are sent only by `sendHeartbeats`, in the node's own name and in
the term the node is in at that moment, whatever its role. -/
theorem perform_appendEntries (h : perform p a = some e) {peer : PeerConfig}
    {req : AppendEntriesRequest} (ho : .appendEntries peer req ∈ e.out) :
    a = .sendHeartbeats ∧ req = ⟨p.node.ps.currentTerm, p.node.id⟩ := by
  rcases perform_cases h with hq | ⟨_, _, rfl⟩ | ⟨_, _, _, _, _, _, _, _, _, _, rfl⟩ |
    ⟨_, _, _, _, _, _, _, _, _, rfl⟩
  · rcases hq.out _ ho with ⟨_, _, ho, _⟩ | ⟨_, _, _, ho⟩ | ⟨_, _, ha, ho⟩ | ⟨_, _, ho⟩ <;>
      cases ho
    exact ⟨ha, rfl⟩
  · rcases List.mem_cons.mp ho with ho | ho
    · cases ho
    · obtain ⟨_, _, ho⟩ := List.mem_map.mp ho
      cases ho
  · simp at ho
  · simp only [collectResult] at ho
    split at ho <;> simp at ho

/-- Heartbeats are answered only by the handler. -/
theorem perform_appendReply (h : perform p a = some e) {req : AppendEntriesRequest}
    {resp : AppendEntriesResponse} (ho : .appendReply req resp ∈ e.out) :
    ∃ now, a = .handleAppendEntries req now := by
  rcases perform_cases h with hq | ⟨_, _, rfl⟩ | ⟨_, _, _, _, _, _, _, _, _, _, rfl⟩ |
    ⟨_, _, _, _, _, _, _, _, _, rfl⟩
  · rcases hq.out _ ho with ⟨_, _, ho, _⟩ | ⟨_, now, ha, ho⟩ | ⟨_, _, _, ho⟩ | ⟨_, _, ho⟩ <;>
      cases ho
    exact ⟨now, ha⟩
  · rcases List.mem_cons.mp ho with ho | ho
    · cases ho
    · obtain ⟨_, _, ho⟩ := List.mem_map.mp ho
      cases ho
  · simp at ho
  · simp only [collectResult] at ho
    split at ho <;> simp at ho

/-- A leader was the leader of the same term before, or has just been elected. -/
theorem perform_leader (h : perform p a = some e) (hlead : e.process.node.state = .leader) :
    (p.node.state = .leader ∧ e.process.node.ps.currentTerm = p.node.ps.currentTerm) ∨
    .elected e.process.node.ps.currentTerm ∈ e.out := by
  rcases perform_cases h with hq | ⟨_, _, rfl⟩ | ⟨_, _, _, _, _, _, _, _, _, _, rfl⟩ |
    ⟨peer, result, term, votes, received, waiting, resultCh, _, hloop, rfl⟩
  · rcases hq.role with ⟨hstate, hterm⟩ | ⟨hf, _⟩
    · exact Or.inl ⟨hstate ▸ hlead, hterm⟩
    · rw [hf] at hlead
      cases hlead
  · cases hlead
  · exact Or.inl ⟨hlead, rfl⟩
  · simp only [collectResult] at hlead ⊢
    rcases countVote_cases p.node votes result with ⟨_, _, hf⟩ | ⟨hreply, _⟩ | ⟨hnode, _⟩
    · rw [hf] at hlead
      cases hlead
    · right
      simp [hreply]
    · rw [hnode] at hlead ⊢
      exact Or.inl ⟨hlead, rfl⟩

/-- A process about to send heartbeats without being a leader was about to
send them before, and lost the leadership, if it had it, to a later term. -/
theorem perform_due (h : perform p a = some e)
    (hloop : e.process.loop = .heartbeatDue ∨ e.process.loop = .won)
    (hnot : e.process.node.state ≠ .leader) :
    (p.loop = .heartbeatDue ∨ p.loop = .won) ∧ KeepsRole p.node e.process.node := by
  rcases perform_cases h with hq | ⟨_, _, rfl⟩ | ⟨_, _, _, _, _, _, _, _, _, _, rfl⟩ |
    ⟨peer, result, term, votes, received, waiting, resultCh, _, _, rfl⟩
  · refine ⟨?_, hq.role⟩
    rcases hq.loop with hsame | hl | hl | hl | hl
    · rwa [hsame] at hloop
    · rw [hl] at hloop
      rcases hloop with hloop | hloop <;> cases hloop
    · rcases hq.tick hl with hdue | hlead
      · exact Or.inl hdue
      · exact absurd hlead hnot
    · rw [hl] at hloop
      rcases hloop with hloop | hloop <;> cases hloop
    · rw [hl] at hloop
      rcases hloop with hloop | hloop <;> cases hloop
  · simp only [startElection, nextIteration] at hloop
    split at hloop <;> rcases hloop with hloop | hloop <;> cases hloop
  · rcases hloop with hloop | hloop <;> cases hloop
  · simp only [collectResult] at hloop hnot
    rcases countVote_cases p.node votes result with ⟨hreply, _⟩ | ⟨_, _, _, _, hnode⟩ |
      ⟨_, votes', hreply, _⟩
    · simp [hreply, afterVerdict] at hloop
    · rw [hnode] at hnot
      exact absurd rfl hnot
    · simp only [hreply, afterVerdict, nextIteration] at hloop
      split at hloop <;> rcases hloop with hloop | hloop <;> cases hloop

/-- Away from the largest term, every action advances the vote register. -/
theorem perform_advance (h : perform p a = some e)
    (hterm : a = .startElection → p.node.ps.currentTerm + 1 < 2 ^ 63) :
    SavesAdvance p.node.ps e.saves e.process.node.ps := by
  rcases perform_cases h with hq | ⟨ha, _, rfl⟩ | ⟨_, _, _, _, _, _, _, _, _, _, rfl⟩ |
    ⟨_, _, _, _, _, _, _, _, _, rfl⟩
  · exact hq.advance
  · exact becomeCandidate_advance (hterm ha)
  · rfl
  · exact countVote_advance _ _ _

/-- Only `becomeLeader` sends on the channel of leaders. -/
theorem perform_channel (h : perform p a = some e) (ha : a ≠ .receiveLeader) :
    e.process.node.leaderCh = p.node.leaderCh ∨
      e.process.node = becomeLeader p.node := by
  cases a with
  | receiveLeader => exact absurd rfl ha
  | handleRequestVote req =>
      cases h
      exact Or.inl (handleRequestVote_leaderCh _ _)
  | handleAppendEntries req now =>
      cases h
      exact Or.inl (handleAppendEntries_leaderCh _ _ _)
  | collect =>
      simp only [perform] at h
      split at h <;> cases h
      exact countVote_leaderCh _ _ _
  | heartbeatReturn peer term resp =>
      left
      simp only [perform] at h
      grind [heartbeatReply_leaderCh]
  | _ =>
      left
      simp only [perform] at h
      grind [startElection, becomeCandidate, sendHeartbeats]

/-- A receive takes the oldest value off the channel, and nothing else. -/
theorem perform_receiveLeader (h : perform p .receiveLeader = some e) :
    ∃ leaderID rest, p.node.leaderCh = leaderID :: rest ∧
      e.process = { p with node := { p.node with leaderCh := rest } } ∧
      e.out = [.leaderNotice leaderID] := by
  simp only [perform] at h
  split at h <;> cases h
  rename_i leaderID rest hch
  exact ⟨leaderID, rest, hch, rfl, rfl⟩

end Raft
