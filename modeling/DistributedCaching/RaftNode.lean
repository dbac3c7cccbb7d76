import DistributedCaching.GoRuntime
import DistributedCaching.MajorityVotes

/-!
# The Raft node and its locked sections

The election-only Raft of `internal/raft`.  Every function here is the body of
one critical section of the node's mutex, as a pure function from the node
before it to the node after it.

Errors of `saveState` are dropped by every caller, so what happens in memory
never depends on the disk.  A section therefore returns the list of records
that it hands to `saveState`, in order, and the model of the disk decides what
becomes of them (`RaftCluster` keeps all of them, `VotePersistence` any subset).

The lemmas at the end say what a section can do to the term and the vote: the
persistent record, read as a vote register, only ever advances
(`MajorityVotes.Advances`), and so does every record saved on the way.
-/

namespace Raft

open Go MajorityVotes

inductive NodeState
  | follower
  | candidate
  | leader
  deriving DecidableEq, Repr

structure PeerConfig where
  id : String
  addr : String
  deriving DecidableEq, Repr

/-- The part of the state that is written to the state file. -/
structure PersistentState where
  currentTerm : Int := 0
  votedFor : String := ""
  deriving DecidableEq, Repr

structure RaftNode where
  id : String
  peers : List PeerConfig
  state : NodeState := .follower
  leaderID : String := ""
  ps : PersistentState
  leaderCh : List String := []
  lastHeartbeat : Time := 0
  deriving DecidableEq, Repr

/-- `loadState`: a missing file is a fresh start in term zero. -/
def loadState (file : Option PersistentState) : PersistentState :=
  file.getD {}

/-- `NewRaftNode` on a state directory holding `file`. -/
def newRaftNode (id : String) (peers : List PeerConfig)
    (file : Option PersistentState) : RaftNode :=
  { id := id, peers := peers, ps := loadState file }

/-- The outcome of a critical section: the node, the records handed to
`saveState` in order, and what the section returns. -/
structure Locked (α : Type) where
  node : RaftNode
  saves : List PersistentState := []
  reply : α

/-! ## State transition helpers -/

def becomeFollower (n : RaftNode) (term : Int) : Locked Unit :=
  if term > n.ps.currentTerm then
    { node := { n with state := .follower, ps := ⟨term, ""⟩ }
      saves := [⟨term, ""⟩]
      reply := () }
  else
    { node := { n with state := .follower }, reply := () }

def becomeCandidate (n : RaftNode) : Locked Unit :=
  { node := { n with
      state := .candidate
      ps := ⟨incInt64 n.ps.currentTerm, n.id⟩ }
    saves := [⟨incInt64 n.ps.currentTerm, n.id⟩]
    reply := () }

/-- The notification is dropped when the channel (capacity one) is full. -/
def becomeLeader (n : RaftNode) : RaftNode :=
  { n with
    state := .leader
    leaderID := n.id
    leaderCh := if n.leaderCh.length < 1 then n.leaderCh ++ [n.id] else n.leaderCh }

/-! ## RPC handlers -/

structure RequestVoteRequest where
  term : Int
  candidateID : String
  deriving DecidableEq, Repr

structure RequestVoteResponse where
  term : Int
  voteGranted : Bool
  deriving DecidableEq, Repr

structure AppendEntriesRequest where
  term : Int
  leaderID : String
  deriving DecidableEq, Repr

structure AppendEntriesResponse where
  term : Int
  success : Bool
  deriving DecidableEq, Repr

/-- The step both handlers start with once the message is not stale. -/
def adoptTerm (n : RaftNode) (term : Int) : Locked Unit :=
  if term > n.ps.currentTerm then becomeFollower n term
  else { node := n, reply := () }

def handleRequestVote (n : RaftNode) (req : RequestVoteRequest) :
    Locked RequestVoteResponse :=
  if req.term < n.ps.currentTerm then
    { node := n, reply := ⟨n.ps.currentTerm, false⟩ }
  else
    let seen := adoptTerm n req.term
    let n := seen.node
    if n.ps.votedFor ≠ "" ∧ n.ps.votedFor ≠ req.candidateID then
      { node := n, saves := seen.saves, reply := ⟨n.ps.currentTerm, false⟩ }
    else
      let n := { n with ps := { n.ps with votedFor := req.candidateID } }
      { node := n, saves := seen.saves ++ [n.ps], reply := ⟨n.ps.currentTerm, true⟩ }

def handleAppendEntries (n : RaftNode) (req : AppendEntriesRequest) (now : Time) :
    Locked AppendEntriesResponse :=
  if req.term < n.ps.currentTerm then
    { node := n, reply := ⟨n.ps.currentTerm, false⟩ }
  else
    let seen := adoptTerm n req.term
    let n := seen.node
    let n := if n.state = .candidate then { n with state := .follower } else n
    let n := { n with leaderID := req.leaderID, lastHeartbeat := now }
    { node := n, saves := seen.saves, reply := ⟨n.ps.currentTerm, true⟩ }

/-! ## Sections of the election and of the heartbeats -/

/-- What a goroutine of `startElection` puts on `resultCh`. -/
structure VoteResult where
  granted : Bool
  term : Int
  deriving DecidableEq, Repr

/-- The result of a call that returned an error. -/
def VoteResult.failed : VoteResult := ⟨false, 0⟩

/-- `(len(peers)+1)/2 + 1`. -/
def majority (n : RaftNode) : Nat := (n.peers.length + 1) / 2 + 1

/-- How one iteration of the vote-collecting loop ends. -/
inductive Verdict
  | superseded
  | won
  | undecided (votes : Nat)
  deriving DecidableEq, Repr

/-- One iteration of the vote-collecting loop of `startElection`.  The term it
campaigned in is not consulted. -/
def countVote (n : RaftNode) (votes : Nat) (result : VoteResult) : Locked Verdict :=
  if result.term > n.ps.currentTerm then
    let down := becomeFollower n result.term
    { node := down.node, saves := down.saves, reply := .superseded }
  else if result.granted then
    if votes + 1 ≥ majority n ∧ n.state = .candidate then
      { node := becomeLeader n, reply := .won }
    else
      { node := n, reply := .undecided (votes + 1) }
  else
    { node := n, reply := .undecided votes }

/-- The section a heartbeat goroutine runs on its reply. -/
def heartbeatReply (n : RaftNode) (resp : AppendEntriesResponse) : Locked Unit :=
  if resp.term > n.ps.currentTerm then becomeFollower n resp.term
  else { node := n, reply := () }

/-! ## What a section can do to the term and the vote -/

/-- The persistent record read as a vote register; the empty id is "no vote". -/
def PersistentState.ballot (ps : PersistentState) : Ballot Int String :=
  ⟨ps.currentTerm, if ps.votedFor = "" then none else some ps.votedFor⟩

theorem ballot_vote {ps : PersistentState} (h : ps.votedFor ≠ "") :
    ps.ballot.vote = some ps.votedFor := by
  simp [PersistentState.ballot, h]

/-- Each record of the list advances the one before it, the first advances
`ps`, and the last (or `ps` itself when there is none) is `ps'`. -/
def SavesAdvance (ps : PersistentState) : List PersistentState → PersistentState → Prop
  | [], ps' => ps' = ps
  | r :: rs, ps' => Advances ps.ballot r.ballot ∧ SavesAdvance r rs ps'

/-- The ballot after a section advances the one before. -/
theorem SavesAdvance.advances {ps ps' : PersistentState} {saves : List PersistentState}
    (h : SavesAdvance ps saves ps') : Advances ps.ballot ps'.ballot := by
  induction saves generalizing ps with
  | nil =>
      cases h
      exact Advances.refl _
  | cons r rs ih => exact h.1.trans (ih h.2)

/-- Sections save one after the other. -/
theorem SavesAdvance.append {a b c : PersistentState} {xs ys : List PersistentState}
    (hx : SavesAdvance a xs b) (hy : SavesAdvance b ys c) :
    SavesAdvance a (xs ++ ys) c := by
  induction xs generalizing a with
  | nil =>
      cases hx
      exact hy
  | cons r rs ih => exact ⟨hx.1, ih hx.2⟩

/-- A higher term starts with no vote. -/
theorem advances_newTerm {ps : PersistentState} {term : Int}
    (h : ps.currentTerm < term) :
    Advances ps.ballot (PersistentState.ballot ⟨term, ""⟩) :=
  Or.inl h

/-- Stepping down saves at most a later term. -/
theorem becomeFollower_advance (n : RaftNode) (term : Int) :
    SavesAdvance n.ps (becomeFollower n term).saves (becomeFollower n term).node.ps := by
  unfold becomeFollower
  split
  · rename_i h
    exact ⟨advances_newTerm h, rfl⟩
  · rfl

/-- Adopting a term saves at most a later term. -/
theorem adoptTerm_advance (n : RaftNode) (term : Int) :
    SavesAdvance n.ps (adoptTerm n term).saves (adoptTerm n term).node.ps := by
  unfold adoptTerm
  split
  · exact becomeFollower_advance n term
  · rfl

/-- A message that is not stale leaves the node in the message's term. -/
theorem adoptTerm_term {n : RaftNode} {term : Int} (h : ¬ term < n.ps.currentTerm) :
    (adoptTerm n term).node.ps.currentTerm = term := by
  unfold adoptTerm becomeFollower
  split
  · rfl
  · simp only
    omega

/-- Becoming a candidate saves the next term and the node's own vote, unless the term overflows.
-/
theorem becomeCandidate_advance {n : RaftNode} (h : n.ps.currentTerm + 1 < 2 ^ 63) :
    SavesAdvance n.ps (becomeCandidate n).saves (becomeCandidate n).node.ps := by
  refine ⟨Or.inl ?_, rfl⟩
  change n.ps.currentTerm < incInt64 n.ps.currentTerm
  rw [incInt64_of_lt h]
  omega

/-- **The vote handler.**  The register advances through every saved record. -/
theorem handleRequestVote_advance (n : RaftNode) (req : RequestVoteRequest) :
    SavesAdvance n.ps (handleRequestVote n req).saves
      (handleRequestVote n req).node.ps := by
  unfold handleRequestVote
  split
  · rfl
  · dsimp only
    have hseen := adoptTerm_advance n req.term
    split
    · exact hseen
    · rename_i hfree
      refine hseen.append ⟨Or.inr ⟨rfl, ?_⟩, rfl⟩
      simp only [PersistentState.ballot]
      by_cases hnone : (adoptTerm n req.term).node.ps.votedFor = ""
      · exact Or.inl (by simp [hnone])
      · have hsame : (adoptTerm n req.term).node.ps.votedFor = req.candidateID := by
          by_contra hne
          exact hfree ⟨hnone, hne⟩
        exact Or.inr (by rw [hsame])

/-- A granted vote is cast in the term of the request, and the register holds it. -/
theorem handleRequestVote_granted {n : RaftNode} {req : RequestVoteRequest}
    (h : (handleRequestVote n req).reply.voteGranted = true) :
    (handleRequestVote n req).node.ps = ⟨req.term, req.candidateID⟩ := by
  unfold handleRequestVote at h ⊢
  split
  · rename_i hstale
    simp [hstale] at h
  · rename_i hstale
    dsimp only at h ⊢
    split
    · rename_i hvoted
      simp [hstale, hvoted] at h
    · simp [adoptTerm_term hstale]

/-- A heartbeat saves at most a later term. -/
theorem handleAppendEntries_advance (n : RaftNode) (req : AppendEntriesRequest)
    (now : Time) :
    SavesAdvance n.ps (handleAppendEntries n req now).saves
      (handleAppendEntries n req now).node.ps := by
  unfold handleAppendEntries
  split
  · rfl
  · dsimp only
    have hseen := adoptTerm_advance n req.term
    split <;> exact hseen

/-- A vote that is counted saves at most a later term. -/
theorem countVote_advance (n : RaftNode) (votes : Nat) (result : VoteResult) :
    SavesAdvance n.ps (countVote n votes result).saves
      (countVote n votes result).node.ps := by
  unfold countVote
  split
  · exact becomeFollower_advance n result.term
  · split
    · split <;> rfl
    · rfl

/-- A reply to a heartbeat saves at most a later term. -/
theorem heartbeatReply_advance (n : RaftNode) (resp : AppendEntriesResponse) :
    SavesAdvance n.ps (heartbeatReply n resp).saves (heartbeatReply n resp).node.ps := by
  unfold heartbeatReply
  split
  · exact becomeFollower_advance n resp.term
  · rfl

/-! ## What a section can do to the role -/

/-- The node kept both its role and its term, or it stepped down: into a later
term, or, if it was a candidate, inside its term.  Every section outside an
election does one or the other, so a node that is still a candidate or a leader
is still in the term it became one in. -/
def KeepsRole (n n' : RaftNode) : Prop :=
  n'.state = n.state ∧ n'.ps.currentTerm = n.ps.currentTerm ∨
  n'.state = .follower ∧ (n.ps.currentTerm < n'.ps.currentTerm ∨
    n.state = .candidate ∧ n'.ps.currentTerm = n.ps.currentTerm)

theorem KeepsRole.refl (n : RaftNode) : KeepsRole n n := Or.inl ⟨rfl, rfl⟩

/-- Adopting a higher term is stepping down. -/
theorem becomeFollower_keepsRole {n : RaftNode} {term : Int}
    (h : n.ps.currentTerm < term) : KeepsRole n (becomeFollower n term).node := by
  unfold becomeFollower
  rw [if_pos h]
  exact Or.inr ⟨rfl, Or.inl h⟩

theorem adoptTerm_keepsRole (n : RaftNode) (term : Int) :
    KeepsRole n (adoptTerm n term).node := by
  unfold adoptTerm
  split
  · rename_i h
    exact becomeFollower_keepsRole h
  · exact KeepsRole.refl n

/-- Answering a request for a vote keeps the role, or steps down. -/
theorem handleRequestVote_keepsRole (n : RaftNode) (req : RequestVoteRequest) :
    KeepsRole n (handleRequestVote n req).node := by
  have hseen := adoptTerm_keepsRole n req.term
  unfold handleRequestVote
  split
  · exact KeepsRole.refl n
  · dsimp only
    split <;> exact hseen

/-- A heartbeat keeps the role, or makes the node a follower. -/
theorem handleAppendEntries_keepsRole (n : RaftNode) (req : AppendEntriesRequest)
    (now : Time) : KeepsRole n (handleAppendEntries n req now).node := by
  have hseen := adoptTerm_keepsRole n req.term
  unfold handleAppendEntries
  split
  · exact KeepsRole.refl n
  · dsimp only
    split
    · rename_i hcand
      rcases hseen with ⟨hstate, hterm⟩ | ⟨hfollower, _⟩
      · exact Or.inr ⟨rfl, Or.inr ⟨hstate ▸ hcand, hterm⟩⟩
      · rw [hfollower] at hcand
        cases hcand
    · exact hseen

/-- A reply to a heartbeat keeps the role, or makes the node a follower. -/
theorem heartbeatReply_keepsRole (n : RaftNode) (resp : AppendEntriesResponse) :
    KeepsRole n (heartbeatReply n resp).node := by
  unfold heartbeatReply
  split
  · rename_i h
    exact becomeFollower_keepsRole h
  · exact KeepsRole.refl n

/-- **The vote count.**  An iteration either meets a higher term, or wins with
a granted reply while still a candidate, or leaves the node alone and counts
the reply if it was granted. -/
theorem countVote_cases (n : RaftNode) (votes : Nat) (result : VoteResult) :
    ((countVote n votes result).reply = .superseded ∧
      KeepsRole n (countVote n votes result).node ∧
      (countVote n votes result).node.state = .follower) ∨
    ((countVote n votes result).reply = .won ∧ result.granted = true ∧
      majority n ≤ votes + 1 ∧ n.state = .candidate ∧
      (countVote n votes result).node = becomeLeader n) ∨
    ((countVote n votes result).node = n ∧ ∃ votes',
      (countVote n votes result).reply = .undecided votes' ∧
      (votes' = votes ∨ result.granted = true ∧ votes' = votes + 1)) := by
  unfold countVote
  split
  · rename_i h
    refine Or.inl ⟨rfl, becomeFollower_keepsRole h, ?_⟩
    unfold becomeFollower
    split <;> rfl
  · split
    · rename_i hgranted
      split
      · rename_i hwin
        exact Or.inr (Or.inl ⟨rfl, hgranted, hwin.1, hwin.2, rfl⟩)
      · exact Or.inr (Or.inr ⟨rfl, _, rfl, Or.inr ⟨hgranted, rfl⟩⟩)
    · exact Or.inr (Or.inr ⟨rfl, _, rfl, Or.inl rfl⟩)

/-! ## What no section changes -/

/-- The node's identity: its id and its peers. -/
def SameIdentity (n n' : RaftNode) : Prop := n'.id = n.id ∧ n'.peers = n.peers

/-- Stepping down changes neither id nor peers. -/
theorem becomeFollower_identity (n : RaftNode) (term : Int) :
    SameIdentity n (becomeFollower n term).node := by
  unfold becomeFollower
  split <;> exact ⟨rfl, rfl⟩

theorem adoptTerm_identity (n : RaftNode) (term : Int) :
    SameIdentity n (adoptTerm n term).node := by
  unfold adoptTerm
  split
  · exact becomeFollower_identity n term
  · exact ⟨rfl, rfl⟩

/-- Nor does answering a request for a vote. -/
theorem handleRequestVote_identity (n : RaftNode) (req : RequestVoteRequest) :
    SameIdentity n (handleRequestVote n req).node := by
  have hseen := adoptTerm_identity n req.term
  unfold handleRequestVote
  split
  · exact ⟨rfl, rfl⟩
  · dsimp only
    split <;> exact hseen

/-- Nor does a heartbeat. -/
theorem handleAppendEntries_identity (n : RaftNode) (req : AppendEntriesRequest)
    (now : Time) : SameIdentity n (handleAppendEntries n req now).node := by
  have hseen := adoptTerm_identity n req.term
  unfold handleAppendEntries
  split
  · exact ⟨rfl, rfl⟩
  · dsimp only
    split <;> exact hseen

/-- Nor does counting a vote. -/
theorem countVote_identity (n : RaftNode) (votes : Nat) (result : VoteResult) :
    SameIdentity n (countVote n votes result).node := by
  unfold countVote
  split
  · exact becomeFollower_identity n result.term
  · split
    · split <;> exact ⟨rfl, rfl⟩
    · exact ⟨rfl, rfl⟩

/-- Nor does a reply to a heartbeat. -/
theorem heartbeatReply_identity (n : RaftNode) (resp : AppendEntriesResponse) :
    SameIdentity n (heartbeatReply n resp).node := by
  unfold heartbeatReply
  split
  · exact becomeFollower_identity n resp.term
  · exact ⟨rfl, rfl⟩

/-! ## What a section does to the channel of leaders -/

/-- Answering a request for a vote announces nothing. -/
theorem handleRequestVote_leaderCh (n : RaftNode) (req : RequestVoteRequest) :
    (handleRequestVote n req).node.leaderCh = n.leaderCh := by
  grind [handleRequestVote, adoptTerm, becomeFollower]

/-- A heartbeat announces nothing. -/
theorem handleAppendEntries_leaderCh (n : RaftNode) (req : AppendEntriesRequest)
    (now : Time) : (handleAppendEntries n req now).node.leaderCh = n.leaderCh := by
  grind [handleAppendEntries, adoptTerm, becomeFollower]

/-- A reply to a heartbeat announces nothing. -/
theorem heartbeatReply_leaderCh (n : RaftNode) (resp : AppendEntriesResponse) :
    (heartbeatReply n resp).node.leaderCh = n.leaderCh := by
  grind [heartbeatReply, becomeFollower]

/-- Losing an election sends nothing; winning one goes through `becomeLeader`. -/
theorem countVote_leaderCh (n : RaftNode) (votes : Nat) (result : VoteResult) :
    (countVote n votes result).node.leaderCh = n.leaderCh ∨
      (countVote n votes result).node = becomeLeader n := by
  grind [countVote, becomeFollower]

end Raft
