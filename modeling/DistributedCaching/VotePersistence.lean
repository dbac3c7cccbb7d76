import DistributedCaching.RaftProcess
import DistributedCaching.TransitionRuns

/-!
# Votes, crashes and failing writes

One process with its state file, in an environment that sends any messages,
crashes the process at any point, and lets any `saveState` fail.  A failing
write leaves the previous file in place; the node goes on as if it had
succeeded, since every caller drops the error.

A node is thus safe from voting twice in a term only as long as the record it
continues from covers the votes it has given (`MajorityVotes.Covers`).  Handlers
and replies never lose that.  Two kinds of steps can: starting the process
again on a file that misses a vote, and starting an election in the largest
`int64` term, where the increment wraps around.  `votes_once` says that a run
without such a step never votes twice in a term, and that any run with one has a
beginning which a single vote request turns into a double vote.
-/

namespace Raft

open Go MajorityVotes TransitionRuns

/-- The state file after these calls of `saveState`, of which those marked
`false` fail.  Calls beyond the marks succeed. -/
def saveSome (file : Option PersistentState) :
    List PersistentState → List Bool → Option PersistentState
  | [], _ => file
  | r :: rs, [] => saveSome (some r) rs []
  | r :: rs, ok :: oks => saveSome (if ok then some r else file) rs oks

/-- A process, its state file, and the votes it has given. -/
structure Replica where
  process : Process
  file : Option PersistentState
  votes : List (Int × String) := []

def Replica.init (id : String) (peers : List PeerConfig)
    (file : Option PersistentState) : Replica :=
  { process := startProcess id peers file, file := file }

inductive DiskEvent
  /-- A section, and which of its writes succeed. -/
  | act (a : Action) (oks : List Bool)
  | crash
  /-- A crash inside a section, after `k` of its writes. -/
  | crashDuring (a : Action) (oks : List Bool) (k : Nat)
  deriving DecidableEq, Repr

/-- Messages name non-empty ids. -/
def Action.Named : Action → Prop
  | .handleRequestVote req => req.candidateID ≠ ""
  | .handleAppendEntries req _ => req.leaderID ≠ ""
  | _ => True

instance : ∀ a : Action, Decidable a.Named
  | .handleRequestVote req => inferInstanceAs (Decidable (req.candidateID ≠ ""))
  | .handleAppendEntries req _ => inferInstanceAs (Decidable (req.leaderID ≠ ""))
  | .heartbeatTick => .isTrue trivial
  | .electionTimeout _ => .isTrue trivial
  | .startElection => .isTrue trivial
  | .voteReturn _ _ => .isTrue trivial
  | .collect => .isTrue trivial
  | .sendHeartbeats => .isTrue trivial
  | .heartbeatReturn _ _ _ => .isTrue trivial
  | .receiveLeader => .isTrue trivial
  | .stop => .isTrue trivial

/-- The file that a crash leaves, if the crash is possible. -/
def Replica.fileLeft (s : Replica) : DiskEvent → Option (Option PersistentState)
  | .act _ _ => none
  | .crash => some s.file
  | .crashDuring a oks k =>
      if a.Named then
        (perform s.process a).map fun e => saveSome s.file (e.saves.take k) oks
      else none

def diskStep (id : String) (peers : List PeerConfig) (s : Replica) (ev : DiskEvent) :
    Option Replica :=
  match ev with
  | .act a oks =>
      if a.Named then
        (perform s.process a).map fun e =>
          { process := e.process
            file := saveSome s.file e.saves oks
            votes := e.out.filterMap (Output.vote id) ++ s.votes }
      else none
  | ev => (s.fileLeft ev).map fun file =>
      { process := startProcess id peers file, file := file, votes := s.votes }

/-- The record that the step makes the node continue from still covers the
votes given: the file loaded by a process started again, and the incremented
term of an election. -/
def RemembersVotes (id : String) (s : Replica) : DiskEvent → Prop
  | .act .startElection _ =>
      Covers s.votes (PersistentState.ballot ⟨incInt64 s.process.node.ps.currentTerm, id⟩)
  | .act _ _ => True
  | ev => ∀ file ∈ s.fileLeft ev, Covers s.votes (loadState file).ballot

instance (votes : List (Int × String)) (b : Ballot Int String) : Decidable (Covers votes b) :=
  inferInstanceAs (Decidable (∀ v ∈ votes, v.1 < b.term ∨ v.1 = b.term ∧ b.vote = some v.2))

instance (id : String) (s : Replica) : ∀ ev, Decidable (RemembersVotes id s ev)
  | .act .startElection _ => inferInstanceAs (Decidable (Covers _ _))
  | .act (.handleRequestVote _) _ => .isTrue trivial
  | .act (.handleAppendEntries _ _) _ => .isTrue trivial
  | .act .heartbeatTick _ => .isTrue trivial
  | .act (.electionTimeout _) _ => .isTrue trivial
  | .act (.voteReturn _ _) _ => .isTrue trivial
  | .act .collect _ => .isTrue trivial
  | .act .sendHeartbeats _ => .isTrue trivial
  | .act (.heartbeatReturn _ _ _) _ => .isTrue trivial
  | .act .receiveLeader _ => .isTrue trivial
  | .act .stop _ => .isTrue trivial
  | .crash => inferInstanceAs (Decidable (∀ file ∈ s.fileLeft .crash, _))
  | .crashDuring a oks k =>
      inferInstanceAs (Decidable (∀ file ∈ s.fileLeft (.crashDuring a oks k), _))

/-! ## Steps that remember keep the votes covered -/

/-- The register in memory covers the votes given, which never name two
candidates in a term. -/
structure Remembering (id : String) (s : Replica) : Prop where
  identity : s.process.node.id = id
  covers : Covers s.votes s.process.node.ps.ballot
  oneVote : OneVotePerTerm s.votes

variable {id : String} {peers : List PeerConfig} {s s' : Replica} {ev : DiskEvent}

/-- A node that has just started has given no vote. -/
theorem remembering_init (id : String) (peers : List PeerConfig)
    (file : Option PersistentState) : Remembering id (Replica.init id peers file) where
  identity := rfl
  covers := covers_nil _
  oneVote := fun _ hv => by cases hv

/-- **What a step can do**: complete a section with a named message, or start
the process again. -/
theorem diskStep_cases (h : diskStep id peers s ev = some s') :
    (∃ a oks e, ev = .act a oks ∧ a.Named ∧ perform s.process a = some e ∧
      s' = { process := e.process, file := saveSome s.file e.saves oks
             votes := e.out.filterMap (Output.vote id) ++ s.votes }) ∨
    (∃ file, (∀ a oks, ev ≠ .act a oks) ∧ s.fileLeft ev = some file ∧
      s' = { process := startProcess id peers file, file := file, votes := s.votes }) := by
  cases ev with
  | act a oks =>
      simp only [diskStep] at h
      split at h
      · rename_i hnamed
        obtain ⟨e, he, rfl⟩ := Option.map_eq_some_iff.mp h
        exact Or.inl ⟨a, oks, e, rfl, hnamed, he, rfl⟩
      · cases h
  | crash =>
      cases h
      exact Or.inr ⟨s.file, by simp, rfl, rfl⟩
  | crashDuring a oks k =>
      obtain ⟨file, hfile, rfl⟩ := Option.map_eq_some_iff.mp h
      exact Or.inr ⟨file, by simp, hfile, rfl⟩

/-- The votes of a section are those its register holds at the end. -/
theorem newVotes_held {a : Action} {e : Effect} (hid : id ≠ "")
    (hself : s.process.node.id = id) (hnamed : a.Named)
    (he : perform s.process a = some e) :
    ∀ v ∈ e.out.filterMap (Output.vote id),
      v.1 = e.process.node.ps.ballot.term ∧ e.process.node.ps.ballot.vote = some v.2 := by
  intro v hv
  rw [← hself] at hv
  obtain ⟨hps, hwho⟩ := perform_votes he hv
  have hname : v.2 ≠ "" := by
    rcases hwho with hv2 | ⟨req, rfl, hreq⟩
    · rw [hv2, hself]
      exact hid
    · rw [hreq]
      exact hnamed
  rw [hps]
  exact ⟨rfl, ballot_vote hname⟩

/-- **A step that remembers the votes keeps them covered.** -/
theorem remembering_step (hid : id ≠ "") (hs : Remembering id s)
    (hP : RemembersVotes id s ev) (h : diskStep id peers s ev = some s') :
    Remembering id s' := by
  rcases diskStep_cases h with ⟨a, oks, e, rfl, hnamed, he, rfl⟩ | ⟨file, hev, hfile, rfl⟩
  · have hnew := newVotes_held hid hs.identity hnamed he
    have hcov : Covers s.votes e.process.node.ps.ballot := by
      by_cases ha : a = .startElection
      · subst ha
        simp only [perform] at he
        split at he <;> cases he
        have hps : (startElection s.process).process.node.ps =
            ⟨incInt64 s.process.node.ps.currentTerm, id⟩ := by
          rw [← hs.identity]
          rfl
        rw [hps]
        exact hP
      · exact hs.covers.advance (perform_advance he fun hstart => absurd hstart ha).advances
    refine ⟨?_, hcov.cast hnew, hs.oneVote.cast hcov hnew⟩
    rw [(perform_identity he).1]
    exact hs.identity
  · refine ⟨rfl, ?_, hs.oneVote⟩
    cases ev with
    | act a oks => exact absurd rfl (hev a oks)
    | _ => exact hP file hfile

/-! ## Steps that forget lead to a double vote -/

/-- A node whose register does not cover the votes given grants a request that
contradicts one of them. -/
theorem uncovered_grants {n : RaftNode} {votes : List (Int × String)}
    (h : ¬ Covers votes n.ps.ballot) :
    ∃ req : RequestVoteRequest, req.candidateID ≠ "" ∧
      (handleRequestVote n req).reply.voteGranted = true ∧
      ∃ v ∈ votes, v.1 = req.term ∧ v.2 ≠ req.candidateID := by
  obtain ⟨v, hv, hterm⟩ := exists_uncovered h
  obtain ⟨other, hother, hne⟩ : ∃ other : String, other ≠ "" ∧ v.2 ≠ other := by
    by_cases hv2 : v.2 = "node1"
    · exact ⟨"node2", by decide, by rw [hv2]; decide⟩
    · exact ⟨"node1", by decide, hv2⟩
  rcases hterm with hlater | ⟨hsame, hvote⟩
  · refine ⟨⟨v.1, other⟩, hother, ?_, v, hv, rfl, hne⟩
    have hnot : ¬ v.1 < n.ps.currentTerm := not_lt.mpr (le_of_lt hlater)
    have hgt : v.1 > n.ps.currentTerm := hlater
    simp [handleRequestVote, adoptTerm, becomeFollower, hnot, hgt]
  · have hsame' : n.ps.currentTerm = v.1 := hsame
    by_cases hempty : n.ps.votedFor = ""
    · refine ⟨⟨v.1, other⟩, hother, ?_, v, hv, rfl, hne⟩
      simp [handleRequestVote, adoptTerm, hsame', hempty]
    · refine ⟨⟨v.1, n.ps.votedFor⟩, hempty, ?_, v, hv, rfl, ?_⟩
      · simp [handleRequestVote, adoptTerm, hsame']
      · intro heq
        rw [ballot_vote hempty] at hvote
        exact hvote (by rw [heq])

/-- **A step that forgets a vote can be followed by a double vote.** -/
theorem double_vote_after_forgetting (hs : Remembering id s)
    (hP : ¬ RemembersVotes id s ev) (h : diskStep id peers s ev = some s') :
    ∃ req s'', diskStep id peers s' (.act (.handleRequestVote req) []) = some s'' ∧
      ¬ OneVotePerTerm s''.votes := by
  -- The votes given before the step are still in the history, and the record the
  -- node now continues from does not cover them.
  obtain ⟨hkept, huncovered⟩ : (∀ v ∈ s.votes, v ∈ s'.votes) ∧
      ¬ Covers s.votes s'.process.node.ps.ballot := by
    rcases diskStep_cases h with ⟨a, oks, e, rfl, _, he, rfl⟩ | ⟨file, hev, hfile, rfl⟩
    · refine ⟨fun v hv => List.mem_append_right _ hv, ?_⟩
      cases a with
      | startElection =>
          simp only [perform] at he
          split at he <;> cases he
          have hps : (startElection s.process).process.node.ps =
              ⟨incInt64 s.process.node.ps.currentTerm, id⟩ := by
            rw [← hs.identity]
            rfl
          rw [hps]
          exact hP
      | _ => exact absurd trivial hP
    · refine ⟨fun v hv => hv, ?_⟩
      intro hcov
      apply hP
      have hall : ∀ f ∈ s.fileLeft ev, Covers s.votes (loadState f).ballot := by
        intro f hf
        cases hfile.symm.trans hf
        exact hcov
      cases ev with
      | act a oks => exact absurd rfl (hev a oks)
      | _ => exact hall
  obtain ⟨req, hname, hgranted, v, hv, hterm, hne⟩ := uncovered_grants huncovered
  obtain ⟨s'', hs'', hvotes⟩ : ∃ s'', diskStep id peers s'
      (.act (.handleRequestVote req) []) = some s'' ∧
      s''.votes = (req.term, req.candidateID) :: s'.votes := by
    refine ⟨_, if_pos hname, ?_⟩
    simp [Output.vote, hgranted]
  refine ⟨req, s'', hs'', ?_⟩
  rw [hvotes]
  intro hone
  have hv' := List.mem_cons_of_mem (req.term, req.candidateID) (hkept v hv)
  exact hne (hone v hv' _ List.mem_cons_self hterm)

/-- **One vote per term, with crashes and failing writes.**  A run all of whose
restarts and elections remember the votes given never votes for two candidates
in a term.  A run with one that does not has a beginning that one vote request
extends to a double vote. -/
theorem votes_once (hid : id ≠ "") (peers : List PeerConfig)
    (file : Option PersistentState) (evs : List DiskEvent) (s : Replica)
    (h : run (diskStep id peers) (Replica.init id peers file) evs = some s) :
    (Along (diskStep id peers) (RemembersVotes id) (Replica.init id peers file) evs →
      OneVotePerTerm s.votes) ∧
    (¬ Along (diskStep id peers) (RemembersVotes id) (Replica.init id peers file) evs →
      ∃ begin req s', begin <+: evs ∧
        run (diskStep id peers) (Replica.init id peers file)
          (begin ++ [.act (.handleRequestVote req) []]) = some s' ∧
        ¬ OneVotePerTerm s'.votes) := by
  have hinit := remembering_init id peers file
  constructor
  · intro halong
    exact (run_invariant_along (fun _ _ _ hs hP => remembering_step hid hs hP)
      hinit halong h).oneVote
  · intro hbreak
    obtain ⟨pre, ev, post, m, m', rfl, hpre, halong, hP, hm⟩ := exists_first_break h hbreak
    have hm' := run_invariant_along (fun _ _ _ hs hP => remembering_step hid hs hP)
      hinit halong hpre
    obtain ⟨req, s', hs', hdouble⟩ := double_vote_after_forgetting hm' hP hm
    exact ⟨pre ++ [ev], req, s', ⟨post, by simp⟩, run_snoc (run_snoc hpre hm) hs', hdouble⟩

/-- The node votes for `node2` in term one, crashes, and is asked by `node3`. -/
def votesAcrossCrash (oks : List Bool) : List DiskEvent :=
  [.act (.handleRequestVote ⟨1, "node2"⟩) oks, .crash,
   .act (.handleRequestVote ⟨1, "node3"⟩) []]

/-- The vote of term one is still the only one after a crash and another request. -/
theorem votes_once_across_crash :
    ∃ s, run (diskStep "node1" []) (Replica.init "node1" [] none) (votesAcrossCrash []) = some s ∧
      s.votes = [(1, "node2")] ∧ OneVotePerTerm s.votes := by
  obtain ⟨s, hrun, hvotes⟩ : ∃ s,
      run (diskStep "node1" []) (Replica.init "node1" [] none) (votesAcrossCrash []) = some s ∧
        s.votes = [(1, "node2")] :=
    exists_run (by decide) (by decide)
  exact ⟨s, hrun, hvotes, (votes_once (by decide) _ _ _ s hrun).1 (by decide)⟩

/-- The same run with the write of the granted vote failing: the process started
again has seen term one but no vote in it. -/
theorem votes_twice_after_failed_save :
    ∃ s, run (diskStep "node1" []) (Replica.init "node1" [] none)
        (votesAcrossCrash [true, false]) = some s ∧
      s.votes = [(1, "node3"), (1, "node2")] ∧ ¬ OneVotePerTerm s.votes := by
  obtain ⟨s, hrun, hvotes⟩ : ∃ s, run (diskStep "node1" []) (Replica.init "node1" [] none)
      (votesAcrossCrash [true, false]) = some s ∧ s.votes = [(1, "node3"), (1, "node2")] :=
    exists_run (by decide) (by decide)
  refine ⟨s, hrun, hvotes, ?_⟩
  intro hone
  rw [hvotes] at hone
  exact absurd (hone (1, "node3") (by decide) (1, "node2") (by decide) rfl) (by decide)

end Raft
