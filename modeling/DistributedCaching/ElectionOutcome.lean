import DistributedCaching.RaftProcess
import Mathlib.Data.List.Perm.Subperm

/-!
# How an undisturbed election ends

`startElection` counts the replies of its peers as they arrive on `resultCh`
and leaves its loop early once it has won.  Here nothing else happens at the
node meanwhile: a step is the return of a vote call, or a step of
`startElection` itself.  Replies may arrive in any order, and any number of
them may wait on the channel before the loop looks at the next one.

The invariant `Standing` says that the loop has counted an initial part of what
has arrived, and that it has left only with a majority or after the last peer.
So the outcome depends on the number of granted replies alone
(`election_outcome`), with one exception.  The majority test stands inside the
loop over the peers, and a node without peers never reaches it: its own vote
is a majority of one, and it stays a candidate (`lone_node_stays_candidate`).
-/

namespace Raft

open Go

/-- A reply to a vote request, with the peer it came from. -/
abbrev Reply := PeerConfig × VoteResult

/-- The number of granted replies. -/
def grants (replies : List Reply) : Nat := replies.countP fun r => r.2.granted

@[simp] theorem grants_nil : grants [] = 0 := rfl

@[simp] theorem grants_append (xs ys : List Reply) :
    grants (xs ++ ys) = grants xs + grants ys := List.countP_append

/-- One reply more is one vote more, if it grants. -/
theorem grants_concat (xs : List Reply) (r : Reply) :
    grants (xs ++ [r]) = grants xs + if r.2.granted then 1 else 0 := by
  simp [grants, List.countP_cons]

inductive ElectionStep
  /-- The call of a goroutine of `startElection` returns. -/
  | arrive (peer : PeerConfig) (result : VoteResult)
  /-- The next step of `startElection`: an iteration of its loop or, after the
  loop is won, `sendHeartbeats`. -/
  | proceed
  deriving DecidableEq, Repr

def electionStep (p : Process) : ElectionStep → Process
  -- A result that arrives after the loop is left stays unread on `resultCh`.
  | .arrive peer result => ((perform p (.voteReturn peer result)).map Effect.process).getD p
  | .proceed =>
      match p.loop with
      | .collecting _ _ _ _ _ => ((perform p .collect).map Effect.process).getD p
      | .won => (sendHeartbeats p).process
      | _ => p

/-- The process after `startElection` has begun and these steps were taken. -/
def campaign (p : Process) (schedule : List ElectionStep) : Process :=
  schedule.foldl electionStep (startElection p).process

/-- The replies that arrive, in their order. -/
def arrivals (schedule : List ElectionStep) : List Reply :=
  schedule.filterMap fun
    | .arrive peer result => some (peer, result)
    | .proceed => none

@[simp] theorem arrivals_arrive (peer : PeerConfig) (result : VoteResult)
    (schedule : List ElectionStep) :
    arrivals (.arrive peer result :: schedule) = (peer, result) :: arrivals schedule := rfl

/-- Where an election of the candidate `c` stands after these arrivals. -/
inductive Standing (c : RaftNode) (arrived : List Reply) (q : Process) : Prop
  /-- Still in the loop, with the results `ch` not yet looked at. -/
  | polling (counted ch : List Reply) (waiting : List PeerConfig) (term : Int)
      (harrived : arrived = counted ++ ch)
      (hvotes : 1 + grants counted < majority c)
      (hreceived : counted.length < c.peers.length)
      (hwaiting : (arrived.map Prod.fst ++ waiting).Perm c.peers)
      (hnode : q.node = c)
      (hloop : q.loop =
        .collecting term (1 + grants counted) counted.length waiting ch)
  | elected (counted : List Reply) (hcounted : counted <+: arrived)
      (hvotes : majority c ≤ 1 + grants counted)
      (hnode : q.node = becomeLeader c) (hloop : q.loop = .won ∨ q.loop = .select)
  | lost (counted : List Reply) (hcounted : counted <+: arrived)
      (hvotes : 1 + grants counted < majority c)
      (hreceived : counted.length = c.peers.length)
      (hnode : q.node = c) (hloop : q.loop = .select)

variable {c : RaftNode} {arrived : List Reply} {q : Process}

/-- A reply counted by a candidate it does not supersede. -/
theorem countVote_reply {votes : Nat} {r : VoteResult} (hcand : c.state = .candidate)
    (hterm : r.term ≤ c.ps.currentTerm) (hvotes : votes < majority c) :
    let votes' := votes + if r.granted then 1 else 0
    (majority c ≤ votes' ∧ (countVote c votes r).reply = .won ∧
      (countVote c votes r).node = becomeLeader c) ∨
    (votes' < majority c ∧ (countVote c votes r).reply = .undecided votes' ∧
      (countVote c votes r).node = c) := by
  intro votes'
  have hnot : ¬ r.term > c.ps.currentTerm := by omega
  cases hg : r.granted with
  | false =>
      right
      simp [countVote, hnot, hg, votes', hvotes]
  | true =>
      by_cases hmaj : majority c ≤ votes + 1
      · left
        simp [countVote, hnot, hg, hcand, hmaj, votes']
      · right
        simp [countVote, hnot, hg, hmaj, votes']
        omega

/-- **One iteration of the loop.**  It counts the next reply, and either wins
or goes on to the iteration after it. -/
theorem proceed_polling {counted ch : List Reply} {r : Reply} {waiting : List PeerConfig}
    {term : Int} (hcand : c.state = .candidate) (hterm : r.2.term ≤ c.ps.currentTerm)
    (hvotes : 1 + grants counted < majority c) (hnode : q.node = c)
    (hloop : q.loop =
      .collecting term (1 + grants counted) counted.length waiting (r :: ch)) :
    (majority c ≤ 1 + grants (counted ++ [r]) ∧
      (electionStep q .proceed).node = becomeLeader c ∧
      (electionStep q .proceed).loop = .won) ∨
    (1 + grants (counted ++ [r]) < majority c ∧
      (electionStep q .proceed).node = c ∧
      (electionStep q .proceed).loop =
        nextIteration c term (1 + grants (counted ++ [r])) (counted ++ [r]).length
          waiting ch) := by
  obtain ⟨peer, result⟩ := r
  have hstep : electionStep q .proceed =
      (collectResult q term (1 + grants counted) counted.length waiting ch result).process := by
    simp [electionStep, perform, hloop]
  have hcount : 1 + grants (counted ++ [(peer, result)]) =
      1 + grants counted + if result.granted then 1 else 0 := by
    rw [grants_concat, Nat.add_assoc]
  rw [hstep, hcount]
  rcases countVote_reply hcand hterm hvotes with ⟨hmaj, hreply, hn⟩ | ⟨hmaj, hreply, hn⟩
  · exact Or.inl ⟨hmaj, by simp [collectResult, hnode, hn],
      by simp [collectResult, hnode, hreply, afterVerdict]⟩
  · exact Or.inr ⟨hmaj, by simp [collectResult, hnode, hn],
      by simp [collectResult, hnode, hn, hreply, afterVerdict]⟩

/-- A pass of the loop counts one result, and the standing is that of the arrivals. -/
theorem Standing.proceed (h : Standing c arrived q) (hcand : c.state = .candidate)
    (hterms : ∀ r ∈ arrived, r.2.term ≤ c.ps.currentTerm) :
    Standing c arrived (electionStep q .proceed) := by
  cases h with
  | polling counted ch waiting term harrived hvotes hreceived hwaiting hnode hloop =>
      cases ch with
      | nil =>
          -- nothing to receive: the loop stays blocked on `resultCh`
          have hsame : electionStep q .proceed = q := by simp [electionStep, perform, hloop]
          rw [hsame]
          exact .polling counted [] waiting term harrived hvotes hreceived hwaiting hnode hloop
      | cons r ch =>
          have hterm := hterms r (by simp [harrived])
          have hsplit : arrived = counted ++ [r] ++ ch := by simp [harrived]
          rcases proceed_polling hcand hterm hvotes hnode hloop with
            ⟨hmaj, hn, hl⟩ | ⟨hmaj, hn, hl⟩
          · exact .elected (counted ++ [r]) ⟨ch, hsplit.symm⟩ hmaj hn (Or.inl hl)
          · by_cases hmore : (counted ++ [r]).length < c.peers.length
            · rw [nextIteration, if_pos hmore] at hl
              exact .polling (counted ++ [r]) ch waiting term hsplit hmaj hmore hwaiting hn hl
            · rw [nextIteration, if_neg hmore] at hl
              have hall : (counted ++ [r]).length = c.peers.length := by
                simp only [List.length_append, List.length_singleton] at hmore ⊢
                omega
              exact .lost (counted ++ [r]) ⟨ch, hsplit.symm⟩ hmaj hall hn hl
  | elected counted hcounted hvotes hnode hloop =>
      refine .elected counted hcounted hvotes ?_ (Or.inr ?_) <;>
        rcases hloop with hloop | hloop <;> simp [electionStep, hloop, sendHeartbeats, hnode]
  | lost counted hcounted hvotes hreceived hnode hloop =>
      have hsame : electionStep q .proceed = q := by simp [electionStep, hloop]
      rw [hsame]
      exact .lost counted hcounted hvotes hreceived hnode hloop

/-- A result that arrives waits in the channel, or comes after the end of the election. -/
theorem Standing.arrive {peer : PeerConfig} {result : VoteResult} (h : Standing c arrived q)
    (hpeers : ((arrived ++ [(peer, result)]).map Prod.fst).Subperm c.peers) :
    Standing c (arrived ++ [(peer, result)]) (electionStep q (.arrive peer result)) := by
  cases h with
  | polling counted ch waiting term harrived hvotes hreceived hwaiting hnode hloop =>
      have hmem : peer ∈ waiting := by
        have hsub := hpeers.trans hwaiting.symm.subperm
        rw [List.map_append, List.subperm_append_left] at hsub
        exact hsub.subset (by simp)
      have hstep : electionStep q (.arrive peer result) =
          { q with loop := .collecting term (1 + grants counted) counted.length
                     (waiting.erase peer) (ch ++ [(peer, result)]) } := by
        simp [electionStep, perform, hloop, hmem]
      rw [hstep]
      refine .polling counted (ch ++ [(peer, result)]) (waiting.erase peer) term
        (by simp [harrived]) hvotes hreceived ?_ hnode rfl
      have hback : (peer :: waiting.erase peer).Perm waiting :=
        (List.perm_cons_erase hmem).symm
      simpa using (hback.append_left (arrived.map Prod.fst)).trans hwaiting
  | elected counted hcounted hvotes hnode hloop =>
      have hsame : electionStep q (.arrive peer result) = q := by
        rcases hloop with hloop | hloop <;> simp [electionStep, perform, hloop]
      rw [hsame]
      exact .elected counted (hcounted.trans (List.prefix_append _ _)) hvotes hnode hloop
  | lost counted hcounted hvotes hreceived hnode hloop =>
      have hsame : electionStep q (.arrive peer result) = q := by
        simp [electionStep, perform, hloop]
      rw [hsame]
      exact .lost counted (hcounted.trans (List.prefix_append _ _)) hvotes hreceived hnode hloop

/-- The standing holds throughout a schedule that brings each peer's reply at
most once. -/
theorem Standing.foldl (h : Standing c arrived q) (hcand : c.state = .candidate)
    (schedule : List ElectionStep)
    (hpeers : ((arrived ++ arrivals schedule).map Prod.fst).Subperm c.peers)
    (hterms : ∀ r ∈ arrived ++ arrivals schedule, r.2.term ≤ c.ps.currentTerm) :
    Standing c (arrived ++ arrivals schedule) (schedule.foldl electionStep q) := by
  induction schedule generalizing arrived q with
  | nil => simpa [arrivals] using h
  | cons step schedule ih =>
      cases step with
      | arrive peer result =>
          have hassoc : arrived ++ arrivals (.arrive peer result :: schedule) =
              arrived ++ [(peer, result)] ++ arrivals schedule := by simp
          rw [hassoc] at hpeers hterms ⊢
          have hnow : ((arrived ++ [(peer, result)]).map Prod.fst).Subperm c.peers := by
            rw [List.map_append] at hpeers
            exact (List.sublist_append_left _ _).subperm.trans hpeers
          exact ih (h.arrive hnow) hpeers hterms
      | proceed =>
          refine ih (h.proceed hcand ?_) hpeers hterms
          intro r hr
          exact hterms r (List.mem_append_left _ hr)

/-- With every reply on the channel the loop comes to an end. -/
theorem Standing.ends (h : Standing c arrived q) (hcand : c.state = .candidate)
    (hall : arrived.length = c.peers.length)
    (hterms : ∀ r ∈ arrived, r.2.term ≤ c.ps.currentTerm) :
    ∃ k, ((List.replicate k .proceed).foldl electionStep q).loop = .select := by
  cases h with
  | polling counted ch waiting term harrived hvotes hreceived hwaiting hnode hloop =>
      -- one iteration for each result on the channel, and the heartbeats
      induction ch generalizing counted q with
      | nil =>
          rw [harrived, List.append_nil] at hall
          omega
      | cons r ch ih =>
          have hterm := hterms r (by simp [harrived])
          rcases proceed_polling hcand hterm hvotes hnode hloop with
            ⟨_, _, hl⟩ | ⟨hmaj, hn, hl⟩
          · refine ⟨2, ?_⟩
            simp only [List.replicate, List.foldl_cons, List.foldl_nil]
            rw [electionStep, hl]
            rfl
          · by_cases hmore : (counted ++ [r]).length < c.peers.length
            · rw [nextIteration, if_pos hmore] at hl
              obtain ⟨k, hk⟩ := ih (counted ++ [r]) (by simp [harrived]) hmaj hmore hn hl
              exact ⟨k + 1, hk⟩
            · rw [nextIteration, if_neg hmore] at hl
              exact ⟨1, hl⟩
  | elected counted hcounted hvotes hnode hloop =>
      rcases hloop with hloop | hloop
      · exact ⟨1, by simp [electionStep, hloop, sendHeartbeats]⟩
      · exact ⟨0, hloop⟩
  | lost counted hcounted hvotes hreceived hnode hloop => exact ⟨0, hloop⟩

/-- An election that has ended was decided by the number of granted replies. -/
theorem Standing.outcome (h : Standing c arrived q) (hcand : c.state = .candidate)
    (hall : arrived.length = c.peers.length) (hend : q.loop = .select) :
    (q.node.state = .leader ↔ majority c ≤ 1 + grants arrived) ∧
      (q.node.state ≠ .leader → q.node = c) := by
  cases h with
  | polling counted ch waiting term _ _ _ _ _ hloop => cases hloop.symm.trans hend
  | elected counted hcounted hvotes hnode hloop =>
      obtain ⟨rest, rfl⟩ := hcounted
      have hlead : q.node.state = .leader := by rw [hnode]; rfl
      have hmore : majority c ≤ 1 + grants (counted ++ rest) := by
        rw [grants_append]
        omega
      exact ⟨iff_of_true hlead hmore, fun hnot => absurd hlead hnot⟩
  | lost counted hcounted hvotes hreceived hnode hloop =>
      have heq : counted = arrived := hcounted.eq_of_length (hreceived.trans hall.symm)
      subst heq
      have hnot : q.node.state ≠ .leader := by rw [hnode, hcand]; simp
      exact ⟨iff_of_false hnot (by omega), fun _ => hnode⟩

/-- An election starts with the candidate's own vote and no arrival. -/
theorem standing_start (p : Process) (hpeers : p.node.peers ≠ []) :
    Standing (becomeCandidate p.node).node [] (startElection p).process := by
  have hlen : 0 < p.node.peers.length := List.length_pos_iff.mpr hpeers
  refine .polling [] [] p.node.peers (becomeCandidate p.node).node.ps.currentTerm rfl
    ?_ hlen (List.Perm.refl _) rfl ?_
  · have hmaj : majority (becomeCandidate p.node).node = (p.node.peers.length + 1) / 2 + 1 := rfl
    rw [hmaj, grants_nil]
    omega
  · exact if_pos hlen

/-- The election that `p` starts comes to an end whatever the order in which
these replies arrive, as a leader if and only if the granted ones and its own
vote are a majority, and otherwise as a candidate of the same term. -/
def EndsByCount (p : Process) (replies : List Reply) : Prop :=
  ∀ schedule, (arrivals schedule).Perm replies →
    (∃ k, (campaign p (schedule ++ List.replicate k .proceed)).loop = .select) ∧
    ((campaign p schedule).loop = .select →
      ((campaign p schedule).node.state = .leader ↔
        (p.node.peers.length + 1) / 2 + 1 ≤ 1 + grants replies) ∧
      ((campaign p schedule).node.state ≠ .leader →
        (campaign p schedule).node.state = .candidate ∧
        (campaign p schedule).node.ps.currentTerm =
          (startElection p).process.node.ps.currentTerm))

/-- **Election outcome.**  Among replies of all peers that do not supersede the
candidate, the number of granted ones decides, if there is a peer at all. -/
theorem election_outcome (p : Process) (replies : List Reply)
    (hfrom : (replies.map Prod.fst).Perm p.node.peers)
    (hterms : ∀ r ∈ replies, r.2.term ≤ (startElection p).process.node.ps.currentTerm) :
    EndsByCount p replies ↔ p.node.peers ≠ [] := by
  constructor
  · intro h hnone
    -- without peers the loop is over before it has begun
    have hnil : replies = [] := by simpa [hnone] using hfrom.length_eq
    subst hnil
    have hloop : (campaign p []).loop = .select := by
      simp [campaign, startElection, nextIteration, becomeCandidate, hnone]
    have hlead := ((h [] (List.Perm.refl _)).2 hloop).1.mpr (by simp [hnone])
    simp [campaign, startElection, becomeCandidate] at hlead
  · intro hpeers schedule harrive
    have hcand : (becomeCandidate p.node).node.state = .candidate := rfl
    have hfrom' : ((arrivals schedule).map Prod.fst).Perm (becomeCandidate p.node).node.peers :=
      (harrive.map Prod.fst).trans hfrom
    have hterms' : ∀ r ∈ arrivals schedule,
        r.2.term ≤ (becomeCandidate p.node).node.ps.currentTerm :=
      fun r hr => hterms r (harrive.subset hr)
    have hstand : Standing (becomeCandidate p.node).node (arrivals schedule)
        (campaign p schedule) := by
      simpa [campaign] using (standing_start p hpeers).foldl hcand schedule
        (by simpa using hfrom'.subperm) (by simpa using hterms')
    have hall : (arrivals schedule).length = (becomeCandidate p.node).node.peers.length := by
      simpa using hfrom'.length_eq
    constructor
    · obtain ⟨k, hk⟩ := hstand.ends hcand hall hterms'
      refine ⟨k, ?_⟩
      rw [campaign, List.foldl_append]
      exact hk
    · intro hend
      obtain ⟨hlead, hnode⟩ := hstand.outcome hcand hall hend
      have hcount : grants (arrivals schedule) = grants replies := harrive.countP_eq _
      rw [hcount] at hlead
      refine ⟨hlead, fun hnot => ?_⟩
      rw [hnode hnot]
      exact ⟨rfl, rfl⟩

/-- Five nodes, of which two grant their vote, one refuses and one is down. -/
theorem election_outcome_five :
    let p := { startProcess "n1" [⟨"n2", "n2:1"⟩, ⟨"n3", "n3:1"⟩, ⟨"n4", "n4:1"⟩, ⟨"n5", "n5:1"⟩]
      none with loop := .electionDue }
    let replies : List Reply := [(⟨"n2", "n2:1"⟩, ⟨true, 1⟩), (⟨"n3", "n3:1"⟩, .failed),
      (⟨"n4", "n4:1"⟩, ⟨false, 1⟩), (⟨"n5", "n5:1"⟩, ⟨true, 1⟩)]
    EndsByCount p replies :=
  (election_outcome _ _ (by decide) (by decide)).mpr (by decide)

/-- A node that was started without peers: the election that its timer starts
leaves it a candidate, with one vote and a majority of one. -/
theorem lone_node_stays_candidate :
    let p := { startProcess "n1" [] none with loop := .electionDue }
    (perform (startProcess "n1" [] none) (.electionTimeout second)).map Effect.process =
        some p ∧
      (campaign p []).loop = .select ∧ (campaign p []).node.state = .candidate ∧
      (p.node.peers.length + 1) / 2 + 1 ≤ 1 + grants [] ∧ ¬ EndsByCount p [] := by
  refine ⟨by decide, by decide, by decide, by decide, ?_⟩
  intro h
  have hlead := ((h [] (List.Perm.refl _)).2 (by decide)).1.mpr (by decide)
  exact absurd hlead (by decide)

end Raft
