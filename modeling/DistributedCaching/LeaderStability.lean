import DistributedCaching.HeartbeatAuthenticity

/-!
# A leader that is heard in time stays the leader

Terms are the only thing that deposes a leader: a request or a reply with a
later term.  No term is invented on the way: every term on the network, and
every term in a vote result that waits to be counted, is the term some node is
in or was in (`below_of_nodes`), with the exception of the term zero in the
result of a failed call.  A new term is made by `startElection` only, and this
is reached through the timer branch of `runLoop` at a node that has not heard
from a leader for `electionTimeoutMin`.

So a leader whose term no node has passed keeps its role in every continuation
in which the timers that fire find a recent heartbeat (`leader_stable`),
whatever else happens: lost, repeated and reordered messages, late replies of
old elections, crashes and restarts of the other nodes.
-/

namespace Raft

open Go MajorityVotes TransitionRuns

/-! ## The terms that an action reads and writes -/

/-- The results that the vote-collecting loop has still to count. -/
def Loop.results : Loop → List (PeerConfig × VoteResult)
  | .collecting _ _ _ _ resultCh => resultCh
  | _ => []

/-- The term an action brings to the process from outside. -/
def Action.inputTerm : Action → Option Int
  | .handleRequestVote req => some req.term
  | .handleAppendEntries req _ => some req.term
  | .voteReturn _ result => some result.term
  | .heartbeatReturn _ _ (some resp) => some resp.term
  | _ => none

/-- The term that an output shows to others. -/
def Output.term : Output → Option Int
  | .voteReply _ resp => some resp.term
  | .appendReply _ resp => some resp.term
  | .requestVote _ req => some req.term
  | .appendEntries _ req => some req.term
  | .campaign term => some term
  | .elected term => some term
  | .leaderNotice _ => none

section Perform

variable {p : Process} {a : Action} {e : Effect} {T : Int}

/-- After a request for its vote a node is in the later of the two terms, and says so. -/
theorem handleRequestVote_term (n : RaftNode) (req : RequestVoteRequest) :
    (handleRequestVote n req).node.ps.currentTerm = max n.ps.currentTerm req.term ∧
      (handleRequestVote n req).reply.term = (handleRequestVote n req).node.ps.currentTerm := by
  unfold handleRequestVote
  split
  · rename_i hstale
    exact ⟨(max_eq_left hstale.le).symm, rfl⟩
  · rename_i hstale
    have hterm : (adoptTerm n req.term).node.ps.currentTerm = max n.ps.currentTerm req.term :=
      (adoptTerm_term hstale).trans (max_eq_right (not_lt.mp hstale)).symm
    dsimp only
    split <;> exact ⟨hterm, rfl⟩

/-- After a heartbeat a node is in the later of the two terms, and says so. -/
theorem handleAppendEntries_term (n : RaftNode) (req : AppendEntriesRequest) (now : Time) :
    (handleAppendEntries n req now).node.ps.currentTerm = max n.ps.currentTerm req.term ∧
      (handleAppendEntries n req now).reply.term =
        (handleAppendEntries n req now).node.ps.currentTerm := by
  unfold handleAppendEntries
  split
  · rename_i hstale
    exact ⟨(max_eq_left hstale.le).symm, rfl⟩
  · rename_i hstale
    have hterm : (adoptTerm n req.term).node.ps.currentTerm = max n.ps.currentTerm req.term :=
      (adoptTerm_term hstale).trans (max_eq_right (not_lt.mp hstale)).symm
    dsimp only
    split <;> exact ⟨hterm, rfl⟩

/-- A reply of a term up to `T` takes a node to no later one. -/
theorem heartbeatReply_le {n : RaftNode} {resp : AppendEntriesResponse}
    (hn : n.ps.currentTerm ≤ T) (ht : resp.term ≤ T) :
    (heartbeatReply n resp).node.ps.currentTerm ≤ T := by
  unfold heartbeatReply becomeFollower
  split
  · exact ht
  · exact hn

/-- Nor does a vote of such a term. -/
theorem countVote_le {n : RaftNode} {votes : Nat} {result : VoteResult}
    (hn : n.ps.currentTerm ≤ T) (ht : result.term ≤ T) :
    (countVote n votes result).node.ps.currentTerm ≤ T := by
  unfold countVote becomeFollower
  split
  · exact ht
  · split
    · split <;> exact hn
    · exact hn

/-- **Only `startElection` makes a term.**  Any other action leaves the node in
its term, or in one that reached it from outside. -/
theorem perform_term_le (h : perform p a = some e) (ha : a ≠ .startElection)
    (hp : p.node.ps.currentTerm ≤ T) (hin : ∀ t ∈ a.inputTerm, t ≤ T)
    (hres : ∀ r ∈ p.loop.results, r.2.term ≤ T) : e.process.node.ps.currentTerm ≤ T := by
  cases a with
  | startElection => exact absurd rfl ha
  | handleRequestVote req =>
      cases h
      have hreq : req.term ≤ T := hin _ rfl
      show (handleRequestVote p.node req).node.ps.currentTerm ≤ T
      rw [(handleRequestVote_term p.node req).1]
      omega
  | handleAppendEntries req now =>
      cases h
      have hreq : req.term ≤ T := hin _ rfl
      show (handleAppendEntries p.node req now).node.ps.currentTerm ≤ T
      rw [(handleAppendEntries_term p.node req now).1]
      omega
  | collect =>
      simp only [perform] at h
      split at h <;> cases h
      rename_i peer result resultCh hloop
      refine countVote_le hp (hres (peer, result) ?_)
      rw [hloop]
      exact List.mem_cons_self
  | heartbeatReturn peer term resp =>
      simp only [perform] at h
      split at h
      · cases resp with
        | none =>
            cases h
            exact hp
        | some resp =>
            cases h
            exact heartbeatReply_le hp (hin _ rfl)
      · cases h
  | receiveLeader =>
      obtain ⟨_, _, _, hprocess, _⟩ := perform_receiveLeader h
      rw [hprocess]
      exact hp
  | _ =>
      have hnode : e.process.node = p.node := by
        simp only [perform] at h
        grind [sendHeartbeats]
      rw [hnode]
      exact hp

/-- **Every term shown is the node's own**, when the section ends. -/
theorem perform_out_term (h : perform p a = some e) {o : Output} (ho : o ∈ e.out) {t : Int}
    (ht : t ∈ o.term) : t = e.process.node.ps.currentTerm := by
  rcases perform_cases h with hq | ⟨_, _, rfl⟩ | ⟨_, _, _, _, _, _, _, _, _, _, rfl⟩ |
    ⟨_, _, _, _, _, _, _, _, _, rfl⟩
  · rcases hq.out o ho with ⟨req, rfl, rfl, hnode⟩ | ⟨req, now, rfl, rfl⟩ |
      ⟨peer, _, rfl, rfl⟩ | ⟨leaderID, _, rfl⟩
    · cases ht
      rw [hnode]
      exact (handleRequestVote_term p.node req).2
    · cases h
      cases ht
      exact (handleAppendEntries_term p.node req now).2
    · simp only [perform] at h
      split at h <;> cases h
      cases ht
      rfl
    · cases ht
  · rcases List.mem_cons.mp ho with rfl | ho
    · cases ht
      rfl
    · obtain ⟨peer, _, rfl⟩ := List.mem_map.mp ho
      cases ht
      rfl
  · simp at ho
  · simp only [collectResult] at ho ⊢
    split at ho
    · rw [List.mem_singleton.mp ho] at ht
      cases ht
      rfl
    · cases ho

/-- A result that waits to be counted has been waiting, or has just arrived. -/
theorem perform_results (h : perform p a = some e) {r : PeerConfig × VoteResult}
    (hr : r ∈ e.process.loop.results) :
    r ∈ p.loop.results ∨ a = .voteReturn r.1 r.2 := by
  rcases perform_cases h with hq | ⟨_, _, rfl⟩ |
    ⟨peer, result, term, votes, received, waiting, resultCh, rfl, hloop, _, rfl⟩ |
    ⟨peer, result, term, votes, received, waiting, resultCh, _, hloop, rfl⟩
  · rcases hq.loop with hl | hl | hl | hl | hl
    · exact Or.inl (hl ▸ hr)
    all_goals simp [hl, Loop.results] at hr
  · simp only [startElection, nextIteration] at hr
    split at hr <;> simp [Loop.results] at hr
  · rcases List.mem_append.mp hr with hr | hr
    · exact Or.inl (by simpa [hloop, Loop.results] using hr)
    · rw [List.mem_singleton.mp hr]
      exact Or.inr rfl
  · refine Or.inl ?_
    rw [hloop]
    refine List.mem_cons_of_mem _ ?_
    simp only [collectResult] at hr
    cases hv : (countVote p.node votes result).reply with
    | superseded => simp [hv, afterVerdict, Loop.results] at hr
    | won => simp [hv, afterVerdict, Loop.results] at hr
    | undecided votes' =>
        simp only [hv, afterVerdict, nextIteration] at hr
        split at hr
        · exact hr
        · simp [Loop.results] at hr

/-- The vote-collecting loop does not end in another election. -/
theorem afterVerdict_ne_electionDue (n : RaftNode) (term : Int) (received : Nat)
    (waiting : List PeerConfig) (resultCh : List (PeerConfig × VoteResult)) (v : Verdict) :
    afterVerdict n term received waiting resultCh v ≠ .electionDue := by
  cases v with
  | undecided votes =>
      simp only [afterVerdict, nextIteration]
      split <;> simp
  | _ => simp [afterVerdict]

/-- A process comes to the start of an election through its timer only, as no
leader and without a recent heartbeat. -/
theorem perform_electionDue (he : perform p a = some e)
    (hdue : e.process.loop = .electionDue) :
    p.loop = .electionDue ∨ ∃ now, a = .electionTimeout now ∧ p.node.state ≠ .leader ∧
      ¬ now - p.node.lastHeartbeat < electionTimeoutMin := by
  cases a with
  | startElection =>
      simp only [perform] at he
      split at he
      · exact Or.inl ‹_›
      · cases he
  | collect =>
      simp only [perform] at he
      split at he <;> cases he
      exact absurd hdue (afterVerdict_ne_electionDue _ _ _ _ _ _)
  | _ =>
      simp only [perform] at he
      grind [sendHeartbeats]

end Perform

/-! ## No term is above those of the nodes -/

variable {ν : Type}

/-- All terms of a world are at most `T`: at the nodes, on the network, and in
the results still to be counted. -/
structure Below (T : Int) (w : World ν) : Prop where
  node : ∀ i, (w.process i).node.ps.currentTerm ≤ T
  voteRequest : ∀ m ∈ w.voteRequests, m.2.term ≤ T
  voteReply : ∀ m ∈ w.voteReplies, m.2.2.term ≤ T
  appendRequest : ∀ m ∈ w.appendRequests, m.2.term ≤ T
  appendReply : ∀ m ∈ w.appendReplies, m.2.2.term ≤ T
  result : ∀ i, ∀ r ∈ (w.process i).loop.results, r.2.term ≤ T

section Steps

variable {c : Cluster ν} {w w' : World ν} {i : ν} {a : Action} {e : Effect} {T : Int}

/-- What the environment supplies carries no term above the bound; the term of
a failed vote call is zero. -/
theorem Below.inputTerm (hw : Below T w) (hT : 0 ≤ T) (hallowed : Allowed c w i a) :
    ∀ t ∈ a.inputTerm, t ≤ T := by
  intro t ht
  cases a with
  | handleRequestVote req =>
      cases ht
      exact hw.voteRequest _ hallowed
  | handleAppendEntries req now =>
      cases ht
      exact hw.appendRequest _ hallowed
  | voteReturn peer result =>
      cases ht
      rcases hallowed with rfl | ⟨m, hm, _, _, _, rfl⟩
      · exact hT
      · exact hw.voteReply m hm
  | heartbeatReturn peer term resp =>
      cases resp with
      | none => cases ht
      | some resp =>
          cases ht
          exact hw.appendReply _ hallowed
  | _ => cases ht

variable [DecidableEq ν]

/-- An action that leaves its node at or below the bound leaves the world so. -/
theorem below_commit (hw : Below T w) (hT : 0 ≤ T) (hallowed : Allowed c w i a)
    (he : perform (w.process i) a = some e) (hle : e.process.node.ps.currentTerm ≤ T) :
    Below T (w.commit c i e) := by
  have hout : ∀ o ∈ e.out, ∀ t ∈ o.term, t ≤ T := by
    intro o ho t ht
    rw [perform_out_term he ho ht]
    exact hle
  have hself : (w.commit c i e).process i = e.process := by simp [World.commit]
  have hother : ∀ {j}, j ≠ i → (w.commit c i e).process j = w.process j := by
    intro j hj
    simp [World.commit, Function.update_of_ne hj]
  constructor
  · intro j
    by_cases hj : j = i
    · rw [hj, hself]
      exact hle
    · rw [hother hj]
      exact hw.node j
  · intro m hm
    rcases List.mem_append.mp hm with hm | hm
    · exact hw.voteRequest m hm
    · obtain ⟨o, ho, hom⟩ := List.mem_filterMap.mp hm
      cases o <;> cases hom
      exact hout _ ho _ rfl
  · intro m hm
    rcases List.mem_append.mp hm with hm | hm
    · exact hw.voteReply m hm
    · obtain ⟨o, ho, hom⟩ := List.mem_filterMap.mp hm
      cases o <;> cases hom
      exact hout _ ho _ rfl
  · intro m hm
    rcases List.mem_append.mp hm with hm | hm
    · exact hw.appendRequest m hm
    · obtain ⟨o, ho, hom⟩ := List.mem_filterMap.mp hm
      cases o <;> cases hom
      exact hout _ ho _ rfl
  · intro m hm
    rcases List.mem_append.mp hm with hm | hm
    · exact hw.appendReply m hm
    · obtain ⟨o, ho, hom⟩ := List.mem_filterMap.mp hm
      cases o <;> cases hom
      exact hout _ ho _ rfl
  · intro j r hr
    by_cases hj : j = i
    · rw [hj, hself] at hr
      rcases perform_results he hr with hold | rfl
      · exact hw.result i r hold
      · exact hw.inputTerm hT hallowed _ rfl
    · rw [hother hj] at hr
      exact hw.result j r hr

/-- A restart on a file at or below the bound leaves the world so. -/
theorem below_restart (hw : Below T w) {file : Option PersistentState}
    (hfile : (loadState file).currentTerm ≤ T) : Below T (w.restart c i file) := by
  refine ⟨?_, hw.voteRequest, hw.voteReply, hw.appendRequest, hw.appendReply, ?_⟩
  · intro j
    by_cases hj : j = i
    · subst hj
      simpa [World.restart, startProcess, newRaftNode] using hfile
    · simpa [World.restart, Function.update_of_ne hj] using hw.node j
  · intro j r hr
    by_cases hj : j = i
    · subst hj
      simp [World.restart, startProcess, Loop.results] at hr
    · exact hw.result j r (by simpa [World.restart, Function.update_of_ne hj] using hr)

/-- Terms of nodes never decrease. -/
theorem term_le_step (hr : Registers c w) {ev : Event ν} (h : step c w ev = some w') (j : ν) :
    (w.process j).node.ps.currentTerm ≤ (w'.process j).node.ps.currentTerm := by
  rcases step_cases h with ⟨i, a, e, _, hallowed, he, rfl⟩ | ⟨i, file, _, rfl, hfile⟩
  · by_cases hj : j = i
    · subst hj
      simp only [World.commit, Function.update_self]
      exact (hallowed.advance he).advances.term_le
    · simp [World.commit, Function.update_of_ne hj]
  · by_cases hj : j = i
    · subst hj
      simp only [World.restart, Function.update_self]
      exact (hr.restart_advances hfile).term_le
    · simp [World.restart, Function.update_of_ne hj]

/-- A bound on the nodes' terms is a bound on all terms. -/
def Bounding (w : World ν) : Prop :=
  ∀ T, 0 ≤ T → (∀ i, (w.process i).node.ps.currentTerm ≤ T) → Below T w

/-- Every event keeps the terms bounded by those of the nodes. -/
theorem bounding_step (hr : Registers c w) (hb : Bounding w) {ev : Event ν}
    (h : step c w ev = some w') : Bounding w' := by
  intro T hT hnodes
  have hw : Below T w := hb T hT fun j => (term_le_step hr h j).trans (hnodes j)
  rcases step_cases h with ⟨i, a, e, _, hallowed, he, rfl⟩ | ⟨i, file, _, rfl, _⟩
  · exact below_commit hw hT hallowed he (by simpa [World.commit] using hnodes i)
  · refine below_restart hw ?_
    simpa [World.restart, startProcess, newRaftNode] using hnodes i

/-- **No term is above those of the nodes**, in every reachable world. -/
theorem below_of_nodes (files : ν → Option PersistentState) {evs : List (Event ν)}
    (h : run (step c) (World.init c files) evs = some w) : Bounding w := by
  refine (run_invariant (I := fun w => Registers c w ∧ Bounding w) ?_ ⟨registers_init c files, ?_⟩
    h).2
  · intro w ev w' hinv hstep
    exact ⟨registers_step hinv.1 hstep, bounding_step hinv.1 hinv.2 hstep⟩
  · intro T _ hnodes
    exact
      { node := hnodes
        voteRequest := fun _ hm => by cases hm
        voteReply := fun _ hm => by cases hm
        appendRequest := fun _ hm => by cases hm
        appendReply := fun _ hm => by cases hm
        result := fun _ _ hr => by cases hr }

/-! ## A leader heard in time -/

/-- A timer that fires at a node other than a leader finds a heartbeat younger
than `electionTimeoutMin`, and the process of `l` does not crash. -/
def Calm (l : ν) (w : World ν) : Event ν → Prop
  | .act i (.electionTimeout now) =>
      (w.process i).node.state = .leader ∨
        now - (w.process i).node.lastHeartbeat < electionTimeoutMin
  | .act _ _ => True
  | .crash i => i ≠ l
  | .crashDuring i _ _ => i ≠ l

instance (l : ν) (w : World ν) : ∀ ev, Decidable (Calm l w ev)
  | .act i (.electionTimeout _) =>
      inferInstanceAs (Decidable ((w.process i).node.state = .leader ∨ (_ : Int) < _))
  | .act _ (.handleRequestVote _) => .isTrue trivial
  | .act _ (.handleAppendEntries _ _) => .isTrue trivial
  | .act _ .heartbeatTick => .isTrue trivial
  | .act _ .startElection => .isTrue trivial
  | .act _ (.voteReturn _ _) => .isTrue trivial
  | .act _ .collect => .isTrue trivial
  | .act _ .sendHeartbeats => .isTrue trivial
  | .act _ (.heartbeatReturn _ _ _) => .isTrue trivial
  | .act _ .receiveLeader => .isTrue trivial
  | .act _ .stop => .isTrue trivial
  | .crash i => inferInstanceAs (Decidable (i ≠ l))
  | .crashDuring i _ _ => inferInstanceAs (Decidable (i ≠ l))

/-- `l` leads in term `T`, no term is later, and no node is about to make one. -/
structure Leads (T : Int) (l : ν) (w : World ν) : Prop where
  state : (w.process l).node.state = .leader
  term : (w.process l).node.ps.currentTerm = T
  below : Below T w
  idle : ∀ i, (w.process i).loop ≠ .electionDue

/-- The writes of a section never hold a later term than the node ends in. -/
theorem saveAll_take_le {ps ps' : PersistentState} {saves : List PersistentState}
    {file : Option PersistentState} (h : SavesAdvance ps saves ps')
    (hfile : loadState file = ps) (k : Nat) :
    (loadState (saveAll file (saves.take k))).currentTerm ≤ ps'.currentTerm := by
  induction saves generalizing ps file k with
  | nil =>
      cases h
      rw [List.take_nil]
      exact hfile ▸ le_refl _
  | cons r rs ih =>
      cases k with
      | zero =>
          rw [List.take_zero]
          exact hfile ▸ h.advances.term_le
      | succ k => exact ih h.2 rfl k

/-- A calm step brings no process to the start of an election. -/
theorem idle_commit {l : ν} (hidle : ∀ j, (w.process j).loop ≠ .electionDue)
    (hcalm : Calm l w (.act i a)) (he : perform (w.process i) a = some e) (j : ν) :
    ((w.commit c i e).process j).loop ≠ .electionDue := by
  by_cases hj : j = i
  · subst hj
    simp only [World.commit, Function.update_self]
    intro hdue
    rcases perform_electionDue he hdue with hwas | ⟨now, rfl, hnot, hold⟩
    · exact hidle j hwas
    · rcases hcalm with hlead | hrecent
      · exact hnot hlead
      · exact hold hrecent
  · simpa [World.commit, Function.update_of_ne hj] using hidle j

omit [DecidableEq ν] in
/-- A leader is in no election, so its action is quiet, and a quiet action
deposes it only for a later term. -/
theorem Leads.keeps [Fintype ν] {l : ν} (hel : Elections c w) (hw : Leads T l w)
    (he : perform (w.process l) a = some e) (hle : e.process.node.ps.currentTerm ≤ T) :
    e.process.node.state = .leader ∧ e.process.node.ps.currentTerm = T := by
  rcases perform_cases he with hq | ⟨_, hstart, _⟩ |
    ⟨_, _, _, _, _, _, _, _, hloop, _, _⟩ | ⟨_, _, _, _, _, _, _, _, hloop, _⟩
  · rcases hq.role with ⟨hstate, hsame⟩ | ⟨_, hlater | ⟨hcand, _⟩⟩
    · exact ⟨hstate.trans hw.state, hsame.trans hw.term⟩
    · rw [hw.term] at hlater
      omega
    · rw [hw.state] at hcand
      cases hcand
  · exact absurd hstart (hw.idle l)
  · exact absurd hw.state (hel.counting _ _ _ _ _ _ hloop).notLeader
  · exact absurd hw.state (hel.counting _ _ _ _ _ _ hloop).notLeader

/-- The restart of another node, on a file no later than the leader's term. -/
theorem leads_restart {l : ν} (hw : Leads T l w) (hi : i ≠ l) {file : Option PersistentState}
    (hfile : (loadState file).currentTerm ≤ T) : Leads T l (w.restart c i file) := by
  have hl : (w.restart c i file).process l = w.process l := by
    simp [World.restart, Function.update_of_ne hi.symm]
  refine ⟨?_, ?_, below_restart hw.below hfile, ?_⟩
  · rw [hl]
    exact hw.state
  · rw [hl]
    exact hw.term
  · intro j
    by_cases hj : j = i
    · subst hj
      simp [World.restart, startProcess]
    · simpa [World.restart, Function.update_of_ne hj] using hw.idle j

/-- **One calm step keeps the leader.** -/
theorem leads_step [Fintype ν] {l : ν} {ev : Event ν} (hr : Registers c w) (hel : Elections c w)
    (hT : 0 ≤ T) (hw : Leads T l w) (hcalm : Calm l w ev) (h : step c w ev = some w') :
    Leads T l w' := by
  have hterm : ∀ {i a e}, Allowed c w i a → perform (w.process i) a = some e →
      e.process.node.ps.currentTerm ≤ T := by
    intro i a e hallowed he
    refine perform_term_le he ?_ (hw.below.node i) (hw.below.inputTerm hT hallowed)
      (hw.below.result i)
    rintro rfl
    simp [perform, hw.idle i] at he
  cases ev with
  | act i a =>
      simp only [step] at h
      split at h
      · rename_i hallowed
        obtain ⟨e, he, rfl⟩ := Option.map_eq_some_iff.mp h
        have hbelow := below_commit hw.below hT hallowed he (hterm hallowed he)
        have hidle := idle_commit (c := c) hw.idle hcalm he
        by_cases hi : l = i
        · subst hi
          obtain ⟨hstate, hsame⟩ := hw.keeps hel he (hterm hallowed he)
          exact ⟨by simpa [World.commit] using hstate, by simpa [World.commit] using hsame,
            hbelow, hidle⟩
        · refine ⟨?_, ?_, hbelow, hidle⟩
          · simpa [World.commit, Function.update_of_ne hi] using hw.state
          · simpa [World.commit, Function.update_of_ne hi] using hw.term
      · cases h
  | crash i =>
      cases h
      refine leads_restart hw hcalm ?_
      rw [hr.saved i]
      exact hw.below.node i
  | crashDuring i a k =>
      simp only [step] at h
      split at h
      · rename_i hallowed
        obtain ⟨e, he, rfl⟩ := Option.map_eq_some_iff.mp h
        refine leads_restart hw hcalm ?_
        exact (saveAll_take_le (hallowed.advance he) (hr.saved i) k).trans (hterm hallowed he)
      · cases h

end Steps

/-- `l` is the leader of term `T`, every other leader is one of an earlier
term, and no node is in, or was elected in, a later term. -/
structure SoleLeader (T : Int) (l : ν) (w : World ν) : Prop where
  leader : (w.process l).node.state = .leader ∧ (w.process l).node.ps.currentTerm = T
  sole : ∀ i, (w.process i).node.state = .leader → i ≠ l →
    (w.process i).node.ps.currentTerm < T
  latest : ∀ i, (w.process i).node.ps.currentTerm ≤ T
  elections : ∀ m ∈ w.elected, m.2 ≤ T

variable [DecidableEq ν] [Fintype ν] {c : Cluster ν} {w : World ν}

/-- **A leader of the latest term is the only one.** -/
theorem Leads.soleLeader {T : Int} {l : ν} (hr : Registers c w) (hel : Elections c w)
    (hl : Leaderships w) (hw : Leads T l w) : SoleLeader T l w where
  leader := ⟨hw.state, hw.term⟩
  sole := by
    intro i hlead hne
    refine lt_of_le_of_ne (hw.below.node i) ?_
    intro heq
    refine hne (elected_unique hr hel (hl.elected i hlead) ?_)
    rw [heq, ← hw.term]
    exact hl.elected l hw.state
  latest := hw.below.node
  elections := fun m hm => (hl.past m hm).trans (hw.below.node m.1)

/-- **A leader that is heard in time stays the only one of the latest term.**
From every reachable world in which `l` leads a term that is not negative, no
node is in a later term and no node has already decided to start an election,
and in every continuation in which each timer that fires finds a recent
heartbeat and `l` does not crash, `l` keeps leading in its term, no node enters
or wins a later one, and all other leaders are of earlier terms. -/
theorem leader_stable (c : Cluster ν) (files : ν → Option PersistentState)
    (evs : List (Event ν)) (w : World ν)
    (h : run (step c) (World.init c files) evs = some w) (l : ν)
    (hlead : (w.process l).node.state = .leader)
    (hlatest : ∀ i, (w.process i).node.ps.currentTerm ≤ (w.process l).node.ps.currentTerm)
    (hterm : 0 ≤ (w.process l).node.ps.currentTerm)
    (hidle : ∀ i, (w.process i).loop ≠ .electionDue)
    (later : List (Event ν)) (hcalm : Along (step c) (Calm l) w later) :
    Throughout (step c) (SoleLeader (w.process l).node.ps.currentTerm l) w later := by
  have hinit : Registers c (World.init c files) ∧ Elections c (World.init c files) ∧
      Leaderships (World.init c files) :=
    ⟨registers_init c files, elections_init c files, leaderships_init c files⟩
  have hkeep : ∀ (v : World ν) (ev : Event ν) (v' : World ν),
      (Registers c v ∧ Elections c v ∧ Leaderships v) → step c v ev = some v' →
      Registers c v' ∧ Elections c v' ∧ Leaderships v' := by
    intro v ev v' ⟨hr, hel, hl⟩ hstep
    exact ⟨registers_step hr hstep, elections_step hr hel hstep, leaderships_step hr hl hstep⟩
  have hreach := run_invariant hkeep hinit h
  have hstart : Leads (w.process l).node.ps.currentTerm l w :=
    ⟨hlead, rfl, below_of_nodes files h _ hterm hlatest, hidle⟩
  -- The invariants of reachable worlds are carried along with the leadership.
  have hall : Throughout (step c) (fun v => (Registers c v ∧ Elections c v ∧ Leaderships v) ∧
      Leads (w.process l).node.ps.currentTerm l v) w later := by
    refine throughout_of_along ?_ ⟨hreach, hstart⟩ hcalm
    intro v ev v' hinv hP hstep
    exact ⟨hkeep v ev v' hinv.1 hstep, leads_step hinv.1.1 hinv.1.2.1 hterm hinv.2 hP hstep⟩
  exact hall.mono fun v hv => hv.2.soleLeader hv.1.1 hv.1.2.1 hv.1.2.2

/-- The leader's heartbeat reaches the second node, whose timer fires soon
after; the third node, which has heard nothing, crashes; an old vote request
is delivered again. -/
def calmEvents : List (Event (Fin 3)) :=
  [.act node1 .sendHeartbeats, .act node2 (.handleAppendEntries ⟨1, "node1"⟩ (2 * second)),
   .act node2 (.electionTimeout (2 * second + 100 * millisecond)), .crash node3,
   .act node3 (.handleRequestVote ⟨1, "node1"⟩)]

/-- Calm events after an election: the first node stays the only leader of term one. -/
theorem leader_stable_calmEvents :
    ∃ w, run (step threeNodes) (World.init threeNodes fun _ => none) electsFirst = some w ∧
      (run (step threeNodes) w calmEvents).isSome = true ∧
      Throughout (step threeNodes) (SoleLeader 1 node1) w calmEvents := by
  obtain ⟨w, hrun, hlead, hterm, hlatest, hidle, henabled, hcalm⟩ : ∃ w,
      run (step threeNodes) (World.init threeNodes fun _ => none) electsFirst = some w ∧
        (w.process node1).node.state = .leader ∧ (w.process node1).node.ps.currentTerm = 1 ∧
        (∀ i, (w.process i).node.ps.currentTerm ≤ 1) ∧
        (∀ i, (w.process i).loop ≠ .electionDue) ∧
        (run (step threeNodes) w calmEvents).isSome = true ∧
        Along (step threeNodes) (Calm node1) w calmEvents :=
    exists_run (by decide) (by decide)
  refine ⟨w, hrun, henabled, ?_⟩
  have hstable := leader_stable threeNodes _ _ w hrun node1 hlead
    (fun i => hterm ▸ hlatest i) (by rw [hterm]; decide) hidle calmEvents hcalm
  rwa [hterm] at hstable

end Raft
