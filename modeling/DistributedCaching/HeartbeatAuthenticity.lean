import DistributedCaching.ElectionSafety

/-!
# Which heartbeats are authentic

`sendHeartbeats` is reached by two paths: the ticker branch of `runLoop`, after
a check of `state == Leader`, and the winning branch of `startElection`.  Both
release the mutex before `sendHeartbeats` takes it again to read the term.  In
the gap a handler or a reply may adopt a higher term, and the heartbeats then
carry a term in which the node was never elected.

`heartbeats_authentic_iff` says that this is the only way to forge one: all
heartbeats of a run name a leader elected in their term, and nodes agree on
the leader whose heartbeats they accept, exactly when every section of
`sendHeartbeats` (at a node with peers) runs in state `Leader`.
`forgedHeartbeat` is a run of three nodes that breaks both.
-/

namespace Raft

open Go MajorityVotes TransitionRuns

variable {ν : Type}

/-- Every heartbeat handed to the transport names a node that executed
`becomeLeader` in its term. -/
def Authentic (c : Cluster ν) (w : World ν) : Prop :=
  ∀ m ∈ w.appendRequests, ∃ i, m.2.leaderID = c.id i ∧ (i, m.2.term) ∈ w.elected

/-- Heartbeats accepted in one term name one leader. -/
def AgreedLeader (w : World ν) : Prop :=
  ∀ m ∈ w.accepted, ∀ m' ∈ w.accepted,
    m.2.term = m'.2.term → m.2.leaderID = m'.2.leaderID

/-- A section of `sendHeartbeats` is run by a node that is still the leader, or
has nobody to send to. -/
def SendsAsLeader (w : World ν) : Event ν → Prop
  | .act i .sendHeartbeats =>
      (w.process i).node.state = .leader ∨ (w.process i).node.peers = []
  | _ => True

instance (w : World ν) : ∀ ev, Decidable (SendsAsLeader w ev)
  | .act i .sendHeartbeats =>
      inferInstanceAs (Decidable ((w.process i).node.state = .leader ∨ _ = []))
  | .act _ (.handleRequestVote _) => .isTrue trivial
  | .act _ (.handleAppendEntries _ _) => .isTrue trivial
  | .act _ .heartbeatTick => .isTrue trivial
  | .act _ (.electionTimeout _) => .isTrue trivial
  | .act _ .startElection => .isTrue trivial
  | .act _ (.voteReturn _ _) => .isTrue trivial
  | .act _ .collect => .isTrue trivial
  | .act _ (.heartbeatReturn _ _ _) => .isTrue trivial
  | .act _ .receiveLeader => .isTrue trivial
  | .act _ .stop => .isTrue trivial
  | .crash _ => .isTrue trivial
  | .crashDuring _ _ _ => .isTrue trivial

/-! ## Leaderships and terms -/

/-- A leader has been elected in its term; elections are never ahead of the
node's term; a node about to send heartbeats that is no leader has moved past
all its elections; and only requests that were sent are accepted. -/
structure Leaderships (w : World ν) : Prop where
  elected : ∀ i, (w.process i).node.state = .leader →
    (i, (w.process i).node.ps.currentTerm) ∈ w.elected
  past : ∀ m ∈ w.elected, m.2 ≤ (w.process m.1).node.ps.currentTerm
  ended : ∀ i, (w.process i).loop = .heartbeatDue ∨ (w.process i).loop = .won →
    (w.process i).node.state ≠ .leader →
    ∀ t, (i, t) ∈ w.elected → t < (w.process i).node.ps.currentTerm
  sent : ∀ m ∈ w.accepted, ∃ peer, (peer, m.2) ∈ w.appendRequests

/-- At the start there is no leader and no request was sent. -/
theorem leaderships_init (c : Cluster ν) (files : ν → Option PersistentState) :
    Leaderships (World.init c files) where
  elected := fun _ h => by cases h
  past := fun _ h => by cases h
  ended := fun _ h => by rcases h with h | h <;> cases h
  sent := fun _ h => by cases h

variable [DecidableEq ν] {c : Cluster ν} {w : World ν} {i : ν} {a : Action} {e : Effect}

/-- An election recorded after an action was recorded before it, or is the
acting node's own, which is then the leader of that term. -/
theorem mem_elected_commit (he : perform (w.process i) a = some e) {m : ν × Int}
    (hm : m ∈ (w.commit c i e).elected) :
    m ∈ w.elected ∨ m = (i, e.process.node.ps.currentTerm) ∧
      e.process.node.state = .leader := by
  rcases List.mem_append.mp hm with hm | hm
  · exact Or.inl hm
  · obtain ⟨o, ho, hom⟩ := List.mem_filterMap.mp hm
    cases o with
    | elected t =>
        cases hom
        obtain ⟨_, _, _, _, _, _, _, _, _, _, _, hterm, hnode⟩ := perform_elected he ho
        right
        rw [hnode]
        exact ⟨by rw [← hterm]; rfl, rfl⟩
    | _ => cases hom

/-- A section keeps the leaderships right. -/
theorem leaderships_commit (hl : Leaderships w) (hallowed : Allowed c w i a)
    (he : perform (w.process i) a = some e) : Leaderships (w.commit c i e) := by
  have hle : (w.process i).node.ps.currentTerm ≤ e.process.node.ps.currentTerm :=
    (hallowed.advance he).advances.term_le
  have hself : (w.commit c i e).process i = e.process := by simp [World.commit]
  have hother : ∀ {j}, j ≠ i → (w.commit c i e).process j = w.process j := by
    intro j hj
    simp [World.commit, Function.update_of_ne hj]
  constructor
  · intro j hlead
    by_cases hj : j = i
    · subst hj
      rw [hself] at hlead ⊢
      rcases perform_leader he hlead with ⟨hwas, hterm⟩ | hnew
      · rw [hterm]
        exact List.mem_append_left _ (hl.elected j hwas)
      · exact List.mem_append_right _ (List.mem_filterMap.mpr ⟨_, hnew, rfl⟩)
    · rw [hother hj] at hlead ⊢
      exact List.mem_append_left _ (hl.elected j hlead)
  · intro m hm
    rcases mem_elected_commit he hm with hold | ⟨rfl, _⟩
    · by_cases hj : m.1 = i
      · rw [hj, hself]
        exact (hj ▸ hl.past m hold).trans hle
      · rw [hother hj]
        exact hl.past m hold
    · rw [hself]
  · intro j hloop hnot t ht
    by_cases hj : j = i
    · subst hj
      rw [hself] at hloop hnot ⊢
      rcases mem_elected_commit he ht with hold | ⟨_, hlead⟩
      · obtain ⟨hdue, hrole⟩ := perform_due he hloop hnot
        by_cases hwas : (w.process j).node.state = .leader
        · rcases hrole with ⟨hstate, _⟩ | ⟨_, hlater | ⟨hcand, _⟩⟩
          · exact absurd (hstate.trans hwas) hnot
          · exact (hl.past _ hold).trans_lt hlater
          · rw [hwas] at hcand
            cases hcand
        · exact (hl.ended j hdue hwas t hold).trans_le hle
      · exact absurd hlead hnot
    · rw [hother hj] at hloop hnot ⊢
      rcases mem_elected_commit he ht with hold | ⟨heq, _⟩
      · exact hl.ended j hloop hnot t hold
      · exact absurd (congrArg Prod.fst heq) hj
  · intro m hm
    rcases List.mem_append.mp hm with hm | hm
    · obtain ⟨peer, hpeer⟩ := hl.sent m hm
      exact ⟨peer, List.mem_append_left _ hpeer⟩
    · obtain ⟨o, ho, hom⟩ := List.mem_filterMap.mp hm
      cases o with
      | appendReply req resp =>
          simp only [Output.acceptedBy, Option.ite_none_right_eq_some, Option.some.injEq] at hom
          obtain ⟨_, rfl⟩ := hom
          obtain ⟨now, rfl⟩ := perform_appendReply he ho
          exact ⟨c.peer i, List.mem_append_left _ hallowed⟩
      | _ => cases hom

/-- A restart keeps the leaderships right, if the file is not behind. -/
theorem leaderships_restart (hl : Leaderships w) {file : Option PersistentState}
    (hfile : Advances (w.process i).node.ps.ballot (loadState file).ballot) :
    Leaderships (w.restart c i file) := by
  have hself : (w.restart c i file).process i =
      startProcess (c.id i) (c.peers i) file := by simp [World.restart]
  have hother : ∀ {j}, j ≠ i → (w.restart c i file).process j = w.process j := by
    intro j hj
    simp [World.restart, Function.update_of_ne hj]
  constructor
  · intro j hlead
    by_cases hj : j = i
    · subst hj
      rw [hself] at hlead
      cases hlead
    · rw [hother hj] at hlead ⊢
      exact hl.elected j hlead
  · intro m hm
    by_cases hj : m.1 = i
    · rw [hj, hself]
      exact (hj ▸ hl.past m hm).trans hfile.term_le
    · rw [hother hj]
      exact hl.past m hm
  · intro j hloop hnot t ht
    by_cases hj : j = i
    · subst hj
      rw [hself] at hloop
      rcases hloop with hloop | hloop <;> cases hloop
    · rw [hother hj] at hloop hnot ⊢
      exact hl.ended j hloop hnot t ht
  · exact hl.sent

/-- **Every event keeps the leaderships right.** -/
theorem leaderships_step {w' : World ν} {ev : Event ν} (hr : Registers c w)
    (hl : Leaderships w) (h : step c w ev = some w') : Leaderships w' := by
  rcases step_cases h with ⟨i, a, e, _, hallowed, he, rfl⟩ | ⟨i, file, _, rfl, hfile⟩
  · exact leaderships_commit hl hallowed he
  · exact leaderships_restart hl (hr.restart_advances hfile)

/-! ## Authenticity, step by step -/

/-- Accepted heartbeats that are authentic agree on the leader. -/
theorem agreedLeader_of_authentic [Fintype ν] (hr : Registers c w) (hel : Elections c w)
    (hl : Leaderships w) (hauth : Authentic c w) : AgreedLeader w := by
  intro m hm m' hm' hterm
  obtain ⟨peer, hsent⟩ := hl.sent m hm
  obtain ⟨peer', hsent'⟩ := hl.sent m' hm'
  obtain ⟨i, hi, hwon⟩ := hauth _ hsent
  obtain ⟨j, hj, hwon'⟩ := hauth _ hsent'
  have hij : i = j := elected_unique hr hel (hterm ▸ hwon) hwon'
  have hi' : m.2.leaderID = c.id i := hi
  have hj' : m'.2.leaderID = c.id j := hj
  rw [hi', hj', hij]

/-- An action keeps the heartbeats authentic exactly when it does not send any
without being the leader. -/
theorem authentic_commit_iff (hr : Registers c w) (hl : Leaderships w)
    (hauth : Authentic c w) (he : perform (w.process i) a = some e) :
    Authentic c (w.commit c i e) ↔ SendsAsLeader w (.act i a) := by
  constructor
  · intro hauth'
    cases a with
    | sendHeartbeats =>
        by_contra hno
        simp only [SendsAsLeader, not_or] at hno
        obtain ⟨hnot, hpeers⟩ := hno
        obtain ⟨peer, hpeer⟩ := List.exists_mem_of_ne_nil _ hpeers
        have hloop : (w.process i).loop = .heartbeatDue ∨ (w.process i).loop = .won := by
          simp only [perform] at he
          split at he
          · assumption
          · cases he
        have heq : e = sendHeartbeats (w.process i) := by
          simp only [perform, hloop, if_true, Option.some.injEq] at he
          exact he.symm
        subst heq
        have hmem : (peer, (⟨(w.process i).node.ps.currentTerm, (w.process i).node.id⟩ :
            AppendEntriesRequest)) ∈ (w.commit c i (sendHeartbeats (w.process i))).appendRequests :=
          List.mem_append_right _ (List.mem_filterMap.mpr
            ⟨_, List.mem_map.mpr ⟨peer, hpeer, rfl⟩, rfl⟩)
        obtain ⟨j, hj, hwon⟩ := hauth' _ hmem
        have hji : i = j := c.id_injective ((hr.identity i).1 ▸ hj)
        subst hji
        rcases mem_elected_commit he hwon with hold | ⟨_, hlead⟩
        · exact lt_irrefl _ (hl.ended i hloop hnot _ hold)
        · exact hnot hlead
    | _ => trivial
  · intro hsend m hm
    rcases List.mem_append.mp hm with hm | hm
    · obtain ⟨j, hj, hwon⟩ := hauth m hm
      exact ⟨j, hj, List.mem_append_left _ hwon⟩
    · obtain ⟨o, ho, hom⟩ := List.mem_filterMap.mp hm
      cases o with
      | appendEntries peer req =>
          cases hom
          obtain ⟨rfl, rfl⟩ := perform_appendEntries he ho
          refine ⟨i, (hr.identity i).1, ?_⟩
          rcases hsend with hlead | hpeers
          · exact List.mem_append_left _ (hl.elected i hlead)
          · simp only [perform] at he
            split at he <;> cases he
            simp [sendHeartbeats, hpeers] at ho
      | _ => cases hom

/-- **Authentic heartbeats.**  Throughout a run every heartbeat handed to the
transport names a node that was elected in its term, and no two heartbeats
accepted in a term name different leaders, exactly when every section of
`sendHeartbeats` at a node with peers is run in state `Leader`. -/
theorem heartbeats_authentic_iff [Fintype ν] (c : Cluster ν)
    (files : ν → Option PersistentState) (evs : List (Event ν)) (w : World ν)
    (h : run (step c) (World.init c files) evs = some w) :
    Throughout (step c) (fun w => Authentic c w ∧ AgreedLeader w) (World.init c files) evs ↔
      Along (step c) SendsAsLeader (World.init c files) evs := by
  refine throughout_iff_along
    (J := fun w => Registers c w ∧ Elections c w ∧ Leaderships w) ?_ ?_
    ⟨registers_init c files, elections_init c files, leaderships_init c files⟩ ?_ h
  · intro w ev w' ⟨hr, hel, hl⟩ hstep
    exact ⟨registers_step hr hstep, elections_step hr hel hstep, leaderships_step hr hl hstep⟩
  · intro w ev w' ⟨hr, hel, hl⟩ ⟨hauth, hagreed⟩ hstep
    have hr' := registers_step hr hstep
    have hel' := elections_step hr hel hstep
    have hl' := leaderships_step hr hl hstep
    have hiff : Authentic c w' ↔ SendsAsLeader w ev := by
      rcases step_cases hstep with ⟨i, a, e, rfl, _, he, rfl⟩ | ⟨i, file, hev, rfl, _⟩
      · exact authentic_commit_iff hr hl hauth he
      · have hP : SendsAsLeader w ev := by
          cases ev with
          | act j a => exact absurd rfl (hev j a)
          | _ => trivial
        exact ⟨fun _ => hP, fun _ => hauth⟩
    rw [← hiff]
    exact ⟨And.left, fun hauth' => ⟨hauth', agreedLeader_of_authentic hr' hel' hl' hauth'⟩⟩
  · constructor
    · intro m hm
      cases hm
    · intro m hm
      cases hm

/-- The heartbeats that follow the election of `electsFirst` are authentic. -/
theorem heartbeats_authentic_electsFirst :
    Throughout (step threeNodes) (fun w => Authentic threeNodes w ∧ AgreedLeader w)
      (World.init threeNodes fun _ => none) (electsFirst ++ [.act 0 .sendHeartbeats]) := by
  obtain ⟨w, hrun⟩ : ∃ w, run (step threeNodes) (World.init threeNodes fun _ => none)
      (electsFirst ++ [.act 0 .sendHeartbeats]) = some w :=
    Option.isSome_iff_exists.mp (by decide)
  exact (heartbeats_authentic_iff threeNodes _ _ w hrun).mpr (by decide)

/-- Node 1 wins term one and sees `Leader` in its ticker branch; before it reads
the term it hands its vote for term two to node 2, so that its heartbeats carry
term two.  Node 3 accepts one of them, and node 1 one of the real leader's. -/
def forgedHeartbeat : List (Event (Fin 3)) :=
  electsFirst ++
  [.act node1 .sendHeartbeats, .act node1 .heartbeatTick,
   .act node2 (.electionTimeout second), .act node2 .startElection,
   .act node1 (.handleRequestVote ⟨2, "node2"⟩), .act node1 .sendHeartbeats,
   .act node3 (.handleAppendEntries ⟨2, "node1"⟩ second),
   .act node2 (.voteReturn ⟨"node1", "node1:9001"⟩ ⟨true, 2⟩), .act node2 .collect,
   .act node2 .sendHeartbeats, .act node1 (.handleAppendEntries ⟨2, "node2"⟩ second)]

/-- A heartbeat that no leader has sent breaks both. -/
theorem forgedHeartbeat_breaks :
    ∃ w, run (step threeNodes) (World.init threeNodes fun _ => none) forgedHeartbeat = some w ∧
      ¬ Authentic threeNodes w ∧ ¬ AgreedLeader w := by
  obtain ⟨w, hrun, hsent, hlost, hforged, hreal⟩ : ∃ w,
      run (step threeNodes) (World.init threeNodes fun _ => none) forgedHeartbeat = some w ∧
        (⟨"node3", "node3:9003"⟩, ⟨2, "node1"⟩) ∈ w.appendRequests ∧ (node1, 2) ∉ w.elected ∧
        (node3, ⟨2, "node1"⟩) ∈ w.accepted ∧ (node1, ⟨2, "node2"⟩) ∈ w.accepted :=
    exists_run (by decide) (by decide)
  refine ⟨w, hrun, ?_, ?_⟩
  · intro hauth
    have hfirst : ∀ i, "node1" = threeNodes.id i → i = node1 := by decide
    obtain ⟨i, hi, hwon⟩ := hauth _ hsent
    exact hlost (hfirst i hi ▸ hwon)
  · intro hagreed
    exact absurd (hagreed _ hforged _ hreal rfl) (by decide)

end Raft
