import DistributedCaching.Coordinator
import DistributedCaching.RaftProcess
import DistributedCaching.TransitionRuns

/-!
# From Raft leadership to the coordinator role

`main` of a cache node starts a goroutine that drains the Raft node's channel of
leaders into `SetLeader`.  The model composes the Raft process, the channel,
the goroutine (idle, or holding the value it has received) and the coordinator.

Only `becomeLeader` sends on the channel, and it sends the node's own id.  So
the flag of the coordinator goes up after an election, and never goes down
again: no step-down is ever announced.  `role_follows` says that the coordinator
agrees with the Raft state in every run in which the leader is never deposed,
and that a run in which it is deposed leads, once the channel is drained, to a
follower that still routes requests.
-/

namespace Cluster

open Go Raft TransitionRuns

/-- A cache node: the Raft process, the coordinator, and the value the draining
goroutine has received and not yet handled. -/
structure CacheNode where
  process : Process
  coordinator : Coordinator
  pending : Option String := none

/-- The ring as `main` builds it: the node itself, then its peers. -/
def mainRing (nodeID : String) (grpcPort : Int) (peers : List PeerConfig) : Ring :=
  let ring := newRing.add nodeID (nodeID ++ ":" ++ toString grpcPort)
  peers.foldl (fun ring p => ring.add p.id p.addr) ring

/-- One health tracker for every node of the ring. -/
def mainHealth (ring : Ring) : GoMap String NodeHealth :=
  ring.nodes.foldl
    (fun m nodeID => m.insert nodeID (newNodeHealth nodeID ((ring.nodeAddr nodeID).getD ""))) ∅

/-- A cache node as `main` starts it, on a state directory holding `file`. -/
def startCacheNode (nodeID : String) (grpcPort : Int) (peers : List PeerConfig)
    (file : Option PersistentState) : CacheNode :=
  let ring := mainRing nodeID grpcPort peers
  { process := startProcess nodeID peers file
    coordinator := newCoordinator ring (mainHealth ring) }

inductive NodeEvent
  /-- A section of the Raft node. -/
  | raft (a : Action)
  /-- The goroutine of `main` takes the next value off the channel. -/
  | receiveLeader
  /-- It calls `SetLeader` with what it has received. -/
  | setLeader
  /-- A health probe reports. -/
  | health (nodeID : String) (available : Bool)
  deriving DecidableEq, Repr

/-- The leader id in a receive from the channel. -/
def noticeOf : Output → Option String
  | .leaderNotice leaderID => some leaderID
  | _ => none

def nodeStep (s : CacheNode) : NodeEvent → Option CacheNode
  | .raft a =>
      if a = .receiveLeader then none
      else (perform s.process a).map fun e => { s with process := e.process }
  | .receiveLeader =>
      if s.pending = none then
        (perform s.process .receiveLeader).map fun e =>
          { s with process := e.process, pending := e.out.findSome? noticeOf }
      else none
  | .setLeader =>
      s.pending.map fun leaderID =>
        { s with
          coordinator := s.coordinator.setLeader (leaderID == s.process.node.id)
          pending := none }
  | .health nodeID available =>
      some { s with coordinator := s.coordinator.updateNodeHealth nodeID available }

/-- **The coordinator role follows Raft**: with the channel empty and the
goroutine idle, the flag is up only at a leader, and any other node rejects
every request. -/
def RoleFollows (s : CacheNode) : Prop :=
  s.process.node.leaderCh = [] → s.pending = none →
    (s.coordinator.isLeader = true → s.process.node.state = .leader) ∧
    (s.process.node.state ≠ .leader →
      ∀ key, s.coordinator.route key = .error .noCoordinator)

/-- The term in the message that a section of the node handles. -/
def messageTerm : Action → Option Int
  | .handleRequestVote req => some req.term
  | .handleAppendEntries req _ => some req.term
  | .heartbeatReturn _ _ (some resp) => some resp.term
  | _ => none

/-- A leader is not told of a later term. -/
def LeadsOn (s : CacheNode) : NodeEvent → Prop
  | .raft a => s.process.node.state = .leader →
      ∀ t ∈ messageTerm a, t ≤ s.process.node.ps.currentTerm
  | _ => True

instance (s : CacheNode) : ∀ ev, Decidable (LeadsOn s ev)
  | .raft a => inferInstanceAs (Decidable (_ → ∀ t ∈ messageTerm a, _))
  | .receiveLeader => .isTrue trivial
  | .setLeader => .isTrue trivial
  | .health _ _ => .isTrue trivial

/-! ## A leader steps down only for a later term -/

/-- A leader is not in an election. -/
def Settled (p : Process) : Prop :=
  p.node.state = .leader → p.loop ≠ .electionDue ∧ p.loop.campaignTerm = none

section Steps

variable {p : Process} {a : Action} {e : Effect}

/-- Every section keeps a leader out of elections. -/
theorem settled_perform (hp : Settled p) (h : perform p a = some e) : Settled e.process := by
  intro hlead
  rcases perform_cases h with hq | ⟨_, _, rfl⟩ |
    ⟨_, _, _, _, _, _, _, _, hloop, _, rfl⟩ |
    ⟨peer, result, term, votes, received, waiting, resultCh, _, hloop, rfl⟩
  · have hwas : p.node.state = .leader := by
      rcases hq.role with ⟨hstate, _⟩ | ⟨hf, _⟩
      · exact hstate ▸ hlead
      · rw [hf] at hlead
        cases hlead
    obtain ⟨hdue, hcampaign⟩ := hp hwas
    constructor
    · intro hel
      rcases hq.due hel with hdue' | hnot
      · exact hdue hdue'
      · exact hnot hlead
    · rcases hq.loop with hl | hl | hl | hl | hl
      · rw [hl]
        exact hcampaign
      all_goals
        rw [hl]
        rfl
  · cases hlead
  · have := (hp hlead).2
    rw [hloop] at this
    cases this
  · have hnot : p.node.state ≠ .leader := by
      intro hwas
      have := (hp hwas).2
      rw [hloop] at this
      cases this
    simp only [collectResult] at hlead ⊢
    rcases countVote_cases p.node votes result with ⟨_, _, hf⟩ | ⟨hreply, _⟩ | ⟨hnode, _⟩
    · rw [hf] at hlead
      cases hlead
    · rw [hreply]
      exact ⟨by simp [afterVerdict], rfl⟩
    · rw [hnode] at hlead
      exact absurd hlead hnot

/-- **A leader stays leader exactly while no later term reaches it.** -/
theorem leader_perform (hp : Settled p) (hlead : p.node.state = .leader)
    (h : perform p a = some e) :
    e.process.node.state = .leader ↔ ∀ t ∈ messageTerm a, t ≤ p.node.ps.currentTerm := by
  obtain ⟨hdue, hcampaign⟩ := hp hlead
  cases a with
  | handleRequestVote req =>
      cases h
      simp only [messageTerm, Option.mem_some_iff, forall_eq']
      grind [handleRequestVote, adoptTerm, becomeFollower]
  | handleAppendEntries req now =>
      cases h
      simp only [messageTerm, Option.mem_some_iff, forall_eq']
      grind [handleAppendEntries, adoptTerm, becomeFollower]
  | heartbeatReturn peer term resp =>
      simp only [perform] at h
      split at h
      · cases resp with
        | none =>
            cases h
            simp [messageTerm, hlead]
        | some resp =>
            cases h
            simp only [messageTerm, Option.mem_some_iff, forall_eq']
            grind [heartbeatReply, becomeFollower]
      · cases h
  | startElection => simp [perform, hdue] at h
  | voteReturn peer result =>
      simp only [perform] at h
      split at h
      · rename_i hloop
        rw [hloop] at hcampaign
        cases hcampaign
      · cases h
  | collect =>
      simp only [perform] at h
      split at h
      · rename_i hloop
        rw [hloop] at hcampaign
        cases hcampaign
      · cases h
  | receiveLeader =>
      obtain ⟨_, _, _, hprocess, _⟩ := perform_receiveLeader h
      simp [hprocess, hlead, messageTerm]
  | _ =>
      have hnode : e.process.node = p.node := by
        simp only [perform] at h
        grind [sendHeartbeats]
      simp [hnode, hlead, messageTerm]

end Steps

/-! ## The announcement of a leader -/

/-- The coordinator's flag is up, or on its way up. -/
def Announced (s : CacheNode) : Prop :=
  s.coordinator.isLeader = true ∨ s.pending ≠ none ∨ s.process.node.leaderCh ≠ []

/-- What holds in every run. -/
structure Wired (nodeID : String) (s : CacheNode) : Prop where
  identity : s.process.node.id = nodeID
  settled : Settled s.process
  /-- Whatever is announced is the node itself. -/
  queued : ∀ l ∈ s.process.node.leaderCh, l = nodeID
  held : ∀ l ∈ s.pending, l = nodeID
  /-- A leader has been announced. -/
  announced : s.process.node.state = .leader → Announced s

variable {nodeID : String} {s s' : CacheNode} {ev : NodeEvent}

/-- What holds in every run holds of a node that has just started. -/
theorem wired_start (nodeID : String) (grpcPort : Int) (peers : List PeerConfig)
    (file : Option PersistentState) :
    Wired nodeID (startCacheNode nodeID grpcPort peers file) where
  identity := rfl
  settled := fun h => by cases h
  queued := fun l hl => by cases hl
  held := fun l hl => by cases hl
  announced := fun h => by cases h

/-- **What a step can do**: a section of the Raft node, one half of the
goroutine's loop, or a change of the health map. -/
theorem nodeStep_cases (h : nodeStep s ev = some s') :
    (∃ a e, ev = .raft a ∧ a ≠ .receiveLeader ∧ perform s.process a = some e ∧
      s' = { s with process := e.process }) ∨
    (∃ l rest, ev = .receiveLeader ∧ s.pending = none ∧
      s.process.node.leaderCh = l :: rest ∧
      s' = { s with
        process := { s.process with node := { s.process.node with leaderCh := rest } }
        pending := some l }) ∨
    (∃ l, ev = .setLeader ∧ s.pending = some l ∧
      s' = { s with
        coordinator := s.coordinator.setLeader (l == s.process.node.id)
        pending := none }) ∨
    (∃ n available, ev = .health n available ∧
      s' = { s with coordinator := s.coordinator.updateNodeHealth n available }) := by
  cases ev with
  | raft a =>
      simp only [nodeStep] at h
      split at h
      · cases h
      · rename_i ha
        obtain ⟨e, he, rfl⟩ := Option.map_eq_some_iff.mp h
        exact Or.inl ⟨a, e, rfl, ha, he, rfl⟩
  | receiveLeader =>
      simp only [nodeStep] at h
      split at h
      · rename_i hidle
        obtain ⟨e, he, rfl⟩ := Option.map_eq_some_iff.mp h
        obtain ⟨l, rest, hch, hprocess, hout⟩ := perform_receiveLeader he
        exact Or.inr (Or.inl ⟨l, rest, rfl, hidle, hch, by simp [hprocess, hout, noticeOf]⟩)
      · cases h
  | setLeader =>
      obtain ⟨l, hl, rfl⟩ := Option.map_eq_some_iff.mp h
      exact Or.inr (Or.inr (Or.inl ⟨l, rfl, hl, rfl⟩))
  | health n available =>
      cases h
      exact Or.inr (Or.inr (Or.inr ⟨n, available, rfl, rfl⟩))

/-- **An announcement is never taken back.** -/
theorem announced_step (hs : Wired nodeID s) (hann : Announced s)
    (h : nodeStep s ev = some s') : Announced s' := by
  rcases nodeStep_cases h with ⟨a, e, _, ha, he, rfl⟩ | ⟨l, rest, _, _, _, rfl⟩ |
    ⟨l, _, hl, rfl⟩ | ⟨n, available, _, rfl⟩
  · rcases hann with hflag | hpending | hch
    · exact Or.inl hflag
    · exact Or.inr (Or.inl hpending)
    · refine Or.inr (Or.inr ?_)
      show e.process.node.leaderCh ≠ []
      rcases perform_channel he ha with hsame | hnode
      · rw [hsame]
        exact hch
      · rw [hnode]
        grind [becomeLeader]
  · exact Or.inr (Or.inl (by simp))
  · refine Or.inl ?_
    rw [hs.held l hl, hs.identity]
    simp [Coordinator.setLeader]
  · rcases hann with hflag | hpending | hch
    · exact Or.inl (by simpa using hflag)
    · exact Or.inr (Or.inl hpending)
    · exact Or.inr (Or.inr hch)

/-- A node that becomes leader has announced it when the section ends. -/
theorem announced_of_elected (hs : Wired nodeID s) (h : nodeStep s ev = some s')
    (hlead : s'.process.node.state = .leader) : Announced s' := by
  by_cases hwas : s.process.node.state = .leader
  · exact announced_step hs (hs.announced hwas) h
  · rcases nodeStep_cases h with ⟨a, e, _, ha, he, rfl⟩ | ⟨l, rest, _, _, _, rfl⟩ |
      ⟨l, _, hl, rfl⟩ | ⟨n, available, _, rfl⟩
    · rcases perform_leader he hlead with ⟨hwas', _⟩ | helected
      · exact absurd hwas' hwas
      · obtain ⟨_, _, _, _, _, _, _, _, _, _, _, _, hnode⟩ := perform_elected he helected
        refine Or.inr (Or.inr ?_)
        show e.process.node.leaderCh ≠ []
        rw [hnode]
        grind [becomeLeader]
    all_goals exact absurd hlead hwas

/-- Every event keeps what holds in every run. -/
theorem wired_step (hs : Wired nodeID s) (h : nodeStep s ev = some s') : Wired nodeID s' := by
  have hann := announced_of_elected hs h
  rcases nodeStep_cases h with ⟨a, e, _, ha, he, rfl⟩ | ⟨l, rest, _, _, hch, rfl⟩ |
    ⟨l, _, hl, rfl⟩ | ⟨n, available, _, rfl⟩
  · have hid : e.process.node.id = nodeID := (perform_identity he).1.trans hs.identity
    refine ⟨hid, settled_perform hs.settled he, ?_, hs.held, hann⟩
    intro l hl
    rcases perform_channel he ha with hsame | hnode
    · exact hs.queued l (hsame ▸ hl)
    · rw [hnode] at hl
      have hmine := hs.queued l
      have hself := hs.identity
      grind [becomeLeader]
  · have hl : l = nodeID := hs.queued l (by simp [hch])
    refine ⟨hs.identity, hs.settled, ?_, ?_, hann⟩
    · intro m hm
      exact hs.queued m (by simp [hch, show m ∈ rest from hm])
    · intro m hm
      cases hm
      exact hl
  · refine ⟨hs.identity, hs.settled, hs.queued, ?_, hann⟩
    intro m hm
    cases hm
  · exact ⟨hs.identity, hs.settled, hs.queued, hs.held, hann⟩

/-! ## Runs without a deposed leader -/

/-- Only a leader is announced. -/
def Truthful (nodeID : String) (s : CacheNode) : Prop :=
  Wired nodeID s ∧ (Announced s → s.process.node.state = .leader)

/-- While a leader is not told of a later term, the flag tells the truth. -/
theorem truthful_step (hs : Truthful nodeID s) (hP : LeadsOn s ev)
    (h : nodeStep s ev = some s') : Truthful nodeID s' := by
  obtain ⟨hw, htrue⟩ := hs
  refine ⟨wired_step hw h, ?_⟩
  intro hann
  rcases nodeStep_cases h with ⟨a, e, rfl, ha, he, rfl⟩ | ⟨l, rest, _, _, hch, rfl⟩ |
    ⟨l, _, hl, rfl⟩ | ⟨n, available, _, rfl⟩
  · by_cases hlead : s.process.node.state = .leader
    · exact (leader_perform hw.settled hlead he).mpr (hP hlead)
    · -- Nothing was announced before, so this section ran `becomeLeader`.
      have hquiet : ¬ Announced s := fun hwas => hlead (htrue hwas)
      rcases perform_channel he ha with hsame | hnode
      · refine absurd ?_ hquiet
        rcases hann with hflag | hpending | hch
        · exact Or.inl hflag
        · exact Or.inr (Or.inl hpending)
        · exact Or.inr (Or.inr (hsame ▸ hch))
      · show e.process.node.state = .leader
        rw [hnode]
        rfl
  · exact htrue (Or.inr (Or.inr (by simp [hch])))
  · exact htrue (Or.inr (Or.inl (by simp [hl])))
  · refine htrue ?_
    rcases hann with hflag | hpending | hch
    · exact Or.inl (by simpa using hflag)
    · exact Or.inr (Or.inl hpending)
    · exact Or.inr (Or.inr hch)

/-- If the flag tells the truth, the role follows. -/
theorem roleFollows_of_truthful (hs : Truthful nodeID s) : RoleFollows s := by
  intro _ _
  refine ⟨fun hflag => hs.2 (Or.inl hflag), ?_⟩
  intro hnot key
  refine route_eq_noCoordinator.mpr (Or.inl ?_)
  by_contra hflag
  exact hnot (hs.2 (Or.inl (by simpa using hflag)))

/-! ## Runs with a deposed leader -/

/-- The steps of the goroutine that drains the channel. -/
def Drains (ev : NodeEvent) : Prop := ev = .receiveLeader ∨ ev = .setLeader

/-- The goroutine handles the value it holds: the flag goes up. -/
theorem setLeader_up (hs : Wired nodeID s) {l : String} (hl : s.pending = some l) :
    ∃ u, nodeStep s .setLeader = some u ∧ u.process = s.process ∧ u.pending = none ∧
      u.coordinator.isLeader = true := by
  refine ⟨{ s with
    coordinator := s.coordinator.setLeader (l == s.process.node.id), pending := none },
    ?_, rfl, rfl, ?_⟩
  · simp [nodeStep, hl]
  · rw [hs.held l hl, hs.identity]
    simp [Coordinator.setLeader]

/-- One round of the goroutine's loop. -/
theorem drain_round (hs : Wired nodeID s) (hidle : s.pending = none) {l : String}
    {rest : List String} (hch : s.process.node.leaderCh = l :: rest) :
    ∃ u, run nodeStep s [.receiveLeader, .setLeader] = some u ∧ Wired nodeID u ∧
      u.process.node.leaderCh = rest ∧ u.process.node.state = s.process.node.state ∧
      u.pending = none ∧ u.coordinator.isLeader = true := by
  obtain ⟨t, ht, hpending, hrest, hstate⟩ : ∃ t, nodeStep s .receiveLeader = some t ∧
      t.pending = some l ∧ t.process.node.leaderCh = rest ∧
      t.process.node.state = s.process.node.state := by
    refine ⟨{ s with
      process := { s.process with node := { s.process.node with leaderCh := rest } }
      pending := some l }, ?_, rfl, rfl, rfl⟩
    simp [nodeStep, hidle, perform, hch, noticeOf]
  have hwt := wired_step hs ht
  obtain ⟨u, hu, hprocess, hdone, hflag⟩ := setLeader_up hwt hpending
  refine ⟨u, by simp [ht, hu], wired_step hwt hu, ?_, ?_, hdone, hflag⟩
  · rw [hprocess]
    exact hrest
  · rw [hprocess]
    exact hstate

/-- With the flag up, the idle goroutine drains the channel and keeps it up. -/
theorem drain_idle (hs : Wired nodeID s) (hidle : s.pending = none)
    (hflag : s.coordinator.isLeader = true) :
    ∃ ds s', (∀ d ∈ ds, Drains d) ∧ run nodeStep s ds = some s' ∧
      s'.process.node.leaderCh = [] ∧ s'.pending = none ∧ s'.coordinator.isLeader = true ∧
      s'.process.node.state = s.process.node.state := by
  induction hch : s.process.node.leaderCh generalizing s with
  | nil => exact ⟨[], s, by simp, rfl, hch, hidle, hflag, rfl⟩
  | cons l rest ih =>
      obtain ⟨u, hu, hwu, hrest, hstate, hidle', hflag'⟩ := drain_round hs hidle hch
      obtain ⟨ds, s', hdrains, hds, hempty, hdone, hup, hstate'⟩ := ih hwu hidle' hflag' hrest
      refine ⟨[.receiveLeader, .setLeader] ++ ds, s', ?_, ?_, hempty, hdone, hup,
        hstate'.trans hstate⟩
      · simpa [Drains] using hdrains
      · rw [run_append, hu]
        exact hds

/-- The goroutine drains an announcement into the flag. -/
theorem drain (hs : Wired nodeID s) (hann : Announced s) :
    ∃ ds s', (∀ d ∈ ds, Drains d) ∧ run nodeStep s ds = some s' ∧
      s'.process.node.leaderCh = [] ∧ s'.pending = none ∧ s'.coordinator.isLeader = true ∧
      s'.process.node.state = s.process.node.state := by
  -- First bring the goroutine to idle with the flag up.
  obtain ⟨ds, u, hdrains, hu, hwu, hidle, hflag, hstate⟩ : ∃ ds u, (∀ d ∈ ds, Drains d) ∧
      run nodeStep s ds = some u ∧ Wired nodeID u ∧ u.pending = none ∧
      u.coordinator.isLeader = true ∧ u.process.node.state = s.process.node.state := by
    cases hpending : s.pending with
    | some l =>
        obtain ⟨u, hu, hprocess, hidle, hflag⟩ := setLeader_up hs hpending
        exact ⟨[.setLeader], u, by simp [Drains], by simp [hu], wired_step hs hu, hidle, hflag,
          by rw [hprocess]⟩
    | none =>
        cases hch : s.process.node.leaderCh with
        | nil =>
            have hflag : s.coordinator.isLeader = true := by
              rcases hann with hflag | hheld | hqueue
              · exact hflag
              · exact absurd hpending hheld
              · exact absurd hch hqueue
            exact ⟨[], s, by simp, rfl, hs, hpending, hflag, rfl⟩
        | cons l rest =>
            obtain ⟨u, hu, hwu, _, hstate, hidle, hflag⟩ := drain_round hs hpending hch
            exact ⟨_, u, by simp [Drains], hu, hwu, hidle, hflag, hstate⟩
  obtain ⟨ds', s', hdrains', hds', hempty, hdone, hup, hstate'⟩ := drain_idle hwu hidle hflag
  refine ⟨ds ++ ds', s', ?_, ?_, hempty, hdone, hup, hstate'.trans hstate⟩
  · exact fun d hd => (List.mem_append.mp hd).elim (hdrains d) (hdrains' d)
  · rw [run_append, hu]
    exact hds'

/-- **A deposed leader keeps the coordinator role.** -/
theorem deposed_still_coordinator (hs : Wired nodeID s) (hP : ¬ LeadsOn s ev)
    (h : nodeStep s ev = some s') :
    ∃ ds s'', (∀ d ∈ ds, Drains d) ∧ run nodeStep s' ds = some s'' ∧ ¬ RoleFollows s'' := by
  have hann : s.process.node.state = .leader ∧ s'.process.node.state ≠ .leader := by
    rcases nodeStep_cases h with ⟨a, e, rfl, _, he, rfl⟩ | ⟨_, _, rfl, _⟩ | ⟨_, rfl, _⟩ |
      ⟨_, _, rfl, _⟩
    · have hP' := hP
      simp only [LeadsOn, not_forall] at hP'
      obtain ⟨hlead, hterm⟩ := hP'
      refine ⟨hlead, fun hstill => hP ?_⟩
      intro _
      exact (leader_perform hs.settled hlead he).mp hstill
    all_goals exact absurd trivial hP
  obtain ⟨hlead, hdeposed⟩ := hann
  obtain ⟨ds, s'', hdrains, hds, hempty, hidle, hflag, hstate⟩ :=
    drain (wired_step hs h) (announced_step hs (hs.announced hlead) h)
  refine ⟨ds, s'', hdrains, hds, ?_⟩
  intro hfollows
  exact hdeposed (hstate ▸ (hfollows hempty hidle).1 hflag)

/-- **Coordinator role and Raft leadership.**  In a run in which no leader is told
of a later term, the coordinator agrees with the Raft state in every state.  In a
run in which one is, the first such event brings the node into a state from which
the draining goroutine alone comes to one where it does not. -/
theorem role_follows (nodeID : String) (grpcPort : Int) (peers : List PeerConfig)
    (file : Option PersistentState) (evs : List NodeEvent) (s : CacheNode)
    (h : run nodeStep (startCacheNode nodeID grpcPort peers file) evs = some s) :
    (Along nodeStep LeadsOn (startCacheNode nodeID grpcPort peers file) evs →
      Throughout nodeStep RoleFollows (startCacheNode nodeID grpcPort peers file) evs) ∧
    (¬ Along nodeStep LeadsOn (startCacheNode nodeID grpcPort peers file) evs →
      ∃ begin ev rest m m' ds s', evs = begin ++ ev :: rest ∧
        Along nodeStep LeadsOn (startCacheNode nodeID grpcPort peers file) begin ∧
        run nodeStep (startCacheNode nodeID grpcPort peers file) begin = some m ∧
        ¬ LeadsOn m ev ∧ nodeStep m ev = some m' ∧ (∀ d ∈ ds, Drains d) ∧
        run nodeStep m' ds = some s' ∧ ¬ RoleFollows s') := by
  have hstart := wired_start nodeID grpcPort peers file
  constructor
  · intro halong
    have hinit : Truthful nodeID (startCacheNode nodeID grpcPort peers file) := by
      refine ⟨hstart, ?_⟩
      intro hcase
      rcases hcase with hflag | hpending | hch
      · cases hflag
      · exact absurd rfl hpending
      · exact absurd rfl hch
    exact (throughout_of_along (fun _ _ _ hs hP => truthful_step hs hP) hinit halong).mono
      fun _ => roleFollows_of_truthful
  · intro hbreak
    obtain ⟨pre, ev, post, m, m', hsplit, hpre, halong, hP, hm⟩ := exists_first_break h hbreak
    have hw : Wired nodeID m := run_invariant (fun _ _ _ => wired_step) hstart hpre
    obtain ⟨ds, s', hdrains, hds, hnot⟩ := deposed_still_coordinator hw hP hm
    exact ⟨pre, ev, post, m, m', ds, s', hsplit, halong, hpre, hP, hm, hdrains, hds, hnot⟩

/-- The ring that `main` builds answers every key. -/
theorem mainRing_get (nodeID : String) (grpcPort : Int) (peers : List PeerConfig)
    (key : String) : (mainRing nodeID grpcPort peers).get key ≠ none := by
  rw [← Option.isSome_iff_ne_none, mainRing]
  have hself : ∀ ring : Ring, ring.virtualNodes = defaultVirtualNodes →
      (ring.get key).isSome →
      ((peers.foldl (fun ring p => ring.add p.id p.addr) ring).get key).isSome := by
    induction peers with
    | nil => exact fun _ _ hget => hget
    | cons p peers ih =>
        intro ring hvirtual _
        apply ih
        · rw [virtualNodes_add, hvirtual]
        · exact get_add_isSome _ _ _ (by rw [hvirtual]; decide) key
  apply hself
  · rw [virtualNodes_add]
    rfl
  · exact get_add_isSome _ _ _ (by decide) key

/-- No step changes the ring. -/
theorem ring_step (h : nodeStep s ev = some s') : s'.coordinator.ring = s.coordinator.ring := by
  rcases nodeStep_cases h with ⟨_, _, _, _, _, rfl⟩ | ⟨_, _, _, _, _, rfl⟩ |
    ⟨_, _, _, rfl⟩ | ⟨n, available, _, rfl⟩
  · rfl
  · rfl
  · rfl
  · exact ring_updateNodeHealth _ n available

/-- With its flag up, the coordinator of a cache node accepts every request. -/
theorem route_of_flag {grpcPort : Int} {peers : List PeerConfig}
    {file : Option PersistentState} {evs : List NodeEvent}
    (h : run nodeStep (startCacheNode nodeID grpcPort peers file) evs = some s)
    (hflag : s.coordinator.isLeader = true) (key : String) :
    s.coordinator.route key ≠ .error .noCoordinator := by
  have hring : s.coordinator.ring = mainRing nodeID grpcPort peers :=
    run_invariant (I := fun t => t.coordinator.ring = mainRing nodeID grpcPort peers)
      (fun _ _ _ ht hstep => (ring_step hstep).trans ht) rfl h
  rw [ne_eq, route_eq_noCoordinator, hflag, hring]
  intro hcase
  rcases hcase with hdown | hnone
  · cases hdown
  · exact mainRing_get nodeID grpcPort peers key hnone

/-- The node `node1` wins term one with the vote of its peer, and its coordinator
is told. -/
def winsAndTells : List NodeEvent :=
  [.raft (.electionTimeout second), .raft .startElection,
   .raft (.voteReturn ⟨"node2", "node2:9002"⟩ ⟨true, 1⟩), .raft .collect,
   .receiveLeader, .setLeader]

/-- A node wins and is told so: the flag is up. -/
theorem role_follows_winsAndTells :
    ∃ s, run nodeStep (startCacheNode "node1" 9001 [⟨"node2", "node2:9002"⟩] none)
        winsAndTells = some s ∧
      s.coordinator.isLeader = true ∧ RoleFollows s := by
  obtain ⟨s, hrun, hleads⟩ : ∃ s,
      run nodeStep (startCacheNode "node1" 9001 [⟨"node2", "node2:9002"⟩] none)
        winsAndTells = some s ∧ s.coordinator.isLeader = true :=
    exists_run (by decide) (by decide)
  refine ⟨s, hrun, hleads, ?_⟩
  exact ((role_follows _ _ _ _ _ s hrun).1 (by decide)).last hrun

/-- A vote request of term two then turns the node into a follower; the channel
stays empty, and the coordinator goes on routing. -/
theorem deposed_still_routes :
    ∃ s, run nodeStep (startCacheNode "node1" 9001 [⟨"node2", "node2:9002"⟩] none)
        (winsAndTells ++ [.raft (.handleRequestVote ⟨2, "node2"⟩)]) = some s ∧
      s.process.node.state = .follower ∧ s.process.node.leaderCh = [] ∧ s.pending = none ∧
      s.coordinator.isLeader = true ∧
      s.coordinator.route "product:1" ≠ .error .noCoordinator ∧ ¬ RoleFollows s := by
  obtain ⟨s, hrun, hstate, hempty, hnone, hleads⟩ : ∃ s,
      run nodeStep (startCacheNode "node1" 9001 [⟨"node2", "node2:9002"⟩] none)
        (winsAndTells ++ [.raft (.handleRequestVote ⟨2, "node2"⟩)]) = some s ∧
      s.process.node.state = .follower ∧ s.process.node.leaderCh = [] ∧ s.pending = none ∧
      s.coordinator.isLeader = true :=
    exists_run (by decide) (by decide)
  refine ⟨s, hrun, hstate, hempty, hnone, hleads, route_of_flag hrun hleads _, ?_⟩
  intro hfollows
  have hleader := (hfollows hempty hnone).1 hleads
  rw [hstate] at hleader
  exact absurd hleader (by decide)

end Cluster
