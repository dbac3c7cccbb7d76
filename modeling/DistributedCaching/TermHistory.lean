import DistributedCaching.RaftCluster
import DistributedCaching.VotePersistence
import Mathlib.Data.List.Chain

/-!
# The history of the term

The term of a node is written by its handlers, by the replies to its own calls and by its
elections, under guards that differ; a started process reads it back from the state file.
Here these sections come in any order and with any terms, every write succeeds, and the
process is started again between two sections or inside one.  `memoryTerms` and `diskTerms`
are all the terms that the node and its file hold one after the other.

Memory and file agree after every section.  The terms never decrease as long as no election
starts in the largest `int64` term; an election there goes back to the smallest
(`terms_never_decrease_iff`).  A Raft process whose writes succeed goes through such a
sequence (`replica_follows`).
-/

namespace Raft

open Go TransitionRuns

/-- A section of the node, as a function of the node and what reaches it. -/
inductive NodeCall
  | handleRequestVote (req : RequestVoteRequest)
  | handleAppendEntries (req : AppendEntriesRequest) (now : Time)
  /-- The first section of `startElection`. -/
  | startElection
  /-- An iteration of the vote-collecting loop, with the votes counted before it. -/
  | voteReply (votes : Nat) (result : VoteResult)
  | heartbeatReply (resp : AppendEntriesResponse)
  /-- A section that reads: of the ticker, of the timer, of `sendHeartbeats`. -/
  | observe
  /-- A receive from `LeaderCh()`. -/
  | receiveLeader
  deriving DecidableEq, Repr

/-- A section without what it returns. -/
def Locked.done {α : Type} (r : Locked α) : Locked Unit :=
  { node := r.node, saves := r.saves, reply := () }

def NodeCall.enter (n : RaftNode) : NodeCall → Locked Unit
  | .handleRequestVote req => (Raft.handleRequestVote n req).done
  | .handleAppendEntries req now => (Raft.handleAppendEntries n req now).done
  | .startElection => becomeCandidate n
  | .voteReply votes result => (countVote n votes result).done
  | .heartbeatReply resp => Raft.heartbeatReply n resp
  | .observe => { node := n, reply := () }
  | .receiveLeader => { node := { n with leaderCh := n.leaderCh.tail }, reply := () }

/-- A node and its state file. -/
structure Durable where
  node : RaftNode
  file : Option PersistentState

def Durable.start (id : String) (peers : List PeerConfig) (file : Option PersistentState) :
    Durable :=
  { node := newRaftNode id peers file, file := file }

inductive TermEvent
  | enter (c : NodeCall)
  /-- The process is started again. -/
  | restart
  /-- It stops inside a section, after `k` of its writes, and is started again. -/
  | restartInside (c : NodeCall) (k : Nat)
  deriving DecidableEq, Repr

/-- The records that reach the state file. -/
def Durable.writes (s : Durable) : TermEvent → List PersistentState
  | .enter c => (c.enter s.node).saves
  | .restart => []
  | .restartInside c k => (c.enter s.node).saves.take k

def Durable.step (id : String) (peers : List PeerConfig) (s : Durable) (ev : TermEvent) :
    Durable :=
  let file := saveAll s.file (s.writes ev)
  match ev with
  | .enter c => { node := (c.enter s.node).node, file := file }
  | _ => .start id peers file

def durableStep (id : String) (peers : List PeerConfig) (s : Durable) (ev : TermEvent) :
    Option Durable :=
  some (s.step id peers ev)

/-- The term in memory. -/
def Durable.term (s : Durable) : Int := s.node.ps.currentTerm

/-- The term on disk, which a process started now would read. -/
def Durable.diskTerm (s : Durable) : Int := (loadState s.file).currentTerm

/-- The terms in memory, at the end of every section. -/
def memoryTerms (id : String) (peers : List PeerConfig) : Durable → List TermEvent → List Int
  | s, [] => [s.term]
  | s, ev :: evs => s.term :: memoryTerms id peers (s.step id peers ev) evs

/-- The terms on disk, with every write. -/
def diskTerms (id : String) (peers : List PeerConfig) : Durable → List TermEvent → List Int
  | s, [] => [s.diskTerm]
  | s, ev :: evs => (s.diskTerm :: (s.writes ev).map PersistentState.currentTerm) ++
      diskTerms id peers (s.step id peers ev) evs

/-- Memory and disk hold the same record. -/
def Durable.Saved (s : Durable) : Prop := loadState s.file = s.node.ps

/-- An election starts in the largest term, and its record is written. -/
def Wraps (s : Durable) : TermEvent → Prop
  | .enter .startElection => s.term = 2 ^ 63 - 1
  | .restartInside .startElection k => 0 < k ∧ s.term = 2 ^ 63 - 1
  | _ => False

/-! ## Histories in order -/

/-- Two histories, where the second starts with what the first ends with. -/
theorem pairwise_append_iff {l l' : List Int} {x : Int} (hlast : l.getLast? = some x)
    (hhead : l'.head? = some x) :
    (l ++ l').Pairwise (· ≤ ·) ↔ l.Pairwise (· ≤ ·) ∧ l'.Pairwise (· ≤ ·) := by
  have hmeet : ∀ a ∈ l.getLast?, ∀ b ∈ l'.head?, a ≤ b := by
    intro a ha b hb
    rw [hlast] at ha
    rw [hhead] at hb
    cases ha
    cases hb
    exact le_rfl
  simp only [← List.isChain_iff_pairwise]
  rw [List.isChain_append]
  exact and_congr_right fun _ => and_iff_left hmeet

/-- A record that advances does not go back to an earlier term. -/
theorem SavesAdvance.terms {ps ps' : PersistentState} {saves : List PersistentState}
    (h : SavesAdvance ps saves ps') :
    (ps.currentTerm :: saves.map PersistentState.currentTerm).Pairwise (· ≤ ·) := by
  rw [← List.isChain_iff_pairwise]
  induction saves generalizing ps with
  | nil => exact List.isChain_singleton _
  | cons r rs ih => exact List.isChain_cons_cons.mpr ⟨h.1.term_le, ih h.2⟩

/-- The increment is no smaller, except at the largest term. -/
theorem le_incInt64_iff (x : Int) : x ≤ incInt64 x ↔ x ≠ 2 ^ 63 - 1 := by
  unfold incInt64
  split <;> omega

/-! ## One event -/

section Step

variable {id : String} {peers : List PeerConfig} {s : Durable}

/-- What a section other than an election does to the record. -/
theorem enter_advance (n : RaftNode) {c : NodeCall} (hc : c ≠ .startElection) :
    SavesAdvance n.ps (c.enter n).saves (c.enter n).node.ps := by
  cases c with
  | handleRequestVote req => exact handleRequestVote_advance n req
  | handleAppendEntries req now => exact handleAppendEntries_advance n req now
  | startElection => exact absurd rfl hc
  | voteReply votes result => exact countVote_advance n votes result
  | heartbeatReply resp => exact heartbeatReply_advance n resp
  | observe => rfl
  | receiveLeader => rfl

theorem Durable.Saved.term_eq (h : s.Saved) : s.diskTerm = s.term :=
  congrArg PersistentState.currentTerm h

/-- **Memory and disk agree after every event.** -/
theorem saved_step (h : s.Saved) (ev : TermEvent) : (s.step id peers ev).Saved := by
  cases ev with
  | restart => rfl
  | restartInside c k => rfl
  | enter c =>
      by_cases hc : c = .startElection
      · subst hc
        rfl
      · exact saveAll_load (enter_advance s.node hc) h

/-- The last record of a series of writes is what the file holds. -/
theorem getLast?_saveAll (file : Option PersistentState) (saves : List PersistentState) :
    ((loadState file).currentTerm :: saves.map PersistentState.currentTerm).getLast? =
      some (loadState (saveAll file saves)).currentTerm := by
  induction saves generalizing file with
  | nil => rfl
  | cons r rs ih =>
      rw [List.map_cons, List.getLast?_cons_cons]
      exact ih (some r)

/-- The history of the disk starts with the term of the file. -/
theorem head?_diskTerms (s : Durable) (evs : List TermEvent) :
    (diskTerms id peers s evs).head? = some s.diskTerm := by
  cases evs <;> rfl

/-- The file of the next state. -/
theorem diskTerm_step (s : Durable) (ev : TermEvent) :
    (s.step id peers ev).diskTerm = (loadState (saveAll s.file (s.writes ev))).currentTerm := by
  cases ev <;> rfl

/-- Only an election wraps. -/
theorem not_wraps {c : NodeCall} (hc : c ≠ .startElection) :
    ¬ Wraps s (.enter c) ∧ ∀ k, ¬ Wraps s (.restartInside c k) := by
  cases c with
  | startElection => exact absurd rfl hc
  | _ => exact ⟨not_false, fun _ => not_false⟩

/-- The term that an election writes. -/
theorem election_sorted_iff (s : Durable) :
    [s.term, incInt64 s.term].Pairwise (· ≤ ·) ↔ ¬ s.term = 2 ^ 63 - 1 := by
  rw [List.pairwise_pair]
  exact le_incInt64_iff _

/-- **The terms that an event writes** are in order exactly if it does not wrap. -/
theorem writes_sorted_iff (h : s.Saved) (ev : TermEvent) :
    (s.diskTerm :: (s.writes ev).map PersistentState.currentTerm).Pairwise (· ≤ ·) ↔
      ¬ Wraps s ev := by
  rw [h.term_eq]
  cases ev with
  | restart => exact iff_of_true (List.pairwise_singleton _ _) not_false
  | enter c =>
      by_cases hc : c = .startElection
      · subst hc
        exact election_sorted_iff s
      · exact iff_of_true (enter_advance s.node hc).terms (not_wraps hc).1
  | restartInside c k =>
      by_cases hc : c = .startElection
      · subst hc
        -- The election writes one record, which is on disk or is not.
        cases k with
        | zero =>
            refine iff_of_true (List.pairwise_singleton _ _) ?_
            intro hwraps
            exact Nat.lt_irrefl 0 hwraps.1
        | succ k =>
            have hwrites : s.writes (.restartInside .startElection (k + 1)) =
                s.writes (.enter .startElection) := List.take_of_length_le (Nat.succ_pos k)
            rw [hwrites]
            refine (election_sorted_iff s).trans (not_congr ?_)
            exact (and_iff_right (Nat.succ_pos k)).symm
      · refine iff_of_true ?_ ((not_wraps hc).2 k)
        refine (enter_advance s.node hc).terms.sublist (List.Sublist.cons_cons _ ?_)
        exact (List.take_sublist k _).map _

end Step

/-! ## Whole histories -/

section Run

variable {id : String} {peers : List PeerConfig} {s : Durable}

/-- A state that is saved stays saved, at every step. -/
theorem saved_throughout (h : s.Saved) (evs : List TermEvent) :
    Throughout (durableStep id peers) Durable.Saved s evs := by
  induction evs generalizing s with
  | nil => exact h
  | cons ev evs ih =>
      refine ⟨h, ?_⟩
      intro s' hs'
      cases hs'
      exact ih (saved_step h ev)

/-- The terms in memory are among those on disk. -/
theorem memoryTerms_sublist (h : s.Saved) (evs : List TermEvent) :
    (memoryTerms id peers s evs).Sublist (diskTerms id peers s evs) := by
  induction evs generalizing s with
  | nil => rw [memoryTerms, diskTerms, h.term_eq]
  | cons ev evs ih =>
      rw [memoryTerms, diskTerms, h.term_eq, List.cons_append]
      refine List.Sublist.cons_cons _ ?_
      exact (ih (saved_step h ev)).trans (List.sublist_append_right _ _)

/-- **The terms on disk** are in order exactly if no event wraps. -/
theorem diskTerms_sorted_iff (h : s.Saved) (evs : List TermEvent) :
    (diskTerms id peers s evs).Pairwise (· ≤ ·) ↔
      Along (durableStep id peers) (fun s ev => ¬ Wraps s ev) s evs := by
  induction evs generalizing s with
  | nil => exact iff_of_true (List.pairwise_singleton _ _) trivial
  | cons ev evs ih =>
      have hlast : (s.diskTerm :: (s.writes ev).map PersistentState.currentTerm).getLast? =
          some (loadState (saveAll s.file (s.writes ev))).currentTerm :=
        getLast?_saveAll s.file (s.writes ev)
      have hhead : (diskTerms id peers (s.step id peers ev) evs).head? =
          some (loadState (saveAll s.file (s.writes ev))).currentTerm := by
        rw [head?_diskTerms, diskTerm_step]
      have hsaved : (s.step id peers ev).Saved := saved_step h ev
      rw [diskTerms, pairwise_append_iff hlast hhead, ih hsaved]
      refine and_congr (writes_sorted_iff h ev) ?_
      constructor
      · intro halong s' hs'
        cases hs'
        exact halong
      · intro halong
        exact halong _ rfl

end Run

/-- **Terms never go backwards**, in memory and on disk, exactly if no election starts in
the largest term; and after every section the file holds what the node holds. -/
theorem terms_never_decrease_iff (id : String) (peers : List PeerConfig)
    (file : Option PersistentState) (evs : List TermEvent) :
    let s := Durable.start id peers file
    Throughout (durableStep id peers) (fun s => loadState s.file = s.node.ps) s evs ∧
    ((memoryTerms id peers s evs).Pairwise (· ≤ ·) ∧
      (diskTerms id peers s evs).Pairwise (· ≤ ·) ↔
      Along (durableStep id peers) (fun s ev => ¬ Wraps s ev) s evs) := by
  intro s
  have hsaved : s.Saved := rfl
  refine ⟨saved_throughout hsaved evs, ?_⟩
  rw [← diskTerms_sorted_iff hsaved evs]
  constructor
  · intro hboth
    exact hboth.2
  · intro hdisk
    exact ⟨hdisk.sublist (memoryTerms_sublist hsaved evs), hdisk⟩

/-! ## The process -/

/-- The section that an action of the process runs. -/
def nodeCall (p : Process) : Action → NodeCall
  | .handleRequestVote req => .handleRequestVote req
  | .handleAppendEntries req now => .handleAppendEntries req now
  | .startElection => .startElection
  | .collect =>
      match p.loop with
      | .collecting _ votes _ _ ((_, result) :: _) => .voteReply votes result
      | _ => .observe
  | .heartbeatReturn _ _ (some resp) => .heartbeatReply resp
  | .receiveLeader => .receiveLeader
  | _ => .observe

/-- A section is what the node's method does, and saves what it saves. -/
theorem perform_nodeCall {p : Process} {a : Action} {e : Effect} (h : perform p a = some e) :
    e.process.node = ((nodeCall p a).enter p.node).node ∧
      e.saves = ((nodeCall p a).enter p.node).saves := by
  cases a with
  | handleRequestVote req =>
      cases h
      exact ⟨rfl, rfl⟩
  | handleAppendEntries req now =>
      cases h
      exact ⟨rfl, rfl⟩
  | collect =>
      simp only [perform] at h
      split at h <;> cases h
      rename_i hloop
      rw [nodeCall, hloop]
      exact ⟨rfl, rfl⟩
  | receiveLeader =>
      simp only [perform] at h
      split at h <;> cases h
      rename_i hch
      rw [nodeCall, NodeCall.enter, hch]
      exact ⟨rfl, rfl⟩
  | heartbeatReturn peer term resp =>
      simp only [perform] at h
      split at h
      · cases resp <;> cases h <;> exact ⟨rfl, rfl⟩
      · cases h
  | _ =>
      simp only [perform] at h
      grind [nodeCall, NodeCall.enter, startElection, sendHeartbeats]

/-- All writes of the event succeed. -/
def DiskEvent.Succeeds : DiskEvent → Prop
  | .act _ oks => oks = []
  | .crash => True
  | .crashDuring _ oks _ => oks = []

/-- The event of the node for an event of the process. -/
def termEvent (p : Process) : DiskEvent → TermEvent
  | .act a _ => .enter (nodeCall p a)
  | .crash => .restart
  | .crashDuring a _ k => .restartInside (nodeCall p a) k

def Replica.durable (s : Replica) : Durable := { node := s.process.node, file := s.file }

/-- Without failures every save is made. -/
theorem saveSome_nil (file : Option PersistentState) (saves : List PersistentState) :
    saveSome file saves [] = saveAll file saves := by
  induction saves generalizing file with
  | nil => rfl
  | cons r rs ih => exact ih (some r)

variable {id : String} {peers : List PeerConfig} {s s' : Replica}

/-- A step of the process is a step of its node. -/
theorem durable_diskStep {ev : DiskEvent} (h : diskStep id peers s ev = some s')
    (hok : ev.Succeeds) :
    durableStep id peers s.durable (termEvent s.process ev) = some s'.durable := by
  cases ev with
  | crash =>
      cases h
      rfl
  | act a oks =>
      cases hok
      simp only [diskStep] at h
      split at h
      · obtain ⟨e, he, rfl⟩ := Option.map_eq_some_iff.mp h
        obtain ⟨hnode, hsaves⟩ := perform_nodeCall he
        simp only [Replica.durable, saveSome_nil, hnode, hsaves]
        rfl
      · cases h
  | crashDuring a oks k =>
      cases hok
      obtain ⟨file, hfile, rfl⟩ := Option.map_eq_some_iff.mp h
      simp only [Replica.fileLeft] at hfile
      split at hfile
      · obtain ⟨e, he, rfl⟩ := Option.map_eq_some_iff.mp hfile
        obtain ⟨_, hsaves⟩ := perform_nodeCall he
        simp only [Replica.durable, saveSome_nil, hsaves]
        rfl
      · cases hfile

/-- **A process whose writes succeed** goes through a sequence of sections of its node. -/
theorem replica_follows {evs : List DiskEvent} (h : run (diskStep id peers) s evs = some s')
    (hok : ∀ ev ∈ evs, ev.Succeeds) :
    ∃ tevs, tevs.length = evs.length ∧
      run (durableStep id peers) s.durable tevs = some s'.durable := by
  induction evs generalizing s with
  | nil =>
      cases h
      exact ⟨[], rfl, rfl⟩
  | cons ev evs ih =>
      obtain ⟨m, hm, hrest⟩ := run_cons_some h
      obtain ⟨tevs, hlen, htevs⟩ := ih hrest fun x hx => hok x (List.mem_cons_of_mem _ hx)
      refine ⟨termEvent s.process ev :: tevs, congrArg Nat.succ hlen, ?_⟩
      rw [run_cons, durable_diskStep hm (hok ev List.mem_cons_self), Option.bind_some]
      exact htevs

/-- A heartbeat with the largest term, and then an election. -/
def largestTerm : List TermEvent :=
  [.enter (.handleAppendEntries ⟨2 ^ 63 - 1, "node2"⟩ 0), .enter .startElection]

/-- The same in a process, where the timer fires in between. -/
def largestTermProcess : List DiskEvent :=
  [.act (.handleAppendEntries ⟨2 ^ 63 - 1, "node2"⟩ 0) [], .act (.electionTimeout second) [],
   .act .startElection []]

/-- **The term goes back to the smallest one**, in memory and on disk. -/
theorem term_wraps :
    ¬ (memoryTerms "node1" [] (.start "node1" [] none) largestTerm).Pairwise (· ≤ ·) ∧
    ¬ (diskTerms "node1" [] (.start "node1" [] none) largestTerm).Pairwise (· ≤ ·) ∧
    ∃ s, run (diskStep "node1" []) (Replica.init "node1" [] none) largestTermProcess = some s ∧
      s.process.node.ps.currentTerm = -2 ^ 63 ∧ s.file = some ⟨-2 ^ 63, "node1"⟩ := by
  refine ⟨by decide, by decide, ?_⟩
  exact exists_run (by decide) (by decide)

end Raft
