import DistributedCaching.RaftCluster

/-!
# Election safety

At most one node executes `becomeLeader` in a term, in every run of a cluster.

The vote-collecting loop never compares the term it campaigned in with the
node's current term.  What makes it safe is that a node that is still a
candidate is still in the term it became a candidate in (`KeepsRole`): every
other section that moves the term also makes the node a follower.  So the
votes counted when `becomeLeader` runs were all cast in the current term.

The proof has two invariants.  `Registers` says that the state file, the
register in memory and the history of votes agree, whence a node votes once in
a term.  `Elections` says that every counted vote is in that history: it was
cast by a peer that is neither waiting for its call to return nor still on
`resultCh`, so no peer is counted twice.
-/

namespace Raft

open Go MajorityVotes TransitionRuns

variable {ν : Type}

/-! ## Registers, files and histories agree -/

/-- The file holds the node's register, the register covers the node's votes,
and no node has voted twice in a term. -/
structure Registers (c : Cluster ν) (w : World ν) : Prop where
  identity : ∀ i, (w.process i).node.id = c.id i ∧ (w.process i).node.peers = c.peers i
  saved : ∀ i, loadState (w.file i) = (w.process i).node.ps
  covers : ∀ i, Covers (w.votes i) (w.process i).node.ps.ballot
  oneVote : ∀ i, OneVotePerTerm (w.votes i)
  named : ∀ m ∈ w.voteRequests, m.2.candidateID ≠ ""

/-- At the start every node has what its file says. -/
theorem registers_init (c : Cluster ν) (files : ν → Option PersistentState) :
    Registers c (World.init c files) where
  identity := fun _ => ⟨rfl, rfl⟩
  saved := fun _ => rfl
  covers := fun _ => covers_nil _
  oneVote := fun _ _ hv => by cases hv
  named := fun _ hm => by cases hm

section Commit

variable {c : Cluster ν} {w : World ν} {i : ν} {a : Action} {e : Effect}

/-- The votes of an action are those its register holds at the end. -/
theorem Registers.newVotes (hr : Registers c w) (hallowed : Allowed c w i a)
    (he : perform (w.process i) a = some e) :
    ∀ v ∈ e.out.filterMap (Output.vote (c.id i)),
      v.1 = e.process.node.ps.ballot.term ∧ e.process.node.ps.ballot.vote = some v.2 := by
  intro v hv
  rw [← (hr.identity i).1] at hv
  obtain ⟨hps, hwho⟩ := perform_votes he hv
  have hname : v.2 ≠ "" := by
    rcases hwho with hself | ⟨req, rfl, hreq⟩
    · rw [hself, (hr.identity i).1]
      exact c.id_ne_empty i
    · rw [hreq]
      exact hr.named _ hallowed
  rw [hps]
  exact ⟨rfl, ballot_vote hname⟩

/-- **An allowed section saves in order**: each record advances the one before. -/
theorem Allowed.advance (hallowed : Allowed c w i a)
    (he : perform (w.process i) a = some e) :
    SavesAdvance (w.process i).node.ps e.saves e.process.node.ps := by
  refine perform_advance he ?_
  intro heq
  subst heq
  exact hallowed

variable [DecidableEq ν]

/-- An act keeps the registers in step with the nodes. -/
theorem registers_commit (hr : Registers c w) (hallowed : Allowed c w i a)
    (he : perform (w.process i) a = some e) : Registers c (w.commit c i e) := by
  have hadv := hallowed.advance he
  have hnew := hr.newVotes hallowed he
  have hcov : Covers (w.votes i) e.process.node.ps.ballot :=
    (hr.covers i).advance hadv.advances
  constructor
  · intro j
    by_cases hj : j = i
    · subst hj
      have hsame := perform_identity he
      simp only [World.commit, Function.update_self]
      rw [hsame.1, hsame.2]
      exact hr.identity j
    · simpa [World.commit, Function.update_of_ne hj] using hr.identity j
  · intro j
    by_cases hj : j = i
    · subst hj
      simp only [World.commit, Function.update_self]
      exact saveAll_load hadv (hr.saved j)
    · simpa [World.commit, Function.update_of_ne hj] using hr.saved j
  · intro j
    by_cases hj : j = i
    · subst hj
      simp only [World.commit, Function.update_self]
      exact hcov.cast hnew
    · simpa [World.commit, Function.update_of_ne hj] using hr.covers j
  · intro j
    by_cases hj : j = i
    · subst hj
      simp only [World.commit, Function.update_self]
      exact (hr.oneVote j).cast hcov hnew
    · simpa [World.commit, Function.update_of_ne hj] using hr.oneVote j
  · intro m hm
    rcases List.mem_append.mp hm with hm | hm
    · exact hr.named m hm
    · obtain ⟨o, ho, hom⟩ := List.mem_filterMap.mp hm
      cases o with
      | requestVote peer req =>
          cases hom
          rw [perform_requestVote he ho, (hr.identity i).1]
          exact c.id_ne_empty i
      | _ => cases hom

/-- A restart on a file that advances the register keeps the agreement. -/
theorem registers_restart (hr : Registers c w) {file : Option PersistentState}
    (hfile : Advances (w.process i).node.ps.ballot (loadState file).ballot) :
    Registers c (w.restart c i file) := by
  constructor
  · intro j
    by_cases hj : j = i
    · subst hj
      simp [World.restart, startProcess, newRaftNode]
    · simpa [World.restart, Function.update_of_ne hj] using hr.identity j
  · intro j
    by_cases hj : j = i
    · subst hj
      simp [World.restart, startProcess, newRaftNode]
    · simpa [World.restart, Function.update_of_ne hj] using hr.saved j
  · intro j
    by_cases hj : j = i
    · subst hj
      simpa [World.restart, startProcess, newRaftNode] using (hr.covers j).advance hfile
    · simpa [World.restart, Function.update_of_ne hj] using hr.covers j
  · exact hr.oneVote
  · exact hr.named

end Commit

/-- The file a process is started on again advances the register it had. -/
theorem Registers.restart_advances {c : Cluster ν} {w : World ν} {i : ν}
    {file : Option PersistentState} (hr : Registers c w)
    (hfile : file = w.file i ∨ ∃ a e k, Allowed c w i a ∧
      perform (w.process i) a = some e ∧ file = saveAll (w.file i) (e.saves.take k)) :
    Advances (w.process i).node.ps.ballot (loadState file).ballot := by
  rcases hfile with rfl | ⟨a, e, k, hallowed, he, rfl⟩
  · rw [hr.saved i]
    exact Advances.refl _
  · exact saveAll_take_advances (hallowed.advance he) (hr.saved i) k

/-- **One step keeps registers, files and histories in agreement.** -/
theorem registers_step [DecidableEq ν] {c : Cluster ν} {w w' : World ν} {ev : Event ν}
    (hr : Registers c w) (h : step c w ev = some w') : Registers c w' := by
  rcases step_cases h with ⟨i, a, e, _, hallowed, he, rfl⟩ | ⟨i, file, _, rfl, hfile⟩
  · exact registers_commit hr hallowed he
  · exact registers_restart hr (hr.restart_advances hfile)

/-! ## Counted votes are in the history -/

/-- What the vote-collecting loop of node `i` knows: it is still in the term it
campaigned in unless the node has stepped down; granted results on `resultCh`
are votes of that term; and the votes counted so far were cast by as many
different nodes, none of which is still to be counted. -/
structure Counting (c : Cluster ν) (votes : ν → List (Int × String)) (i : ν)
    (n : RaftNode) (term : Int) (count : Nat) (waiting : List PeerConfig)
    (resultCh : List (PeerConfig × VoteResult)) : Prop where
  notLeader : n.state ≠ .leader
  sameTerm : n.state = .candidate → n.ps.currentTerm = term
  nodup : (waiting ++ resultCh.map Prod.fst).Nodup
  backed : ∀ r ∈ resultCh, r.2.granted = true →
    ∃ j, r.1 = c.peer j ∧ (term, c.id i) ∈ votes j
  tally : ∃ voters : Finset ν, count ≤ voters.card ∧
    ∀ v ∈ voters, (term, c.id i) ∈ votes v ∧ c.peer v ∉ waiting ++ resultCh.map Prod.fst

section Counting

variable {c : Cluster ν} {votes votes' : ν → List (Int × String)} {i : ν} {n n' : RaftNode}
  {term : Int} {count : Nat} {waiting : List PeerConfig}
  {resultCh : List (PeerConfig × VoteResult)}

/-- Votes that are cast stay cast, so a count stays right. -/
theorem Counting.mono (h : Counting c votes i n term count waiting resultCh)
    (hgrow : ∀ j v, v ∈ votes j → v ∈ votes' j) :
    Counting c votes' i n term count waiting resultCh where
  notLeader := h.notLeader
  sameTerm := h.sameTerm
  nodup := h.nodup
  backed := by
    intro r hr hgranted
    obtain ⟨j, hj, hv⟩ := h.backed r hr hgranted
    exact ⟨j, hj, hgrow j _ hv⟩
  tally := by
    obtain ⟨voters, hcount, hvoters⟩ := h.tally
    exact ⟨voters, hcount, fun v hv => ⟨hgrow v _ (hvoters v hv).1, (hvoters v hv).2⟩⟩

/-- A section that keeps the role keeps what the loop knows. -/
theorem Counting.keepsRole (h : Counting c votes i n term count waiting resultCh)
    (hrole : KeepsRole n n') : Counting c votes i n' term count waiting resultCh := by
  refine ⟨?_, ?_, h.nodup, h.backed, h.tally⟩
  · rcases hrole with ⟨hs, _⟩ | ⟨hf, _⟩
    · rw [hs]
      exact h.notLeader
    · simp [hf]
  · rcases hrole with ⟨hs, ht⟩ | ⟨hf, _⟩
    · rw [hs, ht]
      exact h.sameTerm
    · simp [hf]

/-- The loop starts with the candidate's own vote. -/
theorem Counting.start (hn : n.state = .candidate) (hterm : n.ps.currentTerm = term)
    (hself : (term, c.id i) ∈ votes i) :
    Counting c votes i n term 1 (c.peers i) [] where
  notLeader := by simp [hn]
  sameTerm := fun _ => hterm
  nodup := by
    simpa [Cluster.peers] using (c.others_nodup i).map c.peer_injective
  backed := by simp
  tally := by
    refine ⟨{i}, by simp, ?_⟩
    intro v hv
    rw [Finset.mem_singleton.mp hv]
    refine ⟨hself, ?_⟩
    simp only [Cluster.peers, List.map_nil, List.append_nil]
    intro hmem
    obtain ⟨j, hj, heq⟩ := List.mem_map.mp hmem
    exact (c.mem_others i j).mp hj (c.peer_injective heq)

/-- A call returns: its result moves from the waiting goroutines to `resultCh`. -/
theorem Counting.receive {peer : PeerConfig} {result : VoteResult}
    (h : Counting c votes i n term count waiting resultCh) (hpeer : peer ∈ waiting)
    (hresult : result.granted = true → ∃ j, peer = c.peer j ∧ (term, c.id i) ∈ votes j) :
    Counting c votes i n term count (waiting.erase peer)
      (resultCh ++ [(peer, result)]) := by
  have hperm : (waiting.erase peer ++ (resultCh ++ [(peer, result)]).map Prod.fst).Perm
      (waiting ++ resultCh.map Prod.fst) := by
    rw [List.map_append, ← List.append_assoc]
    exact (List.perm_append_singleton peer _).trans
      ((List.perm_cons_erase hpeer).append_right (resultCh.map Prod.fst)).symm
  refine ⟨h.notLeader, h.sameTerm, hperm.nodup_iff.mpr h.nodup, ?_, ?_⟩
  · intro r hr hgranted
    rcases List.mem_append.mp hr with hr | hr
    · exact h.backed r hr hgranted
    · cases List.mem_singleton.mp hr
      exact hresult hgranted
  · obtain ⟨voters, hcount, hvoters⟩ := h.tally
    refine ⟨voters, hcount, fun v hv => ⟨(hvoters v hv).1, ?_⟩⟩
    rw [hperm.mem_iff]
    exact (hvoters v hv).2

variable [DecidableEq ν] in
/-- The next result is taken off `resultCh`; a granted one is one more voter. -/
theorem Counting.take {peer : PeerConfig} {result : VoteResult}
    (h : Counting c votes i n term count waiting ((peer, result) :: resultCh)) :
    Counting c votes i n term count waiting resultCh ∧
      (result.granted = true → Counting c votes i n term (count + 1) waiting resultCh) := by
  have hsub : ∀ q, q ∈ waiting ++ resultCh.map Prod.fst →
      q ∈ waiting ++ ((peer, result) :: resultCh).map Prod.fst := by
    intro q hq
    simp only [List.map_cons, List.mem_append, List.mem_cons] at hq ⊢
    exact hq.imp_right Or.inr
  have hperm : (waiting ++ ((peer, result) :: resultCh).map Prod.fst).Perm
      (peer :: (waiting ++ resultCh.map Prod.fst)) := List.perm_middle
  have hnodup := List.nodup_cons.mp (hperm.nodup_iff.mp h.nodup)
  obtain ⟨voters, hcount, hvoters⟩ := h.tally
  have hbacked : ∀ r ∈ resultCh, r.2.granted = true →
      ∃ j, r.1 = c.peer j ∧ (term, c.id i) ∈ votes j :=
    fun r hr => h.backed r (List.mem_cons_of_mem _ hr)
  have hrest : ∀ v ∈ voters, (term, c.id i) ∈ votes v ∧
      c.peer v ∉ waiting ++ resultCh.map Prod.fst :=
    fun v hv => ⟨(hvoters v hv).1, fun hmem => (hvoters v hv).2 (hsub _ hmem)⟩
  refine ⟨⟨h.notLeader, h.sameTerm, hnodup.2, hbacked, voters, hcount, hrest⟩, ?_⟩
  intro hgranted
  obtain ⟨j, hj, hvote⟩ := h.backed (peer, result) List.mem_cons_self hgranted
  have hfresh : j ∉ voters := by
    intro hmem
    refine (hvoters j hmem).2 ?_
    simp [← hj]
  refine ⟨h.notLeader, h.sameTerm, hnodup.2, hbacked, insert j voters, ?_, ?_⟩
  · rw [Finset.card_insert_of_notMem hfresh]
    omega
  · intro v hv
    rcases Finset.mem_insert.mp hv with rfl | hv
    · refine ⟨hvote, ?_⟩
      have hpeer : peer = c.peer v := hj
      exact hpeer ▸ hnodup.1
    · exact hrest v hv

end Counting

/-! ## Elected leaders have majorities -/

section Elections

variable [Fintype ν]

/-- `i` has the votes of a majority in term `t`. -/
def HasMajority (c : Cluster ν) (w : World ν) (i : ν) (t : Int) : Prop :=
  ∃ Q : Finset ν, Fintype.card ν / 2 + 1 ≤ Q.card ∧ ∀ v ∈ Q, (t, c.id i) ∈ w.votes v

/-- Granted replies are votes, loops count votes, and leaders have majorities. -/
structure Elections (c : Cluster ν) (w : World ν) : Prop where
  backed : ∀ m ∈ w.voteReplies, m.2.2.voteGranted = true →
    ∃ j, m.1 = c.peer j ∧ (m.2.1.term, m.2.1.candidateID) ∈ w.votes j
  counting : ∀ i term count received waiting resultCh,
    (w.process i).loop = .collecting term count received waiting resultCh →
    Counting c w.votes i (w.process i).node term count waiting resultCh
  won : ∀ m ∈ w.elected, HasMajority c w m.1 m.2

/-- At the start nobody has been elected. -/
theorem elections_init (c : Cluster ν) (files : ν → Option PersistentState) :
    Elections c (World.init c files) where
  backed := fun _ hm => by cases hm
  counting := fun _ _ _ _ _ _ h => by cases h
  won := fun _ hm => by cases hm

variable [DecidableEq ν] {c : Cluster ν} {w : World ν} {i : ν} {a : Action} {e : Effect}

omit [Fintype ν] in
/-- Histories only grow. -/
theorem votes_commit (j : ν) (v : Int × String) (hv : v ∈ w.votes j) :
    v ∈ (w.commit c i e).votes j := by
  by_cases hj : j = i
  · subst hj
    simpa [World.commit] using Or.inr hv
  · simpa [World.commit, Function.update_of_ne hj] using hv

omit [Fintype ν] in
/-- A vote that an action outputs is in the history afterwards. -/
theorem newVote_commit {o : Output} {v : Int × String} (ho : o ∈ e.out)
    (hv : o.vote (c.id i) = some v) : v ∈ (w.commit c i e).votes i := by
  simp only [World.commit, Function.update_self]
  exact List.mem_append_left _ (List.mem_filterMap.mpr ⟨o, ho, hv⟩)

omit [DecidableEq ν] in
/-- A majority stays a majority. -/
theorem HasMajority.mono {w' : World ν} {t : Int} (h : HasMajority c w i t)
    (hgrow : ∀ j v, v ∈ w.votes j → v ∈ w'.votes j) : HasMajority c w' i t := by
  obtain ⟨Q, hQ, hvotes⟩ := h
  exact ⟨Q, hQ, fun v hv => hgrow v _ (hvotes v hv)⟩

/-- A node and its peers are the whole cluster. -/
theorem others_length (c : Cluster ν) (i : ν) :
    (c.others i).length + 1 = Fintype.card ν := by
  have hset : (c.others i).toFinset = Finset.univ.erase i := by
    ext j
    simp [c.mem_others]
  have hcard : (c.others i).toFinset.card = (c.others i).length :=
    List.toFinset_card_of_nodup (c.others_nodup i)
  have hpos : 0 < Fintype.card ν := Fintype.card_pos_iff.mpr ⟨i⟩
  rw [← hcard, hset, Finset.card_erase_of_mem (Finset.mem_univ i), Finset.card_univ]
  omega

/-- The acting node's loop, after its action. -/
theorem counting_commit (hr : Registers c w) (hel : Elections c w)
    (hallowed : Allowed c w i a) (he : perform (w.process i) a = some e)
    {term : Int} {count received : Nat} {waiting : List PeerConfig}
    {resultCh : List (PeerConfig × VoteResult)}
    (hloop : e.process.loop = .collecting term count received waiting resultCh) :
    Counting c (w.commit c i e).votes i e.process.node term count waiting resultCh := by
  rcases perform_cases he with hq | ⟨_, _, rfl⟩ |
    ⟨peer, result, term', count', received', waiting', resultCh', rfl, hold, hpeer, rfl⟩ |
    ⟨peer, result, term', count', received', waiting', resultCh', _, hold, rfl⟩
  · have hold : (w.process i).loop = .collecting term count received waiting resultCh := by
      rcases hq.loop with h | h | h | h | h <;> rw [h] at hloop
      · exact hloop
      all_goals cases hloop
    exact ((hel.counting i _ _ _ _ _ hold).mono votes_commit).keepsRole hq.role
  · simp only [startElection, nextIteration] at hloop
    split at hloop <;> cases hloop
    have hpeers : (becomeCandidate (w.process i).node).node.peers = c.peers i :=
      (hr.identity i).2
    rw [hpeers]
    exact Counting.start rfl rfl (newVote_commit List.mem_cons_self rfl)
  · cases hloop
    refine ((hel.counting i _ _ _ _ _ hold).mono votes_commit).receive hpeer ?_
    intro hgranted
    rcases hallowed with rfl | ⟨m, hm, hmp, hmt, hmc, rfl⟩
    · cases hgranted
    · obtain ⟨j, hj, hv⟩ := hel.backed m hm hgranted
      rw [hold] at hmt
      cases hmt
      rw [hmc] at hv
      exact ⟨j, hmp ▸ hj, votes_commit j _ hv⟩
  · have hnext := ((hel.counting i _ _ _ _ _ hold).mono
      (votes_commit (c := c) (i := i) (e := collectResult (w.process i) term' count' received'
        waiting' resultCh' result))).take
    simp only [collectResult] at hloop
    rcases countVote_cases (w.process i).node count' result with ⟨hreply, _⟩ |
      ⟨hreply, _⟩ | ⟨hnode, votes', hreply, hvotes'⟩
    · simp [hreply, afterVerdict] at hloop
    · simp [hreply, afterVerdict] at hloop
    · simp only [hreply, afterVerdict, nextIteration] at hloop
      split at hloop <;> cases hloop
      simp only [collectResult, hnode] at hnext ⊢
      rcases hvotes' with rfl | ⟨hgranted, rfl⟩
      · exact hnext.1
      · exact hnext.2 hgranted

/-- The node that becomes leader has been voted for by a majority. -/
theorem majority_commit (hr : Registers c w) (hel : Elections c w)
    (he : perform (w.process i) a = some e) {t : Int} (ho : .elected t ∈ e.out) :
    HasMajority c w i t := by
  obtain ⟨peer, result, term, votes, received, waiting, resultCh, hloop, hgranted, hmaj,
    hcand, hterm, _⟩ := perform_elected he ho
  have hcount := hel.counting i _ _ _ _ _ hloop
  have hsame : term = t := (hcount.sameTerm hcand).symm.trans hterm
  obtain ⟨voters, hcard, hvoters⟩ := (hcount.take.2 hgranted).tally
  refine ⟨voters, ?_, fun v hv => hsame ▸ (hvoters v hv).1⟩
  have hlen := others_length c i
  unfold majority at hmaj
  rw [(hr.identity i).2, Cluster.peers, List.length_map, hlen] at hmaj
  omega

/-- A section keeps the elections right: a node that becomes leader has counted a majority. -/
theorem elections_commit (hr : Registers c w) (hel : Elections c w)
    (hallowed : Allowed c w i a) (he : perform (w.process i) a = some e) :
    Elections c (w.commit c i e) := by
  constructor
  · intro m hm hgranted
    rcases List.mem_append.mp hm with hm | hm
    · obtain ⟨j, hj, hv⟩ := hel.backed m hm hgranted
      exact ⟨j, hj, votes_commit j _ hv⟩
    · obtain ⟨o, ho, hom⟩ := List.mem_filterMap.mp hm
      cases o with
      | voteReply req resp =>
          cases hom
          exact ⟨i, rfl, newVote_commit ho (by simpa [Output.vote] using hgranted)⟩
      | _ => cases hom
  · intro j term count received waiting resultCh hloop
    by_cases hj : j = i
    · subst hj
      simp only [World.commit, Function.update_self] at hloop
      have hself : (w.commit c j e).process j = e.process := by simp [World.commit]
      rw [hself]
      exact counting_commit hr hel hallowed he hloop
    · have hother : (w.commit c i e).process j = w.process j := by
        simp [World.commit, Function.update_of_ne hj]
      rw [hother] at hloop ⊢
      exact (hel.counting j _ _ _ _ _ hloop).mono votes_commit
  · intro m hm
    rcases List.mem_append.mp hm with hm | hm
    · exact (hel.won m hm).mono votes_commit
    · obtain ⟨o, ho, hom⟩ := List.mem_filterMap.mp hm
      cases o with
      | elected t =>
          cases hom
          exact (majority_commit hr hel he ho).mono votes_commit
      | _ => cases hom

/-- A restart of a node forgets its count and elects nobody. -/
theorem elections_restart (hel : Elections c w) (file : Option PersistentState) :
    Elections c (w.restart c i file) := by
  refine ⟨hel.backed, ?_, hel.won⟩
  intro j term count received waiting resultCh hloop
  by_cases hj : j = i
  · subst hj
    simp [World.restart, startProcess] at hloop
  · have hother : (w.restart c i file).process j = w.process j := by
      simp [World.restart, Function.update_of_ne hj]
    rw [hother] at hloop ⊢
    exact hel.counting j _ _ _ _ _ hloop

/-- **Every event keeps the elections right.** -/
theorem elections_step {w' : World ν} {ev : Event ν} (hr : Registers c w)
    (hel : Elections c w) (h : step c w ev = some w') : Elections c w' := by
  rcases step_cases h with ⟨i, a, e, _, hallowed, he, rfl⟩ | ⟨i, file, _, rfl, _⟩
  · exact elections_commit hr hel hallowed he
  · exact elections_restart hel file

/-- **Both invariants hold in every reachable world**, whatever the state
directories held at the start. -/
theorem reachable_invariants (c : Cluster ν) (files : ν → Option PersistentState)
    {evs : List (Event ν)} {w : World ν}
    (h : run (step c) (World.init c files) evs = some w) :
    Registers c w ∧ Elections c w := by
  refine run_invariant (I := fun w => Registers c w ∧ Elections c w) ?_
    ⟨registers_init c files, elections_init c files⟩ h
  intro w ev w' hinv hstep
  exact ⟨registers_step hinv.1 hstep, elections_step hinv.1 hinv.2 hstep⟩

/-- Two nodes with a majority in one term coincide. -/
theorem majority_unique (hr : Registers c w) {j : ν} {t : Int}
    (hi : HasMajority c w i t) (hj : HasMajority c w j t) : i = j := by
  obtain ⟨Q, hQ, hQv⟩ := hi
  obtain ⟨R, hR, hRv⟩ := hj
  exact c.id_injective (winner_unique hr.oneVote hQ hR hQv hRv)

/-- Two leaders elected in one term coincide. -/
theorem elected_unique (hr : Registers c w) (hel : Elections c w) {j : ν} {t : Int}
    (hi : (i, t) ∈ w.elected) (hj : (j, t) ∈ w.elected) : i = j :=
  majority_unique hr (hel.won _ hi) (hel.won _ hj)

/-- **Election safety.**  In every run of a cluster, from any state files, at
most one node executes `becomeLeader` in a term. -/
theorem electionSafety (c : Cluster ν) (files : ν → Option PersistentState)
    (evs : List (Event ν)) (w : World ν)
    (h : run (step c) (World.init c files) evs = some w) :
    ∀ i j t, (i, t) ∈ w.elected → (j, t) ∈ w.elected → i = j := by
  intro i j t hi hj
  obtain ⟨hr, hel⟩ := reachable_invariants c files h
  exact elected_unique hr hel hi hj

end Elections

/-- The nodes of a cluster of three. -/
def node1 : Fin 3 := 0

def node2 : Fin 3 := 1

def node3 : Fin 3 := 2

/-- The first node times out, campaigns in term one, and wins with the vote of
the second. -/
def electsFirst : List (Event (Fin 3)) :=
  [.act node1 (.electionTimeout second), .act node1 .startElection,
   .act node2 (.handleRequestVote ⟨1, "node1"⟩),
   .act node1 (.voteReturn ⟨"node2", "node2:9002"⟩ ⟨true, 1⟩), .act node1 .collect]

/-- The first node is elected in term one, and nobody else is. -/
theorem electionSafety_electsFirst :
    ∃ w, run (step threeNodes) (World.init threeNodes fun _ => none) electsFirst = some w ∧
      (0, 1) ∈ w.elected ∧ ∀ j, (j, 1) ∈ w.elected → j = 0 := by
  obtain ⟨w, hrun, hwon⟩ : ∃ w,
      run (step threeNodes) (World.init threeNodes fun _ => none) electsFirst = some w ∧
        (0, 1) ∈ w.elected :=
    exists_run (by decide) (by decide)
  refine ⟨w, hrun, hwon, ?_⟩
  intro j hj
  exact electionSafety threeNodes _ _ w hrun j 0 1 hj hwon

end Raft
