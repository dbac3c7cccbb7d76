import DistributedCaching.GoJson
import DistributedCaching.LeaderStability
import DistributedCaching.VotePersistence

/-!
# The state file of a Raft node

`saveState` marshals the record to JSON, writes the text to a temporary file and renames
that over the state file.  A write may fail or be cut short by a crash, leaving any text
in the temporary file, and so may the rename.  `loadState` reads the state file back.

`VotePersistence` works with records instead: a `saveState` puts its record into the file
or leaves the file alone.  `files_refine_records` justifies it.  In every run of
any number of nodes that share a state directory, each node sees exactly what it would
see on a file of records of its own: torn writes never show, the nodes do not touch each
other's files, and a node that is started again always finds a file that it can read.

A file is its text.  Crashes are those of processes; what a file system loses when the
machine fails is not modelled.
-/

namespace Raft

open Go Json TransitionRuns

/-! ## The record as JSON -/

/-- The record as a JSON object. -/
def PersistentState.value (ps : PersistentState) : Value :=
  .object [("current_term".toList, .number (formatInt ps.currentTerm)),
    ("voted_for".toList, .text ps.votedFor.toList)]

/-- `json.Marshal(n.ps)`. -/
def marshalState (ps : PersistentState) : Text := print ps.value

/-- The fields of the record. -/
def stateFields : Fields PersistentState :=
  [("current_term".toList,
      decodeField (·.currentTerm) (fun ps x => { ps with currentTerm := x }) decodeInt64),
    ("voted_for".toList,
      decodeField (·.votedFor) (fun ps x => { ps with votedFor := x }) decodeString)]

/-- `json.Unmarshal(data, &n.ps)`. -/
def unmarshalState (data : Text) : Option PersistentState := unmarshal stateFields {} data

/-- The term is one of 64 bits. -/
def PersistentState.Int64 (ps : PersistentState) : Prop :=
  -2 ^ 63 ≤ ps.currentTerm ∧ ps.currentTerm < 2 ^ 63

/-- **A record is read back** from the text it was marshalled to. -/
theorem unmarshalState_marshalState {ps : PersistentState} (h : ps.Int64) :
    unmarshalState (marshalState ps) = some ps := by
  have hdepth : ps.value.depth ≤ maxNestingDepth := show 1 ≤ 10000 by decide
  have hterm : decodeInt64 (.number (formatInt ps.currentTerm)) 0 = some ps.currentTerm :=
    atoi_formatInt h.1 h.2
  refine unmarshal_print ⟨isNumber_formatInt _, isLiteral_escape _, trivial⟩ hdepth ?_
  calc decodeStruct stateFields {} ps.value
      = decodeMembers stateFields { currentTerm := ps.currentTerm }
          [("voted_for".toList, .text ps.votedFor.toList)] := by
        refine decodeMembers_field rfl ?_ _
        exact decodeField_eq hterm
    _ = decodeMembers stateFields ps [] := by
        refine decodeMembers_field rfl ?_ _
        exact decodeField_eq (decodeString_text _ _)
    _ = some ps := rfl

/-- A record that was read from a text is one of 64 bits. -/
theorem int64_of_unmarshalState {data : Text} {ps : PersistentState}
    (h : unmarshalState data = some ps) : ps.Int64 := by
  refine unmarshal_invariant (I := PersistentState.Int64) ?_ ⟨by decide, by decide⟩ h
  intro f hf v r r' hr hdecode
  simp only [stateFields, List.mem_cons, List.not_mem_nil, or_false] at hf
  rcases hf with rfl | rfl
  · obtain ⟨term, hterm, rfl⟩ := Option.map_eq_some_iff.mp hdecode
    cases v with
    | null =>
        cases hterm
        exact hr
    | number literal => exact atoi_range hterm
    | _ => cases hterm
  · obtain ⟨id, _, rfl⟩ := Option.map_eq_some_iff.mp hdecode
    exact hr

/-! ## The files -/

/-- The texts of the files by their paths. -/
abbrev Disk := GoMap String Text

def statePath (stateDir id : String) : String := stateDir ++ "/raft-" ++ id ++ ".json"

/-- The temporary file that `saveState` writes. -/
def tmpPath (stateDir id : String) : String := statePath stateDir id ++ ".tmp"

/-- `os.Rename`. -/
def Disk.rename (disk : Disk) (src dst : String) : Disk :=
  match disk.lookup src with
  | none => disk
  | some data => (disk.erase src).insert dst data

/-- How a call of `saveState` ends. -/
inductive SaveOutcome
  /-- The temporary file cannot be opened. -/
  | unopened
  /-- The write fails, or the process crashes in it, and leaves this text behind. -/
  | torn (left : Text)
  /-- The rename fails, or the process crashes before it. -/
  | unrenamed
  | renamed
  deriving DecidableEq

def SaveOutcome.ok : SaveOutcome → Bool
  | .renamed => true
  | _ => false

/-- The files after `saveState`. -/
def saveState (stateDir id : String) (disk : Disk) (ps : PersistentState) : SaveOutcome → Disk
  | .unopened => disk
  | .torn left => disk.insert (tmpPath stateDir id) left
  | .unrenamed => disk.insert (tmpPath stateDir id) (marshalState ps)
  | .renamed =>
      Disk.rename (disk.insert (tmpPath stateDir id) (marshalState ps)) (tmpPath stateDir id)
        (statePath stateDir id)

/-- `loadState` on the files: `none` is an error. -/
def loadStateFile (stateDir id : String) (disk : Disk) : Option PersistentState :=
  match disk.lookup (statePath stateDir id) with
  | none => some {}
  | some data => unmarshalState data

/-- The files after several calls of `saveState`.  Calls beyond the outcomes succeed. -/
def saveFiles (stateDir id : String) (disk : Disk) :
    List PersistentState → List SaveOutcome → Disk
  | [], _ => disk
  | r :: rs, [] => saveFiles stateDir id (saveState stateDir id disk r .renamed) rs []
  | r :: rs, o :: os => saveFiles stateDir id (saveState stateDir id disk r o) rs os

/-- The record in a node's state file. -/
def stateFile (stateDir id : String) (disk : Disk) : Option PersistentState :=
  (disk.lookup (statePath stateDir id)).bind unmarshalState

/-- A state file that exists can be read. -/
def Readable (stateDir id : String) (disk : Disk) : Prop :=
  ∀ data ∈ disk.lookup (statePath stateDir id), (unmarshalState data).isSome = true

section Files

variable {stateDir id : String} {disk : Disk}

/-- A file that can be read loads the state that is in it, and a file that is not there the
initial one. -/
theorem loadStateFile_eq (h : Readable stateDir id disk) :
    loadStateFile stateDir id disk = some (loadState (stateFile stateDir id disk)) := by
  unfold loadStateFile stateFile
  cases hdata : disk.lookup (statePath stateDir id) with
  | none => rfl
  | some data =>
      obtain ⟨ps, hps⟩ := Option.isSome_iff_exists.mp (h data hdata)
      simp [hps, loadState]

/-- What is read from a file fits into 64 bits. -/
theorem int64_of_stateFile {ps : PersistentState} (h : stateFile stateDir id disk = some ps) :
    ps.Int64 := by
  obtain ⟨data, _, hdata⟩ := Option.bind_eq_some_iff.mp h
  exact int64_of_unmarshalState hdata

/-- Different nodes have different files. -/
theorem statePath_inj {id' : String} : statePath stateDir id = statePath stateDir id' ↔ id = id' := by
  simp [statePath]

/-- The temporary file of a node is no state file. -/
theorem tmpPath_ne_statePath (stateDir id id' : String) :
    tmpPath stateDir id ≠ statePath stateDir id' := by
  intro heq
  have hend := congrArg (fun s : String => s.toList.reverse.head?) heq
  simp [tmpPath, statePath] at hend

/-- A call of `saveState` that reaches the rename puts its record into the state file; any
other leaves the state file alone. -/
theorem lookup_saveState (disk : Disk) (ps : PersistentState) (o : SaveOutcome) :
    (saveState stateDir id disk ps o).lookup (statePath stateDir id) =
      if o.ok then some (marshalState ps) else disk.lookup (statePath stateDir id) := by
  have hne := (tmpPath_ne_statePath stateDir id id).symm
  cases o with
  | renamed => simp [saveState, Disk.rename, SaveOutcome.ok]
  | _ => simp [saveState, SaveOutcome.ok, AList.lookup_insert_ne hne]

/-- No call of `saveState` touches the state file of another node. -/
theorem lookup_saveState_ne {id' : String} (hid : id' ≠ id) (disk : Disk) (ps : PersistentState)
    (o : SaveOutcome) :
    (saveState stateDir id disk ps o).lookup (statePath stateDir id') =
      disk.lookup (statePath stateDir id') := by
  have htmp := (tmpPath_ne_statePath stateDir id id').symm
  have hpath : statePath stateDir id' ≠ statePath stateDir id := fun h => hid (statePath_inj.mp h)
  cases o with
  | renamed =>
      simp [saveState, Disk.rename, AList.lookup_insert_ne hpath, AList.lookup_erase_ne htmp,
        AList.lookup_insert_ne htmp]
  | unopened => rfl
  | _ => exact AList.lookup_insert_ne htmp

/-- A save replaces what is in the file, and a save that fails leaves it. -/
theorem stateFile_saveState {ps : PersistentState} (h : ps.Int64) (o : SaveOutcome) :
    stateFile stateDir id (saveState stateDir id disk ps o) =
      if o.ok then some ps else stateFile stateDir id disk := by
  rw [stateFile, lookup_saveState]
  split
  · exact unmarshalState_marshalState h
  · rfl

/-- A save leaves a file that can be read. -/
theorem readable_saveState {ps : PersistentState} (h : ps.Int64) (o : SaveOutcome)
    (hdisk : Readable stateDir id disk) : Readable stateDir id (saveState stateDir id disk ps o) := by
  intro data hdata
  rw [lookup_saveState] at hdata
  split at hdata
  · cases hdata
    rw [unmarshalState_marshalState h]
    rfl
  · exact hdisk data hdata

/-- **A section's writes** do to the state file what they do to a file of records. -/
theorem saveFiles_spec {saves : List PersistentState} (hsaves : ∀ r ∈ saves, r.Int64)
    (outs : List SaveOutcome) (hdisk : Readable stateDir id disk) :
    Readable stateDir id (saveFiles stateDir id disk saves outs) ∧
      stateFile stateDir id (saveFiles stateDir id disk saves outs) =
        saveSome (stateFile stateDir id disk) saves (outs.map SaveOutcome.ok) := by
  induction saves generalizing disk outs with
  | nil => exact ⟨hdisk, rfl⟩
  | cons r rs ih =>
      have hr : r.Int64 := hsaves r List.mem_cons_self
      have hrs : ∀ r ∈ rs, r.Int64 := fun r hr => hsaves r (List.mem_cons_of_mem _ hr)
      cases outs with
      | nil =>
          have hrest := ih hrs [] (readable_saveState hr .renamed hdisk)
          rw [stateFile_saveState hr] at hrest
          exact hrest
      | cons o os =>
          have hrest := ih hrs os (readable_saveState hr o hdisk)
          rw [stateFile_saveState hr] at hrest
          exact hrest

/-- A section's writes leave the state files of other nodes alone. -/
theorem lookup_saveFiles_ne {id' : String} (hid : id' ≠ id) (saves : List PersistentState)
    (outs : List SaveOutcome) (disk : Disk) :
    (saveFiles stateDir id disk saves outs).lookup (statePath stateDir id') =
      disk.lookup (statePath stateDir id') := by
  induction saves generalizing disk outs with
  | nil => rfl
  | cons r rs ih =>
      cases outs with
      | nil => rw [saveFiles, ih, lookup_saveState_ne hid]
      | cons o os => rw [saveFiles, ih, lookup_saveState_ne hid]

end Files

/-! ## Nodes on one state directory -/

/-- A process and the votes it has given. -/
structure Host where
  process : Process
  votes : List (Int × String) := []

/-- The hosts by the ids of their nodes, and the files they share. -/
structure Machine where
  host : String → Host
  disk : Disk

inductive FileEvent
  /-- A section, and how its writes end. -/
  | act (id : String) (a : Action) (outs : List SaveOutcome)
  | crash (id : String)
  /-- A crash inside a section, in or after its write number `k`. -/
  | crashDuring (id : String) (a : Action) (outs : List SaveOutcome) (k : Nat)

/-- The terms that reach the process are numbers of 64 bits. -/
def Action.Int64 (a : Action) : Prop := ∀ t ∈ a.inputTerm, t < 2 ^ 63

instance (a : Action) : Decidable a.Int64 := inferInstanceAs (Decidable (∀ t ∈ a.inputTerm, _))

variable (stateDir : String) (peers : String → List PeerConfig)

/-- Every node started on the files it finds. -/
def Machine.init (disk : Disk) : Machine :=
  { host := fun id => { process := startProcess id (peers id) (stateFile stateDir id disk) }
    disk := disk }

/-- `NewRaftNode` on the files that a crash has left: the process does not come up if it
cannot read its state file. -/
def Machine.restart (m : Machine) (id : String) (disk : Disk) : Option Machine :=
  (loadStateFile stateDir id disk).map fun ps =>
    { host := Function.update m.host id
        { process := startProcess id (peers id) (some ps), votes := (m.host id).votes }
      disk := disk }

def fileStep (m : Machine) : FileEvent → Option Machine
  | .act id a outs =>
      if a.Named ∧ a.Int64 then
        (perform (m.host id).process a).map fun e =>
          { host := Function.update m.host id
              { process := e.process
                votes := e.out.filterMap (Output.vote id) ++ (m.host id).votes }
            disk := saveFiles stateDir id m.disk e.saves outs }
      else none
  | .crash id => m.restart stateDir peers id m.disk
  | .crashDuring id a outs k =>
      if a.Named ∧ a.Int64 then
        (perform (m.host id).process a).bind fun e =>
          m.restart stateDir peers id (saveFiles stateDir id m.disk (e.saves.take k) outs)
      else none

/-- The node that an event happens at. -/
def FileEvent.node : FileEvent → String
  | .act id _ _ => id
  | .crash id => id
  | .crashDuring id _ _ _ => id

/-- The event on a file of records: a write succeeds if it reaches its rename. -/
def FileEvent.record : FileEvent → DiskEvent
  | .act _ a outs => .act a (outs.map SaveOutcome.ok)
  | .crash _ => .crash
  | .crashDuring _ a outs k => .crashDuring a (outs.map SaveOutcome.ok) k

/-- What node `id` sees of the events. -/
def recordsOf (id : String) (evs : List FileEvent) : List DiskEvent :=
  (evs.filter (·.node = id)).map FileEvent.record

/-- What node `id` sees of the machine: its process, and the record in its file. -/
def Machine.replica (m : Machine) (id : String) : Replica where
  process := (m.host id).process
  file := stateFile stateDir id m.disk
  votes := (m.host id).votes

/-- The terms of a process are numbers of 64 bits. -/
structure Fits (p : Process) : Prop where
  node : p.node.ps.Int64
  results : ∀ r ∈ p.loop.results, r.2.term < 2 ^ 63

/-- What holds of every node in every run. -/
structure Sound (m : Machine) (id : String) : Prop where
  readable : Readable stateDir id m.disk
  fits : Fits (m.host id).process

section Process

variable {p : Process} {a : Action} {e : Effect}

/-- A section leaves the process in terms of 64 bits. -/
theorem fits_perform (hp : Fits p) (ha : a.Int64) (he : perform p a = some e) :
    Fits e.process := by
  have hres : ∀ r ∈ e.process.loop.results, r.2.term < 2 ^ 63 := by
    intro r hr
    rcases perform_results he hr with hold | rfl
    · exact hp.results r hold
    · exact ha _ rfl
  refine ⟨?_, hres⟩
  obtain ⟨hlow, hhigh⟩ := hp.node
  by_cases hstart : a = .startElection
  · subst hstart
    simp only [perform] at he
    split at he <;> cases he
    simp only [PersistentState.Int64, startElection, becomeCandidate, incInt64]
    split <;> omega
  · have hge := (perform_advance he fun h => absurd h hstart).advances.term_le
    have hle : e.process.node.ps.currentTerm ≤ 2 ^ 63 - 1 := by
      refine perform_term_le he hstart (by omega) ?_ ?_
      · intro t ht
        have := ha t ht
        omega
      · intro r hr
        have := hp.results r hr
        omega
    exact ⟨hlow.trans hge, by omega⟩

/-- Every record that a section saves lies between the terms it starts and ends in. -/
theorem SavesAdvance.between {ps ps' : PersistentState} {saves : List PersistentState}
    (h : SavesAdvance ps saves ps') :
    ∀ r ∈ saves, ps.currentTerm ≤ r.currentTerm ∧ r.currentTerm ≤ ps'.currentTerm := by
  induction saves generalizing ps with
  | nil => simp
  | cons s rs ih =>
      have hfirst : ps.currentTerm ≤ s.currentTerm := h.1.term_le
      intro r hr
      rcases List.mem_cons.mp hr with rfl | hr
      · exact ⟨hfirst, h.2.advances.term_le⟩
      · obtain ⟨hlow, hhigh⟩ := ih h.2 r hr
        exact ⟨hfirst.trans hlow, hhigh⟩

/-- A section saves records of 64 bits. -/
theorem saves_perform (hp : Fits p) (ha : a.Int64) (he : perform p a = some e) :
    ∀ r ∈ e.saves, r.Int64 := by
  have hend := (fits_perform hp ha he).node
  intro r hr
  by_cases hstart : a = .startElection
  · subst hstart
    simp only [perform] at he
    split at he <;> cases he
    simp only [startElection, becomeCandidate, List.mem_singleton] at hr
    rw [hr]
    exact hend
  · obtain ⟨hlow, hhigh⟩ := (perform_advance he fun h => absurd h hstart).between r hr
    exact ⟨hp.node.1.trans hlow, hhigh.trans_lt hend.2⟩

end Process

/-! ## The refinement -/

variable {stateDir peers} {m m' : Machine} {id : String} {ev : FileEvent}

theorem startProcess_some_loadState (id : String) (peers : List PeerConfig)
    (file : Option PersistentState) :
    startProcess id peers (some (loadState file)) = startProcess id peers file := rfl

/-- A process that is started has terms of 64 bits. -/
theorem fits_startProcess (disk : Disk) :
    Fits (startProcess id (peers id) (stateFile stateDir id disk)) := by
  refine ⟨?_, by simp [startProcess, Loop.results]⟩
  show (loadState (stateFile stateDir id disk)).Int64
  cases hfile : stateFile stateDir id disk with
  | none => exact ⟨by decide, by decide⟩
  | some ps => exact int64_of_stateFile hfile

/-- A node that is started again comes up as it would on its record. -/
theorem restart_spec {disk : Disk} (hdisk : Readable stateDir id disk)
    (h : m.restart stateDir peers id disk = some m') :
    Sound stateDir m' id ∧
      m'.replica stateDir id =
        { process := startProcess id (peers id) (stateFile stateDir id disk)
          file := stateFile stateDir id disk
          votes := (m.host id).votes } ∧
      m'.disk = disk ∧ ∀ id' ≠ id, m'.host id' = m.host id' := by
  rw [Machine.restart, loadStateFile_eq hdisk] at h
  cases h
  refine ⟨⟨hdisk, ?_⟩, ?_, rfl, ?_⟩
  · simp only [Function.update_self, startProcess_some_loadState]
    exact fits_startProcess disk
  · simp only [Machine.replica, Function.update_self, startProcess_some_loadState]
  · intro id' hid
    simp [Function.update_of_ne hid]

/-- **One step at a node** is the step on its record, and the other nodes see nothing of
it. -/
theorem fileStep_refines (hs : ∀ id, Sound stateDir m id)
    (h : fileStep stateDir peers m ev = some m') :
    (∀ id, Sound stateDir m' id) ∧
      diskStep ev.node (peers ev.node) (m.replica stateDir ev.node) ev.record =
        some (m'.replica stateDir ev.node) ∧
      ∀ id ≠ ev.node, m'.replica stateDir id = m.replica stateDir id := by
  -- What the step does at its own node, and that it leaves the files of others alone.
  suffices hnode : Sound stateDir m' ev.node ∧
      diskStep ev.node (peers ev.node) (m.replica stateDir ev.node) ev.record =
        some (m'.replica stateDir ev.node) ∧
      ∀ id ≠ ev.node, m'.host id = m.host id ∧
        m'.disk.lookup (statePath stateDir id) = m.disk.lookup (statePath stateDir id) by
    obtain ⟨hsound, hstep, hothers⟩ := hnode
    refine ⟨?_, hstep, ?_⟩
    · intro id
      by_cases hid : id = ev.node
      · exact hid ▸ hsound
      · obtain ⟨hhost, hfile⟩ := hothers id hid
        refine ⟨?_, by rw [hhost]; exact (hs id).fits⟩
        intro data hdata
        exact (hs id).readable data (hfile ▸ hdata)
    · intro id hid
      obtain ⟨hhost, hfile⟩ := hothers id hid
      simp only [Machine.replica, stateFile, hhost, hfile]
  cases ev with
  | act id a outs =>
      simp only [fileStep] at h
      split at h
      · rename_i hok
        obtain ⟨e, he, rfl⟩ := Option.map_eq_some_iff.mp h
        have hsaves := saves_perform (hs id).fits hok.2 he
        obtain ⟨hread, hfile⟩ := saveFiles_spec hsaves outs (hs id).readable
        refine ⟨⟨hread, ?_⟩, ?_, ?_⟩
        · simpa [FileEvent.node] using fits_perform (hs id).fits hok.2 he
        · simp [FileEvent.node, FileEvent.record, diskStep, hok.1, Machine.replica, he, hfile]
        · intro id' hid
          have hne : id' ≠ id := hid
          exact ⟨by simp [Function.update_of_ne hne], lookup_saveFiles_ne hne _ _ _⟩
      · cases h
  | crash id =>
      obtain ⟨hsound, hreplica, hdisk, hothers⟩ := restart_spec (hs id).readable h
      refine ⟨hsound, ?_, ?_⟩
      · simp only [FileEvent.node, FileEvent.record, diskStep, Replica.fileLeft, Option.map_some,
          hreplica]
        rfl
      · intro id' hid
        exact ⟨hothers id' hid, by rw [hdisk]⟩
  | crashDuring id a outs k =>
      simp only [fileStep] at h
      split at h
      · rename_i hok
        obtain ⟨e, he, hrestart⟩ := Option.bind_eq_some_iff.mp h
        have hsaves : ∀ r ∈ e.saves.take k, r.Int64 := fun r hr =>
          saves_perform (hs id).fits hok.2 he r (List.mem_of_mem_take hr)
        obtain ⟨hread, hfile⟩ := saveFiles_spec hsaves outs (hs id).readable
        obtain ⟨hsound, hreplica, hdisk, hothers⟩ := restart_spec hread hrestart
        refine ⟨hsound, ?_, ?_⟩
        · rw [hfile] at hreplica
          simp only [FileEvent.node, FileEvent.record, diskStep, Replica.fileLeft, hok.1, if_true,
            Machine.replica, he, Option.map_some] at hreplica ⊢
          rw [hreplica]
        · intro id' hid
          exact ⟨hothers id' hid, by rw [hdisk]; exact lookup_saveFiles_ne hid _ _ _⟩
      · cases h

/-- Along a run, each node takes the steps it would take on its record. -/
theorem run_refines (hs : ∀ id, Sound stateDir m id) {evs : List FileEvent}
    (h : run (fileStep stateDir peers) m evs = some m') :
    ∀ id, Sound stateDir m' id ∧
      run (diskStep id (peers id)) (m.replica stateDir id) (recordsOf id evs) =
        some (m'.replica stateDir id) := by
  induction evs generalizing m with
  | nil =>
      cases h
      exact fun id => ⟨hs id, rfl⟩
  | cons ev evs ih =>
      obtain ⟨m₁, hm₁, hrest⟩ := run_cons_some h
      obtain ⟨hsound, hstep, hothers⟩ := fileStep_refines hs hm₁
      intro id
      obtain ⟨hend, hrun⟩ := ih hsound hrest id
      refine ⟨hend, ?_⟩
      by_cases hid : ev.node = id
      · subst hid
        simp only [recordsOf, List.filter_cons, decide_true, if_true, List.map_cons, run_cons, hstep,
          Option.bind_some]
        exact hrun
      · rw [← hothers id fun h => hid h.symm]
        simpa [recordsOf, hid] using hrun

/-- **State files do what files of records do.**  In every run of nodes that share a state
directory whose state files can be read at the start, with writes and renames that fail
and crashes at any point of them, every node goes through the run that it would go
through on a file of records of its own, in which exactly the writes that reach their
rename succeed; and its state file can be read at any time. -/
theorem files_refine_records (stateDir : String) (peers : String → List PeerConfig) (disk : Disk)
    (hread : ∀ id, Readable stateDir id disk) (evs : List FileEvent) (m : Machine)
    (h : run (fileStep stateDir peers) (Machine.init stateDir peers disk) evs = some m) :
    ∀ id, run (diskStep id (peers id))
          (Replica.init id (peers id) (stateFile stateDir id disk)) (recordsOf id evs) =
        some (m.replica stateDir id) ∧
      loadStateFile stateDir id m.disk = some (loadState (m.replica stateDir id).file) := by
  intro id
  obtain ⟨hsound, hrun⟩ := run_refines (fun id => ⟨hread id, fits_startProcess disk⟩) h id
  exact ⟨hrun, loadStateFile_eq hsound.readable⟩

/-- Two nodes vote on one directory: the first write of `node2` is torn, and `node1`
crashes between writing its vote and renaming it. -/
def tornWrites : List FileEvent :=
  [.act "node2" (.handleRequestVote ⟨3, "node3"⟩) [.torn "\x7b\"curr".toList, .renamed],
   .crashDuring "node1" (.handleRequestVote ⟨3, "node3"⟩) [.renamed, .unrenamed] 2,
   .crash "node2"]

/-- Each file holds the last state that was saved in full. -/
theorem files_refine_records_tornWrites :
    ∃ m, run (fileStep "/tmp/raft" fun _ => []) (Machine.init "/tmp/raft" (fun _ => []) ∅) tornWrites =
        some m ∧
      loadStateFile "/tmp/raft" "node1" m.disk = some ⟨3, ""⟩ ∧
      loadStateFile "/tmp/raft" "node2" m.disk = some ⟨3, "node3"⟩ := by
  obtain ⟨m, hrun, hfirst, hsecond⟩ : ∃ m,
      run (fileStep "/tmp/raft" fun _ => []) (Machine.init "/tmp/raft" (fun _ => []) ∅) tornWrites =
          some m ∧
        stateFile "/tmp/raft" "node1" m.disk = some ⟨3, ""⟩ ∧
        stateFile "/tmp/raft" "node2" m.disk = some ⟨3, "node3"⟩ :=
    exists_run (by decide +kernel) (by decide +kernel)
  have hload := files_refine_records "/tmp/raft" (fun _ => []) ∅ (fun id data hdata => by cases hdata)
    tornWrites m hrun
  refine ⟨m, hrun, ?_, ?_⟩
  · rw [(hload "node1").2]
    exact congrArg (fun file => some (loadState file)) hfirst
  · rw [(hload "node2").2]
    exact congrArg (fun file => some (loadState file)) hsecond

end Raft
