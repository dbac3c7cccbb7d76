import DistributedCaching.GoJson
import DistributedCaching.GrpcTransport
import DistributedCaching.NodeMetrics

/-!
# The health of a node on the dashboard

A cache node writes its health at `/health` with the verb `%q` for its id, which quotes as
Go source does, and the API layer decodes the reply as JSON.  The two kinds of quoting
agree on most characters, and where they do not the JSON decoder refuses the whole reply:
it does not know `\a`, `\v`, `\x` and `\U`.  So the dashboard shows a running node as it is
exactly if its id has none of the characters that are written so (`health_report`), and
as unhealthy otherwise.

The table of printable characters beyond Latin-1 is a parameter.
-/

/-! ## The verb `%q` -/

namespace Go

open Json

section Quote

variable (beyond : Char → Bool)

/-- `strconv.IsPrint`, with the table `beyond` for the characters beyond Latin-1. -/
def isPrint (c : Char) : Bool :=
  if c.toNat ≤ 0xFF then
    (0x20 ≤ c.toNat && c.toNat < 0x7F) || (0xA1 ≤ c.toNat && c.toNat ≠ 0xAD)
  else beyond c

/-- The control characters that have a letter of their own. -/
def controlLetter (c : Char) : Option Char :=
  if c.toNat = 0x07 then some 'a'
  else if c.toNat = 0x08 then some 'b'
  else if c.toNat = 0x0C then some 'f'
  else if c.toNat = 0x0A then some 'n'
  else if c.toNat = 0x0D then some 'r'
  else if c.toNat = 0x09 then some 't'
  else if c.toNat = 0x0B then some 'v'
  else none

/-- `appendEscapedRune` for a double quote. -/
def quoteRune (c : Char) : Text :=
  if c = '"' ∨ c = '\\' then ['\\', c]
  else if isPrint beyond c then [c]
  else
    match controlLetter c with
    | some letter => ['\\', letter]
    | none =>
        if c.toNat < 0x20 ∨ c.toNat = 0x7F then
          '\\' :: 'x' :: [Nat.digitChar (c.toNat / 16 % 16), Nat.digitChar (c.toNat % 16)]
        else if c.toNat < 0x10000 then '\\' :: 'u' :: hexDigits4 c.toNat
        else '\\' :: 'U' :: (hexDigits4 (c.toNat / 65536) ++ hexDigits4 (c.toNat % 65536))

/-- `strconv.Quote`, the verb `%q`. -/
def quoteGo (s : Text) : Text := '"' :: (s.flatMap (quoteRune beyond) ++ ['"'])

/-- The characters whose quoted form is no JSON: most control characters, and those
beyond the basic plane that cannot be printed. -/
def isUnreadable (c : Char) : Bool :=
  (c.toNat < 0x20 && c.toNat ∉ [0x08, 0x09, 0x0A, 0x0C, 0x0D]) || c.toNat = 0x7F ||
    (0x10000 ≤ c.toNat && !isPrint beyond c)

/-- The piece that the JSON decoder reads for a quoted character. -/
def quotedPiece (c : Char) : Piece :=
  if isPrint beyond c || (controlLetter c).isSome then .char c else .code c.toNat

variable {beyond}

theorem eq_of_toNat {c : Char} {n : Nat} (h : c.toNat = n) : c = Char.ofNat n := by
  rw [← h, Char.ofNat_toNat]

/-- Printable characters are not control characters. -/
theorem le_of_isPrint {c : Char} (h : isPrint beyond c = true) :
    0x20 ≤ c.toNat ∧ c.toNat ≠ 0x7F := by
  unfold isPrint at h
  split at h
  · simp only [Bool.or_eq_true, Bool.and_eq_true, decide_eq_true_eq] at h
    omega
  · omega

/-- The letters are for the control characters between bell and carriage return. -/
theorem controlLetter_cases (c : Char) :
    (∃ letter, controlLetter c = some letter ∧ 0x07 ≤ c.toNat ∧ c.toNat ≤ 0x0D) ∨
      controlLetter c = none ∧ (c.toNat < 0x07 ∨ 0x0D < c.toNat) := by
  unfold controlLetter
  grind

/-- **A quoted character is read as JSON** exactly if it is not one of the unreadable ones. -/
theorem readPieces_quoteRune (c : Char) (rest : Text) :
    readPieces (quoteRune beyond c ++ rest) =
      if isUnreadable beyond c then none
      else (readPieces rest).map fun (ps, r) => (quotedPiece beyond c :: ps, r) := by
  by_cases hslash : c = '"' ∨ c = '\\'
  · rcases hslash with rfl | rfl <;> rfl
  rw [quoteRune, if_neg hslash]
  rw [not_or] at hslash
  by_cases hprint : isPrint beyond c = true
  · obtain ⟨hlow, hdel⟩ := le_of_isPrint hprint
    have hread : isUnreadable beyond c = false := by
      have hnot : ¬ c.toNat < 0x20 := by omega
      simp [isUnreadable, hprint, hdel, hnot]
    have hpiece : quotedPiece beyond c = .char c := by simp [quotedPiece, hprint]
    rw [if_pos hprint, hread, hpiece]
    exact readPieces_plain hslash.1 hslash.2 (by omega) rest
  rw [if_neg hprint]
  rcases controlLetter_cases c with ⟨letter, _, hlow, hhigh⟩ | ⟨hnone, hrange⟩
  · -- The seven control characters with a letter; JSON knows five of the letters.
    obtain h | h | h | h | h | h | h : c.toNat = 7 ∨ c.toNat = 8 ∨ c.toNat = 9 ∨ c.toNat = 10 ∨
        c.toNat = 11 ∨ c.toNat = 12 ∨ c.toNat = 13 := by omega
    all_goals
      rw [eq_of_toNat h]
      rfl
  · rw [hnone]
    have hpiece : quotedPiece beyond c = .code c.toNat := by simp [quotedPiece, hprint, hnone]
    simp only [hpiece]
    by_cases hcontrol : c.toNat < 0x20 ∨ c.toNat = 0x7F
    · have hun : isUnreadable beyond c = true := by
        simp only [isUnreadable, Bool.or_eq_true, Bool.and_eq_true, decide_eq_true_eq]
        rcases hcontrol with hlt | hdel
        · exact Or.inl (Or.inl ⟨hlt, by simp; omega⟩)
        · exact Or.inl (Or.inr hdel)
      rw [if_pos hcontrol, if_pos hun]
      rfl
    · rw [if_neg hcontrol]
      rw [not_or] at hcontrol
      by_cases hbasic : c.toNat < 0x10000
      · have hread : isUnreadable beyond c = false := by
          have hnot : ¬ 0x10000 ≤ c.toNat := by omega
          simp [isUnreadable, hcontrol.1, hcontrol.2, hnot]
        rw [if_pos hbasic, hread]
        exact readPieces_code (by omega) rest
      · have hun : isUnreadable beyond c = true := by
          have hge : 0x10000 ≤ c.toNat := by omega
          simp [isUnreadable, hge, hprint]
        rw [if_neg hbasic, if_pos hun]
        rfl

/-- **A text quoted for Go is read as JSON** exactly if no character of it is written in a way
that JSON does not know. -/
theorem readPieces_quoteGo (s rest : Text) :
    readPieces (s.flatMap (quoteRune beyond) ++ '"' :: rest) =
      if s.any (isUnreadable beyond) then none else some (s.map (quotedPiece beyond), rest) := by
  induction s with
  | nil => rfl
  | cons c s ih =>
      rw [List.flatMap_cons, List.append_assoc, readPieces_quoteRune, ih, List.any_cons,
        List.map_cons]
      cases isUnreadable beyond c <;> cases s.any (isUnreadable beyond) <;> rfl

/-- Characters are no halves of surrogate pairs. -/
theorem isSurrogate_toNat (c : Char) : isSurrogate c.toNat = false := by
  have hvalid : c.toNat < 0xD800 ∨ 0xDFFF < c.toNat ∧ c.toNat < 0x110000 := c.valid
  simp only [isSurrogate, Bool.and_eq_false_iff, decide_eq_false_iff_not]
  omega

/-- The pieces of a quoted text join to the text. -/
theorem joinPieces_quotedPiece (s : Text) : joinPieces (s.map (quotedPiece beyond)) = s := by
  induction s with
  | nil => rfl
  | cons c s ih =>
      rw [List.map_cons, quotedPiece]
      split
      · rw [joinPieces, ih]
      · rw [joinPieces_code (isSurrogate_toNat c), ih, Char.ofNat_toNat]

/-- **A quoted text is read as a JSON string** exactly if it has no unreadable
character. -/
theorem readLiteral_quoteGo (s rest : Text) :
    readLiteral (s.flatMap (quoteRune beyond) ++ '"' :: rest) =
      if s.any (isUnreadable beyond) then none
      else some (s.flatMap (quoteRune beyond), rest) := by
  have hread : readPieces (s.flatMap (quoteRune beyond) ++ '"' :: rest) = _ :=
    readPieces_quoteGo s rest
  split at hread <;> rename_i hbad
  · rw [readLiteral, hread, if_pos hbad]
    rfl
  · rw [if_neg hbad]
    exact readLiteral_of_readPieces hread

/-- **The string denotes the text** that was quoted. -/
theorem unquote_quoteGo {s : Text} (h : ¬ s.any (isUnreadable beyond) = true) :
    unquote (s.flatMap (quoteRune beyond)) = s := by
  rw [unquote, readPieces_quoteGo, if_neg h]
  exact joinPieces_quotedPiece s

end Quote

end Go

/-! ## The reply of a node -/

namespace Cluster

open Go

/-- The body that the handler of `/health` writes, given what `CacheServer.Health`
returns. -/
def healthBody (beyond : Char → Bool) (nodeID : String) (health : Bool × Bool) : Text :=
  if !health.1 then
    "\x7b\"healthy\":false,\"node_id\":".toList ++ quoteGo beyond nodeID.toList ++ "\x7d".toList
  else
    "\x7b\"healthy\":true,\"node_id\":".toList ++ quoteGo beyond nodeID.toList ++
      ",\"is_coordinator\":".toList ++ (if health.2 then "true" else "false").toList ++
      "\x7d".toList

end Cluster

/-! ## What the API layer makes of it -/

namespace Api

open Go Json Cluster

/-- The struct that `fetchNodeHealth` decodes into. -/
structure HealthFields where
  healthy : Bool := false
  nodeID : String := ""
  isCoordinator : Bool := false
  deriving DecidableEq, Repr

/-- The fields of the struct. -/
def healthFields : Fields HealthFields :=
  [("healthy".toList, decodeField (·.healthy) (fun h x => { h with healthy := x }) decodeBool),
    ("node_id".toList, decodeField (·.nodeID) (fun h x => { h with nodeID := x }) decodeString),
    ("is_coordinator".toList,
      decodeField (·.isCoordinator) (fun h x => { h with isCoordinator := x }) decodeBool)]

/-- How `fetchNodeHealth` takes the body of a reply. -/
def HealthReply.ofBody (body : Text) : HealthReply :=
  match decodeStream healthFields {} body with
  | none => .badResponse
  | some h => .decoded h.healthy h.isCoordinator

variable {beyond : Char → Bool}

/-- The value that the parser reads from a quoted text. -/
theorem parseValue_quoteGo (beyond : Char → Bool) (fuel : Nat) (s rest : Text) :
    parseValue (fuel + 1) (quoteGo beyond s ++ rest) =
      if s.any (isUnreadable beyond) then none
      else some (.string (s.flatMap (quoteRune beyond)), rest) := by
  simp only [quoteGo, List.cons_append, List.append_assoc, List.nil_append]
  rw [parseValue, skipBlanks_cons (by decide)]
  simp only [readLiteral_quoteGo]
  split <;> rfl

/-- The last member of a reply. -/
theorem parseMembers_isCoordinator (fuel : Nat) (isCoord : Bool) :
    parseMembers (fuel + 2) (quote "is_coordinator".toList ++
        ':' :: (print (.bool isCoord) ++ ['}'])) =
      some ([("is_coordinator".toList, .bool isCoord)], []) := by
  have hread := (reads (fuel + 1)).1 (.bool isCoord) trivial (Nat.le_add_left 1 fuel) ['}']
    (delimited_of_mem (by decide) [])
  rw [parseMembers_value _ hread]
  rfl

/-- The members of a reply from the id of the node on. -/
theorem parseMembers_nodeID (fuel : Nat) (nodeID : Text) (isCoord : Bool) :
    parseMembers (fuel + 3) (quote "node_id".toList ++ ':' :: (quoteGo beyond nodeID ++
        ',' :: (quote "is_coordinator".toList ++ ':' :: (print (.bool isCoord) ++ ['}'])))) =
      if nodeID.any (isUnreadable beyond) then none
      else some ([("node_id".toList, .string (nodeID.flatMap (quoteRune beyond))),
        ("is_coordinator".toList, .bool isCoord)], []) := by
  have hread := parseValue_quoteGo beyond (fuel + 1) nodeID
    (',' :: (quote "is_coordinator".toList ++ ':' :: (print (.bool isCoord) ++ ['}'])))
  split at hread
  · rename_i hbad
    rw [parseMembers_none _ hread, if_pos hbad]
  · rename_i hgood
    rw [parseMembers_value _ hread, skipBlanks_cons (by decide), if_neg hgood]
    simp only [parseMembers_isCoordinator, Option.map_some]

/-- The reply member by member. -/
theorem healthBody_eq (nodeID : String) (isCoord : Bool) :
    healthBody beyond nodeID (true, isCoord) =
      '{' :: (quote "healthy".toList ++ ':' :: (print (.bool true) ++ ',' ::
        (quote "node_id".toList ++ ':' :: (quoteGo beyond nodeID.toList ++ ',' ::
          (quote "is_coordinator".toList ++ ':' :: (print (.bool isCoord) ++ ['}'])))))) := by
  have hfirst : "\x7b\"healthy\":true,\"node_id\":".toList =
      '{' :: (quote "healthy".toList ++ ':' :: (print (.bool true) ++ ',' ::
        (quote "node_id".toList ++ [':']))) := by decide
  have hsecond : ",\"is_coordinator\":".toList =
      ',' :: (quote "is_coordinator".toList ++ [':']) := by decide
  have hbool : (if isCoord = true then "true" else "false").toList = print (.bool isCoord) := by
    cases isCoord <;> rfl
  have hlast : "\x7d".toList = ['}'] := rfl
  rw [healthBody, if_neg (by simp), hfirst, hsecond, hbool, hlast]
  simp only [List.append_assoc, List.cons_append, List.nil_append]

/-- The reply of a running node as a value, from the literal of its id on. -/
def healthMembers (literal : Text) (isCoord : Bool) : List Member :=
  [("node_id".toList, .string literal), ("is_coordinator".toList, .bool isCoord)]

/-- **The reply of a node is JSON** exactly if its id has no unreadable character. -/
theorem parseFirst_healthBody (nodeID : String) (isCoord : Bool) :
    parseFirst maxNestingDepth (healthBody beyond nodeID (true, isCoord)) =
      if nodeID.toList.any (isUnreadable beyond) then none
      else some (.object (("healthy".toList, .bool true) ::
        healthMembers (nodeID.toList.flatMap (quoteRune beyond)) isCoord), []) := by
  obtain ⟨fuel, hfuel⟩ : ∃ n, (healthBody beyond nodeID (true, isCoord)).length + 1 = n + 5 := by
    refine ⟨(healthBody beyond nodeID (true, isCoord)).length - 4, ?_⟩
    have hlong : 4 ≤ (healthBody beyond nodeID (true, isCoord)).length := by
      rw [healthBody_eq]
      simp [quote]
      omega
    omega
  have hmember := (reads (fuel + 3)).1 (.bool true) trivial (by simp [Value.fuel])
    (',' :: (quote "node_id".toList ++ ':' :: (quoteGo beyond nodeID.toList ++ ',' ::
      (quote "is_coordinator".toList ++ ':' :: (print (.bool isCoord) ++ ['}'])))))
    (delimited_of_mem (by decide) _)
  rw [parseFirst, hfuel, healthBody_eq, quote, List.cons_append, parseValue_members,
    ← List.cons_append, ← quote, parseMembers_value _ hmember, skipBlanks_cons (by decide)]
  simp only [parseMembers_nodeID]
  split <;> rfl

/-- The reply decoded into the struct. -/
theorem decodeStruct_health (literal : Text) (isCoord : Bool) :
    decodeStruct healthFields {} (.object (("healthy".toList, .bool true) ::
        healthMembers literal isCoord)) =
      some ⟨true, String.ofList (unquote literal), isCoord⟩ := by
  calc decodeMembers healthFields {} (("healthy".toList, .bool true) ::
          healthMembers literal isCoord)
      = decodeMembers healthFields { healthy := true } (healthMembers literal isCoord) := by
        refine decodeMembers_field rfl ?_ _
        exact decodeField_eq rfl
    _ = decodeMembers healthFields
          { healthy := true, nodeID := String.ofList (unquote literal) }
          [("is_coordinator".toList, .bool isCoord)] := by
        refine decodeMembers_field rfl ?_ _
        exact decodeField_eq rfl
    _ = decodeMembers healthFields ⟨true, String.ofList (unquote literal), isCoord⟩ [] := by
        refine decodeMembers_field rfl ?_ _
        exact decodeField_eq rfl
    _ = some ⟨true, String.ofList (unquote literal), isCoord⟩ := rfl

/-- **The reply decodes to what the node is**, if its id has no unreadable character. -/
theorem decodeStream_healthBody (beyond : Char → Bool) (nodeID : String) (isCoord : Bool) :
    decodeStream healthFields {} (healthBody beyond nodeID (true, isCoord)) =
      if nodeID.toList.any (isUnreadable beyond) then none else some ⟨true, nodeID, isCoord⟩ := by
  rw [decodeStream, parseFirst_healthBody]
  by_cases hbad : nodeID.toList.any (isUnreadable beyond) = true
  · rw [if_pos hbad, if_pos hbad, Option.bind_none]
  · rw [if_neg hbad, if_neg hbad, Option.bind_some]
    simp only [decodeStruct_health, unquote_quoteGo hbad, String.ofList_toList]

/-- What the API layer makes of the reply of a running node. -/
theorem ofBody_healthBody (beyond : Char → Bool) (nodeID : String) (isCoord : Bool) :
    HealthReply.ofBody (healthBody beyond nodeID (true, isCoord)) =
      if nodeID.toList.any (isUnreadable beyond) then .badResponse else .decoded true isCoord := by
  rw [HealthReply.ofBody, decodeStream_healthBody]
  by_cases hbad : nodeID.toList.any (isUnreadable beyond) = true
  · simp only [if_pos hbad]
  · simp only [if_neg hbad]

/-- **The health of a node on the dashboard.**  Whatever state a running node is in, the
dashboard shows it as healthy, and as the coordinator exactly if it is, provided its id has no
unreadable character; any other node it shows as unhealthy with a bad response. -/
theorem health_report (beyond : Char → Bool) (nodeID : String) (srv : CacheServer)
    (isLeader : Bool) (metrics : Option Text) :
    let status := fetchNodeHealth nodeID
      (.ofBody (healthBody beyond nodeID (srv.health isLeader))) metrics
    if nodeID.toList.any (isUnreadable beyond) then
      status = { nodeID := nodeID, error := "bad response" }
    else
      status.nodeID = nodeID ∧ status.healthy = true ∧ status.isCoordinator = isLeader ∧
        status.error = "" := by
  intro status
  have hreply : HealthReply.ofBody (healthBody beyond nodeID (srv.health isLeader)) =
      if nodeID.toList.any (isUnreadable beyond) then .badResponse else .decoded true isLeader :=
    ofBody_healthBody beyond nodeID isLeader
  by_cases hbad : nodeID.toList.any (isUnreadable beyond) = true
  · rw [if_pos hbad] at hreply ⊢
    simp only [status, hreply, fetchNodeHealth]
  · rw [if_neg hbad] at hreply ⊢
    simp only [status, hreply, fetchNodeHealth, true_and]
    cases metrics <;> rfl

/-! ## The dashboard of a deployed cluster -/

section Deployed

open Raft TransitionRuns

/-- What a node answers to the dashboard; `none` is a node that cannot be reached. -/
def answerOf (beyond : Char → Bool) (srv : CacheServer) (metrics : Option Text) :
    Option CacheNode → HealthReply × Option Text
  | none => (.unreachable, none)
  | some s =>
      (.ofBody (healthBody beyond s.process.node.id (srv.health s.coordinator.isLeader)), metrics)

/-- A node of which every answer says that it is no coordinator is shown as none. -/
theorem fetchNodeHealth_down (beyond : Char → Bool) (srv : CacheServer) (metrics : Option Text)
    {state : Option CacheNode} (hstate : ∀ s ∈ state, s.coordinator.isLeader = false)
    (nodeID : String) :
    (fetchNodeHealth nodeID (answerOf beyond srv metrics state).1
      (answerOf beyond srv metrics state).2).isCoordinator = false := by
  cases state with
  | none => rfl
  | some s =>
      have hreply := ofBody_healthBody beyond s.process.node.id false
      simp only [answerOf, CacheServer.health, hstate s rfl, hreply]
      split <;> rfl

/-- **The dashboard of a deployed cluster names no coordinator.**  Whatever nodes the ring
lists, whichever of them can be reached, and whatever runs the cache nodes have gone through
since `main` started them, the status names no coordinator and shows no node as one. -/
theorem deployed_status (beyond : Char → Bool) (srv : String → CacheServer)
    (metrics : String → Option Text) (state : String → Option CacheNode)
    (hstate : ∀ addr s, state addr = some s → ∃ nodeID grpcPort peers file evs,
      run deployedStep (startCacheNode nodeID grpcPort peers file) evs = some s)
    (nodeAddrs : GoMap String String) (nodes : List String) :
    let status := clusterStatus nodeAddrs
      (fun addr => answerOf beyond (srv addr) (metrics addr) (state addr)) nodes
    status.coordinator = "" ∧ ∀ n ∈ status.nodes, n.isCoordinator = false := by
  have hdown : ∀ addr, ∀ s ∈ state addr, s.coordinator.isLeader = false := by
    intro addr s hs
    obtain ⟨_, _, _, _, _, hrun⟩ := hstate addr s hs
    exact (deployed_flag hrun).2
  refine List.foldlRecOn (motive := fun resp : ClusterStatusResponse =>
      resp.coordinator = "" ∧ ∀ n ∈ resp.nodes, n.isCoordinator = false) nodes _
    ⟨rfl, by simp⟩ ?_
  intro resp hresp nodeID _
  unfold addNode
  cases nodeAddrs.lookup nodeID with
  | none =>
      refine ⟨hresp.1, ?_⟩
      intro n hn
      rcases List.mem_append.mp hn with hold | hnew
      · exact hresp.2 n hold
      · rw [List.mem_singleton.mp hnew]
  | some addr =>
      have hnode := fetchNodeHealth_down beyond (srv addr) (metrics addr) (hdown addr) nodeID
      simp only [hnode, Bool.false_eq_true, if_false]
      refine ⟨hresp.1, ?_⟩
      intro n hn
      rcases List.mem_append.mp hn with hold | hnew
      · exact hresp.2 n hold
      · rw [List.mem_singleton.mp hnew]
        exact hnode

/-- A node after two failed rounds. -/
theorem deployed_status_twoRounds :
    let state := run deployedStep
      (startCacheNode "node1" 9001 [⟨"node2", "node2:9002"⟩] none) twoRounds
    let status := clusterStatus ((∅ : GoMap String String).insert "node1" "localhost:9101")
      (fun _ => answerOf (fun _ => false)
        ⟨"node1", Cache.InMemoryCache.new 1 (Eviction.newPolicy .lru), {}⟩
        none state) ["node1"]
    state.isSome = true ∧ status.coordinator = "" := by
  intro state status
  refine ⟨by decide, ?_⟩
  exact (deployed_status (fun _ => false) (fun _ => _) (fun _ => none) (fun _ => state)
    (fun _ s hs => ⟨_, _, _, _, _, hs⟩) _ ["node1"]).1

end Deployed

end Api
