import DistributedCaching.CacheServer
import DistributedCaching.FormatScanner

/-!
# The metrics of a node on the dashboard

A cache node writes its counters as text at `/metrics`, and the API layer scans the text
for the cluster status.  The format of the scan has `%*s` for the name of the node, which
in Go is the verb `*`: integers do not have it, so the scan stores nothing, and the
status shows zeros for every text (`fetchNodeStats_counts`).  The counters therefore
survive the way exactly if they are zero (`node_metrics_iff`).

The four lines of the counters themselves are read back by the part of the format that
is about them (`counterLines_read`).
-/

/-! ## The node -/

namespace Cluster

open Go

def counterLines (s : Stats) : Text :=
  numberLine "cache_hits".toList s.hits ++ numberLine "cache_misses".toList s.misses ++
    numberLine "cache_evictions".toList s.evictions ++ numberLine "cache_entries".toList s.entries

/-- The body that the handler of `/metrics` writes. -/
def metricsBody (nodeID : String) (s : Stats) : Text :=
  "# cache stats for ".toList ++ nodeID.toList ++ " (policy=".toList ++ s.policyName.toList ++
    ")\n".toList ++ counterLines s

end Cluster

/-! ## The API layer -/

namespace Api

open Go

structure NodeStatus where
  nodeID : String := ""
  healthy : Bool := false
  isCoordinator : Bool := false
  entryCount : Int := 0
  hitCount : Int := 0
  missCount : Int := 0
  evictionCount : Int := 0
  error : String := ""
  deriving DecidableEq, Repr

/-- The items about the counters. -/
def counterFormat : List FormatItem :=
  numberLineFormat "cache_hits".toList ++ numberLineFormat "cache_misses".toList ++
    numberLineFormat "cache_evictions".toList ++ numberLineFormat "cache_entries".toList

/-- The items before the name of the node. -/
def headerFormat : List FormatItem :=
  "#".toList.map .literal ++ .spaces 0 true :: "cache".toList.map .literal ++
    .spaces 0 true :: "stats".toList.map .literal ++ .spaces 0 true ::
    "for".toList.map .literal ++ [.spaces 0 true]

/-- The text of the format that `fetchNodeStats` scans with. -/
def scanText : Text :=
  "# cache stats for %*s\ncache_hits %d\ncache_misses %d\ncache_evictions %d\ncache_entries %d\n".toList

theorem parse_scanText :
    FormatItem.parse scanText =
      some (headerFormat ++ .badVerb '*' :: .literal 's' :: .spaces 1 false :: counterFormat) := by
  decide +kernel

def nodeStatsFormat : List FormatItem :=
  (FormatItem.parse scanText).get (Option.isSome_of_eq_some parse_scanText)

theorem nodeStatsFormat_eq :
    nodeStatsFormat =
      headerFormat ++ .badVerb '*' :: .literal 's' :: .spaces 1 false :: counterFormat :=
  Option.get_of_eq_some _ parse_scanText

/-- `fetchNodeStats`; there is no body if the request fails.  A variable that the scan does
not reach keeps its zero. -/
def fetchNodeStats (nodeID : String) (body : Option Text) : NodeStatus :=
  match body with
  | none => { nodeID := nodeID }
  | some body =>
      let scanned := scanf nodeStatsFormat 4 body
      { nodeID := nodeID
        hitCount := scanned.getD 0 0
        missCount := scanned.getD 1 0
        evictionCount := scanned.getD 2 0
        entryCount := scanned.getD 3 0 }

/-- How the request to `/health` of a node ends. -/
inductive HealthReply
  | noRequest (err : String)
  | unreachable
  | badResponse
  | decoded (healthy isCoordinator : Bool)

/-- `fetchNodeHealth`, with the reply to `/health` and the body of `/metrics`. -/
def fetchNodeHealth (nodeID : String) (health : HealthReply) (metrics : Option Text) :
    NodeStatus :=
  match health with
  | .noRequest err => { nodeID := nodeID, error := err }
  | .unreachable => { nodeID := nodeID, error := "unreachable" }
  | .badResponse => { nodeID := nodeID, error := "bad response" }
  | .decoded healthy isCoordinator =>
      { fetchNodeStats nodeID metrics with
        nodeID := nodeID, healthy := healthy, isCoordinator := isCoordinator }

structure ClusterStatusResponse where
  nodes : List NodeStatus := []
  coordinator : String := ""
  deriving DecidableEq, Repr

/-- One iteration of `ClusterStatus`; `answer` is what the node at an address replies. -/
def addNode (nodeAddrs : GoMap String String) (answer : String → HealthReply × Option Text)
    (resp : ClusterStatusResponse) (nodeID : String) : ClusterStatusResponse :=
  match nodeAddrs.lookup nodeID with
  | none =>
      { resp with nodes := resp.nodes ++ [{ nodeID := nodeID, error := "address not configured" }] }
  | some httpAddr =>
      let status := fetchNodeHealth nodeID (answer httpAddr).1 (answer httpAddr).2
      { nodes := resp.nodes ++ [status]
        coordinator := if status.isCoordinator then nodeID else resp.coordinator }

/-- `ClusterStatus`, with the nodes of the ring. -/
def clusterStatus (nodeAddrs : GoMap String String)
    (answer : String → HealthReply × Option Text) (nodes : List String) : ClusterStatusResponse :=
  nodes.foldl (addNode nodeAddrs answer) {}

/-! ## What the scan reads -/

/-- **The lines of the counters are read back** by the items about them. -/
theorem counterLines_read (s : Cluster.Stats)
    (hrange : ∀ n ∈ [s.hits, s.misses, s.evictions, s.entries], -2 ^ 63 ≤ n ∧ n < 2 ^ 63) :
    scanf counterFormat 4 (Cluster.counterLines s) =
      [s.hits, s.misses, s.evictions, s.entries] := by
  simp only [List.mem_cons, List.not_mem_nil, or_false, forall_eq_or_imp, forall_eq] at hrange
  obtain ⟨hhits, hmisses, hevictions, hentries⟩ := hrange
  have hend : scanf (numberLineFormat "cache_entries".toList ++ []) 1
      (numberLine "cache_entries".toList s.entries ++ []) = [s.entries] :=
    scanf_line _ hentries.1 hentries.2 []
  rw [List.append_nil, List.append_nil] at hend
  simp only [counterFormat, Cluster.counterLines, List.append_assoc]
  rw [scanf_line _ hhits.1 hhits.2, scanf_line _ hmisses.1 hmisses.2,
    scanf_line _ hevictions.1 hevictions.2, hend]

/-- **The scan assigns nothing**: it stops at the verb that there is not. -/
theorem scanf_nodeStatsFormat (operands : Nat) (body : Text) :
    scanf nodeStatsFormat operands body = [] := by
  rw [nodeStatsFormat_eq]
  exact scanf_stops_at_badVerb headerFormat (by decide) '*' _ operands body

/-- The counts of a status. -/
def NodeStatus.counts (s : NodeStatus) : List Int :=
  [s.hitCount, s.missCount, s.evictionCount, s.entryCount]

/-- **Whatever the body is, the counts are zero.** -/
theorem fetchNodeStats_counts (nodeID : String) (body : Option Text) :
    (fetchNodeStats nodeID body).counts = [0, 0, 0, 0] := by
  cases body with
  | none => rfl
  | some body =>
      simp only [fetchNodeStats, scanf_nodeStatsFormat]
      rfl

/-- Whatever a node answers, its counts are zero. -/
theorem fetchNodeHealth_counts (nodeID : String) (health : HealthReply) (metrics : Option Text) :
    (fetchNodeHealth nodeID health metrics).counts = [0, 0, 0, 0] := by
  cases health with
  | noRequest err => rfl
  | unreachable => rfl
  | badResponse => rfl
  | decoded healthy isCoordinator => exact fetchNodeStats_counts nodeID metrics

/-- **The dashboard shows zeros** for every node of every cluster. -/
theorem clusterStatus_counts (nodeAddrs : GoMap String String)
    (answer : String → HealthReply × Option Text) (nodes : List String) :
    ∀ s ∈ (clusterStatus nodeAddrs answer nodes).nodes, s.counts = [0, 0, 0, 0] := by
  have hstep : ∀ resp : ClusterStatusResponse, (∀ s ∈ resp.nodes, s.counts = [0, 0, 0, 0]) →
      ∀ nodeID, ∀ s ∈ (addNode nodeAddrs answer resp nodeID).nodes,
        s.counts = [0, 0, 0, 0] := by
    intro resp hresp nodeID s hs
    unfold addNode at hs
    split at hs
    · cases List.mem_append.mp hs with
      | inl hold => exact hresp s hold
      | inr hnew => exact List.mem_singleton.mp hnew ▸ rfl
    · cases List.mem_append.mp hs with
      | inl hold => exact hresp s hold
      | inr hnew => exact List.mem_singleton.mp hnew ▸ fetchNodeHealth_counts _ _ _
  refine List.foldlRecOn (motive := fun resp => ∀ s ∈ resp.nodes, s.counts = [0, 0, 0, 0])
    nodes (addNode nodeAddrs answer) (b := {}) (fun s hs => absurd hs List.not_mem_nil) ?_
  intro resp hresp nodeID _
  exact hstep resp hresp nodeID

/-- **When the metrics of a node arrive**: exactly if all the counters are zero. -/
theorem node_metrics_iff (nodeID : String) (s : Cluster.Stats) :
    (fetchNodeStats nodeID (some (Cluster.metricsBody nodeID s))).counts =
        [s.hits, s.misses, s.evictions, s.entries] ↔
      s.hits = 0 ∧ s.misses = 0 ∧ s.evictions = 0 ∧ s.entries = 0 := by
  rw [fetchNodeStats_counts]
  simp only [List.cons.injEq, and_true, eq_comm]

/-- **One hit is lost.** -/
theorem node_metrics_lost :
    let s : Cluster.Stats :=
      { hits := 1, misses := 0, evictions := 0, entries := 0, policyName := "lru" }
    (fetchNodeStats "node1" (some (Cluster.metricsBody "node1" s))).hitCount = 0 ∧
      (fetchNodeStats "node1" (some (Cluster.metricsBody "node1" s))).hitCount ≠ s.hits := by
  intro s
  have hcounts := fetchNodeStats_counts "node1" (some (Cluster.metricsBody "node1" s))
  have hzero : (fetchNodeStats "node1" (some (Cluster.metricsBody "node1" s))).hitCount = 0 :=
    (List.cons.inj hcounts).1
  exact ⟨hzero, by rw [hzero]; decide⟩

end Api
