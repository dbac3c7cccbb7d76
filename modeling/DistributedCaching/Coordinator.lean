import DistributedCaching.HashRing

/-!
# The coordinator

`Coordinator` routes a key to the node that owns it on the ring.  It rejects
every request while its `isLeader` flag is down, and answers with a cache miss
while the owner is marked unavailable.
-/

namespace Cluster

open Go

/-- The availability of a cache node.  Probe times are recorded, and nothing
reads them. -/
structure NodeHealth where
  nodeID : String
  addr : String
  available : Bool
  deriving DecidableEq, Repr

/-- A node starts as available. -/
def newNodeHealth (nodeID addr : String) : NodeHealth :=
  { nodeID := nodeID, addr := addr, available := true }

/-- The error of `Route`. -/
inductive RouteError
  /-- `ErrNoCoordinator`. -/
  | noCoordinator
  deriving DecidableEq, Repr

structure RouteResult where
  nodeID : String
  addr : String
  deriving DecidableEq, Repr

structure Coordinator where
  ring : Ring
  health : GoMap String NodeHealth
  isLeader : Bool

def newCoordinator (ring : Ring) (nodeHealthMap : GoMap String NodeHealth) : Coordinator :=
  { ring := ring, health := nodeHealthMap, isLeader := false }

/-- `Route`.  An owner that is down is `available = false` without an error, here
`ok none`. -/
def Coordinator.route (c : Coordinator) (key : String) :
    Except RouteError (Option RouteResult) :=
  if !c.isLeader then .error .noCoordinator
  else
    match c.ring.get key with
    | none => .error .noCoordinator
    | some (nodeID, addr) =>
        match c.health.lookup nodeID with
        | none => .ok none
        | some nodeHealth =>
            if !nodeHealth.available then .ok none
            else .ok (some { nodeID := nodeID, addr := addr })

/-- `SetLeader`. -/
def Coordinator.setLeader (c : Coordinator) (isLeader : Bool) : Coordinator :=
  { c with isLeader := isLeader }

/-- `UpdateNodeHealth`. -/
def Coordinator.updateNodeHealth (c : Coordinator) (nodeID : String) (available : Bool) :
    Coordinator :=
  match c.health.lookup nodeID with
  | none => c
  | some nodeHealth =>
      { c with health := c.health.insert nodeID { nodeHealth with available := available } }

@[simp]
theorem isLeader_updateNodeHealth (c : Coordinator) (nodeID : String) (available : Bool) :
    (c.updateNodeHealth nodeID available).isLeader = c.isLeader := by
  unfold Coordinator.updateNodeHealth
  split <;> rfl

@[simp]
theorem ring_updateNodeHealth (c : Coordinator) (nodeID : String) (available : Bool) :
    (c.updateNodeHealth nodeID available).ring = c.ring := by
  unfold Coordinator.updateNodeHealth
  split <;> rfl

/-- **When a request is rejected**: by a coordinator that is not the leader, or
on an empty ring. -/
theorem route_eq_noCoordinator {c : Coordinator} {key : String} :
    c.route key = .error .noCoordinator ↔ c.isLeader = false ∨ c.ring.get key = none := by
  unfold Coordinator.route
  cases hleader : c.isLeader with
  | false => simp
  | true =>
      cases hget : c.ring.get key with
      | none => simp
      | some owner =>
          obtain ⟨nodeID, addr⟩ := owner
          dsimp only
          cases hhealth : c.health.lookup nodeID with
          | none => simp
          | some nodeHealth => cases havail : nodeHealth.available <;> simp [havail]

end Cluster
