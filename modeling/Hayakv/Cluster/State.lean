import Hayakv.Cluster.Node
import Hayakv.Lib.GoMap
import Hayakv.Lib.Guarded

/-!
# The cluster state of a node

`clusterState` and its operations: slots added, deleted and assigned, nodes
forgotten, reset and replication (`state.go`), votes and the claim of a failed
master's slots (`failover.go`).

The source's pointers to nodes are node ids here: `self`, and the owner of each
slot. Both stand for the entry of `nodes` with that id. The tables of migrating
slots have no part in what is modelled and are left out.
-/

namespace Hayakv.Cluster

/-- A failover election on a replica. `votesReceived` lists the voters, each once. -/
structure FailoverState where
  active : Bool
  authTimeout : Int
  votesReceived : List Bytes
  votesNeeded : Nat
  reqEpoch : UInt64
  failedMasterID : Bytes
deriving DecidableEq, Repr

/-- The slot map and the nodes that a node knows. `failureReports` lists for each node those that report
its failure. -/
@[ext] structure ClusterState where
  self : Bytes
  nodes : GoMap Bytes ClusterNode
  slots : Nat → Option Bytes
  epoch : UInt64
  lastVoteEpoch : UInt64
  failureReports : Bytes → List Bytes
  failoverState : Option FailoverState

namespace ClusterState

/-- A node that starts; its id is random, and its epoch is a random number from 1 to 1000. -/
def newClusterState (id ip : Bytes) (port : Int64) (startEpoch : UInt64) : ClusterState where
  self := id
  nodes := (∅ : GoMap Bytes ClusterNode).set id
    { ClusterNode.newNode id ip port with flags := (ClusterNode.newNode id ip port).flags.set .myself }
  slots _ := none
  epoch := startEpoch
  lastVoteEpoch := 0
  failureReports _ := []
  failoverState := none

def modifyNode (s : ClusterState) (id : Bytes) (f : ClusterNode → ClusterNode) : ClusterState :=
  { s with nodes := s.nodes.modify id f }

theorem isSome_modifyNode {s : ClusterState} {id x : Bytes} {f : ClusterNode → ClusterNode} :
    ((s.modifyNode id f).nodes.get x).isSome = (s.nodes.get x).isSome := by
  rw [modifyNode, GoMap.get_modify, Option.isSome_map]

def setSlot (s : ClusterState) (slot : Nat) (owner : Option Bytes) : ClusterState :=
  { s with slots := Function.update s.slots slot owner }

/-- The node counts its epoch up and takes the new one as its config epoch. -/
def bumpEpoch (s : ClusterState) (id : Bytes) : ClusterState :=
  { s with epoch := s.epoch + 1 }.modifyNode id fun n => { n with configEpoch := s.epoch + 1 }

/-- A round of the loop of `addSlots`. -/
def addSlot (s : ClusterState) (slot : Nat) : ClusterState :=
  (s.setSlot slot (some s.self)).modifyNode s.self (·.addSlot slot)

def addSlots (s : ClusterState) (slots : List Nat) : ClusterState :=
  slots.foldl addSlot (if slots = [] then s else s.bumpEpoch s.self)

/-- A round of the loop of `delSlots`. -/
def delSlot (s : ClusterState) (slot : Nat) : ClusterState :=
  (if s.slots slot = some s.self then s.setSlot slot none else s).modifyNode s.self (·.delSlot slot)

def delSlots (s : ClusterState) (slots : List Nat) : ClusterState := slots.foldl delSlot s

/-- The slot goes to the node with this id; `none` if there is no such node. -/
def assignSlotToNode (s : ClusterState) (slot : Nat) (id : Bytes) : Option ClusterState :=
  match s.nodes.get id with
  | none => none
  | some _ =>
    let s := s.bumpEpoch id
    let s := match s.slots slot with
      | none => s
      | some old => s.modifyNode old (·.delSlot slot)
    some ((s.setSlot slot (some id)).modifyNode id (·.addSlot slot))

def forgetNode (s : ClusterState) (id : Bytes) : ClusterState :=
  match s.nodes.get id with
  | none => s
  | some _ =>
    { s with
      slots := fun slot => if s.slots slot = some id then none else s.slots slot
      nodes := s.nodes.delete id }

def reset (s : ClusterState) : ClusterState :=
  match s.nodes.get s.self with
  | none => s
  | some n =>
    { s with
      slots := fun _ => none
      nodes := (∅ : GoMap Bytes ClusterNode).set s.self n.clearSlots
      epoch := 0 }

/-- `none` if there is no such master. -/
def replicate (s : ClusterState) (masterID : Bytes) : Option ClusterState :=
  match s.nodes.get masterID with
  | none => none
  | some _ => some (s.modifyNode s.self fun n =>
      { n with flags := (n.flags.clear .master).set .slave, masterID := masterID })

/-! ## Failover -/

/-- Whether this master votes for a replica of a failed master in the epoch `reqEpoch`. -/
def grants (s : ClusterState) (replicaID failedMasterID : Bytes) (reqEpoch : UInt64) : Bool :=
  decide (s.epoch ≤ reqEpoch) && decide (s.lastVoteEpoch < reqEpoch) &&
    (s.nodes.get failedMasterID).any (·.flags.has .fail) &&
    (s.nodes.get replicaID).any (·.masterID = failedMasterID)

def grantVote (s : ClusterState) (replicaID failedMasterID : Bytes) (reqEpoch : UInt64) : ClusterState × Bool :=
  if s.grants replicaID failedMasterID reqEpoch then ({ s with lastVoteEpoch := reqEpoch }, true) else (s, false)

def masterCount (s : ClusterState) : Nat := s.nodes.count (·.flags.has .master)

/-- A vote for the running election is counted once for each voter. -/
def recordVote (s : ClusterState) (voterID : Bytes) (voteEpoch : UInt64) : ClusterState :=
  match s.failoverState with
  | none => s
  | some fs =>
    if fs.active ∧ voteEpoch = fs.reqEpoch ∧ voterID ∉ fs.votesReceived then
      { s with failoverState := some { fs with votesReceived := voterID :: fs.votesReceived } }
    else s

/-- A round of the loop of `claimOwnership`. -/
def claimSlot (failedMasterID : Bytes) (s : ClusterState) (slot : Nat) : ClusterState :=
  if (s.nodes.get failedMasterID).any (·.hasSlot slot) then
    ((s.modifyNode failedMasterID (·.delSlot slot)).setSlot slot (some s.self)).modifyNode s.self (·.addSlot slot)
  else s

def claimSlots (failedMasterID : Bytes) (s : ClusterState) : ClusterState :=
  allSlots.foldl (claimSlot failedMasterID) s

def promote (s : ClusterState) : ClusterState :=
  s.modifyNode s.self fun n =>
    { n with flags := (n.flags.clear .slave).set .master, masterID := [], configEpoch := s.epoch }

def stopElection (s : ClusterState) : ClusterState :=
  { s with failoverState := s.failoverState.map ({ · with active := false }) }

/-- A replica that has won becomes a master with the slots of the failed one. -/
def claimOwnership (s : ClusterState) (failedMasterID : Bytes) : ClusterState :=
  match s.nodes.get failedMasterID with
  | none => s
  | some _ => (claimSlots failedMasterID s.promote).stopElection

/-! ## Slots that change hands -/

/-- Slots have other owners, and nothing else has changed. -/
structure SlotsOnly (s t : ClusterState) : Prop where
  rest : t = { s with nodes := t.nodes, slots := t.slots }
  node : ∀ x, (t.nodes.get x).map (fun n => { n with slots := 0 }) = (s.nodes.get x).map fun n => { n with slots := 0 }

namespace SlotsOnly

variable {s t u : ClusterState}

theorem refl (s : ClusterState) : SlotsOnly s s := ⟨rfl, fun _ => rfl⟩

theorem trans (hst : SlotsOnly s t) (htu : SlotsOnly t u) : SlotsOnly s u := by
  refine ⟨htu.rest.trans ?_, fun x => (htu.node x).trans (hst.node x)⟩
  rw [hst.rest]

theorem map {β : Type} {g : ClusterNode → β} (h : SlotsOnly s t) (hg : ∀ n, g { n with slots := 0 } = g n) (x : Bytes) :
    (t.nodes.get x).map g = (s.nodes.get x).map g := by
  have hnode := congrArg (Option.map g) (h.node x)
  rw [Option.map_map, Option.map_map] at hnode
  exact (funext hg : g ∘ _ = g) ▸ hnode

theorem give (s : ClusterState) (id : Bytes) (slot : Nat) (owner : Option Bytes) :
    SlotsOnly s ((s.setSlot slot owner).modifyNode id (·.addSlot slot)) :=
  ⟨rfl, fun _ => GoMap.map_get_modify fun _ => rfl⟩

theorem take (s : ClusterState) (id : Bytes) (slot : Nat) : SlotsOnly s (s.modifyNode id (·.delSlot slot)) :=
  ⟨rfl, fun _ => GoMap.map_get_modify fun _ => rfl⟩

theorem foldl {f : ClusterState → Nat → ClusterState} (hf : ∀ s slot, SlotsOnly s (f s slot)) (s : ClusterState)
    (slots : List Nat) : SlotsOnly s (slots.foldl f s) :=
  foldl_invariant (fun t slot ht => ht.trans (hf t slot)) (refl s) slots

theorem claimSlots (failedMasterID : Bytes) (s : ClusterState) : SlotsOnly s (claimSlots failedMasterID s) := by
  refine foldl (fun t slot => ?_) s allSlots
  rw [claimSlot]
  split
  · exact (take t failedMasterID slot).trans (give ..)
  · exact refl t

end SlotsOnly

end ClusterState

end Hayakv.Cluster
