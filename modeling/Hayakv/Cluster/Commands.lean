import Hayakv.Cluster.Conf
import Hayakv.Cluster.Gossip
import Hayakv.Engine.State

/-!
# A node of the cluster and what happens to it

The CLUSTER commands that change the state of a node (`commands.go`), the ticks of
its ping loop (`failure.go`, `checkFailoverTick`), the messages it receives, and its
start from `nodes.conf`. Each is an event, in which the state is changed at once.
`slotRows` is the reply of CLUSTER SLOTS.
-/

namespace Hayakv.Cluster

open Engine (Reply)

def argNumErr (cmd : String) : Reply := .error s!"ERR wrong number of arguments for '{cmd}' command"

def parseSlot (arg : Bytes) : Except Reply Nat :=
  match parseInt arg with
  | some v => if 0 ≤ v ∧ v < slotCount then .ok v.toNat else .error (.error "ERR Invalid or out of range slot")
  | none => .error (.error "ERR Invalid or out of range slot")

namespace ClusterState

/-- A slot that is to be added must not have an owner. -/
def checkBusy (s : ClusterState) (add : Bool) (slot : Nat) : Except Reply Nat :=
  if add ∧ (s.slots slot).isSome then .error (.err ("ERR Slot " ++ itoa slot ++ " is already busy"))
  else .ok slot

def slotArgs (s : ClusterState) (add : Bool) (args : List Bytes) : Except Reply (List Nat) :=
  args.mapM fun arg => parseSlot arg >>= s.checkBusy add

def rangeArgs (s : ClusterState) (add : Bool) : List Bytes → Except Reply (List Nat)
  | lo :: hi :: args => do
    let lo ← parseSlot lo
    let hi ← parseSlot hi
    if lo > hi then throw (.error "ERR start slot number greater than end slot number")
    let slots ← (List.range' lo (hi + 1 - lo)).mapM (s.checkBusy add)
    return slots ++ (← s.rangeArgs add args)
  | _ => return []

/-- The end of ADDSLOTS, DELSLOTS and their ranges. -/
def addDel (s : ClusterState) (add : Bool) (slots : List Nat) : ClusterState :=
  if add then s.addSlots slots else s.delSlots slots

def addDelSlots (s : ClusterState) (add : Bool) (args : List Bytes) : Except Reply ClusterState := do
  if args = [] then throw (argNumErr "cluster")
  return s.addDel add (← s.slotArgs add args)

def addDelSlotsRange (s : ClusterState) (add : Bool) (args : List Bytes) : Except Reply ClusterState := do
  if args = [] ∨ args.length % 2 ≠ 0 then throw (argNumErr "cluster")
  return s.addDel add (← s.rangeArgs add args)

def unknownNode (id : Bytes) : Reply := .err ("ERR Unknown node " ++ id)

/-- SETSLOT. STABLE, IMPORTING and MIGRATING change the tables of migrations only. -/
def setSlotCommand (s : ClusterState) : List Bytes → Except Reply ClusterState
  | slot :: mode :: args => do
    let slot ← parseSlot slot
    let mode := toUpper mode
    if mode = "STABLE" then return s
    else if mode = "NODE" then
      match args with
      | [id] => match s.assignSlotToNode slot id with
        | some s => return s
        | none => throw (unknownNode id)
      | _ => throw (argNumErr "cluster|setslot")
    else if mode = "IMPORTING" ∨ mode = "MIGRATING" then
      match args with
      | [id] => if (s.nodes.get id).isSome then return s else throw (unknownNode id)
      | _ => throw (argNumErr "cluster|setslot")
    else throw (.error "ERR Invalid CLUSTER SETSLOT action or number of arguments")
  | _ => throw (argNumErr "cluster|setslot")

/-- The node at `ip` has answered a MEET with the message `m`. -/
def meet (s : ClusterState) (ip : Bytes) (port cport : Int64) (m : Message) : ClusterState :=
  let id := m.header.senderID
  let s :=
    if s.nodes.get id = none ∧ id ≠ [] then
      { s with nodes := s.nodes.set id { id, ip, port, cport, flags := Flags.set 0 .master, linkUp := true } }
    else s
  s.mergeFromMessage { m with senderIP := ip }

/-- The bus port of MEET: the third argument if it is a number, else the port and 10000. -/
def busPort (port : Int) : List Bytes → Except Reply Int
  | cport :: _ => .ok ((parseInt cport).getD (port + 10000))
  | [] =>
    if port + 10000 > 65535 then
      .error (.error ("ERR Invalid bus port: derived cport exceeds 65535; " ++
        "pass an explicit cport as the third argument"))
    else .ok (port + 10000)

/-- MEET; `answer` is the message that comes back, or the error of the connection. -/
def meetCommand (s : ClusterState) (answer : Except Bytes Message) : List Bytes → Except Reply ClusterState
  | ip :: port :: args =>
    match parseInt port with
    | none => .error (.error "ERR Invalid port")
    | some port => do
      let cport ← busPort port args
      match answer with
      | .ok m => return s.meet ip (.ofInt port) (.ofInt cport) m
      | .error e => throw (.err ("ERR " ++ e))
  | _ => .error (argNumErr "cluster|meet")

def forgetCommand (s : ClusterState) : List Bytes → Except Reply ClusterState
  | [id] => if id = s.self then throw (.error "ERR I tried hard but I can't forget myself...")
    else return s.forgetNode id
  | _ => throw (argNumErr "cluster|forget")

def replicateCommand (s : ClusterState) : List Bytes → Except Reply ClusterState
  | [id] => match s.replicate id with
    | some s => return s
    | none => throw (unknownNode id)
  | _ => throw (argNumErr "cluster|replicate")

def masterIDOf (s : ClusterState) : Bytes := ((s.nodes.get s.self).map (·.masterID)).getD []

/-- FAILOVER; TAKEOVER and FORCE do the same. -/
def handleFailover (s : ClusterState) (args : List Bytes) : Except Reply ClusterState := do
  if !s.selfHas .slave then throw (.error "ERR You should send CLUSTER FAILOVER to a replica")
  let mode := (args.head?.map toUpper).getD "default"
  if mode = "TAKEOVER" ∨ mode = "FORCE" then return (s.bumpEpoch s.self).claimOwnership s.masterIDOf
  else if (s.nodes.get s.masterIDOf).any (·.flags.has .fail) then return s.claimOwnership s.masterIDOf
  else throw (.error "ERR Master is not down or FAIL state")

/-! ## Ticks -/

/-- A round of the loop of `markPFailIfTimedOut`. -/
def markPFail (s : ClusterState) (id : Bytes) (now timeout : Int64) : ClusterState :=
  match s.nodes.get id with
  | none => s
  | some n =>
    if id ≠ s.self ∧ n.flags.has .fail = false ∧ 0 < n.pongRecv ∧ timeout < now - n.pongRecv then
      (s.modifyNode id fun n => { n with flags := n.flags.set .pfail }).addReport id s.self
    else s

def hasQuorum (s : ClusterState) (id : Bytes) : Bool :=
  s.masterCount / 2 + 1 ≤ ((s.failureReports id).filter fun r => r ≠ [] ∧ (s.nodes.get r).any (·.flags.has .master)).length

def markNodeFail (s : ClusterState) (id : Bytes) : ClusterState :=
  match s.nodes.get id with
  | none => s
  | some n =>
    if n.flags.has .fail = false ∧ s.hasQuorum id then
      s.modifyNode id fun n => { n with flags := (n.flags.clear .pfail).set .fail }
    else s

def masterFailed (s : ClusterState) : Bool :=
  s.selfHas .slave && s.masterIDOf ≠ [] && (s.nodes.get s.masterIDOf).any (·.flags.has .fail)

def wins (s : ClusterState) : Bool :=
  s.masterFailed && s.failoverState.any fun fs => fs.active && decide (fs.votesNeeded ≤ fs.votesReceived.length)

/-- A running election that has not been won ends at its deadline. -/
def endElection (s : ClusterState) (now : Int) : ClusterState :=
  if s.masterFailed then
    { s with
      failoverState := s.failoverState.map fun fs =>
        if fs.authTimeout < now then { fs with active := false } else fs }
  else s

def startElection (s : ClusterState) (failedMasterID : Bytes) (now : Int) : ClusterState :=
  { s with
    epoch := s.epoch + 1
    failoverState := some
      { active := true, authTimeout := now + 2000, votesReceived := [], votesNeeded := s.masterCount / 2 + 1
        reqEpoch := s.epoch + 1, failedMasterID } }

end ClusterState

/-! ## Events -/

/-- The CLUSTER commands that change the state. -/
inductive Admin where
  | addSlots (args : List Bytes)
  | delSlots (args : List Bytes)
  | addSlotsRange (args : List Bytes)
  | delSlotsRange (args : List Bytes)
  | setSlot (args : List Bytes)
  | meet (args : List Bytes) (answer : Except Bytes Message)
  | forget (args : List Bytes)
  | reset
  | replicate (args : List Bytes)
  | failover (args : List Bytes)
  | bumpEpoch

/-- The state after a command, or its error. -/
def ClusterState.handleAdmin (s : ClusterState) : Admin → Except Reply ClusterState
  | .addSlots args => s.addDelSlots true args
  | .delSlots args => s.addDelSlots false args
  | .addSlotsRange args => s.addDelSlotsRange true args
  | .delSlotsRange args => s.addDelSlotsRange false args
  | .setSlot args => s.setSlotCommand args
  | .meet args answer => s.meetCommand answer args
  | .forget args => s.forgetCommand args
  | .reset => .ok s.reset
  | .replicate args => s.replicateCommand args
  | .failover args => s.handleFailover args
  | .bumpEpoch => .ok (s.bumpEpoch s.self)

/-- What happens to a node. Where a node saves its state, `order` is the order of the loop over its nodes. -/
inductive Event where
  | start (id ip : Bytes) (port : Int64) (startEpoch : UInt64) (order : GoMap.Order Bytes ClusterNode)
  | admin (cmd : Admin) (order : GoMap.Order Bytes ClusterNode)
  | message (m : Message)
  | pong (m : Message)
  | markPFail (id : Bytes) (now timeout : Int64)
  | markNodeFail (id : Bytes)
  | checkElection (now : Int) (order : GoMap.Order Bytes ClusterNode)
  | startElection (failedMasterID : Bytes) (now : Int)

/-- A node: its state while it runs, and its file. A node whose file `load` cannot make a state of does not
run. -/
structure Process where
  state : Option ClusterState
  conf : Option Bytes

namespace Process

def new : Process := ⟨none, none⟩

def saved (s : ClusterState) (order : GoMap.Order Bytes ClusterNode) : Process :=
  ⟨some s, some (s.save (order.keys s.nodes))⟩

/-- The state that a process starts with: what it reads from its file, if it has one. -/
def loaded (p : Process) (fresh : ClusterState) : Option ClusterState :=
  match p.conf with
  | none => some fresh
  | some text => fresh.load text

def step (p : Process) : Event → Process
  | .start id ip port startEpoch order =>
    match p.loaded (ClusterState.newClusterState id ip port startEpoch) with
    | some s => saved s order
    | none => { p with state := none }
  | .admin cmd order =>
    match p.state with
    | none => p
    | some s =>
      match s.handleAdmin cmd with
      -- MEET does not save
      | .ok s' => match cmd with
        | .meet _ _ => { p with state := some s' }
        | _ => saved s' order
      | .error _ => p
  | .message m => { p with state := p.state.map (·.handleConn m) }
  | .pong m => { p with state := p.state.map (·.mergeFromMessage m) }
  | .markPFail id now timeout => { p with state := p.state.map (·.markPFail id now timeout) }
  | .markNodeFail id => { p with state := p.state.map (·.markNodeFail id) }
  | .checkElection now order =>
    match p.state with
    | none => p
    | some s =>
      if s.wins then saved (s.claimOwnership s.masterIDOf) order else { p with state := some (s.endElection now) }
  | .startElection failedMasterID now => { p with state := p.state.map (·.startElection failedMasterID now) }

def run (p : Process) (events : List Event) : Process := events.foldl step p

end Process

/-! ## CLUSTER SLOTS -/

structure SlotRow where
  start : Nat
  stop : Nat
  ip : Bytes
  port : Int64
  id : Bytes
deriving DecidableEq

def ClusterNode.rows (n : ClusterNode) : List SlotRow := n.slotRanges.map fun r => ⟨r.1, r.2, n.ip, n.port, n.id⟩

def ClusterState.slotRows (s : ClusterState) (order : List Bytes) : List SlotRow :=
  order.flatMap fun id => ((s.nodes.get id).map (·.rows)).getD []

def SlotRow.covers (r : SlotRow) (slot : Nat) : Bool := r.start ≤ slot && slot ≤ r.stop

end Hayakv.Cluster
