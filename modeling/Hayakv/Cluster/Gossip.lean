import Hayakv.Cluster.State

/-!
# Messages of the cluster bus

What a message does to the state of the node that receives it (`mergeFromMessage`
in `gossip.go`): the sender's entry takes the fields of the header, the sender
takes over slots from owners of a lower config epoch, and the gossip section adds
nodes and marks failures.

The epoch of the sender's entry is overwritten whatever it was. So the recorded
epochs do not decrease along a sequence of messages if and only if no message is
older than what is recorded for its sender (`notDecreased_run_iff`).
-/

namespace Hayakv.Cluster

open Option List

inductive MsgType where
  | ping | pong | meet | fail | failoverAuthRequest | failoverAuthAck | publishShard
  | unknown (type : UInt16)
deriving DecidableEq, Repr

/-- The header of a message, without its lengths and the version, which no handler reads. -/
structure ClusterMsgHeader where
  msgType : MsgType
  currentEpoch : UInt64
  configEpoch : UInt64
  port : UInt32
  cport : UInt32
  flags : Flags
  senderID : Bytes
  slots : BitVec slotCount
deriving DecidableEq

structure GossipEntry where
  id : Bytes
  ip : Bytes := []
  port : UInt32 := 0
  cport : UInt32 := 0
  flags : Flags := 0
deriving DecidableEq

/-- A message as it is received: from the address `senderIP`, at the time `now`. -/
structure Message where
  header : ClusterMsgHeader
  entries : List GossipEntry
  senderIP : Bytes
  now : Int64
deriving DecidableEq

structure Packet where
  header : ClusterMsgHeader
  entries : List GossipEntry
deriving DecidableEq

def Packet.received (m : Packet) (senderIP : Bytes) (now : Int64) : Message := ⟨m.header, m.entries, senderIP, now⟩

def ClusterNode.gossipEntry (n : ClusterNode) : GossipEntry where
  id := n.id
  ip := n.ip
  port := n.port.toUInt64.toUInt32
  cport := n.cport.toUInt64.toUInt32
  flags := n.flags

def maxGossip : Nat := 3

namespace ClusterState

def selfNode (s : ClusterState) : ClusterNode := (s.nodes.get s.self).getD { id := s.self }

def header (s : ClusterState) (msgType : MsgType) (configEpoch : UInt64) : ClusterMsgHeader where
  msgType
  currentEpoch := s.epoch
  configEpoch
  port := s.selfNode.port.toUInt64.toUInt32
  cport := s.selfNode.cport.toUInt64.toUInt32
  flags := s.selfNode.flags
  senderID := s.self
  slots := s.selfNode.slots

def others (s : ClusterState) (order : GoMap.Order Bytes ClusterNode) : List ClusterNode :=
  ((order.keys s.nodes).filterMap s.nodes.get).filter (·.id ≠ s.self)

/-- The message of a node; the gossip section names failed nodes first. There are two loops over the
nodes. -/
def buildMessage (s : ClusterState) (msgType : MsgType) (order₁ order₂ : GoMap.Order Bytes ClusterNode) : Packet where
  header := s.header msgType s.selfNode.configEpoch
  entries :=
    let failed := ((s.others order₁).filter (·.flags.has .fail)).take maxGossip
    let rest := (s.others order₂).filter (!·.flags.has .fail)
    ((failed ++ rest).take maxGossip).map ClusterNode.gossipEntry

/-- The AUTH_ACK for a vote: the epoch of the election stands in the place of the config epoch, and the
gossip section names the candidate. -/
def authAck (s : ClusterState) (replicaID : Bytes) (reqEpoch : UInt64) : Packet where
  header := s.header .failoverAuthAck reqEpoch
  entries := [{ id := replicaID }]

/-- The node `reporterID` says that the node fails. -/
def addReport (s : ClusterState) (nodeID reporterID : Bytes) : ClusterState :=
  { s with
    failureReports := Function.update s.failureReports nodeID
      (if reporterID ∈ s.failureReports nodeID then s.failureReports nodeID
      else reporterID :: s.failureReports nodeID) }

def takeSlot (s : ClusterState) (senderID : Bytes) (slot : Nat) : ClusterState :=
  (s.setSlot slot (some senderID)).modifyNode senderID (·.addSlot slot)

def adoptSlot (h : ClusterMsgHeader) (s : ClusterState) (slot : Nat) : ClusterState :=
  if h.slots.getLsbD slot = true ∧ s.slots slot ≠ some h.senderID then
    match s.slots slot with
    | none => s.takeSlot h.senderID slot
    | some id =>
      match s.nodes.get id with
      | none => s.takeSlot h.senderID slot
      | some old =>
        if h.configEpoch ≤ old.configEpoch then s
        else (s.modifyNode id (·.delSlot slot)).takeSlot h.senderID slot
  else s

def updateSender (m : Message) (n : ClusterNode) : ClusterNode :=
  { n with
    port := .ofNat m.header.port.toNat, cport := .ofNat m.header.cport.toNat, configEpoch := m.header.configEpoch
    pongRecv := m.now, linkUp := true, ip := if n.ip = [] ∧ m.senderIP ≠ [] then m.senderIP else n.ip }

/-- An unknown sender becomes a known node. -/
def meetSender (s : ClusterState) (senderID : Bytes) : ClusterState :=
  if s.nodes.get senderID = none ∧ senderID ≠ [] ∧ senderID ≠ s.self then
    { s with nodes := s.nodes.set senderID { id := senderID, flags := Flags.set 0 .master, linkUp := true } }
  else s

def mergeHeader (s : ClusterState) (m : Message) : ClusterState :=
  let s := s.meetSender m.header.senderID
  if (s.nodes.get m.header.senderID).isSome then
    allSlots.foldl (adoptSlot m.header) (s.modifyNode m.header.senderID (updateSender m))
  else s

def mergeEntry (senderID : Bytes) (s : ClusterState) (e : GossipEntry) : ClusterState :=
  if e.id = [] ∨ e.id = s.self then s
  else match s.nodes.get e.id with
    | none =>
      { s with
        nodes := s.nodes.set e.id
          { id := e.id, ip := e.ip, port := .ofNat e.port.toNat, cport := .ofNat e.cport.toNat, flags := e.flags
            linkUp := true } }
    | some node =>
      if e.flags.has .fail then
        s.modifyNode e.id fun n => { n with flags := (n.flags.clear .pfail).set .fail }
      else if e.flags.has .pfail ∧ node.flags.has .fail = false then
        (s.modifyNode e.id fun n => { n with flags := n.flags.set .pfail }).addReport e.id senderID
      else s

def mergeFromMessage (s : ClusterState) (m : Message) : ClusterState :=
  let s := if s.epoch < m.header.currentEpoch then { s with epoch := m.header.currentEpoch } else s
  m.entries.foldl (mergeEntry m.header.senderID) (s.mergeHeader m)

def selfHas (s : ClusterState) (f : NodeFlag) : Bool := (s.nodes.get s.self).any (·.flags.has f)

/-- A master that is asked for its vote by a replica; the result says whether it votes. -/
def handleAuthRequest (s : ClusterState) (h : ClusterMsgHeader) : ClusterState × Bool :=
  let masterID := ((s.nodes.get h.senderID).map (·.masterID)).getD []
  if s.selfHas .master ∧ masterID ≠ [] then s.grantVote h.senderID masterID h.currentEpoch else (s, false)

/-- A replica that gets a vote, if the gossip section names it. -/
def handleAuthAck (s : ClusterState) (h : ClusterMsgHeader) (entries : List GossipEntry) : ClusterState :=
  if s.selfHas .slave ∧ s.self ∈ entries.map (·.id) then s.recordVote h.senderID h.configEpoch else s

def handleConn (s : ClusterState) (m : Message) : ClusterState :=
  let s := s.mergeFromMessage m
  match m.header.msgType with
  | .failoverAuthRequest => (s.handleAuthRequest m.header).1
  | .failoverAuthAck => s.handleAuthAck m.header m.entries
  | _ => s

theorem handleAuthRequest_eq (s : ClusterState) (h : ClusterMsgHeader) :
    ∃ lastVoteEpoch, (s.handleAuthRequest h).1 = { s with lastVoteEpoch } := by
  unfold handleAuthRequest grantVote
  dsimp only
  split
  · split <;> exact ⟨_, rfl⟩
  · exact ⟨_, rfl⟩

theorem handleAuthAck_eq (s : ClusterState) (h : ClusterMsgHeader) (entries : List GossipEntry) :
    ∃ failoverState, s.handleAuthAck h entries = { s with failoverState } := by
  unfold handleAuthAck recordVote
  split
  · split
    · exact ⟨_, rfl⟩
    · split <;> exact ⟨_, rfl⟩
  · exact ⟨_, rfl⟩

theorem handleConn_eq (s : ClusterState) (m : Message) : ∃ lastVoteEpoch failoverState,
    s.handleConn m = { s.mergeFromMessage m with lastVoteEpoch, failoverState } := by
  obtain ⟨lastVoteEpoch, hrequest⟩ := handleAuthRequest_eq (s.mergeFromMessage m) m.header
  obtain ⟨failoverState, hack⟩ := handleAuthAck_eq (s.mergeFromMessage m) m.header m.entries
  unfold handleConn
  split
  · exact ⟨_, _, hrequest⟩
  · exact ⟨_, _, hack⟩
  · exact ⟨_, _, rfl⟩

/-! ## Recorded epochs -/

def epochOf (s : ClusterState) (id : Bytes) : Option UInt64 := (s.nodes.get id).map (·.configEpoch)

def ownerEpoch (s : ClusterState) (slot : Nat) : Option UInt64 := (s.slots slot).bind s.epochOf

/-- No recorded epoch of a peer, and none of the owner of a slot, has decreased from `s` to `t`. -/
structure NotDecreased (s t : ClusterState) : Prop where
  peer : ∀ id e, id ≠ s.self → s.epochOf id = some e → ∃ e', t.epochOf id = some e' ∧ e ≤ e'
  owner : ∀ slot e, s.ownerEpoch slot = some e → ∃ e', t.ownerEpoch slot = some e' ∧ e ≤ e'

/-- What is recorded for the sender of the message, if it is a peer or owns slots, is not newer than the
message. -/
def Current (s : ClusterState) (m : Message) : Prop :=
  (m.header.senderID ≠ s.self ∨ ∃ slot, s.slots slot = some s.self) →
    ∀ e, s.epochOf m.header.senderID = some e → e ≤ m.header.configEpoch

variable {s t u : ClusterState} {m : Message}

theorem epochOf_modifyNode {id : Bytes} {f : ClusterNode → ClusterNode}
    (hf : ∀ n, (f n).configEpoch = n.configEpoch) : (s.modifyNode id f).epochOf = s.epochOf := by
  funext x
  exact GoMap.map_get_modify hf

theorem SlotsOnly.adoptSlot (h : ClusterMsgHeader) (s : ClusterState) (slot : Nat) :
    SlotsOnly s (adoptSlot h s slot) := by
  rw [ClusterState.adoptSlot]
  split
  · split
    · exact give ..
    split
    · exact give ..
    · split
      · exact refl s
      · exact (take s _ slot).trans (give ..)
  · exact refl s

/-- The sender has taken slots, from owners with lower epochs only. -/
structure Adopts (h : ClusterMsgHeader) (s t : ClusterState) : Prop where
  self : t.self = s.self
  epochs : t.epochOf = s.epochOf
  slots : ∀ slot, t.slots slot = s.slots slot ∨ s.slots slot ≠ some h.senderID ∧
    t.slots slot = some h.senderID ∧ ∀ e, s.ownerEpoch slot = some e → e ≤ h.configEpoch

namespace Adopts

variable {h : ClusterMsgHeader}

theorem refl (s : ClusterState) : Adopts h s s := ⟨rfl, rfl, fun _ => .inl rfl⟩

theorem trans (hst : Adopts h s t) (htu : Adopts h t u) : Adopts h s u := by
  refine ⟨htu.self.trans hst.self, htu.epochs.trans hst.epochs, fun slot => ?_⟩
  rcases hst.slots slot with hs | ⟨hne, ht, hle⟩
  · rcases htu.slots slot with hu | ⟨hne, hu, hle⟩
    · exact .inl (hu.trans hs)
    · refine .inr ⟨hs ▸ hne, hu, fun e he => hle e ?_⟩
      rw [ownerEpoch, hs, hst.epochs]
      exact he
  · rcases htu.slots slot with hu | ⟨hne', -, -⟩
    · exact .inr ⟨hne, hu.trans ht, hle⟩
    · exact absurd ht hne'

end Adopts

theorem adopts_takeSlot {h : ClusterMsgHeader} {slot : Nat} (hne : s.slots slot ≠ some h.senderID)
    (hle : ∀ e, s.ownerEpoch slot = some e → e ≤ h.configEpoch) : Adopts h s (s.takeSlot h.senderID slot) := by
  refine ⟨rfl, epochOf_modifyNode fun _ => rfl, fun x => ?_⟩
  by_cases hx : x = slot
  · rw [hx]
    exact .inr ⟨hne, Function.update_self .., hle⟩
  · exact .inl (Function.update_of_ne hx ..)

theorem adopts_adoptSlot (h : ClusterMsgHeader) (s : ClusterState) (slot : Nat) :
    Adopts h s (adoptSlot h s slot) := by
  unfold adoptSlot
  split
  case isFalse => exact .refl s
  case isTrue hslot =>
    split
    case h_1 hnone =>
      exact adopts_takeSlot hslot.2 fun e he => by simp [ownerEpoch, hnone] at he
    case h_2 id hid =>
      split
      case h_1 hnone =>
        exact adopts_takeSlot hslot.2 fun e he => by simp [ownerEpoch, epochOf, hid, hnone] at he
      case h_2 old hold =>
        split
        case isTrue => exact .refl s
        case isFalse hlt =>
          have hdel : Adopts h s (s.modifyNode id (·.delSlot slot)) :=
            ⟨rfl, epochOf_modifyNode fun _ => rfl, fun _ => .inl rfl⟩
          refine hdel.trans (adopts_takeSlot hslot.2 fun e he => ?_)
          rw [ownerEpoch, hdel.epochs, show (s.modifyNode id (·.delSlot slot)).slots = s.slots from rfl, hid] at he
          obtain rfl : old.configEpoch = e := by simpa [epochOf, hold] using he
          exact UInt64.le_of_lt (UInt64.not_le.1 hlt)

theorem adopts_foldl (h : ClusterMsgHeader) (slots : List Nat) (s : ClusterState) :
    Adopts h s (slots.foldl (adoptSlot h) s) :=
  foldlRecOn slots _ (.refl s) fun t ht slot _ => ht.trans (adopts_adoptSlot h t slot)

/-- Nodes may have been added; those that were known keep their epochs, and the slots their owners. -/
structure Keeps (s t : ClusterState) : Prop where
  self : t.self = s.self
  slots : t.slots = s.slots
  epochs : ∀ id e, s.epochOf id = some e → t.epochOf id = some e

namespace Keeps

theorem refl (s : ClusterState) : Keeps s s := ⟨rfl, rfl, fun _ _ h => h⟩

theorem trans (hst : Keeps s t) (htu : Keeps t u) : Keeps s u :=
  ⟨htu.self.trans hst.self, htu.slots.trans hst.slots, fun id e h => htu.epochs id e (hst.epochs id e h)⟩

theorem set {id : Bytes} (hnone : s.nodes.get id = none) (n : ClusterNode) :
    Keeps s { s with nodes := s.nodes.set id n } := by
  refine ⟨rfl, rfl, fun x e he => ?_⟩
  rw [epochOf, GoMap.get_set_of_ne]
  · exact he
  · rintro rfl
    simp [epochOf, hnone] at he

end Keeps

theorem keeps_meetSender (s : ClusterState) (senderID : Bytes) : Keeps s (s.meetSender senderID) := by
  unfold meetSender
  split
  case isTrue h => exact .set h.1 _
  case isFalse => exact .refl s

theorem isSome_meetSender (s : ClusterState) (senderID : Bytes)
    (h : (s.epochOf senderID).isSome ∨ senderID ≠ [] ∧ senderID ≠ s.self) :
    ((s.meetSender senderID).nodes.get senderID).isSome := by
  unfold meetSender
  split
  case isTrue => simp
  case isFalse hnot =>
    rw [isSome_iff_ne_none]
    intro hnone
    refine hnot ⟨hnone, h.resolve_left ?_⟩
    simp [epochOf, hnone]

theorem keeps_mergeEntry (senderID : Bytes) (s : ClusterState) (e : GossipEntry) :
    Keeps s (mergeEntry senderID s e) := by
  have hmodify : ∀ f : ClusterNode → ClusterNode, (∀ n, (f n).configEpoch = n.configEpoch) →
      Keeps s (s.modifyNode e.id f) := fun f hf =>
    ⟨rfl, rfl, fun id x hx => by rw [epochOf_modifyNode hf]; exact hx⟩
  unfold mergeEntry
  split
  case isTrue => exact .refl s
  case isFalse =>
    split
    case h_1 hnone => exact .set hnone _
    case h_2 =>
      split
      case isTrue => exact hmodify _ fun _ => rfl
      case isFalse =>
        split
        case isTrue =>
          have hpfail := hmodify (fun n => { n with flags := n.flags.set .pfail }) fun _ => rfl
          exact ⟨hpfail.self, hpfail.slots, hpfail.epochs⟩
        case isFalse => exact .refl s

theorem keeps_foldl (senderID : Bytes) (entries : List GossipEntry) (s : ClusterState) :
    Keeps s (entries.foldl (mergeEntry senderID) s) :=
  foldlRecOn entries _ (.refl s) fun t ht e _ => ht.trans (keeps_mergeEntry senderID t e)

/-- What a message leaves: the sender, if it is known now, has the epoch of the message, all others that were
known keep theirs; and each slot has its owner, or has gone to the sender from an owner whose epoch after the
message is not higher. -/
structure Merged (m : Message) (s t : ClusterState) : Prop where
  self : t.self = s.self
  sender : (s.epochOf m.header.senderID).isSome ∨ m.header.senderID ≠ [] ∧ m.header.senderID ≠ s.self →
    t.epochOf m.header.senderID = some m.header.configEpoch
  others : ∀ id e, id ≠ m.header.senderID → s.epochOf id = some e → t.epochOf id = some e
  slots : ∀ slot, t.slots slot = s.slots slot ∨ s.slots slot ≠ some m.header.senderID ∧
    t.slots slot = some m.header.senderID ∧ t.epochOf m.header.senderID = some m.header.configEpoch ∧
    ∀ e, s.ownerEpoch slot = some e → e ≤ m.header.configEpoch

theorem merged_mergeHeader (s : ClusterState) (m : Message) : Merged m s (s.mergeHeader m) := by
  have hmeet := keeps_meetSender s m.header.senderID
  have hmet := isSome_meetSender s m.header.senderID
  rw [mergeHeader]
  generalize s.meetSender m.header.senderID = s₁ at hmeet hmet
  by_cases hknown : (s₁.nodes.get m.header.senderID).isSome
  · rw [if_pos hknown]
    have hadopts := adopts_foldl m.header allSlots (s₁.modifyNode m.header.senderID (updateSender m))
    generalize allSlots.foldl (adoptSlot m.header) _ = s₂ at hadopts
    have hsender : s₂.epochOf m.header.senderID = some m.header.configEpoch := by
      obtain ⟨n, hn⟩ := isSome_iff_exists.1 hknown
      rw [hadopts.epochs, epochOf, modifyNode, GoMap.get_modify_self, hn]
      rfl
    have hothers : ∀ id, id ≠ m.header.senderID → s₂.epochOf id = s₁.epochOf id := fun id hid => by
      rw [hadopts.epochs, epochOf, modifyNode, GoMap.get_modify_of_ne hid]
      rfl
    refine ⟨hadopts.self.trans hmeet.self, fun _ => hsender, fun id e hid he => ?_, fun slot => ?_⟩
    · rw [hothers id hid]
      exact hmeet.epochs id e he
    · have hslots : (s₁.modifyNode m.header.senderID (updateSender m)).slots slot = s.slots slot := by
        rw [← hmeet.slots]
        rfl
      rcases hadopts.slots slot with hs | ⟨hne, htaken, hle⟩
      · exact .inl (hs.trans hslots)
      rw [hslots] at hne
      refine .inr ⟨hne, htaken, hsender, fun e he => hle e ?_⟩
      obtain ⟨id, hid, hepoch⟩ := bind_eq_some_iff.1 he
      rw [ownerEpoch, hslots, hid, bind_some, ← hadopts.epochs, hothers id fun hc => hne (hc ▸ hid)]
      exact hmeet.epochs id e hepoch
  · rw [if_neg hknown]
    exact ⟨hmeet.self, fun hs => absurd (hmet hs) hknown, fun id e _ he => hmeet.epochs id e he,
      fun slot => .inl (by rw [hmeet.slots])⟩

theorem Merged.keeps (h : Merged m s t) (hk : Keeps t u) : Merged m s u := by
  refine ⟨hk.self.trans h.self, fun hs => hk.epochs _ _ (h.sender hs),
    fun id e hid he => hk.epochs _ _ (h.others id e hid he), fun slot => ?_⟩
  rw [hk.slots]
  exact (h.slots slot).imp_right fun ⟨hne, ht, he, hle⟩ => ⟨hne, ht, hk.epochs _ _ he, hle⟩

theorem merged_mergeFromMessage (s : ClusterState) (m : Message) : Merged m s (s.mergeFromMessage m) := by
  rw [mergeFromMessage]
  -- the node's own epoch is not among those recorded
  have hepoch : ∀ e, Merged m s (({ s with epoch := e } : ClusterState).mergeHeader m) := fun e => by
    have h := merged_mergeHeader { s with epoch := e } m
    exact ⟨h.self, h.sender, h.others, h.slots⟩
  split
  · exact (hepoch _).keeps (keeps_foldl ..)
  · exact (merged_mergeHeader s m).keeps (keeps_foldl ..)

theorem merged_handleConn (s : ClusterState) (m : Message) : Merged m s (s.handleConn m) := by
  have h := merged_mergeFromMessage s m
  obtain ⟨lastVoteEpoch, failoverState, heq⟩ := handleConn_eq s m
  rw [heq]
  exact ⟨h.self, h.sender, h.others, h.slots⟩

/-- A message keeps the recorded epochs from decreasing if and only if it is current. -/
theorem notDecreased_handleConn_iff (s : ClusterState) (m : Message) :
    NotDecreased s (s.handleConn m) ↔ s.Current m := by
  have h := merged_handleConn s m
  generalize s.handleConn m = t at h
  constructor
  · intro hnd hcase e he
    have hsender := h.sender (.inl (he ▸ rfl))
    rcases ne_or_eq m.header.senderID s.self with hne | heq
    · obtain ⟨e', he', hle⟩ := hnd.peer _ e hne he
      rw [hsender, some.injEq] at he'
      exact he' ▸ hle
    obtain ⟨slot, hslot⟩ := hcase.resolve_left (not_not.2 heq)
    rw [← heq] at hslot
    have hkept : t.slots slot = some m.header.senderID := by
      rcases h.slots slot with hs | ⟨hne, -⟩
      · exact hs.trans hslot
      · exact absurd hslot hne
    obtain ⟨e', he', hle⟩ := hnd.owner slot e (by rw [ownerEpoch, hslot]; exact he)
    rw [ownerEpoch, hkept, bind_some, hsender, some.injEq] at he'
    exact he' ▸ hle
  · intro hcur
    have hnode : ∀ id e, (id ≠ s.self ∨ ∃ slot, s.slots slot = some id) → s.epochOf id = some e →
        ∃ e', t.epochOf id = some e' ∧ e ≤ e' := by
      intro id e hcase he
      by_cases hid : id = m.header.senderID
      · subst hid
        refine ⟨_, h.sender (.inl (he ▸ rfl)), hcur ?_ e he⟩
        by_cases hself : m.header.senderID = s.self
        · exact .inr (hself ▸ hcase.resolve_left (not_not.2 hself))
        · exact .inl hself
      · exact ⟨e, h.others id e hid he, UInt64.le_refl e⟩
    refine ⟨fun id e hid he => hnode id e (.inl hid) he, fun slot e he => ?_⟩
    obtain ⟨id, hid, hepoch⟩ := bind_eq_some_iff.1 he
    rcases h.slots slot with hs | ⟨-, ht, hsender, hle⟩
    · obtain ⟨e', he', hle⟩ := hnode id e (.inr ⟨slot, hid⟩) hepoch
      exact ⟨e', by rw [ownerEpoch, hs, hid]; exact he', hle⟩
    · exact ⟨_, by rw [ownerEpoch, ht]; exact hsender, hle e he⟩

theorem NotDecreased.trans (hst : NotDecreased s t) (htu : NotDecreased t u) (hself : t.self = s.self) :
    NotDecreased s u := by
  constructor
  · intro id e hid he
    obtain ⟨e', he', hle⟩ := hst.peer id e hid he
    obtain ⟨e'', he'', hle'⟩ := htu.peer id e' (hself ▸ hid) he'
    exact ⟨e'', he'', UInt64.le_trans hle hle'⟩
  · intro slot e he
    obtain ⟨e', he', hle⟩ := hst.owner slot e he
    obtain ⟨e'', he'', hle'⟩ := htu.owner slot e' he'
    exact ⟨e'', he'', UInt64.le_trans hle hle'⟩

theorem notDecreased_of_guarded {msgs : List Message} (h : Guarded handleConn Current s msgs) :
    NotDecreased s (msgs.foldl handleConn s) := by
  induction msgs generalizing s with
  | nil => exact ⟨fun _ e _ he => ⟨e, he, UInt64.le_refl e⟩, fun _ e he => ⟨e, he, UInt64.le_refl e⟩⟩
  | cons m msgs ih =>
    exact ((notDecreased_handleConn_iff s m).2 h.1).trans (ih h.2) (merged_handleConn s m).self

/-- The recorded epochs do not decrease between any two moments of a run of messages if and only if every
message is current when it arrives. -/
theorem notDecreased_run_iff (s : ClusterState) (msgs : List Message) : (∀ pre mid, pre ++ mid <+: msgs →
      NotDecreased (pre.foldl handleConn s) ((pre ++ mid).foldl handleConn s)) ↔
      Guarded handleConn Current s msgs := by
  constructor
  · intro h
    refine guarded_iff_forall_prefix.2 fun pre m hpre => (notDecreased_handleConn_iff _ m).1 ?_
    have hstep := h pre [m] hpre
    rwa [foldl_append] at hstep
  · rintro h pre mid ⟨post, rfl⟩
    rw [foldl_append]
    exact notDecreased_of_guarded (guarded_append.1 (guarded_append.1 h).1).2

/-- A message of the peer `b`, with slot 0 in its header. -/
def pingOf (configEpoch : UInt64) : Message :=
  ⟨⟨.ping, configEpoch, configEpoch, 7001, 17001, Flags.set 0 .master, [98], 1⟩, [], [], 0⟩

/-- A node hears from a peer in epoch 5, and then a message of epoch 4 arrives that was sent before: the
epoch recorded for the peer decreases. -/
theorem epoch_decreases : ¬∀ pre mid, pre ++ mid <+: [pingOf 5, pingOf 4] →
    NotDecreased (pre.foldl handleConn (newClusterState [97] [] 7000 1))
      ((pre ++ mid).foldl handleConn (newClusterState [97] [] 7000 1)) := by
  have hfirst := merged_handleConn (newClusterState [97] [] 7000 1) (pingOf 5)
  have hepoch := hfirst.sender (.inr (by decide))
  have hself := hfirst.self
  intro h
  have hstep := h [pingOf 5] [pingOf 4] (prefix_refl _)
  rw [foldl_append, foldl_cons, foldl_nil, foldl_cons, foldl_nil] at hstep
  generalize (newClusterState [97] [] 7000 1).handleConn (pingOf 5) = s at hepoch hself hstep
  have hle := (notDecreased_handleConn_iff s (pingOf 4)).1 hstep (.inl (by rw [hself]; decide)) 5 hepoch
  exact absurd hle (by decide)

end ClusterState

end Hayakv.Cluster
