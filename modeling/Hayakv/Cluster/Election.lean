import Hayakv.Cluster.Commands

/-!
# Failover elections

A replica whose master has failed counts its epoch up and asks for votes
(`startElection`), a master votes at most once in an epoch (`grantVote`), and a
replica with the votes of a majority claims the slots of its master
(`checkFailoverTick`).

A message that has been sent may be received by any node, any number of times, at
any later time, or never. A node is cut where its source takes a lock: the merge of
a message, its handler, the AUTH_ACK that is built after a vote, and the sections of
the ping loop (`Loop`). Where several locks are taken only to read what no step of
the bus takes back, they are one step.

* `Elected.eq`: two majorities share a master, so at most one node is elected in an
  epoch as long as no master votes twice in it;
* `Bus.Inv.step`: each vote that is counted has been cast, and each master's votes are
  in ascending epochs;
* `Bus.safe_run`: claims are safe if they are made in the epoch of their election, and
  only votes of masters are counted. The code checks neither: `claimOwnership` takes
  the current epoch, which a message may have advanced, and `recordVote` counts a
  replica that has become a master.
-/

namespace Hayakv.Cluster

open List Option ClusterState GoMap

/-- Where the ping loop is in `checkFailoverTick` and `startElection`. -/
inductive Loop where
  | idle
  /-- The election is won. -/
  | claiming (masterID : Bytes)
  | expiring
  | sleeping (masterID : Bytes)
  | starting (masterID : Bytes)
  | electing (masterID : Bytes) (reqEpoch : UInt64)
  | counted (masterID : Bytes) (reqEpoch : UInt64) (votesNeeded : Nat)
  | requesting
deriving DecidableEq

def Loop.isClaiming : Loop → Bool
  | .claiming _ => true
  | _ => false

/-- A node. `handlers` are the messages that have been merged and not handled yet, `granted` the votes
(candidate and epoch) whose AUTH_ACK has not been sent. -/
structure Peer where
  state : ClusterState
  loop : Loop := .idle
  handlers : List Packet := []
  granted : List (Bytes × UInt64) := []

inductive PeerEvent where
  | receive (m : Packet) (senderIP : Bytes) (now : Int64)
  | readPong (m : Packet) (senderIP : Bytes) (now : Int64)
  | handle (k : Nat)
  | acknowledge (k : Nat)
  /-- A message without a vote is sent. -/
  | gossip (msgType : MsgType) (order₁ order₂ : GoMap.Order Bytes ClusterNode)
  | markPFail (id : Bytes) (now timeout : Int64)
  | markNodeFail (id : Bytes)
  /-- `checkFailoverTick` begins. -/
  | tick (now : Int)
  /-- The ping loop goes on. -/
  | proceed (now : Int) (order₁ order₂ : GoMap.Order Bytes ClusterNode)

/-- A node after an event, the messages it sends, and what is recorded of it: a vote for a candidate in an
epoch, and the config epoch with which it claims slots. -/
structure Outcome where
  peer : Peer
  sent : List Packet := []
  vote : Option (Bytes × UInt64) := none
  claim : Option UInt64 := none

structure Vote where
  voter : Bytes
  candidate : Bytes
  epoch : UInt64
deriving DecidableEq

structure Claim where
  node : Bytes
  epoch : UInt64
deriving DecidableEq

def Outcome.votes (o : Outcome) (i : Bytes) : List Vote := o.vote.toList.map fun v => ⟨i, v.1, v.2⟩

namespace Peer

def handle (p : Peer) (m : Packet) : Outcome :=
  match m.header.msgType with
  | .failoverAuthRequest =>
    let (s, granted) := p.state.handleAuthRequest m.header
    if granted then
      { peer := { p with state := s, granted := p.granted ++ [(m.header.senderID, m.header.currentEpoch)] }
        vote := some (m.header.senderID, m.header.currentEpoch) }
    else { peer := p }
  | .failoverAuthAck => { peer := { p with state := p.state.handleAuthAck m.header m.entries } }
  | _ => { peer := p }

/-- The first half of `checkFailoverTick`. -/
def tick (p : Peer) (now : Int) : Peer :=
  if p.state.masterFailed then
    match p.state.failoverState with
    | some fs =>
      if fs.active then
        if fs.votesNeeded ≤ fs.votesReceived.length then { p with loop := .claiming p.state.masterIDOf }
        else if fs.authTimeout < now then { p with loop := .expiring }
        else p
      else { p with loop := .sleeping p.state.masterIDOf }
    | none => { p with loop := .sleeping p.state.masterIDOf }
  else p

def proceed (p : Peer) (now : Int) (order₁ order₂ : GoMap.Order Bytes ClusterNode) : Outcome :=
  let s := p.state
  match p.loop with
  | .idle => { peer := p }
  | .claiming masterID =>
    let s' := s.claimOwnership masterID
    { peer := { p with state := s', loop := .idle }
      claim := if (s.nodes.get masterID).isSome then s'.epochOf s'.self else none }
  | .expiring => { peer := { p with state := s.stopElection, loop := .idle } }
  | .sleeping masterID =>
    { peer := { p with loop := if (s.nodes.get masterID).any (·.flags.has .fail) then .starting masterID else .idle } }
  | .starting masterID =>
    { peer := { p with state := { s with epoch := s.epoch + 1 }, loop := .electing masterID (s.epoch + 1) } }
  | .electing masterID reqEpoch => { peer := { p with loop := .counted masterID reqEpoch (s.masterCount / 2 + 1) } }
  | .counted failedMasterID reqEpoch votesNeeded =>
    { peer := { p with
        state := { s with
          failoverState := some
            { active := true, authTimeout := now + 2000, votesReceived := [], votesNeeded, reqEpoch, failedMasterID } }
        loop := .requesting } }
  | .requesting =>
    { peer := { p with loop := .idle }, sent := [s.buildMessage .failoverAuthRequest order₁ order₂] }

def step (p : Peer) : PeerEvent → Outcome
  | .receive m senderIP now =>
    { peer := { p with state := p.state.mergeFromMessage (m.received senderIP now), handlers := p.handlers ++ [m] } }
  | .readPong m senderIP now => { peer := { p with state := p.state.mergeFromMessage (m.received senderIP now) } }
  | .handle k =>
    match p.handlers[k]? with
    | none => { peer := p }
    | some m => handle { p with handlers := p.handlers.eraseIdx k } m
  | .acknowledge k =>
    match p.granted[k]? with
    | none => { peer := p }
    | some (replicaID, reqEpoch) =>
      { peer := { p with granted := p.granted.eraseIdx k }, sent := [p.state.authAck replicaID reqEpoch] }
  | .gossip msgType order₁ order₂ =>
    if msgType = .failoverAuthRequest ∨ msgType = .failoverAuthAck then { peer := p }
    else { peer := p, sent := [p.state.buildMessage msgType order₁ order₂] }
  | .markPFail id now timeout => { peer := { p with state := p.state.markPFail id now timeout } }
  | .markNodeFail id => { peer := { p with state := p.state.markNodeFail id } }
  | .tick now => { peer := if p.loop = .idle then p.tick now else p }
  | .proceed now order₁ order₂ => p.proceed now order₁ order₂

end Peer

def PeerEvent.message : PeerEvent → Option Packet
  | .receive m _ _ | .readPong m _ _ => some m
  | _ => none

/-- The nodes of a cluster and the messages that they have sent; `votes` and `claims` list the votes and
the claims so far. -/
structure Bus where
  ids : Finset Bytes
  peer : Bytes → Peer
  sent : List Packet := []
  votes : List Vote := []
  claims : List Claim := []

namespace Bus

/-- The node `i` has come to `o`. -/
def update (b : Bus) (i : Bytes) (o : Outcome) : Bus :=
  { b with
    peer := Function.update b.peer i o.peer
    sent := b.sent ++ o.sent
    votes := b.votes ++ o.votes i
    claims := b.claims ++ o.claim.toList.map fun e => ⟨i, e⟩ }

/-- An event at a node; a message must have been sent before it is received. -/
def step (b : Bus) (a : Bytes × PeerEvent) : Bus :=
  if a.1 ∈ b.ids ∧ ∀ m ∈ a.2.message, m ∈ b.sent then b.update a.1 ((b.peer a.1).step a.2) else b

def run (b : Bus) (acts : List (Bytes × PeerEvent)) : Bus := acts.foldl step b

end Bus

/-! ## What merging leaves alone -/

def ClusterNode.role (n : ClusterNode) : Bytes × Bool × Bool := (n.id, n.flags.has .master, n.flags.has .slave)

namespace ClusterState

variable {s t u : ClusterState}

/-- Nothing that votes and elections rest on has changed, except the epoch and failures. -/
structure SameRoles (s t : ClusterState) : Prop where
  self : t.self = s.self
  role : ∀ x, (t.nodes.get x).map ClusterNode.role = (s.nodes.get x).map ClusterNode.role
  lastVoteEpoch : t.lastVoteEpoch = s.lastVoteEpoch
  failoverState : t.failoverState = s.failoverState

namespace SameRoles

theorem refl (s : ClusterState) : SameRoles s s := ⟨rfl, fun _ => rfl, rfl, rfl⟩

theorem trans (hst : SameRoles s t) (htu : SameRoles t u) : SameRoles s u :=
  ⟨htu.self.trans hst.self, fun x => (htu.role x).trans (hst.role x), htu.lastVoteEpoch.trans hst.lastVoteEpoch,
    htu.failoverState.trans hst.failoverState⟩

theorem isSome (h : SameRoles s t) (x : Bytes) : (t.nodes.get x).isSome = (s.nodes.get x).isSome := by
  rw [← isSome_map, h.role x, isSome_map]

theorem get (h : SameRoles s t) {x : Bytes} {n : ClusterNode} (hn : t.nodes.get x = some n) :
    ∃ m, s.nodes.get x = some m ∧ n.id = m.id ∧ n.flags.has .master = m.flags.has .master ∧
      n.flags.has .slave = m.flags.has .slave := by
  have hrole := h.role x
  rw [hn, map_some, eq_comm, map_eq_some_iff] at hrole
  obtain ⟨m, hm, heq⟩ := hrole
  simp only [ClusterNode.role, Prod.mk.injEq] at heq
  exact ⟨m, hm, heq.1.symm, heq.2.1.symm, heq.2.2.symm⟩

theorem selfHas_slave (h : SameRoles s t) : t.selfHas .slave = s.selfHas .slave := by
  have hany : ∀ u : ClusterState, u.selfHas .slave = ((u.nodes.get u.self).map ClusterNode.role).any (·.2.2) :=
    fun _ => by rw [Option.any_map]; rfl
  rw [hany, hany, h.self, h.role]

theorem modifyNode {id : Bytes} {f : ClusterNode → ClusterNode} (hf : ∀ n, (f n).role = n.role) :
    SameRoles s (s.modifyNode id f) := by
  exact ⟨rfl, fun _ => map_get_modify hf, rfl, rfl⟩

theorem setFail (s : ClusterState) (id : Bytes) :
    SameRoles s (s.modifyNode id fun n => { n with flags := (n.flags.clear .pfail).set .fail }) :=
  modifyNode fun n => by simp [ClusterNode.role]

theorem setPFail (s : ClusterState) (id reporterID : Bytes) :
    SameRoles s ((s.modifyNode id fun n => { n with flags := n.flags.set .pfail }).addReport id reporterID) := by
  have h : SameRoles s (s.modifyNode id fun n => { n with flags := n.flags.set .pfail }) :=
    modifyNode fun n => by simp [ClusterNode.role]
  exact ⟨h.self, h.role, h.lastVoteEpoch, h.failoverState⟩

theorem of_slotsOnly (h : SlotsOnly s t) : SameRoles s t :=
  ⟨congrArg (·.self) h.rest, h.map fun _ => rfl, congrArg (·.lastVoteEpoch) h.rest, congrArg (·.failoverState) h.rest⟩

theorem mergeHeader {m : Message} (hm : (s.nodes.get m.header.senderID).isSome) : SameRoles s (s.mergeHeader m) := by
  have hmeet : s.meetSender m.header.senderID = s := by
    rw [meetSender, if_neg fun h => ?_]
    simp [h.1] at hm
  rw [ClusterState.mergeHeader, hmeet, if_pos hm]
  exact (modifyNode (f := updateSender m) fun _ => rfl).trans (of_slotsOnly (.foldl (.adoptSlot m.header) _ _))

theorem mergeEntry {e : GossipEntry} (he : (s.nodes.get e.id).isSome) (senderID : Bytes) :
    SameRoles s (mergeEntry senderID s e) := by
  rw [ClusterState.mergeEntry]
  split
  · exact refl s
  cases hn : s.nodes.get e.id with
  | none => simp [hn] at he
  | some n =>
    dsimp only
    split
    · exact setFail s e.id
    · split
      · exact setPFail s e.id senderID
      · exact refl s

theorem mergeFromMessage {m : Message} (hm : (s.nodes.get m.header.senderID).isSome)
    (he : ∀ e ∈ m.entries, (s.nodes.get e.id).isSome) : SameRoles s (s.mergeFromMessage m) := by
  have hepoch : SameRoles s (if s.epoch < m.header.currentEpoch then { s with epoch := m.header.currentEpoch } else s) := by
    split
    · exact ⟨rfl, fun _ => rfl, rfl, rfl⟩
    · exact refl s
  have hheader := hepoch.trans (mergeHeader ((hepoch.isSome _).trans hm))
  refine foldlRecOn m.entries _ hheader fun t ht e hmem => ?_
  exact ht.trans (mergeEntry ((ht.isSome e.id).trans (he e hmem)) _)

theorem markPFail (s : ClusterState) (id : Bytes) (now timeout : Int64) : SameRoles s (s.markPFail id now timeout) := by
  rw [ClusterState.markPFail]
  split
  · exact refl s
  · split
    · exact setPFail s id s.self
    · exact refl s

theorem markNodeFail (s : ClusterState) (id : Bytes) : SameRoles s (s.markNodeFail id) := by
  rw [ClusterState.markNodeFail]
  split
  · exact refl s
  · split
    · exact setFail s id
    · exact refl s

end SameRoles

theorem votes_claimOwnership (s : ClusterState) (failedMasterID : Bytes) :
    (s.claimOwnership failedMasterID).lastVoteEpoch = s.lastVoteEpoch ∧
      ∀ fs', (s.claimOwnership failedMasterID).failoverState = some fs' →
        ∃ fs, s.failoverState = some fs ∧ fs' = { fs with active := fs'.active } := by
  have hstop : ∀ t : ClusterState, t.lastVoteEpoch = s.lastVoteEpoch → t.failoverState = s.failoverState →
      t.stopElection.lastVoteEpoch = s.lastVoteEpoch ∧ ∀ fs', t.stopElection.failoverState = some fs' →
        ∃ fs, s.failoverState = some fs ∧ fs' = { fs with active := fs'.active } := by
    intro t hlast hfs
    refine ⟨hlast, fun fs' hfs' => ?_⟩
    obtain ⟨fs, h, rfl⟩ := map_eq_some_iff.1 hfs'
    exact ⟨fs, hfs.symm.trans h, rfl⟩
  rw [claimOwnership]
  split
  · exact ⟨rfl, fun fs' hfs' => ⟨fs', hfs', rfl⟩⟩
  · have hslots := SameRoles.of_slotsOnly (.claimSlots failedMasterID s.promote)
    exact hstop _ hslots.lastVoteEpoch hslots.failoverState

theorem epochOf_claimOwnership {failedMasterID : Bytes} (hf : (s.nodes.get failedMasterID).isSome)
    (hs : (s.nodes.get s.self).isSome) :
    (s.claimOwnership failedMasterID).epochOf (s.claimOwnership failedMasterID).self = some s.epoch := by
  obtain ⟨f, hf⟩ := isSome_iff_exists.1 hf
  obtain ⟨n, hn⟩ := isSome_iff_exists.1 hs
  have hpromote : s.promote.epochOf s.self = some s.epoch := by
    rw [epochOf, promote, modifyNode, get_modify_self, hn]
    rfl
  have hstop : ∀ t : ClusterState, t.self = s.self → t.epochOf s.self = some s.epoch →
      t.stopElection.epochOf t.stopElection.self = some s.epoch := by
    intro t hself hepoch
    show t.epochOf t.self = some s.epoch
    rw [hself, hepoch]
  rw [claimOwnership, hf]
  have hslots := SlotsOnly.claimSlots failedMasterID s.promote
  exact hstop _ (SameRoles.of_slotsOnly hslots).self ((hslots.map (fun _ => rfl) s.self).trans hpromote)

end ClusterState

/-! ## The invariant -/

section invariant

variable {M ids : Finset Bytes} {votes votes' : List Vote} {i : Bytes} {s t : ClusterState} {p : Peer} {m : Packet}

/-- What the node `i` knows: all nodes, and of the others which are masters. A replica is not one. -/
structure Table (M ids : Finset Bytes) (i : Bytes) (s : ClusterState) : Prop where
  self : s.self = i
  known : ∀ x, (s.nodes.get x).isSome ↔ x ∈ ids
  id : ∀ {x n}, s.nodes.get x = some n → n.id = x
  masters : ∀ {x n}, x ≠ i → s.nodes.get x = some n → (n.flags.has .master = true ↔ x ∈ M)
  replica : ∀ {n}, s.nodes.get i = some n → n.flags.has .slave = true → n.flags.has .master = false ∧ i ∉ M

section

variable (h : Table M ids i s)
include h

theorem Table.sameRoles (hst : s.SameRoles t) : Table M ids i t := by
  refine ⟨hst.self.trans h.self, fun x => ?_, fun hn => ?_, fun hx hn => ?_, fun hn hslave => ?_⟩
  · rw [hst.isSome]
    exact h.known x
  · obtain ⟨m, hm, hid, -⟩ := hst.get hn
    exact hid.trans (h.id hm)
  · obtain ⟨m, hm, -, hmaster, -⟩ := hst.get hn
    rw [hmaster]
    exact h.masters hx hm
  · obtain ⟨m, hm, -, hmaster, hslave'⟩ := hst.get hn
    rw [hmaster]
    exact h.replica hm (hslave'.symm.trans hslave)

theorem Table.congr (hself : t.self = s.self) (hnodes : t.nodes = s.nodes) : Table M ids i t where
  self := hself.trans h.self
  known := hnodes ▸ h.known
  id := hnodes ▸ h.id
  masters := hnodes ▸ h.masters
  replica := hnodes ▸ h.replica

theorem Table.stopElection : Table M ids i s.stopElection := h.congr rfl rfl

theorem Table.claimOwnership (failedMasterID : Bytes) : Table M ids i (s.claimOwnership failedMasterID) := by
  have hpromote : Table M ids i s.promote := by
    refine ⟨h.self, fun x => ?_, fun {x n} hn => ?_, fun {x n} hx hn => ?_, fun {n} hn hslave => ?_⟩
    · rw [promote, isSome_modifyNode]
      exact h.known x
    · rw [promote, modifyNode, get_modify] at hn
      obtain ⟨m, hm, rfl⟩ := map_eq_some_iff.1 hn
      rw [← h.id hm]
      split <;> rfl
    · rw [promote, modifyNode, get_modify_of_ne (h.self.symm ▸ hx)] at hn
      exact h.masters hx hn
    · rw [promote, modifyNode, h.self, get_modify_self] at hn
      obtain ⟨m, -, rfl⟩ := map_eq_some_iff.1 hn
      simp at hslave
  rw [ClusterState.claimOwnership]
  split
  · exact h
  · exact (hpromote.sameRoles (.of_slotsOnly (.claimSlots failedMasterID _))).stopElection

theorem Table.masterCount (hM : M ⊆ ids) (hs : s.selfHas .slave = true) : s.masterCount = M.card := by
  refine count_eq_card fun x => ?_
  by_cases hx : x = i
  · subst hx
    rw [selfHas, h.self] at hs
    cases hn : s.nodes.get x with
    | none => simp [hn] at hs
    | some n =>
      rw [hn] at hs
      obtain ⟨hmaster, hnot⟩ := h.replica hn hs
      simp [hmaster, hnot]
  · constructor
    · intro hmem
      obtain ⟨n, hn⟩ := isSome_iff_exists.1 ((h.known x).2 (hM hmem))
      exact ⟨n, hn, (h.masters hx hn).2 hmem⟩
    · rintro ⟨n, hn, hmaster⟩
      exact (h.masters hx hn).1 hmaster

end

/-- A majority of the masters has voted for the node `i` in the epoch `e`. -/
def Elected (M : Finset Bytes) (votes : List Vote) (i : Bytes) (e : UInt64) : Prop :=
  M.card / 2 + 1 ≤ (M.filter fun v => (⟨v, i, e⟩ : Vote) ∈ votes).card

structure Counts (M : Finset Bytes) (votes : List Vote) (i : Bytes) (fs : FailoverState) : Prop where
  needed : fs.votesNeeded = M.card / 2 + 1
  nodup : fs.votesReceived.Nodup
  cast : ∀ v ∈ fs.votesReceived, v ∈ M ∧ (⟨v, i, fs.reqEpoch⟩ : Vote) ∈ votes

theorem Counts.elected {fs : FailoverState} (h : Counts M votes i fs) (hwon : fs.votesNeeded ≤ fs.votesReceived.length) :
    Elected M votes i fs.reqEpoch := by
  have hsub : fs.votesReceived.toFinset ⊆ M.filter fun v => (⟨v, i, fs.reqEpoch⟩ : Vote) ∈ votes := by
    intro v hv
    exact Finset.mem_filter.2 (h.cast v (mem_toFinset.1 hv))
  calc M.card / 2 + 1 = fs.votesNeeded := h.needed.symm
    _ ≤ fs.votesReceived.toFinset.card := by rwa [toFinset_card_of_nodup h.nodup]
    _ ≤ _ := Finset.card_le_card hsub

theorem Elected.eq {j : Bytes} {e : UInt64} (hi : Elected M votes i e) (hj : Elected M votes j e)
    (honce : ∀ v ∈ votes, ∀ v' ∈ votes, v.voter = v'.voter → v.epoch = v'.epoch → v.candidate = v'.candidate) :
    i = j := by
  rw [Elected] at hi hj
  have hlt : M.card < (M.filter fun v => (⟨v, i, e⟩ : Vote) ∈ votes).card +
      (M.filter fun v => (⟨v, j, e⟩ : Vote) ∈ votes).card := by omega
  obtain ⟨v, hv⟩ := Finset.inter_nonempty_of_card_lt_card_add_card (Finset.filter_subset _ M)
    (Finset.filter_subset _ M) hlt
  obtain ⟨hvi, hvj⟩ := Finset.mem_inter.1 hv
  exact honce _ (Finset.mem_filter.1 hvi).2 _ (Finset.mem_filter.1 hvj).2 rfl rfl

/-- The message names nodes of the cluster, and an AUTH_ACK stands for a vote. -/
structure Packet.Ok (ids : Finset Bytes) (votes : List Vote) (m : Packet) : Prop where
  sender : m.header.senderID ∈ ids
  entries : ∀ e ∈ m.entries, e.id ∈ ids
  ack : m.header.msgType = .failoverAuthAck →
    ∀ e ∈ m.entries, (⟨m.header.senderID, e.id, m.header.configEpoch⟩ : Vote) ∈ votes

def Loop.Ok (M : Finset Bytes) (s : ClusterState) : Loop → Prop
  | .claiming _ => ∃ fs, s.failoverState = some fs ∧ fs.votesNeeded ≤ fs.votesReceived.length
  | .sleeping _ | .starting _ | .electing _ _ => s.selfHas .slave = true
  | .counted _ _ votesNeeded => votesNeeded = M.card / 2 + 1
  | _ => True

theorem Loop.Ok.congr {l : Loop} (h : l.Ok M s) (hfs : t.failoverState = s.failoverState)
    (hslave : t.selfHas .slave = s.selfHas .slave) : l.Ok M t := by
  cases l with
  | idle | expiring | requesting => trivial
  | claiming masterID =>
    obtain ⟨fs, hfs, hwon⟩ := h
    exact ⟨fs, ‹t.failoverState = _›.trans hfs, hwon⟩
  | counted masterID reqEpoch votesNeeded => exact h
  | sleeping | starting | electing => exact hslave.trans h

structure Peer.Ok (M ids : Finset Bytes) (votes : List Vote) (i : Bytes) (p : Peer) : Prop where
  table : Table M ids i p.state
  election : ∀ fs, p.state.failoverState = some fs → Counts M votes i fs
  voted : ∀ v ∈ votes, v.voter = i → v.epoch ≤ p.state.lastVoteEpoch
  granted : ∀ g ∈ p.granted, g.1 ∈ ids ∧ (⟨i, g.1, g.2⟩ : Vote) ∈ votes
  handlers : ∀ m ∈ p.handlers, m.Ok ids votes
  loop : p.loop.Ok M p.state

theorem Packet.Ok.mono (h : m.Ok ids votes) (hsub : votes ⊆ votes') : m.Ok ids votes' :=
  ⟨h.sender, h.entries, fun hack e he => hsub (h.ack hack e he)⟩

theorem Elected.mono {e : UInt64} (h : Elected M votes i e) (hsub : votes ⊆ votes') : Elected M votes' i e :=
  h.trans (Finset.card_le_card fun _ hv =>
    Finset.mem_filter.2 ⟨(Finset.mem_filter.1 hv).1, hsub (Finset.mem_filter.1 hv).2⟩)

theorem Counts.mono {fs : FailoverState} (h : Counts M votes i fs) (hsub : votes ⊆ votes') : Counts M votes' i fs :=
  ⟨h.needed, h.nodup, fun v hv => ⟨(h.cast v hv).1, hsub (h.cast v hv).2⟩⟩

theorem Peer.Ok.mono (h : p.Ok M ids votes i) (hsub : votes ⊆ votes') (hnew : ∀ v ∈ votes', v ∈ votes ∨ v.voter ≠ i) :
    p.Ok M ids votes' i where
  table := h.table
  election fs hfs := (h.election fs hfs).mono hsub
  voted v hv hi := h.voted v ((hnew v hv).resolve_right fun hne => hne hi) hi
  granted g hg := ⟨(h.granted g hg).1, hsub (h.granted g hg).2⟩
  handlers m hm := (h.handlers m hm).mono hsub
  loop := h.loop

theorem Peer.Ok.sameRoles (h : p.Ok M ids votes i) (hst : p.state.SameRoles t) :
    Peer.Ok M ids votes i { p with state := t } where
  table := h.table.sameRoles hst
  election fs hfs := h.election fs (hst.failoverState.symm.trans hfs)
  voted v hv hi := hst.lastVoteEpoch ▸ h.voted v hv hi
  granted := h.granted
  handlers := h.handlers
  loop := h.loop.congr hst.failoverState hst.selfHas_slave

/-- What holds of the outcome of an event at the node `i`. -/
structure Outcome.Ok (M ids : Finset Bytes) (votes : List Vote) (i : Bytes) (p : Peer) (o : Outcome) : Prop where
  peer : o.peer.Ok M ids (votes ++ o.votes i) i
  sent : ∀ m ∈ o.sent, m.Ok ids (votes ++ o.votes i)
  vote : ∀ v, o.vote = some v → p.state.lastVoteEpoch < v.2
  claim : ∀ e, o.claim = some e → Elected M votes i e

theorem Peer.Ok.outcome {p' : Peer} {sent : List Packet} (h : p'.Ok M ids votes i)
    (hsent : ∀ m ∈ sent, m.Ok ids votes := by simp) : Outcome.Ok M ids votes i p { peer := p', sent } where
  peer := by simpa [Outcome.votes] using h
  sent := by simpa [Outcome.votes] using hsent
  vote := by simp
  claim := by simp

/-- The votes that are counted come from masters, and a claim is made in the epoch of its election. -/
def Peer.Guard (M : Finset Bytes) (p : Peer) : PeerEvent → Prop
  | .handle k => ∀ m ∈ p.handlers[k]?, m.header.msgType = .failoverAuthAck → m.header.senderID ∈ M
  | .proceed _ _ _ => p.loop.isClaiming = true → ∀ fs ∈ p.state.failoverState, p.state.epoch = fs.reqEpoch
  | _ => True

instance : (e : PeerEvent) → Decidable (p.Guard M e)
  | .handle k =>
    inferInstanceAs (Decidable (∀ m ∈ p.handlers[k]?, m.header.msgType = .failoverAuthAck → m.header.senderID ∈ M))
  | .proceed _ _ _ =>
    inferInstanceAs (Decidable (p.loop.isClaiming = true → ∀ fs ∈ p.state.failoverState, p.state.epoch = fs.reqEpoch))
  | .receive _ _ _ | .readPong _ _ _ | .acknowledge _ | .gossip _ _ _ | .markPFail _ _ _ | .markNodeFail _ | .tick _ =>
    .isTrue trivial

namespace Peer.Ok

section

variable (h : p.Ok M ids votes i)
include h

theorem merge (hm : m.Ok ids votes) (senderIP : Bytes) (now : Int64) :
    p.state.SameRoles (p.state.mergeFromMessage (m.received senderIP now)) :=
  .mergeFromMessage ((h.table.known _).2 hm.sender) fun e he => (h.table.known _).2 (hm.entries e he)

theorem eraseHandler (k : Nat) : Peer.Ok M ids votes i { p with handlers := p.handlers.eraseIdx k } :=
  { h with handlers := fun m hm => h.handlers m (mem_of_mem_eraseIdx hm) }

theorem sender (hi : i ∈ ids) : p.state.self ∈ ids := h.table.self ▸ hi

theorem buildMessage (hi : i ∈ ids) {msgType : MsgType} (hack : msgType ≠ .failoverAuthAck)
    (order₁ order₂ : GoMap.Order Bytes ClusterNode) : (p.state.buildMessage msgType order₁ order₂).Ok ids votes := by
  have hothers : ∀ {order : GoMap.Order Bytes ClusterNode} {n}, n ∈ p.state.others order → n.id ∈ ids := by
    intro order n hn
    obtain ⟨x, -, hx⟩ := mem_filterMap.1 (mem_filter.1 hn).1
    rw [h.table.id hx, ← h.table.known, hx]
    rfl
  refine ⟨h.sender hi, fun e he => ?_, fun htype => absurd htype hack⟩
  obtain ⟨n, hn, rfl⟩ := mem_map.1 he
  rcases mem_append.1 (mem_of_mem_take hn) with hn | hn
  · exact hothers (mem_filter.1 (mem_of_mem_take hn)).1
  · exact hothers (mem_filter.1 hn).1

/-- A vote is cast in an epoch after all in which the node has voted. -/
theorem grant (hm : m.Ok ids votes) (hgrant : (p.state.handleAuthRequest m.header).2 = true) :
    Outcome.Ok M ids votes i p
      { peer := { p with
          state := (p.state.handleAuthRequest m.header).1
          granted := p.granted ++ [(m.header.senderID, m.header.currentEpoch)] }
        vote := some (m.header.senderID, m.header.currentEpoch) } := by
  have hstate : p.state.lastVoteEpoch < m.header.currentEpoch ∧
      (p.state.handleAuthRequest m.header).1 = { p.state with lastVoteEpoch := m.header.currentEpoch } := by
    grind [handleAuthRequest, grantVote, grants]
  obtain ⟨hlt, hstate⟩ := hstate
  have hsub : votes ⊆ votes ++ [⟨i, m.header.senderID, m.header.currentEpoch⟩] := subset_append_left _ _
  rw [hstate]
  refine ⟨⟨h.table.congr rfl rfl, fun fs hfs => ?_, fun v hv hi => ?_, fun g hg => ?_,
    fun m' hm' => (h.handlers m' hm').mono hsub, h.loop.congr rfl rfl⟩, by simp, fun v hv => ?_, by simp⟩
  · exact (h.election fs hfs).mono hsub
  · rcases mem_append.1 hv with hv | hv
    · exact UInt64.le_trans (h.voted v hv hi) (UInt64.le_of_lt hlt)
    · obtain rfl := mem_singleton.1 hv
      exact UInt64.le_refl _
  · rcases mem_append.1 hg with hg | hg
    · exact ⟨(h.granted g hg).1, hsub (h.granted g hg).2⟩
    · rw [mem_singleton.1 hg]
      exact ⟨hm.sender, mem_append_right _ (mem_singleton.2 rfl)⟩
  · obtain rfl := some.inj hv
    exact hlt

theorem recordVote (hm : m.Ok ids votes) (hack : m.header.msgType = .failoverAuthAck) (hM : m.header.senderID ∈ M) :
    Peer.Ok M ids votes i { p with state := p.state.handleAuthAck m.header m.entries } := by
  rw [handleAuthAck]
  split
  · rename_i hnamed
    rw [ClusterState.recordVote]
    cases hfs : p.state.failoverState with
    | none => exact h
    | some fs =>
      dsimp only
      split
      · rename_i hnew
        have hcounts := h.election fs hfs
        obtain ⟨e, he, hid⟩ := mem_map.1 hnamed.2
        have hvote := hm.ack hack e he
        rw [hid, h.table.self, hnew.2.1] at hvote
        refine ⟨h.table.congr rfl rfl, fun fs' hfs' => ?_, h.voted, h.granted, h.handlers, ?_⟩
        · obtain rfl := some.inj hfs'
          refine ⟨hcounts.needed, nodup_cons.2 ⟨hnew.2.2, hcounts.nodup⟩, fun v hv => ?_⟩
          rcases mem_cons.1 hv with rfl | hv
          · exact ⟨hM, hvote⟩
          · exact hcounts.cast v hv
        · have hloop := h.loop
          cases hl : p.loop with
          | claiming masterID =>
            rw [hl] at hloop
            obtain ⟨fs', hfs', hwon⟩ := hloop
            obtain rfl := some.inj (hfs.symm.trans hfs')
            exact ⟨_, rfl, hwon.trans (Nat.le_succ _)⟩
          | _ =>
            rw [hl] at hloop
            exact hloop
      · exact h
  · exact h

end

variable {order₁ order₂ : GoMap.Order Bytes ClusterNode}

section

variable (h : p.Ok M ids votes i)
include h

theorem claim (hi : i ∈ ids) {masterID : Bytes} (hloop : p.loop = .claiming masterID)
    (hepoch : ∀ fs, p.state.failoverState = some fs → p.state.epoch = fs.reqEpoch) {now : Int} :
    Outcome.Ok M ids votes i p (p.proceed now order₁ order₂) := by
  obtain ⟨fs, hfs, hwon⟩ : ∃ fs, p.state.failoverState = some fs ∧ fs.votesNeeded ≤ fs.votesReceived.length := by
    have := h.loop
    rwa [hloop] at this
  obtain ⟨hlast, hfs'⟩ := p.state.votes_claimOwnership masterID
  have hpeer : Peer.Ok M ids votes i { p with state := p.state.claimOwnership masterID, loop := .idle } := by
    refine ⟨h.table.claimOwnership masterID, fun fs' hclaim => ?_, fun v hv hi => ?_, h.granted, h.handlers, trivial⟩
    · obtain ⟨fs, hfs, heq⟩ := hfs' fs' hclaim
      have hcounts := h.election fs hfs
      rw [heq]
      exact ⟨hcounts.needed, hcounts.nodup, hcounts.cast⟩
    · exact hlast ▸ h.voted v hv hi
  have hproceed : p.proceed now order₁ order₂ =
      { peer := { p with state := p.state.claimOwnership masterID, loop := .idle }
        claim := if (p.state.nodes.get masterID).isSome then
          (p.state.claimOwnership masterID).epochOf (p.state.claimOwnership masterID).self else none } := by
    rw [Peer.proceed, hloop]
  rw [hproceed]
  refine ⟨by simpa [Outcome.votes] using hpeer, by simp, by simp, fun e he => ?_⟩
  split at he
  · rename_i hknown
    rw [epochOf_claimOwnership hknown ((h.table.known _).2 (h.sender hi))] at he
    rw [← some.inj he, hepoch fs hfs]
    exact (h.election fs hfs).elected hwon
  · cases he

theorem withLoop {l : Loop} (hl : l.Ok M p.state) : Peer.Ok M ids votes i { p with loop := l } :=
  { h with loop := hl }

theorem stopElection : Peer.Ok M ids votes i { p with state := p.state.stopElection, loop := .idle } := by
  refine ⟨h.table.stopElection, fun fs' hfs' => ?_, h.voted, h.granted, h.handlers, trivial⟩
  obtain ⟨fs, hfs, rfl⟩ := map_eq_some_iff.1 hfs'
  have hcounts := h.election fs hfs
  exact ⟨hcounts.needed, hcounts.nodup, hcounts.cast⟩

theorem proceed (hi : i ∈ ids) (hM : M ⊆ ids) {now : Int} (hok : p.Guard M (.proceed now order₁ order₂)) :
    Outcome.Ok M ids votes i p (p.proceed now order₁ order₂) := by
  have hloop := h.loop
  obtain ⟨state, loop, handlers, granted⟩ := p
  cases loop with
  | claiming masterID => exact h.claim hi rfl (hok rfl)
  | idle => exact h.outcome
  | expiring => exact h.stopElection.outcome
  | sleeping masterID =>
    refine (h.withLoop ?_).outcome
    split
    · exact hloop
    · trivial
  | starting masterID =>
    exact Peer.Ok.outcome ⟨h.table.congr rfl rfl, h.election, h.voted, h.granted, h.handlers, hloop⟩
  | electing masterID reqEpoch =>
    refine (h.withLoop ?_).outcome
    show state.masterCount / 2 + 1 = M.card / 2 + 1
    rw [h.table.masterCount hM hloop]
  | counted masterID reqEpoch votesNeeded =>
    refine Peer.Ok.outcome ?_
    refine ⟨h.table.congr rfl rfl, fun fs hfs => ?_, h.voted, h.granted, h.handlers, trivial⟩
    obtain rfl := some.inj hfs
    exact ⟨hloop, nodup_nil, by simp⟩
  | requesting =>
    refine (h.withLoop (l := .idle) trivial).outcome ?_
    rw [forall_mem_singleton]
    exact h.buildMessage hi (by decide) order₁ order₂

theorem tick (now : Int) : (p.tick now).Ok M ids votes i := by
  rw [Peer.tick]
  split
  · rename_i hfailed
    have hslave : p.state.selfHas .slave = true := by
      simp only [masterFailed, Bool.and_eq_true] at hfailed
      exact hfailed.1.1
    cases hfs : p.state.failoverState with
    | none => exact h.withLoop hslave
    | some fs =>
      dsimp only
      split
      · split
        · exact h.withLoop ⟨fs, hfs, ‹_›⟩
        · split
          · exact h.withLoop trivial
          · exact h
      · exact h.withLoop hslave
  · exact h

theorem handle (hm : m.Ok ids votes)
    (hok : m.header.msgType = .failoverAuthAck → m.header.senderID ∈ M) : Outcome.Ok M ids votes i p (p.handle m) := by
  rw [Peer.handle]
  split
  · dsimp only
    split
    · exact h.grant hm ‹_›
    · exact h.outcome
  · rename_i hack
    exact (h.recordVote hm hack (hok hack)).outcome
  · exact h.outcome

theorem step (hi : i ∈ ids) (hM : M ⊆ ids) {e : PeerEvent}
    (hm : ∀ m, e.message = some m → m.Ok ids votes) (hok : p.Guard M e) : Outcome.Ok M ids votes i p (p.step e) := by
  cases e with
  | receive m senderIP now =>
    have hmerge := h.sameRoles (h.merge (hm m rfl) senderIP now)
    refine Peer.Ok.outcome { hmerge with handlers := fun m' hm' => ?_ }
    rcases mem_append.1 hm' with hm' | hm'
    · exact h.handlers m' hm'
    · exact mem_singleton.1 hm' ▸ hm m rfl
  | readPong m senderIP now => exact (h.sameRoles (h.merge (hm m rfl) senderIP now)).outcome
  | handle k =>
    rw [Peer.step]
    cases hk : p.handlers[k]? with
    | none => exact h.outcome
    | some m =>
      have hout := (h.eraseHandler k).handle (h.handlers m (mem_of_getElem? hk)) (hok m hk)
      exact ⟨hout.peer, hout.sent, hout.vote, hout.claim⟩
  | acknowledge k =>
    rw [Peer.step]
    cases hk : p.granted[k]? with
    | none => exact h.outcome
    | some g =>
      obtain ⟨hcandidate, hvote⟩ := h.granted g (mem_of_getElem? hk)
      refine Peer.Ok.outcome { h with granted := fun g' hg' => ?_ } ?_
      · exact h.granted g' (mem_of_mem_eraseIdx hg')
      · rw [forall_mem_singleton]
        refine ⟨h.sender hi, ?_, fun _ => ?_⟩
        · exact forall_mem_singleton.2 hcandidate
        · refine forall_mem_singleton.2 ?_
          show (⟨p.state.self, g.1, g.2⟩ : Vote) ∈ votes
          rw [h.table.self]
          exact hvote
  | gossip msgType order₁ order₂ =>
    rw [Peer.step]
    split
    · exact h.outcome
    · rename_i htype
      refine h.outcome ?_
      rw [forall_mem_singleton]
      exact h.buildMessage hi (fun hack => htype (.inr hack)) order₁ order₂
  | markPFail id now timeout => exact (h.sameRoles (.markPFail _ id now timeout)).outcome
  | markNodeFail id => exact (h.sameRoles (.markNodeFail _ id)).outcome
  | tick now =>
    rw [Peer.step]
    split
    · exact (h.tick now).outcome
    · exact h.outcome
  | proceed now order₁ order₂ => exact h.proceed hi hM hok

end

end Peer.Ok

end invariant

/-! ## Runs -/

namespace Bus

variable {M : Finset Bytes} {b : Bus}

/-- The nodes of the bus have just been started: each knows all of them, and which are masters. -/
structure Initial (M : Finset Bytes) (b : Bus) : Prop where
  masters : M ⊆ b.ids
  table : ∀ i ∈ b.ids, Table M b.ids i (b.peer i).state
  quiet : ∀ i ∈ b.ids, (b.peer i).state.failoverState = none ∧ (b.peer i).loop = .idle ∧ (b.peer i).handlers = [] ∧
    (b.peer i).granted = []
  sent : b.sent = []
  votes : b.votes = []
  claims : b.claims = []

/-- No two nodes claim with one config epoch, and each claim is made with the votes of a majority of the
masters in its epoch. -/
def Safe (M : Finset Bytes) (b : Bus) : Prop :=
  (∀ c ∈ b.claims, ∀ c' ∈ b.claims, c.epoch = c'.epoch → c.node = c'.node) ∧
    ∀ c ∈ b.claims, Elected M b.votes c.node c.epoch

def Guard (M : Finset Bytes) (b : Bus) (a : Bytes × PeerEvent) : Prop := (b.peer a.1).Guard M a.2

instance (a : Bytes × PeerEvent) : Decidable (b.Guard M a) := inferInstanceAs (Decidable ((b.peer a.1).Guard M a.2))

structure Inv (M : Finset Bytes) (b : Bus) : Prop where
  masters : M ⊆ b.ids
  peer : ∀ i ∈ b.ids, (b.peer i).Ok M b.ids b.votes i
  sent : ∀ m ∈ b.sent, m.Ok b.ids b.votes
  once : ∀ v ∈ b.votes, ∀ v' ∈ b.votes, v.voter = v'.voter → v.epoch = v'.epoch → v.candidate = v'.candidate
  claims : ∀ c ∈ b.claims, Elected M b.votes c.node c.epoch

theorem Initial.inv (h : b.Initial M) : b.Inv M where
  masters := h.masters
  peer i hi := by
    obtain ⟨hfs, hloop, hhandlers, hgranted⟩ := h.quiet i hi
    refine ⟨h.table i hi, by simp [hfs], by simp [h.votes], by simp [hgranted], by simp [hhandlers], ?_⟩
    rw [hloop]
    trivial
  sent := by simp [h.sent]
  once := by simp [h.votes]
  claims := by simp [h.claims]

theorem Inv.safe (h : b.Inv M) : b.Safe M := by
  refine ⟨fun c hc c' hc' heq => ?_, h.claims⟩
  have hc' := h.claims c' hc'
  rw [← heq] at hc'
  exact (h.claims c hc).eq hc' h.once

theorem Inv.update (h : b.Inv M) {i : Bytes} (hi : i ∈ b.ids) {o : Outcome}
    (ho : Outcome.Ok M b.ids b.votes i (b.peer i) o) : (b.update i o).Inv M := by
  have hsub : b.votes ⊆ b.votes ++ o.votes i := subset_append_left _ _
  have hnew : ∀ v ∈ o.votes i, v.voter = i ∧ (b.peer i).state.lastVoteEpoch < v.epoch := by
    intro v hv
    obtain ⟨w, hw, rfl⟩ := mem_map.1 hv
    exact ⟨rfl, ho.vote w (mem_toList.1 hw)⟩
  -- a new vote is in a later epoch than the votes of its voter before
  have hlater : ∀ v ∈ b.votes, ∀ v' ∈ o.votes i, v.voter = v'.voter → v.epoch ≠ v'.epoch := by
    intro v hv v' hv' hvoter hepoch
    obtain ⟨hi', hlt⟩ := hnew v' hv'
    have hle := (h.peer i hi).voted v hv (hvoter.trans hi')
    rw [hepoch] at hle
    exact UInt64.lt_irrefl _ (UInt64.lt_of_lt_of_le hlt hle)
  refine ⟨h.masters, fun j hj => ?_, fun m hm => ?_, fun v hv v' hv' hvoter hepoch => ?_, fun c hc => ?_⟩
  · show (Function.update b.peer i o.peer j).Ok M b.ids (b.votes ++ o.votes i) j
    by_cases hji : j = i
    · subst hji
      rw [Function.update_self]
      exact ho.peer
    · rw [Function.update_of_ne hji]
      refine (h.peer j hj).mono hsub fun v hv => ?_
      rcases mem_append.1 hv with hv | hv
      · exact .inl hv
      · exact .inr ((hnew v hv).1 ▸ Ne.symm hji)
  · rcases mem_append.1 hm with hm | hm
    · exact (h.sent m hm).mono hsub
    · exact ho.sent m hm
  · rcases mem_append.1 hv with hv | hv
    · rcases mem_append.1 hv' with hv' | hv'
      · exact h.once v hv v' hv' hvoter hepoch
      · exact absurd hepoch (hlater v hv v' hv' hvoter)
    · rcases mem_append.1 hv' with hv' | hv'
      · exact absurd hepoch.symm (hlater v' hv' v hv hvoter.symm)
      · obtain ⟨w, hw, rfl⟩ := mem_map.1 hv
        obtain ⟨w', hw', rfl⟩ := mem_map.1 hv'
        rw [some.inj ((mem_toList.1 hw).symm.trans (mem_toList.1 hw'))]
  · rcases mem_append.1 hc with hc | hc
    · exact (h.claims c hc).mono hsub
    · obtain ⟨e, he, rfl⟩ := mem_map.1 hc
      exact (ho.claim e (mem_toList.1 he)).mono hsub

theorem Inv.step (h : b.Inv M) {a : Bytes × PeerEvent} (ha : b.Guard M a) : (b.step a).Inv M := by
  rw [Bus.step]
  split
  · rename_i hcan
    exact h.update hcan.1 ((h.peer a.1 hcan.1).step hcan.1 h.masters (fun m hm => h.sent m (hcan.2 m hm)) ha)
  · exact h

/-- In every run in which counted votes come from masters and claims are made in the epoch of their
election, failover is safe. -/
theorem safe_run (h : b.Initial M) {acts : List (Bytes × PeerEvent)} (hg : Guarded Bus.step (Guard M) b acts) :
    (b.run acts).Safe M :=
  (hg.run (fun _ _ hs ha => hs.step ha) h.inv).safe

/-! ## Runs without slots

`mergeFromMessage` goes through all slots. Runs in which no node that sends has slots
are evaluated without these rounds. -/

end Bus

/-- `mergeFromMessage` for a message without slots. -/
def ClusterState.mergeNoSlots (s : ClusterState) (m : Message) : ClusterState :=
  let s := if s.epoch < m.header.currentEpoch then { s with epoch := m.header.currentEpoch } else s
  let s := s.meetSender m.header.senderID
  let s := if (s.nodes.get m.header.senderID).isSome then s.modifyNode m.header.senderID (updateSender m) else s
  m.entries.foldl (mergeEntry m.header.senderID) s

theorem ClusterState.mergeFromMessage_eq {s : ClusterState} {m : Message} (h : m.header.slots = 0) :
    s.mergeFromMessage m = s.mergeNoSlots m := by
  have hfold (l : List Nat) (s : ClusterState) : l.foldl (adoptSlot m.header) s = s :=
    foldl_fixed' (fun slot => by rw [adoptSlot, if_neg (by simp [h])]) l
  rw [mergeFromMessage, mergeNoSlots, mergeHeader, hfold]

namespace Peer

/-- `step` where messages have no slots, and claims are of known masters. -/
def eval (p : Peer) : PeerEvent → Outcome
  | .receive m senderIP now =>
    { peer := { p with state := p.state.mergeNoSlots (m.received senderIP now), handlers := p.handlers ++ [m] } }
  | .proceed now order₁ order₂ =>
    { p.proceed now order₁ order₂ with claim := if p.loop.isClaiming then some p.state.epoch else none }
  | e => p.step e

/-- Where `eval` can be used. -/
def Agrees (p : Peer) : PeerEvent → Bool
  | .receive m _ _ => m.header.slots = 0
  | .proceed _ _ _ => match p.loop with
    | .claiming masterID => (p.state.nodes.get masterID).isSome && (p.state.nodes.get p.state.self).isSome
    | _ => true
  | _ => true

theorem step_eq_eval {p : Peer} {e : PeerEvent} (h : p.Agrees e = true) : p.step e = p.eval e := by
  cases e with
  | receive m senderIP now =>
    have hslots : m.header.slots = 0 := by simpa [Agrees] using h
    rw [step, eval, mergeFromMessage_eq hslots]
  | proceed now order₁ order₂ =>
    rw [step, eval]
    cases hl : p.loop with
    | claiming masterID =>
      simp only [Agrees, hl, Bool.and_eq_true] at h
      rw [proceed, hl]
      dsimp only
      rw [if_pos h.1, epochOf_claimOwnership h.1 h.2]
      rfl
    | _ => rw [proceed, hl]; rfl
  | _ => rfl

end Peer

namespace Bus

def eval (b : Bus) (a : Bytes × PeerEvent) : Bus :=
  if a.1 ∈ b.ids ∧ ∀ m ∈ a.2.message, m ∈ b.sent then b.update a.1 ((b.peer a.1).eval a.2) else b

theorem step_eq_eval {b : Bus} {a : Bytes × PeerEvent} (h : (b.peer a.1).Agrees a.2 = true) : b.step a = b.eval a := by
  rw [step, eval, Peer.step_eq_eval h]

/-! ## Two replicas of a failed master -/

/-- Three masters, of which `f` has failed, and two replicas of it. -/
def tableNodes : List ClusterNode :=
  [{ id := "f", flags := (Flags.set 0 .master).set .fail, slots := 1 }, { id := "a", flags := Flags.set 0 .master },
   { id := "b", flags := Flags.set 0 .master }, { id := "r", flags := Flags.set 0 .slave, masterID := "f" },
   { id := "s", flags := Flags.set 0 .slave, masterID := "f" }]

variable (i : Bytes)

def stateOf : ClusterState where
  self := i
  nodes := ofList (·.id) tableNodes
  slots slot := if slot = 0 then some (str "f") else none
  epoch := 4
  lastVoteEpoch := 0
  failureReports _ := []
  failoverState := none

def started : Bus where
  ids := {str "f", str "a", str "b", str "r", str "s"}
  peer i := { state := stateOf i }

noncomputable def listed : GoMap.Order Bytes ClusterNode := .ofList ["f", "a", "b", "r", "s"] (by decide)

/-- The ping loop from the failure of the master to the AUTH_REQUEST. -/
noncomputable def asks : List (Bytes × PeerEvent) := (i, .tick 0) :: List.replicate 5 (i, .proceed 0 listed listed)

def request (epoch : UInt64) : Packet where
  header := { msgType := .failoverAuthRequest, currentEpoch := epoch, configEpoch := 0, port := 0, cport := 0
              flags := Flags.set 0 .slave, senderID := i, slots := 0 }
  entries := [{ id := "f", flags := (Flags.set 0 .master).set .fail }, { id := "a", flags := Flags.set 0 .master },
    { id := "b", flags := Flags.set 0 .master }]

def ack (i candidate : Bytes) (epoch : UInt64) : Packet where
  header := { msgType := .failoverAuthAck, currentEpoch := epoch, configEpoch := epoch, port := 0, cport := 0
              flags := Flags.set 0 .master, senderID := i, slots := 0 }
  entries := [{ id := candidate }]

def gets (m : Packet) : List (Bytes × PeerEvent) := [(i, .receive m [] 0), (i, .handle 0)]

/-- The replica asks for votes, and the two masters that have not failed vote. -/
noncomputable def election (epoch : UInt64) : List (Bytes × PeerEvent) :=
  asks i ++ gets (str "a") (request i epoch) ++ [(str "a", .acknowledge 0)] ++ gets (str "b") (request i epoch) ++
    [(str "b", .acknowledge 0)] ++ gets i (ack (str "a") i epoch) ++ gets i (ack (str "b") i epoch)

noncomputable def wins : List (Bytes × PeerEvent) := [(i, .tick 0), (i, .proceed 0 listed listed)]

theorem initial_started : started.Initial {str "f", str "a", str "b"} := by
  have hids : ∀ x, (get (ofList (·.id) tableNodes) x).isSome ↔ x ∈ started.ids := by
    intro x
    have hkeys : (ofList (·.id) tableNodes).keys = started.ids := by decide +kernel
    rw [← hkeys, Finmap.mem_keys, GoMap.get, Finmap.lookup_isSome]
  have hall : ∀ n ∈ tableNodes, (n.flags.has .master = true ↔ n.id ∈ ({str "f", str "a", str "b"} : Finset Bytes)) ∧
      (n.flags.has .slave = true → n.flags.has .master = false) := by
    decide +kernel
  refine ⟨by decide +kernel, fun i hi => ?_, fun _ _ => ⟨rfl, rfl, rfl, rfl⟩, rfl, rfl, rfl⟩
  refine ⟨rfl, hids, fun hn => (get_ofList hn).2, fun {x n} _ hn => ?_, fun {n} hn hslave => ?_⟩
  · obtain ⟨hmem, rfl⟩ := get_ofList hn
    exact (hall n hmem).1
  · obtain ⟨hmem, rfl⟩ := get_ofList hn
    have hmaster := (hall n hmem).2 hslave
    refine ⟨hmaster, fun hM => ?_⟩
    rw [(hall n hmem).1.2 hM] at hmaster
    cases hmaster

theorem safe_run_election : started.Initial {str "f", str "a", str "b"} ∧
    Guarded step (Guard {str "f", str "a", str "b"}) started (election (str "r") 5 ++ wins (str "r")) ∧
    (started.run (election (str "r") 5 ++ wins (str "r"))).claims = [⟨str "r", 5⟩] ∧
    (started.run (election (str "r") 5 ++ wins (str "r"))).Safe {str "f", str "a", str "b"} := by
  have hg : Guarded eval (fun b a => b.Guard {str "f", str "a", str "b"} a ∧ (b.peer a.1).Agrees a.2 = true) started
      (election (str "r") 5 ++ wins (str "r")) := by
    decide +kernel
  obtain ⟨hrun, hg⟩ := hg.congr fun b a h => step_eq_eval h.2
  have hguard := hg.imp fun _ _ h => h.1
  refine ⟨initial_started, hguard, ?_, safe_run initial_started hguard⟩
  rw [run, hrun]
  decide +kernel

/-- The replica `r` is elected, but before it claims it learns the epoch of the election of `s`. -/
noncomputable def overtaken : List (Bytes × PeerEvent) :=
  election "r" 5 ++ gets "s" (request "r" 5) ++ election "s" 6 ++
    gets (str "r") (request (str "s") 6) ++ wins (str "r") ++ wins (str "s")

/-- Both replicas claim with the epoch that only the second was elected in. -/
theorem overtaken_claims : ¬∀ M b acts, Initial M b → (b.run acts).Safe M := by
  intro h
  have hg : Guarded eval (fun b a => (b.peer a.1).Agrees a.2 = true) started overtaken := by decide +kernel
  have hclaims : (started.run overtaken).claims = [⟨"r", 6⟩, ⟨"s", 6⟩] := by
    rw [run, (hg.congr fun b a h => step_eq_eval h).1]
    decide +kernel
  have hsafe := (h _ started overtaken initial_started).1
  rw [hclaims] at hsafe
  exact absurd (hsafe ⟨"r", 6⟩ (by simp) ⟨"s", 6⟩ (by simp) rfl) (by decide)

end Bus

end Hayakv.Cluster
