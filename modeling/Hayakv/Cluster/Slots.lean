import Hayakv.Cluster.Commands

/-!
# The slot map and the bitmaps agree

The owner of a slot stands in the slot map and in the bitmaps of the nodes. In
every state a node comes to, the two agree (`Consistent`), as long as the texts that
messages and commands bring in are single words (`Event.Clean`): `nodes.conf` is a
file of words, and a node that starts reads its slots from it.

Each event keeps an invariant (`Good`). All that it does to slots is made of one kind
of step, in which a slot goes from its owner, if it has one, to another or to none
(`Moves`).
-/

namespace Hayakv.Cluster

open ClusterNode hiding id
open Option (any_eq_true map_eq_some_iff map_some some some_ne_none)
open Except GoMap
open List hiding any_eq_true

/-- The texts of the message are words, and none of its ids is `vars`. -/
structure Message.Clean (m : Message) : Prop where
  sender : ClusterNode.Clean m.header.senderID
  vars : m.header.senderID ≠ "vars"
  senderIP : ClusterNode.Clean m.senderIP
  entries : ∀ e ∈ m.entries, ClusterNode.Clean e.id ∧ e.id ≠ "vars" ∧ ClusterNode.Clean e.ip

/-- The texts that a command brings in are words. -/
def Admin.Clean : Admin → Prop
  | .meet args answer => (∀ ip ∈ args.head?, ClusterNode.Clean ip) ∧ ∀ m, answer = .ok m → m.Clean
  | _ => True

namespace ClusterState

structure Good (s : ClusterState) : Prop extends s.Readable where
  myself : s.isMyself s.self = true
  consistent : s.Consistent

variable {s t : ClusterState} {slot : Nat}

namespace Good

theorem node (h : s.Good) {x : Bytes} {n : ClusterNode} (hn : s.nodes.get x = some n) :
    n.id = x ∧ n.Plain ∧ x ≠ "vars" :=
  ⟨h.id hn, h.plain hn, h.vars hn⟩

theorem self_node (h : s.Good) : ∃ n, s.nodes.get s.self = some n ∧ n.flags.has .myself = true := by
  simpa [isMyself, any_eq_true] using h.myself

theorem of_nodes (hnode : ∀ {x n}, t.nodes.get x = some n → n.id = x ∧ n.Plain ∧ x ≠ "vars")
    (hself : ∃ n, t.nodes.get t.self = some n ∧ n.flags.has .myself = true) (hc : t.Consistent) : t.Good where
  id hn := (hnode hn).1
  plain hn := (hnode hn).2.1
  vars hn := (hnode hn).2.2
  myself := by simpa [isMyself, any_eq_true] using hself
  consistent := hc

theorem known (h : s.Good) : (s.nodes.get s.self).isSome := h.self_node.elim fun _ hn => hn.1 ▸ rfl

theorem congr (h : s.Good) (hself : t.self = s.self) (hnodes : t.nodes = s.nodes) (hslots : t.slots = s.slots) :
    t.Good := by
  refine ⟨⟨hnodes ▸ h.id, hnodes ▸ h.plain, hnodes ▸ h.vars⟩, ?_, ?_⟩
  · rw [isMyself, hnodes, hself]
    exact h.myself
  · rw [Consistent, hnodes, hslots]
    exact h.consistent

theorem modifyNode (h : s.Good) {id : Bytes} {f : ClusterNode → ClusterNode} (hid : ∀ n, (f n).id = n.id)
    (hslots : ∀ n, (f n).slots = n.slots) (hplain : ∀ n, s.nodes.get id = some n → n.Plain → (f n).Plain)
    (hmyself : ∀ n, n.flags.has .myself = true → (f n).flags.has .myself = true) : (s.modifyNode id f).Good := by
  refine of_nodes (fun hn' => ?_) ?_ fun slot x => ?_
  · obtain ⟨n, hn, rfl⟩ := map_eq_some_iff.1 (get_modify.symm.trans hn')
    obtain ⟨hx, hp, hvars⟩ := h.node hn
    split
    · exact ⟨(hid n).trans hx, hplain n (‹_ = id› ▸ hn) hp, hvars⟩
    · exact ⟨hx, hp, hvars⟩
  · obtain ⟨n, hn, hf⟩ := h.self_node
    refine ⟨_, get_modify.trans (congrArg _ hn), ?_⟩
    split
    · exact hmyself n hf
    · exact hf
  · rw [show (s.modifyNode id f).slots = s.slots from rfl, h.consistent slot x, ClusterState.modifyNode, get_modify]
    cases s.nodes.get x with
    | none => rfl
    | some n => by_cases hx : x = id <;> simp [hx, hasSlot, hslots]

end Good

/-! ## A slot gets another owner -/

/-- The slot has gone to `owner`, and nothing else has changed in the slot map and the nodes. -/
structure Moves (slot : Nat) (owner : Option Bytes) (s t : ClusterState) : Prop where
  self : t.self = s.self
  slots : t.slots = Function.update s.slots slot owner
  nodes : ∀ x, s.nodes.get x = none ∧ t.nodes.get x = none ∨ ∃ n n', s.nodes.get x = some n ∧
    t.nodes.get x = some n' ∧ n' = { n with slots := n'.slots } ∧
    ∀ sl, n'.hasSlot sl = if sl = slot then decide (owner = some x) else n.hasSlot sl

theorem Good.moves {owner : Option Bytes} (h : s.Good) (hm : Moves slot owner s t)
    (howner : ∀ id, owner = some id → (s.nodes.get id).isSome) : t.Good := by
  refine of_nodes (fun {x _} hn' => ?_) ?_ fun sl x => ?_
  · rcases hm.nodes x with ⟨-, hnone⟩ | ⟨n, m, hn, hm', heq, -⟩
    · simp [hnone] at hn'
    · obtain ⟨hid, hp, hvars⟩ := h.node hn
      rw [← some.inj (hm'.symm.trans hn'), heq]
      exact ⟨hid, { hp with }, hvars⟩
  · obtain ⟨m, hself, hf⟩ := h.self_node
    rw [hm.self]
    rcases hm.nodes s.self with ⟨hnone, -⟩ | ⟨n, n', hn, hn', heq, -⟩
    · simp [hnone] at hself
    · obtain rfl := some.inj (hself.symm.trans hn)
      exact ⟨n', hn', heq ▸ hf⟩
  · rw [hm.slots]
    rcases hm.nodes x with ⟨hnone, hnone'⟩ | ⟨n, n', hn, hn', -, hbits⟩
    · refine iff_of_false (fun hsl => ?_) (by simp [hnone'])
      by_cases hs : sl = slot
      · rw [hs, Function.update_self] at hsl
        have := howner x hsl
        simp [hnone] at this
      · rw [Function.update_of_ne hs, h.consistent] at hsl
        simp [hnone] at hsl
    · simp only [hn', some.injEq, exists_eq_left', hbits]
      by_cases hs : sl = slot
      · simp [hs]
      · rw [Function.update_of_ne hs, if_neg hs, h.consistent sl x]
        simp [hn]

theorem moves_takeSlot {b : Bytes} (hslot : slot < slotCount)
    (honly : ∀ x n, s.nodes.get x = some n → n.hasSlot slot = true → x = b) :
    Moves slot (some b) s (s.takeSlot b slot) := by
  refine ⟨rfl, rfl, fun x => ?_⟩
  have hget : (s.takeSlot b slot).nodes.get x = (s.nodes.get x).map fun n => if x = b then n.addSlot slot else n :=
    get_modify
  rw [hget]
  cases hn : s.nodes.get x with
  | none => exact .inl ⟨rfl, rfl⟩
  | some n =>
    refine .inr ⟨n, if x = b then n.addSlot slot else n, rfl, rfl, ?_, fun sl => ?_⟩
    · split <;> rfl
    · by_cases hs : sl = slot <;> by_cases hx : x = b <;> simp [hs, hx, hslot]
      grind

/-- It makes no difference that the slot is first deleted from some node. -/
theorem Moves.of_delSlot {owner : Option Bytes} {a : Bytes}
    (hm : Moves slot owner (s.modifyNode a (·.delSlot slot)) t) : Moves slot owner s t := by
  refine ⟨hm.self, hm.slots, fun x => ?_⟩
  have hget : (s.modifyNode a (·.delSlot slot)).nodes.get x = _ := get_modify
  rcases hm.nodes x with ⟨hnone, hnone'⟩ | ⟨m, n', hm', hn', heq, hbits⟩
  · exact .inl ⟨Option.map_eq_none_iff.1 (hget.symm.trans hnone), hnone'⟩
  obtain ⟨n, hn, rfl⟩ := map_eq_some_iff.1 (hget.symm.trans hm')
  refine .inr ⟨n, n', hn, hn', heq.trans (by split <;> rfl), fun sl => ?_⟩
  rw [hbits]
  by_cases hs : sl = slot
  · simp [hs]
  · by_cases hx : x = a <;> simp [hs, hx]

namespace Good

variable {id : Bytes} {n : ClusterNode}

section

variable (h : s.Good)
include h

theorem owner (hs : s.slots slot = some id) : (s.nodes.get id).isSome ∧ slot < slotCount := by
  obtain ⟨n, hn, hbit⟩ := (h.consistent slot id).1 hs
  exact ⟨hn ▸ rfl, hasSlot_lt hbit⟩

theorem owns {x : Bytes} (hn : s.nodes.get x = some n) (hbit : n.hasSlot slot = true) : s.slots slot = some x :=
  (h.consistent slot x).2 ⟨n, hn, hbit⟩

theorem take {b : Bytes} (hslot : slot < slotCount) (hb : (s.nodes.get b).isSome)
    (hfree : s.slots slot = none ∨ s.slots slot = some b) : (s.takeSlot b slot).Good := by
  refine h.moves (moves_takeSlot hslot fun x n hn hbit => ?_) fun id hid => some.inj hid ▸ hb
  rcases hfree with hnone | hown
  · rw [h.owns hn hbit] at hnone
    cases hnone
  · exact some.inj ((h.owns hn hbit).symm.trans hown)

theorem takeFrom {a b : Bytes} (ha : s.slots slot = some a) (hb : (s.nodes.get b).isSome) :
    ((s.modifyNode a (·.delSlot slot)).takeSlot b slot).Good := by
  refine h.moves (Moves.of_delSlot (moves_takeSlot (h.owner ha).2 fun x n hn hbit => ?_))
    fun id hid => some.inj hid ▸ hb
  obtain ⟨m, hm, rfl⟩ := map_eq_some_iff.1 (get_modify.symm.trans hn)
  split at hbit
  · simp at hbit
  · rename_i hx
    exact absurd (some.inj ((h.owns hm hbit).symm.trans ha)) hx

theorem delSlot (slot : Nat) : (s.delSlot slot).Good := by
  have hget : ∀ x, (s.delSlot slot).nodes.get x =
      (s.nodes.get x).map fun n => if x = s.self then n.delSlot slot else n := fun x => by
    rw [ClusterState.delSlot]
    split <;> exact get_modify
  have hm : Moves slot (if s.slots slot = some s.self then none else s.slots slot) s (s.delSlot slot) := by
    refine ⟨?_, ?_, fun x => ?_⟩
    · rw [ClusterState.delSlot]
      split <;> rfl
    · rw [ClusterState.delSlot]
      split
      · rfl
      · exact (Function.update_eq_self ..).symm
    · rw [hget]
      cases hn : s.nodes.get x with
      | none => exact .inl ⟨rfl, rfl⟩
      | some n =>
        have hbit : n.hasSlot slot = decide (s.slots slot = some x) := by
          rw [Bool.eq_iff_iff, decide_eq_true_eq, h.consistent slot x]
          simp [hn]
        refine .inr ⟨n, if x = s.self then n.delSlot slot else n, rfl, rfl, ?_, fun sl => ?_⟩
        · split <;> rfl
        · by_cases hs : sl = slot <;> by_cases hx : x = s.self <;> simp [hs, hx]
          grind
  refine h.moves hm fun id hid => ?_
  split at hid
  · cases hid
  · exact (h.owner hid).1

theorem delSlots (slots : List Nat) : (s.delSlots slots).Good := foldl_invariant (fun _ sl h => h.delSlot sl) h slots

theorem bumpEpoch (id : Bytes) : (s.bumpEpoch id).Good :=
  (h.congr (t := { s with epoch := s.epoch + 1 }) rfl rfl rfl).modifyNode (fun _ => rfl) (fun _ => rfl)
    (fun _ _ hp => { hp with }) fun _ hf => hf

theorem foldl_addSlot {slots : List Nat} (hlt : ∀ sl ∈ slots, sl < slotCount)
    (hfree : ∀ sl ∈ slots, s.slots sl = none ∨ s.slots sl = some s.self) : (slots.foldl addSlot s).Good := by
  induction slots generalizing s with
  | nil => exact h
  | cons sl slots ih =>
    have hgood : (s.takeSlot s.self sl).Good := h.take (hlt sl mem_cons_self) h.known (hfree sl mem_cons_self)
    refine ih hgood (fun x hx => hlt x (mem_cons_of_mem sl hx)) fun x hx => ?_
    show Function.update s.slots sl (some s.self) x = none ∨ Function.update s.slots sl (some s.self) x = some s.self
    by_cases hxs : x = sl
    · rw [hxs, Function.update_self]
      exact .inr rfl
    · rw [Function.update_of_ne hxs]
      exact hfree x (mem_cons_of_mem sl hx)

theorem addSlots {slots : List Nat} (hlt : ∀ sl ∈ slots, sl < slotCount)
    (hfree : ∀ sl ∈ slots, s.slots sl = none) : (s.addSlots slots).Good := by
  rw [ClusterState.addSlots]
  split
  · exact h.foldl_addSlot hlt fun sl hsl => .inl (hfree sl hsl)
  · exact (h.bumpEpoch s.self).foldl_addSlot hlt fun sl hsl => .inl (hfree sl hsl)

theorem assignSlotToNode (hslot : slot < slotCount) (ht : s.assignSlotToNode slot id = some t) : t.Good := by
  rw [ClusterState.assignSlotToNode] at ht
  cases hn : s.nodes.get id with
  | none => simp [hn] at ht
  | some n =>
    have hb := h.bumpEpoch id
    have hknown : ((s.bumpEpoch id).nodes.get id).isSome := by
      rw [ClusterState.bumpEpoch, ClusterState.modifyNode, get_modify_self]
      simp [hn]
    rw [hn] at ht
    cases hown : (s.bumpEpoch id).slots slot with
    | none =>
      simp only [hown, some.injEq] at ht
      exact ht ▸ hb.take hslot hknown (.inl hown)
    | some old =>
      simp only [hown, some.injEq] at ht
      exact ht ▸ hb.takeFrom hown hknown

theorem forgetNode (hid : id ≠ s.self) : (s.forgetNode id).Good := by
  rw [ClusterState.forgetNode]
  split
  · exact h
  have hget : ∀ {x n}, (s.nodes.delete id).get x = some n → x ≠ id ∧ s.nodes.get x = some n := by
    intro x n hn
    rw [get_delete] at hn
    split at hn
    · cases hn
    · exact ⟨‹_›, hn⟩
  refine of_nodes (fun hn => h.node (hget hn).2) ?_ fun sl x => ?_
  · rw [get_delete, if_neg hid.symm]
    exact h.self_node
  · dsimp only
    rw [get_delete]
    by_cases hx : x = id
    · rw [if_pos hx, hx]
      by_cases hs : s.slots sl = some id <;> simp [hs]
    · rw [if_neg hx, ← h.consistent sl x]
      by_cases hs : s.slots sl = some id
      · simp [hs, Ne.symm hx]
      · rw [if_neg hs]

omit h in
theorem alone (hn : n.id = id ∧ n.Plain ∧ id ≠ "vars") (hf : n.flags.has .myself = true)
    (hbits : ∀ sl, n.hasSlot sl = false) (hself : t.self = id)
    (hnodes : t.nodes = (∅ : GoMap Bytes ClusterNode).set id n) (hslots : t.slots = fun _ => none) : t.Good := by
  have hget : ∀ {x m}, t.nodes.get x = some m → x = id ∧ m = n := by
    intro x m hm
    rcases get_set_eq_some (hnodes ▸ hm) with hm | hm
    · exact hm
    · simp at hm
  refine of_nodes (fun hm => ?_) ⟨n, by rw [hself, hnodes, get_set_self], hf⟩ fun sl x => ?_
  · obtain ⟨rfl, rfl⟩ := hget hm
    exact hn
  · rw [hslots]
    refine iff_of_false (some_ne_none x).symm ?_
    rintro ⟨m, hm, hbit⟩
    obtain ⟨-, rfl⟩ := hget hm
    simp [hbits] at hbit

theorem reset : s.reset.Good := by
  rw [ClusterState.reset]
  cases hn : s.nodes.get s.self with
  | none => exact h
  | some n =>
    obtain ⟨hid, hp, hvars⟩ := h.node hn
    obtain ⟨m, hm, hf⟩ := h.self_node
    obtain rfl := some.inj (hm.symm.trans hn)
    obtain ⟨heq, hbits⟩ := m.clearSlots_spec
    exact alone (by rw [heq]; exact ⟨hid, { hp with }, hvars⟩) (by rw [heq]; exact hf) hbits rfl rfl rfl

theorem replicate {masterID : Bytes} (ht : s.replicate masterID = some t) : t.Good := by
  rw [ClusterState.replicate] at ht
  cases hm : s.nodes.get masterID with
  | none => simp [hm] at ht
  | some m =>
    rw [hm, some.injEq] at ht
    rw [← ht]
    refine h.modifyNode (fun _ => rfl) (fun _ => rfl) (fun n _ hp => ⟨hp.id_ne, hp.id, hp.ip, ?_⟩) fun n hf => ?_
    · exact h.id hm ▸ (h.plain hm).id
    · simpa using hf

variable (failedMasterID : Bytes)

theorem claimSlot (slot : Nat) : (claimSlot failedMasterID s slot).Good := by
  rw [ClusterState.claimSlot]
  split
  · rename_i hbit
    cases hn : s.nodes.get failedMasterID with
    | none => simp [hn] at hbit
    | some n =>
      rw [hn] at hbit
      exact h.takeFrom (h.owns hn hbit) h.known
  · exact h

theorem claimSlots : (claimSlots failedMasterID s).Good :=
  foldl_invariant (fun _ sl h => h.claimSlot failedMasterID sl) h allSlots

theorem withFailoverState (fs : Option FailoverState) : Good { s with failoverState := fs } := h.congr rfl rfl rfl

theorem claimOwnership : (s.claimOwnership failedMasterID).Good := by
  rw [ClusterState.claimOwnership]
  split
  · exact h
  · refine withFailoverState (claimSlots ?_ failedMasterID) _
    refine h.modifyNode (fun _ => rfl) (fun _ => rfl) (fun n _ hp => ⟨hp.id_ne, hp.id, hp.ip, ?_⟩) fun n hf => ?_
    · exact fun _ hb => absurd hb not_mem_nil
    · simpa using hf

theorem insert (hnew : s.nodes.get n.id = none) (hp : n.Plain) (hvars : n.id ≠ "vars")
    (hslots : n.slots = 0) : Good { s with nodes := s.nodes.set n.id n } := by
  refine of_nodes (fun hn => ?_) ?_ fun sl x => ?_
  · rcases get_set_eq_some hn with ⟨rfl, rfl⟩ | hn
    · exact ⟨rfl, hp, hvars⟩
    · exact h.node hn
  · obtain ⟨m, hm, hf⟩ := h.self_node
    have hne : s.self ≠ n.id := fun hx => by simp [hx, hnew] at hm
    exact ⟨m, (get_set_of_ne hne).trans hm, hf⟩
  · dsimp only
    rw [h.consistent sl x, get_set]
    split
    · rename_i hx
      rw [hx, hnew]
      simp [hasSlot, hslots]
    · rfl

end

end Good

/-! ## Messages -/

namespace Good

theorem meetSender (h : s.Good) {id : Bytes} (hid : Clean id) (hvars : id ≠ "vars") : (s.meetSender id).Good := by
  rw [ClusterState.meetSender]
  split
  · rename_i hnew
    exact h.insert (n := { id, flags := Flags.set 0 .master, linkUp := true }) hnew.1
      ⟨hnew.2.1, hid, clean_nil, clean_nil⟩ hvars rfl
  · exact h

theorem adoptSlot {hd : ClusterMsgHeader} (h : s.Good) (hknown : (s.nodes.get hd.senderID).isSome) (slot : Nat) :
    (adoptSlot hd s slot).Good ∧ ((ClusterState.adoptSlot hd s slot).nodes.get hd.senderID).isSome := by
  have htake : ∀ {t : ClusterState}, (t.nodes.get hd.senderID).isSome →
      ((t.takeSlot hd.senderID slot).nodes.get hd.senderID).isSome := fun {t} ht => by
    rw [takeSlot, isSome_modifyNode]
    exact ht
  rw [ClusterState.adoptSlot]
  split
  · rename_i hbit
    have hslot : slot < slotCount := BitVec.lt_of_getLsbD hbit.1
    cases hown : s.slots slot with
    | none => exact ⟨h.take hslot hknown (.inl hown), htake hknown⟩
    | some id =>
      cases hn : s.nodes.get id with
      | none =>
        have := (h.owner hown).1
        simp [hn] at this
      | some old =>
        simp only [hn]
        split
        · exact ⟨h, hknown⟩
        · exact ⟨h.takeFrom hown hknown, htake (isSome_modifyNode.trans hknown)⟩
  · exact ⟨h, hknown⟩

variable {m : Message}

section

variable (h : s.Good)
include h

theorem mergeHeader (hm : m.Clean) : (s.mergeHeader m).Good := by
  have hmeet := h.meetSender hm.sender hm.vars
  rw [ClusterState.mergeHeader]
  split
  · rename_i hknown
    have hsender : ((s.meetSender m.header.senderID).modifyNode m.header.senderID (updateSender m)).Good := by
      refine hmeet.modifyNode (fun _ => rfl) (fun _ => rfl) (fun n _ hp => ⟨hp.id_ne, hp.id, ?_, hp.masterID⟩)
        fun _ hf => hf
      rw [updateSender]
      split
      · exact hm.senderIP
      · exact hp.ip
    exact (foldl_invariant (P := fun s : ClusterState => s.Good ∧ (s.nodes.get m.header.senderID).isSome)
      (fun s slot hs => hs.1.adoptSlot hs.2 slot) ⟨hsender, isSome_modifyNode.trans hknown⟩ allSlots).1
  · exact hmeet

theorem setFail (id : Bytes) : (s.modifyNode id fun n => { n with flags := (n.flags.clear .pfail).set .fail }).Good :=
  h.modifyNode (fun _ => rfl) (fun _ => rfl) (fun _ _ hp => { hp with }) fun n hf => by simpa using hf

theorem setPFail (id reporterID : Bytes) :
    ((s.modifyNode id fun n => { n with flags := n.flags.set .pfail }).addReport id reporterID).Good := by
  refine congr (s := s.modifyNode id fun n => { n with flags := n.flags.set .pfail }) ?_ rfl rfl rfl
  exact h.modifyNode (fun _ => rfl) (fun _ => rfl) (fun _ _ hp => { hp with }) fun n hf => by simpa using hf

theorem mergeEntry {e : GossipEntry} (hid : Clean e.id) (hvars : e.id ≠ "vars") (hip : Clean e.ip)
    (senderID : Bytes) : (mergeEntry senderID s e).Good := by
  rw [ClusterState.mergeEntry]
  split
  · exact h
  rename_i hne
  cases hn : s.nodes.get e.id with
  | none =>
    exact h.insert (n := { id := e.id, ip := e.ip, port := .ofNat e.port.toNat, cport := .ofNat e.cport.toNat
                           flags := e.flags, linkUp := true }) hn
      ⟨fun hnil => hne (.inl hnil), hid, hip, clean_nil⟩ hvars rfl
  | some n =>
    dsimp only
    split
    · exact h.setFail e.id
    · split
      · exact h.setPFail e.id senderID
      · exact h

theorem mergeFromMessage (hm : m.Clean) : (s.mergeFromMessage m).Good := by
  have hepoch : (if s.epoch < m.header.currentEpoch then { s with epoch := m.header.currentEpoch } else s).Good := by
    split
    · exact h.congr rfl rfl rfl
    · exact h
  refine foldlRecOn m.entries _ (hepoch.mergeHeader hm) fun t ht e he => ?_
  obtain ⟨hid, hvars, hip⟩ := hm.entries e he
  exact ht.mergeEntry hid hvars hip _

theorem handleConn (hm : m.Clean) : (s.handleConn m).Good := by
  obtain ⟨lastVoteEpoch, failoverState, heq⟩ := handleConn_eq s m
  rw [heq]
  exact (h.mergeFromMessage hm).congr rfl rfl rfl

theorem meet {ip : Bytes} (hip : Clean ip) (port cport : Int64) (hm : m.Clean) : (s.meet ip port cport m).Good := by
  refine mergeFromMessage ?_ ⟨hm.sender, hm.vars, hip, hm.entries⟩
  split
  · rename_i hnew
    exact h.insert (n := { id := m.header.senderID, ip, port, cport, flags := Flags.set 0 .master, linkUp := true })
      hnew.1 ⟨hnew.2, hm.sender, hip, clean_nil⟩ hm.vars rfl
  · exact h

end

end Good

/-! ## Commands -/

theorem parseSlot_lt {arg : Bytes} (h : parseSlot arg = .ok slot) : slot < slotCount := by
  rw [parseSlot] at h
  split at h
  · split at h
    · rename_i v _ hv
      obtain rfl := ok.inj h
      omega
    · cases h
  · cases h

variable {add : Bool}

theorem checkBusy_eq_ok {x : Nat} (h : s.checkBusy add slot = .ok x) :
    x = slot ∧ (add = true → s.slots slot = none) := by
  rw [checkBusy] at h
  split at h
  · cases h
  · rename_i hbusy
    refine ⟨(ok.inj h).symm, fun hadd => ?_⟩
    rw [hadd] at hbusy
    simpa using hbusy

theorem bind_eq_ok {ε α β : Type} {x : Except ε α} {f : α → Except ε β} {b : β} (h : x >>= f = .ok b) :
    ∃ a, x = .ok a ∧ f a = .ok b := by
  cases x with
  | error e => cases h
  | ok a => exact ⟨a, rfl, h⟩

theorem mem_of_mapM {ε α β : Type} {f : α → Except ε β} {xs : List α} {ys : List β} (h : xs.mapM f = .ok ys) :
    ∀ y ∈ ys, ∃ x ∈ xs, f x = .ok y := by
  induction xs generalizing ys with
  | nil =>
    obtain rfl : ys = [] := (ok.inj h).symm
    simp
  | cons x xs ih =>
    rw [mapM_cons] at h
    obtain ⟨z, hz, h⟩ := bind_eq_ok h
    obtain ⟨zs, hzs, h⟩ := bind_eq_ok h
    obtain rfl := ok.inj h
    intro y hy
    rcases mem_cons.1 hy with rfl | hy
    · exact ⟨x, mem_cons_self, hz⟩
    · obtain ⟨x', hx', hy⟩ := ih hzs y hy
      exact ⟨x', mem_cons_of_mem x hx', hy⟩

/-- The slots that a command is about to change are slots, and free ones if they are to be added. -/
def Changeable (s : ClusterState) (add : Bool) (slots : List Nat) : Prop :=
  ∀ sl ∈ slots, sl < slotCount ∧ (add = true → s.slots sl = none)

theorem changeable_slotArgs {args : List Bytes} {slots : List Nat} (h : s.slotArgs add args = .ok slots) :
    s.Changeable add slots := by
  intro sl hsl
  obtain ⟨arg, -, harg⟩ := mem_of_mapM h sl hsl
  obtain ⟨slot, hslot, hbusy⟩ := bind_eq_ok harg
  obtain ⟨rfl, hfree⟩ := checkBusy_eq_ok hbusy
  exact ⟨parseSlot_lt hslot, hfree⟩

theorem changeable_rangeArgs {args : List Bytes} {slots : List Nat} (h : s.rangeArgs add args = .ok slots) :
    s.Changeable add slots := by
  induction args using rangeArgs.induct generalizing slots with
  | case1 loArg hiArg args ih =>
    obtain ⟨lo, -, h⟩ := bind_eq_ok h
    obtain ⟨hi, hhi, h⟩ := bind_eq_ok h
    split at h
    · cases h
    obtain ⟨xs, hxs, h⟩ := bind_eq_ok h
    obtain ⟨ys, hys, h⟩ := bind_eq_ok h
    obtain rfl := ok.inj h
    intro sl hsl
    rcases mem_append.1 hsl with hsl | hsl
    · obtain ⟨x, hx, hbusy⟩ := mem_of_mapM hxs sl hsl
      obtain ⟨rfl, hfree⟩ := checkBusy_eq_ok hbusy
      have := parseSlot_lt hhi
      rw [mem_range'_1] at hx
      exact ⟨by omega, hfree⟩
    · exact ih hys sl hsl
  | case2 args hargs =>
    rw [rangeArgs.eq_2 s add args hargs] at h
    obtain rfl : slots = [] := (ok.inj h).symm
    exact fun sl hsl => absurd hsl not_mem_nil

namespace Good

variable {add : Bool}

theorem addDel (h : s.Good) {slots : List Nat} (hs : s.Changeable add slots) : (s.addDel add slots).Good := by
  rw [ClusterState.addDel]
  split
  · exact h.addSlots (fun sl hsl => (hs sl hsl).1) fun sl hsl => (hs sl hsl).2 ‹_›
  · exact h.delSlots slots

variable {args : List Bytes}

section

variable (h : s.Good)
include h

theorem addDelSlots (ht : s.addDelSlots add args = .ok t) : t.Good := by
  rw [ClusterState.addDelSlots] at ht
  split at ht
  · cases ht
  obtain ⟨slots, hslots, ht⟩ := bind_eq_ok ht
  obtain rfl := ok.inj ht
  exact h.addDel (changeable_slotArgs hslots)

theorem addDelSlotsRange (ht : s.addDelSlotsRange add args = .ok t) : t.Good := by
  rw [ClusterState.addDelSlotsRange] at ht
  split at ht
  · cases ht
  obtain ⟨slots, hslots, ht⟩ := bind_eq_ok ht
  obtain rfl := ok.inj ht
  exact h.addDel (changeable_rangeArgs hslots)

theorem setSlotCommand (ht : s.setSlotCommand args = .ok t) : t.Good := by
  rw [ClusterState.setSlotCommand.eq_def] at ht
  split at ht <;> [skip; cases ht]
  obtain ⟨slot, hslot, ht⟩ := bind_eq_ok ht
  dsimp only at ht
  split at ht
  · exact ok.inj ht ▸ h
  split at ht
  · split at ht <;> [skip; cases ht]
    split at ht <;> [rename_i hassign; cases ht]
    exact h.assignSlotToNode (parseSlot_lt hslot) (ok.inj ht ▸ hassign)
  split at ht <;> [skip; cases ht]
  split at ht <;> [skip; cases ht]
  split at ht <;> [exact ok.inj ht ▸ h; cases ht]

theorem meetCommand {answer : Except Bytes Message} (hclean : (Admin.meet args answer).Clean)
    (ht : s.meetCommand answer args = .ok t) : t.Good := by
  rw [ClusterState.meetCommand.eq_def] at ht
  split at ht <;> [rename_i ip portArg args; cases ht]
  split at ht
  · cases ht
  obtain ⟨cport, -, ht⟩ := bind_eq_ok ht
  split at ht <;> [skip; cases ht]
  exact ok.inj ht ▸ h.meet (hclean.1 ip rfl) _ _ (hclean.2 _ rfl)

theorem forgetCommand (ht : s.forgetCommand args = .ok t) : t.Good := by
  rw [ClusterState.forgetCommand.eq_def] at ht
  split at ht <;> [skip; cases ht]
  split at ht
  · cases ht
  · exact ok.inj ht ▸ h.forgetNode ‹_›

theorem replicateCommand (ht : s.replicateCommand args = .ok t) : t.Good := by
  rw [ClusterState.replicateCommand.eq_def] at ht
  split at ht <;> [skip; cases ht]
  split at ht <;> [rename_i hreplicate; cases ht]
  exact h.replicate (ok.inj ht ▸ hreplicate)

theorem handleFailover (ht : s.handleFailover args = .ok t) : t.Good := by
  rw [ClusterState.handleFailover] at ht
  split at ht
  · cases ht
  dsimp only at ht
  split at ht
  · exact ok.inj ht ▸ (h.bumpEpoch s.self).claimOwnership _
  split at ht
  · exact ok.inj ht ▸ h.claimOwnership _
  · cases ht

theorem handleAdmin {cmd : Admin} (hcmd : cmd.Clean) (ht : s.handleAdmin cmd = .ok t) : t.Good := by
  cases cmd with
  | addSlots args => exact h.addDelSlots ht
  | delSlots args => exact h.addDelSlots ht
  | addSlotsRange args | delSlotsRange args => exact h.addDelSlotsRange ht
  | setSlot args => exact h.setSlotCommand ht
  | meet args answer => exact h.meetCommand hcmd ht
  | forget args => exact h.forgetCommand ht
  | reset => exact ok.inj ht ▸ h.reset
  | replicate args => exact h.replicateCommand ht
  | failover args => exact h.handleFailover ht
  | bumpEpoch => exact ok.inj ht ▸ h.bumpEpoch s.self

end

/-! ## Ticks -/

theorem markPFail (h : s.Good) (id : Bytes) (now timeout : Int64) : (s.markPFail id now timeout).Good := by
  rw [ClusterState.markPFail]
  split
  · exact h
  · split
    · exact h.setPFail id s.self
    · exact h

theorem markNodeFail (h : s.Good) (id : Bytes) : (s.markNodeFail id).Good := by
  rw [ClusterState.markNodeFail]
  split
  · exact h
  · split
    · exact h.setFail id
    · exact h

theorem endElection (h : s.Good) (now : Int) : (s.endElection now).Good := by
  rw [ClusterState.endElection]
  split
  · exact h.withFailoverState _
  · exact h

theorem startElection (h : s.Good) (failedMasterID : Bytes) (now : Int) : (s.startElection failedMasterID now).Good :=
  h.congr rfl rfl rfl

end Good

/-! ## Start -/

theorem good_newClusterState {id ip : Bytes} (hne : id ≠ []) (hid : Clean id) (hvars : id ≠ "vars")
    (hip : Clean ip) (port : Int64) (startEpoch : UInt64) : (newClusterState id ip port startEpoch).Good := by
  exact .alone (n := { newNode id ip port with flags := (newNode id ip port).flags.set .myself })
    ⟨rfl, ⟨hne, hid, hip, clean_nil⟩, hvars⟩ (by simp) (fun sl => by simp [hasSlot, newNode]) rfl rfl rfl

theorem Good.load (h : s.Good) {order : List Bytes} (ho : Ranges order s.nodes.get) {fresh : ClusterState}
    (ht : fresh.load (s.save order) = some t) : t.Good := by
  obtain ⟨nodes, hnodes, hload⟩ := load_save fresh h.toReadable h.consistent ho
  rw [hload] at ht
  obtain ⟨self, hself, rfl⟩ := map_eq_some_iff.1 ht
  refine of_nodes (fun {x _} hn' => ?_) ?_ fun sl x => ?_
  · obtain ⟨n, hn, rfl⟩ := map_eq_some_iff.1 ((hnodes x).symm.trans hn')
    obtain ⟨hid, hp, hvars⟩ := h.node hn
    exact ⟨hid, hp.reloaded, hvars⟩
  · have hmyself := (mem_filter.1 (mem_of_getLast? hself)).2
    obtain ⟨n, hn, hf⟩ := (any_eq_true _ _).1 hmyself
    exact ⟨_, (hnodes self).trans (congrArg _ hn), by simpa using hf⟩
  · dsimp only
    rw [h.consistent sl x, hnodes]
    cases s.nodes.get x with
    | none => simp
    | some n => simp [reloaded, hasSlot]

end ClusterState

/-! ## Runs -/

def Event.Clean : Event → Prop
  | .start id ip _ _ _ => id ≠ [] ∧ ClusterNode.Clean id ∧ id ≠ "vars" ∧ ClusterNode.Clean ip
  | .admin cmd _ => cmd.Clean
  | .message m | .pong m => m.Clean
  | _ => True

namespace Process

/-- What holds of a node in every run: its state and the one that it has saved are good. -/
structure Inv (p : Process) : Prop where
  state : ∀ s, p.state = some s → s.Good
  conf : ∀ text, p.conf = some text →
    ∃ (s : ClusterState) (order : List Bytes), s.Good ∧ Ranges order s.nodes.get ∧ text = s.save order

theorem inv_new : new.Inv where
  state s hs := absurd hs.symm (some_ne_none s)
  conf text ht := absurd ht.symm (some_ne_none text)

theorem inv_saved {s : ClusterState} (h : s.Good) (order : GoMap.Order Bytes ClusterNode) : (saved s order).Inv where
  state _ hs := some.inj hs ▸ h
  conf _ ht := ⟨s, order.keys s.nodes, h, order.ranges s.nodes, (some.inj ht).symm⟩

variable {p : Process}

section

variable (h : p.Inv)
include h

theorem Inv.map {f : ClusterState → ClusterState} (hf : ∀ {s : ClusterState}, s.Good → (f s).Good) :
    Inv { p with state := p.state.map f } := by
  refine ⟨fun s' hs' => ?_, h.conf⟩
  obtain ⟨s, hs, rfl⟩ := map_eq_some_iff.1 hs'
  exact hf (h.state s hs)

theorem Inv.start {id ip : Bytes} (hne : id ≠ []) (hid : Clean id) (hvars : id ≠ "vars")
    (hip : Clean ip) (port : Int64) (startEpoch : UInt64) (order : GoMap.Order Bytes ClusterNode) :
    (p.step (.start id ip port startEpoch order)).Inv := by
  have hloaded : ∀ {s}, p.loaded (ClusterState.newClusterState id ip port startEpoch) = some s → s.Good := by
    intro s hs
    rw [loaded] at hs
    cases hconf : p.conf with
    | none =>
      rw [hconf] at hs
      exact some.inj hs ▸ ClusterState.good_newClusterState hne hid hvars hip port startEpoch
    | some text =>
      rw [hconf] at hs
      obtain ⟨s', order', hs', ho, rfl⟩ := h.conf text hconf
      exact hs'.load ho hs
  rw [step]
  split
  · exact inv_saved (hloaded ‹_›) order
  · exact ⟨fun s hs => absurd hs.symm (some_ne_none s), h.conf⟩

theorem Inv.admin {cmd : Admin} (hcmd : cmd.Clean) (order : GoMap.Order Bytes ClusterNode) :
    (p.step (.admin cmd order)).Inv := by
  rw [step]
  split
  · exact h
  rename_i s hs
  split
  · rename_i s' hs'
    have hgood := (h.state s hs).handleAdmin hcmd hs'
    split
    · exact ⟨fun _ ht => some.inj ht ▸ hgood, h.conf⟩
    · exact inv_saved hgood order
  · exact h

theorem Inv.checkElection (now : Int) (order : GoMap.Order Bytes ClusterNode) :
    (p.step (.checkElection now order)).Inv := by
  rw [step]
  split
  · exact h
  rename_i s hs
  have hgood := h.state s hs
  split
  · exact inv_saved (hgood.claimOwnership _) order
  · exact ⟨fun _ ht => some.inj ht ▸ hgood.endElection now, h.conf⟩

theorem Inv.step {e : Event} (he : e.Clean) : (p.step e).Inv := by
  cases e with
  | start id ip port startEpoch order => exact h.start he.1 he.2.1 he.2.2.1 he.2.2.2 port startEpoch order
  | admin cmd order => exact h.admin he order
  | message m => exact h.map fun hs => hs.handleConn he
  | pong m => exact h.map fun hs => hs.mergeFromMessage he
  | markPFail id now timeout => exact h.map fun hs => hs.markPFail id now timeout
  | markNodeFail id => exact h.map fun hs => hs.markNodeFail id
  | checkElection now order => exact h.checkElection now order
  | startElection failedMasterID now => exact h.map fun hs => hs.startElection failedMasterID now

theorem Inv.run {events : List Event} (he : ∀ e ∈ events, e.Clean) : (p.run events).Inv :=
  foldlRecOn events _ h fun _ hp e hmem => hp.step (he e hmem)

end

end Process

/-! ## CLUSTER SLOTS -/

theorem ClusterNode.length_filter_slotRanges (n : ClusterNode) (slot : Nat) :
    (n.slotRanges.filter fun r => decide (r.1 ≤ slot) && decide (slot ≤ r.2)).length =
      if n.hasSlot slot then 1 else 0 := by
  have hcount : ∀ l : List (Nat × Nat), (l.flatMap rangeSlots).count slot =
      (l.filter fun r => decide (r.1 ≤ slot) && decide (slot ≤ r.2)).length := by
    intro l
    induction l with
    | nil => rfl
    | cons r l ih =>
      have hr : (rangeSlots r).count slot = if r.1 ≤ slot ∧ slot ≤ r.2 then 1 else 0 := by
        rw [rangeSlots, List.Nodup.count nodup_range']
        refine if_congr ?_ rfl rfl
        rw [mem_range'_1]
        omega
      rw [flatMap_cons, count_append, ih, hr, filter_cons]
      by_cases hc : r.1 ≤ slot ∧ slot ≤ r.2
      · simp [hc, Nat.add_comm]
      · rw [if_neg hc, if_neg (by simpa using hc), Nat.zero_add]
  have hnodup : (allSlots.filter n.hasSlot).Nodup := by
    rw [allSlots_eq]
    exact nodup_range.filter _
  rw [← hcount, flatMap_slotRanges, hnodup.count]
  refine if_congr ?_ rfl rfl
  rw [mem_filter, mem_allSlots]
  exact and_iff_right_of_imp hasSlot_lt

namespace ClusterState

theorem Good.slotRows {s : ClusterState} (h : s.Good) {order : List Bytes} (ho : Ranges order s.nodes.get)
    (slot : Nat) : ((s.slotRows order).filter (·.covers slot)).map (·.id) = (s.slots slot).toList := by
  have hnode : ∀ id, ((((s.nodes.get id).map (·.rows)).getD []).filter (·.covers slot)).map (·.id) =
      if s.slots slot = some id then [id] else [] := by
    intro id
    cases hn : s.nodes.get id with
    | none =>
      have hs : s.slots slot ≠ some id := fun hs => by
        have := (h.owner hs).1
        simp [hn] at this
      rw [if_neg hs]
      rfl
    | some n =>
      have hbit : s.slots slot = some id ↔ n.hasSlot slot = true := by simp [h.consistent slot id, hn]
      simp only [map_some, Option.getD_some, rows, filter_map, map_map, Function.comp_def,
        SlotRow.covers, h.id hn, map_const', n.length_filter_slotRanges, hbit]
      split <;> rfl
  rw [ClusterState.slotRows, filter_flatMap, map_flatMap]
  simp only [hnode]
  cases hown : s.slots slot with
  | none => simp
  | some owner =>
    have hmem : owner ∈ order := (ho.2 owner).2 (h.owner hown).1
    have honce : ∀ l : List Bytes, l.Nodup →
        (l.flatMap fun id => if some owner = some id then [id] else []) = if owner ∈ l then [owner] else [] := by
      intro l hl
      induction l with
      | nil => rfl
      | cons id l ih =>
        obtain ⟨hid, hl⟩ := nodup_cons.1 hl
        rw [flatMap_cons, ih hl]
        by_cases heq : owner = id
        · simp [heq, hid]
        · simp [heq]
    rw [honce order ho.1, if_pos hmem]
    rfl

end ClusterState

open ClusterState

/-- In every run in which events bring in words only, the slot map agrees with the bitmaps, and CLUSTER
SLOTS has one row for a slot that is owned, its owner's, and none for one that is not. -/
theorem consistent_run {events : List Event} (h : ∀ e ∈ events, e.Clean) {s : ClusterState}
    (hs : (Process.new.run events).state = some s) : s.Consistent ∧ ∀ order, Ranges order s.nodes.get → ∀ slot,
      ((s.slotRows order).filter (·.covers slot)).map (·.id) = (s.slots slot).toList := by
  have hgood := (Process.inv_new.run h).state s hs
  exact ⟨hgood.consistent, fun order ho slot => hgood.slotRows ho slot⟩

noncomputable def takesZero : List Event := [.start "n" "h" 6379 1 default, .admin (.addSlots ["0"]) default]

theorem takesZero_clean : ∀ e ∈ takesZero, e.Clean := by
  intro e he
  simp only [takesZero, mem_cons, not_mem_nil, or_false] at he
  rcases he with rfl | rfl
  · exact ⟨by decide, by decide, by decide, by decide⟩
  · trivial

def zeroTaken : ClusterState := (newClusterState "n" "h" 6379 1).addSlots [0]

theorem state_takesZero : (Process.new.run takesZero).state = some zeroTaken := by
  have hargs : (newClusterState "n" "h" 6379 1).slotArgs true ["0"] = .ok [0] := by
    rfl
  have : (newClusterState "n" "h" 6379 1).handleAdmin (.addSlots ["0"]) = .ok zeroTaken := by
    rw [handleAdmin, addDelSlots, if_neg (by decide), hargs]
    rfl
  simp only [Process.run, takesZero, foldl_cons, foldl_nil, Process.step, Process.loaded, Process.new,
    Process.saved, this]

theorem consistent_run_takesZero : ∃ s, (Process.new.run takesZero).state = some s ∧
    s.slots 0 = some (str "n") ∧ s.Consistent ∧ ∀ order, Ranges order s.nodes.get → ∀ slot,
      ((s.slotRows order).filter (·.covers slot)).map (·.id) = (s.slots slot).toList :=
  ⟨zeroTaken, state_takesZero, rfl, consistent_run takesZero_clean state_takesZero⟩

/-- A message that names a node with a blank in its address. -/
def spaceGossip : Message where
  header := { msgType := .ping, currentEpoch := 0, configEpoch := 0, port := 0, cport := 0, flags := 0, senderID := []
              slots := 0 }
  entries := [{ id := "p", ip := "a b" }]
  senderIP := []
  now := 0

def spaced : ClusterState := (zeroTaken.handleConn spaceGossip).bumpEpoch "n"

/-- The node starts, takes slot 0, gets the message, counts its epoch up, and starts again. -/
noncomputable def restarts : List Event :=
  takesZero ++ [.message spaceGossip, .admin .bumpEpoch (.ofList ["n", "p"] (by decide)),
    .start "n" "h" 6379 1 default]

def zeroNode : ClusterNode :=
  { ClusterNode.newNode "n" "h" 6379 with
    flags := (ClusterNode.newNode "n" "h" 6379).flags.set .myself, configEpoch := 3, slots := 1 }

def spaceNode : ClusterNode := { id := "p", ip := "a b", linkUp := true }

theorem get_spaced : spaced.nodes.get "n" = some zeroNode ∧ spaced.nodes.get "p" = some spaceNode := by
  decide +kernel

theorem save_spaced : spaced.save ["n", "p"] = str ("n h:6379@16379 myself,master - 0 0 3 connected 0\n" ++
    "p a b:0@0 noflags - 0 0 0 connected\nvars currentEpoch 3 lastVoteEpoch 0\n") := by
  have hzero : zeroNode.slotRanges = [(0, 0)] := by decide +kernel
  have hspace : spaceNode.slotRanges = [] := by decide +kernel
  simp only [save, filterMap_cons, get_spaced, map_some, ClusterNode.nodesLine, hzero, hspace]
  decide +kernel

/-- The line of the other node has one word more, and its last word is read as slot 0: both nodes have it. -/
theorem load_spaced : ∃ t, (newClusterState "n" "h" 6379 1).load (spaced.save ["n", "p"]) = some t ∧
    (∃ n, t.nodes.get "n" = some n ∧ n.hasSlot 0 = true) ∧ ∃ n, t.nodes.get "p" = some n ∧ n.hasSlot 0 = true := by
  have hload : ((newClusterState "n" "h" 6379 1).load (spaced.save ["n", "p"])).any (fun t =>
      (t.nodes.get "n").any (·.hasSlot 0) && (t.nodes.get "p").any (·.hasSlot 0)) = true := by
    rw [save_spaced]
    decide +kernel
  simpa [any_eq_true] using hload

/-- A node with the state `s` gets a message, counts its epoch up, and starts again. -/
theorem state_restart {p : Process} {s s' t : ClusterState} {m : Message} {order order' : GoMap.Order Bytes ClusterNode}
    {id ip : Bytes} {port : Int64} {startEpoch : UInt64} (hs : p.state = some s)
    (hbump : (s.handleConn m).bumpEpoch (s.handleConn m).self = s')
    (hload : (newClusterState id ip port startEpoch).load (s'.save (order.keys s'.nodes)) = some t) :
    (p.run [.message m, .admin .bumpEpoch order, .start id ip port startEpoch order']).state = some t := by
  subst hbump
  simp only [Process.run, foldl_cons, foldl_nil, Process.step, hs, map_some, handleAdmin,
    Process.saved, Process.loaded, hload]

/-- An address with a blank in it, and slot 0 has two owners after the next start. -/
theorem restart_shares_slot : ¬∀ events s, (Process.new.run events).state = some s → s.Consistent := by
  intro h
  obtain ⟨t, hload, hn, hp⟩ := load_spaced
  have hkeys : (GoMap.Order.ofList [str "n", str "p"] (by decide)).keys spaced.nodes = [str "n", str "p"] :=
    keys_ofList (by decide +kernel)
  have hrun : (Process.new.run restarts).state = some t := by
    rw [restarts, Process.run, foldl_append]
    exact state_restart state_takesZero rfl ((congrArg (fun order => ClusterState.load _ (spaced.save order)) hkeys).trans hload)
  have hc := h restarts t hrun
  exact absurd (((hc 0 _).2 hn).symm.trans ((hc 0 _).2 hp)) (by decide)

end Hayakv.Cluster
