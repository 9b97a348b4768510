import Hayakv.Lib.GoText
import Hayakv.Lib.Search

/-!
# The routing state machine

The state that the nodes of a cluster replicate through their raft log
(`internal/cluster/raft`): the slots of each node, the node of each slot, the
running migrations, and the replicas of each master. A node without an entry in
`Node2Slot` has no slots.

A node's slots are a slice in ascending order: `addSlots` and `removeSlots` find
their place by binary search. At the end of a failover `removeSlots` ranges over
the very slice it shifts (`removeOwnSlots`, with the array behind the slice):

* up to two slots it does what it would do with a copy (`removeOwnSlots_eq`);
* from three slots on the second slot stays (`mem_removeOwnSlots`).
-/

namespace Hayakv.Raft

open List Function Function

structure MigratingTask where
  id : Bytes
  srcNode : Bytes
  targetNode : Bytes
  slots : List Nat
deriving DecidableEq, Repr

structure MasterSlave where
  masterId : Bytes
  slaves : List Bytes
deriving DecidableEq, Repr

@[ext] structure FSM where
  node2Slot : Bytes → List Nat
  slot2Node : Nat → Option Bytes
  migratings : Bytes → Option MigratingTask
  masterSlaves : Bytes → Option MasterSlave
  slaveMasters : Bytes → Option Bytes

inductive LogEntry where
  | startMigrate (task : MigratingTask)
  | finishMigrate (task : MigratingTask)
  | seedStart (leader : Bytes) (slotCount : Nat)
  | finishFailover (oldMasterId newMasterId : Bytes)
  | join (nodeId master : Bytes)
deriving DecidableEq, Repr

namespace FSM

/-- The state of a node that has applied no entry. -/
def empty : FSM where
  node2Slot _ := []
  slot2Node _ := none
  migratings _ := none
  masterSlaves _ := none
  slaveMasters _ := none

/-- A round of the loop of `addSlots`. -/
def addSlot (nodeID : Bytes) (f : FSM) (slotId : Nat) : FSM :=
  let slots := f.node2Slot nodeID
  let index := position slots 0 slotId
  { f with
    node2Slot :=
      if slots[index]? = some slotId then f.node2Slot
      else update f.node2Slot nodeID (slots.take index ++ slotId :: slots.drop index)
    slot2Node := update f.slot2Node slotId (some nodeID) }

def addSlots (f : FSM) (nodeID : Bytes) (slots : List Nat) : FSM := slots.foldl (addSlot nodeID) f

/-- The inner loop of `removeSlots`: while the slot is at `index`, it is taken out. -/
def removeAt (slotId index : Nat) : Nat → List Nat → List Nat
  | 0, slots => slots
  | fuel + 1, slots =>
    if slots[index]? = some slotId then removeAt slotId index fuel (slots.eraseIdx index) else slots

/-- A round of the loop of `removeSlots`. -/
def removeSlot (nodeID : Bytes) (f : FSM) (slotId : Nat) : FSM :=
  let slots := f.node2Slot nodeID
  { f with
    node2Slot := update f.node2Slot nodeID (removeAt slotId (position slots 0 slotId) slots.length slots)
    slot2Node := if f.slot2Node slotId = some nodeID then update f.slot2Node slotId none else f.slot2Node }

/-- The slots are in an array of their own. -/
def removeSlots (f : FSM) (nodeID : Bytes) (slots : List Nat) : FSM := slots.foldl (removeSlot nodeID) f

/-- A round of the loop of `removeSlots` over the node's own slice. `st.2` is the array behind it: the
round reads index `i` of it, and what is left of the node's slots is moved to its front. -/
def removeOwnSlot (nodeID : Bytes) (st : FSM × List Nat) (i : Nat) : FSM × List Nat :=
  let f := removeSlot nodeID st.1 (st.2.getD i 0)
  (f, f.node2Slot nodeID ++ st.2.drop (f.node2Slot nodeID).length)

/-- `removeSlots(nodeID, slots)` where `slots` is the slice `Node2Slot[nodeID]`. The number of rounds
is the length the slice had before the loop. -/
def removeOwnSlots (f : FSM) (nodeID : Bytes) (slots : List Nat) : FSM :=
  ((List.range slots.length).foldl (removeOwnSlot nodeID) (f, slots)).1

/-- Replicas other than the new master follow the new master. -/
def failover (f : FSM) (oldMasterId newMasterId : Bytes) (oldSlaves : List Bytes) : FSM :=
  let newSlaves := oldSlaves.filter (· ≠ newMasterId)
  let slaveMasters := newSlaves.foldl (fun m slave => update m slave (some newMasterId)) f.slaveMasters
  { f with
    masterSlaves := update (update f.masterSlaves oldMasterId none) newMasterId
      (some ⟨newMasterId, newSlaves ++ [oldMasterId]⟩)
    slaveMasters := update (update slaveMasters oldMasterId (some newMasterId)) newMasterId none }

/-- The error of a join of an unknown master is dropped by `Apply`. -/
def addNode (f : FSM) (id masterId : Bytes) : FSM :=
  if masterId = [] then { f with masterSlaves := update f.masterSlaves id (some ⟨id, []⟩) }
  else match f.masterSlaves masterId with
    | none => f
    | some master =>
      { f with
        masterSlaves :=
          if id ∈ master.slaves then f.masterSlaves
          else update f.masterSlaves masterId (some { master with slaves := master.slaves ++ [id] })
        slaveMasters := update f.slaveMasters id (some masterId) }

/-- An entry is applied; `none` is the panic of a failover of an unknown master. -/
def apply (f : FSM) : LogEntry → Option FSM
  | .startMigrate task => some { f with migratings := update f.migratings task.id (some task) }
  | .finishMigrate task =>
    some (({ f with migratings := update f.migratings task.id none }.addSlots
      task.targetNode task.slots).removeSlots task.srcNode task.slots)
  | .seedStart leader slotCount =>
    some ({ f with
      slot2Node := fun s => if s < slotCount then some leader else f.slot2Node s
      node2Slot := update f.node2Slot leader (List.range slotCount) }.addNode leader [])
  | .finishFailover oldMasterId newMasterId =>
    (f.masterSlaves oldMasterId).map fun ms =>
      let f := f.failover oldMasterId newMasterId ms.slaves
      let slots := f.node2Slot oldMasterId
      (f.addSlots newMasterId slots).removeOwnSlots oldMasterId slots
  | .join nodeId master => some (f.addNode nodeId master)

/-- The state after an entry. A node that panics keeps no state; its entry is not a step of a run. -/
def step (f : FSM) (e : LogEntry) : FSM := (f.apply e).getD f

/-- The state after the entries of a log. -/
def run (f : FSM) (log : List LogEntry) : FSM := log.foldl step f

/-! ## Slots added and removed -/

def Ascending (f : FSM) : Prop := ∀ node, (f.node2Slot node).Pairwise (· < ·)

variable {f : FSM} {node : Bytes} {slots : List Nat}

theorem addSlot_spec (h : f.Ascending) (node : Bytes) (slot : Nat) : (addSlot node f slot).Ascending ∧
    (∀ x s, s ∈ (addSlot node f slot).node2Slot x ↔ s ∈ f.node2Slot x ∨ x = node ∧ s = slot) ∧
    (addSlot node f slot).slot2Node = update f.slot2Node slot (some node) := by
  have hat := getElem?_position (x := slot) (h node) 0
  by_cases hmem : slot ∈ f.node2Slot node
  · have heq : (addSlot node f slot).node2Slot = f.node2Slot := if_pos (hat.2 hmem)
    refine ⟨fun x => heq ▸ h x, fun x s => ?_, rfl⟩
    rw [heq, iff_self_or]
    rintro ⟨rfl, rfl⟩
    exact hmem
  have heq : (addSlot node f slot).node2Slot = update f.node2Slot node
      ((f.node2Slot node).take (position (f.node2Slot node) 0 slot) ++
        slot :: (f.node2Slot node).drop (position (f.node2Slot node) 0 slot)) := if_neg (mt hat.1 hmem)
  refine ⟨fun x => ?_, fun x s => ?_, rfl⟩
  · rw [heq, update_apply]
    split
    · exact pairwise_insert_position (h node) 0 hmem
    · exact h x
  · rw [heq, update_apply]
    split
    · rw [‹x = node›, mem_append, mem_cons, or_left_comm, ← mem_append, take_append_drop]
      tauto
    · tauto

theorem addSlots_spec (h : f.Ascending) (node : Bytes) (slots : List Nat) : (f.addSlots node slots).Ascending ∧
    (∀ x s, s ∈ (f.addSlots node slots).node2Slot x ↔ s ∈ f.node2Slot x ∨ x = node ∧ s ∈ slots) ∧
    ∀ s, (f.addSlots node slots).slot2Node s = if s ∈ slots then some node else f.slot2Node s := by
  induction slots generalizing f with
  | nil => exact ⟨h, by simp [addSlots], by simp [addSlots]⟩
  | cons slot slots ih =>
    obtain ⟨hasc, hmem, howner⟩ := addSlot_spec h node slot
    obtain ⟨hasc', hmem', howner'⟩ := ih hasc
    refine ⟨hasc', fun x s => ?_, fun s => ?_⟩
    · rw [addSlots, foldl_cons, ← addSlots, hmem', hmem, mem_cons]
      tauto
    · rw [addSlots, foldl_cons, ← addSlots, howner', howner]
      by_cases hs : s = slot
      · simp [hs]
      · simp [hs, mem_cons]

theorem removeAt_position {l : List Nat} (h : l.Pairwise (· < ·)) (slot : Nat) :
    removeAt slot (position l 0 slot) l.length l = l.filter (· ≠ slot) := by
  have hgone : ∀ fuel, removeAt slot (position l 0 slot) fuel (l.filter (· ≠ slot)) = l.filter (· ≠ slot) := by
    intro fuel
    cases fuel with
    | zero => rfl
    | succ fuel => exact if_neg fun hat => by simpa using mem_of_getElem? hat
  by_cases hmem : slot ∈ l
  · obtain ⟨n, hn⟩ := Nat.exists_eq_succ_of_ne_zero (length_pos_of_mem hmem).ne'
    rw [hn, removeAt, if_pos ((getElem?_position h 0).2 hmem), eraseIdx_position h 0 hmem, hgone]
  · have hself : l.filter (· ≠ slot) = l := filter_eq_self.2 fun s hs => decide_eq_true fun heq => hmem (heq ▸ hs)
    rw [← hself, hself, ← hgone l.length, hself]

theorem node2Slot_removeSlot (h : f.Ascending) (slot : Nat) : (removeSlot node f slot).node2Slot =
      update f.node2Slot node ((f.node2Slot node).filter (· ≠ slot)) :=
  congrArg (update f.node2Slot node) (removeAt_position (h node) slot)

theorem slot2Node_removeSlot (slot s : Nat) : (removeSlot node f slot).slot2Node s =
    if s = slot ∧ f.slot2Node s = some node then none else f.slot2Node s := by
  simp only [removeSlot]
  split <;> grind [update_apply]

theorem ascending_removeSlot (h : f.Ascending) (node : Bytes) (slot : Nat) : (removeSlot node f slot).Ascending := by
  intro x
  rw [node2Slot_removeSlot h, update_apply]
  split
  · exact (h node).filter _
  · exact h x

theorem removeSlots_spec (h : f.Ascending) (node : Bytes) (slots : List Nat) : (f.removeSlots node slots).Ascending ∧
    (∀ x s, s ∈ (f.removeSlots node slots).node2Slot x ↔ s ∈ f.node2Slot x ∧ ¬(x = node ∧ s ∈ slots)) ∧
    ∀ s, (f.removeSlots node slots).slot2Node s =
      if s ∈ slots ∧ f.slot2Node s = some node then none else f.slot2Node s := by
  induction slots generalizing f with
  | nil => exact ⟨h, by simp [removeSlots], by simp [removeSlots]⟩
  | cons slot slots ih =>
    obtain ⟨hasc, hmem, howner⟩ := ih (ascending_removeSlot h node slot)
    refine ⟨hasc, fun x s => ?_, fun s => ?_⟩
    · rw [removeSlots, foldl_cons, ← removeSlots, hmem, node2Slot_removeSlot h, mem_cons, update_apply]
      grind
    · rw [removeSlots, foldl_cons, ← removeSlots, howner, slot2Node_removeSlot]
      by_cases hs : s = slot <;> by_cases ho : f.slot2Node s = some node <;> simp [hs, ho]

/-! ## A slice that is shifted under its own loop -/

theorem removeOwnSlots_eq (h : f.Ascending) (hslots : f.node2Slot node = slots) (hlen : slots.length ≤ 2) :
    f.removeOwnSlots node slots = f.removeSlots node slots := by
  match slots, hlen with
  | [], _ => rfl
  | [a], _ => rfl
  | [a, b], _ =>
    have hab : b ≠ a := (pairwise_pair.1 (hslots ▸ h node)).ne'
    have hleft : (removeSlot node f a).node2Slot node = [b] := by
      rw [node2Slot_removeSlot h, update_self, hslots]
      simp [hab]
    simp [removeOwnSlots, removeSlots, range_succ, removeOwnSlot, hleft]

/-- While the loop goes on, the second slot of the slice stays at the front of the array. -/
structure Stuck (node : Bytes) (b : Nat) (st : FSM × List Nat) : Prop where
  ascending : st.1.Ascending
  mem : b ∈ st.1.node2Slot node
  least : ∀ s ∈ st.1.node2Slot node, b ≤ s
  rest : ∀ s ∈ st.2.drop 1, b < s
  length : (st.1.node2Slot node).length ≤ st.2.length
  owner : st.1.slot2Node b ≠ some node

theorem Stuck.round {b : Nat} {st : FSM × List Nat} (h : Stuck node b st) {i : Nat} (hi : 1 ≤ i)
    (hlt : i < st.2.length) :
    Stuck node b (removeOwnSlot node st i) ∧ (removeOwnSlot node st i).2.length = st.2.length := by
  obtain ⟨f, arr⟩ := st
  have hread : b < arr.getD i 0 := by
    refine h.rest _ (mem_of_getElem? (i := i - 1) ?_)
    rw [getElem?_drop, Nat.add_sub_cancel' hi, getD_eq_getElem?_getD, getElem?_eq_getElem hlt]
    rfl
  generalize hslot : arr.getD i 0 = slot at hread
  have hleft : (removeSlot node f slot).node2Slot node = (f.node2Slot node).filter (· ≠ slot) := by
    rw [node2Slot_removeSlot h.ascending, update_self]
  have hasc := ascending_removeSlot h.ascending node slot
  have hmem : b ∈ (f.node2Slot node).filter (· ≠ slot) := mem_filter.2 ⟨h.mem, decide_eq_true hread.ne⟩
  have hleast : ∀ s ∈ (f.node2Slot node).filter (· ≠ slot), b ≤ s := fun s hs =>
    h.least s (mem_of_mem_filter hs)
  have hshort : ((f.node2Slot node).filter (· ≠ slot)).length ≤ arr.length := (length_filter_le _ _).trans h.length
  have hstep : removeOwnSlot node (f, arr) i = (removeSlot node f slot,
      (f.node2Slot node).filter (· ≠ slot) ++ arr.drop ((f.node2Slot node).filter (· ≠ slot)).length) := by
    rw [removeOwnSlot, hslot, hleft]
  rw [hstep]
  have hlength : ((f.node2Slot node).filter (· ≠ slot) ++
      arr.drop ((f.node2Slot node).filter (· ≠ slot)).length).length = arr.length := by
    rw [length_append, length_drop]
    omega
  refine ⟨⟨hasc, hleft ▸ hmem, hleft ▸ hleast, fun s hs => ?_, by rw [hleft, hlength]; exact hshort, ?_⟩, hlength⟩
  · have hsorted : ((f.node2Slot node).filter (· ≠ slot)).Pairwise (· < ·) := (h.ascending node).filter _
    generalize (f.node2Slot node).filter (· ≠ slot) = left at hs hmem hleast hsorted
    cases left with
    | nil => exact absurd hmem not_mem_nil
    | cons a left =>
      -- the front of the array is `b`, as `b` is least
      obtain ⟨ha, -⟩ := pairwise_cons.1 hsorted
      rw [length_cons, cons_append, drop_one, tail_cons, mem_append] at hs
      rcases hs with hs | hs
      · exact lt_of_le_of_lt (hleast a mem_cons_self) (ha s hs)
      · rw [Nat.add_comm, ← drop_drop] at hs
        exact h.rest s (mem_of_mem_drop hs)
  · rw [slot2Node_removeSlot]
    split
    · exact nofun
    · exact h.owner

/-- From three slots on the second slot is still among the node's slots after the loop, and is not
given back to the node. -/
theorem mem_removeOwnSlots (h : f.Ascending) {a b c : Nat} {rest : List Nat}
    (hslots : f.node2Slot node = a :: b :: c :: rest) (howner : f.slot2Node b ≠ some node) :
    b ∈ (f.removeOwnSlots node (a :: b :: c :: rest)).node2Slot node ∧
      (f.removeOwnSlots node (a :: b :: c :: rest)).slot2Node b ≠ some node := by
  have hsorted := hslots ▸ h node
  obtain ⟨ha, hsorted'⟩ := pairwise_cons.1 hsorted
  obtain ⟨hb, -⟩ := pairwise_cons.1 hsorted'
  -- the first round takes out the first slot and moves the second to the front
  have hleft : (removeSlot node f a).node2Slot node = b :: c :: rest := by
    rw [node2Slot_removeSlot h, update_self, hslots, filter_cons_of_neg (by simp), filter_eq_self]
    exact fun s hs => decide_eq_true (ha s hs).ne'
  have hfirst : Stuck node b (removeOwnSlot node (f, a :: b :: c :: rest) 0) ∧
      (removeOwnSlot node (f, a :: b :: c :: rest) 0).2.length = (a :: b :: c :: rest).length := by
    have hstep : removeOwnSlot node (f, a :: b :: c :: rest) 0 = (removeSlot node f a,
        b :: c :: rest ++ (a :: b :: c :: rest).drop (b :: c :: rest).length) := by
      rw [removeOwnSlot, getD_cons_zero, hleft]
    rw [hstep]
    refine ⟨⟨ascending_removeSlot h node a, by simp [hleft], ?_, ?_, by rw [hleft]; simp, ?_⟩, by simp⟩
    · rw [hleft]
      intro s hs
      rcases mem_cons.1 hs with rfl | hs
      · exact le_rfl
      · exact (hb s hs).le
    · intro s hs
      rw [cons_append, drop_one, tail_cons, mem_append] at hs
      rcases hs with hs | hs
      · exact hb s hs
      · rw [length_cons, length_cons, show rest.length + 1 + 1 = rest.length + 2 from rfl,
          Nat.add_comm, ← drop_drop] at hs
        exact hb s (mem_of_mem_drop hs)
    · rw [slot2Node_removeSlot]
      split
      · exact nofun
      · exact howner
  have hrun : ∀ (is : List Nat) (st : FSM × List Nat), Stuck node b st →
      (∀ i ∈ is, 1 ≤ i ∧ i < st.2.length) → Stuck node b (is.foldl (removeOwnSlot node) st) := by
    intro is
    induction is with
    | nil => exact fun st hst _ => hst
    | cons i is ih =>
      intro st hst his
      obtain ⟨hst', hlen⟩ := hst.round (his i mem_cons_self).1 (his i mem_cons_self).2
      exact ih _ hst' fun j hj => hlen ▸ his j (mem_cons_of_mem i hj)
  have hall := hrun ((range (b :: c :: rest).length).map Nat.succ) _ hfirst.1 fun i hi => by
    rw [hfirst.2]
    obtain ⟨j, hj, rfl⟩ := mem_map.1 hi
    have := mem_range.1 hj
    simp only [length_cons] at this ⊢
    omega
  rw [removeOwnSlots, length_cons, range_succ_eq_map, foldl_cons]
  exact ⟨hall.mem, hall.owner⟩

end FSM

end Hayakv.Raft
