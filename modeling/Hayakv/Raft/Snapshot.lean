import Hayakv.Lib.GoMap
import Hayakv.Raft.Routing

/-!
# Snapshots of the routing state

A snapshot holds three of the five maps; `restore` builds the slots of each node
and the masters of the replicas again, in loops over maps. The orders of these
loops are arguments. What a node has after `restore` (`node2Slot_restore`,
`slaveMasters_restore`) is the state of the snapshot if and only if the orders and
the two states fit together (`restore_faithful_iff`): the slots of each node must
come in ascending order, and the entries of `SlaveMasters`, which `restore` does
not clear, must agree with the lists of replicas.
-/

namespace Hayakv.Raft

open List Function

structure FSMSnapshot where
  slot2Node : Nat → Option Bytes
  migratings : Bytes → Option MigratingTask
  masterSlaves : Bytes → Option MasterSlave

namespace FSM

def snapshot (f : FSM) : FSMSnapshot := ⟨f.slot2Node, f.migratings, f.masterSlaves⟩

/-- A round of the loop over `Slot2Node`. -/
def restoreSlot (slot2Node : Nat → Option Bytes) (node2Slot : Bytes → List Nat) (slot : Nat) : Bytes → List Nat :=
  match slot2Node slot with
  | none => node2Slot
  | some node => Function.update node2Slot node (node2Slot node ++ [slot])

variable (masterSlaves : Bytes → Option MasterSlave)

/-- A round of the loop over `MasterSlaves`. -/
def restoreMaster (slaveMasters : Bytes → Option Bytes) (master : Bytes) : Bytes → Option Bytes :=
  match masterSlaves master with
  | none => slaveMasters
  | some ms => ms.slaves.foldl (fun m slave => Function.update m slave (some master)) slaveMasters

/-- The state `f` is replaced by a snapshot, with loops over the maps in the given orders. -/
def restore (f : FSM) (snapshot : FSMSnapshot) (slots : List Nat) (masters : List Bytes) : FSM where
  slot2Node := snapshot.slot2Node
  migratings := snapshot.migratings
  masterSlaves := snapshot.masterSlaves
  node2Slot := slots.foldl (restoreSlot snapshot.slot2Node) fun _ => []
  slaveMasters := masters.foldl (restoreMaster snapshot.masterSlaves) f.slaveMasters

/-! ## The slots of a node are always ascending -/

theorem ascending_removeOwnSlots {f : FSM} (h : f.Ascending) (node : Bytes) (slots : List Nat) :
    (f.removeOwnSlots node slots).Ascending :=
  foldl_invariant (P := fun st : FSM × List Nat => st.1.Ascending)
    (fun _ _ hst => ascending_removeSlot hst node _) h _

theorem ascending_step {f : FSM} (h : f.Ascending) (e : LogEntry) : (f.step e).Ascending := by
  cases e with
  | startMigrate task => exact h
  | finishMigrate task =>
    have hadd := addSlots_spec (f := { f with migratings := update f.migratings task.id none })
      h task.targetNode task.slots
    exact (removeSlots_spec hadd.1 task.srcNode task.slots).1
  | seedStart leader slotCount =>
    have hnode : (f.step (.seedStart leader slotCount)).node2Slot =
        update f.node2Slot leader (range slotCount) := (routes_addNode _ leader []).1
    intro x
    rw [hnode]
    by_cases hx : x = leader
    · rw [hx, update_self]
      exact pairwise_lt_range
    · rw [update_of_ne hx]
      exact h x
  | finishFailover old new =>
    cases hms : f.masterSlaves old with
    | none =>
      have hstep : f.step (.finishFailover old new) = f := by rw [step, apply, hms]; rfl
      rw [hstep]
      exact h
    | some ms =>
      have hstep : f.step (.finishFailover old new) = ((f.failover old new ms.slaves).addSlots new
          (f.node2Slot old)).removeOwnSlots old (f.node2Slot old) := by rw [step, apply, hms]; rfl
      rw [hstep]
      exact ascending_removeOwnSlots (addSlots_spec (f := f.failover old new ms.slaves) h _ _).1 _ _
  | join nodeId master => exact fun x => (routes_addNode f nodeId master).1 ▸ h x

theorem ascending_run (log : List LogEntry) : (empty.run log).Ascending :=
  foldl_invariant (P := Ascending) (fun _ e h => ascending_step h e) (fun _ => List.Pairwise.nil) log

/-! ## What is rebuilt -/

theorem node2Slot_restore (f : FSM) (snapshot : FSMSnapshot) (slots : List Nat) (masters : List Bytes)
    (node : Bytes) : (f.restore snapshot slots masters).node2Slot node =
      slots.filter (fun s => snapshot.slot2Node s = some node) := by
  have hloop : ∀ (slots : List Nat) (m : Bytes → List Nat), slots.foldl (restoreSlot snapshot.slot2Node) m node =
        m node ++ slots.filter (fun s => snapshot.slot2Node s = some node) := by
    intro slots
    induction slots with
    | nil => simp
    | cons slot slots ih =>
      intro m
      rw [foldl_cons, ih, restoreSlot]
      cases howner : snapshot.slot2Node slot with
      | none => simp [howner]
      | some owner =>
        by_cases hnode : owner = node
        · simp [howner, hnode]
        · simp [howner, hnode, update_of_ne (Ne.symm hnode)]
  exact hloop slots _

def Lists (master id : Bytes) : Prop := ∃ ms, masterSlaves master = some ms ∧ id ∈ ms.slaves

theorem restoreMaster_apply (m : Bytes → Option Bytes)
    (master id : Bytes) : (Lists masterSlaves master id → restoreMaster masterSlaves m master id = some master) ∧
      (¬Lists masterSlaves master id → restoreMaster masterSlaves m master id = m id) := by
  have hloop : ∀ (slaves : List Bytes) (m : Bytes → Option Bytes),
      slaves.foldl (fun m slave => update m slave (some master)) m id =
        if id ∈ slaves then some master else m id := by
    intro slaves
    induction slaves with
    | nil => simp
    | cons slave slaves ih =>
      intro m
      rw [foldl_cons, ih]
      by_cases hid : id = slave
      · simp [hid]
      · simp [hid]
  cases hms : masterSlaves master with
  | none => exact ⟨fun ⟨_, h, _⟩ => absurd (hms.symm.trans h) nofun, fun _ => by rw [restoreMaster, hms]⟩
  | some ms =>
    have hval : restoreMaster masterSlaves m master id = if id ∈ ms.slaves then some master else m id := by
      rw [restoreMaster, hms]
      exact hloop ms.slaves m
    rw [hval]
    refine ⟨fun ⟨ms', h, hid⟩ => ?_, fun h => if_neg fun hid => h ⟨ms, hms, hid⟩⟩
    rw [hms, Option.some.injEq] at h
    exact if_pos (h ▸ hid)

theorem foldl_restoreMaster {masterSlaves : Bytes → Option MasterSlave} {masters : List Bytes} {id : Bytes}
    (hnone : ∀ m ∈ masters, ¬Lists masterSlaves m id) (m : Bytes → Option Bytes) :
    masters.foldl (restoreMaster masterSlaves) m id = m id := by
  induction masters generalizing m with
  | nil => rfl
  | cons x masters ih =>
    rw [foldl_cons, ih fun y hy => hnone y (mem_cons_of_mem x hy)]
    exact (restoreMaster_apply _ m x id).2 (hnone x mem_cons_self)

theorem slaveMasters_restore_of_last (f : FSM) (snapshot : FSMSnapshot) (slots : List Nat)
    {pre post : List Bytes} {master id : Bytes} (hlists : Lists snapshot.masterSlaves master id)
    (hpost : ∀ m ∈ post, ¬Lists snapshot.masterSlaves m id) :
    (f.restore snapshot slots (pre ++ master :: post)).slaveMasters id = some master := by
  show (pre ++ master :: post).foldl (restoreMaster snapshot.masterSlaves) f.slaveMasters id = some master
  rw [foldl_append, foldl_cons, foldl_restoreMaster hpost]
  exact (restoreMaster_apply _ _ master id).1 hlists

theorem slaveMasters_restore_of_none (f : FSM) (snapshot : FSMSnapshot) (slots : List Nat)
    {masters : List Bytes} {id : Bytes} (hnone : ∀ m ∈ masters, ¬Lists snapshot.masterSlaves m id) :
    (f.restore snapshot slots masters).slaveMasters id = f.slaveMasters id :=
  foldl_restoreMaster hnone f.slaveMasters

/-- Some master lists the replica, and then one of them is the last, or none does. -/
theorem exists_last_lists (masters : List Bytes) (id : Bytes) :
    (∀ m ∈ masters, ¬Lists masterSlaves m id) ∨ ∃ pre m post, masters = pre ++ m :: post ∧
      Lists masterSlaves m id ∧ ∀ m' ∈ post, ¬Lists masterSlaves m' id := by
  induction masters with
  | nil => exact .inl fun _ h => absurd h not_mem_nil
  | cons x masters ih =>
    rcases ih with hnone | ⟨pre, m, post, rfl, hm, hpost⟩
    · by_cases hx : Lists masterSlaves x id
      · exact .inr ⟨[], x, masters, rfl, hx, hnone⟩
      · exact .inl (forall_mem_cons.2 ⟨hx, hnone⟩)
    · exact .inr ⟨x :: pre, m, post, rfl, hm, hpost⟩

/-! ## When a snapshot is restored faithfully -/

/-- A restored state answers like the original: its maps are the same, and the slots of each node are
in the order that the binary searches need. -/
def Faithful (restored original : FSM) : Prop := restored = original ∧ restored.Ascending

/-- The state `f` of a snapshot, the state `old` of the node that takes it and the orders of the loops
fit together. -/
structure Restorable (f old : FSM) (slots : List Nat) (masters : List Bytes) : Prop where
  listed : ∀ node s, s ∈ f.node2Slot node ↔ f.slot2Node s = some node
  /-- The loop comes to the slots of each node in ascending order. -/
  ordered : slots.Pairwise fun s t => f.slot2Node s = f.slot2Node t → s < t
  /-- The loop comes last to the master that a replica follows. -/
  followed : ∀ pre m post id, masters = pre ++ m :: post → Lists f.masterSlaves m id →
    (∀ m' ∈ post, ¬Lists f.masterSlaves m' id) → f.slaveMasters id = some m
  /-- The node has the right entries for all that no master lists. -/
  unlisted : ∀ id, (∀ m, ¬Lists f.masterSlaves m id) → old.slaveMasters id = f.slaveMasters id

section

variable {f old : FSM} {slots : List Nat} {masters : List Bytes}

/-- The slots of the nodes are as they were if the loop comes to them in ascending order. -/
theorem node2Slot_restore_iff (h : f.Ascending) (hslots : Ranges slots f.slot2Node) :
    (old.restore f.snapshot slots masters).node2Slot = f.node2Slot ↔
      (∀ node s, s ∈ f.node2Slot node ↔ f.slot2Node s = some node) ∧
        slots.Pairwise fun s t => f.slot2Node s = f.slot2Node t → s < t := by
  have hmem : ∀ node s, s ∈ slots.filter (fun s => f.slot2Node s = some node) ↔ f.slot2Node s = some node := by
    intro node s
    rw [mem_filter, decide_eq_true_eq, hslots.2, and_iff_right_of_imp]
    exact fun howner => howner ▸ rfl
  rw [funext_iff]
  simp only [node2Slot_restore, snapshot]
  constructor
  · intro heq
    refine ⟨fun node s => by rw [← heq, hmem], pairwise_iff_getElem.2 fun i j hi hj hij howner => ?_⟩
    obtain ⟨node, hnode⟩ := Option.isSome_iff_exists.1 ((hslots.2 _).1 (getElem_mem hi))
    have hsorted := h node
    rw [← heq, pairwise_filter] at hsorted
    exact pairwise_iff_getElem.1 hsorted i j hi hj hij (decide_eq_true hnode) (decide_eq_true (howner ▸ hnode))
  · rintro ⟨hlisted, hordered⟩ node
    refine ascending_ext ?_ (h node) fun s => by rw [hmem, hlisted]
    refine pairwise_filter.2 (hordered.imp fun hlt hs ht => ?_)
    exact hlt ((of_decide_eq_true hs).trans (of_decide_eq_true ht).symm)

/-- The masters of the replicas are as they were if the loop ends with the right ones, and no others
are left from before. -/
theorem slaveMasters_restore_iff (hmasters : Ranges masters f.masterSlaves) :
    (old.restore f.snapshot slots masters).slaveMasters = f.slaveMasters ↔
      (∀ pre m post id, masters = pre ++ m :: post → Lists f.masterSlaves m id →
        (∀ m' ∈ post, ¬Lists f.masterSlaves m' id) → f.slaveMasters id = some m) ∧
      ∀ id, (∀ m, ¬Lists f.masterSlaves m id) → old.slaveMasters id = f.slaveMasters id := by
  constructor
  · intro heq
    refine ⟨?_, fun id hnone => ?_⟩
    · rintro pre m post id rfl hm hpost
      rw [← heq]
      exact slaveMasters_restore_of_last old f.snapshot slots hm hpost
    · rw [← heq]
      exact (slaveMasters_restore_of_none old f.snapshot slots fun m _ => hnone m).symm
  · rintro ⟨hfollowed, hunlisted⟩
    funext id
    rcases exists_last_lists f.masterSlaves masters id with hnone | ⟨pre, m, post, rfl, hm, hpost⟩
    · rw [slaveMasters_restore_of_none old f.snapshot slots hnone]
      refine hunlisted id fun m ⟨ms, hms, hid⟩ => ?_
      exact hnone m ((hmasters.2 m).2 (hms ▸ rfl)) ⟨ms, hms, hid⟩
    · rw [slaveMasters_restore_of_last old f.snapshot slots hm hpost, hfollowed pre m post id rfl hm hpost]

end

/-- A node of any state restores the snapshot of a log's state faithfully if and only if the two
states and the orders of the loops fit together. -/
theorem restore_faithful_iff (log : List LogEntry) (old : FSM) {slots : List Nat} {masters : List Bytes}
    (hslots : Ranges slots (empty.run log).slot2Node) (hmasters : Ranges masters (empty.run log).masterSlaves) :
    Faithful (old.restore (empty.run log).snapshot slots masters) (empty.run log) ↔
      Restorable (empty.run log) old slots masters := by
  have hasc := ascending_run log
  generalize empty.run log = f at hslots hmasters hasc
  constructor
  · rintro ⟨heq, -⟩
    obtain ⟨hlisted, hordered⟩ := (node2Slot_restore_iff hasc hslots).1 (congrArg node2Slot heq)
    obtain ⟨hfollowed, hunlisted⟩ := (slaveMasters_restore_iff hmasters).1 (congrArg slaveMasters heq)
    exact ⟨hlisted, hordered, hfollowed, hunlisted⟩
  · intro h
    have heq : old.restore f.snapshot slots masters = f := by
      refine FSM.ext ?_ rfl rfl rfl ?_
      · exact (node2Slot_restore_iff hasc hslots).2 ⟨h.listed, h.ordered⟩
      · exact (slaveMasters_restore_iff hmasters).2 ⟨h.followed, h.unlisted⟩
    exact ⟨heq, heq ▸ hasc⟩

/-- One node, with the slots 0 and 1. -/
def seeded : FSM := empty.run [.seedStart [109] 2]

theorem ranges_seeded {slots : List Nat} (hslots : slots.Nodup) (hmem : ∀ s, s ∈ slots ↔ s < 2) :
    Ranges slots seeded.slot2Node ∧ Ranges [[109]] seeded.masterSlaves := by
  refine ⟨⟨hslots, fun s => ?_⟩, by decide, fun m => ?_⟩
  · show s ∈ slots ↔ (if s < 2 then some ([109] : Bytes) else none).isSome
    by_cases hs : s < 2 <;> simp [hs, hmem]
  · show m ∈ [[109]] ↔ (Function.update (fun _ => none) ([109] : Bytes) (some (⟨[109], []⟩ : MasterSlave)) m).isSome
    by_cases hm : m = [109] <;> simp [hm]

theorem restore_faithful_iff_two : Ranges [0, 1] seeded.slot2Node ∧ Ranges [[109]] seeded.masterSlaves ∧
      Faithful (empty.restore seeded.snapshot [0, 1] [[109]]) seeded := by
  obtain ⟨hslots, hmasters⟩ := @ranges_seeded [0, 1] (by decide) fun s => by simp; omega
  have hnone : ∀ m id, ¬Lists seeded.masterSlaves m id := by
    rintro m id ⟨ms, hms, hid⟩
    have hmaster : seeded.masterSlaves = Function.update (fun _ => none) [109] (some ⟨[109], []⟩) := rfl
    rw [hmaster] at hms
    by_cases hm : m = [109]
    · rw [hm, Function.update_self, Option.some.injEq] at hms
      simp [← hms] at hid
    · simp [Function.update_of_ne hm] at hms
  refine ⟨hslots, hmasters, (restore_faithful_iff [.seedStart [109] 2] empty hslots hmasters).2 ?_⟩
  refine ⟨(partition_seedStart [109] 2).mem, by simp, fun _ m _ id _ hm => ?_, fun _ _ => rfl⟩
  exact absurd hm (hnone m id)

/-- The loop over the slots may come to slot 1 before slot 0. -/
theorem restore_unordered : Ranges [1, 0] seeded.slot2Node ∧ Ranges [[109]] seeded.masterSlaves ∧
      (empty.restore seeded.snapshot [1, 0] [[109]]).node2Slot [109] = [1, 0] ∧
      ¬Faithful (empty.restore seeded.snapshot [1, 0] [[109]]) seeded := by
  obtain ⟨hslots, hmasters⟩ := @ranges_seeded [1, 0] (by decide) fun s => by simp; omega
  refine ⟨hslots, hmasters, by decide, fun h => ?_⟩
  have hsorted := h.2 [109]
  exact absurd (List.pairwise_pair.1 hsorted) (by decide)

end FSM

end Hayakv.Raft
