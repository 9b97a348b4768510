import Hayakv.Lib.Guarded
import Hayakv.Raft.Fsm

/-!
# The slots stay a partition

From the seed entry on every slot has one owner, and the slots of each node are
listed in ascending order (`Partition`). A well-formed entry keeps that if and only
if it meets a condition on the state before it (`partition_step`): a finished
migration moves slots that its source or its target still owns, and a failed master
had at most two slots. So a whole log keeps the partition if and only if all its
entries meet the condition (`partition_run`).
-/

namespace Hayakv.Raft.FSM

/-- Every slot below `n` has an owner, and every node lists the slots it owns in ascending order. -/
structure Partition (n : Nat) (f : FSM) : Prop where
  owned : ∀ s, (f.slot2Node s).isSome ↔ s < n
  ascending : f.Ascending
  mem : ∀ node s, s ∈ f.node2Slot node ↔ f.slot2Node s = some node

/-- The entries that the members of a cluster put into the log after the seed entry: a migration has
two sides and is finished as it was started, and a failover names a master and one of its replicas. -/
def WellFormed (f : FSM) : LogEntry → Prop
  | .startMigrate task => task.srcNode ≠ task.targetNode
  | .finishMigrate task => task.srcNode ≠ task.targetNode ∧ f.migratings task.id = some task
  | .seedStart _ _ => False
  | .finishFailover old new => new ≠ old ∧ ∃ ms, f.masterSlaves old = some ms ∧ new ∈ ms.slaves
  | .join _ _ => True

/-- A migration ends while its slots are on one of its two sides; a failed master has at most two
slots. -/
def Intact (f : FSM) : LogEntry → Prop
  | .finishMigrate task =>
    ∀ s ∈ task.slots, f.slot2Node s = some task.srcNode ∨ f.slot2Node s = some task.targetNode
  | .finishFailover old _ => (f.node2Slot old).length ≤ 2
  | _ => True

variable {f g : FSM} {n : Nat} {src target : Bytes} {slots : List Nat}

theorem partition_congr (hnode : g.node2Slot = f.node2Slot) (hslot : g.slot2Node = f.slot2Node) :
    Partition n g ↔ Partition n f := by
  constructor
  · exact fun h => ⟨hslot ▸ h.owned, fun x => hnode ▸ h.ascending x, hnode ▸ hslot ▸ h.mem⟩
  · exact fun h => ⟨hslot ▸ h.owned, fun x => hnode ▸ h.ascending x, hnode ▸ hslot ▸ h.mem⟩

theorem routes_addNode (f : FSM) (id masterId : Bytes) :
    (f.addNode id masterId).node2Slot = f.node2Slot ∧ (f.addNode id masterId).slot2Node = f.slot2Node := by
  unfold addNode
  split
  · exact ⟨rfl, rfl⟩
  · split <;> exact ⟨rfl, rfl⟩

theorem partition_move (h : Partition n f) (hne : src ≠ target) :
    Partition n ((f.addSlots target slots).removeSlots src slots) ↔
      ∀ s ∈ slots, f.slot2Node s = some src ∨ f.slot2Node s = some target := by
  obtain ⟨hasc, hadd, hto⟩ := addSlots_spec h.ascending target slots
  obtain ⟨hasc', hmem, hfrom⟩ := removeSlots_spec hasc src slots
  have howner : ∀ s, ((f.addSlots target slots).removeSlots src slots).slot2Node s =
      if s ∈ slots then some target else f.slot2Node s := by
    intro s
    rw [hfrom, hto]
    by_cases hs : s ∈ slots
    · simp [hs, hne.symm]
    · simp [hs]
  constructor
  · intro h' s hs
    have hlt : s < n := (h'.owned s).1 (by rw [howner, if_pos hs]; rfl)
    obtain ⟨x, hx⟩ := Option.isSome_iff_exists.1 ((h.owned s).2 hlt)
    by_cases hsrc : x = src
    · exact .inl (hsrc ▸ hx)
    -- a third owner would list the slot next to the target
    have hlisted := (hmem x s).2 ⟨(hadd x s).2 (.inl ((h.mem x s).2 hx)), fun hxs => hsrc hxs.1⟩
    have heq := (h'.mem x s).1 hlisted
    rw [howner, if_pos hs] at heq
    exact .inr (hx.trans heq.symm)
  · intro hslots
    refine ⟨fun s => ?_, hasc', fun x s => ?_⟩
    · rw [howner, ← h.owned]
      by_cases hs : s ∈ slots
      · rcases hslots s hs with h' | h' <;> simp [hs, h']
      · simp [hs]
    · rw [hmem, hadd, h.mem, howner]
      by_cases hs : s ∈ slots
      · rcases hslots s hs with h' | h' <;> simp only [hs, h', and_true, if_true, Option.some.injEq] <;> grind
      · simp [hs]

/-- The slots of a failed master go to its replica if there are at most two. -/
theorem partition_failover (h : Partition n f) {old new : Bytes} (hne : new ≠ old) :
    Partition n ((f.addSlots new (f.node2Slot old)).removeOwnSlots old (f.node2Slot old)) ↔
      (f.node2Slot old).length ≤ 2 := by
  obtain ⟨hasc, hadd, hto⟩ := addSlots_spec h.ascending new (f.node2Slot old)
  have hold : (f.addSlots new (f.node2Slot old)).node2Slot old = f.node2Slot old :=
    ascending_ext (hasc old) (h.ascending old) fun s => by rw [hadd]; tauto
  by_cases hlen : (f.node2Slot old).length ≤ 2
  · rw [removeOwnSlots_eq hasc hold hlen, partition_move h hne.symm]
    exact iff_of_true (fun s hs => .inl ((h.mem old s).1 hs)) hlen
  refine iff_of_false (fun h' => ?_) hlen
  generalize hslots : f.node2Slot old = slots at *
  match slots with
  | [] | [_] | [_, _] => exact hlen (by simp)
  | a :: b :: c :: rest =>
    have howner : (f.addSlots new (a :: b :: c :: rest)).slot2Node b ≠ some old := by
      rw [hto, if_pos (by simp)]
      simpa using hne
    obtain ⟨hmem, howner'⟩ := mem_removeOwnSlots hasc hold howner
    exact howner' ((h'.mem old b).1 hmem)

theorem partition_seedStart (leader : Bytes) (n : Nat) : Partition n (empty.step (.seedStart leader n)) := by
  have hnode : (empty.step (.seedStart leader n)).node2Slot =
      Function.update (fun _ => []) leader (List.range n) := (routes_addNode _ leader []).1
  have hslot : (empty.step (.seedStart leader n)).slot2Node = fun s => if s < n then some leader else none :=
    (routes_addNode _ leader []).2
  refine ⟨fun s => ?_, fun x => ?_, fun x s => ?_⟩
  · by_cases hs : s < n <;> simp [hslot, hs]
  · rw [hnode]
    by_cases hx : x = leader
    · rw [hx, Function.update_self]
      exact List.pairwise_lt_range
    · rw [Function.update_of_ne hx]
      exact List.Pairwise.nil
  · rw [hnode, hslot]
    by_cases hx : x = leader
    · by_cases hs : s < n <;> simp [hx, hs]
    · by_cases hs : s < n <;> simp [hx, hs, Ne.symm hx]

/-- A well-formed entry keeps the partition if and only if it is intact. -/
theorem partition_step (h : Partition n f) {e : LogEntry} (hw : WellFormed f e) :
    Partition n (f.step e) ↔ Intact f e := by
  cases e with
  | startMigrate task => exact iff_of_true ⟨h.owned, h.ascending, h.mem⟩ trivial
  | finishMigrate task =>
    exact partition_move ⟨h.owned, h.ascending, h.mem⟩ hw.1
  | seedStart leader slotCount => exact hw.elim
  | finishFailover old new =>
    obtain ⟨hne, ms, hms, -⟩ := hw
    have hstep : f.step (.finishFailover old new) = ((f.failover old new ms.slaves).addSlots new
        (f.node2Slot old)).removeOwnSlots old (f.node2Slot old) := by
      rw [step, apply, hms]
      rfl
    rw [hstep]
    exact partition_failover (f := f.failover old new ms.slaves) ⟨h.owned, h.ascending, h.mem⟩ hne
  | join nodeId master =>
    have hroutes := routes_addNode f nodeId master
    exact iff_of_true ((partition_congr hroutes.1 hroutes.2).2 h) trivial

/-- The slots stay a partition all along a well-formed log if and only if every entry is intact. -/
theorem partition_run (leader : Bytes) (n : Nat) (log : List LogEntry)
    (hw : Guarded step WellFormed (empty.step (.seedStart leader n)) log) :
    (∀ pre, pre <+: log → Partition n ((empty.step (.seedStart leader n)).run pre)) ↔
      Guarded step Intact (empty.step (.seedStart leader n)) log :=
  forall_prefix_iff_guarded (fun _ _ hs hdom => partition_step hs hdom) hw (partition_seedStart leader n)

/-- A replica joins and takes the place of its master. -/
def takeover : List LogEntry := [.join [114] [109], .finishFailover [109] [114]]

/-- The old master then gets a slot back. -/
def handBack : MigratingTask := ⟨[116], [114], [109], [1]⟩

theorem partition_run_two :
    let f := empty.step (.seedStart [109] 2)
    let es := takeover ++ [.startMigrate handBack, .finishMigrate handBack]
    Guarded step WellFormed f es ∧ ∀ pre, pre <+: es → Partition 2 (f.run pre) := by
  intro f es
  have hw : Guarded step WellFormed f es :=
    ⟨trivial, ⟨by decide, ⟨[109], [[114]]⟩, by decide, by decide⟩, show _ ≠ _ by decide, ⟨by decide, rfl⟩, trivial⟩
  have hi : Guarded step Intact f es := by
    refine ⟨trivial, show _ ≤ 2 by decide, trivial, fun s hs => .inl ?_, trivial⟩
    obtain rfl := List.mem_singleton.1 hs
    decide +kernel
  exact ⟨hw, (partition_run [109] 2 es hw).2 hi⟩

/-- A master with three slots is failed over to its replica. The second slot is left behind: the old
master lists it, and the replica owns it. -/
theorem failover_leaves_slot : Guarded step WellFormed (empty.step (.seedStart [109] 3)) takeover ∧
      ¬Partition 3 ((empty.step (.seedStart [109] 3)).run takeover) := by
  refine ⟨⟨trivial, ⟨by decide, ⟨[109], [[114]]⟩, by decide, by decide⟩, trivial⟩, fun h => ?_⟩
  have hlisted : 1 ∈ ((empty.step (.seedStart [109] 3)).run takeover).node2Slot [109] := by decide +kernel
  have howner : ((empty.step (.seedStart [109] 3)).run takeover).slot2Node 1 = some [114] := by decide +kernel
  exact absurd (howner.symm.trans ((h.mem _ _).1 hlisted)) (by decide)

end Hayakv.Raft.FSM
