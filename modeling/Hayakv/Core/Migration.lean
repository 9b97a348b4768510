import Hayakv.Lib.Guarded
import Hayakv.Raft.Fsm
import Mathlib.Data.Finset.Basic

/-!
# The end of a slot's migration

The source of a migration asks the leader to change the route, and drops the slots where the answer was not OK. It
holds a slot's lock while it deletes the keys, and the callback of a deletion takes the lock again. A task that was
exported is never forgotten, so that no other one is exported.
-/

namespace Hayakv.Core

open Raft (MigratingTask)

inductive SlotState where
  | hosting
  | importing
  | exporting
deriving DecidableEq

/-- A slot, without the keys that are to be sent. -/
structure SlotStatus where
  state : SlotState := .hosting
  keys : List Bytes := []

namespace SlotStatus

def startExporting (slot : SlotStatus) : Except Bytes SlotStatus :=
  if slot.state = .hosting then .ok { slot with state := .exporting } else .error "slot host is not hosting"

def finishExportingWithinLock (slot : SlotStatus) : SlotStatus := { slot with state := .hosting }

end SlotStatus

/-- A node: its keys and its `slotsManager`. It is blocked once it waits for a slot's lock that it holds. -/
structure Source where
  db : Finset Bytes := ∅
  slots : Nat → Option SlotStatus := fun _ => none
  importingTask : Option MigratingTask := none
  blocked : Bool := false

structure SetOrder where
  keys : List Bytes → List Bytes
  mem : ∀ {l : List Bytes} {k : Bytes}, k ∈ keys l ↔ k ∈ l

inductive Answer where
  | ok
  | error
  | other

/-- How the request to change the route ends. Where the answer is not OK, the change may still have been made. -/
inductive Outcome where
  | noLeader
  | replied (answer : Answer) (changed : Bool)

def Outcome.accepted : Outcome → Bool
  | .noLeader => false
  | .replied .ok _ => true
  | .replied _ changed => changed

namespace Source

variable (s : Source)

def getSlot (index : Nat) : SlotStatus := (s.slots index).getD {}

def setSlot (index : Nat) (slot : SlotStatus) : Source :=
  { s with slots := Function.update s.slots index (some slot) }

def startSlots : Source → List Nat → Source × Option Bytes
  | s, [] => (s, none)
  | s, slotId :: slots => match (s.getSlot slotId).startExporting with
    | .ok slot => startSlots (s.setSlot slotId slot) slots
    | .error msg => (s, some msg)

/-- `execExport`, without what it sends. -/
def execExport (task : MigratingTask) : Source × Option Bytes :=
  if s.importingTask.isSome then (s, some "ERR another migrating task in progress")
  else startSlots { s with importingTask := some task } task.slots

def finishSlots (locked : List Nat) : Source → List Nat → Source
  | s, [] => s
  | s, slotId :: slots =>
    if slotId ∈ locked then { s with blocked := true }
    else finishSlots (slotId :: locked) (s.setSlot slotId (s.getSlot slotId).finishExportingWithinLock) slots

variable (slotOf : Bytes → Nat)

def callback (change : List Bytes → List Bytes) (s : Source) (key : Bytes) : Source :=
  let slot := s.getSlot (slotOf key)
  s.setSlot (slotOf key) { slot with keys := change slot.keys }

def put (key : Bytes) : Source :=
  if key ∈ s.db then s else callback slotOf (·.insert key) { s with db := insert key s.db } key

def del (key : Bytes) : Source :=
  if key ∈ s.db then callback slotOf (·.filter (· ≠ key)) { s with db := s.db.erase key } key else s

/-- The loop of `dropSlot`, under the lock of the slot. -/
def dropKeys (index : Nat) : Source → List Bytes → Source
  | s, [] => s
  | s, key :: keys =>
    if key ∈ s.db ∧ slotOf key = index then { s with db := s.db.erase key, blocked := true }
    else dropKeys index (s.del slotOf key) keys

variable (order : SetOrder)

def dropSlot (index : Nat) : Source :=
  match s.slots index with
  | none => s
  | some slot =>
    let t := dropKeys slotOf index s (order.keys slot.keys)
    if t.blocked then t else { t with slots := Function.update t.slots index none }

def dropSlots : Source → List Nat → Source
  | s, [] => s
  | s, index :: slots =>
    let t := s.dropSlot slotOf order index
    if t.blocked then t else dropSlots t slots

/-- `execFinishExport`, without what it sends, and the goroutine that it starts. -/
def execFinishExport (task : MigratingTask) (outcome : Outcome) : Source :=
  let t := s.finishSlots [] task.slots
  if t.blocked then t else match outcome with
    | .noLeader | .replied .ok _ => t
    | .replied _ _ => t.dropSlots slotOf order task.slots

end Source

inductive Event where
  | put (key : Bytes)
  | del (key : Bytes)
  | startExport (task : MigratingTask)
  | finishExport (task : MigratingTask) (outcome : Outcome) (order : SetOrder)

namespace Source

def step (slotOf : Bytes → Nat) (s : Source) (e : Event) : Source :=
  if s.blocked then s else match e with
    | .put key => s.put slotOf key
    | .del key => s.del slotOf key
    | .startExport task => (s.execExport task).1
    | .finishExport task outcome order => s.execFinishExport slotOf order task outcome

def Able (s : Source) : Prop := ∀ task, (s.execExport task).2 ≠ some (str "ERR another migrating task in progress")

variable (slotOf : Bytes → Nat)

/-- The slots are dropped if their route has changed, and kept if not; and the node does not block itself. -/
def Right (s : Source) : Event → Prop
  | .finishExport task outcome order =>
    let t := s.step slotOf (.finishExport task outcome order)
    (outcome.accepted = true → (∀ k ∈ t.db, slotOf k ∉ task.slots) ∧ t.Able) ∧
      (outcome.accepted = false → ∀ k ∈ s.db, slotOf k ∈ task.slots → k ∈ t.db) ∧ t.blocked = false
  | _ => True

/-- There was no leader to ask, or there is nothing to drop and, if the leader agrees, nothing to forget. -/
def Meets (s : Source) : Event → Prop
  | .finishExport task outcome _ => task.slots.Nodup ∧ (outcome = .noLeader ∨
      (∀ k ∈ s.db, slotOf k ∉ task.slots) ∧ (outcome.accepted = true → s.importingTask = none))
  | _ => True

structure Inv (s : Source) : Prop where
  blocked : s.blocked = false
  tracked : ∀ i k, k ∈ (s.getSlot i).keys ↔ k ∈ s.db ∧ slotOf k = i

variable {slotOf : Bytes → Nat} {s : Source} {index : Nat} {slot : SlotStatus} {order : SetOrder}

theorem able_iff : s.Able ↔ s.importingTask = none := by
  have hstart : ∀ (slots : List Nat) (t : Source),
      (t.startSlots slots).2 ≠ some (str "ERR another migrating task in progress") := by
    intro slots
    induction slots with
    | nil => exact fun t h => nomatch h
    | cons slotId slots ih =>
      intro t
      rw [startSlots, SlotStatus.startExporting]
      split_ifs
      · exact ih _
      · exact fun h => absurd (Option.some.inj h) (by decide)
  cases h : s.importingTask with
  | none => simp [Able, execExport, h, hstart]
  | some task => exact iff_of_false (fun hable => hable task (by simp [execExport, h])) (Option.some_ne_none task)

theorem getSlot_setSlot (s : Source) (index : Nat) (slot : SlotStatus) (i : Nat) :
    (s.setSlot index slot).getSlot i = if i = index then slot else s.getSlot i := by
  simp only [getSlot, setSlot, Function.update_apply]
  split <;> rfl

namespace Inv

section

variable (h : s.Inv slotOf)
include h

theorem setSlot (hkeys : slot.keys = (s.getSlot index).keys) : (s.setSlot index slot).Inv slotOf := by
  refine ⟨h.blocked, fun i k => ?_⟩
  rw [getSlot_setSlot]
  split
  · subst i
    rw [hkeys]
    exact h.tracked index k
  · exact h.tracked i k

theorem put (key : Bytes) : (s.put slotOf key).Inv slotOf := by
  rw [Source.put]
  split
  · exact h
  · refine ⟨h.blocked, fun i k => ?_⟩
    have htracked := h.tracked i k
    simp only [callback, getSlot, Source.setSlot] at htracked ⊢
    grind

theorem del (key : Bytes) : (s.del slotOf key).Inv slotOf := by
  rw [Source.del]
  split
  · refine ⟨h.blocked, fun i k => ?_⟩
    have htracked := h.tracked i k
    simp only [callback, getSlot, Source.setSlot] at htracked ⊢
    grind
  · exact h

theorem startSlots (slots : List Nat) : (s.startSlots slots).1.Inv slotOf := by
  induction slots generalizing s with
  | nil => exact h
  | cons slotId slots ih =>
    rw [Source.startSlots, SlotStatus.startExporting]
    split_ifs
    · exact ih (h.setSlot rfl)
    · exact h

theorem execExport (task : MigratingTask) : (s.execExport task).1.Inv slotOf := by
  rw [Source.execExport]
  split
  · exact h
  · exact startSlots (s := { s with importingTask := some task }) ⟨h.blocked, h.tracked⟩ _

end

end Inv

/-- The node has kept its keys and the task that it has exported. -/
structure Same (slotOf : Bytes → Nat) (s t : Source) : Prop extends t.Inv slotOf where
  db : t.db = s.db
  importingTask : t.importingTask = s.importingTask

theorem Inv.same (h : s.Inv slotOf) : Same slotOf s s := ⟨h, rfl, rfl⟩

theorem Same.trans {t u : Source} (hst : Same slotOf s t) (htu : Same slotOf t u) : Same slotOf s u :=
  ⟨htu.toInv, htu.db.trans hst.db, htu.importingTask.trans hst.importingTask⟩

/-- Where the condition holds the node goes on, and else it blocks itself. -/
def Goes (slotOf : Bytes → Nat) (s t : Source) (c : Prop) : Prop := c ∧ Same slotOf s t ∨ ¬c ∧ t.blocked = true

theorem Goes.of_same {t u : Source} {c c' : Prop} (h : Same slotOf s t) (hgoes : Goes slotOf t u c) (hc : c' ↔ c) :
    Goes slotOf s u c' :=
  hgoes.imp (fun hu => ⟨hc.2 hu.1, h.trans hu.2⟩) fun hu => ⟨fun h' => hu.1 (hc.1 h'), hu.2⟩

namespace Inv

section

variable (h : s.Inv slotOf)
include h

theorem finishSlots (locked slots : List Nat) :
    Goes slotOf s (s.finishSlots locked slots) (slots.Nodup ∧ ∀ i ∈ slots, i ∉ locked) := by
  induction slots generalizing s locked with
  | nil => exact .inl ⟨by simp, h.same⟩
  | cons i slots ih =>
    rw [Source.finishSlots]
    split
    · exact .inr ⟨fun hn => hn.2 i List.mem_cons_self ‹_›, rfl⟩
    · have hslot : (s.setSlot i (s.getSlot i).finishExportingWithinLock).Inv slotOf := h.setSlot rfl
      exact .of_same ⟨hslot, rfl, rfl⟩ (ih hslot _) (by grind)

theorem dropSlot (order : SetOrder) (index : Nat) :
    Goes slotOf s (s.dropSlot slotOf order index) (∀ k ∈ s.db, slotOf k ≠ index) := by
  have htracked := h.tracked index
  rw [getSlot] at htracked
  rw [Source.dropSlot]
  cases hslot : s.slots index with
  | none =>
    rw [hslot] at htracked
    exact .inl ⟨fun k hk hi => List.not_mem_nil ((htracked k).2 ⟨hk, hi⟩), h.same⟩
  | some slot =>
    rw [hslot] at htracked
    dsimp only
    have hmem : ∀ k, k ∈ order.keys slot.keys ↔ k ∈ s.db ∧ slotOf k = index := fun k => order.mem.trans (htracked k)
    cases hkeys : order.keys slot.keys with
    | nil =>
      have hnone : ∀ k ∈ s.db, slotOf k ≠ index := fun k hk hi => by simpa [hkeys] using (hmem k).2 ⟨hk, hi⟩
      refine .inl ⟨hnone, ?_⟩
      rw [dropKeys, if_neg (by simp [h.blocked])]
      refine ⟨⟨h.blocked, fun i k => ?_⟩, rfl, rfl⟩
      have hk := h.tracked i k
      simp only [getSlot, Function.update_apply] at hk ⊢
      grind
    | cons key keys =>
      have hkey := (hmem key).1 (hkeys ▸ List.mem_cons_self)
      rw [dropKeys, if_pos hkey, if_pos rfl]
      exact .inr ⟨fun hnone => hnone key hkey.1 hkey.2, rfl⟩

theorem dropSlots (order : SetOrder) (slots : List Nat) :
    Goes slotOf s (s.dropSlots slotOf order slots) (∀ k ∈ s.db, slotOf k ∉ slots) := by
  induction slots generalizing s with
  | nil => exact .inl ⟨by simp, h.same⟩
  | cons i slots ih =>
    rw [Source.dropSlots]
    obtain ⟨hnone, hsame⟩ | ⟨hsome, hblocked⟩ := h.dropSlot order i
    · rw [if_neg (by simp [hsame.blocked])]
      refine .of_same hsame (ih hsame.toInv) ?_
      rw [hsame.db]
      grind
    · rw [if_pos hblocked]
      exact .inr ⟨fun hnone => hsome fun k hk hi => hnone k hk (hi ▸ List.mem_cons_self), hblocked⟩

theorem execFinishExport (task : MigratingTask) (outcome : Outcome) (order : SetOrder) :
    Goes slotOf s (s.execFinishExport slotOf order task outcome) (task.slots.Nodup ∧
      ((∀ k ∈ s.db, slotOf k ∉ task.slots) ∨ outcome = .noLeader ∨ ∃ c, outcome = .replied .ok c)) := by
  rw [Source.execFinishExport.eq_def]
  obtain ⟨hn, hsame⟩ | ⟨hn, hblocked⟩ := h.finishSlots [] task.slots
  · rw [if_neg (by simp [hsame.blocked])]
    have hdrop := hsame.toInv.dropSlots order task.slots
    rw [hsame.db] at hdrop
    rcases outcome with _ | ⟨_ | _ | _, c⟩
    · exact .inl ⟨⟨hn.1, .inr (.inl rfl)⟩, hsame⟩
    · exact .inl ⟨⟨hn.1, .inr (.inr ⟨c, rfl⟩)⟩, hsame⟩
    · exact .of_same hsame hdrop (by simp [hn.1])
    · exact .of_same hsame hdrop (by simp [hn.1])
  · rw [if_pos hblocked]
    exact .inr ⟨fun hok => hn ⟨hok.1, by simp⟩, hblocked⟩

theorem step {e : Event} (he : s.Meets slotOf e) : (s.step slotOf e).Inv slotOf := by
  rw [Source.step.eq_def, if_neg (by simp [h.blocked])]
  cases e with
  | put key => exact h.put key
  | del key => exact h.del key
  | startExport task => exact h.execExport task
  | finishExport task outcome order =>
    refine ((h.execFinishExport task outcome order).resolve_right fun hb => hb.1 ⟨he.1, ?_⟩).2.toInv
    exact he.2.elim (fun hl => .inr (.inl hl)) fun hs => .inl hs.1

theorem right_iff (e : Event) : s.Right slotOf e ↔ s.Meets slotOf e := by
  cases e with
  | finishExport task outcome order =>
    have hstep : s.step slotOf (.finishExport task outcome order) = s.execFinishExport slotOf order task outcome := by
      rw [Source.step, if_neg (by simp [h.blocked])]
    simp only [Right, Meets, hstep, able_iff]
    obtain ⟨hgo, hsame⟩ | ⟨hstop, hblocked⟩ := h.execFinishExport task outcome order
    · rw [hsame.db, hsame.importingTask, and_iff_left hsame.blocked]
      rcases outcome with _ | ⟨_ | _ | _, _ | _⟩ <;> simp_all [Outcome.accepted]
    · refine iff_of_false (fun hr => by simp [hblocked] at hr) fun hm => hstop ⟨hm.1, ?_⟩
      exact hm.2.elim (fun hl => .inr (.inl hl)) fun hs => .inl hs.1
  | _ => exact Iff.rfl

end

end Inv

/-- In every run, every end of an export is right if and only if it meets the condition. -/
theorem migration_run (slotOf : Bytes → Nat) (es : List Event) :
    Guarded (step slotOf) (Right slotOf) {} es ↔ Guarded (step slotOf) (Meets slotOf) {} es :=
  guarded_congr (P := Inv slotOf) (fun _ e h => h.right_iff e) (fun _ _ h he => h.step he)
    ⟨rfl, fun i k => by simp [getSlot]⟩

def exported (outcome : Outcome) : List Event :=
  let task := ⟨"t", "a", "b", [0]⟩
  [.put "k", .startExport task, .finishExport task outcome ⟨id, Iff.rfl⟩]

/-- The leader agrees and the key stays; it refuses, and the key is deleted and the node blocks itself. -/
theorem drops_wrong_slots : ¬ Guarded (step fun _ => 0) (Right fun _ => 0) {} (exported (.replied .ok true)) ∧
      ((exported (.replied .ok true)).foldl (step fun _ => 0) {}).db = {str "k"} ∧
      ¬ Guarded (step fun _ => 0) (Right fun _ => 0) {} (exported (.replied .error false)) ∧
      ((exported (.replied .error false)).foldl (step fun _ => 0) {}).db = ∅ ∧
      ((exported (.replied .error false)).foldl (step fun _ => 0) {}).blocked = true := by
  refine ⟨fun h => ?_, by decide, fun h => absurd h.2.2.1.2.2 (by decide), by decide, by decide⟩
  exact absurd ((h.2.2.1.1 rfl).1 "k" (by decide)) (by decide)

end Source

end Hayakv.Core
