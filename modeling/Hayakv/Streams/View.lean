import Hayakv.Cmd.Table
import Hayakv.Engine.Rules
import Hayakv.Frame.Heap

/-!
# The stream of a key

What a command does to the stream that one key holds. The ghost state follows the stream
through the operations of the command (`View`): the value that the key points to, whether
the expiry has been looked at, and whether the command holds the pointer of the key.

`View.run`: what `Prog.wp` says of the view, holds of the key after the command.
-/

namespace Hayakv.Streams

open Engine Option

/-- The stream that a cell holds. A stream is always an `*object.Robj`. -/
def ofCell : Cell → Option StreamObj
  | .coll true (.stream st) => some st
  | _ => none

/-- The stream of a key, expired or not. -/
def streamOf (s : State) (key : Key) : Option StreamObj := ((s.data.lookup key).bind s.heap.cell).bind ofCell

def ofEntity (e : Entity) : Option StreamObj := (Cmd.Entity.asStream e).toOption

/-- What is known of a key in the course of a command. -/
structure View where
  value : Option StreamObj
  looked : Bool := false
  held : Bool := false

namespace View

/-- The operations of commands on the stream of one key. `gone` says whether the key has expired when the
command starts. -/
def discipline (key : Key) (gone : Prop) (leave : View → Exit → Prop) : Prog.Discipline Op Op.Ret Exit View where
  ok v
    | .getEntity k => k = key
    | .store k c => k = key ∧ v.held = true ∧ ∃ st, c = .stream st
    | .putColl k c => k = key ∧ ∃ st, c = .stream st
    | .addAof _ => True
    | _ => False
  ans v
    | .getEntity _, none => v.looked = false → v.value = none ∨ gone
    | .getEntity _, some e => (v.looked = false → ¬ gone) ∧ v.value = ofEntity e
    | _, _ => True
  next v
    | .getEntity _, none => ⟨none, true, false⟩
    | .getEntity _, some _ => ⟨v.value, true, v.value.isSome⟩
    | .store _ (.stream st), _ => { v with value := some st }
    | .putColl _ (.stream st), _ => { v with value := some st, held := true }
    | _, _ => v
  leave

structure Right (key : Key) (now : Int) (gone : Prop) (v : View) (s : State) : Prop where
  value : streamOf s key = v.value
  fresh : v.looked = false → (s.expired now key = true ↔ gone)
  held : v.held = true → ∃ b st, s.bound.lookup key = some b ∧ s.data.lookup key = some b.ref ∧
    s.heap.cell b.ref = some (.coll true (.stream st))

theorem ofEntity_cell (h : Heap) (c : Cell) : ofEntity ⟨c.robj, h.value c⟩ = ofCell c := by
  cases c with
  | str robj enc ptr => cases robj <;> cases ptr <;> rfl
  | coll robj c => cases robj <;> cases c <;> rfl

theorem eq_stream_of_ofCell {c : Cell} (h : (ofCell c).isSome) : ∃ st, c = .coll true (.stream st) := by
  cases c with
  | str => cases h
  | coll robj c =>
    cases robj with
    | false => cases h
    | true =>
      cases c with
      | stream st => exact ⟨st, rfl⟩
      | _ => cases h

theorem streamOf_eq_none {s : State} {key : Key} (h : s.data.lookup key = none) : streamOf s key = none := by
  rw [streamOf, h]
  rfl

variable {key : Key} {env : Env} {gone : Prop} {leave : View → Exit → Prop} {v : View} {s : State}

section

variable (h : Right key env.now gone v s)
include h

theorem Right.getEntity : (discipline key gone leave).ans v (.getEntity key) (handle env (.getEntity key) s).1 ∧
      Right key env.now gone ((discipline key gone leave).next v (.getEntity key) (handle env (.getEntity key) s).1)
        (handle env (.getEntity key) s).2 := by
  simp only [handle, State.getEntity]
  split
  · rename_i hdata
    have hnone := streamOf_eq_none hdata
    refine ⟨fun _ => .inl (h.value.symm.trans hnone), hnone, ?_, ?_⟩
    · exact fun hl => by cases hl
    · exact fun hh => by cases hh
  rename_i r hdata
  split
  · rename_i hexp
    refine ⟨fun hl => .inr ((h.fresh hl).1 hexp), ?_, ?_, ?_⟩
    · refine streamOf_eq_none ?_
      simp [State.remove, lookup_removeField]
    · exact fun hl => by cases hl
    · exact fun hh => by cases hh
  rename_i hexp
  split
  · rename_i c hc
    have hval : v.value = ofCell c := by rw [← h.value, streamOf, hdata, bind_some, hc]; rfl
    have hent : s.heap.entity r = some ⟨c.robj, s.heap.value c⟩ := by rw [Heap.entity, hc]; rfl
    rw [hent]
    refine ⟨⟨fun hl hg => hexp ((h.fresh hl).2 hg), ?_⟩, h.value, ?_, fun hh => ?_⟩
    · rw [ofEntity_cell, hval]
    · exact fun hl => by cases hl
    · have hsome : (ofCell c).isSome := by rw [← hval]; exact hh
      obtain ⟨st, rfl⟩ := eq_stream_of_ofCell hsome
      refine ⟨⟨r, none⟩, st, ?_, hdata, hc⟩
      simp [State.bind, lookup_putField, Cell.buf]
  · rename_i hc
    have hnone : streamOf s key = none := by rw [streamOf, hdata, bind_some, hc]; rfl
    refine ⟨fun _ => .inl (h.value.symm.trans hnone), hnone, ?_, ?_⟩
    · exact fun hl => by cases hl
    · exact fun hh => by cases hh

theorem Right.store (hheld : v.held = true) (st : StreamObj) :
    Right key env.now gone { v with value := some st } (s.store key (.stream st)) := by
  obtain ⟨b, st', hb, hd, hc⟩ := h.held hheld
  have hstore : s.store key (.stream st) = { s with heap := s.heap.setCell b.ref (.coll true (.stream st)) } := by
    simp [State.store, State.held, hb, hc]
  have hcell : (s.heap.setCell b.ref (.coll true (.stream st))).cell b.ref = some (.coll true (.stream st)) := by
    rw [Heap.cell_setCell _ _ _ _ (by rw [hc]; rfl), if_pos rfl]
  rw [hstore]
  refine ⟨?_, h.fresh, fun _ => ⟨b, st, hb, hd, hcell⟩⟩
  rw [streamOf, hd, bind_some, hcell]
  rfl

theorem Right.putColl (st : StreamObj) :
    Right key env.now gone { v with value := some st, held := true } (s.putNew key (.coll true (.stream st))) := by
  have hcell := s.heap.cell_newCell_self (.coll true (.stream st))
  have hdata : (s.putNew key (.coll true (.stream st))).data.lookup key =
      some (s.heap.newCell (.coll true (.stream st))).1 := by
    simp [State.putNew, State.putRef, State.bind, lookup_putField]
  refine ⟨?_, h.fresh, fun _ => ⟨⟨_, none⟩, st, ?_, hdata, hcell⟩⟩
  · rw [streamOf, hdata, bind_some]
    exact congrArg (bind · ofCell) hcell
  · simp [State.putNew, State.bind, lookup_putField]
    rfl

theorem Right.step {o : Op} (hok : (discipline key gone leave).ok v o) :
    (discipline key gone leave).ans v o (handle env o s).1 ∧
      Right key env.now gone ((discipline key gone leave).next v o (handle env o s).1) (handle env o s).2 := by
  cases o with
  | getEntity k =>
    obtain rfl : k = key := hok
    exact h.getEntity
  | store k c =>
    obtain ⟨rfl, hheld, st, rfl⟩ := hok
    exact ⟨trivial, h.store hheld st⟩
  | putColl k c =>
    obtain ⟨rfl, st, rfl⟩ := hok
    exact ⟨trivial, h.putColl st⟩
  | addAof line => exact ⟨trivial, h.value, h.fresh, h.held⟩
  | _ => exact hok.elim

end

/-! ## Rules -/

section Rules

variable {Q : Unit → View → Prop}

@[simp] theorem wp_store (st : StreamObj) : (Exec.store key (.stream st)).wp (discipline key gone leave) Q v ↔
      v.held = true ∧ Q () { v with value := some st } :=
  ⟨fun h => ⟨h.1.2.1, h.2 () trivial⟩, fun h => ⟨⟨rfl, h.1, st, rfl⟩, fun _ _ => h.2⟩⟩

@[simp] theorem wp_putColl (st : StreamObj) : (Exec.putColl key (.stream st)).wp (discipline key gone leave) Q v ↔
      Q () { v with value := some st, held := true } :=
  ⟨fun h => h.2 () trivial, fun h => ⟨⟨rfl, st, rfl⟩, fun _ _ => h⟩⟩

@[simp] theorem wp_addAof (line : CmdLine) : (Exec.addAof line).wp (discipline key gone leave) Q v ↔ Q () v :=
  ⟨fun h => h.2 () trivial, fun h => ⟨trivial, fun _ _ => h⟩⟩

theorem wp_getAsStream {Q : Option StreamObj → View → Prop}
    (hnone : (v.looked = false → v.value = none ∨ gone) → Q none ⟨none, true, false⟩)
    (hsome : ∀ st, (v.looked = false → ¬ gone) → v.value = some st → Q (some st) ⟨some st, true, true⟩)
    (hwrong : v.value = none → leave ⟨none, true, false⟩ (.reply .wrongType)) :
    (Cmd.getAsStream key).wp (discipline key gone leave) Q v := by
  refine (Prog.wp_bind _ _).2 ⟨rfl, fun r hr => ?_⟩
  cases r with
  | none => exact hnone hr
  | some e =>
    obtain ⟨hgone, hval⟩ := hr
    show (Exec.orReply ((Cmd.Entity.asStream e).map some)).wp (discipline key gone leave) Q
      ⟨v.value, true, v.value.isSome⟩
    rw [hval, ofEntity]
    cases he : Cmd.Entity.asStream e with
    | ok st =>
      rw [ofEntity, he] at hval
      exact hsome st hgone hval
    | error r =>
      rw [ofEntity, he] at hval
      have hr : r = .wrongType := by
        simp only [Cmd.Entity.asStream] at he
        split at he
        · cases he
        · cases he
          rfl
      subst hr
      exact hwrong hval

theorem wp_getAsStream_some {st : StreamObj} {Q : Option StreamObj → View → Prop} (hgone : ¬ gone)
    (h : Q (some st) ⟨some st, true, true⟩) :
    (Cmd.getAsStream key).wp (discipline key gone leave) Q ⟨some st, false, false⟩ := by
  refine wp_getAsStream (fun hnone => ?_) (fun _ _ hst => ?_) fun hnone => (by cases hnone)
  · exact absurd (hnone rfl) (by simp [hgone])
  · cases hst
    exact h

end Rules

/-- What a command does to the stream of a key, by what it does to the view. -/
theorem run {α : Type} {p : Exec α} {Q : α → View → Prop} (env : Env) (s : State)
    (hp : p.wp (discipline key (s.expired env.now key = true) leave) Q ⟨streamOf s key, false, false⟩) :
    ∃ v, streamOf (p.run (handle env) s).2 key = v.value ∧
      Prog.Ends (discipline key (s.expired env.now key = true) leave) Q v (p.run (handle env) s).1 := by
  have hright : Right key env.now (s.expired env.now key = true) ⟨streamOf s key, false, false⟩ s :=
    ⟨rfl, fun _ => Iff.rfl, fun hh => by cases hh⟩
  obtain ⟨v, hv, hends⟩ := Prog.run_inv (I := Right key env.now (s.expired env.now key = true))
    (fun _ _ _ hok h => h.step hok) hp hright
  exact ⟨v, hv.value, hends⟩

end View

end Hayakv.Streams
