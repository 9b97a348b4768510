import Hayakv.Engine.State

/-!
# The heap behind a database

What the operations of a command do to the heap, whatever the command: references stay good, and
slices stay within their arrays (`StateOk`, kept by every operation and so by every command).
-/

namespace Hayakv.Engine

open Option State Heap

namespace Heap

variable (h : Heap) (r : Ref) (c : Cell)

/-- A new object changes no other. -/
theorem cell_newCell : (h.newCell c).2.cell r = if r = (h.newCell c).1 then some c else h.cell r := by
  cases r with
  | shared n => simp [newCell, cell]
  | heap i =>
    by_cases hi : i = h.cells.length
    · simp [newCell, cell, hi]
    · rcases Nat.lt_or_gt_of_ne hi with hlt | hgt
      · simp [newCell, cell, hi, List.getElem?_append_left hlt]
      · simp [newCell, cell, hi, List.getElem?_append_right hgt.le, show i - h.cells.length ≠ 0 by omega,
          List.getElem?_eq_none hgt.le]

theorem cell_newCell_self : (h.newCell c).2.cell (h.newCell c).1 = some c := by
  rw [cell_newCell, if_pos rfl]

theorem isSome_newCell : ((h.newCell c).2.cell (h.newCell c).1).isSome := by
  rw [cell_newCell_self]
  rfl

theorem cell_setCell (r' : Ref) (hr : (h.cell r).isSome) :
    (h.setCell r c).cell r' = if r' = r then some c else h.cell r' := by
  cases r with
  | shared n =>
    cases r' with
    | shared m => by_cases hm : m = n <;> simp [setCell, cell, lookup_putField, hm]
    | heap i => simp [setCell, cell]
  | heap i =>
    cases r' with
    | shared m => simp [setCell, cell]
    | heap j =>
      have hi : i < h.cells.length := by simpa [cell] using hr
      by_cases hj : j = i
      · simp [setCell, cell, hj, hi]
      · simp [setCell, cell, hj, Ne.symm hj]

@[simp] theorem cell_newArray (b : Bytes) (n : Nat) : (h.newArray b n).2.cell r = h.cell r := by
  cases r <;> rfl

@[simp] theorem cell_poke (a : Nat) (ws : List (Nat × UInt8)) : (h.poke a ws).cell r = h.cell r := by
  cases r <;> rfl

@[simp] theorem cell_append (spare : Nat → Nat) (s : Option Slice) (b : Bytes) :
    (h.append spare s b).2.cell r = h.cell r := by
  unfold append
  split
  · split <;> simp
  · split <;> simp

@[simp] theorem arrays_setCell : (h.setCell r c).arrays = h.arrays := by cases r <;> rfl

theorem length_newArray (b : Bytes) (n : Nat) : (h.newArray b n).2.arrays.length = h.arrays.length + 1 := by
  simp [newArray]

theorem length_poke (a : Nat) (ws : List (Nat × UInt8)) : (h.poke a ws).arrays.length = h.arrays.length := by
  simp [poke]

/-- `append` writes in place, or makes a new array. -/
theorem append_cases (spare : Nat → Nat) (s : Option Slice) (b : Bytes) :
    (∃ ws, (h.append spare s b).2 = (s.elim h fun sl => h.poke sl.arr ws) ∧
      ((h.append spare s b).1.map Slice.arr = s.map Slice.arr)) ∨
    ∃ b' n, (h.append spare s b) = (some (h.newArray b' n).1, (h.newArray b' n).2) := by
  cases s with
  | none =>
    by_cases hb : b = []
    · exact Or.inl ⟨[], by simp [append, hb]⟩
    · exact Or.inr ⟨b, spare b.length, by simp [append, hb]⟩
  | some sl =>
    by_cases hc : sl.len + b.length ≤ ((h.arrays[sl.arr]?).getD []).length
    · exact Or.inl ⟨(List.range b.length).zipWith (fun i x => (sl.len + i, x)) b, by simp [append, hc]⟩
    · exact Or.inr ⟨h.slice sl ++ b, spare (sl.len + b.length), by simp [append, hc]⟩

/-- Shared objects are strings, and strings are slices of arrays that are there. -/
structure Ok (h : Heap) : Prop where
  shared : ∀ n c, h.shared.lookup n = some c → ∃ enc p, c = .str true enc p
  slices : ∀ r c sl, h.cell r = some c → c.buf = some sl → sl.arr < h.arrays.length

/-- Objects and arrays are only added. -/
structure Grows (h h' : Heap) : Prop where
  cells : h.cells.length ≤ h'.cells.length
  arrays : h.arrays.length ≤ h'.arrays.length

theorem Grows.refl (h : Heap) : Grows h h := ⟨le_rfl, le_rfl⟩

theorem Grows.trans {h h' h'' : Heap} (h₁ : Grows h h') (h₂ : Grows h' h'') : Grows h h'' :=
  ⟨h₁.cells.trans h₂.cells, h₁.arrays.trans h₂.arrays⟩

variable {h r c}

theorem Grows.cell {h' : Heap} (hg : Grows h h') (hr : (h.cell r).isSome) : (h'.cell r).isSome := by
  cases r with
  | shared n => rfl
  | heap i =>
    have hi : i < h.cells.length := by simpa [cell] using hr
    simpa [cell] using hi.trans_le hg.cells

theorem Ok.shared_str (ok : h.Ok) {n : Nat} (hc : h.cell (.shared n) = some c) : ∃ enc p, c = .str true enc p := by
  simp only [cell, some.injEq] at hc
  cases hl : h.shared.lookup n with
  | none => exact ⟨.int, .int n, by simpa [hl] using hc.symm⟩
  | some c' => exact ok.shared n c (by simpa [hl] using hc)

theorem Ok.newCell (ok : h.Ok) (hc : ∀ sl, c.buf = some sl → sl.arr < h.arrays.length) : (h.newCell c).2.Ok where
  shared := ok.shared
  slices r' c' sl hr hb := by
    rw [cell_newCell] at hr
    split at hr
    · cases hr
      exact hc sl hb
    · exact ok.slices r' c' sl hr hb

theorem grows_newCell : Grows h (h.newCell c).2 := ⟨by simp [newCell], le_rfl⟩

/-- A shared object only becomes another string. -/
theorem Ok.setCell (ok : h.Ok) (hr : (h.cell r).isSome) (hs : ∀ n, r = .shared n → ∃ enc p, c = .str true enc p)
    (hc : ∀ sl, c.buf = some sl → sl.arr < h.arrays.length) : (h.setCell r c).Ok where
  shared n c' hl := by
    cases r with
    | shared m =>
      rw [setCell, lookup_putField] at hl
      split at hl
      · cases hl
        exact hs m rfl
      · exact ok.shared n c' hl
    | heap i => exact ok.shared n c' hl
  slices r' c' sl hr' hb := by
    rw [cell_setCell h r c r' hr] at hr'
    rw [arrays_setCell]
    split at hr'
    · cases hr'
      exact hc sl hb
    · exact ok.slices r' c' sl hr' hb

theorem grows_setCell : Grows h (h.setCell r c) := by
  cases r <;> exact ⟨by simp [setCell], le_rfl⟩

variable {b : Bytes} {n : Nat}

theorem Ok.newArray (ok : h.Ok) : (h.newArray b n).2.Ok where
  shared := ok.shared
  slices r c sl hr hb := by
    rw [length_newArray]
    exact Nat.lt_succ_of_lt (ok.slices r c sl (by simpa using hr) hb)

theorem grows_newArray : Grows h (h.newArray b n).2 := ⟨le_rfl, by simp [newArray]⟩

variable {ws : List (Nat × UInt8)}

theorem Ok.poke (ok : h.Ok) {a : Nat} : (h.poke a ws).Ok where
  shared := ok.shared
  slices r c sl hr hb := by
    rw [length_poke]
    exact ok.slices r c sl (by simpa using hr) hb

theorem grows_poke {a : Nat} : Grows h (h.poke a ws) := ⟨le_rfl, by simp [poke]⟩

end Heap

/-! ## States -/

/-- The array of the slice is there. -/
def Heap.Has (h : Heap) (sl : Option Slice) : Prop := ∀ s, sl = some s → s.arr < h.arrays.length

theorem Heap.Has.grows {h h' : Heap} {sl : Option Slice} (hs : h.Has sl) (hg : h.Grows h') : h'.Has sl :=
  fun s h => (hs s h).trans_le hg.arrays

theorem Heap.has_none {h : Heap} : h.Has none := by
  rintro _ ⟨⟩

/-- What a state refers to is there. -/
structure StateOk (s : State) : Prop where
  heap : s.heap.Ok
  data : ∀ k r, s.data.lookup k = some r → (s.heap.cell r).isSome
  bound : ∀ k b, s.bound.lookup k = some b → (s.heap.cell b.ref).isSome ∧ s.heap.Has b.buf
  work : s.heap.Has s.work

variable {s : State}

theorem State.cell_of_held {key : Key} {r : Ref} {c : Cell} (h : s.held key = some (r, c)) :
    s.heap.cell r = some c := by
  simp only [held, bind_eq_some_iff, map_eq_some_iff, Prod.mk.injEq] at h
  obtain ⟨b, -, c', hc, rfl, rfl⟩ := h
  exact hc

theorem State.bound_of_held {key : Key} {r : Ref} {c : Cell} (h : s.held key = some (r, c)) :
    ∃ b, s.bound.lookup key = some b ∧ b.ref = r := by
  simp only [held, bind_eq_some_iff, map_eq_some_iff, Prod.mk.injEq] at h
  obtain ⟨b, hb, c', -, rfl, -⟩ := h
  exact ⟨b, hb, rfl⟩

theorem State.heap_getEntity {now : Int} {key : Key} : (s.getEntity now key).2.heap = s.heap := by
  unfold getEntity
  split
  · rfl
  · split
    · rfl
    · split <;> rfl

/-- What holds of the slice worked on and of the heap once bytes are written, and stays with each
append. -/
theorem State.editBuf_induct (P : Option Slice → Heap → Prop) (env : Env) (ws : List (Nat × UInt8))
    (bs : List Bytes) (hnone : s.work = none → P none s.heap)
    (hpoke : ∀ sl, s.work = some sl → P (some sl) (s.heap.poke sl.arr ws))
    (happend : ∀ w h b, P w h → P (h.append env.spare w b).1 (h.append env.spare w b).2) :
    P (s.editBuf env ws bs).work (s.editBuf env ws bs).heap := by
  -- by induction on what is appended
  have hfold : ∀ (bs : List Bytes) (p : Option Slice × Heap), P p.1 p.2 →
      P (bs.foldl (fun p b => p.2.append env.spare p.1 b) p).1
        (bs.foldl (fun p b => p.2.append env.spare p.1 b) p).2 := by
    intro bs
    induction bs with
    | nil => exact fun p hp => hp
    | cons b bs ih => exact fun p hp => ih _ (happend p.1 p.2 b hp)
  unfold editBuf
  cases hw : s.work with
  | none => exact hfold bs (none, s.heap) (hnone hw)
  | some sl => exact hfold bs (some sl, s.heap.poke sl.arr ws) (hpoke sl hw)

@[simp] theorem State.buf_bufPtr (w : Option Slice) (enc : Encoding) : (Cell.str true enc (bufPtr w)).buf = w := by
  cases w <;> rfl

/-- What a state refers to is there, and its heap has come from `h₀`. -/
structure Since (h₀ : Heap) (s : State) : Prop extends StateOk s where
  grows : h₀.Grows s.heap

theorem StateOk.since (ok : StateOk s) : Since s.heap s := ⟨ok, .refl _⟩

namespace Since

variable {h₀ : Heap}

/-- The rest of the state stays good while the heap grows. -/
theorem withHeap (ok : Since h₀ s) {h : Heap} (hh : h.Ok) (hg : s.heap.Grows h) : Since h₀ { s with heap := h } where
  heap := hh
  data k r hk := hg.cell (ok.data k r hk)
  bound k b hk := ⟨hg.cell (ok.bound k b hk).1, (ok.bound k b hk).2.grows hg⟩
  work := ok.work.grows hg
  grows := ok.grows.trans hg

theorem withWork (ok : Since h₀ s) {w : Option Slice} (hw : s.heap.Has w) : Since h₀ { s with work := w } :=
  { ok with work := hw }

variable {key : Key} {b : Bytes} {env : Env}

section

variable (ok : Since h₀ s)
include ok

theorem putRef {r : Ref} (hr : (s.heap.cell r).isSome) : Since h₀ (s.putRef key r) :=
  { ok with
    data := fun k r' hk => by
      simp only [State.putRef, lookup_putField] at hk
      split at hk
      · cases hk
        exact hr
      · exact ok.data k r' hk }

theorem bind {r : Ref} {buf : Option Slice} (hr : (s.heap.cell r).isSome) (hb : s.heap.Has buf) :
    Since h₀ (s.bind key r buf) :=
  { ok with
    bound := fun k b hk => by
      simp only [State.bind, lookup_putField] at hk
      split at hk
      · cases hk
        exact ⟨hr, hb⟩
      · exact ok.bound k b hk }

theorem remove : Since h₀ (s.remove key) :=
  { ok with
    data := fun k r hk => by
      simp only [State.remove, lookup_removeField] at hk
      split at hk
      · cases hk
      · exact ok.data k r hk }

theorem unbind : Since h₀ { s with bound := removeField key s.bound } :=
  { ok with
    bound := fun k b hk => by
      simp only [lookup_removeField] at hk
      split at hk
      · cases hk
      · exact ok.bound k b hk }

theorem getEntity {now : Int} : Since h₀ (s.getEntity now key).2 := by
  unfold State.getEntity
  split
  · exact ok.unbind
  rename_i r hr
  split
  · exact ok.remove.unbind
  · split
    · rename_i c hc
      exact ok.bind (ok.data key r hr) fun sl hsl => ok.heap.slices r c sl hc hsl
    · exact ok

theorem setHeld {r : Ref} {robj : Bool} {c c' : Coll} (h : s.held key = some (r, .coll robj c)) :
    Since h₀ { s with heap := s.heap.setCell r (.coll robj c') } := by
  have hc := cell_of_held h
  have hsome : (s.heap.cell r).isSome := by rw [hc]; rfl
  refine ok.withHeap (ok.heap.setCell hsome (fun n hn => ?_) has_none) grows_setCell
  subst hn
  obtain ⟨enc, p, hp⟩ := ok.heap.shared_str hc
  cases hp

theorem store {c : Coll} : Since h₀ (s.store key c) := by
  unfold State.store
  split
  · rename_i h
    exact ok.setHeld h
  · rename_i h
    exact ok.setHeld h
  · exact ok

theorem purge {now : Int} : Since h₀ (s.purge now key) := by
  unfold State.purge
  split
  · rename_i h
    exact ok.setHeld h
  · exact ok

theorem newCell {c : Cell} (hc : s.heap.Has c.buf) : Since h₀ { s with heap := (s.heap.newCell c).2 } :=
  ok.withHeap (ok.heap.newCell hc) grows_newCell

theorem newArray {n : Nat} : Since h₀ { s with heap := (s.heap.newArray b n).2 } :=
  ok.withHeap ok.heap.newArray grows_newArray

omit ok in
theorem has_newArray {h : Heap} {n : Nat} : (h.newArray b n).2.Has (some (h.newArray b n).1) := by
  rintro _ ⟨⟩
  rw [length_newArray]
  exact Nat.lt_succ_self _

theorem makeStringObject {b : Option Bytes} : Since h₀ (s.makeStringObject env b).2 ∧
      ((s.makeStringObject env b).2.heap.cell (s.makeStringObject env b).1).isSome := by
  have hnew : ∀ {s : State} {c : Cell}, Since h₀ s → s.heap.Has c.buf →
      Since h₀ { s with heap := (s.heap.newCell c).2 } ∧
        ((s.heap.newCell c).2.cell (s.heap.newCell c).1).isSome := fun ok hc =>
    ⟨ok.newCell hc, isSome_newCell _ _⟩
  unfold State.makeStringObject
  split
  · exact hnew ok has_none
  split
  · split
    · exact ⟨ok, rfl⟩
    · exact hnew ok has_none
  · exact hnew ok.newArray has_newArray

theorem openBuf : Since h₀ (s.openBuf env key) := by
  unfold State.openBuf
  split
  · rename_i sl hb
    exact ok.withWork (ok.bound key _ hb).2
  · split
    · exact ok.newArray.withWork has_newArray
    · exact ok.withWork has_none
  · exact ok.withWork has_none

omit ok in
theorem append {h : Heap} (ok : h.Ok) {spare : Nat → Nat} {w : Option Slice} (hw : h.Has w) :
    (h.append spare w b).2.Ok ∧ h.Grows (h.append spare w b).2 ∧
      (h.append spare w b).2.Has (h.append spare w b).1 := by
  rcases h.append_cases spare w b with ⟨ws, hh, hsl⟩ | ⟨b', n, hh⟩
  · have hgrows : h.Grows (h.append spare w b).2 ∧ (h.append spare w b).2.Ok := by
      rw [hh]
      cases w with
      | none => exact ⟨.refl h, ok⟩
      | some sl => exact ⟨grows_poke, ok.poke⟩
    refine ⟨hgrows.2, hgrows.1, fun s hs => ?_⟩
    rw [hs, map_some, eq_comm, map_eq_some_iff] at hsl
    obtain ⟨sl, rfl, hsl⟩ := hsl
    exact hsl ▸ (hw sl rfl).trans_le hgrows.1.arrays
  · rw [hh]
    exact ⟨ok.newArray, grows_newArray, has_newArray⟩

theorem editBuf {ws : List (Nat × UInt8)} {bs : List Bytes} : Since h₀ (s.editBuf env ws bs) := by
  have hedit := editBuf_induct (fun w h => h.Ok ∧ s.heap.Grows h ∧ h.Has w) env ws bs
    (fun _ => ⟨ok.heap, .refl _, has_none⟩)
    (fun sl hw => ⟨ok.heap.poke, grows_poke, (hw ▸ ok.work).grows grows_poke⟩)
    fun w h b hP => by
      obtain ⟨ok', hg, hw'⟩ := append hP.1 hP.2.2
      exact ⟨ok', hP.2.1.trans hg, hw'⟩
  exact (ok.withHeap hedit.1 hedit.2.1).withWork hedit.2.2

/-- Every operation keeps this, and so does every command (`run`). -/
theorem step (env : Env) (o : Op) : Since h₀ (handle env o s).2 := by
  cases o with
  | getEntity key => exact ok.getEntity
  | isExpired key =>
    simp only [handle]
    split
    · exact ok.remove
    · exact ok
  | store key c => exact ok.store
  | purge key => exact ok.purge
  | putColl key c =>
    have hr := s.heap.isSome_newCell (.coll true c)
    exact ((ok.newCell has_none).putRef hr).bind hr has_none
  | putStr key b => exact ok.makeStringObject.1.putRef ok.makeStringObject.2
  | putIfAbsent key b =>
    simp only [handle]
    split
    · exact ok.makeStringObject.1
    · exact ok.makeStringObject.1.putRef ok.makeStringObject.2
  | putIfExists key b =>
    simp only [handle]
    split
    · exact ok.makeStringObject.1.putRef ok.makeStringObject.2
    · exact ok.makeStringObject.1
  | putFrom dest src =>
    simp only [handle]
    split
    · rename_i b hb
      exact ok.putRef (ok.bound src b hb).1
    · exact ok
  | openBuf key => exact ok.openBuf
  | freshBuf b =>
    cases b with
    | none => exact ok.withWork has_none
    | some b => exact ok.newArray.withWork has_newArray
  | cutBuf n =>
    refine ok.withWork fun sl hsl => ?_
    obtain ⟨sl', hw, rfl⟩ := map_eq_some_iff.1 hsl
    exact ok.work sl' hw
  | editBuf ws bs => exact ok.editBuf
  | putBuf key =>
    refine (ok.newCell ?_).putRef (s.heap.isSome_newCell _)
    rw [buf_bufPtr]
    exact ok.work
  | assignBuf key =>
    simp only [handle]
    split
    · rename_i r enc p hh
      have hsome : (s.heap.cell r).isSome := by rw [cell_of_held hh]; rfl
      refine ok.withHeap (ok.heap.setCell hsome (fun n _ => ⟨_, _, rfl⟩) ?_) grows_setCell
      rw [buf_bufPtr]
      exact ok.work
    · exact ok
  | remove key => exact ok.remove
  | getTTL | rawExists | load | readHeld | readBuf | expire | persist | addAof | keys | version =>
    exact { ok with }
  | rand =>
    simp only [handle]
    exact ⟨⟨ok.heap, ok.data, ok.bound, ok.work⟩, ok.grows⟩

theorem run {α : Type} (env : Env) (p : Exec α) : Since h₀ (p.run (handle env) s).2 := by
  induction p generalizing s with
  | pure a => exact ok
  | exit e => exact ok
  | op o k ih => exact ih _ (ok.step env o)

end

end Since

end Hayakv.Engine
