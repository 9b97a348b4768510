import Hayakv.Frame.Heap
import Hayakv.Frame.Table

/-!
# What a command changes

A command that keeps to the discipline of a scope leaves everything outside of it as it was: what
keys outside hold (`visible`), and the objects and byte arrays that are held from elsewhere
(`Outside`). An expired key is not there and an expired field of a hash neither, so to delete them
changes nothing.
-/

namespace Hayakv.Engine

/-- An object without the fields that have expired. -/
def Cell.purged (now : Int) : Cell → Cell
  | .coll robj (.hash h) => .coll robj (.hash (h.purgeExpiredFields (GoTime.unixMilli now)))
  | c => c

theorem HashObj.purgeExpiredFields_idem (h : HashObj) (nowMs : Int) :
    (h.purgeExpiredFields nowMs).purgeExpiredFields nowMs = h.purgeExpiredFields nowMs := by
  have hnone : (h.purgeExpiredFields nowMs).expiredFields nowMs = [] := by
    simp [HashObj.expiredFields, HashObj.purgeExpiredFields, List.filter_filter]
  rw [HashObj.purgeExpiredFields, hnone]
  simp [HashObj.purgeExpiredFields, List.filter_filter]

theorem Cell.robj_purged (now : Int) (c : Cell) : (c.purged now).robj = c.robj := by
  match c with
  | .str .. | .coll _ (.list _) | .coll _ (.set _) | .coll _ (.zset _) | .coll _ (.stream _)
  | .coll _ (.hash _) => rfl

theorem Cell.buf_purged (now : Int) (c : Cell) : (c.purged now).buf = c.buf := by
  match c with
  | .str .. | .coll _ (.list _) | .coll _ (.set _) | .coll _ (.zset _) | .coll _ (.stream _)
  | .coll _ (.hash _) => rfl

theorem Heap.value_congr {h h' : Heap} {c : Cell} (hb : ∀ sl, c.buf = some sl → h.slice sl = h'.slice sl) :
    h.value c = h'.value c := by
  match c with
  | .str _ _ (.bytes sl) => simp [Heap.value, hb sl rfl]
  | .str _ _ (.int _) | .str _ _ .nil | .coll .. => rfl

def Heap.seen (h : Heap) (now : Int) (r : Ref) : Option Entity :=
  (h.cell r).map fun c => ⟨c.robj, h.value (c.purged now)⟩

variable {now : Int}

theorem Heap.seen_newCell {h : Heap} {r : Ref} {c : Cell} (hr : (h.cell r).isSome) :
    (h.newCell c).2.seen now r = h.seen now r := by
  have hne : r ≠ (h.newCell c).1 := by
    rintro rfl
    simp [Heap.newCell, Heap.cell] at hr
  unfold Heap.seen
  rw [Heap.cell_newCell, if_neg hne]
  exact Option.map_congr fun c' _ => congrArg (Entity.mk c'.robj) (Heap.value_congr fun _ _ => rfl)

theorem Heap.Ok.seen_newArray {h : Heap} {r : Ref} {b : Bytes} {n : Nat} (ok : h.Ok) :
    (h.newArray b n).2.seen now r = h.seen now r := by
  refine Option.map_congr fun c hc => congrArg (Entity.mk c.robj) (Heap.value_congr fun sl hsl => ?_)
  rw [Cell.buf_purged] at hsl
  simp [Heap.slice, Heap.newArray, List.getElem?_append_left (ok.slices r c sl hc hsl)]

/-- The value and the expiry of a key that has not expired. -/
def State.visible (s : State) (now : Int) (key : Key) : Option (Entity × Option Int) :=
  if s.expired now key then none
  else (s.data.lookup key).bind fun r => (s.heap.seen now r).map fun e => (e, s.ttl.lookup key)

/-- A key that is not there, or has expired. -/
def State.Gone (s : State) (now : Int) (key : Key) : Prop := s.expired now key = true ∨ s.data.lookup key = none

theorem State.visible_of_gone {s : State} {key : Key} (h : s.Gone now key) : s.visible now key = none := by
  rcases h with h | h <;> simp [State.visible, h]

theorem State.visible_congr {s s' : State} {key : Key} (hd : s'.data.lookup key = s.data.lookup key)
    (ht : s'.ttl.lookup key = s.ttl.lookup key)
    (hs : ∀ r, s.data.lookup key = some r → s'.heap.seen now r = s.heap.seen now r) :
    s'.visible now key = s.visible now key := by
  unfold State.visible State.expired
  rw [hd, ht]
  cases hr : s.data.lookup key with
  | none => rfl
  | some r => simp only [Option.bind_some, hs r hr]

end Hayakv.Engine

namespace Hayakv.Frame

open Engine Cmd Option State List

/-- Objects and byte arrays that are held from outside. -/
structure Outside where
  refs : Ref → Prop
  arrs : Nat → Prop

def Outside.Avoids (O : Outside) (b : Option Slice) : Prop := ∀ sl, b = some sl → ¬O.arrs sl.arr

theorem avoids_none {O : Outside} : O.Avoids none := by
  rintro _ ⟨⟩

/-- Everything outside is as it was, up to expired fields. -/
structure Framed (now : Int) (O : Outside) (h₀ h : Heap) : Prop where
  there : ∀ r, O.refs r → (h.cell r).isSome
  bounds : ∀ a, O.arrs a → a < h.arrays.length
  cells : ∀ r, O.refs r → (h.cell r).map (Cell.purged now) = (h₀.cell r).map (Cell.purged now)
  arrays : ∀ a, O.arrs a → h.arrays[a]? = h₀.arrays[a]?

namespace Framed

variable {now : Int} {O : Outside} {h₀ h : Heap}

section

variable (f : Framed now O h₀ h)
include f

theorem newCell {c : Cell} : Framed now O h₀ (h.newCell c).2 where
  there r hr := Heap.grows_newCell.cell (f.there r hr)
  bounds := f.bounds
  cells r hr := by
    have hne : r ≠ (h.newCell c).1 := by
      rintro rfl
      simpa [Heap.newCell, Heap.cell] using f.there _ hr
    rw [Heap.cell_newCell, if_neg hne, f.cells r hr]
  arrays := f.arrays

theorem setCell {r : Ref} {c : Cell} (hr : (h.cell r).isSome)
    (hc : O.refs r → some (c.purged now) = (h.cell r).map (Cell.purged now)) : Framed now O h₀ (h.setCell r c) where
  there r' hr' := Heap.grows_setCell.cell (f.there r' hr')
  bounds a ha := by
    rw [Heap.arrays_setCell]
    exact f.bounds a ha
  cells r' hr' := by
    rw [Heap.cell_setCell h r c r' hr]
    split
    · rename_i he
      subst he
      rw [map_some, hc hr', f.cells r' hr']
    · exact f.cells r' hr'
  arrays a ha := by
    rw [Heap.arrays_setCell]
    exact f.arrays a ha

theorem newArray {b : Bytes} {n : Nat} : Framed now O h₀ (h.newArray b n).2 where
  there r hr := Heap.grows_newArray.cell (f.there r hr)
  bounds a ha := (f.bounds a ha).trans_le Heap.grows_newArray.arrays
  cells r hr := by
    exact f.cells r hr
  arrays a ha := by
    rw [← f.arrays a ha]
    exact getElem?_append_left (f.bounds a ha)

theorem poke {a : Nat} {ws : List (Nat × UInt8)} (ha : ¬O.arrs a) : Framed now O h₀ (h.poke a ws) where
  there r hr := Heap.grows_poke.cell (f.there r hr)
  bounds a' ha' := (f.bounds a' ha').trans_le Heap.grows_poke.arrays
  cells r hr := by
    exact f.cells r hr
  arrays a' ha' := by
    have hne : a ≠ a' := fun h => ha (h ▸ ha')
    rw [← f.arrays a' ha']
    simp [Heap.poke, hne]

theorem avoids_newArray {n : Nat} : O.Avoids (some ⟨h.arrays.length, n⟩) := by
  rintro _ ⟨⟩ ha
  exact absurd (f.bounds _ ha) (lt_irrefl _)

theorem append {spare : Nat → Nat} {w : Option Slice} {b : Bytes} (hw : O.Avoids w) :
    Framed now O h₀ (h.append spare w b).2 ∧ O.Avoids (h.append spare w b).1 := by
  rcases h.append_cases spare w b with ⟨ws, hh, hsl⟩ | ⟨b', n, hh⟩
  · constructor
    · rw [hh]
      cases w with
      | none => exact f
      | some sl => exact f.poke (hw sl rfl)
    · intro s hs
      rw [hs, map_some, eq_comm, map_eq_some_iff] at hsl
      obtain ⟨sl, rfl, hsl⟩ := hsl
      exact hsl ▸ hw sl rfl
  · rw [hh]
    exact ⟨f.newArray, f.avoids_newArray⟩

theorem seen {r : Ref} (hr : O.refs r) (ha : ∀ c, h₀.cell r = some c → ∀ sl, c.buf = some sl → O.arrs sl.arr) :
    h.seen now r = h₀.seen now r := by
  have hc := f.cells r hr
  obtain ⟨c, hcr⟩ := isSome_iff_exists.1 (f.there r hr)
  rw [hcr, map_some, eq_comm, map_eq_some_iff] at hc
  obtain ⟨c₀, hc₀, hp⟩ := hc
  have hv : h.value (c₀.purged now) = h₀.value (c₀.purged now) := by
    refine Heap.value_congr fun sl hsl => ?_
    have hb : c₀.buf = some sl := by rwa [Cell.buf_purged] at hsl
    rw [Heap.slice, Heap.slice, f.arrays _ (ha c₀ hc₀ sl hb)]
  rw [Heap.seen, Heap.seen, hcr, hc₀, map_some, map_some, ← hp, hv, ← c.robj_purged now, ← hp, c₀.robj_purged now]

end

end Framed

/-- A reference that a key of the scope may have: to an object that is not outside, or to a shared
integer. -/
structure Own (O : Outside) (g : Access) (h : Heap) (r : Ref) : Prop where
  ref : O.refs r → (∃ n, r = .shared n) ∧ ¬g.apart
  buf : ¬g.loose → ∀ c, h.cell r = some c → O.Avoids c.buf

/-- What holds at each point of a command that started in `s₀`. -/
structure Inv (S : Scope) (O : Outside) (now : Int) (s₀ : State) (g : Access) (s : State) : Prop where
  ok : StateOk s
  framed : Framed now O s₀.heap s.heap
  keys : ∀ k, ¬S.writes k →
    (s.data.lookup k = s₀.data.lookup k ∧ s.ttl.lookup k = s₀.ttl.lookup k) ∨
      (s₀.Gone now k ∧ s.data.lookup k = none ∧ s.ttl.lookup k = none)
  own : ∀ k r, S.writes k → s.data.lookup k = some r → Own O g s.heap r
  held : ∀ k b, S.writes k → s.bound.lookup k = some b → Own O g s.heap b.ref ∧ (¬g.loose → O.Avoids b.buf)
  work : ¬g.foreign → O.Avoids s.work

namespace Inv

variable {S : Scope} {O : Outside} {now : Int} {s₀ s : State} {g g' : Access} {key : Key}

section

variable (h : Inv S O now s₀ g s)
include h

theorem withWork (g' : Access) (ha : g'.apart → g.apart) (hl : g.loose → g'.loose)
    {w : Option Slice} (hh : s.heap.Has w) (hw : ¬g'.foreign → O.Avoids w) :
    Inv S O now s₀ g' { s with work := w } := by
  have hown : ∀ r, Own O g s.heap r → Own O g' s.heap r := fun r hr =>
    ⟨fun ho => ⟨(hr.ref ho).1, fun h => (hr.ref ho).2 (ha h)⟩, fun hn => hr.buf fun h => hn (hl h)⟩
  exact { h with
    own := fun k r hk hr => hown r (h.own k r hk hr)
    held := fun k b hk hb => ⟨hown _ (h.held k b hk hb).1, fun hn => (h.held k b hk hb).2 fun h => hn (hl h)⟩
    ok := (h.ok.since.withWork hh).toStateOk
    work := hw }

theorem ghost (ha : g'.apart → g.apart) (hl : g.loose → g'.loose)
    (hf : g.foreign → g'.foreign) : Inv S O now s₀ g' s :=
  h.withWork g' ha hl h.ok.work fun hn => h.work fun h => hn (hf h)

theorem withHeap {h' : Heap} (hok : h'.Ok) (hg : s.heap.Grows h') (hf : Framed now O s₀.heap h')
    (hc : ∀ r c, h'.cell r = some c → (s.heap.cell r).isSome →
      s.heap.cell r = some c ∨ O.Avoids c.buf) : Inv S O now s₀ g { s with heap := h' } := by
  have hown : ∀ r, (s.heap.cell r).isSome → Own O g s.heap r → Own O g h' r := fun r hs hr =>
    ⟨hr.ref, fun hn c hcr => (hc r c hcr hs).elim (hr.buf hn c) id⟩
  exact { h with
    ok := (h.ok.since.withHeap hok hg).toStateOk
    framed := hf
    own := fun k r hk hr => hown r (h.ok.data k r hr) (h.own k r hk hr)
    held := fun k b hk hb => ⟨hown _ (h.ok.bound k b hb).1 (h.held k b hk hb).1, (h.held k b hk hb).2⟩ }

theorem newCell {c : Cell} (hc : s.heap.Has c.buf) : Inv S O now s₀ g { s with heap := (s.heap.newCell c).2 } := by
  refine h.withHeap (h.ok.heap.newCell hc) Heap.grows_newCell h.framed.newCell fun r c' hr hs => ?_
  rw [Heap.cell_newCell] at hr
  split at hr
  · rename_i he
    subst he
    simp [Heap.newCell, Heap.cell] at hs
  · exact Or.inl hr

theorem newArray {b : Bytes} {n : Nat} : Inv S O now s₀ g { s with heap := (s.heap.newArray b n).2 } :=
  h.withHeap h.ok.heap.newArray Heap.grows_newArray h.framed.newArray fun r c hr _ =>
    Or.inl (by simpa using hr)

end

variable {r : Ref}

section

variable (h : Inv S O now s₀ g s)
include h

theorem putRef (hw : S.writes key) (hr : (s.heap.cell r).isSome)
    (ho : Own O g s.heap r) : Inv S O now s₀ g (s.putRef key r) :=
  { h with
    ok := (h.ok.since.putRef hr).toStateOk
    keys := fun k hk => by
      have hne : k ≠ key := fun he => hk (he ▸ hw)
      simp only [State.putRef, lookup_putField, if_neg hne]
      exact h.keys k hk
    own := fun k r' hk hl => by
      simp only [State.putRef, lookup_putField] at hl
      split at hl
      · cases hl
        exact ho
      · exact h.own k r' hk hl }

theorem bind {buf : Option Slice} (hr : (s.heap.cell r).isSome) (hb : s.heap.Has buf)
    (ho : S.writes key → Own O g s.heap r ∧ (¬g.loose → O.Avoids buf)) : Inv S O now s₀ g (s.bind key r buf) :=
  { h with
    ok := (h.ok.since.bind hr hb).toStateOk
    held := fun k b hk hl => by
      simp only [State.bind, lookup_putField] at hl
      split at hl
      · rename_i he
        subst he
        cases hl
        exact ho hk
      · exact h.held k b hk hl }

theorem unbind : Inv S O now s₀ g { s with bound := removeField key s.bound } :=
  { h with
    ok := h.ok.since.unbind.toStateOk
    held := fun k b hk hl => by
      simp only [lookup_removeField] at hl
      split at hl
      · cases hl
      · exact h.held k b hk hl }

theorem gone (hk : ¬S.writes key) (hg : s.Gone now key) : s₀.Gone now key := by
  rcases h.keys key hk with ⟨hd, ht⟩ | ⟨hg, -⟩
  · rwa [State.Gone, expired, hd, ht] at hg
  · exact hg

theorem stays_gone (hk : ¬S.writes key) (hg : s₀.Gone now key) : s.Gone now key := by
  rcases h.keys key hk with ⟨hd, ht⟩ | ⟨-, hd, -⟩
  · rwa [State.Gone, expired, hd, ht]
  · exact Or.inr hd

theorem remove (hk : ¬S.writes key → s₀.Gone now key) : Inv S O now s₀ g (s.remove key) :=
  { h with
    ok := h.ok.since.remove.toStateOk
    keys := fun k hw => by
      by_cases he : k = key
      · subst he
        exact Or.inr ⟨hk hw, by simp [State.remove, lookup_removeField]⟩
      · simp only [State.remove, lookup_removeField, if_neg he]
        exact h.keys k hw
    own := fun k r hw hl => by
      simp only [State.remove, lookup_removeField] at hl
      split at hl
      · cases hl
      · exact h.own k r hw hl }

theorem getEntity : Inv S O now s₀ g (s.getEntity now key).2 := by
  unfold State.getEntity
  split
  · exact h.unbind
  rename_i r hr
  split
  · rename_i he
    exact (h.remove fun hw => h.gone hw (Or.inl he)).unbind
  split
  · rename_i c hc
    refine h.bind (h.ok.data key r hr) (fun sl hsl => h.ok.heap.slices r c sl hc hsl) fun hw => ?_
    exact ⟨h.own key r hw hr, fun hn => (h.own key r hw hr).buf hn c hc⟩
  · exact h

/-- Write to a structure through the pointer held for its key: that of a key of the scope, or only to
drop what has expired. -/
theorem setHeld {robj : Bool} {c c' : Coll} (hh : s.held key = some (r, .coll robj c))
    (hc : S.writes key ∨ (Cell.coll robj c').purged now = (Cell.coll robj c).purged now) :
    Inv S O now s₀ g { s with heap := s.heap.setCell r (.coll robj c') } := by
  have hcell := cell_of_held hh
  have hsome : (s.heap.cell r).isSome := by rw [hcell]; rfl
  have hshared : ∀ n, r ≠ .shared n := by
    rintro n rfl
    obtain ⟨enc, p, hp⟩ := h.ok.heap.shared_str hcell
    cases hp
  refine h.withHeap (h.ok.since.setHeld hh).heap Heap.grows_setCell ?_ fun r' c₁ hr' _ => ?_
  · refine h.framed.setCell hsome fun ho => ?_
    rcases hc with hw | hp
    · -- a key of the scope holds nothing from outside but shared integers
      obtain ⟨b, hb, rfl⟩ := bound_of_held hh
      obtain ⟨n, hn⟩ := ((h.held key b hw hb).1.ref ho).1
      exact absurd hn (hshared n)
    · rw [hcell, map_some, hp]
  · rw [Heap.cell_setCell _ _ _ _ hsome] at hr'
    split at hr'
    · cases hr'
      exact Or.inr avoids_none
    · exact Or.inl hr'

theorem store (hw : S.writes key) {c : Coll} : Inv S O now s₀ g (s.store key c) := by
  unfold State.store
  split
  · rename_i hh
    exact h.setHeld hh (Or.inl hw)
  · rename_i hh
    exact h.setHeld hh (Or.inl hw)
  · exact h

theorem purge : Inv S O now s₀ g (s.purge now key) := by
  unfold State.purge
  split
  · rename_i hh
    exact h.setHeld hh (Or.inr (by simp [Cell.purged, HashObj.purgeExpiredFields_idem]))
  · exact h

end

variable {env : Env}

section

variable (h : Inv S O now s₀ g s)
include h

theorem own_newCell {c : Cell} (hc : ¬g.loose → O.Avoids c.buf) :
    Own O g (s.heap.newCell c).2 (s.heap.newCell c).1 where
  ref ho := by
    have := h.framed.there _ ho
    simp [Heap.newCell, Heap.cell] at this
  buf hn c' hc' := by
    rw [Heap.cell_newCell_self] at hc'
    cases hc'
    exact hc hn

theorem makeStringObject {b : Option Bytes} :
    Inv S O now s₀ g.strings (s.makeStringObject env b).2 ∧
      Own O g.strings (s.makeStringObject env b).2.heap (s.makeStringObject env b).1 := by
  have h' : Inv S O now s₀ g.strings s := h.ghost False.elim (fun _ => trivial) id
  unfold State.makeStringObject
  split
  · exact ⟨h'.newCell Heap.has_none, h'.own_newCell fun hn => absurd trivial hn⟩
  split
  · split
    · exact ⟨h', fun _ => ⟨⟨_, rfl⟩, id⟩, fun hn => absurd trivial hn⟩
    · exact ⟨h'.newCell Heap.has_none, h'.own_newCell fun hn => absurd trivial hn⟩
  · exact ⟨h'.newArray.newCell Since.has_newArray, h'.newArray.own_newCell fun hn => absurd trivial hn⟩

/-- Work on the slice of a key: of one of the scope, unless it may hold a slice from outside. -/
theorem openBuf : Inv S O now s₀ { g with foreign := ¬S.writes key ∨ g.loose } (s.openBuf env key) := by
  have hopen : ∀ {s : State}, Inv S O now s₀ g s →
      ∀ {w : Option Slice}, s.heap.Has w → (S.writes key → ¬g.loose → O.Avoids w) →
      Inv S O now s₀ { g with foreign := ¬S.writes key ∨ g.loose } { s with work := w } :=
    fun h w hh hw => h.withWork { g with foreign := ¬S.writes key ∨ g.loose } id id hh fun hn => by
      obtain ⟨hn₁, hn₂⟩ := not_or.1 hn
      exact hw (not_not.1 hn₁) hn₂
  unfold State.openBuf
  split
  · rename_i sl hb
    exact hopen h (h.ok.bound key _ hb).2 fun hw hn => (h.held key _ hw hb).2 hn
  · split
    · exact hopen h.newArray Since.has_newArray fun _ _ => h.framed.avoids_newArray
    · exact hopen h Heap.has_none fun _ _ => avoids_none
  · exact hopen h Heap.has_none fun _ _ => avoids_none

theorem editBuf (hf : ¬g.foreign) {ws : List (Nat × UInt8)} {bs : List Bytes} :
    Inv S O now s₀ g (s.editBuf env ws bs) := by
  have hw := h.work hf
  obtain ⟨hfr, hw', hc⟩ := editBuf_induct
    (fun w h' => Framed now O s₀.heap h' ∧ O.Avoids w ∧ ∀ r, h'.cell r = s.heap.cell r) env ws bs
    (fun _ => ⟨h.framed, avoids_none, fun _ => rfl⟩)
    (fun sl hs => ⟨h.framed.poke (hw sl hs), hs ▸ hw, fun r => Heap.cell_poke ..⟩)
    fun w h' b hP => by
      obtain ⟨hfr', hw'⟩ := hP.1.append hP.2.1
      exact ⟨hfr', hw', fun r => (h'.cell_append r env.spare w b).trans (hP.2.2 r)⟩
  exact { h with
    ok := h.ok.since.editBuf.toStateOk
    framed := hfr
    work := fun _ => hw'
    own := fun k r hk hr => ⟨(h.own k r hk hr).ref, fun hn c hcr => (h.own k r hk hr).buf hn c ((hc r).symm.trans hcr)⟩
    held := fun k b hk hb => ⟨⟨(h.held k b hk hb).1.ref, fun hn c hcr =>
      (h.held k b hk hb).1.buf hn c ((hc _).symm.trans hcr)⟩, (h.held k b hk hb).2⟩ }

theorem assign (hw : S.writes key) (hf : ¬g.foreign) (ha : g.apart) {enc : Encoding}
    {p : StrPtr} (hh : s.held key = some (r, .str true enc p)) :
    Inv S O now s₀ g { s with heap := s.heap.setCell r (.str true .raw (bufPtr s.work)) } := by
  have hsome : (s.heap.cell r).isSome := by rw [cell_of_held hh]; rfl
  obtain ⟨b, hb, rfl⟩ := bound_of_held hh
  refine h.withHeap (h.ok.heap.setCell hsome (fun n _ => ⟨_, _, rfl⟩) (by rw [buf_bufPtr]; exact h.ok.work))
    Heap.grows_setCell (h.framed.setCell hsome fun ho => ?_) fun r' c hr' _ => ?_
  · exact absurd ha ((h.held key b hw hb).1.ref ho).2
  · rw [Heap.cell_setCell _ _ _ _ hsome] at hr'
    split at hr'
    · cases hr'
      exact Or.inr (by simpa using h.work hf)
    · exact Or.inl hr'

theorem withTTL {ttl : List (Key × Int)}
    (ht : ∀ k, ¬S.writes k → ttl.lookup k = s.ttl.lookup k) : Inv S O now s₀ g { s with ttl } :=
  { h with
    ok := { h.ok with }
    keys := fun k hk => by
      rw [ht k hk]
      exact h.keys k hk }

end

/-- An operation that the discipline permits keeps everything outside, and answers as it says. -/
theorem step (habs : ∀ k, S.absent k → ¬S.writes k ∧ s₀.Gone now k) (hnow : env.now = now)
    (h : Inv S O now s₀ g s) (o : Op) (hok : S.ok g o) :
    S.ans g o (handle env o s).1 ∧ Inv S O now s₀ (S.next g o (handle env o s).1) (handle env o s).2 := by
  subst hnow
  have hcheck : ∀ {s : State}, Inv S O env.now s₀ g s → ∀ key, Inv S O env.now s₀ (g.check key) s :=
    fun h key => h.ghost id id id
  have hput : ∀ {s : State}, Inv S O env.now s₀ g s → ∀ key, Inv S O env.now s₀ (g.put key) s :=
    fun h key => h.ghost id id id
  cases o with
  | getEntity key =>
    refine ⟨fun ha => ?_, hcheck h.getEntity key⟩
    obtain ⟨hw, hg⟩ := habs key ha
    rcases h.stays_gone hw hg with he | hd
    · simp only [handle, State.getEntity]
      cases s.data.lookup key <;> simp [he]
    · simp [handle, State.getEntity, hd]
  | isExpired key =>
    refine ⟨trivial, ?_⟩
    simp only [handle]
    split
    · rename_i he
      exact hcheck (h.remove fun hw => h.gone hw (Or.inl he)) key
    · exact hcheck h key
  | store key c => exact ⟨trivial, h.store hok⟩
  | purge key => exact ⟨trivial, h.purge⟩
  | putColl key c =>
    have hr := s.heap.isSome_newCell (.coll true c)
    have ho := h.own_newCell (c := .coll true c) fun _ => avoids_none
    refine ⟨trivial, hput (((h.newCell Heap.has_none).putRef hok hr ho).bind hr Heap.has_none fun _ => ?_) key⟩
    exact ⟨ho, fun _ => avoids_none⟩
  | putStr key b =>
    refine ⟨trivial, ?_⟩
    exact (h.makeStringObject.1.putRef hok h.ok.since.makeStringObject.2 h.makeStringObject.2).ghost id id id
  | putIfAbsent key b =>
    refine ⟨trivial, ?_⟩
    simp only [handle]
    split
    · exact h.makeStringObject.1
    · exact h.makeStringObject.1.putRef hok.1 h.ok.since.makeStringObject.2 h.makeStringObject.2
  | putIfExists key b =>
    refine ⟨trivial, ?_⟩
    simp only [handle]
    split
    · exact h.makeStringObject.1.putRef hok.1 h.ok.since.makeStringObject.2 h.makeStringObject.2
    · exact h.makeStringObject.1
  | putFrom dest src =>
    refine ⟨trivial, ?_⟩
    simp only [handle]
    split
    · rename_i b hb
      exact hput (h.putRef hok.1 (h.ok.bound src b hb).1 (h.held src b hok.2 hb).1) dest
    · exact hput h dest
  | openBuf key => exact ⟨trivial, h.openBuf⟩
  | freshBuf b =>
    refine ⟨trivial, ?_⟩
    cases b with
    | none =>
      exact h.withWork { g with foreign := False } id id Heap.has_none fun _ => avoids_none
    | some b =>
      exact h.newArray.withWork { g with foreign := False } id id Since.has_newArray fun _ => h.framed.avoids_newArray
  | cutBuf n =>
    refine ⟨trivial, h.withWork g id id (fun sl hsl => ?_) fun hf sl hsl => ?_⟩
    · obtain ⟨sl', hw, rfl⟩ := map_eq_some_iff.1 hsl
      exact h.ok.work sl' hw
    · obtain ⟨sl', hw, rfl⟩ := map_eq_some_iff.1 hsl
      exact h.work hf sl' hw
  | editBuf ws bs => exact ⟨trivial, h.editBuf hok⟩
  | putBuf key =>
    have h' : Inv S O env.now s₀ { g.put key with loose := g.loose ∨ g.foreign } s := h.ghost id Or.inl id
    refine ⟨trivial, (h'.newCell ?_).putRef hok (s.heap.isSome_newCell _) (h'.own_newCell fun hn => ?_)⟩
    · simpa using h.ok.work
    · simpa using h.work fun hf => hn (Or.inr hf)
  | assignBuf key =>
    refine ⟨trivial, ?_⟩
    simp only [handle]
    split
    · rename_i r enc p hh
      exact h.assign hok.1 hok.2.1 hok.2.2 hh
    · exact h
  | remove key =>
    refine ⟨trivial, hcheck (h.remove fun hw => ?_) key⟩
    exact (habs key (hok.resolve_left hw)).2
  | expire key t =>
    exact ⟨trivial, hcheck (h.withTTL fun k hk => by
      rw [lookup_putField, if_neg fun (he : k = key) => hk (he ▸ hok.1)]) key⟩
  | persist key =>
    exact ⟨trivial, hcheck (h.withTTL fun k hk => by
      rw [lookup_removeField, if_neg fun (he : k = key) => hk (he ▸ hok.1)]) key⟩
  | getTTL | rawExists | load | readHeld | readBuf | keys | version =>
    exact ⟨trivial, h⟩
  | addAof line => exact ⟨trivial, { h with ok := { h.ok with } }⟩
  | rand =>
    simp only [handle]
    exact ⟨trivial, { h with ok := ⟨h.ok.heap, h.ok.data, h.ok.bound, h.ok.work⟩ }⟩

end Inv

/-! ## Commands -/

/-- The byte array of what a reference points to, if it is a string that has one. -/
def arrayOf (h : Heap) (r : Ref) : Option Nat := ((h.cell r).bind Cell.buf).map Slice.arr

/-- A key that is written and another one hold different objects, or a shared integer that is not
written to, and different byte arrays. -/
structure Apart (h : Heap) (writesInts : Prop) (r r' : Ref) : Prop where
  objects : r = r' → (∃ n, r = .shared n) ∧ ¬writesInts
  arrays : ∀ a, arrayOf h r = some a → arrayOf h r' ≠ some a

/-- What a command that declares the keys `W` needs for no other key of its database to be changed
for a reason of its own. -/
structure Declared (now : Int) (s : State) (name : Bytes) (args : List Bytes) (W : List Key) : Prop where
  /-- Keys that it may change without declaring them are not there, -/
  undeclared : ∀ k ∈ undeclaredKeys name args, k ∈ W ∨ s.visible now k = none
  /-- nor does it make one, -/
  makes : name = "xgroup" → ∀ sub key rest, args = sub :: key :: rest → makesStream sub rest → key ∈ W
  /-- and it carries what DUMPKEY has answered, if it carries command lines. -/
  dump : name ∈ carriers → carriesDump args

section footprint

variable {env : Env} {s : State} {c : Command} {args : List Bytes} {W R : List Key}

variable {now : Int}

theorem gone_of_visible (ok : StateOk s) {k : Key} (h : s.visible now k = none) : s.Gone now k := by
  unfold visible at h
  split at h
  · rename_i he
    exact Or.inl he
  refine Or.inr ?_
  cases hr : s.data.lookup k with
  | none => rfl
  | some r =>
    obtain ⟨c, hc⟩ := isSome_iff_exists.1 (ok.data k r hr)
    simp [hr, Heap.seen, hc] at h

/-- What these references point to, with its byte arrays. -/
def outsideOf (h : Heap) (refs : Ref → Prop) : Outside where
  refs := refs
  arrs a := ∃ r, refs r ∧ arrayOf h r = some a

variable {refs : Ref → Prop}

theorem inv_start (ok : StateOk s) {S : Scope} {known : Key → Prop} {apart : Prop}
    (hrefs : ∀ r, refs r → (s.heap.cell r).isSome)
    (hsep : ∀ k r r', S.writes k → s.data.lookup k = some r → refs r' → Apart s.heap apart r r') :
    Inv S (outsideOf s.heap refs) now s (.start known apart) { s with bound := [], work := none } where
  ok := ⟨ok.heap, ok.data, by simp, Heap.has_none⟩
  framed := by
    refine ⟨hrefs, fun a houtside => ?_, fun _ _ => rfl, fun _ _ => rfl⟩
    obtain ⟨r, -, ha⟩ := houtside
    obtain ⟨sl, hsl, rfl⟩ := map_eq_some_iff.1 ha
    obtain ⟨c, hc, hb⟩ := bind_eq_some_iff.1 hsl
    exact ok.heap.slices r c sl hc hb
  keys k _ := Or.inl ⟨rfl, rfl⟩
  own k r hw hr := by
    refine ⟨fun hr' => (hsep k r r hw hr hr').objects rfl, ?_⟩
    rintro - c hc sl hsl ⟨r', hr', ha⟩
    refine (hsep k r r' hw hr hr').arrays sl.arr ?_ ha
    simp [arrayOf, hc, hsl]
  held := by simp
  work _ := avoids_none

/-- A command that keeps to the scope of the keys `W` leaves the other keys and, up to expired fields, the objects behind
other references, in which none of these keys has a part. -/
theorem exec_frame {apart : Prop} (hs : StateOk s)
    (hkeeps : Scope.Keeps ⟨(· ∈ W), fun k => k ∉ W ∧ s.visible env.now k = none, True⟩ (fun _ => True) apart
      (c.executor env (execWithLock env (lineFuel (c.name :: args))) args))
    (hrefs : ∀ r, refs r → (s.heap.cell r).isSome)
    (hsep : ∀ k ∈ W, ∀ r r', s.data.lookup k = some r → refs r' → Apart s.heap apart r r') :
    ∃ g, Inv ⟨(· ∈ W), fun k => k ∉ W ∧ s.visible env.now k = none, True⟩ (outsideOf s.heap refs) env.now s g
      (exec env c args s).2 := by
  let S : Scope := ⟨(· ∈ W), fun k => k ∉ W ∧ s.visible env.now k = none, True⟩
  have habs : ∀ k, S.absent k → ¬S.writes k ∧ s.Gone env.now k := fun k hk =>
    ⟨hk.1, gone_of_visible hs hk.2⟩
  obtain ⟨g, hinv, -⟩ := Prog.run_inv
    (fun g o s' hok hi => hi.step habs rfl o hok) hkeeps
    (inv_start hs hrefs fun k r r' hk hr hr' => hsep k hk r r' hr hr')
  exact ⟨g, hinv⟩

theorem keeps_declared (hc : c ∈ cmdTable) (harity : validateArity c.arity (c.name :: args) = true)
    (hprep : c.prepare args = some (W, R)) (hd : Declared env.now s c.name args W) :
    Scope.Keeps ⟨(· ∈ W), fun k => k ∉ W ∧ s.visible env.now k = none, True⟩ (fun _ => True) (c.name = "bitfield")
      (c.executor env (execWithLock env (lineFuel (c.name :: args))) args) := by
  refine rows_cmdTable runsDumps runsExpiries c hc args W R harity hprep
    { writes := fun k hk => hk
      undeclared := fun k hk => ?_
      makes := hd.makes
      unchecked := fun _ _ => trivial
      lists := fun _ => trivial
      all := fun _ _ => trivial
      apart := fun h => h
      dump := hd.dump }
  by_cases hW : k ∈ W
  · exact Or.inl hW
  · exact Or.inr ⟨hW, (hd.undeclared k hk).resolve_left hW⟩

theorem Inv.seen {S : Scope} {g : Access} {s' : State} {r : Ref} (h : Inv S (outsideOf s.heap refs) now s g s')
    (hr : refs r) : s'.heap.seen now r = s.heap.seen now r :=
  h.framed.seen hr fun c hc sl hsl => ⟨r, hr, by simp [arrayOf, hc, hsl]⟩

theorem Inv.visible {S : Scope} {g : Access} {s' : State} {k : Key}
    (h : Inv S (outsideOf s.heap refs) now s g s') (hs : StateOk s) (hw : ¬S.writes k)
    (hrefs : s.visible now k ≠ none → ∀ r, s.data.lookup k = some r → refs r) :
    s'.visible now k = s.visible now k := by
  by_cases hv : s.visible now k = none
  · rw [hv, visible_of_gone (h.stays_gone hw (gone_of_visible hs hv))]
  · rcases h.keys k hw with ⟨hd, ht⟩ | ⟨hg, -⟩
    · exact visible_congr hd ht fun r hr => h.seen (hrefs hv r hr)
    · exact absurd (visible_of_gone hg) hv

end footprint

end Hayakv.Frame
