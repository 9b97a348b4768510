import Hayakv.Lib.Machine
import Hayakv.Lib.Search
import Hayakv.Object.Listpack
import Hayakv.Object.SimpleDict
import Mathlib.Data.Finset.Card

/-!
# Sets and their encodings

`internal/object/intset.go` and `Set` of `internal/object/encoding.go`: a set is a sorted list of
integers, a listpack of strings or a hashtable, and moves from one to the next as it grows. It refines
the sets of `Engine.Object`, which have lists of members (`Represents`), and these refine finite sets.
-/

namespace Hayakv.Object

open Engine List Function SetObj Set Prod

/-- `formatInt64`. The least integer has no opposite, and no digits. -/
def formatInt64 (v : Int) : Bytes := if v = -2 ^ 63 then "-" else itoa v

/-! ## Intsets -/

structure Intset where
  data : List Int
  width : Nat
deriving DecidableEq, Repr

namespace Intset

def new : Intset := ⟨[], 16⟩

variable (is : Intset)

def len : Nat := is.data.length

def index (v : Int) : Nat := search is.data.length fun i => v ≤ is.data.getD i 0

def contains (v : Int) : Bool := is.data[is.index v]? = some v

def updateWidth (width : Nat) (v : Int) : Nat :=
  if v < -2147483648 ∨ v > 2147483647 then 64
  else if v < -32768 ∨ v > 32767 then if width < 32 then 32 else width
  else if width < 16 then 16 else width

/-- `Add`, with whether the value was added. -/
def add (v : Int) : Intset × Bool :=
  if is.contains v then (is, false)
  else
    (⟨is.data.take (is.index v) ++ v :: is.data.drop (is.index v), updateWidth is.width v⟩, true)

/-- `Remove`, with whether the value was removed. -/
def remove (v : Int) : Intset × Bool :=
  if is.contains v then (⟨is.data.eraseIdx (is.index v), is.width⟩, true) else (is, false)

def range {σ : Type} (fn : σ → Int → σ × Bool) (s : σ) : σ := visit fn s is.data

end Intset

/-! ## Sets -/

inductive Set
  | intset (is : Intset)
  | listpack (lp : Listpack)
  | hashtable (d : SimpleDict Unit)

namespace Set

def new : Set := .intset .new

/-- Whether a listpack has the string. -/
def listpackHas (lp : Listpack) (member : Bytes) : Bool :=
  lp.range (fun found _ val => if val = .str member then (true, false) else (found, true)) false

def convertToListpack (is : Intset) : Listpack := is.range (fun lp v => (lp.appendStr (formatInt64 v), true)) .new

def convertToHashtable (lp : Listpack) : SimpleDict Unit :=
  lp.range (fun d _ val => match val with
    | .str s => ((d.put s ()).1, true)
    | .int _ => (d, true)) .makeSimple

/-- `Add` to a listpack. -/
def addListpack (t : EncodingThresholds) (lp : Listpack) (member : Bytes) : Set × Nat :=
  if listpackHas lp member then (.listpack lp, 0)
  else if member.length > t.setMaxListpackValue then
    let (d, n) := (convertToHashtable lp).put member ()
    (.hashtable d, n)
  else
    let lp := lp.appendStr member
    if lp.len > t.setMaxListpackEntries then (.hashtable (convertToHashtable lp), 1) else (.listpack lp, 1)

/-- `Add`, with the number of members added. -/
def add (t : EncodingThresholds) (s : Set) (member : Bytes) : Set × Nat :=
  match s with
  | .intset is =>
    match isInt member with
    | some v =>
      match is.add v with
      | (is, true) =>
        if is.len > t.setMaxIntsetEntries then
          let lp := convertToListpack is
          if lp.len > t.setMaxListpackEntries then (.hashtable (convertToHashtable lp), 1)
          else (.listpack lp, 1)
        else (.intset is, 1)
      | (is, false) => (.intset is, 0)
    | none => addListpack t (convertToListpack is) member
  | .listpack lp => addListpack t lp member
  | .hashtable d =>
    let (d, n) := d.put member ()
    (.hashtable d, n)

def has (s : Set) (member : Bytes) : Bool :=
  match s with
  | .intset is =>
    match isInt member with
    | some v => is.contains v
    | none => false
  | .listpack lp => listpackHas lp member
  | .hashtable d => (d.get member).isSome

/-- `Remove`, with the number of members removed. -/
def remove (s : Set) (member : Bytes) : Set × Nat :=
  match s with
  | .intset is =>
    match isInt member with
    | some v =>
      match is.remove v with
      | (is, true) => (.intset is, 1)
      | (is, false) => (.intset is, 0)
    | none => (.intset is, 0)
  | .listpack lp =>
    let (newLp, removed) := lp.range (fun (newLp, removed) _ val => match val with
      | .str str => if str = member then ((newLp, true), true) else ((newLp.appendStr str, removed), true)
      | .int _ => ((newLp, removed), true)) (Listpack.new, false)
    if removed then (.listpack newLp, 1) else (.listpack lp, 0)
  | .hashtable d =>
    let (_, d, n) := d.remove member
    (.hashtable d, n)

def len : Set → Nat
  | .intset is => is.len
  | .listpack lp => lp.len
  | .hashtable d => d.len

def forEach {σ : Type} (o : MapOrder) (s : Set) (fn : σ → Bytes → σ × Bool) (a : σ) : σ :=
  match s with
  | .intset is => is.range (fun a v => fn a (formatInt64 v)) a
  | .listpack lp => lp.range (fun a _ val => match val with
    | .str s => fn a s
    | .int _ => (a, true)) a
  | .hashtable d => d.forEach o (fun a key _ => fn a key) a

def encoding : Set → SetEncoding
  | .intset _ => .intset
  | .listpack _ => .listpack
  | .hashtable _ => .hashtable

end Set

/-! ## Integers as members -/

theorem parseInt64Digits_lt {v n : Nat} {s : Bytes} (hv : v < 2 ^ 63) (h : parseInt64Digits v s = some n) :
    n < 2 ^ 63 := by
  induction s generalizing v with
  | nil =>
    cases h
    exact hv
  | cons c s ih =>
    simp only [parseInt64Digits] at h
    split at h
    · cases h
    rename_i hc
    split at h
    · cases h
    · refine ih ?_ h
      have : ¬57 < c.toNat := fun h57 => hc (Or.inr (UInt8.lt_iff_toNat_lt.2 h57))
      omega

theorem parseInt64_range (s : Bytes) : -2 ^ 63 < parseInt64 s ∧ parseInt64 s < 2 ^ 63 := by
  have hdigits : ∀ s, (parseInt64Digits 0 s).getD 0 < 2 ^ 63 := by
    intro s
    cases h : parseInt64Digits 0 s with
    | none => simp
    | some n => exact parseInt64Digits_lt (by norm_num) h
  unfold parseInt64
  split <;> grind

theorem formatInt64_parseInt64 (s : Bytes) : formatInt64 (parseInt64 s) = itoa (parseInt64 s) :=
  if_neg (by have := parseInt64_range s; omega)

theorem isInt_eq_some {s : Bytes} {v : Int} (h : isInt s = some v) : parseInt64 s = v ∧ formatInt64 v = s := by
  unfold isInt at h
  split at h
  · rename_i hs
    obtain rfl := Option.some.inj h
    exact ⟨rfl, (formatInt64_parseInt64 s).trans hs.2⟩
  · cases h

/-! ## Intsets that are sorted -/

namespace Intset

variable {is : Intset} {v : Int}

/-- The members are in order, and are the integers that their texts are. -/
structure Ok (is : Intset) : Prop where
  sorted : is.data.Pairwise (· < ·)
  isInt : ∀ v ∈ is.data, isInt (formatInt64 v) = some v

theorem Ok.index (h : is.Ok) : is.index v ≤ is.data.length ∧
    (∀ x ∈ is.data.take (is.index v), x < v) ∧ ∀ x ∈ is.data.drop (is.index v), v ≤ x :=
  position_spec h.sorted 0 v

theorem Ok.contains (h : is.Ok) : is.contains v = decide (v ∈ is.data) :=
  decide_eq_decide.2 (getElem?_position h.sorted 0)

theorem Ok.add (h : is.Ok) (hv : Engine.isInt (formatInt64 v) = some v) (hnot : v ∉ is.data) :
    (⟨is.data.take (is.index v) ++ v :: is.data.drop (is.index v), updateWidth is.width v⟩ : Intset).Ok where
  sorted := pairwise_insert_position h.sorted 0 hnot
  isInt x hx := by
    rcases mem_append.1 hx with hx | hx
    · exact h.isInt x (mem_of_mem_take hx)
    · rcases mem_cons.1 hx with rfl | hx
      · exact hv
      · exact h.isInt x (mem_of_mem_drop hx)

theorem Ok.eraseIdx (h : is.Ok) (hv : v ∈ is.data) : is.data.eraseIdx (is.index v) = is.data.filter (· ≠ v) :=
  eraseIdx_position h.sorted 0 hv

end Intset

/-! ## Sets and their lists of members -/

namespace Set

variable {ms : List Bytes} {lp : Listpack} {is : Intset} {member : Bytes} {t : EncodingThresholds}

theorem listpackHas_eq (h : lp.Holds (ms.map .str)) : listpackHas lp member = decide (member ∈ ms) := by
  rw [listpackHas, h.range_elems fun found val => if val = .str member then (true, false) else (found, true)]
  have hfind := visit_find (fun e : Elem => decide (e = .str member)) (ms.map .str)
  simp only [decide_eq_true_eq] at hfind
  rw [hfind, any_map, Bool.eq_iff_iff]
  simp

theorem holds_convertToListpack (hlen : ∀ v ∈ is.data, (formatInt64 v).length < 2 ^ 63) :
    (convertToListpack is).Holds ((is.data.map formatInt64).map .str) := by
  have hfold := Listpack.holds_foldl_new (show ∀ s ∈ is.data.map formatInt64, s.length < 2 ^ 63 by simpa using hlen)
  rw [foldl_map] at hfold
  rw [convertToListpack, Intset.range, visit_all fun (lp : Listpack) v => lp.appendStr (formatInt64 v)]
  exact hfold

theorem convertToHashtable_m (h : lp.Holds (ms.map .str)) (hnd : ms.Nodup) :
    (convertToHashtable lp).m = ms.map fun m => (m, ()) := by
  rw [convertToHashtable, h.range_elems fun (d : SimpleDict Unit) val => match val with
    | .str s => ((d.put s ()).1, true)
    | .int _ => (d, true)]
  rw [visit_map, visit_all fun (d : SimpleDict Unit) s => (d.put s ()).1]
  have hnd' : ((ms.map fun m => (m, ())).map fst).Nodup := by simpa [comp_def] using hnd
  have hput := SimpleDict.foldl_put hnd'
  rwa [foldl_map] at hput

/-- The listpack that `Remove` builds. -/
theorem remove_listpack (member : Bytes) (h : lp.Holds (ms.map .str)) :
    ∃ newLp, newLp.Holds ((ms.filter (· ≠ member)).map .str) ∧ lp.range (fun (newLp, removed) _ val => match val with
        | .str str => if str = member then ((newLp, true), true) else ((newLp.appendStr str, removed), true)
        | .int _ => ((newLp, removed), true)) (Listpack.new, false) = (newLp, decide (member ∈ ms)) := by
  refine ⟨(ms.filter (· ≠ member)).foldl Listpack.appendStr .new, ?_, ?_⟩
  · refine Listpack.holds_foldl_new fun m hm => ?_
    exact h.ok (.str m) (mem_map_of_mem (mem_of_mem_filter hm))
  · rw [h.range_elems fun (p : Listpack × Bool) val => match val with
      | .str str => if str = member then ((p.1, true), true) else ((p.1.appendStr str, p.2), true)
      | .int _ => (p, true), visit_map]
    have hvisit : ∀ (ms : List Bytes) (lp : Listpack) (removed : Bool), visit (fun (p : Listpack × Bool) str =>
          if str = member then ((p.1, true), true) else ((p.1.appendStr str, p.2), true)) (lp, removed) ms =
          ((ms.filter (· ≠ member)).foldl Listpack.appendStr lp, removed || decide (member ∈ ms)) := by
      intro ms
      induction ms with
      | nil => simp [visit]
      | cons m ms ih =>
        intro lp removed
        by_cases hm : m = member
        · simp [visit, hm, ih]
        · simp [visit, hm, Ne.symm hm, ih]
    simpa using hvisit ms .new false

theorem perm_ins {lt : Bytes → Bytes → Bool} (x : Bytes) (l : List Bytes) : (sortBy.ins lt x l).Perm (x :: l) := by
  induction l with
  | nil => exact .refl _
  | cons y l ih =>
    rw [sortBy.ins]
    split
    · exact (ih.cons y).trans (.swap x y l)
    · exact .refl _

theorem extend {ms' : List Bytes} (hperm : ms'.Perm (member :: ms)) (hmem : member ∉ ms) (hnd : ms.Nodup)
    (hlen : ∀ m ∈ ms, m.length < 2 ^ 63) (hm : member.length < 2 ^ 63) :
    ms'.Nodup ∧ ∀ m ∈ ms', m.length < 2 ^ 63 := by
  refine ⟨hperm.nodup_iff.2 (nodup_cons.2 ⟨hmem, hnd⟩), fun m hm' => ?_⟩
  rcases mem_cons.1 (hperm.mem_iff.1 hm') with rfl | hm'
  · exact hm
  · exact hlen m hm'

/-- A set represents a set of `Engine.Object`. -/
structure Represents (s : Set) (o : SetObj) : Prop where
  nodup : o.members.Nodup
  lengths : ∀ m ∈ o.members, m.length < 2 ^ 63
  repr : match s with
    | .intset is => is.Ok ∧ o = ⟨is.data.map formatInt64, .intset⟩
    | .listpack lp => lp.Holds (o.members.map .str) ∧ o.encoding = .listpack
    | .hashtable d => o = ⟨d.m.map fst, .hashtable⟩

theorem mem_intset (ok : is.Ok) : member ∈ is.data.map formatInt64 ↔ ∃ v, isInt member = some v ∧ v ∈ is.data := by
  rw [mem_map]
  constructor
  · rintro ⟨v, hv, rfl⟩
    exact ⟨v, ok.isInt v hv, hv⟩
  · rintro ⟨v, hm, hv⟩
    exact ⟨v, hv, (isInt_eq_some hm).2⟩

namespace Represents

variable {s : Set} {o : SetObj}

theorem new : new.Represents SetObj.new :=
  ⟨nodup_nil, by simp [SetObj.new], ⟨by simp [Intset.new], by simp [Intset.new]⟩, rfl⟩

section

variable (h : s.Represents o)
include h

theorem has (member : Bytes) : s.has member = o.has member := by
  obtain ⟨-, -, hrepr⟩ := h
  cases s with
  | intset is =>
    obtain ⟨ok, rfl⟩ := hrepr
    rw [SetObj.has, Bool.eq_iff_iff, decide_eq_true_eq, mem_intset ok]
    cases hm : isInt member with
    | none => simp [has, hm]
    | some v => simp [has, hm, ok.contains]
  | listpack lp => exact listpackHas_eq hrepr.1
  | hashtable d =>
    obtain rfl := hrepr
    rw [SetObj.has, Bool.eq_iff_iff, decide_eq_true_eq]
    exact isSome_lookup

theorem len : s.len = o.len := by
  obtain ⟨-, -, hrepr⟩ := h
  cases s with
  | intset is =>
    obtain ⟨-, rfl⟩ := hrepr
    simp [len, Intset.len, SetObj.len]
  | listpack lp => exact hrepr.1.len.trans (length_map _)
  | hashtable d =>
    obtain rfl := hrepr
    simp [len, SimpleDict.len, SetObj.len]

theorem forEach (ord : MapOrder) : ∃ visits, visits.Perm o.members ∧ ∀ {σ : Type} (fn : σ → Bytes → σ × Bool) (a : σ),
      s.forEach ord fn a = visit fn a visits := by
  obtain ⟨-, -, hrepr⟩ := h
  cases s with
  | intset is =>
    obtain ⟨-, rfl⟩ := hrepr
    exact ⟨_, .refl _, fun fn a => (visit_map fn formatInt64 a is.data).symm⟩
  | listpack lp =>
    refine ⟨o.members, .refl _, fun fn a => ?_⟩
    simp only [forEach]
    rw [hrepr.1.range_elems fun a val => match val with
      | .str s => fn a s
      | .int _ => (a, true), visit_map]
  | hashtable d =>
    obtain rfl := hrepr
    exact ⟨(ord.order d.m).map fst, (ord.perm d.m).map _, fun fn a => (visit_map fn fst a _).symm⟩

omit h in
theorem addListpack (hlp : lp.Holds (ms.map .str)) (hnd : ms.Nodup) (hlen : ∀ m ∈ ms, m.length < 2 ^ 63)
    (hm : member.length < 2 ^ 63) :
    let r := if member ∈ ms then (⟨ms, .listpack⟩, 0) else (SetObj.addBytes t ⟨ms, .listpack⟩ member, 1)
    (addListpack t lp member).2 = r.2 ∧ (addListpack t lp member).1.Represents r.1 := by
  unfold Set.addListpack
  rw [listpackHas_eq hlp]
  by_cases hmem : member ∈ ms
  · simp only [hmem, decide_true, if_true, true_and]
    exact ⟨hnd, hlen, hlp, rfl⟩
  obtain ⟨hnd', hlen'⟩ := extend (perm_append_singleton member ms) hmem hnd hlen hm
  have happ : (lp.appendStr member).Holds ((ms ++ [member]).map .str) := by
    simpa using hlp.appendStr hm
  have hnum : (lp.appendStr member).len = (ms ++ [member]).length := by simpa using happ.len
  simp only [hmem, decide_false, if_false, Bool.false_eq_true, SetObj.addBytes, SetObj.len, decide_true,
    Bool.true_and, hnum]
  by_cases hlong : member.length > t.setMaxListpackValue
  · have hput : ((convertToHashtable lp).put member ()).1.m = (ms ++ [member]).map fun m => (m, ()) := by
      simp only [SimpleDict.put, convertToHashtable_m hlp hnd]
      rw [putField_of_notMem (by simpa [comp_def] using hmem)]
      simp
    have hget : ((convertToHashtable lp).get member).isSome = false := by
      simpa [SimpleDict.get, isSome_lookup_eq, convertToHashtable_m hlp hnd, comp_def] using hmem
    simp only [hlong, decide_true, Bool.true_or, if_true]
    refine ⟨by simp [SimpleDict.put, hget], hnd', hlen', ?_⟩
    simp [hput, comp_def]
  · by_cases hmany : (ms ++ [member]).length > t.setMaxListpackEntries
    · simp only [hlong, hmany, decide_true, decide_false, Bool.false_or, if_true, if_false, true_and]
      refine ⟨hnd', hlen', ?_⟩
      simp [convertToHashtable_m happ hnd', comp_def]
    · simp only [hlong, hmany, decide_false, Bool.false_or, if_false, Bool.false_eq_true, true_and]
      exact ⟨hnd', hlen', happ, rfl⟩

omit h in
theorem ins_intset (ok : is.Ok) {v : Int} (hv : isInt member = some v) :
    sortBy.ins (fun a b => parseInt64 a < parseInt64 b) (itoa v) (is.data.map formatInt64) =
      (is.data.take (is.index v) ++ v :: is.data.drop (is.index v)).map formatInt64 := by
  have hins : ∀ (lt : Bytes → Bytes → Bool) (x : Bytes) (l₁ l₂ : List Bytes), (∀ y ∈ l₁, lt y x = true) →
      (∀ y ∈ l₂, lt y x = false) → sortBy.ins lt x (l₁ ++ l₂) = l₁ ++ x :: l₂ := by
    intro lt x l₁ l₂ h₁ h₂
    induction l₁ with
    | nil =>
      cases l₂ with
      | nil => rfl
      | cons y l₂ => simp [sortBy.ins, h₂ y mem_cons_self]
    | cons y l₁ ih =>
      simp [sortBy.ins, h₁ y mem_cons_self, ih fun z hz => h₁ z (mem_cons_of_mem y hz)]
  obtain ⟨hparse, hfmt⟩ := isInt_eq_some hv
  have hitoa : itoa v = formatInt64 v := by rw [← hparse, formatInt64_parseInt64]
  have hval : ∀ x ∈ is.data, parseInt64 (formatInt64 x) = x := fun x hx => (isInt_eq_some (ok.isInt x hx)).1
  obtain ⟨-, hlo, hhi⟩ := ok.index
  nth_rewrite 1 [← take_append_drop (is.index v) is.data]
  rw [hitoa, map_append, map_append, map_cons]
  refine hins _ _ _ _ (fun y hy => ?_) fun y hy => ?_
  · obtain ⟨x, hx, rfl⟩ := mem_map.1 hy
    rw [hval x (mem_of_mem_take hx), hfmt, hparse]
    exact decide_eq_true (hlo x hx)
  · obtain ⟨x, hx, rfl⟩ := mem_map.1 hy
    rw [hval x (mem_of_mem_drop hx), hfmt, hparse]
    exact decide_eq_false (not_lt.2 (hhi x hx))

theorem add (hm : member.length < 2 ^ 63) :
    (s.add t member).2 = (o.add t member).2 ∧ (s.add t member).1.Represents (o.add t member).1 := by
  obtain ⟨hnd, hlen, hrepr⟩ := h
  cases s with
  | intset is =>
    obtain ⟨ok, rfl⟩ := hrepr
    have hlp : (convertToListpack is).Holds ((is.data.map formatInt64).map .str) :=
      holds_convertToListpack fun v hv => hlen _ (mem_map_of_mem hv)
    cases hint : isInt member with
    | none =>
      have hadd := addListpack (t := t) hlp hnd hlen hm
      simpa [add, SetObj.add, SetObj.has, hint] using hadd
    | some v =>
      have hmem : member ∈ is.data.map formatInt64 ↔ v ∈ is.data := by simp [mem_intset ok, hint]
      by_cases hv : v ∈ is.data
      · simp only [add, SetObj.add, SetObj.has, hint, hmem.2 hv, decide_true, if_true, Intset.add, ok.contains, hv,
          true_and]
        exact ⟨hnd, hlen, ok, rfl⟩
      obtain ⟨hparse, hfmt⟩ := isInt_eq_some hint
      have hok := ok.add (by rw [hfmt, hint]) hv
      have hins := ins_intset ok hint
      have hperm := hins ▸ perm_ins _ _
      simp only [add, SetObj.add, SetObj.has, hint, mt hmem.1 hv, decide_false, if_false, Bool.false_eq_true,
        Intset.add, ok.contains, hv, hins, Intset.len, length_map]
      generalize is.data.take (is.index v) ++ v :: is.data.drop (is.index v) = data at *
      rw [← hparse, ← formatInt64_parseInt64, hparse, hfmt] at hperm
      obtain ⟨hnd', hlen'⟩ := extend hperm (mt hmem.1 hv) hnd hlen hm
      have hlp' : (convertToListpack ⟨data, Intset.updateWidth is.width v⟩).Holds ((data.map formatInt64).map .str) :=
        holds_convertToListpack fun x hx => hlen' _ (mem_map_of_mem hx)
      simp only [hlp'.len, length_map]
      split
      · split
        · refine ⟨rfl, hnd', hlen', ?_⟩
          simp [convertToHashtable_m hlp' hnd', comp_def]
        · exact ⟨rfl, hnd', hlen', hlp', rfl⟩
      · exact ⟨rfl, hnd', hlen', hok, rfl⟩
  | listpack lp =>
    obtain ⟨members, enc⟩ := o
    obtain ⟨hlp, rfl : enc = .listpack⟩ := hrepr
    have hadd := addListpack (t := t) hlp hnd hlen hm
    by_cases hmem : member ∈ members <;> simpa [add, SetObj.add, SetObj.has, hmem] using hadd
  | hashtable d =>
    obtain rfl := hrepr
    by_cases hmem : member ∈ d.m.map fst
    · have hkeys : (putField member () d.m).map fst = d.m.map fst := by rw [keys_putField, if_pos hmem]
      simp only [add, SetObj.add, SetObj.has, hmem, decide_true, if_true, SimpleDict.put, SimpleDict.get,
        isSome_lookup_eq, true_and]
      exact ⟨hnd, hlen, by simp [hkeys]⟩
    · have hkeys : (putField member () d.m).map fst = d.m.map fst ++ [member] := by
        rw [keys_putField, if_neg hmem]
      obtain ⟨hnd', hlen'⟩ := extend (perm_append_singleton member _) hmem hnd hlen hm
      simp only [add, SetObj.add, SetObj.has, hmem, decide_false, if_false, Bool.false_eq_true,
        SimpleDict.put, SimpleDict.get, isSome_lookup_eq, SetObj.addBytes, reduceCtorEq, Bool.false_and, true_and]
      exact ⟨hnd', hlen', by simp [hkeys]⟩

theorem remove (member : Bytes) :
    (s.remove member).2 = (o.remove member).2 ∧ (s.remove member).1.Represents (o.remove member).1 := by
  have hhas := h.has member
  have hself := h
  obtain ⟨hnd, hlen, hrepr⟩ := h
  have hlen' : ∀ m ∈ o.members.filter (· ≠ member), m.length < 2 ^ 63 := fun m hm =>
    hlen m (mem_of_mem_filter hm)
  have hnd' := hnd.filter (· ≠ member)
  unfold SetObj.remove
  cases s with
  | intset is =>
    obtain ⟨ok, rfl⟩ := hrepr
    rw [← hhas]
    cases hint : isInt member with
    | none => simpa [remove, Set.has, hint] using hself
    | some v =>
      by_cases hv : v ∈ is.data
      · have hmap : (is.data.filter (· ≠ v)).map formatInt64 = (is.data.map formatInt64).filter (· ≠ member) := by
          rw [filter_map]
          congr 1
          refine filter_congr fun x hx => ?_
          have hx' := ok.isInt x hx
          have : formatInt64 x = member ↔ x = v := by
            constructor
            · intro heq
              rw [heq, hint] at hx'
              exact (Option.some.inj hx').symm
            · rintro rfl
              exact (isInt_eq_some hint).2
          simp [this]
        simp only [remove, Set.has, hint, if_true, Intset.remove, ok.contains, hv, decide_true, true_and, ok.eraseIdx hv]
        refine ⟨hnd', hlen', ⟨ok.sorted.filter _, fun x hx => ok.isInt x (mem_of_mem_filter hx)⟩, ?_⟩
        rw [hmap]
      · simpa [remove, Set.has, hint, Intset.remove, ok.contains, hv] using hself
  | listpack lp =>
    obtain ⟨newLp, hnew, hrange⟩ := remove_listpack member hrepr.1
    simp only [remove, hrange, SetObj.has]
    by_cases hmem : member ∈ o.members
    · simp only [hmem, decide_true, if_true, true_and]
      exact ⟨hnd', hlen', hnew, hrepr.2⟩
    · simpa [hmem] using hself
  | hashtable d =>
    obtain rfl := hrepr
    rw [SetObj.has]
    by_cases hmem : member ∈ d.m.map fst
    · simp only [remove, SimpleDict.remove, SimpleDict.get, isSome_lookup_eq, hmem, decide_true, if_true, true_and]
      exact ⟨hnd', hlen', by simp [keys_removeField]⟩
    have hkeys : (removeField member d.m).map fst = d.m.map fst := by
      rw [keys_removeField, filter_eq_self]
      intro k hk
      exact decide_eq_true fun heq => hmem (heq ▸ hk)
    simp only [remove, SimpleDict.remove, SimpleDict.get, isSome_lookup_eq, hmem, decide_false, if_false,
      Bool.false_eq_true, true_and]
    exact ⟨hnd, hlen, by simp [hkeys]⟩

theorem encoding : s.encoding = o.encoding := by
  obtain ⟨-, -, hrepr⟩ := h
  cases s with
  | intset is =>
    obtain ⟨-, rfl⟩ := hrepr
    rfl
  | listpack lp => exact hrepr.2.symm
  | hashtable d =>
    obtain rfl := hrepr
    rfl

end

end Represents

end Set

/-! ## Sets and finite sets -/

/-- How far the conversions have got. -/
def encodingRank : SetEncoding → Nat
  | .intset => 0
  | .listpack => 1
  | .hashtable => 2

section members

variable {t : EncodingThresholds} {o : SetObj} {member : Bytes}

theorem addBytes_members : (o.addBytes t member).members = o.members ++ [member] := by
  simp only [addBytes]
  split <;> rfl

theorem add_spec (t : EncodingThresholds) (o : SetObj) (member : Bytes) : (o.add t member).2 = (if member ∈ o.members then 0 else 1) ∧
    ∀ m, m ∈ (o.add t member).1.members ↔ m = member ∨ m ∈ o.members := by
  by_cases hmem : member ∈ o.members
  · have hself : ∀ m, m ∈ o.members ↔ m = member ∨ m ∈ o.members := fun m =>
      ⟨Or.inr, fun h => h.elim (fun heq => heq ▸ hmem) id⟩
    simp only [add, has, hmem, decide_true, if_true]
    split
    · exact ⟨rfl, hself⟩
    · exact ⟨rfl, hself⟩
  simp only [add, has, hmem, decide_false, if_false, Bool.false_eq_true]
  split
  · rename_i v _ hint
    obtain ⟨hparse, hfmt⟩ := isInt_eq_some hint
    have hitoa : itoa v = member := by rw [← hfmt, ← hparse, formatInt64_parseInt64]
    have hins : ∀ m, m ∈ sortBy.ins (fun a b => decide (parseInt64 a < parseInt64 b)) (itoa v) o.members ↔
        m = member ∨ m ∈ o.members := fun m => by
      rw [(Set.perm_ins _ _).mem_iff, mem_cons, hitoa]
    split
    · split <;> exact ⟨rfl, hins⟩
    · exact ⟨rfl, hins⟩
  · exact ⟨rfl, fun m => by simp [addBytes_members, or_comm]⟩
  · exact ⟨rfl, fun m => by simp [addBytes_members, or_comm]⟩

theorem remove_spec (o : SetObj) (member : Bytes) : (o.remove member).2 = (if member ∈ o.members then 1 else 0) ∧
    ∀ m, m ∈ (o.remove member).1.members ↔ m ≠ member ∧ m ∈ o.members := by
  by_cases hmem : member ∈ o.members
  · simp [remove, has, hmem, and_comm]
  · simp only [remove, has, hmem, decide_false, if_false, Bool.false_eq_true, true_and]
    exact fun m => ⟨fun h => ⟨fun heq => hmem (heq ▸ h), h⟩, And.right⟩

theorem rank_addBytes : encodingRank o.encoding ≤ encodingRank (o.addBytes t member).encoding := by
  simp only [addBytes]
  split
  · cases o.encoding <;> simp [encodingRank]
  · exact le_rfl

theorem rank_add : encodingRank o.encoding ≤ encodingRank (o.add t member).1.encoding := by
  unfold add
  split <;> split
  case h_3 => exact rank_addBytes
  all_goals simp_all [encodingRank]

theorem encoding_remove : (o.remove member).1.encoding = o.encoding := by
  unfold remove
  split <;> rfl

end members

/-- A call on a set. `Add` reads the thresholds afresh. -/
inductive SetOp
  | add (t : EncodingThresholds) (member : GoString)
  | remove (member : GoString)
  | has (member : GoString)
  | len

inductive SetResp
  | count (n : Nat)
  | bool (b : Bool)
deriving DecidableEq, Repr

def setMachine : Machine Set SetOp SetResp where
  step
    | s, .add t member => ((s.add t member).1, .count (s.add t member).2)
    | s, .remove member => ((s.remove member).1, .count (s.remove member).2)
    | s, .has member => (s, .bool (s.has member))
    | s, .len => (s, .count s.len)

def finsetMachine : Machine (Finset Bytes) SetOp SetResp where
  step
    | A, .add _ member => (insert member.1 A, .count (if member.1 ∈ A then 0 else 1))
    | A, .remove member => (A.erase member.1, .count (if member.1 ∈ A then 1 else 0))
    | A, .has member => (A, .bool (decide (member.1 ∈ A)))
    | A, .len => (A, .count A.card)

def SetRefines (s : Set) (A : Finset Bytes) : Prop := ∃ o, s.Represents o ∧ ∀ m, m ∈ o.members ↔ m ∈ A

namespace SetRefines

variable {s : Set} {A : Finset Bytes}

theorem len (h : SetRefines s A) : s.len = A.card := by
  obtain ⟨o, hs, hA⟩ := h
  have : o.members.toFinset = A := by
    ext m
    rw [List.mem_toFinset, hA]
  rw [hs.len, ← this, toFinset_card_of_nodup hs.nodup, SetObj.len]

theorem step : Machine.Simulates SetRefines setMachine finsetMachine := by
  rintro s A op ⟨o, hs, hA⟩
  cases op with
  | add t member =>
    obtain ⟨hcount, hadd⟩ := hs.add member.2
    obtain ⟨hspec, hmem⟩ := add_spec t o member.1
    refine ⟨?_, _, hadd, fun m => ?_⟩
    · simp [setMachine, finsetMachine, hcount, hspec, hA]
    · simp [finsetMachine, hmem, hA]
  | remove member =>
    obtain ⟨hcount, hrem⟩ := hs.remove member.1
    obtain ⟨hspec, hmem⟩ := remove_spec o member.1
    refine ⟨?_, _, hrem, fun m => ?_⟩
    · simp [setMachine, finsetMachine, hcount, hspec, hA]
    · simp [finsetMachine, hmem, hA]
  | has member =>
    refine ⟨?_, o, hs, hA⟩
    simp [setMachine, finsetMachine, hs.has, has, hA]
  | len =>
    refine ⟨?_, o, hs, hA⟩
    simp [setMachine, finsetMachine, SetRefines.len ⟨o, hs, hA⟩]

theorem new : SetRefines Set.new ∅ := ⟨_, Set.Represents.new, by simp [SetObj.new]⟩

end SetRefines

theorem rank_step {s : Set} {A : Finset Bytes} (h : SetRefines s A) (op : SetOp) :
    encodingRank s.encoding ≤ encodingRank (setMachine.step s op).1.encoding := by
  obtain ⟨o, hs, -⟩ := h
  cases op with
  | add t member =>
    rw [setMachine, hs.encoding, (hs.add member.2).2.encoding]
    exact rank_add
  | remove member =>
    rw [setMachine, hs.encoding, (hs.remove member.1).2.encoding, encoding_remove]
  | has | len => exact le_rfl

theorem rank_run {s : Set} {A : Finset Bytes} (h : SetRefines s A) (ops : List SetOp) :
    encodingRank s.encoding ≤ encodingRank (setMachine.run s ops).1.encoding := by
  induction ops generalizing s A with
  | nil => exact le_rfl
  | cons op ops ih =>
    exact (rank_step h op).trans (ih (SetRefines.step s A op h).2)

/-- `Set` refines a finite set of strings. Whatever calls are made on a new set, with whatever
thresholds, every answer is the finite set's; then `Len` is its size, `ForEach` goes through its
members, each once, and no further calls move the encoding backwards. -/
theorem set_refines_finset (ops : List SetOp) : let (s, resps) := setMachine.run Set.new ops
    let (A, resps') := finsetMachine.run ∅ ops
    resps = resps' ∧ s.len = A.card ∧
      (∀ o : MapOrder, ∃ visits : List Bytes, visits.Nodup ∧ (∀ m, m ∈ visits ↔ m ∈ A) ∧
        ∀ (σ : Type) (fn : σ → Bytes → σ × Bool) (a : σ), s.forEach o fn a = visit fn a visits) ∧
      ∀ more, encodingRank s.encoding ≤ encodingRank (setMachine.run s more).1.encoding := by
  obtain ⟨hresp, hrel⟩ := Machine.run_simulates SetRefines.step SetRefines.new ops
  refine ⟨hresp, hrel.len, fun ord => ?_, rank_run hrel⟩
  obtain ⟨o, hs, hA⟩ := hrel
  obtain ⟨visits, hperm, hvisit⟩ := hs.forEach ord
  exact ⟨visits, hperm.nodup_iff.2 hs.nodup, fun m => by rw [hperm.mem_iff, hA], fun σ fn a => hvisit fn a⟩

end Hayakv.Object
