import Hayakv.Object.Quicklist
import Hayakv.Object.Set

/-!
# Lists and their encodings

`List` of `internal/object/encoding.go`: a listpack, which every change builds anew, or a quicklist.
It refines the lists of `Engine.Object` (`Represents`), and with them sequences, with one exception:
to remove by value from a quicklist with a count that is not positive removes everything that matches,
and from a listpack nothing.
-/

namespace Hayakv.Object

open Engine List Option QuickList Listpack

/-- `List`. -/
inductive ObjectList
  | listpack (lp : Listpack)
  | quicklist (ql : QuickList Bytes)

namespace ObjectList

def new : ObjectList := .listpack .new

def listpackToBytes : Elem → Bytes
  | .str s => s
  | .int v => formatInt64 v

/-- `appendVal` of an element. -/
def appendVal (lp : Listpack) : Elem → Listpack
  | .str s => lp.appendStr s
  | .int v => lp.appendInt v

def convertToQuicklist (lp : Listpack) : QuickList Bytes :=
  lp.range (fun ql _ val => (ql.add (listpackToBytes val), true)) .new

def grown (t : EncodingThresholds) (lp : Listpack) : ObjectList :=
  if lp.len > t.listMaxListpackSize then .quicklist (convertToQuicklist lp) else .listpack lp

def add (t : EncodingThresholds) (l : ObjectList) (val : Bytes) : ObjectList :=
  match l with
  | .listpack lp => grown t (lp.appendStr val)
  | .quicklist ql => .quicklist (ql.add val)

variable (l : ObjectList)

def get (index : Int) : Option (Option Bytes) :=
  match l with
  | .listpack lp => some ((lp.get index).map listpackToBytes)
  | .quicklist ql => if index < 0 ∨ index ≥ ql.size then some none else (ql.get index).map some

def len : ObjectList → Nat
  | .listpack lp => lp.len
  | .quicklist ql => ql.size

def forEach {σ : Type} (fn : σ → Nat → Bytes → σ × Bool) (s : σ) : Option σ :=
  match l with
  | .listpack lp => some (lp.range (fun s i val => fn s i (listpackToBytes val)) s)
  | .quicklist ql => ql.forEach fn s

def insert (grow : Nat → Nat) (t : EncodingThresholds) (l : ObjectList) (index : Int) (val : Bytes) :
    Option ObjectList :=
  match l with
  | .listpack lp =>
    if index = lp.len then some (l.add t val)
    else
      let newLp := (List.range lp.len).foldl (fun newLp (i : Nat) =>
        let newLp := if (i : Int) = index then newLp.appendStr val else newLp
        match lp.get i with
        | some elem => appendVal newLp elem
        | none => newLp) .new
      some (grown t newLp)
  | .quicklist ql => (ql.insert grow index val).map .quicklist

/-- The loop of `Remove` and `RemoveLast`: the listpack without the element, and the element. -/
def removeLoop (lp : Listpack) (index : Int) : Listpack × Option Bytes :=
  visit (fun (newLp, removed) (i : Nat) => match lp.get i with
    | none => ((newLp, removed), false)
    | some elem =>
      if (i : Int) = index then ((newLp, some (listpackToBytes elem)), true)
      else ((appendVal newLp elem, removed), true)) (.new, none) (List.range lp.len)

def remove (index : Int) : Option (Option Bytes × ObjectList) :=
  match l with
  | .listpack lp =>
    if index < 0 ∨ index ≥ lp.len then some (none, l)
    else some ((removeLoop lp index).2, .listpack (removeLoop lp index).1)
  | .quicklist ql => (ql.remove index).map fun (val, ql) => (some val, .quicklist ql)

def removeLast : Option Bytes × ObjectList :=
  match l with
  | .listpack lp =>
    if lp.len = 0 then (none, l)
    else ((removeLoop lp (lp.len - 1)).2, .listpack (removeLoop lp (lp.len - 1)).1)
  | .quicklist ql => (ql.removeLast.1, .quicklist ql.removeLast.2)

def set (index : Int) (val : Bytes) : Option ObjectList :=
  match l with
  | .listpack lp => some (.listpack (visit (fun newLp (i : Nat) => match lp.get i with
      | none => (newLp, false)
      | some elem =>
        if (i : Int) = index then (newLp.appendStr val, true) else (appendVal newLp elem, true))
      .new (List.range lp.len)))
  | .quicklist ql => (ql.set index val).map .quicklist

def range (start stop : Int) : Option (List Bytes) :=
  match l with
  | .listpack lp =>
    let start := if start < 0 then 0 else start
    let stop := if stop > lp.len then (lp.len : Int) else stop
    if start ≥ stop then some []
    else
      some (((List.range (stop - start).toNat).filterMap fun (i : Nat) => lp.get (start + i)).map listpackToBytes)
  | .quicklist ql => ql.range start stop

/-- The loop of `RemoveAllByVal` and, with a count, of `RemoveByVal`. -/
def removeByValLoop (lp : Listpack) (expected : Bytes → Bool) (count : Option Int) : Listpack × Nat :=
  visit (fun (newLp, removed) (i : Nat) => match lp.get i with
    | none => ((newLp, removed), false)
    | some elem =>
      if (count.all fun c => ((removed : Nat) : Int) < c) && expected (listpackToBytes elem) then
        ((newLp, removed + 1), true)
      else ((appendVal newLp elem, removed), true)) (.new, 0) (List.range lp.len)

def removeAllByVal (expected : Bytes → Bool) : Option (ObjectList × Nat) :=
  match l with
  | .listpack lp =>
    some (.listpack (removeByValLoop lp expected none).1, (removeByValLoop lp expected none).2)
  | .quicklist ql => (ql.removeAllByVal expected).map fun (ql, n) => (.quicklist ql, n)

def removeByVal (expected : Bytes → Bool) (count : Int) : Option (ObjectList × Nat) :=
  match l with
  | .listpack lp =>
    some (.listpack (removeByValLoop lp expected (some count)).1, (removeByValLoop lp expected (some count)).2)
  | .quicklist ql => (ql.removeByVal expected count).map fun (ql, n) => (.quicklist ql, n)

/-- The first loop of `ReverseRemoveByVal`, over the elements before `i`: the indices to remove, and
how many they are. -/
def toRemove (lp : Listpack) (expected : Bytes → Bool) (count : Int) : Nat → List Nat → Nat → List Nat × Nat
  | 0, indices, removed => (indices, removed)
  | i + 1, indices, removed =>
    if (removed : Int) < count then
      if (lp.get i).any fun elem => expected (listpackToBytes elem) then
        toRemove lp expected count i (i :: indices) (removed + 1)
      else toRemove lp expected count i indices removed
    else (indices, removed)

def reverseRemoveByVal (expected : Bytes → Bool) (count : Int) : Option (ObjectList × Nat) :=
  match l with
  | .listpack lp =>
    let (indices, removed) := toRemove lp expected count lp.len [] 0
    let newLp := (List.range lp.len).foldl (fun newLp (i : Nat) =>
      if i ∈ indices then newLp
      else match lp.get i with
        | some elem => appendVal newLp elem
        | none => newLp) .new
    some (.listpack newLp, removed)
  | .quicklist ql => (ql.reverseRemoveByVal expected count).map fun (ql, n) => (.quicklist ql, n)

def isListpack : ObjectList → Bool
  | .listpack _ => true
  | .quicklist _ => false

end ObjectList

/-! ## Removing by value -/

/-- A list without its first `n` elements that are expected. -/
def removeUpTo (expected : Bytes → Bool) : Nat → List Bytes → List Bytes
  | 0, xs => xs
  | _, [] => []
  | n + 1, x :: xs => if expected x then removeUpTo expected n xs else x :: removeUpTo expected (n + 1) xs

section removing

variable {expected : Bytes → Bool} {xs : List Bytes} {removed : Nat} {count : Int}

theorem removeUpTo_nil (n : Nat) : removeUpTo expected n [] = [] := by cases n <;> rfl

theorem removeUpTo_none (n : Nat) (h : ∀ x ∈ xs, expected x = false) : removeUpTo expected n xs = xs := by
  induction xs with
  | nil => exact removeUpTo_nil n
  | cons x xs ih =>
    cases n with
    | zero => rfl
    | succ n =>
      simp [removeUpTo, h x mem_cons_self, ih fun y hy => h y (mem_cons_of_mem x hy)]

theorem removeUpTo_sublist (expected : Bytes → Bool) (xs : List Bytes) (n : Nat) : (removeUpTo expected n xs).Sublist xs := by
  induction xs generalizing n with
  | nil => rw [removeUpTo_nil]
  | cons x xs ih =>
    cases n with
    | zero => exact List.Sublist.refl _
    | succ n =>
      rw [removeUpTo]
      split
      · exact (ih n).cons x
      · exact (ih (n + 1)).cons_cons x

theorem removeUpTo_all {n : Nat} (h : xs.countP expected ≤ n) :
    removeUpTo expected n xs = xs.filter fun x => !expected x := by
  induction xs generalizing n with
  | nil => exact removeUpTo_nil n
  | cons x xs ih =>
    by_cases hx : expected x = true
    · rw [countP_cons_of_pos hx] at h
      obtain ⟨n, rfl⟩ : ∃ m, n = m + 1 := ⟨n - 1, by omega⟩
      simp [removeUpTo, hx, ih (n := n) (by omega)]
    · rw [countP_cons_of_neg hx] at h
      have htail := ih h
      cases n with
      | zero => simpa [removeUpTo, hx] using htail
      | succ n => simp [removeUpTo, hx, htail]

theorem removeFrom_all {count : Option Int} (h : ∀ n, removed < n → count ≠ some ((n : Nat) : Int)) :
    removeFrom expected count removed xs = (xs.filter fun x => !expected x, removed + xs.countP expected) := by
  induction xs generalizing removed with
  | nil => rfl
  | cons x xs ih =>
    by_cases hx : expected x = true
    · have hne := h (removed + 1) (by omega)
      rw [removeFrom, if_pos hx, if_neg hne, ih fun n hn => h n (by omega)]
      simp [hx]
      omega
    · rw [removeFrom, if_neg hx, ih h]
      simp [hx]

theorem removeFrom_count (h : (removed : Int) < count) : removeFrom expected (some count) removed xs =
      (removeUpTo expected (count - removed).toNat xs,
        removed + min (count - removed).toNat (xs.countP expected)) := by
  induction xs generalizing removed with
  | nil => simp [removeFrom, removeUpTo_nil]
  | cons x xs ih =>
    obtain ⟨n, hn⟩ : ∃ n, (count - removed).toNat = n + 1 := ⟨(count - removed).toNat - 1, by omega⟩
    by_cases hx : expected x = true
    · rw [removeFrom, if_pos hx, hn, removeUpTo, if_pos hx, countP_cons_of_pos hx]
      by_cases hlast : count = ((removed + 1 : Nat) : Int)
      · obtain rfl : n = 0 := by omega
        rw [if_pos (by rw [hlast]), removeUpTo]
        simp
      · rw [if_neg (fun heq => hlast (some.inj heq)), ih (by push_cast; omega),
          show (count - ((removed + 1 : Nat) : Int)).toNat = n by omega]
        congr 1
        omega
    · rw [removeFrom, if_neg hx, hn, removeUpTo, if_neg hx, ih h, hn, countP_cons_of_neg hx]

/-- A quicklist that is told to remove at most `count` elements does so if the count is positive, or
nothing is expected. -/
theorem removeFrom_counted (h : 0 < count ∨ ∀ x ∈ xs, expected x = false) : removeFrom expected (some count) 0 xs =
      (removeUpTo expected count.toNat xs, min count.toNat (xs.countP expected)) := by
  by_cases hpos : 0 < count
  · have hpos' : ((0 : Nat) : Int) < count := by simpa using hpos
    simpa using removeFrom_count hpos'
  have hnone := h.resolve_left hpos
  have hcountP : xs.countP expected = 0 := countP_eq_zero.2 (by simpa using hnone)
  rw [removeFrom_all fun n hn heq => hpos (by have := some.inj heq; omega), removeUpTo_none _ hnone, hcountP,
    ← removeUpTo_all hcountP.le]
  simp [removeUpTo]

end removing

/-! ## Listpacks built anew -/

section rebuilding

variable {xs : List Bytes} {lp : Listpack}

theorem foldl_at {σ : Type} (f g : σ → Bytes → σ) (s : σ) (j : Nat) {k : Nat} (hk : k < xs.length) :
    (xs.zipIdx j).foldl (fun s p => if p.2 = j + k then g s p.1 else f s p.1) s =
      (xs.drop (k + 1)).foldl f (g ((xs.take k).foldl f s) xs[k]) := by
  induction xs generalizing j k s with
  | nil => cases hk
  | cons x xs ih =>
    cases k with
    | zero =>
      have hrest : ∀ s, (xs.zipIdx (j + 1)).foldl (fun s p => if p.2 = j then g s p.1 else f s p.1) s = xs.foldl f s := by
        intro s
        have hne : ∀ (s : σ), ∀ p ∈ xs.zipIdx (j + 1), (if p.2 = j then g s p.1 else f s p.1) = f s p.1 :=
          fun s p hp => if_neg (by have := (mem_zipIdx hp).1; omega)
        rw [foldl_ext _ _ s hne, ← foldl_map, zipIdx_map_fst]
      simpa [zipIdx_cons] using hrest _
    | succ k =>
      have hrest := fun s => ih s (j + 1) (by simpa using hk)
      simp only [show j + 1 + k = j + (k + 1) by omega] at hrest
      simpa [zipIdx_cons] using hrest _

theorem filterMap_getElem? (n : Nat) : (range n).filterMap (xs[·]?) = xs.take n := by
  induction n with
  | zero => simp
  | succ n ih =>
    rw [range_succ, filterMap_append, ih, take_add_one]
    cases h : xs[n]? <;> simp [h]

theorem foldl_removeByVal {expected : Bytes → Bool} {more : Nat → Bool} {removed n : Nat} (lp : Listpack)
    (hmore : ∀ i < n, more (removed + i) = true) (hend : more (removed + n) = false ∨ xs.countP expected ≤ n) :
    xs.foldl (fun (newLp, removed) x =>
      if more removed && expected x then (newLp, removed + 1) else (newLp.appendStr x, removed)) (lp, removed) =
      ((removeUpTo expected n xs).foldl appendStr lp, removed + min n (xs.countP expected)) := by
  induction xs generalizing lp removed n with
  | nil => simp [removeUpTo_nil]
  | cons x xs ih =>
    rw [foldl_cons]
    by_cases hx : expected x = true
    · rw [countP_cons_of_pos hx] at hend ⊢
      cases n with
      | zero =>
        have hstop : more removed = false := hend.resolve_right (by omega)
        simp only [hstop, Bool.false_and, Bool.false_eq_true, if_false, removeUpTo, foldl_cons]
        rw [ih _ (n := 0) (by omega) (.inl hstop)]
        simp [removeUpTo]
      | succ n =>
        have hgo : more removed = true := hmore 0 (by omega)
        simp only [hgo, hx, Bool.and_self, if_true, removeUpTo]
        rw [ih _ (n := n) (fun i hi => by have := hmore (i + 1) (by omega); rwa [show removed + 1 + i = removed + (i + 1) by omega])
          (by rw [show removed + 1 + n = removed + (n + 1) by omega]; exact hend.imp_right (by omega))]
        congr 1
        omega
    · rw [countP_cons_of_neg hx] at hend ⊢
      simp only [hx, Bool.and_false, Bool.false_eq_true, if_false]
      rw [ih _ hmore hend]
      cases n <;> simp [removeUpTo, hx]

end rebuilding

namespace ObjectList

/-- A list represents a list of `Engine.Object`. -/
def Represents (l : ObjectList) (o : ListObj) : Prop :=
  match l with
  | .listpack lp => lp.Holds (o.elems.map .str) ∧ o.isListpack = true
  | .quicklist ql => ql.Ok ∧ ql.contents = o.elems ∧ o.isListpack = false

variable {xs : List Bytes} {lp : Listpack} {t : EncodingThresholds} {val : Bytes} {index : Int} {k : Nat}
  {expected : Bytes → Bool} {count : Int}

section

variable (h : lp.Holds (xs.map .str))
include h

theorem length_of_holds {x : Bytes} (hx : x ∈ xs) : x.length < 2 ^ 63 := h.ok (.str x) (mem_map_of_mem hx)

theorem convertToQuicklist_spec : (convertToQuicklist lp).Ok ∧ (convertToQuicklist lp).contents = xs := by
  have hadd : ∀ (xs : List Bytes) (ql : QuickList Bytes), ql.Ok →
      (xs.foldl QuickList.add ql).Ok ∧ (xs.foldl QuickList.add ql).contents = ql.contents ++ xs := by
    intro xs
    induction xs with
    | nil => exact fun ql hok => ⟨hok, by simp⟩
    | cons x xs ih =>
      intro ql hok
      obtain ⟨hok', hc⟩ := ih _ (hok.add x).1
      exact ⟨hok', by simpa [(hok.add x).2] using hc⟩
  rw [convertToQuicklist, h.range_elems fun (ql : QuickList Bytes) val => (ql.add (listpackToBytes val), true),
    visit_map, visit_all fun (ql : QuickList Bytes) (x : Bytes) => ql.add (listpackToBytes (.str x))]
  exact hadd xs .new .new

omit h in
theorem elems_grown {o : ListObj} : (o.grown t).elems = o.elems := by
  rw [ListObj.grown]
  split <;> rfl

theorem represents_grown : (grown t lp).Represents (ListObj.grown t ⟨xs, true⟩) := by
  have hlen : lp.len = xs.length := h.len.trans (length_map _)
  simp only [grown, ListObj.grown, ListObj.len, hlen, Bool.true_and]
  by_cases hbig : xs.length > t.listMaxListpackSize
  · obtain ⟨hok, hc⟩ := convertToQuicklist_spec h
    simpa [hbig, Represents] using ⟨hok, hc⟩
  · simpa [hbig, Represents] using h

theorem holds_at (new : List Bytes) (hnew : ∀ y ∈ new, y.length < 2 ^ 63) :
    ((xs.drop (k + 1)).foldl appendStr
      (new.foldl appendStr ((xs.take k).foldl appendStr .new))).Holds
        ((xs.take k ++ new ++ xs.drop (k + 1)).map .str) := by
  rw [← foldl_append, ← foldl_append, ← append_assoc]
  refine holds_foldl_new fun y hy => ?_
  rcases mem_append.1 hy with hy | hy
  · exact (mem_append.1 hy).elim (fun hy => length_of_holds h (mem_of_mem_take hy)) (hnew y)
  · exact length_of_holds h (mem_of_mem_drop hy)

end

namespace Represents

variable {l : ObjectList} {o : ListObj}

theorem new : ObjectList.new.Represents ListObj.new := ⟨holds_new, rfl⟩

section

variable (h : l.Represents o)
include h

theorem cases : (∃ lp xs, l = .listpack lp ∧ o = ⟨xs, true⟩ ∧ lp.Holds (xs.map .str) ∧ lp.len = xs.length) ∨
      ∃ ql, l = .quicklist ql ∧ o = ⟨ql.contents, false⟩ ∧ ql.Ok := by
  obtain ⟨xs, isListpack⟩ := o
  cases l with
  | listpack lp =>
    obtain ⟨hlp, rfl : isListpack = true⟩ := h
    exact .inl ⟨lp, xs, rfl, rfl, hlp, hlp.len.trans (length_map _)⟩
  | quicklist ql =>
    obtain ⟨hok, rfl, rfl : isListpack = false⟩ := h
    exact .inr ⟨ql, rfl, rfl, hok⟩

theorem add (hv : val.length < 2 ^ 63) : (l.add t val).Represents (o.add t val) := by
  rcases h.cases with ⟨lp, xs, rfl, rfl, hlp, hlen⟩ | ⟨ql, rfl, rfl, hok⟩
  · exact represents_grown (by simpa using hlp.appendStr hv)
  · exact ⟨(hok.add val).1, (hok.add val).2, rfl⟩

theorem len : l.len = o.len := by
  cases l with
  | listpack lp => exact h.1.len.trans (length_map _)
  | quicklist ql => rw [ObjectList.len, h.1.size, h.2.1, ListObj.len]

theorem get (hlo : 0 ≤ index) : l.get index = some (o.get index.toNat) := by
  obtain ⟨k, rfl⟩ := Int.eq_ofNat_of_zero_le hlo
  cases l with
  | listpack lp =>
    rw [ObjectList.get, h.1.get, getElem?_map, Option.map_map, Int.toNat_natCast, ListObj.get]
    congr 1
    exact map_id'
  | quicklist ql =>
    have hsize := h.1.size
    rw [ObjectList.get, ListObj.get, ← h.2.1, Int.toNat_natCast]
    by_cases hk : k < ql.contents.length
    · rw [if_neg (by omega), h.1.get hlo (by omega), Int.toNat_natCast, getElem?_eq_getElem hk]
      rfl
    · rw [if_pos (by omega), getElem?_eq_none (by omega)]

theorem forEach {σ : Type} (fn : σ → Nat → Bytes → σ × Bool) (s : σ) :
    l.forEach fn s = some (visit (fun s (p : Bytes × Nat) => fn s p.2 p.1) s o.elems.zipIdx) := by
  cases l with
  | listpack lp =>
    rw [ObjectList.forEach, h.1.range, zipIdx_map, visit_map]
    rfl
  | quicklist ql => rw [ObjectList.forEach, h.1.forEach, h.2.1]

omit h in
theorem insert (grow : Nat → Nat) (h : l.Represents o) (hv : val.length < 2 ^ 63) (hlo : 0 ≤ index)
    (hhi : index ≤ o.len) :
    ∃ l', l.insert grow t index val = some l' ∧ l'.Represents (o.insert t index.toNat val) := by
  obtain ⟨k, rfl⟩ := Int.eq_ofNat_of_zero_le hlo
  rw [Int.toNat_natCast]
  rcases h.cases with ⟨lp, xs, rfl, rfl, hlp, hlen⟩ | ⟨ql, rfl, rfl, hok⟩
  · have hk : ((k : Nat) : Int) ≤ xs.length := hhi
    rw [ObjectList.insert, hlen]
    by_cases hend : k = xs.length
    · refine ⟨_, if_pos (by rw [hend]), ?_⟩
      have hadd : (ObjectList.listpack lp).Represents ⟨xs, true⟩ := ⟨hlp, rfl⟩
      have hsame : ListObj.insert t ⟨xs, true⟩ k val = ListObj.add t ⟨xs, true⟩ val := by
        simp [ListObj.insert, ListObj.add, hend]
      exact hsame ▸ hadd.add hv
    have hlt : k < xs.length := by omega
    have hbuild := holds_at (k := k) hlp [val, xs[k]]
      (forall_mem_cons.2 ⟨hv, by simpa using length_of_holds hlp (getElem_mem hlt)⟩)
    rw [append_assoc, cons_append, cons_append, nil_append, ← drop_eq_getElem_cons hlt] at hbuild
    refine ⟨_, if_neg (by omega), ?_⟩
    rw [← hlen]
    have hloop := hlp.foldl_get (fun (newLp : Listpack) (i : Nat) elem =>
      let newLp := if (i : Int) = (k : Nat) then newLp.appendStr val else newLp
      match elem with
      | some elem => appendVal newLp elem
      | none => newLp) .new
    rw [hloop]
    refine represents_grown ?_
    convert hbuild using 1
    refine Eq.trans ?_ (foldl_at appendStr (fun lp x => (lp.appendStr val).appendStr x) .new 0 hlt)
    congr 1
    funext newLp p
    by_cases hp : p.2 = k <;> simp [hp, appendVal]
  · obtain ⟨ql', hins, hok', hc⟩ := hok.insert grow val hlo hhi
    refine ⟨.quicklist ql', by rw [ObjectList.insert, hins]; rfl, hok', ?_, rfl⟩
    simpa [ListObj.insert, ListObj.grown] using hc

omit h in
theorem removeLoop_spec (h : lp.Holds (xs.map .str)) (hk : k < xs.length) :
    (removeLoop lp (k : Nat)).1.Holds ((xs.eraseIdx k).map .str) ∧ (removeLoop lp (k : Nat)).2 = xs[k]? := by
  have hkeep : ∀ (ys : List Bytes) (s : Listpack × Option Bytes),
      ys.foldl (fun s x => (s.1.appendStr x, s.2)) s = (ys.foldl appendStr s.1, s.2) := by
    intro ys
    induction ys with
    | nil => exact fun _ => rfl
    | cons y ys ih => exact fun s => ih _
  have hat := foldl_at (fun (s : Listpack × Option Bytes) x => (s.1.appendStr x, s.2)) (fun s x => (s.1, some x))
    (.new, none) 0 hk
  rw [hkeep, hkeep] at hat
  have hloop : removeLoop lp (k : Nat) =
      ((xs.drop (k + 1)).foldl appendStr ((xs.take k).foldl appendStr .new), some xs[k]) := by
    refine Eq.trans (h.visit_get (fun (s : Listpack × Option Bytes) i elem =>
      if (i : Int) = (k : Nat) then ((s.1, some (listpackToBytes elem)), true)
      else ((appendVal s.1 elem, s.2), true)) (.new, none)) ((visit_eq_foldl (fun s p _ => ?_) _).trans hat)
    by_cases hp : p.2 = k <;> simp [hp, listpackToBytes, appendVal]
  have hbuild := holds_at (k := k) h [] (by simp)
  rw [append_nil, ← eraseIdx_eq_take_drop_succ] at hbuild
  rw [hloop, getElem?_eq_getElem hk]
  exact ⟨hbuild, rfl⟩

theorem remove (hk : k < o.len) :
    ∃ l', l.remove (k : Nat) = some (o.elems[k]?, l') ∧ l'.Represents ⟨o.elems.eraseIdx k, o.isListpack⟩ := by
  rcases h.cases with ⟨lp, xs, rfl, rfl, hlp, hlen⟩ | ⟨ql, rfl, rfl, hok⟩
  · replace hk : k < xs.length := hk
    obtain ⟨hholds, hval⟩ := removeLoop_spec hlp hk
    refine ⟨.listpack (removeLoop lp (k : Nat)).1, ?_, hholds, rfl⟩
    rw [ObjectList.remove, if_neg (by omega), hval]
  · replace hk : k < ql.contents.length := hk
    have hsplit : ql.contents = ql.contents.take k ++ ql.contents[k] :: ql.contents.drop (k + 1) := by
      rw [← drop_eq_getElem_cons hk, take_append_drop]
    obtain ⟨ql', hrem, hok', hc⟩ := hok.remove hsplit (show ((k : Nat) : Int) = _ by rw [length_take]; omega)
    refine ⟨.quicklist ql', by rw [ObjectList.remove, hrem]; simp [hk], hok', ?_, rfl⟩
    rw [hc, ← eraseIdx_eq_take_drop_succ]

theorem removeLast : l.removeLast.1 = o.removeLast.1 ∧ l.removeLast.2.Represents o.removeLast.2 := by
  rcases h.cases with ⟨lp, xs, rfl, rfl, hlp, hlen⟩ | ⟨ql, rfl, rfl, hok⟩
  · rw [ObjectList.removeLast]
    by_cases hnil : lp.len = 0
    · obtain rfl : xs = [] := length_eq_zero_iff.1 (by omega)
      rw [if_pos hnil]
      exact ⟨rfl, hlp, rfl⟩
    · rw [if_neg hnil, show ((lp.len : Int) - 1) = ((xs.length - 1 : Nat) : Int) by omega]
      obtain ⟨hholds, hval⟩ := removeLoop_spec hlp (k := xs.length - 1) (by omega)
      rw [← dropLast_eq_eraseIdx (by omega)] at hholds
      exact ⟨by rw [hval, ListObj.removeLast, getLast?_eq_getElem?], hholds, rfl⟩
  · obtain ⟨hok', hval, hc⟩ := hok.removeLast
    exact ⟨hval, hok', hc, rfl⟩

theorem set (hv : val.length < 2 ^ 63) (hk : k < o.len) :
    ∃ l', l.set (k : Nat) val = some l' ∧ l'.Represents (o.set k val) := by
  rcases h.cases with ⟨lp, xs, rfl, rfl, hlp, hlen⟩ | ⟨ql, rfl, rfl, hok⟩
  · replace hk : k < xs.length := hk
    have hbuild := holds_at (k := k) hlp [val] (by simpa using hv)
    rw [append_assoc, singleton_append, ← (set_eq_take_append_cons_drop.trans (if_pos hk))] at hbuild
    refine ⟨_, rfl, ?_, rfl⟩
    show Listpack.Holds _ ((xs.set k val).map .str)
    convert hbuild using 1
    refine Eq.trans (hlp.visit_get (fun (newLp : Listpack) i elem =>
      if (i : Int) = (k : Nat) then (newLp.appendStr val, true) else (appendVal newLp elem, true)) .new)
      ((visit_eq_foldl (fun newLp p _ => ?_) _).trans (foldl_at appendStr (fun lp _ => lp.appendStr val) .new 0 hk))
    by_cases hp : p.2 = k <;> simp [hp, appendVal]
  · obtain ⟨ql', hset, hok', hc⟩ := hok.set val (show (0 : Int) ≤ (k : Nat) by omega) (by exact_mod_cast hk)
    exact ⟨.quicklist ql', by rw [ObjectList.set, hset]; rfl, hok', hc, rfl⟩

theorem range {start stop : Int} (hlo : 0 ≤ start) (hlt : start < o.len) (hle : start ≤ stop)
    (hhi : stop ≤ o.len) : l.range start stop = some ((o.elems.take stop.toNat).drop start.toNat) := by
  rcases h.cases with ⟨lp, xs, rfl, rfl, hlp, hlen⟩ | ⟨ql, rfl, rfl, hok⟩
  · replace hhi : stop ≤ xs.length := hhi
    have hgets : ∀ i : Nat, (lp.get (start + i)).map listpackToBytes = (xs.drop start.toNat)[i]? := fun i => by
      rw [show start + (i : Int) = ((start.toNat + i : Nat) : Int) by omega, hlp.get, getElem?_map,
        Option.map_map, getElem?_drop]
      exact Option.map_id'
    have hstart : (if start < 0 then 0 else start) = start := if_neg (by omega)
    have hstop : (if stop > lp.len then (lp.len : Int) else stop) = stop := if_neg (by omega)
    rw [ObjectList.range, hstart, hstop, drop_take]
    by_cases heq : start ≥ stop
    · rw [if_pos heq, show stop.toNat - start.toNat = 0 by omega, take_zero]
    · rw [if_neg heq, map_filterMap]
      simp only [hgets]
      rw [show (stop - start).toNat = stop.toNat - start.toNat by omega]
      exact congrArg some (filterMap_getElem? _)
  · exact hok.range hlo hlt hle hhi

omit h in
theorem removeByValLoop_spec (h : lp.Holds (xs.map .str)) (expected : Bytes → Bool) (count : Option Int) {n : Nat}
    (hmore : ∀ i < n, (count.all fun c => ((i : Nat) : Int) < c) = true)
    (hend : (count.all fun c => ((n : Nat) : Int) < c) = false ∨ xs.countP expected ≤ n) :
    (removeByValLoop lp expected count).1.Holds ((removeUpTo expected n xs).map .str) ∧
      (removeByValLoop lp expected count).2 = min n (xs.countP expected) := by
  let more : Nat → Bool := fun r => count.all fun c => ((r : Nat) : Int) < c
  have hloop : removeByValLoop lp expected count = xs.zipIdx.foldl (fun s p =>
      if more s.2 && expected p.1 then (s.1, s.2 + 1) else (s.1.appendStr p.1, s.2)) (.new, 0) := by
    refine Eq.trans (h.visit_get (fun (s : Listpack × Nat) _ elem =>
      if more s.2 && expected (listpackToBytes elem) then ((s.1, s.2 + 1), true)
      else ((appendVal s.1 elem, s.2), true)) (.new, 0)) (visit_eq_foldl (fun s p _ => ?_) _)
    by_cases hp : (more s.2 && expected p.1) = true <;>
      simp only [listpackToBytes, appendVal, hp, if_true, if_false, Bool.false_eq_true]
  have hmore' : ∀ i < n, more (0 + i) = true := by simpa [more] using hmore
  have hend' : more (0 + n) = false ∨ xs.countP expected ≤ n := by simpa [more] using hend
  have hfold := foldl_removeByVal Listpack.new hmore' hend'
  rw [← zipIdx_map_fst 0 xs, foldl_map, zipIdx_map_fst] at hfold
  have hsub : (removeUpTo expected n xs).Sublist xs := removeUpTo_sublist expected xs n
  rw [hloop, hfold, zero_add]
  exact ⟨holds_foldl_new fun y hy => length_of_holds h (hsub.subset hy), rfl⟩

theorem removeAllByVal (expected : Bytes → Bool) (hne : o.elems ≠ []) :
    ∃ l', l.removeAllByVal expected = some (l', o.elems.countP expected) ∧
      l'.Represents ⟨o.elems.filter fun x => !expected x, o.isListpack⟩ := by
  rcases h.cases with ⟨lp, xs, rfl, rfl, hlp, hlen⟩ | ⟨ql, rfl, rfl, hok⟩
  · obtain ⟨hholds, hcount⟩ := removeByValLoop_spec hlp expected none (fun _ _ => rfl) (.inr le_rfl)
    rw [removeUpTo_all le_rfl] at hholds
    exact ⟨.listpack _, by rw [ObjectList.removeAllByVal, hcount, min_self], hholds, rfl⟩
  · obtain ⟨ql', hrem, hok', hc⟩ := hok.removeAllByVal expected hne
    rw [removeFrom_all (by simp)] at hrem hc
    exact ⟨.quicklist ql', by rw [ObjectList.removeAllByVal, hrem]; simp, hok', hc, rfl⟩

theorem removeByVal (hcount : 0 < count ∨ l.isListpack ∨ ∀ x ∈ o.elems, expected x = false) :
    ∃ l', l.removeByVal expected count = some (l', min count.toNat (o.elems.countP expected)) ∧
      l'.Represents ⟨removeUpTo expected count.toNat o.elems, o.isListpack⟩ := by
  rcases h.cases with ⟨lp, xs, rfl, rfl, hlp, hlen⟩ | ⟨ql, rfl, rfl, hok⟩
  · obtain ⟨hholds, hcount⟩ := removeByValLoop_spec hlp expected (some count)
      (n := count.toNat) (fun i hi => by simp; omega) (.inl (by simp))
    exact ⟨.listpack _, by rw [ObjectList.removeByVal, hcount], hholds, rfl⟩
  · obtain ⟨ql', hrem, hok', hc⟩ := hok.removeByVal expected count
    rw [removeFrom_counted (hcount.imp_right fun h => h.resolve_left (by simp [isListpack]))] at hrem hc
    exact ⟨.quicklist ql', by rw [ObjectList.removeByVal, hrem]; rfl, hok', hc, rfl⟩

omit h in
/-- The indices that the first loop of `ReverseRemoveByVal` collects are those of the last elements
that are expected, as many as the count allows. -/
theorem toRemove_spec (h : lp.Holds (xs.map .str)) (expected : Bytes → Bool) (count : Int) (removed : Nat)
    (indices : List Nat) {i : Nat} (hi : i ≤ xs.length) :
    ∃ js : List Nat, toRemove lp expected count i indices removed =
        (js ++ indices, removed + min (count - removed).toNat ((xs.take i).countP expected)) ∧ (∀ j ∈ js, j < i) ∧
      ((xs.take i).zipIdx.filter (·.2 ∉ js)).map Prod.fst =
        (removeUpTo expected (count - removed).toNat (xs.take i).reverse).reverse := by
  induction i generalizing indices removed with
  | zero => exact ⟨[], by simp [toRemove], by simp, by simp [removeUpTo_nil]⟩
  | succ i ih =>
    have hlt : i < xs.length := by omega
    have htake : xs.take (i + 1) = xs.take i ++ [xs[i]] := (take_append_getElem hlt).symm
    have hget : (lp.get (i : Nat)).any (fun elem => expected (listpackToBytes elem)) = expected xs[i] := by
      rw [h.get, getElem?_map, getElem?_eq_getElem hlt]
      rfl
    have hzip : (xs.take (i + 1)).zipIdx = (xs.take i).zipIdx ++ [(xs[i], i)] := by
      rw [htake, zipIdx_append, length_take, min_eq_left hlt.le, zero_add]
      rfl
    have hbelow : ∀ p ∈ (xs.take i).zipIdx, p.2 < i := fun p hp => by
      have := (mem_zipIdx hp).2.1
      simp only [length_take] at this
      omega
    rw [toRemove]
    by_cases hcount : (removed : Int) < count
    · obtain ⟨n, hn⟩ : ∃ n, (count - removed).toNat = n + 1 := ⟨(count - removed).toNat - 1, by omega⟩
      rw [if_pos hcount, hget, hzip, hn, htake, reverse_append, countP_append]
      by_cases hx : expected xs[i] = true
      · obtain ⟨js, hloop, hjs, hkept⟩ := ih (removed + 1) (i :: indices) hlt.le
        rw [show (count - ((removed + 1 : Nat) : Int)).toNat = n by omega] at hloop hkept
        refine ⟨js ++ [i], ?_, fun j hj => ?_, ?_⟩
        · rw [if_pos hx, hloop]
          simp [hx]
          omega
        · rcases mem_append.1 hj with hj | hj
          · exact (hjs j hj).trans (Nat.lt_succ_self i)
          · exact (mem_singleton.1 hj) ▸ Nat.lt_succ_self i
        · have hsame : (xs.take i).zipIdx.filter (·.2 ∉ js ++ [i]) = (xs.take i).zipIdx.filter (·.2 ∉ js) :=
            filter_congr fun p hp => by simp [(hbelow p hp).ne]
          rw [filter_append, hsame, map_append, hkept]
          simp [removeUpTo, hx]
      · obtain ⟨js, hloop, hjs, hkept⟩ := ih removed indices hlt.le
        rw [hn] at hloop hkept
        refine ⟨js, ?_, fun j hj => (hjs j hj).trans (Nat.lt_succ_self i), ?_⟩
        · rw [if_neg hx, hloop]
          simp [hx]
        · have hout : i ∉ js := fun hj => (hjs i hj).false
          rw [filter_append, map_append, hkept]
          simp [removeUpTo, hx, hout]
    · rw [if_neg hcount, show (count - removed).toNat = 0 by omega]
      refine ⟨[], by simp, by simp, ?_⟩
      have hall : (xs.take (i + 1)).zipIdx.filter (·.2 ∉ ([] : List Nat)) = (xs.take (i + 1)).zipIdx :=
        filter_eq_self.2 (by simp)
      rw [hall, zipIdx_map_fst, removeUpTo, reverse_reverse]

theorem reverseRemoveByVal (hcount : 0 < count ∨ l.isListpack ∨ ∀ x ∈ o.elems, expected x = false) :
    ∃ l', l.reverseRemoveByVal expected count = some (l', min count.toNat (o.elems.countP expected)) ∧
      l'.Represents ⟨(removeUpTo expected count.toNat o.elems.reverse).reverse, o.isListpack⟩ := by
  rcases h.cases with ⟨lp, xs, rfl, rfl, hlp, hlen⟩ | ⟨ql, rfl, rfl, hok⟩
  · obtain ⟨js, hloop, -, hkept⟩ := toRemove_spec hlp expected count 0 [] le_rfl
    rw [take_length, append_nil, zero_add, Nat.cast_zero, sub_zero] at hloop
    rw [take_length, Nat.cast_zero, sub_zero] at hkept
    rw [ObjectList.reverseRemoveByVal, hlen, hloop, ← hlen]
    refine ⟨.listpack _, rfl, ?_, rfl⟩
    have hsub : (removeUpTo expected count.toNat xs.reverse).reverse.Sublist xs := by
      simpa using (removeUpTo_sublist expected xs.reverse count.toNat).reverse
    have hbuild := holds_foldl_new fun y hy => length_of_holds hlp (hsub.subset hy)
    convert hbuild using 1
    rw [← hkept, foldl_map, foldl_filter]
    refine Eq.trans (hlp.foldl_get (fun (newLp : Listpack) i elem =>
      if i ∈ js then newLp
      else match elem with
        | some elem => appendVal newLp elem
        | none => newLp) .new) ?_
    congr 1
    funext newLp p
    by_cases hp : p.2 ∈ js <;> simp [hp, appendVal]
  · obtain ⟨ql', hrem, hok', hc⟩ := hok.reverseRemoveByVal expected count
    have hnone : 0 < count ∨ ∀ x ∈ ql.contents.reverse, expected x = false :=
      hcount.imp_right fun h x hx => h.resolve_left (by simp [ObjectList.isListpack]) x (mem_reverse.1 hx)
    rw [removeFrom_counted hnone, countP_reverse] at hrem
    rw [removeFrom_counted hnone] at hc
    exact ⟨.quicklist ql', by rw [ObjectList.reverseRemoveByVal, hrem]; rfl, hok', hc, rfl⟩

end

end Represents

end ObjectList

/-! ## Sequences -/

inductive ListOp
  | add (t : EncodingThresholds) (val : GoString)
  | insert (t : EncodingThresholds) (index : Int) (val : GoString)
  | set (index : Int) (val : GoString)
  | get (index : Int)
  | remove (index : Int)
  | removeLast
  | range (start stop : Int)
  | removeAllByVal (expected : Bytes → Bool)
  | removeByVal (expected : Bytes → Bool) (count : Int)
  | reverseRemoveByVal (expected : Bytes → Bool) (count : Int)

inductive ListResp
  | done
  | val (v : Option Bytes)
  | vals (vs : List Bytes)
  | count (n : Nat)
  deriving DecidableEq

/-- One call on a list, or none where it panics. -/
def listStep (grow : Nat → Nat) (l : ObjectList) : ListOp → Option (ObjectList × ListResp)
  | .add t val => some (l.add t val.1, .done)
  | .insert t index val => (l.insert grow t index val.1).map fun l => (l, .done)
  | .set index val => (l.set index val.1).map fun l => (l, .done)
  | .get index => (l.get index).map fun v => (l, .val v)
  | .remove index => (l.remove index).map fun (v, l) => (l, .val v)
  | .removeLast => some (l.removeLast.2, .val l.removeLast.1)
  | .range start stop => (l.range start stop).map fun vs => (l, .vals vs)
  | .removeAllByVal expected => (l.removeAllByVal expected).map fun (l, n) => (l, .count n)
  | .removeByVal expected count => (l.removeByVal expected count).map fun (l, n) => (l, .count n)
  | .reverseRemoveByVal expected count => (l.reverseRemoveByVal expected count).map fun (l, n) => (l, .count n)

/-- The calls of a list in order, or none where one panics. -/
def listRun (grow : Nat → Nat) (l : ObjectList) : List ListOp → Option (ObjectList × List ListResp)
  | [] => some (l, [])
  | op :: ops => (listStep grow l op).bind fun (l, resp) =>
    (listRun grow l ops).map fun (l, resps) => (l, resp :: resps)

def seqMachine : Machine (List Bytes) ListOp ListResp where
  step
    | xs, .add _ val => (xs ++ [val.1], .done)
    | xs, .insert _ index val => (xs.take index.toNat ++ val.1 :: xs.drop index.toNat, .done)
    | xs, .set index val => (xs.set index.toNat val.1, .done)
    | xs, .get index => (xs, .val xs[index.toNat]?)
    | xs, .remove index => (xs.eraseIdx index.toNat, .val xs[index.toNat]?)
    | xs, .removeLast => (xs.dropLast, .val xs.getLast?)
    | xs, .range start stop => (xs, .vals ((xs.take stop.toNat).drop start.toNat))
    | xs, .removeAllByVal expected => (xs.filter fun x => !expected x, .count (xs.countP expected))
    | xs, .removeByVal expected count =>
      (removeUpTo expected count.toNat xs, .count (min count.toNat (xs.countP expected)))
    | xs, .reverseRemoveByVal expected count =>
      ((removeUpTo expected count.toNat xs.reverse).reverse, .count (min count.toNat (xs.countP expected)))

def ListOp.InRange (xs : List Bytes) : ListOp → Prop
  | .insert _ index _ => 0 ≤ index ∧ index ≤ xs.length
  | .set index _ | .get index | .remove index => 0 ≤ index ∧ index < xs.length
  | .range start stop => 0 ≤ start ∧ start < xs.length ∧ start ≤ stop ∧ stop ≤ xs.length
  | .removeAllByVal _ => xs ≠ []
  | .add .. | .removeLast | .removeByVal .. | .reverseRemoveByVal .. => True

def AllInRange : List Bytes → List ListOp → Prop
  | _, [] => True
  | xs, op :: ops => op.InRange xs ∧ AllInRange (seqMachine.step xs op).1 ops

/-- A call that removes up to a count has a positive one, or is on a listpack, or has nothing to remove. -/
def ListOp.Counted (l : ObjectList) (xs : List Bytes) : ListOp → Prop
  | .removeByVal expected count | .reverseRemoveByVal expected count =>
    0 < count ∨ l.isListpack ∨ ∀ x ∈ xs, expected x = false
  | _ => True

def AllCounted (grow : Nat → Nat) : ObjectList → List Bytes → List ListOp → Prop
  | _, _, [] => True
  | l, xs, op :: ops => op.Counted l xs ∧
    ∀ l' resp, listStep grow l op = some (l', resp) → AllCounted grow l' (seqMachine.step xs op).1 ops

open ObjectList (elems_grown)

def ListRefines (l : ObjectList) (xs : List Bytes) : Prop := ∃ o, l.Represents o ∧ o.elems = xs

namespace ListRefines

variable {grow : Nat → Nat} {l : ObjectList} {xs : List Bytes} {op : ListOp}

theorem step (grow : Nat → Nat) (h : ListRefines l xs) (hrange : op.InRange xs) (hcount : op.Counted l xs) :
    ∃ l', listStep grow l op = some (l', (seqMachine.step xs op).2) ∧ ListRefines l' (seqMachine.step xs op).1 := by
  obtain ⟨o, h, rfl⟩ := h
  cases op with
  | add t val => exact ⟨_, rfl, _, h.add val.2, elems_grown⟩
  | insert t index val =>
    obtain ⟨l', hins, h'⟩ := h.insert grow val.2 hrange.1 hrange.2
    exact ⟨l', by rw [listStep, hins]; rfl, _, h', elems_grown⟩
  | set index val =>
    obtain ⟨hlo, hhi⟩ := hrange
    obtain ⟨l', hset, h'⟩ := h.set (k := index.toNat) val.2 (by rw [ListObj.len]; omega)
    rw [Int.toNat_of_nonneg hlo] at hset
    exact ⟨l', by rw [listStep, hset]; rfl, _, h', rfl⟩
  | get index => exact ⟨l, by rw [listStep, h.get hrange.1]; rfl, o, h, rfl⟩
  | remove index =>
    obtain ⟨hlo, hhi⟩ := hrange
    obtain ⟨l', hrem, h'⟩ := h.remove (k := index.toNat) (by rw [ListObj.len]; omega)
    rw [Int.toNat_of_nonneg hlo] at hrem
    exact ⟨l', by rw [listStep, hrem]; rfl, _, h', rfl⟩
  | removeLast =>
    obtain ⟨hval, h'⟩ := h.removeLast
    exact ⟨_, by rw [listStep, hval]; rfl, _, h', rfl⟩
  | range start stop =>
    obtain ⟨hlo, hlt, hle, hhi⟩ := hrange
    exact ⟨l, by rw [listStep, h.range hlo hlt hle hhi]; rfl, o, h, rfl⟩
  | removeAllByVal expected =>
    obtain ⟨l', hrem, h'⟩ := h.removeAllByVal expected hrange
    exact ⟨l', by rw [listStep, hrem]; rfl, _, h', rfl⟩
  | removeByVal expected count =>
    obtain ⟨l', hrem, h'⟩ := h.removeByVal hcount
    exact ⟨l', by rw [listStep, hrem]; rfl, _, h', rfl⟩
  | reverseRemoveByVal expected count =>
    obtain ⟨l', hrem, h'⟩ := h.reverseRemoveByVal hcount
    exact ⟨l', by rw [listStep, hrem]; rfl, _, h', rfl⟩

theorem new : ListRefines .new [] := ⟨_, .new, rfl⟩

/-- A call with a count that is not positive on a quicklist removes everything that is expected. -/
theorem resp_ne (h : ListRefines l xs) (hcount : ¬ op.Counted l xs) {l' : ObjectList} {resp : ListResp}
    (hstep : listStep grow l op = some (l', resp)) : resp ≠ (seqMachine.step xs op).2 := by
  obtain ⟨o, h, rfl⟩ := h
  cases op with
  | removeByVal expected count | reverseRemoveByVal expected count =>
    simp only [ListOp.Counted, not_or, Bool.not_eq_true] at hcount
    obtain ⟨hpos, hquick, hsome⟩ := hcount
    have hmatch : 0 < o.elems.countP expected := by
      simpa [countP_pos_iff] using hsome
    have hall : ∀ n : Nat, 0 < n → some count ≠ some ((n : Nat) : Int) := fun n hn heq =>
      hpos (by have := some.inj heq; omega)
    cases l with
    | listpack lp => exact absurd hquick (by simp [ObjectList.isListpack])
    | quicklist ql =>
      obtain ⟨hok, hc, -⟩ := h
      rw [← hc] at hmatch ⊢
      first
        | obtain ⟨ql', hrem, -⟩ := hok.removeByVal expected count
          rw [removeFrom_all hall] at hrem
          rw [listStep, ObjectList.removeByVal, hrem] at hstep
        | obtain ⟨ql', hrem, -⟩ := hok.reverseRemoveByVal expected count
          rw [removeFrom_all hall, countP_reverse] at hrem
          rw [listStep, ObjectList.reverseRemoveByVal, hrem] at hstep
      obtain rfl : resp = .count (0 + ql.contents.countP expected) := (congrArg Prod.snd (some.inj hstep)).symm
      intro heq
      have hmin : 0 + ql.contents.countP expected = min count.toNat (ql.contents.countP expected) :=
        ListResp.count.inj heq
      omega
  | _ => exact absurd trivial hcount

theorem run (h : ListRefines l xs) {ops : List ListOp} (hrange : AllInRange xs ops) (hcount : AllCounted grow l xs ops) :
    ∃ l', listRun grow l ops = some (l', (seqMachine.run xs ops).2) ∧ ListRefines l' (seqMachine.run xs ops).1 := by
  induction ops generalizing l xs with
  | nil => exact ⟨l, rfl, h⟩
  | cons op ops ih =>
    obtain ⟨l₁, hstep, h₁⟩ := h.step grow hrange.1 hcount.1
    obtain ⟨l₂, hrun, h₂⟩ := ih h₁ hrange.2 (hcount.2 _ _ hstep)
    exact ⟨l₂, by simp [listRun, hstep, hrun, Machine.run_cons], h₂⟩

theorem counted_of_run (h : ListRefines l xs) {ops : List ListOp} {l' : ObjectList} (hrange : AllInRange xs ops)
    (hrun : listRun grow l ops = some (l', (seqMachine.run xs ops).2)) : AllCounted grow l xs ops := by
  induction ops generalizing l xs with
  | nil => trivial
  | cons op ops ih =>
    rw [listRun, bind_eq_some_iff] at hrun
    obtain ⟨⟨l₁, resp⟩, hstep, hrest⟩ := hrun
    obtain ⟨⟨l₂, resps⟩, htail, heq⟩ := map_eq_some_iff.1 hrest
    obtain ⟨rfl, hresps⟩ := Prod.mk.inj heq
    obtain ⟨rfl, rfl⟩ := cons.inj hresps
    have hcount : op.Counted l xs := by
      by_contra hnot
      exact h.resp_ne hnot hstep rfl
    refine ⟨hcount, fun l'' resp' hstep' => ?_⟩
    obtain ⟨l₃, hstep₃, h₃⟩ := h.step grow hrange.1 hcount
    have hsame : l'' = l₃ ∧ l₁ = l₃ := by
      simp only [hstep₃, some.injEq, Prod.mk.injEq] at hstep hstep'
      exact ⟨hstep'.1.symm, hstep.1.symm⟩
    obtain ⟨rfl, rfl⟩ := hsame
    exact ih h₃ hrange.2 htail

end ListRefines

/-- `List` refines a sequence of strings exactly as long as no call removes up to a count that is not
positive from a quicklist with something to remove. Whatever calls are made on a new list, with whatever
thresholds and indices in range, all of them return; every answer is the sequence's, and in the end
`Len` is its length and `ForEach` goes through it. -/
theorem list_refines_sequence (grow : Nat → Nat) (ops : List ListOp) (hrange : AllInRange [] ops) :
    (∃ l, listRun grow .new ops = some (l, (seqMachine.run [] ops).2) ∧ l.len = (seqMachine.run [] ops).1.length ∧
      ∀ (σ : Type) (fn : σ → Nat → Bytes → σ × Bool) (s : σ), l.forEach fn s =
        some (visit (fun s (p : Bytes × Nat) => fn s p.2 p.1) s (seqMachine.run [] ops).1.zipIdx)) ↔
      AllCounted grow .new [] ops := by
  refine ⟨fun ⟨l, hrun, _⟩ => ListRefines.new.counted_of_run hrange hrun, fun hcount => ?_⟩
  obtain ⟨l, hrun, o, hl, ho⟩ := ListRefines.new.run hrange hcount
  refine ⟨l, hrun, ?_, fun σ fn s => ?_⟩
  · rw [hl.len, ListObj.len, ho]
  · rw [hl.forEach, ho]

/-- The calls that add `a` and `b` to a list, which makes it a quicklist, and remove `a` up to a count. -/
def addRemove (count : Int) : List ListOp :=
  let t := { defaultEncodingThresholds with listMaxListpackSize := 1 }
  [.add t ⟨"a", by decide⟩, .add t ⟨"b", by decide⟩, .removeByVal (· = "a") count]

theorem allInRange_addRemove (count : Int) : AllInRange [] (addRemove count) := ⟨trivial, trivial, trivial, trivial⟩

theorem list_refines_sequence_addRemove : AllInRange [] (addRemove 1) ∧ AllCounted id .new [] (addRemove 1) ∧
      ∃ l, listRun id .new (addRemove 1) = some (l, [.done, .done, .count 1]) ∧ l.len = 1 ∧
        ∀ (σ : Type) (fn : σ → Nat → Bytes → σ × Bool) (s : σ),
          l.forEach fn s = some (visit (fun s (p : Bytes × Nat) => fn s p.2 p.1) s [("b", 0)]) :=
  have hcount : AllCounted id .new [] (addRemove 1) :=
    ⟨trivial, fun _ _ _ => ⟨trivial, fun _ _ _ => ⟨.inl (by decide), fun _ _ _ => trivial⟩⟩⟩
  ⟨allInRange_addRemove 1, hcount, (list_refines_sequence id _ (allInRange_addRemove 1)).2 hcount⟩

/-- To remove at most no elements from a quicklist removes the one that matches. -/
theorem removeByVal_zero_removes : ¬ ∀ (grow : Nat → Nat) (ops : List ListOp), AllInRange [] ops →
      ∃ l, listRun grow .new ops = some (l, (seqMachine.run [] ops).2) := by
  intro h
  obtain ⟨l, hrun⟩ := h id (addRemove 0) (allInRange_addRemove 0)
  have hresps : (listRun id .new (addRemove 0)).map Prod.snd = some (seqMachine.run [] (addRemove 0)).2 := by
    rw [hrun]
    rfl
  exact absurd hresps (by decide)

end Hayakv.Object
