import Hayakv.Lib.Visit
import Mathlib.Tactic.Ring

/-!
# Quicklists

`internal/datastruct/list/quicklist.go`: a list of pages. An iterator is a page and an offset in it;
it may stand on an element, behind the last one or before the first one (`At`). With what it sees,
removes and where it moves to, every loop over a quicklist is one over the list of its elements
(`contents`).

A page has a capacity. `append` past it makes a new page, of a capacity that `grow` says; nothing
depends on it but where `Add` starts a new page. A panic is `none`.
-/

namespace Hayakv.Object

open List Option

variable {V : Type}

def pageSize : Nat := 1024

structure Page (V : Type) where
  vals : List V
  cap : Nat
deriving DecidableEq, Repr

structure QuickList (V : Type) where
  data : List (Page V)
  size : Nat
deriving DecidableEq, Repr

/-- `iterator`: the number of its page, `none` for a nil node, and the offset. -/
structure Iterator where
  node : Option Nat
  offset : Int
deriving DecidableEq, Repr

namespace QuickList

def new : QuickList V := ⟨[], 0⟩

variable (ql : QuickList V)

def add (val : V) : QuickList V :=
  match ql.data.getLast? with
  | none => ⟨[⟨[val], pageSize⟩], ql.size + 1⟩
  | some back =>
    if back.vals.length = back.cap then ⟨ql.data ++ [⟨[val], pageSize⟩], ql.size + 1⟩
    else ⟨ql.data.dropLast ++ [⟨back.vals ++ [val], back.cap⟩], ql.size + 1⟩

/-- The loop of `find` from the front: the number of the page and where it begins. -/
def findFront (index : Int) : List (Page V) → Nat → Int → Option (Nat × Int)
  | [], _, _ => none
  | page :: pages, n, pageBeg =>
    if pageBeg + page.vals.length > index then some (n, pageBeg)
    else findFront index pages (n + 1) (pageBeg + page.vals.length)

/-- The loop of `find` from the back, over the pages in reverse. -/
def findBack (index : Int) : List (Page V) → Int → Option (Nat × Int)
  | [], _ => none
  | page :: pages, pageBeg =>
    if pageBeg - page.vals.length ≤ index then some (pages.length, pageBeg - page.vals.length)
    else findBack index pages (pageBeg - page.vals.length)

def find (index : Int) : Option Iterator :=
  if index < 0 ∨ index ≥ ql.size then none
  else
    (if index < (ql.size / 2 : Nat) then findFront index ql.data 0 0
      else findBack index ql.data.reverse ql.size).map fun (n, pageBeg) => ⟨some n, index - pageBeg⟩

def front : Option Nat := if ql.data = [] then none else some 0

def back : Option Nat := if ql.data = [] then none else some (ql.data.length - 1)

end QuickList

namespace Iterator

variable (it : Iterator)

def page (ql : QuickList V) : Option (Page V) := it.node.bind fun n => ql.data[n]?

def get (ql : QuickList V) : Option V :=
  (it.page ql).bind fun page => if it.offset < 0 then none else page.vals[it.offset.toNat]?

/-- `next`, with whether the iterator is in bound. -/
def next (ql : QuickList V) : Option (Bool × Iterator) :=
  (it.page ql).map fun page =>
    if it.offset < page.vals.length - 1 then (true, { it with offset := it.offset + 1 })
    else if it.node = ql.back then (false, { it with offset := page.vals.length })
    else (true, ⟨it.node.map (· + 1), 0⟩)

/-- `prev`, with whether the iterator is in bound. -/
def prev (ql : QuickList V) : Option (Bool × Iterator) :=
  if it.offset > 0 then some (true, { it with offset := it.offset - 1 })
  else if it.node = ql.front then some (false, { it with offset := -1 })
  else
    let node := it.node.bind fun n => if n = 0 then none else some (n - 1)
    (page ⟨node, 0⟩ ql).map fun prevPage => (true, ⟨node, prevPage.vals.length - 1⟩)

def atEnd (ql : QuickList V) : Bool :=
  ql.data = [] || (it.node = ql.back && (it.page ql).any fun page => it.offset = page.vals.length)

def atBegin (ql : QuickList V) : Bool := ql.data = [] || (it.node = ql.front && it.offset = -1)

def set (ql : QuickList V) (val : V) : Option (QuickList V) :=
  it.node.bind fun n => ql.data[n]?.bind fun page =>
    if 0 ≤ it.offset ∧ it.offset < page.vals.length then
      some { ql with data := ql.data.set n ⟨page.vals.set it.offset.toNat val, page.cap⟩ }
    else none

/-- `remove`: the value, the list without it, and where the iterator stands then. -/
def remove (ql : QuickList V) : Option (V × QuickList V × Iterator) :=
  it.node.bind fun n => ql.data[n]?.bind fun page => (it.get ql).map fun val =>
    let vals := page.vals.eraseIdx it.offset.toNat
    if vals.length > 0 then
      let ql' : QuickList V := ⟨ql.data.set n ⟨vals, page.cap⟩, ql.size - 1⟩
      if it.offset = vals.length ∧ some n ≠ ql.back then (val, ql', ⟨some (n + 1), 0⟩) else (val, ql', it)
    else
      let ql' : QuickList V := ⟨ql.data.eraseIdx n, ql.size - 1⟩
      if some n = ql.back then
        match n with
        | 0 => (val, ql', ⟨none, 0⟩)
        | n + 1 => (val, ql', ⟨some n, ((ql.data[n]?.map fun page => page.vals.length).getD 0 : Nat)⟩)
      else (val, ql', ⟨some n, 0⟩)

end Iterator

namespace QuickList

def get (ql : QuickList V) (index : Int) : Option V := (ql.find index).bind fun it => it.get ql

def set (ql : QuickList V) (index : Int) (val : V) : Option (QuickList V) :=
  (ql.find index).bind fun it => it.set ql val

/-- `append(page[:i+1], page[i:]...)` and `page[i] = val`. -/
def Page.insert (grow : Nat → Nat) (page : Page V) (i : Nat) (val : V) : Page V :=
  ⟨page.vals.take i ++ val :: page.vals.drop i,
    if page.vals.length + 1 ≤ page.cap then page.cap else grow (page.vals.length + 1)⟩

/-- `Insert`. A full page is split into two. -/
def insert (grow : Nat → Nat) (ql : QuickList V) (index : Int) (val : V) : Option (QuickList V) :=
  if index = ql.size then some (ql.add val)
  else
    (ql.find index).bind fun it => it.node.bind fun n => ql.data[n]?.map fun page =>
      let offset := it.offset.toNat
      if page.vals.length < pageSize then
        ⟨ql.data.set n (Page.insert grow page offset val), ql.size + 1⟩
      else
        let nextPage : Page V := ⟨page.vals.drop (pageSize / 2), grow (page.vals.length - pageSize / 2)⟩
        let page : Page V := ⟨page.vals.take (pageSize / 2), page.cap⟩
        let (page, nextPage) :=
          if offset < page.vals.length then (Page.insert grow page offset val, nextPage)
          else (page, Page.insert grow nextPage (offset - pageSize / 2) val)
        ⟨ql.data.take n ++ page :: nextPage :: ql.data.drop (n + 1), ql.size + 1⟩

def remove (ql : QuickList V) (index : Int) : Option (V × QuickList V) :=
  (ql.find index).bind fun it => (it.remove ql).map fun (val, ql, _) => (val, ql)

/-- `RemoveLast`: the value is `nil` for an empty list. -/
def removeLast (ql : QuickList V) : Option V × QuickList V :=
  if ql.size = 0 then (none, ql)
  else
    match ql.data.getLast? with
    | none => (none, ql)
    | some lastPage =>
      if lastPage.vals.length = 1 then (lastPage.vals.head?, ⟨ql.data.dropLast, ql.size - 1⟩)
      else
        (lastPage.vals.getLast?, ⟨ql.data.dropLast ++ [⟨lastPage.vals.dropLast, lastPage.cap⟩], ql.size - 1⟩)

/-- The loop of `RemoveAllByVal` and, with a count, of `RemoveByVal`. Every round removes an element or
goes on to the next. -/
def removeLoop (expected : V → Bool) (count : Option Int) :
    Nat → QuickList V → Iterator → Nat → Option (QuickList V × Nat)
  | 0, _, _, _ => none
  | fuel + 1, ql, it, removed =>
    if it.atEnd ql then some (ql, removed)
    else
      (it.get ql).bind fun val =>
        if expected val then
          (it.remove ql).bind fun (_, ql, it) =>
            if count = some ((removed + 1 : Nat) : Int) then some (ql, removed + 1)
            else removeLoop expected count fuel ql it (removed + 1)
        else (it.next ql).bind fun (_, it) => removeLoop expected count fuel ql it removed

def removeAllByVal (ql : QuickList V) (expected : V → Bool) : Option (QuickList V × Nat) :=
  (ql.find 0).bind fun it => removeLoop expected none (ql.size + 1) ql it 0

def removeByVal (ql : QuickList V) (expected : V → Bool) (count : Int) : Option (QuickList V × Nat) :=
  if ql.size = 0 then some (ql, 0)
  else (ql.find 0).bind fun it => removeLoop expected (some count) (ql.size + 1) ql it 0

/-- The loop of `ReverseRemoveByVal`. -/
def reverseRemoveLoop (expected : V → Bool) (count : Int) :
    Nat → QuickList V → Iterator → Nat → Option (QuickList V × Nat)
  | 0, _, _, _ => none
  | fuel + 1, ql, it, removed =>
    if it.atBegin ql then some (ql, removed)
    else
      (it.get ql).bind fun val =>
        if expected val then
          (it.remove ql).bind fun (_, ql, it) =>
            if ((removed + 1 : Nat) : Int) = count then some (ql, removed + 1)
            else (it.prev ql).bind fun (_, it) => reverseRemoveLoop expected count fuel ql it (removed + 1)
        else (it.prev ql).bind fun (_, it) => reverseRemoveLoop expected count fuel ql it removed

def reverseRemoveByVal (ql : QuickList V) (expected : V → Bool) (count : Int) : Option (QuickList V × Nat) :=
  if ql.size = 0 then some (ql, 0)
  else (ql.find (ql.size - 1)).bind fun it => reverseRemoveLoop expected count (ql.size + 1) ql it 0

/-- The loop of `ForEach`. -/
def forEachLoop {σ : Type} (consumer : σ → Nat → V → σ × Bool) (ql : QuickList V) :
    Nat → Iterator → Nat → σ → Option σ
  | 0, _, _, _ => none
  | fuel + 1, it, i, s =>
    (it.get ql).bind fun val =>
      if (consumer s i val).2 then
        (it.next ql).bind fun (inBound, it) =>
          if inBound then forEachLoop consumer ql fuel it (i + 1) (consumer s i val).1
          else some (consumer s i val).1
      else some (consumer s i val).1

def forEach {σ : Type} (ql : QuickList V) (consumer : σ → Nat → V → σ × Bool) (s : σ) : Option σ :=
  if ql.size = 0 then some s
  else (ql.find 0).bind fun it => forEachLoop consumer ql ql.size it 0 s

/-- The loop of `Range` over `n` more elements. -/
def rangeLoop (ql : QuickList V) : Nat → Iterator → Option (List V)
  | 0, _ => some []
  | n + 1, it =>
    (it.get ql).bind fun val => (it.next ql).bind fun (_, it) => (rangeLoop ql n it).map (val :: ·)

def range (ql : QuickList V) (start stop : Int) : Option (List V) :=
  if start < 0 ∨ start ≥ ql.size then none
  else if stop < start ∨ stop > ql.size then none
  else (ql.find start).bind fun it => rangeLoop ql (stop - start).toNat it

end QuickList

/-! ## Positions -/

def flat (pages : List (Page V)) : List V := pages.flatMap Page.vals

@[simp] theorem flat_nil : flat ([] : List (Page V)) = [] := rfl

@[simp] theorem flat_cons (page : Page V) (pages : List (Page V)) : flat (page :: pages) = page.vals ++ flat pages :=
  rfl

@[simp] theorem flat_append (ps qs : List (Page V)) : flat (ps ++ qs) = flat ps ++ flat qs := by simp [flat]

def QuickList.contents (ql : QuickList V) : List V := flat ql.data

/-- No page is empty, and the size is the number of elements. -/
structure QuickList.Ok (ql : QuickList V) : Prop where
  pages : ∀ page ∈ ql.data, page.vals ≠ []
  size : ql.size = ql.contents.length

theorem QuickList.Ok.page_pos {ql : QuickList V} (ok : ql.Ok) {pg : Page V} (h : pg ∈ ql.data) : 0 < pg.vals.length :=
  length_pos_of_ne_nil (ok.pages pg h)

theorem QuickList.Ok.replace {ql : QuickList V} (ok : ql.Ok) (pages : List (Page V)) {pre post : List (Page V)}
    {pg : Page V} {n : Nat} (hdata : ql.data = pre ++ pg :: post) (hpages : ∀ page ∈ pages, page.vals ≠ [])
    (hn : n + pg.vals.length = ql.size + (flat pages).length) : (⟨pre ++ pages ++ post, n⟩ : QuickList V).Ok := by
  have hsize := ok.size
  refine ⟨fun page hp => ?_, ?_⟩
  · rcases mem_append.1 hp with hp | hp
    · rcases mem_append.1 hp with hp | hp
      · exact ok.pages page (by simp [hdata, hp])
      · exact hpages page hp
    · exact ok.pages page (by simp [hdata, hp])
  · simp only [QuickList.contents, hdata, flat_append, flat_cons, length_append] at hsize ⊢
    omega

namespace Iterator

/-- The iterator is on element `o` of a page. -/
structure On (it : Iterator) (ql : QuickList V) (pre : List (Page V)) (page : Page V) (post : List (Page V))
    (o : Nat) : Prop where
  data : ql.data = pre ++ page :: post
  node : it.node = some pre.length
  offset : it.offset = o
  lt : o < page.vals.length

/-- The iterator is at position `p`: on an element, behind the last or before the first. -/
inductive At (it : Iterator) (ql : QuickList V) (p : Int) : Prop
  | on {pre : List (Page V)} {page : Page V} {post : List (Page V)} {o : Nat} (h : it.On ql pre page post o)
      (hp : p = (flat pre).length + o)
  | atEnd {pre : List (Page V)} {page : Page V} (data : ql.data = pre ++ [page]) (node : it.node = some pre.length)
      (offset : it.offset = page.vals.length) (hp : p = ql.contents.length)
  | atBegin {page : Page V} {post : List (Page V)} (data : ql.data = page :: post) (node : it.node = some 0) (offset : it.offset = -1)
      (hp : p = -1)
  | empty (data : ql.data = []) (node : it.node = none) (offset : it.offset ≤ 0)

variable {ql : QuickList V} {it : Iterator} {pre post : List (Page V)} {pg : Page V} {p : Int} {o : Nat}

section

variable (h : it.On ql pre pg post o)
include h

theorem On.contents : ql.contents = flat pre ++ pg.vals ++ flat post := by
  simp [QuickList.contents, h.data]

theorem On.length : ql.contents.length = (flat pre).length + pg.vals.length + (flat post).length := by
  rw [h.contents, length_append, length_append]

theorem On.page : it.page ql = some pg := by
  simp [Iterator.page, h.node, h.data]

theorem On.getElem? : ql.data[pre.length]? = some pg := by
  simp [h.data]

theorem On.set (pg' : Page V) : ql.data.set pre.length pg' = pre ++ [pg'] ++ post := by
  simp [h.data]

theorem On.get : it.get ql = some (pg.vals.get ⟨o, h.lt⟩) := by
  simp [Iterator.get, h.page, h.offset, h.lt]

theorem On.back : it.node = ql.back ↔ post = [] := by
  simp only [h.node, QuickList.back, h.data]
  cases post <;> simp

end

theorem At.first (hdata : ql.data = pre ++ pg :: post) (hpos : 0 < pg.vals.length) (hp : p = (flat pre).length) :
    At ⟨some pre.length, 0⟩ ql p :=
  .on ⟨hdata, rfl, rfl, hpos⟩ (by simpa using hp)

theorem At.on_of_lt (h : it.At ql p) (hlo : 0 ≤ p) (hhi : p < ql.contents.length) :
    ∃ pre page post o, it.On ql pre page post o ∧ p = (flat pre).length + o := by
  cases h with
  | on h hp => exact ⟨_, _, _, _, h, hp⟩
  | atEnd data node offset hp => omega
  | atBegin data node offset hp => omega
  | empty data =>
    simp only [QuickList.contents, data, flat_nil, length_nil] at hhi
    omega

theorem At.get (h : it.At ql p) {xs ys : List V} {v : V} (hc : ql.contents = xs ++ v :: ys)
    (hp : p = xs.length) : it.get ql = some v := by
  obtain ⟨pre, page, post, o, hon, hpos⟩ := h.on_of_lt (by omega) (by rw [hc]; simp; omega)
  have hidx : ql.contents[(flat pre).length + o]? = some v := by
    rw [hc, show (flat pre).length + o = xs.length by omega]
    simp
  rw [hon.contents, append_assoc, getElem?_append_right (by omega),
    getElem?_append_left (by simpa using hon.lt)] at hidx
  rw [hon.get]
  simpa [hon.lt] using hidx

theorem At.atEnd_iff (h : it.At ql p) (hlo : 0 ≤ p) : it.atEnd ql = true ↔ ql.contents.length ≤ p := by
  cases h with
  | on h hp =>
    have hlt := h.lt
    have hlen := h.length
    have hend : it.atEnd ql = false := by
      simp only [Iterator.atEnd, h.data, h.page, any_some, h.offset, Bool.or_eq_false_iff, Bool.and_eq_false_iff,
        decide_eq_false_iff_not]
      exact ⟨by simp, Or.inr (by omega)⟩
    simp only [hend, Bool.false_eq_true, false_iff]
    omega
  | atEnd data node offset hp =>
    refine ⟨fun _ => hp.ge, fun _ => ?_⟩
    simp [Iterator.atEnd, Iterator.page, QuickList.back, node, data, offset]
  | atBegin data node offset hp => omega
  | empty data => simp [Iterator.atEnd, QuickList.contents, data, hlo]

theorem At.atBegin_iff (h : it.At ql p) (hhi : p < ql.contents.length) : it.atBegin ql = true ↔ p < 0 := by
  cases h with
  | on h hp =>
    have hbegin : it.atBegin ql = false := by
      simp only [Iterator.atBegin, h.data, h.offset, Bool.or_eq_false_iff, Bool.and_eq_false_iff, decide_eq_false_iff_not]
      exact ⟨by simp, Or.inr (by omega)⟩
    simp only [hbegin, Bool.false_eq_true, false_iff]
    omega
  | atEnd data node offset hp => omega
  | atBegin data node offset hp => simp [Iterator.atBegin, QuickList.front, node, data, offset, hp]
  | empty data =>
    rw [QuickList.contents, data] at hhi
    simpa [Iterator.atBegin, data] using hhi

theorem At.next (ok : ql.Ok) {xs ys : List V} {v : V} (h : it.At ql xs.length) (hc : ql.contents = xs ++ v :: ys) :
    ∃ inBound it', it.next ql = some (inBound, it') ∧ it'.At ql (xs ++ [v]).length ∧ inBound = decide (ys ≠ []) := by
  obtain ⟨pre, pg, post, o, hon, hp⟩ := h.on_of_lt (by omega) (by rw [hc]; simp)
  have hlen := hon.length
  rw [hc, length_append, length_cons] at hlen
  have hlt := hon.lt
  rw [length_append, length_singleton, Nat.cast_add]
  by_cases hin : o + 1 < pg.vals.length
  · refine ⟨true, { it with offset := it.offset + 1 }, ?_, ?_, ?_⟩
    · rw [Iterator.next, hon.page, map_some, if_pos (by rw [hon.offset]; omega)]
    · exact .on ⟨hon.data, hon.node, by simp [hon.offset], hin⟩ (by push_cast; omega)
    · simpa using length_pos_iff.1 (show 0 < ys.length by omega)
  cases post with
  | nil =>
    rw [flat_nil, length_nil] at hlen
    refine ⟨false, { it with offset := pg.vals.length }, ?_, .atEnd hon.data hon.node rfl ?_, ?_⟩
    · rw [Iterator.next, hon.page, map_some, if_neg (by rw [hon.offset]; omega), if_pos (hon.back.2 rfl)]
    · rw [hc, length_append, length_cons]
      omega
    · simpa using length_eq_zero_iff.1 (show ys.length = 0 by omega)
  | cons pg' post =>
    rw [flat_cons, length_append] at hlen
    have hpos : 0 < pg'.vals.length := ok.page_pos (by simp [hon.data])
    have hdata : ql.data = pre ++ [pg] ++ pg' :: post := by simp [hon.data]
    refine ⟨true, ⟨some (pre ++ [pg]).length, 0⟩, ?_, .first hdata hpos ?_, ?_⟩
    · rw [Iterator.next, hon.page, map_some, if_neg (by rw [hon.offset]; omega),
        if_neg (by rw [hon.back]; simp), hon.node]
      simp
    · simp only [flat_append, flat_cons, flat_nil, append_nil, length_append]
      omega
    · simpa using length_pos_iff.1 (show 0 < ys.length by omega)

theorem At.prev (ok : ql.Ok) (h : it.At ql p) (hlo : 0 ≤ p) :
    ∃ inBound it', it.prev ql = some (inBound, it') ∧ it'.At ql (p - 1) := by
  cases h with
  | @on pre pg post o h hp =>
    have hlt := h.lt
    cases o with
    | succ o =>
      refine ⟨true, { it with offset := it.offset - 1 }, if_pos (by rw [h.offset]; push_cast; omega), ?_⟩
      exact .on (o := o) ⟨h.data, h.node, by simp [h.offset], by omega⟩ (by push_cast at hp; omega)
    | zero =>
      have hoff : ¬it.offset > 0 := by rw [h.offset]; simp
      rcases eq_nil_or_concat pre with rfl | ⟨pre, pg', rfl⟩
      · refine ⟨false, { it with offset := -1 }, ?_, ?_⟩
        · rw [Iterator.prev, if_neg hoff, if_pos]
          simp [h.node, QuickList.front, h.data]
        · exact .atBegin h.data h.node rfl (by simpa using hp)
      have hpos : 0 < pg'.vals.length := ok.page_pos (by simp [h.data])
      have hdata : ql.data = pre ++ pg' :: pg :: post := by simp [h.data]
      have hnode : it.node = some (pre.length + 1) := by simp [h.node]
      refine ⟨true, ⟨some pre.length, pg'.vals.length - 1⟩, ?_, ?_⟩
      · rw [Iterator.prev, if_neg hoff, if_neg]
        · simp [hnode, Iterator.page, hdata]
        · simp [hnode, QuickList.front, hdata]
      · have hon' : Iterator.On ⟨some pre.length, pg'.vals.length - 1⟩ ql pre pg' (pg :: post)
            (pg'.vals.length - 1) := ⟨hdata, rfl, by simp only []; omega, by omega⟩
        refine .on hon' ?_
        simp only [concat_eq_append, flat_append, flat_cons, flat_nil, append_nil, length_append] at hp
        omega
  | @atEnd pre pg data node offset hp =>
    have hpos : 0 < pg.vals.length := ok.page_pos (by simp [data])
    refine ⟨true, { it with offset := it.offset - 1 }, if_pos (by rw [offset]; omega), ?_⟩
    have hon : Iterator.On { it with offset := it.offset - 1 } ql pre pg [] (pg.vals.length - 1) :=
      ⟨data, node, by simp only [offset]; omega, by omega⟩
    refine .on hon ?_
    simp only [QuickList.contents, data, flat_append, flat_cons, flat_nil, append_nil, length_append] at hp
    omega
  | atBegin data node offset hp => omega
  | empty data node offset =>
    refine ⟨false, { it with offset := -1 }, ?_, .empty data node (by simp)⟩
    rw [Iterator.prev, if_neg (by omega), if_pos]
    simp [node, QuickList.front, data]

theorem At.remove (ok : ql.Ok) (h : it.At ql p) {xs ys : List V} {v : V}
    (hc : ql.contents = xs ++ v :: ys) (hp : p = xs.length) :
    ∃ ql' it', it.remove ql = some (v, ql', it') ∧ ql'.contents = xs ++ ys ∧ ql'.Ok ∧ it'.At ql' p := by
  have hget := h.get hc hp
  obtain ⟨pre, pg, post, o, hon, hpos⟩ := h.on_of_lt (by omega) (by rw [hc]; simp; omega)
  have hlt := hon.lt
  have hvals : (pg.vals.eraseIdx o).length = pg.vals.length - 1 := length_eraseIdx_of_lt hlt
  -- the elements without this one
  have hrest : flat pre ++ pg.vals.eraseIdx o ++ flat post = xs ++ ys := by
    have herase : (flat pre ++ (pg.vals ++ flat post)).eraseIdx ((flat pre).length + o) =
        (xs ++ v :: ys).eraseIdx ((flat pre).length + o) := by
      rw [← append_assoc, ← hon.contents, hc]
    rw [eraseIdx_append_of_length_le (Nat.le_add_right _ _), Nat.add_sub_cancel_left,
      eraseIdx_append_of_lt_length hlt] at herase
    rw [append_assoc, herase, show (flat pre).length + o = xs.length by omega,
      eraseIdx_append_of_length_le le_rfl, Nat.sub_self, eraseIdx_cons_zero]
  have hlen := hon.length
  have hsize := ok.size
  have hback : some pre.length = ql.back ↔ post = [] := by rw [← hon.node]; exact hon.back
  have herase : ql.data.eraseIdx pre.length = pre ++ post := by
    rw [hon.data, eraseIdx_append_of_length_le le_rfl, Nat.sub_self, eraseIdx_cons_zero]
  simp only [Iterator.remove, hon.node, bind_some, hon.getElem?, hget, map_some, hon.offset,
    Int.toNat_natCast, hon.set, herase, ne_eq, hback]
  -- whatever page is left of this one, and where the iterator is if nothing comes after it
  have hleft : ∀ pages : List (Page V), (∀ page ∈ pages, page.vals ≠ []) → flat pages = pg.vals.eraseIdx o →
      (⟨pre ++ pages ++ post, ql.size - 1⟩ : QuickList V).contents = xs ++ ys ∧
      (⟨pre ++ pages ++ post, ql.size - 1⟩ : QuickList V).Ok := fun pages hne hflat =>
    ⟨by simpa [QuickList.contents, hflat] using hrest, ok.replace _ hon.data hne (by rw [hflat]; omega)⟩
  have hbehind : post = [] → o = (pg.vals.eraseIdx o).length → p = (xs ++ ys).length := by
    rintro rfl ho
    rw [← hrest, flat_nil, append_nil, length_append]
    omega
  by_cases hempty : (pg.vals.eraseIdx o).length > 0
  · rw [if_pos hempty]
    obtain ⟨hcontents, hok⟩ := hleft [⟨pg.vals.eraseIdx o, pg.cap⟩] (by simpa using length_pos_iff.1 hempty) (by simp)
    by_cases hlast : (o : Int) = (pg.vals.eraseIdx o).length ∧ post ≠ []
    · -- the last element of a page, which has a next page
      rw [if_pos hlast]
      obtain ⟨pg', post, rfl⟩ := exists_cons_of_ne_nil hlast.2
      have hfirst := At.first (p := p) (show (⟨pre ++ [⟨pg.vals.eraseIdx o, pg.cap⟩] ++ pg' :: post, ql.size - 1⟩ :
        QuickList V).data = _ from rfl) (ok.page_pos (by simp [hon.data])) (by simp; omega)
      rw [length_append] at hfirst
      exact ⟨_, _, rfl, hcontents, hok, hfirst⟩
    · rw [if_neg hlast]
      refine ⟨_, _, rfl, hcontents, hok, ?_⟩
      by_cases hend : o < (pg.vals.eraseIdx o).length
      · exact .on ⟨append_assoc .., hon.node, hon.offset, hend⟩ hpos
      have hpost : post = [] := by
        by_contra hne
        exact hlast ⟨by omega, hne⟩
      subst hpost
      refine .atEnd (append_nil _) hon.node (by rw [hon.offset]; simp only []; omega) ?_
      rw [hcontents]
      exact hbehind rfl (by omega)
  · rw [if_neg hempty]
    have hnil : pg.vals.eraseIdx o = [] := length_eq_zero_iff.1 (by omega)
    obtain ⟨hcontents, hok⟩ := hleft [] (by simp) hnil.symm
    rw [append_nil] at hcontents hok
    cases post with
    | nil =>
      rcases eq_nil_or_concat pre with rfl | ⟨pre, q, rfl⟩
      · exact ⟨_, _, rfl, hcontents, hok, .empty rfl rfl le_rfl⟩
      have hq : ql.data[pre.length]? = some q := by simp [hon.data]
      simp only [concat_eq_append, length_append, length_singleton] at hcontents hok ⊢
      have hdata : pre ++ [q] ++ [] = pre ++ [q] := append_nil _
      refine ⟨_, _, rfl, hcontents, hok, .atEnd hdata rfl (by simp [hq]) ?_⟩
      rw [hcontents]
      exact hbehind rfl (by omega)
    | cons pg' post =>
      exact ⟨_, _, rfl, hcontents, hok, .first rfl (ok.page_pos (by simp [hon.data])) (by omega)⟩

end Iterator

namespace QuickList

variable {ql : QuickList V} {index : Int} {val : V}

/-! ## Searches -/

theorem findFront_spec {pre pages : List (Page V)} (hlo : (flat pre).length ≤ index)
    (hhi : index < (flat pre).length + (flat pages).length) : ∃ pre' pg post, pre ++ pages = pre' ++ pg :: post ∧
      findFront index pages pre.length (flat pre).length = some (pre'.length, ((flat pre').length : Int)) ∧
      (flat pre').length ≤ index ∧ index < (flat pre').length + pg.vals.length := by
  induction pages generalizing pre with
  | nil =>
    simp only [flat_nil, length_nil] at hhi
    omega
  | cons pg pages ih =>
    by_cases hin : ((flat pre).length + pg.vals.length : Int) > index
    · exact ⟨pre, pg, pages, rfl, by rw [findFront, if_pos hin], hlo, hin⟩
    have hbeg : ((flat pre).length + pg.vals.length : Int) = (flat (pre ++ [pg])).length := by simp
    have hlo' : ((flat (pre ++ [pg])).length : Int) ≤ index := by rw [← hbeg]; omega
    have hhi' : index < ((flat (pre ++ [pg])).length : Int) + (flat pages).length := by
      simp only [flat_cons, length_append] at hhi
      omega
    obtain ⟨pre', pg', post, heq, hfind, hrest⟩ := ih hlo' hhi'
    refine ⟨pre', pg', post, by rw [← heq]; simp, ?_, hrest⟩
    rw [findFront, if_neg hin, hbeg, ← hfind]
    simp

theorem findBack_spec {pages : List (Page V)} (post : List (Page V)) (hlo : 0 ≤ index)
    (hhi : index < (flat pages.reverse).length) : ∃ pre' pg post', pages.reverse ++ post = pre' ++ pg :: post' ∧
      findBack index pages (flat pages.reverse).length = some (pre'.length, ((flat pre').length : Int)) ∧
      (flat pre').length ≤ index ∧ index < (flat pre').length + pg.vals.length := by
  induction pages generalizing post with
  | nil =>
    simp only [reverse_nil, flat_nil, length_nil] at hhi
    omega
  | cons pg pages ih =>
    have hbeg : ((flat (pg :: pages).reverse).length : Int) - pg.vals.length = (flat pages.reverse).length := by
      simp
    by_cases hin : ((flat (pg :: pages).reverse).length : Int) - pg.vals.length ≤ index
    · refine ⟨pages.reverse, pg, post, by simp, ?_, by omega, by omega⟩
      rw [findBack, if_pos hin, hbeg, length_reverse]
    · obtain ⟨pre', pg', post', heq, hfind, hrest⟩ := ih (pg :: post) (by omega)
      refine ⟨pre', pg', post', by rw [← heq]; simp, ?_, hrest⟩
      rw [findBack, if_neg hin, hbeg, hfind]

theorem Ok.find (ok : ql.Ok) (hlo : 0 ≤ index) (hhi : index < ql.contents.length) :
    ∃ it, ql.find index = some it ∧ it.At ql index := by
  have hsize := ok.size
  have hpages : ∃ pre' pg post, ql.data = pre' ++ pg :: post ∧
      (if index < (ql.size / 2 : Nat) then findFront index ql.data 0 0
        else findBack index ql.data.reverse ql.size) = some (pre'.length, ((flat pre').length : Int)) ∧
      (flat pre').length ≤ index ∧ index < (flat pre').length + pg.vals.length := by
    split
    · have hlo' : ((flat ([] : List (Page V))).length : Int) ≤ index := by simpa using hlo
      have hhi' : index < ((flat ([] : List (Page V))).length : Int) + (flat ql.data).length := by
        simpa [contents] using hhi
      simpa using findFront_spec hlo' hhi'
    · have hhi' : index < (flat ql.data.reverse.reverse).length := by simpa [contents] using hhi
      have hback := findBack_spec [] hlo hhi'
      rw [reverse_reverse, append_nil] at hback
      rwa [hsize]
  obtain ⟨pre, pg, post, hdata, hfind, hle, hlt⟩ := hpages
  refine ⟨⟨some pre.length, index - (flat pre).length⟩, ?_, ?_⟩
  · rw [QuickList.find, if_neg (by omega), hfind]
    rfl
  · refine .on (o := (index - (flat pre).length).toNat) ⟨hdata, rfl, ?_, by omega⟩ (by omega)
    simp only []
    omega

/-! ## One element -/

theorem Ok.new : (new : QuickList V).Ok := ⟨by simp [QuickList.new], rfl⟩

theorem Ok.get (ok : ql.Ok) (hlo : 0 ≤ index) (hhi : index < ql.contents.length) :
    ql.get index = ql.contents[index.toNat]? := by
  obtain ⟨it, hfind, hat⟩ := ok.find hlo hhi
  have hlt : index.toNat < ql.contents.length := by omega
  have hsplit : ql.contents = ql.contents.take index.toNat ++ ql.contents[index.toNat] :: ql.contents.drop (index.toNat + 1) := by
    rw [← drop_eq_getElem_cons hlt, take_append_drop]
  rw [QuickList.get, hfind, bind_some, hat.get hsplit (by rw [length_take]; omega), getElem?_eq_getElem hlt]

theorem Ok.add (ok : ql.Ok) (val : V) : (ql.add val).Ok ∧ (ql.add val).contents = ql.contents ++ [val] := by
  unfold QuickList.add
  rcases eq_nil_or_concat ql.data with hnil | ⟨pre, back, hdata⟩
  · have hempty : ql.contents = [] := by simp [contents, hnil]
    have hsize : ql.size = 0 := by rw [ok.size, hempty]; rfl
    rw [hnil]
    refine ⟨⟨by simp, ?_⟩, ?_⟩
    · simp [contents, hsize]
    · rw [hempty]
      rfl
  · rw [concat_eq_append] at hdata
    have hcontents : ql.contents = flat pre ++ back.vals := by simp [contents, hdata]
    have hne : back.vals ≠ [] := ok.pages back (by simp [hdata])
    rw [hdata, getLast?_concat]
    simp only
    split
    · have hok := ok.replace [back, ⟨[val], pageSize⟩] (n := ql.size + 1) hdata (by simpa using hne) (by simp; omega)
      exact ⟨by simpa using hok, by rw [hcontents]; simp [contents]⟩
    · have hok := ok.replace [⟨back.vals ++ [val], back.cap⟩] (n := ql.size + 1) hdata (by simp) (by simp; omega)
      exact ⟨by simpa using hok, by rw [hcontents]; simp [contents]⟩

theorem Ok.removeLast (ok : ql.Ok) : ql.removeLast.2.Ok ∧ ql.removeLast.1 = ql.contents.getLast? ∧
    ql.removeLast.2.contents = ql.contents.dropLast := by
  have hsize := ok.size
  rcases eq_nil_or_concat ql.data with hnil | ⟨pre, pg, hdata⟩
  · have hempty : ql.contents = [] := by simp [contents, hnil]
    rw [hempty] at hsize ⊢
    simp only [QuickList.removeLast, show ql.size = 0 from hsize, if_true]
    exact ⟨ok, rfl, hempty⟩
  rw [concat_eq_append] at hdata
  have hcontents : ql.contents = flat pre ++ pg.vals := by simp [contents, hdata]
  have hne : pg.vals ≠ [] := ok.pages pg (by simp [hdata])
  have hpos := length_pos_of_ne_nil hne
  have hnz : ¬ql.size = 0 := by
    rw [hsize, hcontents, length_append]
    omega
  simp only [QuickList.removeLast, hnz, if_false, hdata, getLast?_concat, dropLast_concat]
  split
  · rename_i hone
    obtain ⟨x, hx⟩ := length_eq_one_iff.1 hone
    have hok := ok.replace [] (n := ql.size - 1) hdata (by simp) (by simp; omega)
    refine ⟨by simpa using hok, ?_, ?_⟩
    · rw [hcontents, hx, getLast?_append]
      rfl
    · rw [hcontents, hx, dropLast_concat]
      rfl
  · rename_i hmany
    have hlen : pg.vals.dropLast.length = pg.vals.length - 1 := length_dropLast
    have hok := ok.replace [⟨pg.vals.dropLast, pg.cap⟩] (n := ql.size - 1) hdata
      (by simpa using length_pos_iff.1 (by omega : 0 < pg.vals.dropLast.length)) (by simp; omega)
    refine ⟨by simpa using hok, ?_, ?_⟩
    · rw [hcontents, getLast?_append_of_ne_nil _ hne]
    · rw [hcontents, dropLast_append_of_ne_nil hne]
      simp [contents]

variable {xs ys : List V}

theorem Ok.remove (ok : ql.Ok) (hc : ql.contents = xs ++ val :: ys) (hi : index = xs.length) :
    ∃ ql', ql.remove index = some (val, ql') ∧ ql'.Ok ∧ ql'.contents = xs ++ ys := by
  obtain ⟨it, hfind, hat⟩ := ok.find (show 0 ≤ index by omega) (by rw [hc]; simp; omega)
  obtain ⟨ql', it', hrem, hcontents, hok, -⟩ := hat.remove ok hc hi
  exact ⟨ql', by simp [QuickList.remove, hfind, hrem], hok, hcontents⟩

theorem Ok.set (ok : ql.Ok) (val : V) (hlo : 0 ≤ index) (hhi : index < ql.contents.length) :
    ∃ ql', ql.set index val = some ql' ∧ ql'.Ok ∧ ql'.contents = ql.contents.set index.toNat val := by
  obtain ⟨it, hfind, hat⟩ := ok.find hlo hhi
  obtain ⟨pre, pg, post, o, hon, hp⟩ := hat.on_of_lt hlo hhi
  have hlt := hon.lt
  refine ⟨⟨pre ++ [⟨pg.vals.set o val, pg.cap⟩] ++ post, ql.size⟩, ?_, ?_, ?_⟩
  · simp only [QuickList.set, hfind, bind_some, Iterator.set, hon.node, hon.getElem?, hon.offset,
      Int.toNat_natCast, hon.set]
    exact if_pos (by omega)
  · refine ok.replace _ hon.data (fun page hp => ?_) (by simp)
    obtain rfl := mem_singleton.1 hp
    exact ne_nil_of_length_pos (by simp only [length_set]; omega)
  · rw [hon.contents, show index.toNat = (flat pre).length + o by omega, append_assoc (flat pre),
      set_append_right _ _ (Nat.le_add_right _ _), Nat.add_sub_cancel_left,
      set_append_left _ _ hlt]
    simp [contents]

theorem insert_right {l₁ : List V} {o : Nat} (l₂ : List V) (val : V) (h : l₁.length ≤ o) :
    l₁ ++ (l₂.take (o - l₁.length) ++ val :: l₂.drop (o - l₁.length)) =
      (l₁ ++ l₂).take o ++ val :: (l₁ ++ l₂).drop o := by
  rw [take_append, drop_append, take_of_length_le h, drop_eq_nil_of_le h]
  simp

theorem Ok.insert (ok : ql.Ok) (grow : Nat → Nat) (val : V) (hlo : 0 ≤ index) (hhi : index ≤ ql.contents.length) :
    ∃ ql', ql.insert grow index val = some ql' ∧ ql'.Ok ∧
      ql'.contents = ql.contents.take index.toNat ++ val :: ql.contents.drop index.toNat := by
  have hsize := ok.size
  by_cases hend : index = ql.size
  · have hall : index.toNat = ql.contents.length := by omega
    refine ⟨ql.add val, if_pos hend, (ok.add val).1, ?_⟩
    rw [(ok.add val).2, hall, take_length, drop_length]
  obtain ⟨it, hfind, hat⟩ := ok.find hlo (by omega)
  obtain ⟨pre, pg, post, o, hon, hp⟩ := hat.on_of_lt hlo (by omega)
  have hlt := hon.lt
  -- whatever pages the value and the elements of the page go to
  have hpages : ∀ pages : List (Page V), (∀ page ∈ pages, page.vals ≠ []) →
      flat pages = pg.vals.take o ++ val :: pg.vals.drop o →
      (⟨pre ++ pages ++ post, ql.size + 1⟩ : QuickList V).Ok ∧
      (⟨pre ++ pages ++ post, ql.size + 1⟩ : QuickList V).contents =
        ql.contents.take index.toNat ++ val :: ql.contents.drop index.toNat := by
    intro pages hne hflat
    have hlen := congrArg length hflat
    simp only [length_append, length_take, length_cons, length_drop] at hlen
    refine ⟨ok.replace _ hon.data hne (by omega), ?_⟩
    rw [hon.contents, show index.toNat = (flat pre).length + o by omega, append_assoc (flat pre),
      take_append, drop_append, take_of_length_le (Nat.le_add_right _ _),
      drop_eq_nil_of_le (Nat.le_add_right _ _), Nat.add_sub_cancel_left,
      take_append_of_le_length hlt.le, drop_append_of_le_length hlt.le]
    simp [contents, hflat]
  simp only [QuickList.insert, if_neg hend, hfind, bind_some, hon.node, hon.getElem?, map_some,
    hon.offset, Int.toNat_natCast, hon.set]
  by_cases hfull : pg.vals.length < pageSize
  · rw [if_pos hfull]
    exact ⟨_, rfl, hpages _ (by simp [Page.insert]) (by simp [Page.insert])⟩
  have htake : ql.data.take pre.length = pre := by simp [hon.data]
  have hdrop : ql.data.drop (pre.length + 1) = post := by simp [hon.data]
  have hhalf : pageSize / 2 = 512 := rfl
  have hsplit := take_append_drop (pageSize / 2) pg.vals
  have hlenl : (pg.vals.take (pageSize / 2)).length = 512 := by
    rw [length_take, hhalf]
    omega
  have hlenr : (pg.vals.drop (pageSize / 2)).length > 0 := by
    rw [length_drop, hhalf]
    omega
  rw [if_neg hfull]
  by_cases hleft : o < 512
  · simp only [hlenl, hleft, if_true, htake, hdrop]
    refine ⟨_, rfl, ?_⟩
    have hboth := hpages [Page.insert grow ⟨pg.vals.take (pageSize / 2), pg.cap⟩ o val,
      ⟨pg.vals.drop (pageSize / 2), grow (pg.vals.length - pageSize / 2)⟩]
      (by simpa [Page.insert] using length_pos_iff.1 hlenr) (by
        conv_rhs => rw [← hsplit]
        rw [take_append_of_le_length (by omega), drop_append_of_le_length (by omega)]
        simp [Page.insert])
    simpa using hboth
  · simp only [hlenl, hleft, if_false, htake, hdrop]
    refine ⟨_, rfl, ?_⟩
    have hboth := hpages [⟨pg.vals.take (pageSize / 2), pg.cap⟩,
      Page.insert grow ⟨pg.vals.drop (pageSize / 2), grow (pg.vals.length - pageSize / 2)⟩ (o - pageSize / 2) val]
      (by simpa [Page.insert] using length_pos_iff.1 (by omega : (pg.vals.take (pageSize / 2)).length > 0))
      (by
        have hright := insert_right (pg.vals.drop (pageSize / 2)) val
          (show (pg.vals.take (pageSize / 2)).length ≤ o by omega)
        rw [hlenl, hsplit] at hright
        simpa [Page.insert, hhalf] using hright)
    simpa using hboth

/-! ## Loops -/

/-- What the loops that remove do to a list: remove what is expected, until the count is reached, and
say how many elements were removed with those before. -/
def removeFrom (expected : V → Bool) (count : Option Int) : Nat → List V → List V × Nat
  | removed, [] => ([], removed)
  | removed, x :: xs =>
    if expected x then
      if count = some ((removed + 1 : Nat) : Int) then (xs, removed + 1)
      else removeFrom expected count (removed + 1) xs
    else (x :: (removeFrom expected count removed xs).1, (removeFrom expected count removed xs).2)

variable {fuel : Nat} {it : Iterator}

theorem removeLoop_spec (expected : V → Bool) (count : Option Int) (removed : Nat) (ok : ql.Ok)
    (hat : it.At ql xs.length) (hc : ql.contents = xs ++ ys) (hfuel : ys.length < fuel) :
    ∃ ql', removeLoop expected count fuel ql it removed = some (ql', (removeFrom expected count removed ys).2) ∧
      ql'.Ok ∧ ql'.contents = xs ++ (removeFrom expected count removed ys).1 := by
  induction fuel generalizing ql it xs ys removed with
  | zero => omega
  | succ fuel ih =>
    have hend : it.atEnd ql = true ↔ ys = [] := by
      rw [hat.atEnd_iff (by omega), hc, length_append, ← length_eq_zero_iff]
      omega
    cases ys with
    | nil => exact ⟨ql, by rw [removeLoop, if_pos (hend.2 rfl)]; rfl, ok, hc⟩
    | cons v ys =>
      have hget := hat.get hc rfl
      rw [removeLoop, if_neg (by rw [hend]; simp), hget, bind_some, removeFrom]
      by_cases hv : expected v = true
      · obtain ⟨ql', it', hrem, hcontents, hok, hat'⟩ := hat.remove ok hc rfl
        rw [if_pos hv, if_pos hv, hrem, bind_some]
        dsimp only
        by_cases hcount : count = some ((removed + 1 : Nat) : Int)
        · rw [if_pos hcount, if_pos hcount]
          exact ⟨ql', rfl, hok, hcontents⟩
        · rw [if_neg hcount, if_neg hcount]
          exact ih (removed + 1) hok hat' hcontents (by simpa using hfuel)
      · obtain ⟨inBound, it', hnext, hat', -⟩ := hat.next ok hc
        rw [if_neg hv, if_neg hv, hnext, bind_some]
        obtain ⟨ql', hloop, hok, hcontents⟩ := ih removed ok hat' (by simpa using hc) (by simpa using hfuel)
        exact ⟨ql', hloop, hok, by simpa using hcontents⟩

section

variable (ok : ql.Ok)
include ok

variable (expected : V → Bool)

theorem Ok.removeLoop (count : Option Int) (hne : ql.contents ≠ []) :
    ∃ ql', ((ql.find 0).bind fun it => QuickList.removeLoop expected count (ql.size + 1) ql it 0) =
        some (ql', (removeFrom expected count 0 ql.contents).2) ∧ ql'.Ok ∧
      ql'.contents = (removeFrom expected count 0 ql.contents).1 := by
  have hsize := ok.size
  have hpos := length_pos_of_ne_nil hne
  obtain ⟨it, hfind, hat⟩ := ok.find (le_refl 0) (by omega)
  have hc : ql.contents = [] ++ ql.contents := rfl
  rw [hfind]
  exact removeLoop_spec expected count 0 ok hat hc (show ql.contents.length < ql.size + 1 by omega)

theorem Ok.removeAllByVal (hne : ql.contents ≠ []) :
    ∃ ql', ql.removeAllByVal expected = some (ql', (removeFrom expected none 0 ql.contents).2) ∧ ql'.Ok ∧
      ql'.contents = (removeFrom expected none 0 ql.contents).1 :=
  ok.removeLoop expected none hne

theorem Ok.size_eq_zero_iff : ql.size = 0 ↔ ql.contents = [] := by
  rw [ok.size, length_eq_zero_iff]

theorem Ok.removeByVal (count : Int) :
    ∃ ql', ql.removeByVal expected count = some (ql', (removeFrom expected (some count) 0 ql.contents).2) ∧
      ql'.Ok ∧ ql'.contents = (removeFrom expected (some count) 0 ql.contents).1 := by
  unfold QuickList.removeByVal
  split
  · rename_i hnil
    have hempty := ok.size_eq_zero_iff.1 hnil
    exact ⟨ql, by rw [hempty]; rfl, ok, by rw [hempty]; rfl⟩
  · rename_i hnil
    exact ok.removeLoop expected (some count) (mt ok.size_eq_zero_iff.2 hnil)

omit ok in
theorem reverseRemoveLoop_spec (count : Int) (removed : Nat) (ok : ql.Ok)
    (hat : it.At ql (xs.length - 1)) (hc : ql.contents = xs.reverse ++ ys) (hfuel : xs.length < fuel) :
    ∃ ql', reverseRemoveLoop expected count fuel ql it removed =
        some (ql', (removeFrom expected (some count) removed xs).2) ∧
      ql'.Ok ∧ ql'.contents = (removeFrom expected (some count) removed xs).1.reverse ++ ys := by
  induction fuel generalizing ql it xs ys removed with
  | zero => omega
  | succ fuel ih =>
    have hbegin : it.atBegin ql = true ↔ xs = [] := by
      rw [hat.atBegin_iff (by rw [hc, length_append, length_reverse]; omega), ← length_eq_zero_iff]
      omega
    cases xs with
    | nil => exact ⟨ql, by rw [reverseRemoveLoop, if_pos (hbegin.2 rfl)]; rfl, ok, hc⟩
    | cons v xs =>
      have hsplit : ql.contents = xs.reverse ++ v :: ys := by simpa using hc
      have hpos : (((v :: xs).length : Int) - 1) = xs.reverse.length := by simp
      rw [hpos] at hat
      have hget := hat.get hsplit rfl
      rw [reverseRemoveLoop, if_neg (by rw [hbegin]; simp), hget, bind_some, removeFrom]
      by_cases hv : expected v = true
      · obtain ⟨ql', it', hrem, hcontents, hok, hat'⟩ := hat.remove ok hsplit rfl
        rw [if_pos hv, if_pos hv, hrem, bind_some]
        dsimp only
        by_cases hcount : ((removed + 1 : Nat) : Int) = count
        · rw [if_pos hcount, if_pos (by rw [hcount])]
          exact ⟨ql', rfl, hok, hcontents⟩
        · obtain ⟨inBound, it'', hprev, hat''⟩ := hat'.prev hok (by omega)
          rw [if_neg hcount, if_neg (fun h => hcount (some.inj h).symm), hprev, bind_some]
          exact ih (removed + 1) hok (by simpa using hat'') hcontents (by simpa using hfuel)
      · obtain ⟨inBound, it', hprev, hat'⟩ := hat.prev ok (by omega)
        rw [if_neg hv, if_neg hv, hprev, bind_some]
        have hat'' : it'.At ql (xs.length - 1) := by simpa using hat'
        obtain ⟨ql', hloop, hok, hcontents⟩ := ih removed ok hat'' hsplit (by simpa using hfuel)
        exact ⟨ql', hloop, hok, by simpa using hcontents⟩

theorem Ok.reverseRemoveByVal (count : Int) : ∃ ql', ql.reverseRemoveByVal expected count =
        some (ql', (removeFrom expected (some count) 0 ql.contents.reverse).2) ∧ ql'.Ok ∧
      ql'.contents = (removeFrom expected (some count) 0 ql.contents.reverse).1.reverse := by
  have hsize := ok.size
  by_cases hnil : ql.size = 0
  · have hempty := ok.size_eq_zero_iff.1 hnil
    exact ⟨ql, by rw [QuickList.reverseRemoveByVal, if_pos hnil, hempty]; rfl, ok, by rw [hempty]; rfl⟩
  obtain ⟨it, hfind, hat⟩ := ok.find (show (0 : Int) ≤ ql.size - 1 by omega) (by omega)
  have hat' : it.At ql (ql.contents.reverse.length - 1) := by rwa [length_reverse, ← hsize]
  have hc : ql.contents = ql.contents.reverse.reverse ++ [] := by simp
  have hfuel : ql.contents.reverse.length < ql.size + 1 := by rw [length_reverse]; omega
  obtain ⟨ql', hloop, hok, hcontents⟩ := reverseRemoveLoop_spec expected count 0 ok hat' hc hfuel
  exact ⟨ql', by rw [QuickList.reverseRemoveByVal, if_neg hnil, hfind]; exact hloop, hok, by simpa using hcontents⟩

theorem forEachLoop_spec {σ : Type} {consumer : σ → Nat → V → σ × Bool} {v : V} {s : σ}
    (hat : it.At ql xs.length) (hc : ql.contents = xs ++ v :: ys) (hfuel : ys.length < fuel) :
    forEachLoop consumer ql fuel it xs.length s =
      some (visit (fun s (e : V × Nat) => consumer s e.2 e.1) s ((v :: ys).zipIdx xs.length)) := by
  induction fuel generalizing it xs ys v s with
  | zero => omega
  | succ fuel ih =>
    obtain ⟨inBound, it', hnext, hat', rfl⟩ := hat.next ok hc
    rw [forEachLoop, hat.get hc rfl, bind_some, zipIdx_cons, visit]
    by_cases hgo : (consumer s xs.length v).2 = true
    · rw [if_pos hgo, if_pos hgo, hnext, bind_some]
      cases ys with
      | nil => simp [visit]
      | cons w ys =>
        have hc' : ql.contents = xs ++ [v] ++ w :: ys := by simpa using hc
        have hstep := ih (s := (consumer s xs.length v).1) hat' hc' (by simp at hfuel; omega)
        simpa using hstep
    · rw [if_neg hgo, if_neg hgo]

theorem Ok.forEach {σ : Type} (consumer : σ → Nat → V → σ × Bool) (s : σ) :
    ql.forEach consumer s = some (visit (fun s (e : V × Nat) => consumer s e.2 e.1) s ql.contents.zipIdx) := by
  have hsize := ok.size
  unfold QuickList.forEach
  cases hc : ql.contents with
  | nil =>
    rw [hc, length_nil] at hsize
    rw [if_pos hsize]
    rfl
  | cons v ys =>
    rw [hc, length_cons] at hsize
    obtain ⟨it, hfind, hat⟩ := ok.find (le_refl 0) (by rw [hc]; simp)
    rw [if_neg (by omega), hfind, bind_some]
    have hc' : ql.contents = [] ++ v :: ys := by simpa using hc
    exact forEachLoop_spec ok hat hc' (by omega)

theorem rangeLoop_spec {n : Nat} (hat : it.At ql xs.length) (hc : ql.contents = xs ++ ys)
    (hn : n ≤ ys.length) : rangeLoop ql n it = some (ys.take n) := by
  induction n generalizing it xs ys with
  | zero => simp [rangeLoop]
  | succ n ih =>
    cases ys with
    | nil => simp at hn
    | cons v ys =>
      obtain ⟨inBound, it', hnext, hat', -⟩ := hat.next ok hc
      have hrest := ih hat' (by simpa using hc) (by simpa using hn)
      simp [rangeLoop, hat.get hc rfl, hnext, hrest]

theorem Ok.range {start stop : Int} (hlo : 0 ≤ start) (hlt : start < ql.contents.length)
    (hle : start ≤ stop) (hhi : stop ≤ ql.contents.length) :
    ql.range start stop = some ((ql.contents.take stop.toNat).drop start.toNat) := by
  have hsize := ok.size
  obtain ⟨it, hfind, hat⟩ := ok.find hlo hlt
  have hlen : ((ql.contents.take start.toNat).length : Int) = start := by
    rw [length_take]
    omega
  have hat' : it.At ql (ql.contents.take start.toNat).length := by rwa [hlen]
  rw [QuickList.range, if_neg (by omega), if_neg (by omega), hfind, bind_some,
    rangeLoop_spec ok hat' (take_append_drop _ _).symm (by rw [length_drop]; omega),
    take_drop, show start.toNat + (stop - start).toNat = stop.toNat by omega]

end

end QuickList

end Hayakv.Object
