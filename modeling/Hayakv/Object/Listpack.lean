import Hayakv.Lib.Varint
import Hayakv.Lib.Visit

/-!
# Listpacks

`internal/object/listpack.go`: a list of strings and integers in one byte slice. A listpack holds a
list of elements (`Holds`) if its bytes are their encodings one after another; then `Get` and `Range`
read that list.
-/

namespace Hayakv.Object

open List

/-- An element of a listpack: a Go `string`, or an `int64`. -/
inductive Elem
  | str (s : Bytes)
  | int (v : Int)
deriving DecidableEq, Repr

def encodeStrElem (s : Bytes) : Bytes := 0 :: (appendUvarint s.length ++ s)

def encodeIntElem (v : Int) : Bytes := 1 :: appendVarint v

/-- `decodeElem`: the element and the number of bytes consumed, `none` where the code answers `nil`
and 0. -/
def decodeElem : Bytes → Option (Elem × Nat)
  | [] => none
  | tag :: data =>
    if tag = 0 then
      match uvarint data with
      | none => none
      | some (strLen, n) =>
        if 1 + n + strLen > data.length + 1 then none
        else some (.str ((data.drop n).take strLen), 1 + n + strLen)
    else if tag = 1 then (varint data).map fun (v, n) => (.int v, 1 + n)
    else none

structure Listpack where
  buf : Bytes
  num : Nat
deriving DecidableEq, Repr

namespace Listpack

def new : Listpack := ⟨[], 0⟩

variable (lp : Listpack)

def len : Nat := lp.num

def appendStr (s : Bytes) : Listpack := ⟨lp.buf ++ encodeStrElem s, lp.num + 1⟩

def appendInt (v : Int) : Listpack := ⟨lp.buf ++ encodeIntElem v, lp.num + 1⟩

def skip : Nat → Bytes → Option Bytes
  | 0, buf => some buf
  | n + 1, buf =>
    match decodeElem buf with
    | none => none
    | some (_, consumed) => skip n (buf.drop consumed)

def get (i : Int) : Option Elem :=
  if i < 0 ∨ lp.num ≤ i then none else (skip i.toNat lp.buf).bind fun buf => (decodeElem buf).map Prod.fst

/-- The loop of `Range` over `n` more elements, from element `i` on. -/
def rangeFrom {σ : Type} (fn : σ → Nat → Elem → σ × Bool) : Nat → Nat → Bytes → σ → σ
  | 0, _, _, s => s
  | n + 1, i, buf, s =>
    match decodeElem buf with
    | none => s
    | some (val, consumed) =>
      if (fn s i val).2 then rangeFrom fn n (i + 1) (buf.drop consumed) (fn s i val).1 else (fn s i val).1

def range {σ : Type} (fn : σ → Nat → Elem → σ × Bool) (s : σ) : σ := rangeFrom fn lp.num 0 lp.buf s

end Listpack

/-! ## What a listpack holds -/

namespace Elem

def encode : Elem → Bytes
  | .str s => encodeStrElem s
  | .int v => encodeIntElem v

/-- The length of a string is a Go `int`, and an integer has 64 bits. -/
def Ok : Elem → Prop
  | .str s => s.length < 2 ^ 63
  | .int v => -2 ^ 63 ≤ v ∧ v < 2 ^ 63

theorem decode_encode {e : Elem} (h : e.Ok) (rest : Bytes) :
    decodeElem (e.encode ++ rest) = some (e, e.encode.length) := by
  cases e with
  | str s =>
    have hs : s.length < 2 ^ 63 := h
    have hread := uvarint_append (x := s.length) (by omega) (s ++ rest)
    simp only [encode, encodeStrElem, cons_append, decodeElem, if_pos, append_assoc, hread]
    rw [if_neg (by simp only [length_append]; omega)]
    simp only [drop_left', take_left', length_cons, length_append]
    congr 2
    omega
  | int v =>
    have hread := varint_append h.1 h.2 rest
    simp only [encode, encodeIntElem, cons_append, decodeElem, if_pos, hread, Option.map_some, length_cons]
    simp [add_comm]

end Elem

namespace Listpack

variable {lp : Listpack} {es : List Elem}

structure Holds (lp : Listpack) (es : List Elem) : Prop where
  buf : lp.buf = es.flatMap Elem.encode
  num : lp.num = es.length
  ok : ∀ e ∈ es, e.Ok

theorem holds_new : new.Holds [] := ⟨rfl, rfl, by simp⟩

/-- A call of `AppendStr` or `AppendInt`. -/
def append (lp : Listpack) (e : { e : Elem // e.Ok }) : Listpack :=
  match e.1 with
  | .str s => lp.appendStr s
  | .int v => lp.appendInt v

theorem Holds.append (h : lp.Holds es) (e : { e : Elem // e.Ok }) : (lp.append e).Holds (es ++ [e.1]) := by
  have hbuf : (lp.append e).buf = lp.buf ++ e.1.encode := by
    rw [Listpack.append]
    cases e.1 <;> rfl
  have hnum : (lp.append e).num = lp.num + 1 := by
    rw [Listpack.append]
    cases e.1 <;> rfl
  refine ⟨by simp [hbuf, h.buf], by simp [hnum, h.num], fun e' he' => ?_⟩
  rcases mem_append.1 he' with he' | he'
  · exact h.ok e' he'
  · exact mem_singleton.1 he' ▸ e.2

theorem Holds.appendStr (h : lp.Holds es) {s : Bytes} (hs : s.length < 2 ^ 63) :
    (lp.appendStr s).Holds (es ++ [.str s]) := h.append ⟨.str s, hs⟩

theorem Holds.foldl_appendStr {ss ss' : List Bytes} (h : lp.Holds (ss.map .str))
    (hlen : ∀ s ∈ ss', s.length < 2 ^ 63) : (ss'.foldl Listpack.appendStr lp).Holds ((ss ++ ss').map .str) := by
  induction ss' generalizing lp ss with
  | nil => simpa using h
  | cons s ss' ih =>
    have happ := h.appendStr (hlen s mem_cons_self)
    rw [← map_singleton, ← map_append] at happ
    simpa using ih happ fun s' hs' => hlen s' (mem_cons_of_mem s hs')

variable {ss : List Bytes} {σ : Type}

theorem holds_foldl_new (hlen : ∀ s ∈ ss, s.length < 2 ^ 63) :
    (ss.foldl Listpack.appendStr .new).Holds (ss.map .str) := by
  have hnil : Listpack.new.Holds (([] : List Bytes).map .str) := holds_new
  exact hnil.foldl_appendStr hlen

theorem Holds.len (h : lp.Holds es) : lp.len = es.length := h.num

theorem skip_encoded {es : List Elem} (hok : ∀ e ∈ es, e.Ok) {n : Nat} (hn : n ≤ es.length) :
    skip n (es.flatMap Elem.encode) = some ((es.drop n).flatMap Elem.encode) := by
  induction es generalizing n with
  | nil =>
    obtain rfl : n = 0 := by simpa using hn
    rfl
  | cons e es ih =>
    cases n with
    | zero => rfl
    | succ n =>
      have hdec := Elem.decode_encode (hok e mem_cons_self) (es.flatMap Elem.encode)
      simp only [flatMap_cons, skip, hdec, drop_left', drop_succ_cons]
      exact ih (fun e' he' => hok e' (mem_cons_of_mem e he')) (by simpa using hn)

theorem Holds.get (h : lp.Holds es) (i : Nat) : lp.get i = es[i]? := by
  unfold Listpack.get
  by_cases hi : i < es.length
  · have hskip := skip_encoded h.ok hi.le
    rw [if_neg (by rw [h.num]; omega), Int.toNat_natCast, h.buf, hskip, Option.bind_some,
      drop_eq_getElem_cons hi, flatMap_cons,
      Elem.decode_encode (h.ok _ (getElem_mem hi)), getElem?_eq_getElem hi]
    rfl
  · rw [if_pos (by rw [h.num]; omega), getElem?_eq_none (by omega)]

theorem rangeFrom_encoded (fn : σ → Nat → Elem → σ × Bool) {es : List Elem} (hok : ∀ e ∈ es, e.Ok) (i : Nat)
    (s : σ) : rangeFrom fn es.length i (es.flatMap Elem.encode) s =
      visit (fun s (e : Elem × Nat) => fn s e.2 e.1) s (es.zipIdx i) := by
  induction es generalizing i s with
  | nil => rfl
  | cons e es ih =>
    have hdec := Elem.decode_encode (hok e mem_cons_self) (es.flatMap Elem.encode)
    simp only [length_cons, flatMap_cons, rangeFrom, hdec, drop_left', zipIdx_cons, visit]
    rw [ih fun e' he' => hok e' (mem_cons_of_mem e he')]

theorem Holds.range (h : lp.Holds es) (fn : σ → Nat → Elem → σ × Bool) (s : σ) :
    lp.range fn s = visit (fun s (e : Elem × Nat) => fn s e.2 e.1) s es.zipIdx := by
  rw [Listpack.range, h.num, h.buf]
  exact rangeFrom_encoded fn h.ok 0 s

/-- A listpack is the list of what was appended to it. -/
theorem listpack_codec (calls : List { e : Elem // e.Ok }) : (calls.foldl append new).len = calls.length ∧
    (∀ i : Int, (calls.foldl append new).get i = if i < 0 then none else calls[i.toNat]?.map (·.1)) ∧
    ∀ (σ : Type) (fn : σ → Nat → Elem → σ × Bool) (s : σ), (calls.foldl append new).range fn s =
      visit (fun s (e : Elem × Nat) => fn s e.2 e.1) s (calls.map (·.1)).zipIdx := by
  have hcalls : ∀ (calls : List { e : Elem // e.Ok }) {lp es}, lp.Holds es →
      (calls.foldl append lp).Holds (es ++ calls.map (·.1)) := by
    intro calls
    induction calls with
    | nil => exact fun h => by simpa using h
    | cons e calls ih => exact fun h => by simpa using ih (h.append e)
  have h := hcalls calls holds_new
  refine ⟨by simpa using h.len, fun i => ?_, fun σ fn s => h.range fn s⟩
  split
  · exact if_pos (.inl ‹_›)
  · obtain ⟨i, rfl⟩ := Int.eq_ofNat_of_zero_le (by omega : 0 ≤ i)
    simpa using h.get i

theorem Holds.range_elems (h : lp.Holds es) (fn : σ → Elem → σ × Bool) (s : σ) :
    lp.range (fun s _ e => fn s e) s = visit fn s es := by
  rw [h.range]
  exact visit_zipIdx fn s es 0

/-- A loop that gets one string after another, and stops where there is none. -/
theorem Holds.visit_get (h : lp.Holds (ss.map .str)) (fn : σ → Nat → Elem → σ × Bool) (s : σ) :
    visit (fun s (i : Nat) => match lp.get i with
      | none => (s, false)
      | some e => fn s i e) s (List.range lp.len) =
      visit (fun s (p : Bytes × Nat) => fn s p.2 (.str p.1)) s ss.zipIdx := by
  rw [h.len, length_map, range_eq_range', ← zipIdx_map_snd, visit_map]
  refine visit_congr _ (fun s p hp => ?_) s
  rw [h.get, getElem?_map, mem_zipIdx_iff_getElem?.1 hp]
  rfl

/-- A loop that gets one string after another, and goes on where there is none. -/
theorem Holds.foldl_get (h : lp.Holds (ss.map .str)) (fn : σ → Nat → Option Elem → σ) (s : σ) :
    (List.range lp.len).foldl (fun s (i : Nat) => fn s i (lp.get i)) s =
      ss.zipIdx.foldl (fun s (p : Bytes × Nat) => fn s p.2 (some (.str p.1))) s := by
  rw [h.len, length_map, range_eq_range', ← zipIdx_map_snd, foldl_map]
  refine foldl_ext _ _ s fun s p hp => ?_
  rw [h.get, getElem?_map, mem_zipIdx_iff_getElem?.1 hp]
  rfl

end Listpack

end Hayakv.Object
