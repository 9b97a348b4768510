import Hayakv.Lib.GoText
import Mathlib.Data.List.Basic

/-!
# HyperLogLogs

`internal/datastruct/hll`: a HyperLogLog is a string with a header of 16 bytes and a body, which is
either sparse (a list of opcodes for runs of registers) or dense (registers of 6 bits). What changes
one is a list of `Edit`s, of which some are in place. `none` is an index out of range.
-/

namespace Hayakv.Engine.Hll

open List

def hllRegisters : Nat := 16384
def hllHdrSize : Nat := 16
def hllDenseSize : Nat := 12288

inductive Edit
  /-- Bytes written in place. -/
  | write (writes : List (Nat × UInt8))
  /-- `append(raw[:hllHdrSize], body...)`. -/
  | rebuild (body : Bytes)
  /-- A new array. -/
  | replace (raw : Bytes)

variable (raw : Bytes)

def Edit.apply : Edit → Bytes
  | write ws => ws.foldl (fun raw (i, b) => raw.set i b) raw
  | rebuild body => raw.take hllHdrSize ++ body
  | replace raw => raw

def applyEdits (edits : List Edit) : Bytes := edits.foldl Edit.apply raw

/-- `New`: one XZERO for all registers, and zeros behind it. -/
def new : Bytes := str "HYLL" ++ replicate 12 0 ++ [0x7F, 0xFF] ++ replicate (hllRegisters - 2) 0

/-- Whether `FromBytes` accepts a string. -/
def accepts (b : Bytes) : Bool := hllHdrSize ≤ b.length && b.take 4 = "HYLL"

def isDense : Bool := raw[4]? = some 1

/-! ## Dense registers -/

/-- `denseGetRegister`. Its offset counts the 16 of the header as bits. -/
def denseGetRegister (reg : Nat) : Option Nat :=
  let off := hllHdrSize + reg * 6
  match raw[off / 8]?, raw[off / 8 + 1]? with
  | some b0, some b1 => some ((b0.toNat + b1.toNat * 256) / 2 ^ (off % 8) % 64)
  | _, _ => none

/-- `denseSetRegister`: what it writes. -/
def denseSetRegister (reg val : Nat) : Option (List (Nat × UInt8)) :=
  let off := hllHdrSize + reg * 6
  let idx := off / 8
  let mask : BitVec 16 := 0x3F#16 <<< (off % 8)
  let v : BitVec 16 := BitVec.ofNat 16 val <<< (off % 8)
  match raw[idx]?, raw[idx + 1]? with
  | some b0, some b1 =>
    some [(idx, UInt8.ofBitVec ((b0.toBitVec &&& ~~~(mask.setWidth 8)) ||| v.setWidth 8)),
      (idx + 1, UInt8.ofBitVec ((b1.toBitVec &&& ~~~((mask >>> 8).setWidth 8)) ||| (v >>> 8).setWidth 8))]
  | _, _ => none

/-! ## Sparse registers -/

/-- A sparse opcode: a run of zeros, in the short or in the long form, or a value. -/
inductive SparseOp
  | zero (count : Nat)
  | xzero (count : Nat)
  | val (v : Nat)

def SparseOp.count : SparseOp → Nat
  | zero n | xzero n => n
  | val _ => 1

/-- The opcodes of a body with their bytes, and whether it ends inside one (`sparseDecode`). -/
def decode : Bytes → List (SparseOp × Bytes) × Bool
  | [] => ([], false)
  | b :: rest =>
    if b &&& 0xC0 = 0 then
      let (ops, cut) := decode rest
      ((.zero ((b &&& 0x3F).toNat + 1), [b]) :: ops, cut)
    else if b &&& 0xC0 = 0x40 then
      match rest with
      | [] => ([], true)
      | c :: rest =>
        let (ops, cut) := decode rest
        ((.xzero ((b &&& 0x3F).toNat * 256 + c.toNat + 1), [b, c]) :: ops, cut)
    else
      let (ops, cut) := decode rest
      ((.val ((b >>> 2 &&& 0x1F).toNat + 1), [b]) :: ops, cut)

/-- `sparseEncodeZero`, of a number of registers. -/
def encodeZero (count : Nat) : Bytes := [UInt8.ofNat (count - 1) &&& 0x3F]

/-- `sparseEncodeXZero`, of a number of registers. -/
def encodeXZero (count : Nat) : Bytes := [0x40 ||| UInt8.ofNat ((count - 1) / 256), UInt8.ofNat ((count - 1) % 256)]

/-- `sparseEncodeVal`. What `decode` reads is one more. -/
def encodeVal (val : Nat) : Bytes := [0x80 ||| UInt8.ofNat (val * 4)]

/-- The value of a register among opcodes from register `reg` on, if they reach it. -/
def sparseFind (target : Nat) : Nat → List (SparseOp × Bytes) → Option Nat
  | _, [] => none
  | reg, (.val v, _) :: ops => if reg = target then some v else sparseFind target (reg + 1) ops
  | reg, (op, _) :: ops =>
    if target < reg + op.count then some 0 else sparseFind target (reg + op.count) ops

def sparseGetRegister (body : Bytes) (target : Nat) : Option Nat :=
  let (ops, cut) := decode body
  match sparseFind target 0 ops with
  | some v => some v
  | none => if cut then none else some 0

/-- An opcode with the register `target`, which is `before` registers after its start, set. -/
def splitOp (before val : Nat) : SparseOp → Bytes
  | .val _ => encodeVal val
  | op =>
    let after := op.count - before - 1
    let zeros := match op with
      | .xzero _ => encodeXZero
      | _ => encodeZero
    (if 0 < before then zeros before else []) ++ encodeVal val ++
      (if after = 0 then [] else if after ≤ 64 then encodeZero after else encodeXZero after)

/-- The body with a register set, before it is made compact. -/
def rewriteBody (target val : Nat) : Nat → List (SparseOp × Bytes) → Bytes
  | _, [] => []
  | r, (op, bytes) :: ops =>
    (if r + op.count ≤ target ∨ target < r then bytes else splitOp (target - r) val op) ++
      rewriteBody target val (r + op.count) ops

/-- Neighbouring runs of zeros made one. -/
def mergeOps : List SparseOp → List SparseOp
  | [] => []
  | op :: ops =>
    match op, mergeOps ops with
    | .zero n, .zero m :: rest => .zero (n + m) :: rest
    | .zero n, .xzero m :: rest => .xzero (n + m) :: rest
    | .xzero n, .zero m :: rest => .xzero (n + m) :: rest
    | .xzero n, .xzero m :: rest => .xzero (n + m) :: rest
    | op, ops => op :: ops

/-- Runs of at most `size` registers for `count` registers. -/
def runs (size count : Nat) : List Nat :=
  replicate (count / size) size ++ if count % size = 0 then [] else [count % size]

/-- `coalesceSparse`. A value is encoded anew, and so grows by one. -/
def coalesceSparse (body : Bytes) : Bytes :=
  (mergeOps ((decode body).1.map Prod.fst)).flatMap fun
    | .zero n => (runs 64 n).flatMap encodeZero
    | .xzero n => (runs 16384 n).flatMap encodeXZero
    | .val v => encodeVal v

/-- `sparseSetRegister`: the new body, `none` inside if it is too long; `none` for a panic. -/
def sparseSetRegister (body : Bytes) (target val : Nat) : Option (Option Bytes) :=
  let (ops, cut) := decode body
  if cut then none
  else
    let newBody := rewriteBody target val 0 ops
    some (if hllDenseSize < newBody.length ∨ hllDenseSize < (coalesceSparse newBody).length then none
      else some (coalesceSparse newBody))

/-- The registers with a value among opcodes from register `reg` on, while it is one; `none` where
the body ends inside an opcode before that. -/
def sparseValues (cut : Bool) : Nat → List (SparseOp × Bytes) → Option (List (Nat × Nat))
  | reg, [] => if cut && reg < hllRegisters then none else some []
  | reg, (op, _) :: ops =>
    if hllRegisters ≤ reg then some []
    else
      (sparseValues cut (reg + op.count) ops).map fun rest =>
        match op with
        | .val v => (reg, v) :: rest
        | _ => rest

def sparseRegisters : Option (List (Nat × Nat)) :=
  let (ops, cut) := decode (raw.drop hllHdrSize)
  sparseValues cut 0 ops

def promoteToDense : Option Bytes :=
  (sparseRegisters raw).bind fun values =>
    values.foldlM (fun raw (reg, v) =>
      (denseSetRegister raw reg v).map fun ws => Edit.apply raw (.write ws))
      ((raw.take hllHdrSize).set 4 1 ++ replicate hllDenseSize 0)

/-! ## Registers -/

def getRegister (reg : Nat) : Option Nat :=
  if isDense raw then denseGetRegister raw reg else sparseGetRegister (raw.drop hllHdrSize) reg

/-- Set a register, with promotion to the dense form where the sparse one would be too long. -/
def setRegister (reg val : Nat) : Option (List Edit) :=
  if isDense raw then (denseSetRegister raw reg val).map fun ws => [.write ws]
  else
    match sparseSetRegister (raw.drop hllHdrSize) reg val with
    | none => none
    | some (some body) => some [.rebuild body]
    | some none =>
      (promoteToDense raw).bind fun dense =>
        (denseSetRegister dense reg val).map fun ws => [.replace dense, .write ws]

/-- `hllPatLen`, of a hash without its index bits. -/
def hllPatLen (hash : UInt64) : Nat := ((range 50).takeWhile fun i => !hash.toNat.testBit i).length + 1

/-- The byte of the header that says whether the cached estimate is valid. -/
def invalidate : Edit := .write [(14, 0)]

/-- `Add`, with whether a register has changed. -/
def add (hash : Bytes → UInt64) (raw elem : Bytes) : Option (List Edit × Bool) :=
  let reg := (hash elem).toNat % hllRegisters
  let rank := hllPatLen (hash elem >>> 14)
  (getRegister raw reg).bind fun old =>
    if rank ≤ old then some ([], false)
    else (setRegister (invalidate.apply raw) reg rank).map fun edits => (invalidate :: edits, true)

/-- One register of `Merge`. -/
def mergeStep (raw other : Bytes) (reg : Nat) : Option (List Edit) :=
  (getRegister raw reg).bind fun a =>
    (getRegister other reg).bind fun b => if a < b then setRegister raw reg b else some []

/-- `Merge` with one that shares no bytes with it. -/
def merge (raw other : Bytes) : Option Bytes :=
  ((range hllRegisters).foldlM (fun raw reg =>
    (mergeStep raw other reg).map (applyEdits raw)) raw).map invalidate.apply

/-! ## Count -/

def cached : UInt64 := UInt64.ofNat (((range 8).map fun i => (raw.getD (5 + i) 0).toNat * 256 ^ i).sum)

def registers : Option (List Nat) :=
  if isDense raw then (range hllRegisters).mapM (denseGetRegister raw)
  else (sparseRegisters raw).map fun values =>
    values.foldl (fun rs (reg, v) => rs.set reg v) (replicate hllRegisters 0)

/-- The number of registers with each value; a value above 51 is out of range. -/
def histogram (registers : List Nat) : Option (List Nat) :=
  if registers.all (· < 52) then some ((range 52).map registers.count) else none

/-- `Count`, from the estimate for a histogram. -/
def count (estimate : List Nat → UInt64) (raw : Bytes) : Option (List Edit × UInt64) :=
  if raw[14]?.any (· ≠ 0) then some ([], cached raw)
  else
    ((registers raw).bind histogram).map fun histogram =>
      let est := estimate histogram
      ([.write ((range 8).map (fun i => (5 + i, UInt8.ofNat (est.toNat / 256 ^ i))) ++ [(14, 1)])], est)

/-! ## The hash function -/

def word (b : Bytes) : UInt64 := UInt64.ofNat (((range 8).map fun i => (b.getD i 0).toNat * 256 ^ i).sum)

def murmurM : UInt64 := 0xc6a4a7935bd1e995

/-- A block of `murmurHash64A`. -/
def murmurBlock (h k : UInt64) : UInt64 :=
  let k := k * murmurM
  let k := k ^^^ (k >>> 47)
  (h ^^^ (k * murmurM)) * murmurM

/-- The blocks and the tail of `murmurHash64A`. -/
def murmurWords (h : UInt64) : Bytes → UInt64
  | b₀ :: b₁ :: b₂ :: b₃ :: b₄ :: b₅ :: b₆ :: b₇ :: rest =>
    murmurWords (murmurBlock h (word [b₀, b₁, b₂, b₃, b₄, b₅, b₆, b₇])) rest
  | [] => h
  | tail => (h ^^^ word tail) * murmurM

/-- `murmurHash64A` with the seed of HyperLogLogs. -/
def murmurHash64A (data : Bytes) : UInt64 :=
  let h := murmurWords (0xadc83b19 ^^^ (UInt64.ofNat data.length * murmurM)) data
  let h := (h ^^^ (h >>> 47)) * murmurM
  h ^^^ (h >>> 47)

end Hayakv.Engine.Hll
