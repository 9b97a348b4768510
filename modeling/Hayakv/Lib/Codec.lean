import Mathlib.Data.List.Basic
import Hayakv.Lib.GoText

/-!
# Readers of an encoding

A reader takes elements off the front of its input and folds them into a check as it goes. `Reads`
says that a reader takes exactly the given elements and answers the given value, whatever comes after
them and whatever the check is so far; it has one rule for each way to build a reader, so that a decoder
is proved against its encoder part by part.

The last section is about the bytes of numbers, lowest first.
-/

namespace Hayakv

variable {β γ ε α α' : Type}

/-- A reader of elements `β` with a check `γ` and errors `ε`. -/
abbrev Reader (β γ ε α : Type) : Type := StateT (List β × γ) (Except ε) α

namespace Reader

/-- The next element, or `eof`. -/
def next (step : γ → β → γ) (eof : ε) : Reader β γ ε β := fun (rest, c) =>
  match rest with
  | [] => .error eof
  | b :: rest => .ok (b, rest, step c b)

/-- The next `n` elements; `eof` if there are none and `short` if there are too few. -/
def take (step : γ → β → γ) (eof short : ε) (n : Nat) : Reader β γ ε (List β) := fun (rest, c) =>
  if n ≤ rest.length then .ok (rest.take n, rest.drop n, (rest.take n).foldl step c)
  else if rest = [] then .error eof
  else .error short

/-- `n` values one after another. -/
def many (item : Reader β γ ε α) : Nat → Reader β γ ε (List α)
  | 0 => pure []
  | n + 1 => do
    let a ← item
    let as ← many item n
    pure (a :: as)

def mapError {ε' : Type} (f : ε → ε') (r : Reader β γ ε α) : Reader β γ ε' α := fun inp =>
  match r inp with
  | .ok res => .ok res
  | .error e => .error (f e)

end Reader

/-- The reader takes `bs` and answers `a`. -/
def Reads (step : γ → β → γ) (r : Reader β γ ε α) (bs : List β) (a : α) : Prop :=
  ∀ rest c, r (bs ++ rest, c) = .ok (a, rest, bs.foldl step c)

namespace Reads

variable {step : γ → β → γ} {r : Reader β γ ε α} {bs cs : List β} {a : α} {a' : α'}

theorem pure (a : α) : Reads step (pure a : Reader β γ ε α) [] a := fun _ _ => rfl

variable {f : α → Reader β γ ε α'}

theorem bind (h : Reads step r bs a) (hf : Reads step (f a) cs a') : Reads step (r >>= f) (bs ++ cs) a' := by
  intro rest c
  show (r (bs ++ cs ++ rest, c)).bind (fun p => f p.1 p.2) = _
  rw [List.append_assoc, h, List.foldl_append]
  exact hf rest _

theorem bind_nil (h : Reads step r bs a) (hf : Reads step (f a) [] a') : Reads step (r >>= f) bs a' := by
  simpa using h.bind hf

theorem next {eof : ε} (b : β) : Reads step (Reader.next step eof) [b] b := fun _ _ => rfl

theorem take {eof short : ε} (bs : List β) : Reads step (Reader.take step eof short bs.length) bs bs := by
  intro rest c
  rw [Reader.take, if_pos (by simp)]
  simp

theorem mapError {ε' : Type} (f : ε → ε') (h : Reads step r bs a) : Reads step (r.mapError f) bs a := by
  intro rest c
  rw [Reader.mapError, h]

theorem many {item : Reader β γ ε α} {enc : α → List β} {as : List α} (h : ∀ a ∈ as, Reads step item (enc a) a) :
    Reads step (Reader.many item as.length) (as.flatMap enc) as := by
  induction as with
  | nil => exact Reads.pure []
  | cons a as ih =>
    refine (h a List.mem_cons_self).bind ?_
    exact (ih fun b hb => h b (List.mem_cons_of_mem a hb)).bind_nil (.pure _)

end Reads

/-! ## The bytes of numbers -/

/-- The lowest `k` bytes of a number, lowest first. -/
def littleEndian : Nat → Nat → Bytes
  | 0, _ => []
  | k + 1, n => UInt8.ofNat n :: littleEndian k (n / 256)

def fromLittleEndian : Bytes → Nat
  | [] => 0
  | b :: bs => b.toNat + 256 * fromLittleEndian bs

@[simp] theorem length_littleEndian (k n : Nat) : (littleEndian k n).length = k := by
  induction k generalizing n with
  | zero => rfl
  | succ k ih => simp [littleEndian, ih]

theorem fromLittleEndian_littleEndian (k n : Nat) : fromLittleEndian (littleEndian k n) = n % 256 ^ k := by
  induction k generalizing n with
  | zero => simp [littleEndian, fromLittleEndian, Nat.mod_one]
  | succ k ih =>
    rw [littleEndian, fromLittleEndian, ih, UInt8.toNat_ofNat', pow_succ' 256, Nat.mod_mul]

def bigEndian (k n : Nat) : Bytes := (littleEndian k n).reverse

def fromBigEndian (bs : Bytes) : Nat := fromLittleEndian bs.reverse

@[simp] theorem length_bigEndian (k n : Nat) : (bigEndian k n).length = k := by simp [bigEndian]

theorem fromBigEndian_bigEndian (k n : Nat) : fromBigEndian (bigEndian k n) = n % 256 ^ k := by
  rw [fromBigEndian, bigEndian, List.reverse_reverse, fromLittleEndian_littleEndian]

end Hayakv
