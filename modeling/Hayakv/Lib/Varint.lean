import Hayakv.Lib.GoText

/-!
# Varints

Go's `encoding/binary`: `AppendUvarint` writes seven bits a byte, the lowest first, with the top bit
set on all bytes but the last; `Uvarint` reads at most ten bytes and refuses what has more than 64
bits. `Varint` writes a signed number after zigzag. Each reader reads back what its writer wrote,
whatever follows (`uvarint_append`, `varint_append`).
-/

namespace Hayakv

open UInt8

/-- The loop of `AppendUvarint`, for a number of at most `n + 1` groups of seven bits. -/
def uvarintBytes : Nat → Nat → Bytes
  | 0, x => [ofNat x]
  | n + 1, x => if x < 128 then [ofNat x] else ofNat (x % 128 + 128) :: uvarintBytes n (x / 128)

/-- `binary.AppendUvarint`, to an empty slice. -/
def appendUvarint (x : Nat) : Bytes := uvarintBytes 9 x

/-- The loop of `binary.Uvarint` at byte `i`, with the value `x` so far. -/
def uvarintFrom (i x : Nat) : Bytes → Option (Nat × Nat)
  | [] => none
  | b :: buf =>
    if i = 10 then none
    else if b < 128 then
      if i = 9 ∧ 1 < b then none else some (x + b.toNat * 2 ^ (7 * i), i + 1)
    else uvarintFrom (i + 1) (x + b.toNat % 128 * 2 ^ (7 * i)) buf

/-- `binary.Uvarint`: the value and the number of bytes read. -/
def uvarint (buf : Bytes) : Option (Nat × Nat) := uvarintFrom 0 0 buf

/-- `binary.AppendVarint`, to an empty slice. -/
def appendVarint (x : Int) : Bytes := appendUvarint (if x < 0 then (-2 * x - 1).toNat else (2 * x).toNat)

def varint (buf : Bytes) : Option (Int × Nat) :=
  (uvarint buf).map fun (u, n) => (if u % 2 = 0 then ((u / 2 : Nat) : Int) else -((u / 2 : Nat) : Int) - 1, n)

theorem uvarintFrom_append {n x : Nat} (i : Nat) (hi : i + n = 9) (hx : x < 2 ^ (7 * n + 1)) (v : Nat)
    (rest : Bytes) : uvarintFrom i v (uvarintBytes n x ++ rest) =
      some (v + x * 2 ^ (7 * i), i + (uvarintBytes n x).length) := by
  induction n generalizing i x v with
  | zero =>
    have hb : (ofNat x).toNat = x := by
      rw [toNat_ofNat']
      omega
    have hsmall : ofNat x < 128 := by
      rw [lt_iff_toNat_lt, hb]
      change x < 128
      omega
    have hone : ¬1 < ofNat x := by
      rw [lt_iff_toNat_lt, hb]
      change ¬1 < x
      omega
    simp [uvarintBytes, uvarintFrom, show i ≠ 10 by omega, hsmall, hone, hb]
  | succ n ih =>
    by_cases hlt : x < 128
    · have hb : (ofNat x).toNat = x := by
        rw [toNat_ofNat']
        omega
      have hsmall : ofNat x < 128 := by
        rw [lt_iff_toNat_lt, hb]
        exact hlt
      simp [uvarintBytes, uvarintFrom, hlt, show i ≠ 10 by omega, show i ≠ 9 by omega, hsmall, hb]
    have hb : (ofNat (x % 128 + 128)).toNat = x % 128 + 128 := by
      rw [toNat_ofNat']
      omega
    have hlarge : ¬ofNat (x % 128 + 128) < 128 := by
      rw [lt_iff_toNat_lt, hb]
      change ¬_ < 128
      omega
    have hx' : x / 128 < 2 ^ (7 * n + 1) := by
      have : 2 ^ (7 * (n + 1) + 1) = 128 * 2 ^ (7 * n + 1) := by
        rw [show 7 * (n + 1) + 1 = 7 + (7 * n + 1) by ring, pow_add]
        norm_num
      omega
    have hstep := ih (i + 1) (by omega) hx' (v + (x % 128 + 128) % 128 * 2 ^ (7 * i))
    rw [uvarintBytes, if_neg hlt, List.cons_append, uvarintFrom, if_neg (by omega), if_neg hlarge, hb, hstep]
    have hval : (x % 128 + 128) % 128 * 2 ^ (7 * i) + x / 128 * 2 ^ (7 * (i + 1)) = x * 2 ^ (7 * i) := by
      rw [show 7 * (i + 1) = 7 + 7 * i by ring, pow_add, ← mul_assoc, ← add_mul]
      congr 1
      omega
    rw [List.length_cons, add_assoc, hval]
    congr 2
    omega

theorem uvarint_append {x : Nat} (hx : x < 2 ^ 64) (rest : Bytes) :
    uvarint (appendUvarint x ++ rest) = some (x, (appendUvarint x).length) := by
  have h := uvarintFrom_append 0 (n := 9) rfl hx 0 rest
  simpa [uvarint, appendUvarint] using h

theorem varint_append {x : Int} (hlo : -2 ^ 63 ≤ x) (hhi : x < 2 ^ 63) (rest : Bytes) :
    varint (appendVarint x ++ rest) = some (x, (appendVarint x).length) := by
  by_cases hneg : x < 0
  · have hread := uvarint_append (x := (-2 * x - 1).toNat) (by omega) rest
    simp only [varint, appendVarint, if_pos hneg, hread, Option.map_some, Option.some.injEq, Prod.mk.injEq, and_true]
    omega
  · have hread := uvarint_append (x := (2 * x).toNat) (by omega) rest
    simp only [varint, appendVarint, if_neg hneg, hread, Option.map_some, Option.some.injEq, Prod.mk.injEq, and_true]
    omega

end Hayakv
