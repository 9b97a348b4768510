import Mathlib.Data.Nat.Bitwise
import Mathlib.Data.List.Basic

/-!
# Fields of bits in a string of bytes

Bit `k` of a string is bit `k % 8` of its byte `k / 8`. A field is a number kept in some
consecutive bits, which may straddle two bytes. What a write does is said of the bits
(`bitAt_set`), and two strings of one length are equal if their bits are (`ext_bits`).
-/

namespace Hayakv.BitFields

open List

/-- Bit `k` of a string; none is set behind its end. -/
def bitAt (bs : List UInt8) (k : Nat) : Bool := (bs.getD (k / 8) 0).toNat.testBit (k % 8)

variable {bs cs : List UInt8} {i k n off w v v' : Nat}

theorem bitAt_set (h : i < bs.length) (b : UInt8) :
    bitAt (bs.set i b) k = if k / 8 = i then b.toNat.testBit (k % 8) else bitAt bs k := by
  simp only [bitAt, getD_eq_getElem?_getD, getElem?_set]
  by_cases hk : k / 8 = i
  · simp [hk, h]
  · simp [hk, Ne.symm hk]

theorem bitAt_byte (bs : List UInt8) (i : Nat) {j : Nat} (hj : j < 8) :
    bitAt bs (8 * i + j) = (bs.getD i 0).toNat.testBit j := by
  have hdiv : (8 * i + j) / 8 = i := by omega
  have hmod : (8 * i + j) % 8 = j := by omega
  rw [bitAt, hdiv, hmod]

theorem getD_eq_of_bits (h : ∀ j < 8, bitAt bs (8 * i + j) = bitAt cs (8 * i + j)) : bs.getD i 0 = cs.getD i 0 := by
  refine UInt8.toNat_inj.1 (Nat.eq_of_testBit_eq fun j => ?_)
  rcases Nat.lt_or_ge j 8 with hj | hj
  · rw [← bitAt_byte bs i hj, ← bitAt_byte cs i hj]
    exact h j hj
  · have hlt : ∀ b : UInt8, b.toNat.testBit j = false := fun b =>
      Nat.testBit_lt_two_pow (b.toNat_lt.trans_le (Nat.pow_le_pow_right (by decide) hj))
    rw [hlt, hlt]

theorem take_eq_of_bits (hlen : bs.length = cs.length) (h : ∀ k < 8 * n, bitAt bs k = bitAt cs k) :
    bs.take n = cs.take n := by
  refine ext_getElem (by simp [hlen]) fun i hi hi' => ?_
  have hin : i < n := by
    rw [length_take] at hi
    omega
  have hbyte : bs.getD i 0 = cs.getD i 0 := getD_eq_of_bits fun j hj => h _ (by omega)
  rw [length_take] at hi hi'
  rw [getD_eq_getElem _ _ (by omega), getD_eq_getElem _ _ (by omega)] at hbyte
  rw [getElem_take, getElem_take, hbyte]

theorem ext_bits (hlen : bs.length = cs.length) (h : ∀ k, bitAt bs k = bitAt cs k) : bs = cs := by
  have htake := take_eq_of_bits (n := bs.length) hlen fun k _ => h k
  rwa [take_length, hlen, take_length] at htake

theorem drop_eq_of_bits (hlen : bs.length = cs.length) (h : ∀ k, 8 * n ≤ k → bitAt bs k = bitAt cs k) :
    bs.drop n = cs.drop n := by
  refine ext_getElem (by simp [hlen]) fun i hi hi' => ?_
  have hbyte : bs.getD (n + i) 0 = cs.getD (n + i) 0 := getD_eq_of_bits fun j _ => h _ (by omega)
  rw [length_drop] at hi hi'
  rw [getD_eq_getElem _ _ (by omega), getD_eq_getElem _ _ (by omega)] at hbyte
  rw [getElem_drop, getElem_drop, hbyte]

/-- The field of `w` bits from `off` on holds `v`. -/
structure IsField (bs : List UInt8) (off w v : Nat) : Prop where
  lt : v < 2 ^ w
  bits : ∀ j < w, v.testBit j = bitAt bs (off + j)

theorem IsField.eq (h : IsField bs off w v) (h' : IsField bs off w v') : v = v' := by
  refine Nat.eq_of_testBit_eq fun j => ?_
  rcases Nat.lt_or_ge j w with hj | hj
  · rw [h.bits j hj, h'.bits j hj]
  · rw [Nat.testBit_lt_two_pow (h.lt.trans_le (Nat.pow_le_pow_right (by decide) hj)),
      Nat.testBit_lt_two_pow (h'.lt.trans_le (Nat.pow_le_pow_right (by decide) hj))]

theorem IsField.congr (h : IsField bs off w v) (hbits : ∀ j < w, bitAt cs (off + j) = bitAt bs (off + j)) :
    IsField cs off w v :=
  ⟨h.lt, fun j hj => (h.bits j hj).trans (hbits j hj).symm⟩

/-- `cs` is `bs` with `v` written into a field. -/
structure Written (bs : List UInt8) (off w v : Nat) (cs : List UInt8) : Prop where
  length : cs.length = bs.length
  bits : ∀ k, bitAt cs k = if off ≤ k ∧ k < off + w then v.testBit (k - off) else bitAt bs k

section

variable (h : Written bs off w v cs)
include h

theorem Written.self (hv : v < 2 ^ w) : IsField cs off w v := by
  refine ⟨hv, fun j hj => ?_⟩
  rw [h.bits, if_pos (by omega), Nat.add_sub_cancel_left]

theorem Written.other {off' w' : Nat} (hdisjoint : off' + w' ≤ off ∨ off + w ≤ off')
    (hf : IsField bs off' w' v') : IsField cs off' w' v' := by
  refine hf.congr fun j hj => ?_
  rw [h.bits, if_neg (by omega)]

theorem Written.take (hn : 8 * n ≤ off) : cs.take n = bs.take n := by
  refine take_eq_of_bits h.length fun k hk => ?_
  rw [h.bits, if_neg (by omega)]

theorem Written.drop (hn : off + w ≤ 8 * n) : cs.drop n = bs.drop n := by
  refine drop_eq_of_bits h.length fun k hk => ?_
  rw [h.bits, if_neg (by omega)]

theorem Written.eq_self (hf : IsField bs off w v) : cs = bs := by
  refine ext_bits h.length fun k => ?_
  rw [h.bits]
  split
  · rename_i hk
    obtain ⟨j, rfl⟩ : ∃ j, k = off + j := ⟨k - off, by omega⟩
    rw [Nat.add_sub_cancel_left, hf.bits j (by omega)]
  · rfl

end

end Hayakv.BitFields
