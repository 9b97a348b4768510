import Mathlib

/-!
# Bit vectors as polynomials over GF(2)

Bit `i` is the coefficient of `X ^ i`: exclusive or is the sum, and a shift to the
left is a product with a power of `X`, up to the bits it loses.
-/

namespace Hayakv.BitPoly

open Polynomial

variable {w v : Nat}

noncomputable def poly (x : BitVec w) : (ZMod 2)[X] := ∑ i ∈ Finset.range w, monomial i (if x.getLsbD i then 1 else 0)

theorem coeff_poly (x : BitVec w) (i : Nat) : (poly x).coeff i = if x.getLsbD i then 1 else 0 := by
  rw [poly, finsetSum_coeff]
  by_cases hi : i < w
  · simp [coeff_monomial, hi]
  · simp [coeff_monomial, hi, BitVec.getLsbD_of_ge x i (not_lt.1 hi)]

theorem degree_poly_lt (x : BitVec w) : (poly x).degree < w := by
  refine (degree_lt_iff_coeff_zero _ _).2 fun i hi => ?_
  rw [coeff_poly, BitVec.getLsbD_of_ge x i hi, if_neg Bool.false_ne_true]

@[simp] theorem poly_zero : poly 0#w = 0 := by simp [poly]

theorem poly_xor (x y : BitVec w) : poly (x ^^^ y) = poly x + poly y := by
  ext i
  rw [coeff_add, coeff_poly, coeff_poly, coeff_poly, BitVec.getLsbD_xor]
  cases x.getLsbD i <;> cases y.getLsbD i <;> decide

theorem poly_setWidth {x : BitVec w} (h : ∀ i ≥ v, x.getLsbD i = false) : poly (x.setWidth v) = poly x := by
  ext i
  rw [coeff_poly, coeff_poly, BitVec.getLsbD_setWidth]
  by_cases hi : i < v
  · simp [hi]
  · simp [hi, h i (not_lt.1 hi)]

/-- The bits that a shift loses are the high ones. -/
theorem poly_shiftLeft (x : BitVec w) {k : Nat} (hk : k ≤ w) :
    poly (x <<< k) + poly (x >>> (w - k)) * X ^ w = poly x * X ^ k := by
  ext i
  rw [coeff_add, coeff_mul_X_pow', coeff_mul_X_pow', coeff_poly, coeff_poly, coeff_poly, BitVec.getLsbD_shiftLeft,
    BitVec.getLsbD_ushiftRight]
  by_cases hi : i < w
  · by_cases hik : i < k
    · simp [hi, hik, hi.not_ge, hik.not_ge]
    · simp [hi, hik, hi.not_ge, not_lt.1 hik]
  · rw [show w - k + (i - w) = i - k by omega]
    simp [hi, not_lt.1 hi, hk.trans (not_lt.1 hi)]

end Hayakv.BitPoly
