import Mathlib.Data.Nat.Bitwise

/-!
# Smearing bits to the right

`n |= n >> 1; n |= n >> 2; …` spreads every set bit of a number over the places
to its right. With the shifts `1, 2, …, 32` a set bit reaches the 63 places
below it, so a number under `2 ^ 64` becomes `2 ^ (log2 n + 1) - 1`.
-/

namespace Hayakv.BitSmear

/-- One smear: or a number with its own right shift. -/
def smear (w x : Nat) : Nat := x ||| x >>> w

/-- `x` is `y` with every set bit spread over itself and the `w - 1` places below. -/
def Spread (w y x : Nat) : Prop := ∀ j, x.testBit j = true ↔ ∃ t < w, y.testBit (j + t) = true

theorem spread_one (y : Nat) : Spread 1 y y := fun j => by simp

theorem Spread.smear {w y x : Nat} (h : Spread w y x) : Spread (2 * w) y (smear w x) := by
  intro j
  rw [BitSmear.smear, Nat.testBit_or, Nat.testBit_shiftRight, Bool.or_eq_true, h, h]
  constructor
  · rintro (⟨t, ht, hb⟩ | ⟨t, ht, hb⟩)
    · exact ⟨t, by omega, hb⟩
    · exact ⟨w + t, by omega, by rwa [show j + (w + t) = w + j + t by omega]⟩
  · rintro ⟨t, ht, hb⟩
    rcases lt_or_ge t w with htw | htw
    · exact .inl ⟨t, htw, hb⟩
    · exact .inr ⟨t - w, by omega, by rwa [show w + j + (t - w) = j + t by omega]⟩

/-- The smears by `1, 2, 4, 8, 16, 32`, in that order. -/
def smear64 (x : Nat) : Nat := smear 32 (smear 16 (smear 8 (smear 4 (smear 2 (smear 1 x)))))

theorem spread_smear64 (x : Nat) : Spread 64 x (smear64 x) := (spread_one x).smear.smear.smear.smear.smear.smear

/-- Below `2 ^ 64` the smears fill every place under the leading bit. -/
theorem smear64_eq {x : Nat} (h0 : x ≠ 0) (h : x < 2 ^ 64) : smear64 x = 2 ^ (x.log2 + 1) - 1 := by
  apply Nat.eq_of_testBit_eq
  intro j
  rw [Nat.testBit_two_pow_sub_one, Bool.eq_iff_iff, spread_smear64 x j, decide_eq_true_iff]
  have hlog : x.log2 < 64 := (Nat.log2_lt h0).2 h
  constructor
  · rintro ⟨t, -, hb⟩
    have := Nat.ge_two_pow_of_testBit hb
    have := (Nat.le_log2 h0).2 this
    omega
  · intro hj
    refine ⟨x.log2 - j, by omega, ?_⟩
    rw [show j + (x.log2 - j) = x.log2 by omega]
    exact Nat.testBit_log2 h0

theorem smear_ones (w p : Nat) : smear w (2 ^ p - 1) = 2 ^ p - 1 := by
  apply Nat.eq_of_testBit_eq
  intro j
  simp only [smear, Nat.testBit_or, Nat.testBit_shiftRight, Nat.testBit_two_pow_sub_one]
  by_cases h : j < p <;> simp [h]
  omega

theorem smear64_ones (p : Nat) : smear64 (2 ^ p - 1) = 2 ^ p - 1 := by
  simp only [smear64, smear_ones]

end Hayakv.BitSmear
