import Hayakv.Engine.Hll
import Hayakv.Lib.BitFields

/-!
# Dense registers

A dense register is a field of 6 bits. The offset of register `reg` is `hllHdrSize + 6 * reg`, in
bits, where `hllHdrSize` is a number of bytes: the registers start in the third byte of the
header, and the first nineteen of them lie on it in whole or in part.
-/

namespace Hayakv.Hll

open Engine.Hll BitFields List

def offset (reg : Nat) : Nat := hllHdrSize + reg * 6

variable {raw raw' : Bytes} {reg val : Nat}

/-- The string is long enough for a register. -/
def Reaches (raw : Bytes) (reg : Nat) : Prop := offset reg / 8 + 1 < raw.length

theorem Reaches.bytes (h : Reaches raw reg) : raw[offset reg / 8]? = some (raw.getD (offset reg / 8) 0) ∧
    raw[offset reg / 8 + 1]? = some (raw.getD (offset reg / 8 + 1) 0) := by
  rw [Reaches] at h
  rw [getElem?_eq_getElem (by omega), getElem?_eq_getElem h, getD_eq_getElem _ _ (by omega), getD_eq_getElem _ _ h]
  exact ⟨rfl, rfl⟩

theorem testBit_word (b c : UInt8) (m : Nat) :
    (b.toNat + c.toNat * 256).testBit m = if m < 8 then b.toNat.testBit m else c.toNat.testBit (m - 8) := by
  have hsum : b.toNat + c.toNat * 256 = 2 ^ 8 * c.toNat + b.toNat := by omega
  rw [hsum]
  exact Nat.testBit_two_pow_mul_add c.toNat b.toNat_lt m

theorem testBit_word_bitAt (raw : Bytes) (k : Nat) {j : Nat} (hj : j < 8) :
    ((raw.getD (k / 8) 0).toNat + (raw.getD (k / 8 + 1) 0).toNat * 256).testBit (k % 8 + j) = bitAt raw (k + j) := by
  rw [testBit_word]
  split
  · rw [show k + j = 8 * (k / 8) + (k % 8 + j) by omega, bitAt_byte _ _ (by omega)]
  · rw [show k + j = 8 * (k / 8 + 1) + (k % 8 + j - 8) by omega, bitAt_byte _ _ (by omega)]

theorem Reaches.register (h : Reaches raw reg) :
    ∃ v, denseGetRegister raw reg = some v ∧ IsField raw (offset reg) 6 v := by
  have hbytes := h.bytes
  simp only [offset] at hbytes
  refine ⟨_, by simp only [denseGetRegister, hbytes.1, hbytes.2]; rfl, Nat.mod_lt _ (by decide), fun j hj => ?_⟩
  rw [Nat.testBit_mod_two_pow, Nat.testBit_div_two_pow, decide_eq_true hj, Bool.true_and, add_comm j]
  exact testBit_word_bitAt raw (offset reg) (by omega)

theorem denseGetRegister_eq_some (h : Reaches raw reg) (v : Nat) :
    denseGetRegister raw reg = some v ↔ IsField raw (offset reg) 6 v := by
  obtain ⟨u, hu, hfield⟩ := h.register
  rw [hu]
  refine ⟨fun heq => ?_, fun hv => ?_⟩
  · cases heq
    exact hfield
  · rw [hfield.eq hv]

/-! ## Writing -/

theorem testBit_value (s m : Nat) (hm : m < 16) :
    (BitVec.ofNat 16 val <<< s).getLsbD m = (decide (s ≤ m) && val.testBit (m - s)) := by
  rw [BitVec.getLsbD_shiftLeft, BitVec.getLsbD_ofNat]
  by_cases hs : m < s
  · simp [hs]
  · have hlt : m - s < 16 := by omega
    simp [hs, hm, hlt, Nat.le_of_not_lt hs]

theorem writeBit (old : Bool) (s m : Nat) (hm : m < 16) (hval : val < 2 ^ 6) :
    ((old && !(0x3F#16 <<< s).getLsbD m) || (BitVec.ofNat 16 val <<< s).getLsbD m) =
      if s ≤ m ∧ m < s + 6 then val.testBit (m - s) else old := by
  have hmask : (63).testBit (m - s) = decide (m - s < 6) := Nat.testBit_two_pow_sub_one 6 _
  rw [testBit_value s m hm, testBit_value s m hm, hmask]
  by_cases hs : s ≤ m
  · by_cases hend : m < s + 6
    · simp [hs, hend, show m - s < 6 by omega]
    · have hout : val.testBit (m - s) = false :=
        Nat.testBit_lt_two_pow (hval.trans_le (Nat.pow_le_pow_right (by decide) (by omega)))
      simp [hs, hend, hout, show ¬m - s < 6 by omega]
  · simp [hs]

theorem testBit_byte (b : UInt8) (x y : BitVec 16) {m : Nat} (hm : m < 8) :
    (UInt8.ofBitVec ((b.toBitVec &&& ~~~(x.setWidth 8)) ||| y.setWidth 8)).toNat.testBit m =
      (b.toNat.testBit m && !x.getLsbD m || y.getLsbD m) := by
  show BitVec.getLsbD _ m = _
  rw [BitVec.getLsbD_or, BitVec.getLsbD_and, BitVec.getLsbD_not, BitVec.getLsbD_setWidth, BitVec.getLsbD_setWidth,
    decide_eq_true hm, Bool.true_and, Bool.true_and, Bool.true_and]
  rfl

theorem denseSetRegister_written (h : Reaches raw reg) (hval : val < 2 ^ 6) :
    ∃ ws, denseSetRegister raw reg val = some ws ∧ Written raw (offset reg) 6 val (Edit.apply raw (.write ws)) := by
  have hbytes := h.bytes
  have hlen : offset reg / 8 + 1 < raw.length := h
  refine ⟨_, by simp only [denseSetRegister, ← offset.eq_1, hbytes.1, hbytes.2]; rfl, ?_, fun k => ?_⟩
  · simp [Edit.apply]
  · simp only [Edit.apply, foldl_cons, foldl_nil]
    rw [bitAt_set (by rw [length_set]; exact hlen), bitAt_set (by omega),
      testBit_byte _ _ _ (Nat.mod_lt _ (by decide)), testBit_byte _ _ _ (Nat.mod_lt _ (by decide)),
      BitVec.getLsbD_ushiftRight, BitVec.getLsbD_ushiftRight, writeBit _ _ _ (by omega) hval, writeBit _ _ _ (by omega) hval]
    -- the bit is in the second byte, in the first, or in another
    by_cases hhigh : k / 8 = offset reg / 8 + 1
    · have hin : offset reg % 8 ≤ 8 + k % 8 ∧ 8 + k % 8 < offset reg % 8 + 6 ↔ offset reg ≤ k ∧ k < offset reg + 6 := by omega
      have hbit : 8 + k % 8 - offset reg % 8 = k - offset reg := by omega
      rw [if_pos hhigh, if_congr hin rfl rfl, hbit, bitAt, hhigh]
    rw [if_neg hhigh]
    by_cases hlow : k / 8 = offset reg / 8
    · have hin : offset reg % 8 ≤ k % 8 ∧ k % 8 < offset reg % 8 + 6 ↔ offset reg ≤ k ∧ k < offset reg + 6 := by omega
      have hbit : k % 8 - offset reg % 8 = k - offset reg := by omega
      rw [if_pos hlow, if_congr hin rfl rfl, hbit, bitAt, hlow]
    · rw [if_neg hlow, if_neg (by omega)]

/-! ## Registers and the header -/

theorem reaches (hlen : raw.length = hllHdrSize + hllDenseSize) (hreg : reg < hllRegisters) : Reaches raw reg := by
  rw [Reaches, hlen, offset]
  simp only [hllHdrSize, hllDenseSize, hllRegisters] at *
  omega

def SameRegisters (raw raw' : Bytes) : Prop :=
  ∀ reg < hllRegisters, denseGetRegister raw' reg = denseGetRegister raw reg

/-- The bits of a value that fall on the header are there. -/
def HeaderHas (raw : Bytes) (reg val : Nat) : Prop :=
  ∀ k < 8 * hllHdrSize, offset reg ≤ k → k < offset reg + 6 → val.testBit (k - offset reg) = bitAt raw k

section

variable (hlen : raw.length = hllHdrSize + hllDenseSize)
include hlen

theorem SameRegisters.byte (h : SameRegisters raw raw') (hlen' : raw'.length = raw.length) {i : Nat} (hlo : 2 ≤ i)
    (hhi : i < hllHdrSize) : raw'.getD i 0 = raw.getD i 0 := by
  refine getD_eq_of_bits fun j hj => ?_
  have hk : 8 * i + j = offset ((8 * i + j - 16) / 6) + (8 * i + j - 16) % 6 := by
    simp only [offset, hllHdrSize]
    omega
  have hreg : (8 * i + j - 16) / 6 < hllRegisters := by
    simp only [hllHdrSize, hllRegisters] at *
    omega
  obtain ⟨v, hv, hfield⟩ := (reaches hlen hreg).register
  have hfield' := (denseGetRegister_eq_some (reaches (hlen'.trans hlen) hreg) v).1 ((h _ hreg).trans hv)
  rw [hk, ← hfield'.bits _ (Nat.mod_lt _ (by decide)), hfield.bits _ (Nat.mod_lt _ (by decide))]

/-- To write the mark of the cached estimate changes no register only if it is the mark already. -/
theorem SameRegisters.mark {b : UInt8} {ws : List (Nat × UInt8)}
    (h : SameRegisters raw (Edit.apply raw (.write (ws ++ [(14, b)])))) : raw.getD 14 0 = b := by
  have hwrite (raw : Bytes) (ws : List (Nat × UInt8)) : (Edit.apply raw (.write ws)).length = raw.length := by
    induction ws generalizing raw with
    | nil => rfl
    | cons w ws ih => exact (ih _).trans (length_set ..)
  rw [← h.byte hlen (hwrite ..) (by decide) (by decide), Edit.apply, foldl_append]
  have h14 : 14 < (Edit.apply raw (.write ws)).length := by simp [hwrite, hlen, hllHdrSize, hllDenseSize]
  simp only [Edit.apply] at h14
  simp [getD_eq_getElem?_getD, h14]

omit hlen in
theorem take_header_iff (hw : Written raw (offset reg) 6 val raw') :
    raw'.take hllHdrSize = raw.take hllHdrSize ↔ HeaderHas raw reg val := by
  have hbyte (bs : Bytes) {i : Nat} (hi : i < hllHdrSize) : (bs.take hllHdrSize).getD i 0 = bs.getD i 0 := by
    rw [getD_eq_getElem?_getD, getElem?_take_of_lt hi, getD_eq_getElem?_getD]
  refine ⟨fun h k hk hlo hhi => ?_, fun h => take_eq_of_bits hw.length fun k hk => ?_⟩
  · have hbit : bitAt raw' k = bitAt raw k := by
      rw [bitAt, bitAt, ← hbyte raw' (by omega), h, hbyte raw (by omega)]
    rw [← hbit, hw.bits, if_pos ⟨hlo, hhi⟩]
  · rw [hw.bits]
    split
    · exact h k hk (by omega) (by omega)
    · rfl

theorem sameRegisters_count {estimate : List Nat → UInt64} {r : List Edit × UInt64}
    (hr : Engine.Hll.count estimate raw = some r) : SameRegisters raw (applyEdits raw r.1) ↔ raw.getD 14 0 ≠ 0 := by
  have h14 : 14 < raw.length := by simp [hlen, hllHdrSize, hllDenseSize]
  rw [Engine.Hll.count, getElem?_eq_getElem h14, Option.any_some, ← getD_eq_getElem raw 0 h14] at hr
  split at hr
  · rename_i hvalid
    cases hr
    exact iff_of_true (fun _ _ => rfl) (of_decide_eq_true hvalid)
  · rename_i hinvalid
    obtain ⟨histogram, -, rfl⟩ := Option.map_eq_some_iff.1 hr
    have hzero : raw.getD 14 0 = 0 := by simpa using hinvalid
    exact iff_of_false (fun h => absurd (hzero.symm.trans (SameRegisters.mark hlen h)) (by decide)) (not_not.2 hzero)

theorem sameRegisters_invalidate : SameRegisters raw (invalidate.apply raw) ↔ raw.getD 14 0 = 0 := by
  refine ⟨@SameRegisters.mark _ hlen _ [], fun h => ?_⟩
  have h14 : 14 < raw.length := by simp [hlen, hllHdrSize, hllDenseSize]
  have hsame : raw.set 14 0 = raw := by rw [← h, getD_eq_getElem _ _ h14, set_getElem_self]
  exact fun reg _ => congrArg (denseGetRegister · reg) hsame

end

/-- Each register is a cell of its own: it reads as what it was set to, and the others as before. The header
stays as it is exactly if it has those bits of the value that fall on it; it does not change a register to
mark the cached estimate as invalid, or to store one, exactly if the mark was there before. -/
theorem dense_cells (hlen : raw.length = hllHdrSize + hllDenseSize) (hreg : reg < hllRegisters) (hval : val < 2 ^ 6) :
    (∃ ws, denseSetRegister raw reg val = some ws ∧ denseGetRegister (Edit.apply raw (.write ws)) reg = some val ∧
      (∀ i < hllRegisters, i ≠ reg → denseGetRegister (Edit.apply raw (.write ws)) i = denseGetRegister raw i) ∧
      ((Edit.apply raw (.write ws)).take hllHdrSize = raw.take hllHdrSize ↔ HeaderHas raw reg val)) ∧
    (SameRegisters raw (invalidate.apply raw) ↔ raw.getD 14 0 = 0) ∧
    ∀ estimate r, Engine.Hll.count estimate raw = some r →
      (SameRegisters raw (applyEdits raw r.1) ↔ raw.getD 14 0 ≠ 0) := by
  obtain ⟨ws, hset, hw⟩ := denseSetRegister_written (reaches hlen hreg) hval
  have hreaches (i : Nat) (hi : i < hllRegisters) := reaches (hw.length.trans hlen) hi
  refine ⟨⟨ws, hset, (denseGetRegister_eq_some (hreaches reg hreg) val).2 (hw.self hval), fun i hi hne => ?_,
    take_header_iff hw⟩, sameRegisters_invalidate hlen, fun _ _ hr => sameRegisters_count hlen hr⟩
  obtain ⟨v, hv, hfield⟩ := (reaches hlen hi).register
  rw [hv, denseGetRegister_eq_some (hreaches i hi)]
  refine hw.other ?_ hfield
  simp only [offset]
  omega

/-- A dense HyperLogLog without elements. -/
def emptyDense : Bytes := str "HYLL" ++ [1] ++ List.replicate 12299 0

theorem length_emptyDense : emptyDense.length = hllHdrSize + hllDenseSize := by
  rw [emptyDense, length_append, length_replicate]
  rfl

theorem dense_cells_emptyDense : isDense emptyDense = true ∧
    ∃ ws, denseSetRegister emptyDense 20 5 = some ws ∧ denseGetRegister (Edit.apply emptyDense (.write ws)) 20 = some 5 := by
  obtain ⟨⟨ws, hset, hget, -⟩, -⟩ := @dense_cells emptyDense 20 5 length_emptyDense (by decide) (by decide)
  exact ⟨by decide, ws, hset, hget⟩

/-- The first register is in the last two bytes of the magic. -/
theorem first_register_in_header : ∃ ws, isDense emptyDense = true ∧ emptyDense.length = hllHdrSize + hllDenseSize ∧
    denseSetRegister emptyDense 0 1 = some ws ∧
    (Edit.apply emptyDense (.write ws)).take hllHdrSize ≠ emptyDense.take hllHdrSize := by
  obtain ⟨ws, hset, hw⟩ := @denseSetRegister_written emptyDense 0 1 (reaches length_emptyDense (by decide)) (by decide)
  refine ⟨ws, by decide, length_emptyDense, hset, fun h => ?_⟩
  exact absurd ((take_header_iff hw).1 h 16 (by decide) (by decide) (by decide)) (by decide)

end Hayakv.Hll
