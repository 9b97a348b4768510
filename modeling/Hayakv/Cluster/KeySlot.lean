import Hayakv.Lib.BitPoly
import Hayakv.Lib.GoText

/-!
# Key slots

`internal/rediscluster/crc16.go`: the table-driven `crc16` is a remainder over GF(2) (`poly_crc16`). A
round of the table's loop, a table entry and a byte of the message each keep what they compute
congruent to the message modulo the generator. The part of a key that says its slot, in the two
cluster modes: `hashTag`, and `GetPartitionKey` of `internal/cluster/core/utils.go`, by where the
braces of a key stand (`hashTag_cases`).
-/

namespace Hayakv.Cluster

open List Polynomial BitPoly

/-! ## The checksum -/

/-- One round of the inner loop of `init`. -/
def crcShift (crc : BitVec 16) : BitVec 16 := if crc &&& 0x8000#16 ≠ 0 then (crc <<< 1) ^^^ 0x1021#16 else crc <<< 1

def crc16tab (i : BitVec 8) : BitVec 16 := crcShift^[8] (i.setWidth 16 <<< 8)

def crc16 (buf : Bytes) : BitVec 16 :=
  buf.foldl (fun crc b => (crc <<< 8) ^^^ crc16tab ((crc >>> 8).setWidth 8 ^^^ b.toBitVec)) 0

noncomputable def generator : (ZMod 2)[X] := X ^ 16 + X ^ 12 + X ^ 5 + 1

/-- The polynomial of a message, its first bit the highest coefficient. -/
noncomputable def message (buf : Bytes) : (ZMod 2)[X] := buf.foldl (fun p b => p * X ^ 8 + poly b.toBitVec) 0

theorem crcShift_dvd (crc : BitVec 16) : generator ∣ poly (crcShift crc) + poly crc * X := by
  have hmsb : crc &&& 0x8000#16 ≠ 0 ↔ 2 ^ 15 ≤ crc.toNat := by
    have hbit := (BitVec.msb_eq_getLsbD_last crc).symm.trans (BitVec.msb_eq_decide crc)
    rw [show 0x8000#16 = BitVec.twoPow 16 15 from rfl, BitVec.and_twoPow, hbit]
    simp
  rw [crcShift, ← pow_one X, ← poly_shiftLeft crc (show 1 ≤ 16 by decide)]
  split
  · have hone : crc >>> 15 = 1#16 := by bv_omega
    have hsum : poly 0x1021#16 + poly 1#16 * X ^ 16 = generator := by
      simp [generator, poly, Finset.sum_range_succ, ← X_pow_eq_monomial]
      ring
    refine ⟨1, ?_⟩
    rw [hone, poly_xor]
    linear_combination hsum + CharTwo.add_self_eq_zero (poly (crc <<< 1))
  · have hzero : crc >>> 15 = 0#16 := by bv_omega
    simp [hzero, CharTwo.add_self_eq_zero]

theorem crcShift_iterate_dvd (n : Nat) (crc : BitVec 16) : generator ∣ poly (crcShift^[n] crc) + poly crc * X ^ n := by
  induction n with
  | zero => simp [CharTwo.add_self_eq_zero]
  | succ n ih =>
    rw [Function.iterate_succ_apply']
    convert (crcShift_dvd (crcShift^[n] crc)).add (ih.mul_right X) using 1
    linear_combination - CharTwo.add_self_eq_zero (poly (crcShift^[n] crc) * X)

theorem crcByte_dvd (crc : BitVec 16) (b : BitVec 8) :
    generator ∣ poly ((crc <<< 8) ^^^ crc16tab ((crc >>> 8).setWidth 8 ^^^ b)) + (poly crc * X ^ 8 + poly b * X ^ 16) := by
  have hhigh : ∀ i : BitVec 8, poly (i.setWidth 16 <<< 8) = poly i * X ^ 8 := fun i => by
    have hzero : i.setWidth 16 >>> 8 = 0#16 := by bv_omega
    have hshift := poly_shiftLeft (i.setWidth 16) (show 8 ≤ 16 by decide)
    rw [hzero, poly_setWidth fun j hj => BitVec.getLsbD_of_ge i j (by omega)] at hshift
    simpa using hshift
  have hlow : poly ((crc >>> 8).setWidth 8) = poly (crc >>> 8) := poly_setWidth fun i hi => by
    rw [BitVec.getLsbD_ushiftRight, BitVec.getLsbD_of_ge crc _ (by omega)]
  have htab := crcShift_iterate_dvd 8 (((crc >>> 8).setWidth 8 ^^^ b).setWidth 16 <<< 8)
  rw [hhigh, poly_xor, hlow] at htab
  rw [poly_xor, ← poly_shiftLeft crc (show 8 ≤ 16 by decide)]
  convert htab using 1
  rw [crc16tab]
  linear_combination CharTwo.add_self_eq_zero (poly (crc <<< 8))

theorem poly_crc16 (buf : Bytes) : poly (crc16 buf) = (message buf * X ^ 16) %ₘ generator := by
  have hdvd : generator ∣ poly (crc16 buf) + message buf * X ^ 16 := by
    induction buf using List.reverseRecOn with
    | nil => simp [crc16, message]
    | append_singleton buf b ih =>
      rw [crc16, message, foldl_concat, foldl_concat, ← crc16, ← message]
      convert (crcByte_dvd (crc16 buf) b.toBitVec).add (ih.mul_right (X ^ 8)) using 1
      linear_combination - CharTwo.add_self_eq_zero (poly (crc16 buf) * X ^ 8)
  have hmonic : generator.Monic := by
    unfold generator
    monicity!
  have hdegree : generator.degree = 16 := by
    unfold generator
    compute_degree!
  rw [← (modByMonic_eq_self_iff hmonic).2 ((degree_poly_lt (crc16 buf)).trans_eq hdegree.symm)]
  refine modByMonic_eq_of_dvd_sub hmonic ?_
  rwa [CharTwo.sub_eq_add]

/-! ## Hash tags -/

variable (key : Bytes)

/-- The loops of `hashTag` stop at the first brace. -/
def hashTag : Bytes :=
  match key.idxOf? 123 with
  | none => key
  | some i =>
    match (key.drop (i + 1)).idxOf? 125 with
    | none | some 0 => key
    | some n => (key.drop (i + 1)).take n

def key2Slot : BitVec 16 := crc16 (hashTag key) % 16384

/-- The partition key, or `none` where the slice expression panics. -/
def getPartitionKey : Option Bytes :=
  match key.idxOf? 123, key.idxOf? 125 with
  | some i, some j => if j = i + 1 then some key else if j < i + 1 then none else some ((key.take j).drop (i + 1))
  | _, _ => some key

def defaultGetSlotImpl (crc32 : Bytes → UInt32) (key : Bytes) : Option UInt32 :=
  (getPartitionKey key).map fun partitionKey => crc32 partitionKey % 1024

/-- What stands between the first `{` and the first `}` after it. -/
def Tagged (key tag : Bytes) : Prop :=
  ∃ pre post, key = pre ++ 123 :: (tag ++ 125 :: post) ∧ 123 ∉ pre ∧ 125 ∉ tag ∧ tag ≠ []

theorem idxOf?_first {c : UInt8} {pre : Bytes} (h : c ∉ pre) (post : Bytes) :
    (pre ++ c :: post).idxOf? c = some pre.length := by
  rw [idxOf?, findIdx?_append, ← idxOf?, idxOf?_eq_none_iff.2 h]
  simp [idxOf?_cons]

theorem hashTag_braces {pre tag : Bytes} (hpre : 123 ∉ pre) (htag : 125 ∉ tag) (post : Bytes) :
    hashTag (pre ++ 123 :: (tag ++ 125 :: post)) = if tag = [] then pre ++ 123 :: (tag ++ 125 :: post) else tag := by
  have hdrop : (pre ++ 123 :: (tag ++ 125 :: post)).drop (pre.length + 1) = tag ++ 125 :: post := by simp
  simp only [hashTag, idxOf?_first hpre, hdrop, idxOf?_first htag]
  cases tag <;> simp

/-- A key has no opening brace, none that closes its first opening one, or both. -/
theorem hashTag_cases : 123 ∉ key ∧ hashTag key = key ∨ ∃ pre rest, key = pre ++ 123 :: rest ∧
    123 ∉ pre ∧ (125 ∉ rest ∧ hashTag key = key ∨ ∃ tag post, rest = tag ++ 125 :: post ∧ 125 ∉ tag) := by
  by_cases hopen : 123 ∈ key
  · obtain ⟨pre, rest, rfl, hpre⟩ := eq_append_cons_of_mem hopen
    refine .inr ⟨pre, rest, rfl, hpre, ?_⟩
    by_cases hclose : 125 ∈ rest
    · obtain ⟨tag, post, rfl, htag⟩ := eq_append_cons_of_mem hclose
      exact .inr ⟨tag, post, rfl, htag⟩
    · exact .inl ⟨hclose, by simp [hashTag, idxOf?_first hpre, idxOf?_eq_none_iff.2 hclose]⟩
  · exact .inl ⟨hopen, by rw [hashTag, idxOf?_eq_none_iff.2 hopen]⟩

theorem Tagged.hashTag_eq {key tag : Bytes} (h : Tagged key tag) : hashTag key = tag := by
  obtain ⟨pre, post, rfl, hpre, htag, hne⟩ := h
  rw [hashTag_braces hpre htag, if_neg hne]

theorem hashTag_of_not_tagged {key : Bytes} (h : ∀ tag, ¬Tagged key tag) : hashTag key = key := by
  obtain ⟨-, heq⟩ | ⟨pre, rest, rfl, hpre, ⟨-, heq⟩ | ⟨tag, post, rfl, htag⟩⟩ := hashTag_cases key
  · exact heq
  · exact heq
  · rw [hashTag_braces hpre htag, ite_eq_left_iff]
    exact fun hne => absurd ⟨pre, post, rfl, hpre, htag, hne⟩ (h tag)

/-- Keys with one tag share a slot, which is the checksum of the tag. -/
theorem key_slots : (∀ buf, poly (crc16 buf) = (message buf * X ^ 16) %ₘ generator) ∧
    (∀ tag, Tagged key tag → key2Slot key = crc16 tag % 16384) ∧
    ((∀ tag, ¬Tagged key tag) → key2Slot key = crc16 key % 16384) ∧
    ∀ key' tag, Tagged key tag → Tagged key' tag → key2Slot key = key2Slot key' := by
  refine ⟨poly_crc16, fun tag h => ?_, fun h => ?_, fun key' tag h h' => ?_⟩
  · rw [key2Slot, h.hashTag_eq]
  · rw [key2Slot, hashTag_of_not_tagged h]
  · rw [key2Slot, key2Slot, h.hashTag_eq, h'.hashTag_eq]

/-- `GetPartitionKey` takes the first `}` of the key, and not the first after `{`. -/
theorem partition_key (crc32 : Bytes → UInt32) (key : Bytes) : (getPartitionKey key = some (hashTag key) ∧
      defaultGetSlotImpl crc32 key = some (crc32 (hashTag key) % 1024)) ↔
    ¬(123 ∈ key ∧ 125 ∈ key.takeWhile (· ≠ 123)) := by
  rw [and_iff_left_of_imp fun h => by rw [defaultGetSlotImpl, h, Option.map_some]]
  obtain ⟨hopen, heq⟩ | ⟨pre, rest, rfl, hpre, hrest⟩ := hashTag_cases key
  · simp [getPartitionKey, idxOf?_eq_none_iff.2 hopen, heq, hopen]
  have hbefore : (pre ++ 123 :: rest).takeWhile (· ≠ 123) = pre := by
    rw [takeWhile_append_of_pos (by simpa using fun b hb (hc : b = 123) => hpre (hc ▸ hb))]
    simp
  simp only [getPartitionKey, idxOf?_first hpre, hbefore, mem_append, mem_cons, true_or, or_true, true_and]
  by_cases hclose : 125 ∈ pre
  · obtain ⟨p, q, rfl, hp⟩ := eq_append_cons_of_mem hclose
    have hj := idxOf?_first hp (q ++ 123 :: rest)
    simp only [append_assoc, cons_append, hj, hclose, not_true, iff_false]
    rw [if_neg (by simp; omega), if_pos (by simp)]
    simp
  simp only [hclose, not_false_iff, iff_true]
  obtain ⟨hnone, heq⟩ | ⟨tag, post, rfl, htag⟩ := hrest
  · rw [idxOf?_eq_none_iff.2 (by simp [hclose, hnone]), heq]
  · have hj := idxOf?_first (show 125 ∉ pre ++ 123 :: tag by simp [hclose, htag]) post
    rw [append_assoc, cons_append] at hj
    simp only [hj, hashTag_braces hpre htag, length_append, length_cons]
    by_cases hne : tag = []
    · simp [hne]
    · have hpos := length_pos_iff.2 hne
      rw [if_neg (by omega), if_neg (by omega), if_neg hne]
      simp [take_append, drop_append]

theorem partition_key_panics : ¬∀ key, getPartitionKey key = some (hashTag key) := by
  intro h
  exact absurd (h "\x7d\x7b") (by decide)

end Hayakv.Cluster
