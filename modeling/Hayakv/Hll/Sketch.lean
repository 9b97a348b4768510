import Hayakv.Hll.Dense

/-!
# HyperLogLogs that start from `New`

`Sketch` is how a HyperLogLog came about: from `New` by `Add`, `Count` and `Merge` with another one.
It is right if register `i` is the greatest pattern length of the added elements that hash to `i`, and
`FromBytes` accepts it.

The body that `New` makes is longer than a sparse body may be, so the first element makes it dense.
Dense registers lie on the header: registers 0 to 3 on the magic and the encoding, others on the cached
estimate. So no HyperLogLog with an element is right. What remains is said of the registers behind
the header, when no element hashes to the first four.
-/

namespace Hayakv.Hll

open Engine.Hll BitFields Function Option
open List hiding merge
open List (cons_append length_append length_set length_take range replicate replicate_succ take_set)

variable {raw raw' other : Bytes} {reg val i n : Nat}

/-! ## The two states -/

/-- The body that `New` makes. -/
def blankBody : Bytes := [0x7F, 0xFF] ++ replicate (hllRegisters - 2) 0

/-- As `New` makes it, whatever the cached estimate. -/
structure Blank (raw : Bytes) : Prop where
  magic : raw.take 5 = str "HYLL" ++ [0]
  body : raw.drop hllHdrSize = blankBody

structure Dense (raw : Bytes) : Prop where
  magic : raw.take 5 = str "HYLL" ++ [1]
  length : raw.length = hllHdrSize + hllDenseSize

theorem length_blankBody : blankBody.length = hllRegisters := by
  rw [blankBody, length_append, length_replicate]
  rfl

theorem Blank.length (h : Blank raw) : raw.length = hllHdrSize + hllRegisters := by
  have hlen := congrArg List.length h.body
  rw [length_drop, length_blankBody] at hlen
  simp only [hllHdrSize, hllRegisters] at *
  omega

theorem getElem?_four (h : raw.take 5 = str "HYLL" ++ [b]) : raw[4]? = some b := by
  have htake : (raw.take 5)[4]? = some b := by
    rw [h]
    rfl
  rwa [getElem?_take_of_lt (by decide)] at htake

theorem Blank.not_isDense (h : Blank raw) : isDense raw = false := by
  rw [isDense, getElem?_four h.magic]
  rfl

theorem Dense.isDense (h : Dense raw) : isDense raw = true := by
  rw [Engine.Hll.isDense, getElem?_four h.magic]
  rfl

theorem accepts_of_magic {b : UInt8} (h : raw.take 5 = "HYLL" ++ [b]) (hlen : hllHdrSize ≤ raw.length) :
    accepts raw = true := by
  have htake : raw.take 4 = "HYLL" := by
    have := congrArg (take 4) h
    rw [take_take] at this
    exact this
  rw [accepts, htake]
  simpa using hlen

theorem blank_new : Blank new := ⟨rfl, rfl⟩

/-! ## A sparse body of zeros -/

theorem decode_replicate_zero (n : Nat) : decode (replicate n 0) = (replicate n (.zero 1, [0]), false) := by
  induction n with
  | zero => rfl
  | succ n ih =>
    have hzero : (0 : UInt8) &&& 0xC0 = 0 := by decide
    rw [replicate_succ, decode.eq_def]
    simp only [hzero, if_true, ih]
    rfl

theorem decode_xzero (rest : Bytes) : decode (0x7F :: 0xFF :: rest) =
    ((.xzero hllRegisters, [0x7F, 0xFF]) :: (decode rest).1, (decode rest).2) := by
  rfl

theorem decode_blankBody :
    decode blankBody = ((.xzero hllRegisters, [0x7F, 0xFF]) :: replicate (hllRegisters - 2) (.zero 1, [0]), false) := by
  rw [blankBody, cons_append, cons_append, nil_append, decode_xzero, decode_replicate_zero]

theorem Blank.getRegister (h : Blank raw) (hreg : reg < hllRegisters) : getRegister raw reg = some 0 := by
  have hfind : sparseFind reg 0 ((.xzero hllRegisters, [0x7F, 0xFF]) ::
      replicate (hllRegisters - 2) (.zero 1, [0])) = some 0 := by
    rw [sparseFind]
    · rw [zero_add, SparseOp.count, if_pos hreg]
    · exact fun v hv => by cases hv
  rw [Engine.Hll.getRegister, h.not_isDense, h.body, sparseGetRegister, decode_blankBody]
  simp only [hfind, Bool.false_eq_true, if_false]

/-- The zeros behind the first opcode make the body too long. -/
theorem Blank.sparseSetRegister (h : Blank raw) (hreg : reg < hllRegisters) (val : Nat) :
    sparseSetRegister (raw.drop hllHdrSize) reg val = some none := by
  have hzeros : ∀ n r, reg < r → (rewriteBody reg val r (replicate n (.zero 1, [0]))).length = n := by
    intro n
    induction n with
    | zero => exact fun _ _ => rfl
    | succ n ih =>
      intro r hr
      rw [replicate_succ, rewriteBody, if_pos (.inr hr), length_append, ih _ (by omega), length_singleton, add_comm]
  have hlong : hllDenseSize < (rewriteBody reg val 0
      ((.xzero hllRegisters, [0x7F, 0xFF]) :: replicate (hllRegisters - 2) (.zero 1, [0]))).length := by
    rw [rewriteBody, length_append, hzeros _ _ (by simpa [SparseOp.count] using hreg)]
    have : hllDenseSize < hllRegisters - 2 := by decide
    omega
  rw [h.body, Engine.Hll.sparseSetRegister, decode_blankBody]
  simp only [Bool.false_eq_true, if_false, hlong, true_or, if_true]

def promoted (raw : Bytes) : Bytes := (raw.take hllHdrSize).set 4 1 ++ replicate hllDenseSize 0

theorem Blank.sparseRegisters (h : Blank raw) : sparseRegisters raw = some [] := by
  rw [Engine.Hll.sparseRegisters, h.body, decode_blankBody]
  rfl

theorem Blank.promoteToDense (h : Blank raw) : promoteToDense raw = some (promoted raw) := by
  rw [Engine.Hll.promoteToDense, h.sparseRegisters]
  rfl

theorem Blank.dense_promoted (h : Blank raw) : Dense (promoted raw) := by
  have hlen := h.length
  refine ⟨?_, ?_⟩
  · have hfive : (promoted raw).take 5 = (raw.take 5).set 4 1 := by
      rw [promoted, take_append_of_le_length, take_set, take_take]
      · rfl
      · rw [length_set, length_take, hlen]
        decide
    rw [hfive, h.magic]
    rfl
  · rw [promoted, length_append, length_set, length_take, length_replicate, hlen]
    rfl

/-! ## Registers -/

/-- One of the two states. -/
def Shape (raw : Bytes) : Prop := Blank raw ∨ Dense raw

theorem Shape.accepts (h : Shape raw) : accepts raw = true := by
  rcases h with h | h
  · exact accepts_of_magic h.magic (by rw [h.length]; omega)
  · exact accepts_of_magic h.magic (by rw [h.length]; omega)

theorem Dense.getRegister (h : Dense raw) (reg : Nat) : getRegister raw reg = denseGetRegister raw reg := by
  rw [Engine.Hll.getRegister, h.isDense, if_pos rfl]

theorem Dense.getRegister_eq_some (h : Dense raw) (hreg : reg < hllRegisters) (v : Nat) :
    Engine.Hll.getRegister raw reg = some v ↔ IsField raw (offset reg) 6 v := by
  rw [h.getRegister, denseGetRegister_eq_some (reaches h.length hreg)]

def lowRegister : Nat → Nat
  | 0 => 12
  | 1 => 49
  | 2 => 20
  | _ => 0

theorem Dense.low (h : Dense raw) (hreg : reg < 4) : Engine.Hll.getRegister raw reg = some (lowRegister reg) := by
  have hbyte : ∀ i < 5, raw[i]? = (str "HYLL" ++ [1])[i]? := by
    intro i hi
    rw [← h.magic, getElem?_take_of_lt hi]
  have htwo : raw[2]? = some 0x4C := hbyte 2 (by decide)
  have hthree : raw[3]? = some 0x4C := hbyte 3 (by decide)
  have hfour : raw[4]? = some 1 := hbyte 4 (by decide)
  obtain ⟨b, hfive⟩ : ∃ b, raw[5]? = some b := by
    have hlt : 5 < raw.length := by
      rw [h.length]
      decide
    exact ⟨_, getElem?_eq_getElem hlt⟩
  rw [h.getRegister]
  rcases (by omega : reg = 0 ∨ reg = 1 ∨ reg = 2 ∨ reg = 3) with rfl | rfl | rfl | rfl
  · simp only [denseGetRegister, hllHdrSize, htwo, hthree]
    rfl
  · simp only [denseGetRegister, hllHdrSize, htwo, hthree]
    rfl
  · simp only [denseGetRegister, hllHdrSize, hthree, hfour]
    rfl
  · simp only [denseGetRegister, hllHdrSize, hfour, hfive]
    have hhigh : (1 + b.toNat * 256) / 4 % 64 = 0 := by omega
    exact congrArg some hhigh

def toDense (raw : Bytes) : Bytes := if isDense raw then raw else promoted raw

theorem Blank.toDense (h : Blank raw) : toDense raw = promoted raw := by
  rw [Hll.toDense, h.not_isDense]
  rfl

theorem Dense.toDense (h : Dense raw) : toDense raw = raw := by
  rw [Hll.toDense, h.isDense, if_pos rfl]

theorem Shape.toDense (h : Shape raw) : Dense (toDense raw) := by
  rcases h with h | h
  · rw [h.toDense]
    exact h.dense_promoted
  · rw [h.toDense]
    exact h

theorem setRegister_written (h : Shape raw) (hreg : reg < hllRegisters) (hval : val < 2 ^ 6) :
    ∃ edits, setRegister raw reg val = some edits ∧
      Written (toDense raw) (offset reg) 6 val (applyEdits raw edits) := by
  obtain ⟨ws, hset, hw⟩ := denseSetRegister_written (reaches h.toDense.length hreg) hval
  rcases h with h | h
  · rw [h.toDense] at hset hw ⊢
    refine ⟨[.replace (promoted raw), .write ws], ?_, hw⟩
    rw [setRegister, h.not_isDense, h.sparseSetRegister hreg, h.promoteToDense]
    simp only [Bool.false_eq_true, if_false, bind_some, hset, map_some]
  · rw [h.toDense] at hset hw ⊢
    refine ⟨[.write ws], ?_, hw⟩
    rw [setRegister, h.isDense, if_pos rfl, hset]
    rfl

/-! ## The registers behind the header -/

/-- The registers that share no byte with the header hold these values. -/
def Holds (raw : Bytes) (f : Nat → Nat) : Prop := ∀ i, 19 ≤ i → i < hllRegisters → getRegister raw i = some (f i)

variable {f g : Nat → Nat}

theorem Holds.congr (h : Holds raw f) (hf : ∀ i, 19 ≤ i → i < hllRegisters → f i = g i) : Holds raw g :=
  fun i hi hlt => (h i hi hlt).trans (congrArg some (hf i hi hlt))

theorem Blank.holds_promoted (h : Blank raw) : Holds (promoted raw) fun _ => 0 := by
  have hd := h.dense_promoted
  intro i hi hlt
  refine (hd.getRegister_eq_some hlt 0).2 ⟨by decide, fun j hj => ?_⟩
  have hlen : ((raw.take hllHdrSize).set 4 1).length = hllHdrSize := by
    rw [length_set, length_take, h.length]
    rfl
  have hbyte : (promoted raw).getD ((offset i + j) / 8) 0 = 0 := by
    rw [promoted, getD_append_right _ _ _ _ (by rw [hlen, offset, hllHdrSize]; omega), getD_eq_getElem?_getD,
      getElem?_replicate]
    split <;> rfl
  rw [Nat.zero_testBit, bitAt, hbyte]
  exact (Nat.zero_testBit _).symm

theorem Shape.holds_toDense (h : Shape raw) (hf : Holds raw f) : Holds (Hll.toDense raw) f := by
  rcases h with h | h
  · rw [h.toDense]
    refine h.holds_promoted.congr fun i hi hlt => ?_
    have hzero := hf i hi hlt
    rw [h.getRegister hlt] at hzero
    exact some.inj hzero
  · rw [h.toDense]
    exact hf

/-- A register is written: the others behind the header keep their value, and this one has its own. -/
theorem Dense.written (h : Dense raw) (hreg : 4 ≤ reg) (hlt : reg < hllRegisters) (hval : val < 2 ^ 6)
    (hw : Written raw (offset reg) 6 val raw') (hf : Holds raw f) : Dense raw' ∧ Holds raw' (update f reg val) := by
  have hoff : 40 ≤ offset reg := by
    rw [offset, hllHdrSize]
    omega
  have hd : Dense raw' := ⟨(hw.take (by omega)).trans h.magic, hw.length.trans h.length⟩
  refine ⟨hd, fun i hi hilt => (hd.getRegister_eq_some hilt _).2 ?_⟩
  by_cases heq : i = reg
  · subst heq
    rw [update_self]
    exact hw.self hval
  · rw [update_of_ne heq]
    refine hw.other ?_ ((h.getRegister_eq_some hilt _).1 (hf i hi hilt))
    rw [offset, offset]
    omega

/-- The first sixteen bytes change, but not the first five. -/
structure HeaderOnly (raw raw' : Bytes) : Prop where
  magic : raw'.take 5 = raw.take 5
  length : raw'.length = raw.length
  body : raw'.drop hllHdrSize = raw.drop hllHdrSize

theorem headerOnly_write {ws : List (Nat × UInt8)} (hws : ∀ w ∈ ws, 5 ≤ w.1 ∧ w.1 < hllHdrSize) (raw : Bytes) :
    HeaderOnly raw (Edit.apply raw (.write ws)) := by
  induction ws generalizing raw with
  | nil => exact ⟨rfl, rfl, rfl⟩
  | cons w ws ih =>
    obtain ⟨⟨hlow, hhigh⟩, hws⟩ := forall_mem_cons.1 hws
    obtain ⟨hmagic, hlen, hbody⟩ := ih hws (raw.set w.1 w.2)
    refine ⟨hmagic.trans ?_, hlen.trans (length_set ..), hbody.trans ?_⟩
    · rw [take_set, set_eq_of_length_le]
      rw [length_take]
      omega
    · rw [drop_set, if_pos hhigh]

section

variable (h : HeaderOnly raw raw')
include h

theorem HeaderOnly.blank (hb : Blank raw) : Blank raw' := ⟨h.magic.trans hb.magic, h.body.trans hb.body⟩

theorem HeaderOnly.dense (hd : Dense raw) : Dense raw' := ⟨h.magic.trans hd.magic, h.length.trans hd.length⟩

theorem HeaderOnly.shape (hs : Shape raw) : Shape raw' := hs.imp h.blank h.dense

theorem HeaderOnly.holds (hs : Shape raw) (hf : Holds raw f) : Holds raw' f := by
  rcases hs with hb | hd
  · intro i hi hlt
    rw [(h.blank hb).getRegister hlt, ← hb.getRegister hlt]
    exact hf i hi hlt
  intro i hi hlt
  refine ((h.dense hd).getRegister_eq_some hlt _).2 (((hd.getRegister_eq_some hlt _).1 (hf i hi hlt)).congr fun j hj => ?_)
  -- the bytes of the register are those of the body
  obtain ⟨m, hm⟩ : ∃ m, (offset i + j) / 8 = hllHdrSize + m := by
    rw [offset, hllHdrSize]
    exact ⟨(16 + i * 6 + j) / 8 - 16, by omega⟩
  have hbyte : raw'.getD (hllHdrSize + m) 0 = raw.getD (hllHdrSize + m) 0 := by
    rw [getD_eq_getElem?_getD, getD_eq_getElem?_getD, ← getElem?_drop, ← getElem?_drop, h.body]
  rw [bitAt, bitAt, hm, hbyte]

end

/-! ## `Add`, `Count` and `Merge` -/

variable {hash : Bytes → UInt64} {estimate : List Nat → UInt64}

def index (hash : Bytes → UInt64) (elem : Bytes) : Nat := (hash elem).toNat % hllRegisters

def patLen (hash : Bytes → UInt64) (elem : Bytes) : Nat := hllPatLen (hash elem >>> 14)

theorem patLen_pos (hash : Bytes → UInt64) (elem : Bytes) : 0 < patLen hash elem := Nat.succ_pos _

theorem patLen_lt (hash : Bytes → UInt64) (elem : Bytes) : patLen hash elem < 2 ^ 6 := by
  have hle := (takeWhile_sublist (fun i => !(hash elem >>> 14).toNat.testBit i) (l := range 50)).length_le
  rw [length_range] at hle
  rw [patLen, hllPatLen]
  omega

theorem index_lt (hash : Bytes → UInt64) (elem : Bytes) : index hash elem < hllRegisters := Nat.mod_lt _ (by decide)

theorem headerOnly_invalidate (raw : Bytes) : HeaderOnly raw (invalidate.apply raw) :=
  headerOnly_write (by simp [hllHdrSize]) raw

theorem Shape.getRegister (h : Shape raw) (hreg : reg < hllRegisters) :
    ∃ v, Engine.Hll.getRegister raw reg = some v ∧ v < 2 ^ 6 := by
  rcases h with h | h
  · exact ⟨0, h.getRegister hreg, by decide⟩
  · obtain ⟨v, hv, hfield⟩ := (reaches h.length hreg).register
    exact ⟨v, (h.getRegister reg).trans hv, hfield.lt⟩

theorem Shape.setRegister (h : Shape raw) (hf : Holds raw f) (hreg : 4 ≤ reg) (hlt : reg < hllRegisters)
    (hval : val < 2 ^ 6) : ∃ edits, setRegister raw reg val = some edits ∧ Dense (applyEdits raw edits) ∧
      Holds (applyEdits raw edits) (update f reg val) := by
  obtain ⟨edits, hset, hw⟩ := setRegister_written h hlt hval
  exact ⟨edits, hset, h.toDense.written hreg hlt hval hw (h.holds_toDense hf)⟩

theorem Shape.add (h : Shape raw) (hf : Holds raw f) {elem : Bytes} (hidx : 4 ≤ index hash elem) :
    ∃ r, add hash raw elem = some r ∧ Shape (applyEdits raw r.1) ∧
      Holds (applyEdits raw r.1) fun i => if index hash elem = i then max (f i) (patLen hash elem) else f i := by
  have hlt := index_lt hash elem
  obtain ⟨old, hold, -⟩ := h.getRegister hlt
  have hval : ∀ i, 19 ≤ i → i < hllRegisters → index hash elem = i → old = f i := by
    rintro i hi hilt rfl
    exact some.inj (hold.symm.trans (hf _ hi hilt))
  simp only [Engine.Hll.add, ← index.eq_1, ← patLen.eq_1, hold, bind_some]
  split
  · rename_i hle
    refine ⟨([], false), rfl, h, hf.congr fun i hi hilt => ?_⟩
    split
    · rename_i heq
      rw [← hval i hi hilt heq, max_eq_left hle]
    · rfl
  · rename_i hgt
    have hinv := headerOnly_invalidate raw
    obtain ⟨edits, hset, hd, hf'⟩ := (hinv.shape h).setRegister (hinv.holds h hf) hidx hlt (patLen_lt hash elem)
    refine ⟨(invalidate :: edits, true), by rw [hset]; rfl, .inr hd, hf'.congr fun i hi hilt => ?_⟩
    by_cases heq : index hash elem = i
    · rw [if_pos heq, ← hval i hi hilt heq, ← heq, update_self, max_eq_right (by omega)]
    · rw [if_neg heq, update_of_ne (Ne.symm heq)]

theorem headerOnly_count {r : List Edit × UInt64} (h : count estimate raw = some r) :
    HeaderOnly raw (applyEdits raw r.1) := by
  rw [Engine.Hll.count] at h
  split at h
  · cases h
    exact ⟨rfl, rfl, rfl⟩
  obtain ⟨histogram, -, rfl⟩ := map_eq_some_iff.1 h
  refine headerOnly_write (fun w hw => ?_) raw
  rcases mem_append.1 hw with hw | hw
  · obtain ⟨i, hi, rfl⟩ := mem_map.1 hw
    rw [mem_range] at hi
    simp only [hllHdrSize]
    omega
  · rw [mem_singleton.1 hw]
    decide

def mergedUpTo (f g : Nat → Nat) (n i : Nat) : Nat := if i < n then max (f i) (g i) else f i

theorem Shape.mergeStep (h : Shape raw) (ho : Shape other) (hn : n < hllRegisters) (hf : Holds raw (mergedUpTo f g n))
    (hg : Holds other g) : ∃ edits, mergeStep raw other n = some edits ∧ Shape (applyEdits raw edits) ∧
      Holds (applyEdits raw edits) (mergedUpTo f g (n + 1)) := by
  obtain ⟨a, ha, -⟩ := h.getRegister hn
  obtain ⟨b, hb, hb64⟩ := ho.getRegister hn
  have hval : 19 ≤ n → a = f n ∧ b = g n := by
    intro hle
    have hfa := some.inj (ha.symm.trans (hf n hle hn))
    rw [mergedUpTo, if_neg (by omega)] at hfa
    exact ⟨hfa, some.inj (hb.symm.trans (hg n hle hn))⟩
  have hother : ∀ i, i ≠ n → mergedUpTo f g (n + 1) i = mergedUpTo f g n i := by
    intro i hi
    exact if_congr (by omega) rfl rfl
  rw [Engine.Hll.mergeStep, ha, hb, bind_some, bind_some]
  split
  · rename_i hlt
    rcases lt_or_ge n 4 with hlow | hhigh
    · -- only the dense form of a blank one has such a register to set, and it has that value
      have hdense : Dense other := by
        refine ho.resolve_left fun hob => ?_
        rw [hob.getRegister hn] at hb
        cases hb
        omega
      have hbval : b = lowRegister n := some.inj (hb.symm.trans (hdense.low hlow))
      obtain ⟨edits, hset, hw⟩ := setRegister_written h hn hb64
      have hfield : IsField (Hll.toDense raw) (offset n) 6 b := by
        rw [hbval]
        exact (h.toDense.getRegister_eq_some hn _).1 (h.toDense.low hlow)
      have heq := hw.eq_self hfield
      refine ⟨edits, hset, ?_, ?_⟩
      · rw [heq]
        exact .inr h.toDense
      · rw [heq]
        exact (h.holds_toDense hf).congr fun i hi _ => (hother i (by omega)).symm
    · obtain ⟨edits, hset, hd, hf'⟩ := h.setRegister hf hhigh hn hb64
      refine ⟨edits, hset, .inr hd, hf'.congr fun i hi _ => ?_⟩
      by_cases heq : i = n
      · subst heq
        obtain ⟨rfl, rfl⟩ := hval hi
        rw [update_self, mergedUpTo, if_pos (Nat.lt_succ_self _), max_eq_right hlt.le]
      · rw [update_of_ne heq, hother i heq]
  · rename_i hge
    refine ⟨[], rfl, h, hf.congr fun i hi _ => ?_⟩
    by_cases heq : i = n
    · subst heq
      rw [mergedUpTo, mergedUpTo, if_neg (lt_irrefl _), if_pos (Nat.lt_succ_self _), max_eq_left (by omega)]
    · exact (hother i heq).symm

theorem Shape.merge (h : Shape raw) (ho : Shape other) (hf : Holds raw f) (hg : Holds other g) :
    ∃ raw', merge raw other = some raw' ∧ Shape raw' ∧ Holds raw' fun i => max (f i) (g i) := by
  have hfold : ∀ n ≤ hllRegisters, ∃ raw', (range n).foldlM (fun raw reg =>
      (Engine.Hll.mergeStep raw other reg).map (applyEdits raw)) raw = some raw' ∧ Shape raw' ∧
        Holds raw' (mergedUpTo f g n) := by
    intro n
    induction n with
    | zero => exact fun _ => ⟨raw, rfl, h, hf⟩
    | succ n ih =>
      intro hn
      obtain ⟨raw', hraw', hs, hfold⟩ := ih (by omega)
      obtain ⟨edits, hedits, hs', hfold'⟩ := hs.mergeStep ho (by omega) hfold hg
      refine ⟨_, ?_, hs', hfold'⟩
      rw [range_succ, foldlM_append, hraw']
      simp [hedits]
  obtain ⟨raw', hraw', hs, hf'⟩ := hfold hllRegisters le_rfl
  have hinv := headerOnly_invalidate raw'
  refine ⟨_, by rw [Engine.Hll.merge, hraw']; rfl, hinv.shape hs, (hinv.holds hs hf').congr fun i _ hlt => ?_⟩
  rw [mergedUpTo, if_pos hlt]

/-- `Count` on a blank one. -/
theorem Blank.histogram (h : Blank raw) : ∃ c, (registers raw).bind histogram = some c := by
  rw [registers, h.not_isDense, h.sparseRegisters]
  simp only [Bool.false_eq_true, if_false, map_some, foldl_nil, bind_some, Engine.Hll.histogram]
  rw [if_pos]
  · exact ⟨_, rfl⟩
  · rw [List.all_eq_true]
    intro v hv
    rw [eq_of_mem_replicate hv]
    decide

/-! ## Sketches -/

/-- How a HyperLogLog came about. -/
inductive Sketch where
  | new
  | add (s : Sketch) (elem : Bytes)
  | count (s : Sketch)
  | merge (s t : Sketch)

namespace Sketch

/-- The bytes; none for a panic. -/
def eval (hash : Bytes → UInt64) (estimate : List Nat → UInt64) : Sketch → Option Bytes
  | new => some Engine.Hll.new
  | add s elem => (s.eval hash estimate).bind fun raw => (Engine.Hll.add hash raw elem).map fun r => applyEdits raw r.1
  | count s => (s.eval hash estimate).bind fun raw => (Engine.Hll.count estimate raw).map fun r => applyEdits raw r.1
  | merge s t => (s.eval hash estimate).bind fun raw => (t.eval hash estimate).bind fun other => Engine.Hll.merge raw other

def elems : Sketch → List Bytes
  | new => []
  | add s elem => elem :: s.elems
  | count s => s.elems
  | merge s t => s.elems ++ t.elems

/-- `Count` is called nowhere. -/
def uncounted : Sketch → Bool
  | new => true
  | add s _ => s.uncounted
  | count _ => false
  | merge s t => s.uncounted && t.uncounted

end Sketch

/-- The greatest pattern length of the elements that hash to a register. -/
def maxPat (hash : Bytes → UInt64) (i : Nat) : List Bytes → Nat
  | [] => 0
  | elem :: elems => if index hash elem = i then max (maxPat hash i elems) (patLen hash elem) else maxPat hash i elems

theorem maxPat_append (hash : Bytes → UInt64) (i : Nat) (xs ys : List Bytes) :
    maxPat hash i (xs ++ ys) = max (maxPat hash i xs) (maxPat hash i ys) := by
  induction xs with
  | nil => exact (zero_max _).symm
  | cons x xs ih =>
    rw [cons_append, maxPat, maxPat, ih]
    split
    · omega
    · rfl

namespace Sketch

def Right (hash : Bytes → UInt64) (estimate : List Nat → UInt64) (s : Sketch) : Prop :=
  ∃ raw, s.eval hash estimate = some raw ∧ accepts raw = true ∧
    ∀ i < hllRegisters, getRegister raw i = some (maxPat hash i s.elems)

def AllRight (hash : Bytes → UInt64) (estimate : List Nat → UInt64) : Sketch → Prop
  | new => Right hash estimate new
  | add s elem => s.AllRight hash estimate ∧ Right hash estimate (add s elem)
  | count s => s.AllRight hash estimate ∧ Right hash estimate (count s)
  | merge s t => s.AllRight hash estimate ∧ t.AllRight hash estimate ∧ Right hash estimate (merge s t)

variable {s t : Sketch}

/-! ## Without elements -/

theorem right_of_blank (h : Blank raw) (hs : s.eval hash estimate = some raw) (helems : s.elems = []) :
    Right hash estimate s := by
  refine ⟨raw, hs, Shape.accepts (.inl h), fun i hi => ?_⟩
  rw [h.getRegister hi, helems]
  rfl

theorem blank_of_elems_eq_nil (hash : Bytes → UInt64) (estimate : List Nat → UInt64) (s : Sketch) (h : s.elems = []) :
    AllRight hash estimate s ∧ ∃ raw, s.eval hash estimate = some raw ∧ Blank raw := by
  induction s with
  | new => exact ⟨right_of_blank blank_new rfl rfl, _, rfl, blank_new⟩
  | add s elem => cases h
  | count s ih =>
    obtain ⟨hall, raw, hraw, hb⟩ := ih h
    obtain ⟨r, hr⟩ : ∃ r, Engine.Hll.count estimate raw = some r := by
      obtain ⟨c, hc⟩ := hb.histogram
      rw [Engine.Hll.count, hc]
      split
      · exact ⟨_, rfl⟩
      · exact ⟨_, rfl⟩
    have hb' : Blank (applyEdits raw r.1) := (headerOnly_count hr).blank hb
    have heval : (count s).eval hash estimate = some (applyEdits raw r.1) := by
      rw [eval, hraw, bind_some, hr]
      rfl
    exact ⟨⟨hall, right_of_blank hb' heval h⟩, _, heval, hb'⟩
  | merge s t ihs iht =>
    obtain ⟨hs, ht⟩ := append_eq_nil_iff.1 h
    obtain ⟨halls, raw, hraw, hb⟩ := ihs hs
    obtain ⟨hallt, other, hother, hbo⟩ := iht ht
    have hfold : ∀ regs : List Nat, (∀ reg ∈ regs, reg < hllRegisters) → regs.foldlM (fun raw reg =>
        (mergeStep raw other reg).map (applyEdits raw)) raw = some raw := by
      intro regs
      induction regs with
      | nil => exact fun _ => rfl
      | cons reg regs ih =>
        intro hregs
        obtain ⟨hreg, hregs⟩ := forall_mem_cons.1 hregs
        rw [foldlM_cons, mergeStep, hb.getRegister hreg, hbo.getRegister hreg]
        exact ih hregs
    have hb' : Blank (invalidate.apply raw) := (headerOnly_invalidate raw).blank hb
    have heval : (merge s t).eval hash estimate = some (invalidate.apply raw) := by
      rw [eval, hraw, hother, bind_some, bind_some, Engine.Hll.merge, hfold _ fun reg hreg => mem_range.1 hreg]
      rfl
    exact ⟨⟨halls, hallt, right_of_blank hb' heval h⟩, _, heval, hb'⟩

/-! ## The first element -/

theorem sparseFind_replicate_zero {target r n : Nat} (hr : r ≤ target) (hn : target < r + n) :
    sparseFind target r (replicate n (.zero 1, [0])) = some 0 := by
  induction n generalizing r with
  | zero => omega
  | succ n ih =>
    rw [replicate_succ, sparseFind]
    · rw [SparseOp.count]
      split
      · rfl
      · exact ih (by omega) (by omega)
    · exact fun v hv => by cases hv

theorem eval_first (hb : Blank raw) (hs : s.eval hash estimate = some raw) (elem : Bytes) :
    ∃ d raw', Dense d ∧ d.drop hllHdrSize = replicate hllDenseSize 0 ∧
      (add s elem).eval hash estimate = some raw' ∧ Written d (offset (index hash elem)) 6 (patLen hash elem) raw' := by
  have hlt := index_lt hash elem
  have hpos := patLen_pos hash elem
  have hb' : Blank (invalidate.apply raw) := (headerOnly_invalidate raw).blank hb
  obtain ⟨edits, hset, hw⟩ := setRegister_written (.inl hb') hlt (patLen_lt hash elem)
  rw [hb'.toDense] at hw
  have hadd : Engine.Hll.add hash raw elem = some (invalidate :: edits, true) := by
    simp only [Engine.Hll.add, ← index.eq_1, ← patLen.eq_1, hb.getRegister hlt, bind_some]
    rw [if_neg (by omega), hset]
    rfl
  refine ⟨_, _, hb'.dense_promoted, ?_, by rw [eval, hs, bind_some, hadd]; rfl, hw⟩
  have hheader : (((invalidate.apply raw).take hllHdrSize).set 4 1).length = hllHdrSize := by
    rw [length_set, length_take, hb'.length]
    rfl
  rw [promoted, drop_append_of_le_length hheader.ge, drop_of_length_le hheader.le, nil_append]

/-- The first element makes the header a part of the registers: whatever it is, one of registers 0 and 1 is wrong, or
the encoding is, and with it the register of the element. -/
theorem not_right_first {elem : Bytes} (hb : Blank raw) (hs : s.eval hash estimate = some raw) (helems : s.elems = []) :
    ¬ Right hash estimate (add s elem) := by
  have hlt := index_lt hash elem
  have hpos := patLen_pos hash elem
  obtain ⟨d, raw', hd, hzeros, heval, hw⟩ := eval_first hb hs elem
  rintro ⟨raw'', hraw'', -, hregs⟩
  rw [heval] at hraw''
  cases hraw''
  have hlen := hw.length.trans hd.length
  rw [elems, helems] at hregs
  cases hdense : isDense raw' with
  | true =>
    -- one of the first two registers is not that of the element
    obtain ⟨i, hi, hne, hlow⟩ : ∃ i < 4, index hash elem ≠ i ∧ lowRegister i ≠ 0 := by
      by_cases h0 : index hash elem = 0
      · exact ⟨1, by decide, by omega, by decide⟩
      · exact ⟨0, by decide, h0, by decide⟩
    have hilt : i < hllRegisters := hi.trans (by decide)
    have hfield : IsField raw' (offset i) 6 (lowRegister i) := by
      refine hw.other ?_ ((hd.getRegister_eq_some hilt _).1 (hd.low hi))
      rw [offset, offset]
      omega
    have hread := hregs i hilt
    rw [Engine.Hll.getRegister, hdense, if_pos rfl, (denseGetRegister_eq_some (reaches hlen hilt) _).2 hfield, maxPat,
      if_neg hne] at hread
    exact hlow (some.inj hread)
  | false =>
    have hidx : index hash elem < 4 := by
      by_contra hge
      have hmagic : raw'.take 5 = str "HYLL" ++ [1] := by
        refine (hw.take ?_).trans hd.magic
        rw [offset, hllHdrSize]
        omega
      rw [isDense, getElem?_four hmagic] at hdense
      cases hdense
    have hbody : raw'.drop hllHdrSize = replicate hllDenseSize 0 := by
      refine (hw.drop ?_).trans hzeros
      rw [offset, hllHdrSize]
      omega
    have hread := hregs _ hlt
    rw [Engine.Hll.getRegister, hdense, hbody, sparseGetRegister, decode_replicate_zero] at hread
    simp only [Bool.false_eq_true, if_false,
      sparseFind_replicate_zero (Nat.zero_le _) (show index hash elem < 0 + hllDenseSize by rw [hllDenseSize]; omega), maxPat,
      if_true, some.injEq] at hread
    omega

theorem allRight_iff (s : Sketch) : AllRight hash estimate s ↔ s.elems = [] := by
  refine ⟨fun h => ?_, fun h => (blank_of_elems_eq_nil hash estimate s h).1⟩
  induction s with
  | new => rfl
  | add s elem ih =>
    obtain ⟨-, raw, hraw, hb⟩ := blank_of_elems_eq_nil hash estimate s (ih h.1)
    exact absurd h.2 (not_right_first hb hraw (ih h.1))
  | count s ih => exact ih h.1
  | merge s t ihs iht => exact append_eq_nil_iff.2 ⟨ihs h.1, iht h.2.1⟩

/-! ## Behind the header -/

theorem holds_new : Holds Engine.Hll.new fun _ => 0 := fun _ _ hlt => blank_new.getRegister hlt

/-- Where no element hashes to the magic and the encoding, what is behind the header is right; only `Count` panics. -/
theorem eval_cases (estimate : List Nat → UInt64) (s : Sketch) (hidx : ∀ elem ∈ s.elems, 4 ≤ index hash elem) :
    (∃ raw, s.eval hash estimate = some raw ∧ Shape raw ∧ Holds raw fun i => maxPat hash i s.elems) ∨
      s.eval hash estimate = none ∧ s.uncounted = false := by
  induction s with
  | new => exact .inl ⟨_, rfl, .inl blank_new, holds_new⟩
  | add s elem ih =>
    obtain ⟨helem, hrest⟩ := forall_mem_cons.1 hidx
    rcases ih hrest with ⟨raw, hraw, hs, hf⟩ | ⟨hnone, hun⟩
    · obtain ⟨r, hr, hs', hf'⟩ := hs.add hf helem
      exact .inl ⟨_, by rw [eval, hraw, bind_some, hr]; rfl, hs', hf'⟩
    · exact .inr ⟨by rw [eval, hnone]; rfl, hun⟩
  | count s ih =>
    rcases ih hidx with ⟨raw, hraw, hs, hf⟩ | ⟨hnone, -⟩
    · cases hr : Engine.Hll.count estimate raw with
      | none => exact .inr ⟨by rw [eval, hraw, bind_some, hr]; rfl, rfl⟩
      | some r =>
        have hheader := headerOnly_count hr
        exact .inl ⟨_, by rw [eval, hraw, bind_some, hr]; rfl, hheader.shape hs, hheader.holds hs hf⟩
    · exact .inr ⟨by rw [eval, hnone]; rfl, rfl⟩
  | merge s t ihs iht =>
    rcases ihs fun elem he => hidx elem (mem_append_left _ he) with ⟨raw, hraw, hs, hf⟩ | ⟨hnone, hun⟩
    · rcases iht fun elem he => hidx elem (mem_append_right _ he) with ⟨other, hother, ht, hg⟩ | ⟨hnone, hun⟩
      · obtain ⟨raw', hraw', hs', hf'⟩ := hs.merge ht hf hg
        refine .inl ⟨raw', by rw [eval, hraw, hother, bind_some, bind_some, hraw'], hs', ?_⟩
        exact hf'.congr fun i _ _ => (maxPat_append hash i s.elems t.elems).symm
      · exact .inr ⟨by rw [eval, hraw, hnone]; rfl, by rw [uncounted, hun, Bool.and_false]⟩
    · exact .inr ⟨by rw [eval, hnone]; rfl, by rw [uncounted, hun, Bool.false_and]⟩

/-- A sketch is right all along if and only if nothing is added to it. When no element hashes to the magic or the
encoding, its header is valid and its registers behind the header are right, whenever it evaluates, which it does
if it is never counted. -/
theorem sketch_run (hash : Bytes → UInt64) (estimate : List Nat → UInt64) (s : Sketch) :
    (AllRight hash estimate s ↔ s.elems = []) ∧ ((∀ elem ∈ s.elems, 4 ≤ index hash elem) →
        (∀ raw, s.eval hash estimate = some raw → accepts raw = true ∧
          ∀ i, 19 ≤ i → i < hllRegisters → getRegister raw i = some (maxPat hash i s.elems)) ∧
        (s.uncounted = true → ∃ raw, s.eval hash estimate = some raw)) := by
  refine ⟨allRight_iff s, fun hidx => ?_⟩
  rcases eval_cases estimate s hidx with ⟨raw, hraw, hs, hf⟩ | ⟨hnone, hun⟩
  · refine ⟨fun raw' hraw' => ?_, fun _ => ⟨raw, hraw⟩⟩
    cases hraw.symm.trans hraw'
    exact ⟨hs.accepts, hf⟩
  · simp [hnone, hun]

/-- An element that hashes to register 0, with the greatest pattern length. -/
theorem first_element_breaks_magic :
    ∃ raw, eval (fun _ => 0) (fun _ => 0) (add new []) = some raw ∧ accepts raw = false ∧
      ¬ ∀ hash estimate s, AllRight hash estimate s := by
  obtain ⟨d, raw, -, -, heval, hw⟩ := eval_first (s := new) blank_new rfl []
  refine ⟨raw, heval, ?_, fun h => ?_⟩
  · by_contra haccepts
    -- the lowest bit of the third byte is that of the pattern length, 51, and not that of an `L`
    have hbit : bitAt raw 16 = true := (hw.self (by decide)).bits 0 (by decide) |>.symm.trans (by decide)
    have htake : raw.take 4 = "HYLL" := by
      rw [Bool.not_eq_false, accepts, Bool.and_eq_true] at haccepts
      exact of_decide_eq_true haccepts.2
    have hbyte : raw.getD 2 0 = 0x4C := by
      have hget := congrArg (fun bs : Bytes => bs[2]?) htake
      simp only [getElem?_take_of_lt (show 2 < 4 by decide)] at hget
      rw [getD_eq_getElem?_getD, hget]
      rfl
    rw [bitAt, hbyte] at hbit
    revert hbit
    decide
  · have hright := (h (fun _ => 0) (fun _ => 0) (add new [])).2
    exact not_right_first blank_new rfl rfl hright

theorem sketch_run_behind : (∀ elem ∈ (add new []).elems, 4 ≤ index (fun _ => 20) elem) ∧
      ∃ raw, eval (fun _ => 20) (fun _ => 0) (add new []) = some raw ∧ accepts raw = true ∧ getRegister raw 20 = some 51 := by
  have hidx : ∀ elem ∈ (add new []).elems, 4 ≤ index (fun _ => 20) elem := by
    intro elem _
    exact (by decide : 4 ≤ (20 : UInt64).toNat % hllRegisters)
  obtain ⟨hall, hexists⟩ := (sketch_run (fun _ => 20) (fun _ => 0) (add new [])).2 hidx
  obtain ⟨raw, hraw⟩ := hexists rfl
  refine ⟨hidx, raw, hraw, (hall raw hraw).1, ?_⟩
  rw [(hall raw hraw).2 20 (by decide) (by decide)]
  decide

end Sketch

end Hayakv.Hll
