import Hayakv.Dict.Model
import Mathlib.Tactic.Linarith

/-!
# What every reachable `RedisDict` satisfies

`HashTable.Inv`: a power of two of buckets, the mask that goes with it, and every
entry in the bucket of its key. `RedisDict.Inv`: keys are distinct over both
tables, `count` is the number of entries, and the dict is either `Idle` or
`Rehashing`: the buckets of `table0` below `rehashIdx` are empty, and `table1`
holds only keys whose bucket of `table0` is below `rehashIdx`.

`Inv.rehashStep` says that a step of the rehash keeps all this and the entries;
`Inv.modifyTable` does the same for a change of one chain.
-/

namespace Hayakv.Dict

open Chained List RedisDict

variable {V : Type*}

/-! ## `nextPower` -/

theorem nextPower_two_pow (p : Nat) (hp : 2 ≤ p) : nextPower (2 ^ p) = 2 ^ p := by
  have h4 : 2 ^ 2 ≤ 2 ^ p := Nat.pow_le_pow_right (by decide) hp
  rw [nextPower, minSize]
  split
  · omega
  · rw [BitSmear.smear64_ones]
    omega

/-- For a positive Go `int`, `nextPower` is a power of two, at least four, and at least `n`. -/
theorem nextPower_eq {n : Nat} (h : n < 2 ^ 63) :
    ∃ p, 2 ≤ p ∧ nextPower n = 2 ^ p ∧ n ≤ 2 ^ p ∧ (n ≤ 2 ^ 62 ↔ 2 ^ p < 2 ^ 63) := by
  rw [nextPower, minSize]
  split
  · exact ⟨2, le_rfl, rfl, by omega, by omega⟩
  rename_i hn
  have h0 : n - 1 ≠ 0 := by omega
  have hhi : n - 1 < 2 ^ ((n - 1).log2 + 1) := Nat.lt_log2_self
  have h2 : 2 ≤ (n - 1).log2 := (Nat.le_log2 h0).2 (by omega)
  rw [BitSmear.smear64_eq h0 (by omega)]
  refine ⟨(n - 1).log2 + 1, by omega, by omega, by omega, fun hle => ?_, fun hlt => ?_⟩
  · have : (n - 1).log2 < 62 := (Nat.log2_lt h0).2 (by omega)
    exact Nat.pow_lt_pow_right (by decide) (by omega)
  · have : (n - 1).log2 + 1 < 63 := (Nat.pow_lt_pow_iff_right (by decide)).1 hlt
    have : 2 ^ ((n - 1).log2 + 1) ≤ 2 ^ 62 := Nat.pow_le_pow_right (by decide) (by omega)
    omega

/-! ## One table -/

namespace HashTable

abbrev entries (ht : HashTable V) : List (Bytes × V) := ht.buckets.flatten

structure Inv (ht : HashTable V) : Prop where
  size : ∃ p, 2 ≤ p ∧ ht.buckets.length = 2 ^ p
  mask : ht.mask = UInt64.ofNat (ht.buckets.length - 1)
  placed : Placed ht.index ht.buckets

variable {ht : HashTable V}

theorem Inv.four_le (h : ht.Inv) : 4 ≤ ht.buckets.length := by
  obtain ⟨p, hp, hlen⟩ := h.size
  have : 2 ^ 2 ≤ 2 ^ p := Nat.pow_le_pow_right (by decide) hp
  omega

theorem Inv.index_lt (h : ht.Inv) (key : Bytes) : ht.index key < ht.buckets.length := by
  have h1 : ht.index key ≤ ht.mask.toNat := by
    exact Nat.and_le_right
  rw [h.mask, UInt64.toNat_ofNat'] at h1
  have := h.four_le
  omega

theorem inv_make {p : Nat} (hp : 2 ≤ p) : (make (2 ^ p) : HashTable V).Inv where
  size := ⟨p, hp, length_replicate⟩
  mask := by simp [make]
  placed := placed_replicate _ _

@[simp] theorem entries_make (sz : Nat) : (make sz : HashTable V).entries = [] := by
  simp [make, entries]

variable {key : Bytes}

/-- With distinct keys, `findEntry` finds the entries and nothing else. -/
theorem Inv.findEntry_eq_some (h : ht.Inv) (hnd : (keys ht.entries).Nodup) {v : V} :
    ht.findEntry key = some v ↔ (key, v) ∈ ht.entries := by
  have hsub : ht.chain key <+ ht.entries := by
    rw [chain, getD_eq_getElem _ _ (h.index_lt key)]
    exact sublist_flatten_of_mem (getElem_mem _)
  rw [findEntry, lookup_eq_some_iff_mem (hnd.sublist (hsub.map _)), mem_flatten_iff h.placed, chain]

/-- `ht'` is `ht` with the chain of `key` changed: only entries of `key` are new, and
`used` follows the number of entries. -/
structure Change (key : Bytes) (ht ht' : HashTable V) : Prop where
  inv : ht'.Inv
  mask : ht'.mask = ht.mask
  length : ht'.buckets.length = ht.buckets.length
  mem : ∀ e ∈ ht'.entries, e ∈ ht.entries ∨ e.1 = key
  used : ht'.used - ht.used = ht'.entries.length - ht.entries.length

theorem Inv.change (h : ht.Inv) {f : List (Bytes × V) → List (Bytes × V)} {used : Int}
    (hf : ∀ e ∈ f (ht.chain key), e ∈ ht.chain key ∨ e.1 = key)
    (hu : used - ht.used = (f (ht.chain key)).length - (ht.chain key).length) :
    Change key ht ⟨ht.buckets.modify (ht.index key) f, ht.mask, used⟩ where
  inv := {
    size := by simpa using h.size
    mask := by simpa using h.mask
    placed := h.placed.modify fun e he => (hf e he).imp id fun hk => congrArg ht.index hk }
  mask := rfl
  length := length_modify ..
  mem := fun e he => by
    have hnew := (flatten_modify (h.index_lt key) f).mem_iff.1 he
    have hold := (flatten_eraseIdx (h.index_lt key)).mem_iff (a := e)
    rw [mem_append] at hnew hold
    rcases hnew with hnew | hnew
    · exact (hf e hnew).imp (fun hc => hold.2 (.inl hc)) id
    · exact .inl (hold.2 (.inr hnew))
  used := by
    rw [(flatten_modify (h.index_lt key) f).length_eq, (flatten_eraseIdx (h.index_lt key)).length_eq,
      length_append, length_append, hu, chain]
    push_cast
    ring

theorem Inv.insert (h : ht.Inv) (e : Bytes × V) :
    Change e.1 ht (ht.insert e) ∧ (ht.insert e).entries ~ e :: ht.entries := by
  refine ⟨h.change (fun x hx => ?_) ?_, flatten_modify_cons (h.index_lt e.1) e⟩
  · rcases mem_cons.1 hx with rfl | hx
    · exact .inr rfl
    · exact .inl hx
  · rw [length_cons]
    push_cast
    ring

theorem Inv.split (h : ht.Inv) {v : V} (hf : ht.findEntry key = some v) : ∃ rest, ht.entries ~ (key, v) :: rest ∧
      (∀ v', (ht.setVal key v').entries ~ (key, v') :: rest ∧ Change key ht (ht.setVal key v')) ∧
      (ht.unlink key).entries ~ rest ∧ Change key ht (ht.unlink key) := by
  obtain ⟨rest, hes, hassign, hunlink⟩ := exists_split hf
  have hi := h.index_lt key
  refine ⟨rest ++ (ht.buckets.eraseIdx (ht.index key)).flatten,
    (flatten_eraseIdx hi).trans (hes.append_right _), fun v' =>
      ⟨(flatten_modify hi _).trans ((hassign v').append_right _), h.change (fun x hx => ?_) ?_⟩,
    (flatten_modify hi _).trans (.of_eq (congrArg (· ++ _) hunlink)), h.change (fun x hx => ?_) ?_⟩
  · rcases mem_cons.1 ((hassign v').mem_iff.1 hx) with rfl | hx
    · exact .inr rfl
    · exact .inl (hes.mem_iff.2 (mem_cons_of_mem _ hx))
  · rw [(hassign v').length_eq, hes.length_eq]
    simp
  · rw [hunlink] at hx
    exact .inl (hes.mem_iff.2 (mem_cons_of_mem _ hx))
  · rw [hunlink, hes.length_eq, length_cons]
    push_cast
    ring

theorem Inv.foldl_insert (h : ht.Inv) (es : List (Bytes × V)) :
    (es.foldl HashTable.insert ht).Inv ∧ (es.foldl HashTable.insert ht).mask = ht.mask ∧
      (es.foldl HashTable.insert ht).buckets.length = ht.buckets.length ∧
      (es.foldl HashTable.insert ht).entries ~ es ++ ht.entries ∧
      (es.foldl HashTable.insert ht).used = ht.used + es.length := by
  induction es generalizing ht with
  | nil => exact ⟨h, rfl, rfl, .rfl, by simp⟩
  | cons e es ih =>
    obtain ⟨hc, hperm⟩ := h.insert e
    obtain ⟨hinv, hmask, hlen, hes, hused⟩ := ih hc.inv
    refine ⟨hinv, hmask.trans hc.mask, hlen.trans hc.length, hes.trans ?_, ?_⟩
    · exact (hperm.append_left es).trans perm_middle
    · rw [foldl_cons, hused, length_cons, HashTable.insert]
      push_cast
      ring

end HashTable

/-! ## The dict -/

namespace RedisDict

structure Idle (d : RedisDict V) : Prop where
  table1 : d.table1 = none
  idx : d.rehashIdx = -1
  used : d.table0.used = d.entries.length

/-- Rehashing into `ht1`, with the buckets of `table0` below `i` moved. -/
structure Rehashing (d : RedisDict V) (ht1 : HashTable V) (i : Nat) : Prop where
  table1 : d.table1 = some ht1
  idx : d.rehashIdx = i
  le : i ≤ d.table0.buckets.length
  inv1 : ht1.Inv
  length1 : ht1.buckets.length = 2 * d.table0.buckets.length
  used1 : ht1.used = ht1.entries.length
  left : ∀ e ∈ d.table0.entries, i ≤ d.table0.index e.1
  moved : ∀ e ∈ ht1.entries, d.table0.index e.1 < i

/-- How many entries the dict may hold before it must be rehashing further. -/
def capacity (d : RedisDict V) : Int := 2 * d.table0.buckets.length + if d.isRehashing then d.rehashIdx else 0

structure Inv (d : RedisDict V) : Prop where
  inv0 : d.table0.Inv
  nodup : (Chained.keys d.entries).Nodup
  count : d.count = d.entries.length
  room : d.count ≤ d.capacity
  phase : d.Idle ∨ ∃ ht1 i, d.Rehashing ht1 i

variable {d : RedisDict V} {ht1 : HashTable V} {i : Nat}

theorem Idle.isRehashing (h : d.Idle) : d.isRehashing = false := by
  simp [RedisDict.isRehashing, h.idx]

theorem Idle.entries (h : d.Idle) : d.entries = d.table0.entries := by
  simp [RedisDict.entries, h.isRehashing]

theorem Idle.capacity (h : d.Idle) : d.capacity = 2 * d.table0.buckets.length := by
  simp [RedisDict.capacity, h.isRehashing]

theorem Rehashing.isRehashing (h : d.Rehashing ht1 i) : d.isRehashing = true := by
  simp only [RedisDict.isRehashing, h.idx, ne_eq, decide_not, Bool.not_eq_true', decide_eq_false_iff_not]
  omega

theorem Rehashing.entries (h : d.Rehashing ht1 i) : d.entries = d.table0.entries ++ ht1.entries := by
  simp [RedisDict.entries, h.isRehashing, h.table1]

theorem Rehashing.capacity (h : d.Rehashing ht1 i) : d.capacity = 2 * d.table0.buckets.length + i := by
  simp [RedisDict.capacity, h.isRehashing, h.idx]

theorem inv_make {p : Nat} (hp : 2 ≤ p) :
    Inv { table0 := .make (2 ^ p), table1 := none, rehashIdx := -1, count := 0 : RedisDict V } := by
  have hidle : Idle { table0 := .make (2 ^ p), table1 := none, rehashIdx := -1, count := 0 :
      RedisDict V } := ⟨rfl, rfl, by simp [entries, isRehashing, HashTable.make]⟩
  have hes := hidle.entries
  refine ⟨HashTable.inv_make hp, ?_, ?_, ?_, .inl hidle⟩
  · simp [hes]
  · simp [hes]
  · rw [hidle.capacity]
    positivity

/-- `MakeRedis` succeeds exactly up to `2 ^ 62`, and then gives an empty dict. -/
theorem makeRedis_spec (size : Int64) :
    (size.toInt ≤ 2 ^ 62 ∧ ∃ d : RedisDict V, makeRedis size = some d ∧ d.Inv ∧ d.entries = []) ∨
      (2 ^ 62 < size.toInt ∧ (makeRedis size : Option (RedisDict V)) = none) := by
  have hmin : (Int64.ofNat minSize).toInt = 4 := rfl
  by_cases h4 : size < Int64.ofNat minSize
  · refine .inl ⟨?_, _, by simp only [makeRedis, if_pos h4]; rfl, inv_make le_rfl, by rfl⟩
    rw [Int64.lt_iff_toInt_lt] at h4
    omega
  have hle : 4 ≤ size.toInt := by
    rw [Int64.lt_iff_toInt_lt] at h4
    omega
  have hclamp : (size.toNatClampNeg : Int) = size.toInt := Int.toNat_of_nonneg (by omega)
  have hlt : size.toNatClampNeg < 2 ^ 63 := by
    have := size.toInt_lt
    omega
  obtain ⟨p, hp, hnext, -, hfits⟩ := nextPower_eq hlt
  have hmake : (makeRedis size : Option (RedisDict V)) = if 2 ^ p < 2 ^ 63 then
      some { table0 := .make (2 ^ p), table1 := none, rehashIdx := -1, count := 0 } else none := by
    simp only [makeRedis, if_neg h4, hnext]
  rw [hmake]
  by_cases hsmall : size.toNatClampNeg ≤ 2 ^ 62
  · rw [if_pos (hfits.1 hsmall)]
    exact .inl ⟨by omega, _, rfl, inv_make hp, by simp [entries, HashTable.make, isRehashing]⟩
  · rw [if_neg (fun hc => hsmall (hfits.2 hc))]
    exact .inr ⟨by omega, rfl⟩

/-! ## Rehashing -/

/-- Going past full capacity starts a rehash into a table twice as large. -/
theorem Inv.startRehashIfNeeded (h : d.Inv) : d.startRehashIfNeeded.Inv ∧ d.startRehashIfNeeded.entries = d.entries ∧
      (d.startRehashIfNeeded.Idle → d.count + 1 ≤ d.startRehashIfNeeded.capacity) := by
  rcases h.phase with hi | ⟨ht1, i, hr⟩
  · have hcount := h.count
    have hused := hi.used
    have hroom := h.room
    have h4 := h.inv0.four_le
    rw [hi.capacity] at hroom
    by_cases hfull : (d.table0.buckets.length : Int) ≤ d.table0.used
    · obtain ⟨p, hp, hlen⟩ := h.inv0.size
      have hstart : d.startRehashIfNeeded = { d with table1 := some (.make (2 ^ (p + 1))), rehashIdx := 0 } := by
        rw [RedisDict.startRehashIfNeeded, hi.isRehashing, if_neg (by simp), if_neg (by omega),
          if_pos hfull, startRehash, hi.isRehashing, if_neg (by simp)]
        simp only [if_neg (show ¬((d.table0.buckets.length * 2 : Nat) : Int) < d.table0.used by
          push_cast; omega)]
        rw [hlen, ← pow_succ, nextPower_two_pow _ (by omega)]
      have hr' : Rehashing { d with table1 := some (.make (2 ^ (p + 1))), rehashIdx := 0 } (.make (2 ^ (p + 1))) 0 :=
        ⟨rfl, rfl, by simp, HashTable.inv_make (by omega),
          by simp [HashTable.make, hlen, pow_succ, mul_comm], by simp [HashTable.make],
          fun _ _ => Nat.zero_le _, by simp⟩
      have hes := hr'.entries
      rw [HashTable.entries_make, append_nil, ← hi.entries] at hes
      rw [hstart]
      refine ⟨⟨h.inv0, ?_, ?_, ?_, .inr ⟨_, _, hr'⟩⟩, hes, fun hi' => ?_⟩
      · rw [hes]
        exact h.nodup
      · rw [hes]
        exact hcount
      · rw [hr'.capacity]
        simpa using hroom
      · exact absurd hi'.idx (by simp)
    · have hstart : d.startRehashIfNeeded = d := by
        rw [RedisDict.startRehashIfNeeded, if_neg hfull, ite_self, ite_self]
      rw [hstart, hi.capacity]
      exact ⟨h, rfl, fun _ => by omega⟩
  · have hstart : d.startRehashIfNeeded = d := by
      rw [RedisDict.startRehashIfNeeded, if_pos hr.isRehashing]
    rw [hstart]
    exact ⟨h, rfl, fun hi => absurd hr.isRehashing (by simp [hi.isRehashing])⟩

/-- The buckets that `rehashStep` skips are empty. -/
theorem nextNonEmpty_spec (bs : List (List (Bytes × V))) (i : Nat) :
    i ≤ nextNonEmpty bs i ∧ ∀ b, i ≤ b → b < nextNonEmpty bs i → bs.getD b [] = [] := by
  refine ⟨Nat.le_add_right _ _, fun b hib hb => ?_⟩
  have hlt : b - i < (bs.drop i).findIdx (fun b => !b.isEmpty) := by
    rw [nextNonEmpty] at hb
    omega
  have hlen : b < bs.length := by
    have := (bs.drop i).findIdx_le_length (p := fun b => !b.isEmpty)
    rw [length_drop] at this
    omega
  have hnot := not_of_lt_findIdx hlt
  rw [getD_eq_getElem _ _ hlen]
  simpa [show i + (b - i) = b by omega] using hnot

theorem Rehashing.move (h0 : d.table0.Inv) (hr : d.Rehashing ht1 i)
    (hj : nextNonEmpty d.table0.buckets i < d.table0.buckets.length) : ∃ ht0' ht1', d.rehashStep = { d with
        table0 := ht0', table1 := some ht1', rehashIdx := (nextNonEmpty d.table0.buckets i : Nat) + 1 } ∧
      ht0'.Inv ∧ ht0'.mask = d.table0.mask ∧ ht0'.buckets.length = d.table0.buckets.length ∧
      d.rehashStep.Rehashing ht1' (nextNonEmpty d.table0.buckets i + 1) ∧
      d.rehashStep.entries ~ d.entries := by
  obtain ⟨hij, hskip⟩ := nextNonEmpty_spec d.table0.buckets i
  generalize hjdef : nextNonEmpty d.table0.buckets i = j at hj hij hskip ⊢
  obtain ⟨inv1, hmask1, hlen1, hes1, hused1⟩ := hr.inv1.foldl_insert (d.table0.buckets.getD j [])
  have hstep : d.rehashStep = { d with
      table0 := { d.table0 with buckets := d.table0.buckets.modify j fun _ => [] }
      table1 := some ((d.table0.buckets.getD j []).foldl .insert ht1)
      rehashIdx := (j : Nat) + 1 } := by
    simp only [rehashStep, hr.isRehashing, hr.table1, if_true, hr.idx, Int.toNat_natCast, hjdef, if_pos hj]
  have hflat := flatten_modify hj (fun _ : List (Bytes × V) => [])
  have hsplit := flatten_eraseIdx hj
  refine ⟨_, _, hstep, ⟨?_, ?_, ?_⟩, rfl, length_modify .., ?_⟩
  · simpa using h0.size
  · simpa using h0.mask
  · exact h0.placed.modify (by simp)
  have hr' : d.rehashStep.Rehashing ((d.table0.buckets.getD j []).foldl .insert ht1) (j + 1) := by
    rw [hstep]
    refine ⟨rfl, by simp, by simpa using Nat.succ_le_of_lt hj, inv1, ?_, ?_, ?_, ?_⟩
    · rw [hlen1, hr.length1, length_modify]
    · rw [hused1, hr.used1, hes1.length_eq, length_append]
      push_cast
      ring
    · -- an entry still in `table0` was there before, and not in the buckets up to `j`
      intro e he
      have hmem : e ∈ d.table0.entries := hsplit.mem_iff.2 (mem_append_right _ (by simpa using hflat.mem_iff.1 he))
      have hchain := (mem_flatten_iff (h0.placed.modify (by simp))).1 he
      change j + 1 ≤ d.table0.index e.1
      have hle := hr.left e hmem
      rw [getD_modify] at hchain
      by_contra hlt
      rcases lt_or_eq_of_le (show d.table0.index e.1 ≤ j by omega) with hb | hb
      · rw [if_neg (by omega), hskip _ hle hb] at hchain
        cases hchain
      · rw [if_pos ⟨hb.symm, by omega⟩] at hchain
        cases hchain
    · intro e he
      change d.table0.index e.1 < j + 1
      rcases mem_append.1 (hes1.mem_iff.1 he) with he | he
      · rw [h0.placed j e he]
        omega
      · have := hr.moved e he
        omega
  refine ⟨hr', ?_⟩
  rw [hr'.entries, hr.entries, hstep]
  calc (d.table0.buckets.modify j fun _ => []).flatten ++ _
      _ ~ (d.table0.buckets.eraseIdx j).flatten ++ (d.table0.buckets.getD j [] ++ ht1.entries) := hflat.append hes1
      _ ~ (d.table0.buckets.getD j [] ++ (d.table0.buckets.eraseIdx j).flatten) ++ ht1.entries := by
        rw [← append_assoc]
        exact perm_append_comm.append_right _
      _ ~ d.table0.entries ++ ht1.entries := hsplit.symm.append_right _

theorem Rehashing.finish (h0 : d.table0.Inv) (hr : d.Rehashing ht1 i)
    (hj : ¬nextNonEmpty d.table0.buckets i < d.table0.buckets.length) :
    d.rehashStep = { d with table0 := ht1, table1 := none, rehashIdx := -1 } ∧
      d.rehashStep.Idle ∧ d.rehashStep.entries = d.entries := by
  have hstep : d.rehashStep = { d with table0 := ht1, table1 := none, rehashIdx := -1 } := by
    simp only [rehashStep, hr.isRehashing, hr.table1, if_true, hr.idx, Int.toNat_natCast, if_neg hj]
  have hempty : d.table0.entries = [] := by
    refine eq_nil_iff_forall_not_mem.2 fun e he => ?_
    have hlt := h0.index_lt e.1
    have hchain := (mem_flatten_iff h0.placed).1 he
    rw [(nextNonEmpty_spec d.table0.buckets i).2 _ (hr.left e he) (by omega)] at hchain
    cases hchain
  have hes : RedisDict.entries { d with table0 := ht1, table1 := none, rehashIdx := -1 } = ht1.entries := by
    simp [RedisDict.entries, RedisDict.isRehashing]
  rw [hstep]
  refine ⟨rfl, ⟨rfl, rfl, ?_⟩, ?_⟩
  · rw [hes]
    exact hr.used1
  · rw [hes, hr.entries, hempty, nil_append]

@[simp] theorem rehashStep_count (d : RedisDict V) : d.rehashStep.count = d.count := by
  rw [rehashStep]
  split
  · split
    · rfl
    · dsimp only
      split <;> rfl
  · rfl

@[simp] theorem startRehashIfNeeded_count (d : RedisDict V) : d.startRehashIfNeeded.count = d.count := by
  rw [startRehashIfNeeded, startRehash]
  split <;> [rfl; split <;> [rfl; split <;> [split <;> rfl; rfl]]]

theorem Inv.rehashStep (h : d.Inv) : d.rehashStep.Inv ∧ d.rehashStep.entries ~ d.entries ∧
      ((d.Idle → d.count + 1 ≤ d.capacity) → d.count + 1 ≤ d.rehashStep.capacity) := by
  rcases h.phase with hi | ⟨ht1, i, hr⟩
  · have hstep : d.rehashStep = d := by simp [RedisDict.rehashStep, hi.isRehashing]
    rw [hstep]
    exact ⟨h, .rfl, fun hroom => hroom hi⟩
  have hroom := h.room
  rw [hr.capacity] at hroom
  obtain ⟨inv0, hes, hcap, hphase⟩ : d.rehashStep.table0.Inv ∧ d.rehashStep.entries ~ d.entries ∧
      d.count + 1 ≤ d.rehashStep.capacity ∧ (d.rehashStep.Idle ∨ ∃ ht1 i, d.rehashStep.Rehashing ht1 i) := by
    by_cases hj : nextNonEmpty d.table0.buckets i < d.table0.buckets.length
    · obtain ⟨ht0', ht1', hstep, inv0, -, hlen, hr', hes⟩ := hr.move h.inv0 hj
      have hij := (nextNonEmpty_spec d.table0.buckets i).1
      refine ⟨by rwa [hstep], hes, ?_, .inr ⟨_, _, hr'⟩⟩
      rw [hr'.capacity, hstep, hlen]
      omega
    · obtain ⟨hstep, hi', hes⟩ := hr.finish h.inv0 hj
      have hle := hr.le
      have hlen := hr.length1
      have h4 := h.inv0.four_le
      refine ⟨hstep ▸ hr.inv1, .of_eq hes, ?_, .inl hi'⟩
      rw [hi'.capacity, hstep]
      push_cast
      omega
  refine ⟨⟨inv0, (hes.map _).nodup_iff.2 h.nodup, ?_, ?_, hphase⟩, hes, fun _ => hcap⟩
  · rw [hes.length_eq, rehashStep_count, h.count]
  · rw [rehashStep_count]
    omega

/-- What `Put`, `PutIfAbsent` and `PutIfExists` do before they look the key up. -/
theorem Inv.prepare (h : d.Inv) :
    d.startRehashIfNeeded.rehashStep.Inv ∧ d.startRehashIfNeeded.rehashStep.entries ~ d.entries ∧
      d.count + 1 ≤ d.startRehashIfNeeded.rehashStep.capacity := by
  obtain ⟨hinv, hes, hroom⟩ := h.startRehashIfNeeded
  obtain ⟨hinv', hes', hroom'⟩ := hinv.rehashStep
  rw [startRehashIfNeeded_count] at hroom'
  exact ⟨hinv', hes'.trans (.of_eq hes), hroom' hroom⟩

/-! ## The table of a key -/

theorem Idle.inTable1 (h : d.Idle) (key : Bytes) : d.inTable1 key = false := by
  simp [RedisDict.inTable1, h.isRehashing]

theorem Rehashing.inTable1 (h : d.Rehashing ht1 i) (key : Bytes) :
    d.inTable1 key = decide (d.table0.index key < i) := by
  simp only [RedisDict.inTable1, h.isRehashing, h.idx, Bool.true_and, ← decide_not, Nat.cast_le, not_le]

theorem Inv.inv_tableOf (h : d.Inv) (key : Bytes) : (d.tableOf key).Inv := by
  rcases h.phase with hi | ⟨ht1, i, hr⟩
  · simpa [tableOf, hi.inTable1] using h.inv0
  · rw [tableOf, hr.table1, Option.getD_some]
    split <;> [exact hr.inv1; exact h.inv0]

theorem Inv.mem_tableOf (h : d.Inv) {e : Bytes × V} : e ∈ (d.tableOf e.1).entries ↔ e ∈ d.entries := by
  rcases h.phase with hi | ⟨ht1, i, hr⟩
  · simp [tableOf, hi.inTable1, hi.entries]
  rw [hr.entries, mem_append, tableOf, hr.inTable1, hr.table1, Option.getD_some]
  by_cases hlt : d.table0.index e.1 < i
  · rw [if_pos (by simpa using hlt)]
    exact ⟨.inr, fun he => he.elim (fun he => absurd (hr.left e he) (by omega)) id⟩
  · rw [if_neg (by simpa using hlt)]
    exact ⟨.inl, fun he => he.elim id fun he => absurd (hr.moved e he) hlt⟩

theorem Inv.sublist_tableOf (h : d.Inv) (key : Bytes) : (d.tableOf key).entries <+ d.entries := by
  rcases h.phase with hi | ⟨ht1, i, hr⟩
  · rw [tableOf, hi.inTable1, hi.entries]
    exact .refl _
  · rw [hr.entries, tableOf, hr.table1, Option.getD_some]
    split <;> [exact sublist_append_right _ _; exact sublist_append_left _ _]

variable {key : Bytes}

theorem Inv.findEntry_eq_some (h : d.Inv) {v : V} : d.findEntry key = some v ↔ (key, v) ∈ d.entries := by
  rw [findEntry, (h.inv_tableOf key).findEntry_eq_some
    (h.nodup.sublist ((h.sublist_tableOf key).map _)), ← h.mem_tableOf]

theorem Inv.findEntry_eq_none (h : d.Inv) : d.findEntry key = none ↔ key ∉ Chained.keys d.entries := by
  rw [Option.eq_none_iff_forall_ne_some]
  simp only [ne_eq, h.findEntry_eq_some, Chained.keys, mem_map, Prod.exists, exists_and_right,
    exists_eq_right, not_exists]

/-- A change of the chain of `key` in the table of `key`. The new entries are the new
ones of that table and the old ones of the other; the invariant is kept if the keys stay
distinct and `count` follows. -/
theorem Inv.modifyTable (h : d.Inv) {f : HashTable V → HashTable V}
    (hc : (d.tableOf key).Change key (f (d.tableOf key))) (c : Int) :
    ∃ rest, d.entries ~ (d.tableOf key).entries ++ rest ∧ entries { d.modifyTable key f with count := c } ~
        (f (d.tableOf key)).entries ++ rest ∧
      ((Chained.keys (entries { d.modifyTable key f with count := c })).Nodup →
        c = (entries { d.modifyTable key f with count := c }).length → c ≤ d.capacity →
        Inv { d.modifyTable key f with count := c }) := by
  rcases h.phase with hi | ⟨ht1, i, hr⟩
  · have hin := hi.inTable1 key
    have hmod : d.modifyTable key f = { d with table0 := f d.table0 } := by
      simp [RedisDict.modifyTable, hin]
    have htab : d.tableOf key = d.table0 := by simp [tableOf, hin]
    rw [htab] at hc ⊢
    rw [hmod]
    have hes : entries { d with table0 := f d.table0, count := c } = (f d.table0).entries := by
      simp [entries, isRehashing, hi.idx]
    have hi' : Idle { d with table0 := f d.table0, count := c } := by
      refine ⟨hi.table1, hi.idx, ?_⟩
      have hu := hc.used
      rw [hi.used, hi.entries] at hu
      rw [hes]
      change (f d.table0).used = _
      omega
    refine ⟨[], by simp [hi.entries], by simp [hes], fun hnd hlen hroom => ?_⟩
    refine ⟨hc.inv, hnd, hlen, ?_, .inl hi'⟩
    rw [hi'.capacity, hc.length]
    rwa [hi.capacity] at hroom
  have hin := hr.inTable1 key
  by_cases hlt : d.table0.index key < i
  · -- the key's bucket has moved: `table1` changes
    have hmod : d.modifyTable key f = { d with table1 := some (f ht1) } := by
      simp [RedisDict.modifyTable, hin, hlt, hr.table1]
    have htab : d.tableOf key = ht1 := by simp [tableOf, hin, hlt, hr.table1]
    rw [htab] at hc ⊢
    rw [hmod]
    have hr' : Rehashing { d with table1 := some (f ht1), count := c } (f ht1) i := by
      refine ⟨rfl, hr.idx, hr.le, hc.inv, hc.length.trans hr.length1, ?_, hr.left, fun e he => ?_⟩
      · have := hc.used
        have := hr.used1
        omega
      · rcases hc.mem e he with he | rfl
        · exact hr.moved e he
        · exact hlt
    refine ⟨d.table0.entries, ?_, ?_, fun hnd hlen hroom => ?_⟩
    · rw [hr.entries]
      exact perm_append_comm
    · rw [hr'.entries]
      exact perm_append_comm
    · refine ⟨h.inv0, hnd, hlen, ?_, .inr ⟨_, _, hr'⟩⟩
      rw [hr'.capacity]
      rwa [hr.capacity] at hroom
  · -- it has not: `table0` changes, and the key stays among those left
    have hmod : d.modifyTable key f = { d with table0 := f d.table0 } := by
      simp [RedisDict.modifyTable, hin, hlt]
    have htab : d.tableOf key = d.table0 := by simp [tableOf, hin, hlt]
    rw [htab] at hc ⊢
    rw [hmod]
    have hidx : ∀ k, (f d.table0).index k = d.table0.index k := fun k => by
      rw [HashTable.index, hc.mask, HashTable.index]
    have hr' : Rehashing { d with table0 := f d.table0, count := c } ht1 i := by
      refine ⟨hr.table1, hr.idx, ?_, hr.inv1, ?_, hr.used1, fun e he => ?_, fun e he => ?_⟩
      · rw [hc.length]
        exact hr.le
      · rw [hc.length]
        exact hr.length1
      · rw [hidx]
        rcases hc.mem e he with he | rfl
        · exact hr.left e he
        · omega
      · rw [hidx]
        exact hr.moved e he
    refine ⟨ht1.entries, by rw [hr.entries], by rw [hr'.entries], fun hnd hlen hroom => ?_⟩
    refine ⟨hc.inv, hnd, hlen, ?_, .inr ⟨_, _, hr'⟩⟩
    rw [hr'.capacity, hc.length]
    rwa [hr.capacity] at hroom

end RedisDict

end Hayakv.Dict
