import Hayakv.Dict.Refinement

/-!
# `DictScan`: the cursor scan of a `RedisDict`

A scan is a run of `DictScan` calls, each fed the cursor of the one before, with
writes between them. The cursor is a bucket index of `tables[0]`, and during a
rehash an index past `tables[0]` counts buckets of `tables[1]`. So it is read with
the tables of the call that receives it, not of the call that gave it.

* Growing is harmless: a key's bucket in a larger table is at or after its bucket
  in the smaller one (`index_le_index`), so a cursor of one table stays good while
  a rehash starts, runs and ends.
* A rehash that a call sees in progress must still be in progress at the next call
  (`GapSafe`). Otherwise the cursor of two tables is read as an index of one, and
  keys are lost (`dictScan_loses_key`). With it no key is (`dictScan_complete`).
-/

namespace Hayakv.Dict

open Chained List RedisDict Prod
open Option (some)

variable {V : Type*}

/-- The pattern `"*"`. -/
def star : Bytes := [42]

namespace RedisDict

/-- The bucket loop of `DictScan`: whole buckets, until `count` keys are collected. -/
def scanBuckets (matchKey : Bytes → Bool) (count : Int) :
    List (List (Bytes × V)) → Nat → List Bytes → Nat × List Bytes
  | [], idx, result => (idx, result)
  | b :: bs, idx, result =>
    if (result.length : Int) < count then
      scanBuckets matchKey count bs (idx + 1) (result ++ (b.map fst).filter matchKey)
    else (idx, result)

/-- `DictScan`, over any pattern compiler. `none` is the panic of indexing with a negative
cursor. -/
def dictScan (compilePattern : Bytes → Option (Bytes → Bool)) (d : RedisDict V)
    (cursor count : Int) (pattern : Bytes) : Option (List Bytes × Int) :=
  if d.count = 0 then some ([], 0)
  else if pattern = star ∧ d.count ≤ count then some (d.entries.map fst, 0)
  else
    match if pattern = star then some fun _ => true else compilePattern pattern with
    | none => some ([], -1)
    | some matchKey =>
      if cursor < 0 then
        if 0 < count then none else some ([], cursor)
      else
        let size0 := d.table0.buckets.length
        let buckets1 := (d.table1.map (·.buckets)).getD []
        let (idx0, idx1) :=
          if d.isRehashing then
            if cursor < size0 then (cursor.toNat, 0) else (size0, cursor.toNat - size0)
          else (cursor.toNat, 0)
        let (idx0, result) := scanBuckets matchKey count (d.table0.buckets.drop idx0) idx0 []
        let (idx1, result) :=
          if d.isRehashing then scanBuckets matchKey count (buckets1.drop idx1) idx1 result
          else (idx1, result)
        if d.isRehashing then
          if buckets1.length ≤ idx1 ∧ size0 ≤ idx0 then some (result, 0)
          else if idx0 < size0 then some (result, idx0)
          else some (result, size0 + idx1)
        else if size0 ≤ idx0 then some (result, 0)
        else some (result, idx0)

end RedisDict

/-! ## Scans -/

/-- A write between two calls of a scan. -/
inductive Mutation (V : Type*)
  | put (key : Bytes) (val : V)
  | putIfAbsent (key : Bytes) (val : V)
  | putIfExists (key : Bytes) (val : V)
  | remove (key : Bytes)

namespace Mutation

def toOp : Mutation V → Op V
  | put key val => .put key val
  | putIfAbsent key val => .putIfAbsent key val
  | putIfExists key val => .putIfExists key val
  | remove key => .remove key

def apply (d : RedisDict V) (m : Mutation V) : RedisDict V := (redisMachine.step d m.toOp).1

end Mutation

/-- A scan under way: the dict, the cursor for the next call, and the keys returned so far. -/
structure ScanState (V : Type*) where
  dict : RedisDict V
  cursor : Int
  returned : List Bytes
deriving DecidableEq

section Scan

variable (compilePattern : Bytes → Option (Bytes → Bool)) (count : Int) (pattern : Bytes)

/-- One call of `DictScan`. -/
def ScanState.call (s : ScanState V) : Option (ScanState V) :=
  (s.dict.dictScan compilePattern s.cursor count pattern).map fun (ks, cursor) =>
    { s with cursor, returned := s.returned ++ ks }

/-- A call, and then for every gap its writes and a call more. A scan ends at the cursor `0`,
so only the last call may return it. -/
def scanRun (s : ScanState V) : List (List (Mutation V)) → Option (ScanState V)
  | [] => s.call compilePattern count pattern
  | gap :: gaps => do
    let s ← s.call compilePattern count pattern
    if s.cursor = 0 then none
    else scanRun { s with dict := gap.foldl Mutation.apply s.dict } gaps

/-- The keys a pattern asks for: all for `"*"`, else those the compiled pattern matches. -/
def Matches (key : Bytes) : Prop := pattern = star ∨ ∃ matchKey, compilePattern pattern = some matchKey ∧ matchKey key

end Scan

/-- The next step of the rehash would end it: the buckets left to move are all empty. -/
def RedisDict.rehashEnds (d : RedisDict V) : Bool := (d.table0.buckets.drop d.rehashIdx.toNat).all (·.isEmpty)

/-- The writes of a gap keep a rehash that the call before them saw in progress: none is made
when all that is left of it is to end. -/
def GapSafe (d : RedisDict V) : List (Mutation V) → Prop
  | [] => True
  | m :: ms => d.rehashEnds = false ∧ GapSafe (m.apply d) ms

/-- Every gap whose first call sees a rehash in progress keeps it in progress. -/
def GapsSafe (d : RedisDict V) : List (List (Mutation V)) → Prop
  | [] => True
  | gap :: gaps => (d.isRehashing → GapSafe d gap) ∧ GapsSafe (gap.foldl Mutation.apply d) gaps

def Reachable (d : RedisDict V) : Prop :=
  ∃ n d₀ ops, RedisDict.makeRedis n = some d₀ ∧ d = (redisMachine.run d₀ ops).1

variable {d : RedisDict V} {c : Nat} {matchKey : Bytes → Bool}

theorem Reachable.inv (h : Reachable d) : d.Inv := by
  obtain ⟨n, d₀, ops, hmake, rfl⟩ := h
  refine redisMachine.run_invariant redisMachine_inv ?_ ops
  rcases makeRedis_spec n with ⟨-, d, hd, hinv, -⟩ | ⟨-, hnone⟩
  · rw [hmake] at hd
    exact some.inj hd ▸ hinv
  · rw [hmake] at hnone
    cases hnone

theorem Mutation.inv_apply (h : d.Inv) (m : Mutation V) : (m.apply d).Inv := redisMachine_inv d m.toOp h

theorem Mutation.inv_foldl (h : d.Inv) (ms : List (Mutation V)) : (ms.foldl Mutation.apply d).Inv :=
  List.foldlRecOn ms _ h fun _ h m _ => m.inv_apply h

/-! ## Where a key's bucket is -/

namespace HashTable

theorem Inv.index_eq {a b : HashTable V} (ha : a.Inv) (hb : b.Inv)
    (h : a.buckets.length = b.buckets.length) (key : Bytes) : a.index key = b.index key := by
  rw [index, index, ha.mask, hb.mask, h]

/-- In a table twice as large a key's bucket is not before the one it has. -/
theorem Inv.index_le_index {a b : HashTable V} (ha : a.Inv) (hb : b.Inv)
    (h : b.buckets.length = 2 * a.buckets.length) (key : Bytes) : a.index key ≤ b.index key := by
  obtain ⟨p, -, hp⟩ := ha.size
  have hmask : a.mask.toNat = b.mask.toNat &&& a.mask.toNat := by
    rw [ha.mask, hb.mask, h, hp, UInt64.toNat_ofNat', UInt64.toNat_ofNat', ← pow_succ']
    apply Nat.eq_of_testBit_eq
    intro i
    simp only [Nat.testBit_and, Nat.testBit_mod_two_pow, Nat.testBit_two_pow_sub_one]
    by_cases h64 : i < 64 <;> by_cases hip : i < p <;> simp [h64, hip]
    omega
  rw [index, index, UInt64.toNat_and, UInt64.toNat_and, hmask, ← Nat.and_assoc]
  exact Nat.and_le_left

theorem Inv.mem_take_drop {ht : HashTable V} (h : ht.Inv) {key : Bytes} {v : V}
    (hmem : (key, v) ∈ ht.entries) {i t : Nat} (hi : i ≤ ht.index key) (ht' : ht.index key < i + t) :
    key ∈ Chained.keys ((ht.buckets.drop i).take t).flatten := by
  have hlt := h.index_lt key
  have hchain := (mem_flatten_iff h.placed).1 hmem
  rw [getD_eq_getElem _ _ hlt] at hchain
  have hget : ((ht.buckets.drop i).take t)[ht.index key - i]? = some ht.buckets[ht.index key] := by
    rw [getElem?_take_of_lt (by omega), getElem?_drop, show i + (ht.index key - i) = ht.index key by omega,
      getElem?_eq_getElem hlt]
  exact mem_map.2 ⟨_, mem_flatten.2 ⟨_, mem_of_getElem? hget, hchain⟩, rfl⟩

end HashTable

/-! ## How writes move the tables -/

namespace RedisDict

/-- A step along which a one-table cursor stays good: `table0` keeps its size, or doubles it. -/
def Grows (d d' : RedisDict V) : Prop :=
  d'.table0.buckets.length = d.table0.buckets.length ∨ d'.table0.buckets.length = 2 * d.table0.buckets.length

/-- A step within one rehash: the tables keep their sizes and `rehashIdx` does not go back. -/
structure SameRehash (d d' : RedisDict V) : Prop where
  length0 : d'.table0.buckets.length = d.table0.buckets.length
  rehashing : d'.isRehashing = true
  idx : d.rehashIdx ≤ d'.rehashIdx

@[simp] theorem length_setVal (ht : HashTable V) (key : Bytes) (val : V) :
    (ht.setVal key val).buckets.length = ht.buckets.length := length_modify ..

@[simp] theorem length_insert (ht : HashTable V) (e : Bytes × V) :
    (ht.insert e).buckets.length = ht.buckets.length := length_modify ..

@[simp] theorem length_unlink (ht : HashTable V) (key : Bytes) :
    (ht.unlink key).buckets.length = ht.buckets.length := length_modify ..

@[simp] theorem modifyTable_rehashIdx (d : RedisDict V) (key : Bytes)
    (f : HashTable V → HashTable V) : (d.modifyTable key f).rehashIdx = d.rehashIdx := by
  rw [modifyTable]
  split <;> rfl

@[simp] theorem modifyTable_length0 (d : RedisDict V) (key : Bytes) {f : HashTable V → HashTable V}
    (hf : ∀ ht, (f ht).buckets.length = ht.buckets.length) :
    (d.modifyTable key f).table0.buckets.length = d.table0.buckets.length := by
  rw [modifyTable]
  split
  · rfl
  · exact hf _

end RedisDict

/-- A write is a step of the rehash (for the `Put`s, after perhaps starting one) and then a
change that keeps the tables' sizes and `rehashIdx`. -/
theorem Mutation.apply_shape (h : d.Inv) (m : Mutation V) : ∃ d₁, (d₁ = d ∨ d₁ = d.startRehashIfNeeded) ∧
      (m.apply d).table0.buckets.length = d₁.rehashStep.table0.buckets.length ∧
      (m.apply d).rehashIdx = d₁.rehashStep.rehashIdx := by
  cases m with
  | put key val | putIfAbsent key val | putIfExists key val =>
    refine ⟨_, .inr rfl, ?_⟩
    simp only [Mutation.apply, toOp, redisMachine, RedisDict.put, RedisDict.putIfAbsent, RedisDict.putIfExists]
    cases d.startRehashIfNeeded.rehashStep.findEntry key <;> simp [RedisDict.insertNew]
  | remove key =>
    refine ⟨_, .inl rfl, ?_⟩
    simp only [Mutation.apply, toOp, redisMachine, h.remove_eq]
    cases d.rehashStep.findEntry key <;> simp

@[simp] theorem RedisDict.startRehashIfNeeded_table0 (d : RedisDict V) : d.startRehashIfNeeded.table0 = d.table0 := by
  rw [startRehashIfNeeded, startRehash]
  split <;> [rfl; split <;> [rfl; split <;> [split <;> rfl; rfl]]]

theorem RedisDict.Inv.rehashStep_grows (h : d.Inv) : d.Grows d.rehashStep := by
  rcases h.phase with hi | ⟨ht1, i, hr⟩
  · have hstep : d.rehashStep = d := by simp [RedisDict.rehashStep, hi.isRehashing]
    exact .inl (by rw [hstep])
  by_cases hj : nextNonEmpty d.table0.buckets i < d.table0.buckets.length
  · obtain ⟨ht0', ht1', hstep, -, -, hlen, -, -⟩ := hr.move h.inv0 hj
    exact .inl (by rw [hstep, hlen])
  · obtain ⟨hstep, -, -⟩ := hr.finish h.inv0 hj
    exact .inr (by rw [hstep, hr.length1])

theorem Mutation.grows (h : d.Inv) (m : Mutation V) : d.Grows (m.apply d) := by
  obtain ⟨d₁, hd₁, hlen, -⟩ := m.apply_shape h
  rw [RedisDict.Grows, hlen]
  rcases hd₁ with rfl | rfl
  · exact h.rehashStep_grows
  · simpa [RedisDict.Grows] using h.startRehashIfNeeded.1.rehashStep_grows

theorem RedisDict.Inv.exists_rehashing (h : d.Inv) (hr : d.isRehashing) : ∃ ht1 i, d.Rehashing ht1 i := by
  rcases h.phase with hi | hex
  · rw [hi.isRehashing] at hr
    cases hr
  · exact hex

theorem Mutation.sameRehash (h : d.Inv) (hd : d.isRehashing) (hend : d.rehashEnds = false) (m : Mutation V) :
    d.SameRehash (m.apply d) := by
  obtain ⟨ht1, i, hr⟩ := h.exists_rehashing hd
  have hj : nextNonEmpty d.table0.buckets i < d.table0.buckets.length := by
    rw [rehashEnds, hr.idx, Int.toNat_natCast, all_eq_false] at hend
    obtain ⟨b, hb, hne⟩ := hend
    have hfind := findIdx_lt_length_of_exists (p := fun b => !b.isEmpty) ⟨b, hb, by simpa using hne⟩
    rw [length_drop] at hfind
    rw [nextNonEmpty]
    omega
  obtain ⟨ht0', ht1', hstep, -, -, hlen, -, -⟩ := hr.move h.inv0 hj
  obtain ⟨d₁, hd₁, hlen₁, hidx₁⟩ := m.apply_shape h
  obtain rfl : d₁ = d := by
    rcases hd₁ with rfl | rfl
    · rfl
    · rw [startRehashIfNeeded, if_pos hd]
  rw [hstep] at hlen₁ hidx₁
  have hij := (nextNonEmpty_spec d₁.table0.buckets i).1
  refine ⟨hlen₁.trans hlen, ?_, ?_⟩
  · rw [isRehashing, hidx₁]
    simp only [ne_eq, decide_not, Bool.not_eq_true', decide_eq_false_iff_not]
    omega
  · rw [hidx₁, hr.idx]
    change (i : Int) ≤ (_ : Nat) + 1
    omega

/-! ## Keys a scan has still to come to -/

/-- A cursor of one table that has not passed the key. -/
def PendingOne (d : RedisDict V) (c : Nat) (key : Bytes) : Prop :=
  c < d.table0.buckets.length ∧ c ≤ d.table0.index key

/-- A cursor of two tables that has not passed the key, wherever the rehash has put it. -/
def PendingTwo (d : RedisDict V) (c : Nat) (key : Bytes) : Prop :=
  (c < d.table0.buckets.length ∧ (d.rehashIdx ≤ d.table0.index key → c ≤ d.table0.index key)) ∨
    (d.table0.buckets.length ≤ c ∧ d.table0.index key < d.rehashIdx ∧
      ∀ ht1, d.table1 = some ht1 → c - d.table0.buckets.length ≤ ht1.index key)

/-- The cursor has not passed the key, as the next call will read it. -/
def Pending (d : RedisDict V) (c : Nat) (key : Bytes) : Prop :=
  if d.isRehashing then PendingTwo d c key else PendingOne d c key

variable {key : Bytes} {count : Int} {bs : List (List (Bytes × V))} {acc result : List Bytes}

theorem PendingOne.pending (h : PendingOne d c key) : Pending d c key := by
  rw [Pending]
  split
  · exact .inl ⟨h.1, fun _ => h.2⟩
  · exact h

/-- Growing keeps a one-table cursor good. -/
theorem PendingOne.apply (hd : d.Inv) (h : PendingOne d c key) (m : Mutation V) : PendingOne (m.apply d) c key := by
  obtain ⟨hc, hidx⟩ := h
  have hd' := m.inv_apply hd
  rcases m.grows hd with hlen | hlen
  · exact ⟨by rwa [hlen], by rwa [hd'.inv0.index_eq hd.inv0 hlen]⟩
  · exact ⟨by omega, hidx.trans (hd.inv0.index_le_index hd'.inv0 hlen key)⟩

theorem PendingOne.foldl (hd : d.Inv) (h : PendingOne d c key) (ms : List (Mutation V)) :
    PendingOne (ms.foldl Mutation.apply d) c key := by
  induction ms generalizing d with
  | nil => exact h
  | cons m ms ih => exact ih (m.inv_apply hd) (h.apply hd m)

/-- Moving buckets keeps a two-table cursor good. -/
theorem PendingTwo.of_sameRehash {d d' : RedisDict V} (hd : d.Inv) (hd' : d'.Inv) (hr : d.isRehashing)
    (hs : d.SameRehash d') (h : PendingTwo d c key) : PendingTwo d' c key := by
  obtain ⟨ht1, i, hr⟩ := hd.exists_rehashing hr
  obtain ⟨ht1', i', hr'⟩ := hd'.exists_rehashing hs.rehashing
  have hidx0 := hd'.inv0.index_eq hd.inv0 hs.length0 key
  have hidx1 := hr'.inv1.index_eq hr.inv1 (by rw [hr'.length1, hr.length1, hs.length0]) key
  have hle := hs.idx
  rw [PendingTwo, hs.length0, hidx0]
  rcases h with ⟨hc, himp⟩ | ⟨hc, hlt, hpos⟩
  · exact .inl ⟨hc, fun hi => himp (hle.trans hi)⟩
  · refine .inr ⟨hc, hlt.trans_le hle, fun ht hht => ?_⟩
    obtain rfl : ht1' = ht := by simpa [hr'.table1] using hht
    rw [hidx1]
    exact hpos ht1 hr.table1

theorem PendingTwo.foldl (hd : d.Inv) (hr : d.isRehashing) (h : PendingTwo d c key) {ms : List (Mutation V)}
    (hsafe : GapSafe d ms) : Pending (ms.foldl Mutation.apply d) c key := by
  induction ms generalizing d with
  | nil =>
    rw [Pending, foldl_nil, if_pos hr]
    exact h
  | cons m ms ih =>
    have hs := m.sameRehash hd hr hsafe.1
    exact ih (m.inv_apply hd) hs.rehashing (h.of_sameRehash hd (m.inv_apply hd) hr hs) hsafe.2

/-! ## What a call returns -/

/-- The bucket loop takes some buckets, and takes none only with `count` keys. -/
theorem scanBuckets_spec {c idx : Nat} (hscan : scanBuckets matchKey count bs c acc = (idx, result)) :
    ∃ t, idx = c + t ∧ result = acc ++ (Chained.keys (bs.take t).flatten).filter matchKey ∧
      (t = 0 → bs ≠ [] → count ≤ acc.length) := by
  induction bs generalizing c acc with
  | nil =>
    obtain ⟨rfl, rfl⟩ := mk.inj hscan
    exact ⟨0, by simp⟩
  | cons b bs ih =>
    rw [scanBuckets] at hscan
    split at hscan
    · obtain ⟨t, rfl, rfl, -⟩ := ih hscan
      exact ⟨t + 1, by omega, by simp, by simp⟩
    · obtain ⟨rfl, rfl⟩ := mk.inj hscan
      exact ⟨0, by simp, by simp, fun _ _ => by omega⟩

theorem mem_scanBuckets {c idx : Nat} (hscan : scanBuckets matchKey count bs c acc = (idx, result))
    (hk : key ∈ acc) : key ∈ result := by
  obtain ⟨t, -, rfl, -⟩ := scanBuckets_spec hscan
  exact mem_append_left _ hk

theorem HashTable.Inv.scanBuckets_finds {ht : HashTable V} (h : ht.Inv) {v : V} (hmem : (key, v) ∈ ht.entries)
    (hmatch : matchKey key) {c idx : Nat} (hc : c ≤ ht.index key)
    (hscan : scanBuckets matchKey count (ht.buckets.drop c) c acc = (idx, result)) :
    key ∈ result ∨ idx ≤ ht.index key := by
  obtain ⟨t, rfl, rfl, -⟩ := scanBuckets_spec hscan
  rcases lt_or_ge (ht.index key) (c + t) with hlt | hge
  · exact .inl (mem_append_right _ (mem_filter.2 ⟨h.mem_take_drop hmem hc hlt, hmatch⟩))
  · exact .inr hge

theorem scanBuckets_advances (hcount : 1 ≤ count) {c idx : Nat} {result : List Bytes} (hc : c < bs.length)
    (hscan : scanBuckets matchKey count (bs.drop c) c [] = (idx, result)) : c < idx := by
  obtain ⟨t, rfl, -, hzero⟩ := scanBuckets_spec hscan
  have hne : bs.drop c ≠ [] := by
    rw [ne_eq, drop_eq_nil_iff]
    omega
  have ht : t ≠ 0 := fun h0 => by
    have := hzero h0 hne
    simp only [length_nil] at this
    omega
  omega

/-- The two loops of a call during a rehash. -/
theorem RedisDict.Rehashing.scan_pending (hd : d.Inv) {ht1 : HashTable V} {i : Nat} (hr : d.Rehashing ht1 i)
    (hcount : 1 ≤ count) {v : V} (hmem : (key, v) ∈ d.entries) (hkey : matchKey key) (hp : PendingTwo d c key)
    {c0 c1 idx0 idx1 : Nat} {result0 result : List Bytes} (hc : (c0, c1) = if c < d.table0.buckets.length then (c, 0)
      else (d.table0.buckets.length, c - d.table0.buckets.length))
    (h0 : scanBuckets matchKey count (d.table0.buckets.drop c0) c0 [] = (idx0, result0))
    (h1 : scanBuckets matchKey count (ht1.buckets.drop c1) c1 result0 = (idx1, result)) : key ∈ result ∨
      (idx0 < d.table0.buckets.length ∧ 0 < idx0 ∧ PendingTwo d idx0 key) ∨
      (d.table0.buckets.length ≤ idx0 ∧ idx1 < ht1.buckets.length ∧
        PendingTwo d (d.table0.buckets.length + idx1) key) := by
  rw [hr.entries, mem_append] at hmem
  have hlt1 := hr.inv1.index_lt key
  have hlt0 := hd.inv0.index_lt key
  rcases hp with ⟨hlt, himp⟩ | ⟨hge, hidx, hbucket⟩
  · rw [if_pos hlt, Prod.mk.injEq] at hc
    obtain ⟨rfl, rfl⟩ := hc
    have hadv := scanBuckets_advances hcount hlt h0
    rcases hmem with hmem | hmem
    · -- still in `table0`: its loop comes to the key, or stops before it
      have hleft := hr.left _ hmem
      rcases hd.inv0.scanBuckets_finds hmem hkey (himp (by rw [hr.idx]; exact_mod_cast hleft)) h0 with
        hfound | hpast
      · exact .inl (mem_scanBuckets h1 hfound)
      · exact .inr (.inl ⟨by omega, by omega, .inl ⟨by omega, fun _ => hpast⟩⟩)
    -- already in `table1`, which is scanned only when `table0` is done
    have hmoved := hr.moved _ hmem
    have hidx : (d.table0.index key : Int) < d.rehashIdx := by
      rw [hr.idx]
      exact_mod_cast hmoved
    rcases lt_or_ge idx0 d.table0.buckets.length with h | h
    · exact .inr (.inl ⟨h, by omega, .inl ⟨h, fun hle => by omega⟩⟩)
    rcases hr.inv1.scanBuckets_finds hmem hkey (Nat.zero_le _) h1 with hfound | hpast
    · exact .inl hfound
    · refine .inr (.inr ⟨h, by omega, .inr ⟨by omega, hidx, fun ht hht => ?_⟩⟩)
      obtain rfl : ht1 = ht := by simpa [hr.table1] using hht
      omega
  · rw [if_neg (by omega), Prod.mk.injEq] at hc
    obtain ⟨rfl, rfl⟩ := hc
    have hmem1 : (key, v) ∈ ht1.entries := hmem.resolve_left fun hmem => by
      have := hr.left _ hmem
      rw [hr.idx] at hidx
      exact absurd hidx (by exact_mod_cast not_lt.2 this)
    have hidx0 : idx0 = d.table0.buckets.length := by
      rw [drop_length, scanBuckets, Prod.mk.injEq] at h0
      exact h0.1.symm
    rcases hr.inv1.scanBuckets_finds hmem1 hkey (hbucket ht1 hr.table1) h1 with hfound | hpast
    · exact .inl hfound
    · refine .inr (.inr ⟨by omega, by omega, .inr ⟨by omega, hidx, fun ht hht => ?_⟩⟩)
      obtain rfl : ht1 = ht := by simpa [hr.table1] using hht
      omega

/-- A call returns a key that its cursor has not passed, or a cursor that has not passed it. -/
theorem dictScan_pending {compilePattern : Bytes → Option (Bytes → Bool)} (hd : d.Inv) (hcount : 1 ≤ count)
    {pattern key : Bytes} {v : V} (hmem : (key, v) ∈ d.entries) (hmatch : Matches compilePattern pattern key)
    (hp : Pending d c key) {ks : List Bytes} {c' : Int}
    (hscan : d.dictScan compilePattern c count pattern = some (ks, c')) :
    key ∈ ks ∨ ∃ n : Nat, c' = n ∧ 0 < n ∧ Pending d n key := by
  have hne : ¬d.count = 0 := by
    rw [hd.count]
    have := length_pos_of_mem hmem
    omega
  obtain ⟨matchKey, hcompile, hkey⟩ : ∃ f : Bytes → Bool,
      (if pattern = star then some fun _ => true else compilePattern pattern) = some f ∧ f key := by
    rcases hmatch with rfl | ⟨f, hf, hk⟩
    · exact ⟨_, if_pos rfl, rfl⟩
    · by_cases hstar : pattern = star
      · exact ⟨_, if_pos hstar, rfl⟩
      · exact ⟨f, by rw [if_neg hstar, hf], hk⟩
  rw [dictScan, if_neg hne] at hscan
  split at hscan
  · -- the whole dict in one call
    obtain ⟨rfl, -⟩ := mk.inj (some.inj hscan)
    exact .inl (mem_map_of_mem hmem)
  rw [hcompile] at hscan
  simp only [show ¬(c : Int) < 0 by omega, if_false, Int.toNat_natCast, Nat.cast_lt] at hscan
  cases hr : d.isRehashing with
  | false =>
    have hmem0 : (key, v) ∈ d.table0.entries := by simpa [entries, hr] using hmem
    rw [Pending, hr, if_neg (by decide)] at hp
    simp only [hr, Bool.false_eq_true, if_false] at hscan
    generalize hloop : scanBuckets matchKey count (d.table0.buckets.drop c) c [] = r0 at hscan
    obtain ⟨idx0, result⟩ := r0
    rcases hd.inv0.scanBuckets_finds hmem0 hkey hp.2 hloop with hfound | hpast
    · left
      split at hscan <;> · obtain ⟨rfl, -⟩ := mk.inj (some.inj hscan); exact hfound
    have hlt := hd.inv0.index_lt key
    have hadv := scanBuckets_advances hcount hp.1 hloop
    simp only [if_neg (show ¬d.table0.buckets.length ≤ idx0 by omega)] at hscan
    obtain ⟨rfl, rfl⟩ := mk.inj (some.inj hscan)
    refine .inr ⟨idx0, rfl, by omega, ?_⟩
    rw [Pending, hr, if_neg (by decide)]
    exact ⟨by omega, hpast⟩
  | true =>
    obtain ⟨ht1, i, hreh⟩ := hd.exists_rehashing hr
    rw [Pending, hr, if_pos rfl] at hp
    simp only [hr, if_true, hreh.table1, Option.map_some, Option.getD_some] at hscan
    generalize hc : (if c < d.table0.buckets.length then (c, 0)
      else (d.table0.buckets.length, c - d.table0.buckets.length)) = cs at hscan
    obtain ⟨c0, c1⟩ := cs
    generalize h0 : scanBuckets matchKey count (d.table0.buckets.drop c0) c0 [] = r0 at hscan
    obtain ⟨idx0, result0⟩ := r0
    generalize h1 : scanBuckets matchKey count (ht1.buckets.drop c1) c1 result0 = r1 at hscan
    obtain ⟨idx1, result⟩ := r1
    rcases hreh.scan_pending hd hcount hmem hkey hp hc.symm h0 h1 with
      hfound | ⟨hlt, hpos, hp'⟩ | ⟨hge, hlt, hp'⟩
    · left
      split at hscan
      · obtain ⟨rfl, -⟩ := mk.inj (some.inj hscan)
        exact hfound
      · split at hscan <;> · obtain ⟨rfl, -⟩ := mk.inj (some.inj hscan); exact hfound
    · rw [if_neg (by omega), if_pos hlt] at hscan
      obtain ⟨rfl, rfl⟩ := mk.inj (some.inj hscan)
      exact .inr ⟨idx0, rfl, hpos, by rwa [Pending, hr, if_pos rfl]⟩
    · rw [if_neg (by omega), if_neg (by omega)] at hscan
      obtain ⟨rfl, rfl⟩ := mk.inj (some.inj hscan)
      have := hd.inv0.four_le
      exact .inr ⟨d.table0.buckets.length + idx1, by push_cast; rfl, by omega, by rwa [Pending, hr, if_pos rfl]⟩

/-! ## Whole scans -/

section Run

variable {compilePattern : Bytes → Option (Bytes → Bool)} {count : Int} {pattern key : Bytes}

variable {s s' : ScanState V} {gaps : List (List (Mutation V))}

theorem ScanState.call_eq_some (h : s.call compilePattern count pattern = some s') :
    ∃ ks c, s.dict.dictScan compilePattern s.cursor count pattern = some (ks, c) ∧
      s' = { s with cursor := c, returned := s.returned ++ ks } := by
  rw [call, Option.map_eq_some_iff] at h
  obtain ⟨⟨ks, c⟩, hscan, rfl⟩ := h
  exact ⟨ks, c, hscan, rfl⟩

theorem scanRun_cons {gap : List (Mutation V)} (h : scanRun compilePattern count pattern s (gap :: gaps) = some s') :
    ∃ s₁, s.call compilePattern count pattern = some s₁ ∧ s₁.cursor ≠ 0 ∧
      scanRun compilePattern count pattern { s₁ with dict := gap.foldl Mutation.apply s₁.dict } gaps = some s' := by
  rw [scanRun, Option.bind_eq_bind, Option.bind_eq_some_iff] at h
  obtain ⟨s₁, hcall, hrun⟩ := h
  split at hrun
  · cases hrun
  · exact ⟨s₁, hcall, by assumption, hrun⟩

theorem scanRun_returned (h : scanRun compilePattern count pattern s gaps = some s') (hk : key ∈ s.returned) :
    key ∈ s'.returned := by
  induction gaps generalizing s with
  | nil =>
    obtain ⟨ks, c, -, rfl⟩ := ScanState.call_eq_some h
    exact mem_append_left _ hk
  | cons gap gaps ih =>
    obtain ⟨s₁, hcall, -, hrun⟩ := scanRun_cons h
    obtain ⟨ks, c, -, rfl⟩ := ScanState.call_eq_some hcall
    exact ih hrun (mem_append_left _ hk)

theorem scanRun_pending (hcount : 1 ≤ count) (hmatch : Matches compilePattern pattern key) (hd : s.dict.Inv)
    (hpresent : ∀ ms, ms <+: gaps.flatten → key ∈ (ms.foldl Mutation.apply s.dict).keys)
    (hsafe : GapsSafe s.dict gaps) {c : Nat} (hc : s.cursor = c) (hp : Pending s.dict c key)
    (hrun : scanRun compilePattern count pattern s gaps = some s') (hdone : s'.cursor = 0) : key ∈ s'.returned := by
  induction gaps generalizing s c with
  | nil =>
    obtain ⟨v, hmem⟩ := mem_keys_iff.1 (hpresent [] nil_prefix)
    obtain ⟨ks, c', hscan, rfl⟩ := ScanState.call_eq_some hrun
    rcases dictScan_pending hd hcount hmem hmatch hp (hc ▸ hscan) with hk | ⟨n, rfl, hpos, -⟩
    · exact mem_append_right _ hk
    · exact absurd hdone (by simpa using hpos.ne')
  | cons gap gaps ih =>
    obtain ⟨v, hmem⟩ := mem_keys_iff.1 (hpresent [] nil_prefix)
    obtain ⟨s₁, hcall, -, hrun⟩ := scanRun_cons hrun
    obtain ⟨ks, c', hscan, rfl⟩ := ScanState.call_eq_some hcall
    rcases dictScan_pending hd hcount hmem hmatch hp (hc ▸ hscan) with hk | ⟨n, rfl, -, hp'⟩
    · exact scanRun_returned hrun (mem_append_right _ hk)
    have hgap : Pending (gap.foldl Mutation.apply s.dict) n key := by
      rw [Pending] at hp'
      split at hp'
      · exact hp'.foldl hd (by assumption) (hsafe.1 (by assumption))
      · exact (hp'.foldl hd gap).pending
    have hpresent' : ∀ ms, ms <+: gaps.flatten →
        key ∈ (ms.foldl Mutation.apply (gap.foldl Mutation.apply s.dict)).keys := by
      intro ms hms
      rw [← foldl_append]
      exact hpresent _ (by rwa [flatten_cons, prefix_append_right_inj])
    exact ih (Mutation.inv_foldl hd gap) hpresent' hsafe.2 rfl hgap hrun

/-- **A scan misses no key that stays.** From every dict that calls can make, whatever writes
come between the `DictScan` calls of a scan that ends: if a rehash in progress at one call is
never ended before the next, every key that matches and is present all the time is returned. -/
theorem dictScan_complete {d : RedisDict V} (hd : Reachable d) (hcount : 1 ≤ count)
    {gaps : List (List (Mutation V))} {s : ScanState V}
    (hrun : scanRun compilePattern count pattern ⟨d, 0, []⟩ gaps = some s) (hdone : s.cursor = 0)
    (hsafe : GapsSafe d gaps) (hpresent : ∀ ms, ms <+: gaps.flatten → key ∈ (ms.foldl Mutation.apply d).keys)
    (hmatch : Matches compilePattern pattern key) : key ∈ s.returned := by
  have hp : PendingOne d 0 key := ⟨by have := hd.inv.inv0.four_le; omega, Nat.zero_le _⟩
  exact scanRun_pending hcount hmatch hd.inv hpresent hsafe rfl hp.pending hrun hdone

end Run

/-! ## A lost key -/

/-- The dict that `Put`s of `b`, `d`, `f`, `h` and `a` make: rehashing from four buckets into
eight, with the first two moved. -/
def losingDict : RedisDict Unit :=
  (redisMachine.run ((RedisDict.makeRedis 0).getD (.clear ⟨.make 4, none, -1, 0⟩))
    [.put [98] (), .put [100] (), .put [102] (), .put [104] (), .put [97] ()]).1

/-- Two calls, two `Put`s that end the rehash, and a third call. -/
def losingGaps : List (List (Mutation Unit)) := [[], [.put [98] (), .put [98] ()]]

/-- A complete scan with `COUNT 1` that never returns the key `a`, though no write touches it:
the cursor `6`, bucket 2 of the second table, is read as bucket 6 of the one table left. -/
theorem dictScan_loses_key : Reachable losingDict ∧
      (∀ ms, ms <+: losingGaps.flatten → [97] ∈ (ms.foldl Mutation.apply losingDict).keys) ∧
      ∃ s, scanRun (fun _ => none) 1 star ⟨losingDict, 0, []⟩ losingGaps = some s ∧
        s.cursor = 0 ∧ [97] ∉ s.returned := by
  have hall : ∀ ms ∈ losingGaps.flatten.inits, [97] ∈ (ms.foldl Mutation.apply losingDict).keys := by
    decide +kernel
  exact ⟨⟨0, _, _, rfl, rfl⟩, fun ms hms => hall ms ((mem_inits _ _).2 hms), _, rfl,
    by decide +kernel, by decide +kernel⟩

/-- The same dict, with one `Put` between the calls that does not end the rehash: `a` is
returned. -/
theorem dictScan_complete_losingDict :
    ∃ s, scanRun (fun _ => none) 2 star ⟨losingDict, 0, []⟩ [[.put [106] ()], [], []] = some s ∧
      s.cursor = 0 ∧ [97] ∈ s.returned := by
  have hall : ∀ ms ∈ [Mutation.put [106] ()].inits, [97] ∈ (ms.foldl Mutation.apply losingDict).keys := by
    decide +kernel
  have hsafe : GapsSafe losingDict [[.put [106] ()], [], []] :=
    ⟨fun _ => ⟨by decide +kernel, trivial⟩, fun _ => trivial, fun _ => trivial, trivial⟩
  have hreach : Reachable losingDict := ⟨0, _, _, rfl, rfl⟩
  exact ⟨_, rfl, by decide +kernel, @dictScan_complete Unit (fun _ => none) 2 star [97] losingDict
    hreach (by decide) _ _ rfl (by decide +kernel) hsafe
    (fun ms hms => hall ms ((mem_inits _ _).2 hms)) (.inl rfl)⟩

end Hayakv.Dict
