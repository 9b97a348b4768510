import Hayakv.Dict.Concurrent

/-!
# `DictScan` of a `ConcurrentDict`

The cursor is the number of a shard. A call takes at least one shard, and a key never leaves its shard, so
that no write between the calls can hide it: a scan ends after as many calls as there are shards at most,
and returns every key that is there all the time. Only the call that takes the whole dict at once can fail,
where the counter has become negative (`Takes`).
-/

namespace Hayakv.Dict

open Engine Object List

/-- `wildcard.CompilePattern` and `IsMatch`. -/
structure Wildcard where
  compile : Bytes → Option (Bytes → Bool)
  compile_star : (compile star).isSome

variable {V : Type}

/-- The shard loop of `DictScan`: whole shards, until the next one would be too much. The first is always
taken. -/
def scanShards (o : MapOrder) (matchKey : Bytes → Bool) (count : Int) (cursor : Nat) :
    List (List (Bytes × V)) → Nat → List Bytes → List Bytes × Int
  | [], _, result => (result, 0)
  | m :: ms, i, result =>
    if count < result.length + m.length ∧ cursor < i then (result, i)
    else scanShards o matchKey count cursor ms (i + 1) (result ++ ((o.order m).map Prod.fst).filter matchKey)

/-- `DictScan`. `none` is a panic: of `Keys`, or of indexing with a negative cursor. -/
def ConcurrentDict.dictScan (w : Wildcard) (o : MapOrder) (d : ConcurrentDict V) (cursor count : Int)
    (pattern : Bytes) : Option (List Bytes × Int) :=
  if pattern = star ∧ d.len ≤ count then (d.keys o).map (·, 0)
  else
    match w.compile pattern with
    | none => some ([], -1)
    | some matchKey =>
      if cursor < 0 then none
      else
        some (scanShards o (fun key => pattern = star || matchKey key) count cursor.toNat
          (d.table.drop cursor.toNat) cursor.toNat [])

/-! ## Scans -/

/-- A scan under way: the dict, the cursor for the next call, and the keys returned so far. -/
structure ShardScan (V : Type) where
  dict : ConcurrentDict V
  cursor : Int
  returned : List Bytes

section Scan

variable (w : Wildcard) (o : MapOrder) (count : Int) (pattern : Bytes)

/-- One call of `DictScan`. -/
def ShardScan.call (s : ShardScan V) : Option (ShardScan V) :=
  (s.dict.dictScan w o s.cursor count pattern).map fun (ks, cursor) =>
    { s with cursor, returned := s.returned ++ ks }

/-- A call, and then for every gap its writes and a call more. Only the last call may return 0, or refuse
the pattern with a negative cursor. -/
def shardScanRun (s : ShardScan V) : List (List (Mutation V)) → Option (ShardScan V)
  | [] => s.call w o count pattern
  | gap :: gaps => do
    let s ← s.call w o count pattern
    if s.cursor ≤ 0 then none
    else shardScanRun { s with dict := gap.foldl ConcurrentDict.apply s.dict } gaps

end Scan

/-! ## One call -/

section Call

variable {w : Wildcard} {o : MapOrder} {count : Int} {pattern key : Bytes}

/-- The shard loop ends before the shard `j`, at the end of the table or because that shard would be too
much. It has taken all the shards before. -/
theorem scanShards_spec (o : MapOrder) (count : Int) (matchKey : Bytes → Bool) (cursor : Nat)
    (ms : List (List (Bytes × V))) (i : Nat) (result : List Bytes) :
    ∃ j, i ≤ j ∧ j ≤ i + ms.length ∧ (ms ≠ [] → i ≤ cursor → i < j) ∧
      (scanShards o matchKey count cursor ms i result).2 = (if j = i + ms.length then 0 else (j : Int)) ∧
      ∀ key, key ∈ result ∨ (∃ p < j - i, key ∈ (ms.getD p []).map Prod.fst ∧ matchKey key) →
        key ∈ (scanShards o matchKey count cursor ms i result).1 := by
  induction ms generalizing i result with
  | nil =>
    refine ⟨i, Nat.le_refl i, Nat.le_refl _, fun h => absurd rfl h, ?_, fun key hkey => ?_⟩
    · exact (if_pos rfl).symm
    · obtain hres | ⟨p, hp, -⟩ := hkey
      · exact hres
      · omega
  | cons m ms ih =>
    rw [scanShards]
    split
    · rename_i hstop
      refine ⟨i, Nat.le_refl i, Nat.le_add_right .., fun _ hle => ?_, ?_, fun key hkey => ?_⟩
      · omega
      · rw [length_cons, if_neg (by omega)]
      · obtain hres | ⟨p, hp, -⟩ := hkey
        · exact hres
        · omega
    · obtain ⟨j, hij, hj, -, hcursor, hkeys⟩ := ih (i + 1) (result ++ ((o.order m).map Prod.fst).filter matchKey)
      refine ⟨j, by omega, by rw [length_cons]; omega, fun _ _ => hij, ?_, fun key hkey => hkeys key ?_⟩
      · rw [hcursor, length_cons]
        omega
      · obtain hres | ⟨p, hp, hmem, hmatch⟩ := hkey
        · exact .inl (mem_append_left _ hres)
        · cases p with
          | zero =>
            have hperm := ((o.perm m).map Prod.fst).mem_iff (a := key)
            exact .inl (mem_append_right _ (mem_filter.2 ⟨hperm.2 hmem, hmatch⟩))
          | succ p => exact .inr ⟨p, by omega, hmem, hmatch⟩

variable {d : ConcurrentDict V}

/-- Where a call returns all keys at once, the counter is a length for their slice. -/
def ConcurrentDict.Takes (d : ConcurrentDict V) (count : Int) (pattern : Bytes) : Prop :=
  pattern = star → d.len ≤ count → 0 ≤ d.len

theorem ConcurrentDict.Inv.exists_keys (h : d.Inv) (o : MapOrder) (hlen : 0 ≤ d.len) :
    ∃ ks, d.keys o = some ks ∧ ∀ key, d.Present key → key ∈ ks := by
  refine ⟨_, if_neg (not_lt.2 hlen), fun key hkey => mem_append_left _ (mem_flatten.2 ⟨_, mem_map_of_mem (getElem_mem (h.spread_lt key)), ?_⟩)⟩
  have hshard := isSome_lookup.1 hkey
  rw [shardOf, getD_eq_getElem _ _ (h.spread_lt key)] at hshard
  exact ((o.perm _).map Prod.fst).mem_iff.2 hshard

/-- A call at a shard's number: it ends the scan or goes to a later shard, and it returns every key of the
shards that it has passed. -/
theorem dictScan_spec (o : MapOrder) (hd : d.Inv) (htakes : d.Takes count pattern) {matchKey : Bytes → Bool}
    (hcompile : w.compile pattern = some matchKey) {c : Nat} (hc : c < d.table.length) :
    ∃ ks, ∃ c' : Nat, d.dictScan w o c count pattern = some (ks, (c' : Int)) ∧
      (c' = 0 ∨ c < c' ∧ c' < d.table.length) ∧
      ∀ key, d.Present key → Matches w.compile pattern key → c ≤ d.spread key →
        key ∈ ks ∨ c' ≠ 0 ∧ c' ≤ d.spread key := by
  rw [ConcurrentDict.dictScan]
  split
  · -- the whole dict at once
    rename_i hall
    obtain ⟨ks, hks, hmem⟩ := hd.exists_keys o (htakes hall.1 hall.2)
    exact ⟨ks, 0, by rw [hks]; rfl, .inl rfl, fun key hkey _ _ => .inl (hmem key hkey)⟩
  have hneg : ¬ (c : Int) < 0 := by omega
  rw [hcompile]
  dsimp only
  rw [if_neg hneg, Int.toNat_natCast]
  obtain ⟨j, hcj, hj, hadv, hcursor, hkeys⟩ := scanShards_spec o count
    (fun key => pattern = star || matchKey key) c (d.table.drop c) c []
  have hlen : (d.table.drop c).length = d.table.length - c := length_drop
  have hne : d.table.drop c ≠ [] := fun h => by
    rw [h, length_nil] at hlen
    omega
  have hlt := hadv hne (Nat.le_refl c)
  refine ⟨_, if j = d.table.length then 0 else j, congrArg some (Prod.ext rfl ?_), ?_, fun key hkey hmatch hle => ?_⟩
  · rw [hcursor, hlen, Nat.add_sub_cancel' (Nat.le_of_lt hc)]
    split <;> rfl
  · split
    · exact .inl rfl
    · exact .inr ⟨hlt, by omega⟩
  · by_cases hpassed : d.spread key < j
    · refine .inl (hkeys key (.inr ⟨d.spread key - c, by omega, ?_, ?_⟩))
      · rw [getD_eq_getElem?_getD, getElem?_drop, Nat.add_sub_cancel' hle, ← getD_eq_getElem?_getD]
        exact isSome_lookup.1 hkey
      · rcases hmatch with hstar | ⟨m, hm, hmk⟩
        · rw [decide_eq_true hstar, Bool.true_or]
        · rw [hcompile] at hm
          rw [Option.some.inj hm, hmk, Bool.or_true]
    · have hspread := hd.spread_lt key
      rw [if_neg (by omega)]
      exact .inr ⟨by omega, by omega⟩

theorem Wildcard.ne_star (hcompile : w.compile pattern = none) : pattern ≠ star := fun heq => by
  have hsome := w.compile_star
  rw [← heq, hcompile] at hsome
  cases hsome

theorem dictScan_refused (hcompile : w.compile pattern = none) (c : Int) :
    d.dictScan w o c count pattern = some ([], -1) := by
  rw [ConcurrentDict.dictScan, if_neg fun h => w.ne_star hcompile h.1, hcompile]

end Call

/-! ## Whole scans -/

section Run

variable {w : Wildcard} {o : MapOrder} {count : Int} {pattern key : Bytes}

theorem shardScan_returned {s s' : ShardScan V} {gaps : List (List (Mutation V))}
    (h : shardScanRun w o count pattern s gaps = some s') (hk : key ∈ s.returned) : key ∈ s'.returned := by
  have hcall : ∀ {s s' : ShardScan V}, s.call w o count pattern = some s' → key ∈ s.returned →
      key ∈ s'.returned := fun h hk => by
    obtain ⟨r, -, rfl⟩ := Option.map_eq_some_iff.1 h
    exact mem_append_left _ hk
  induction gaps generalizing s with
  | nil => exact hcall h hk
  | cons gap gaps ih =>
    rw [shardScanRun, Option.bind_eq_bind, Option.bind_eq_some_iff] at h
    obtain ⟨s₁, hs₁, hrun⟩ := h
    split at hrun
    · cases hrun
    · have hk₁ := hcall hs₁ hk
      exact ih hrun hk₁

/-- What is left of a scan at the shard `c`: it ends within the shards that are left, and returns the keys
of these that stay. -/
theorem shardScan_rest {matchKey : Bytes → Bool} (hcompile : w.compile pattern = some matchKey) (left : Nat)
    {d : ConcurrentDict V} (hd : d.Inv) {c : Nat} (hc : c < d.table.length) (hleft : d.table.length ≤ c + left)
    (returned : List Bytes) (gaps : Nat → List (Mutation V))
    (htakes : ∀ i < left, (((range i).map gaps).flatten.foldl ConcurrentDict.apply d).Takes count pattern) :
    ∃ n < left, ∃ s, shardScanRun w o count pattern ⟨d, c, returned⟩ ((range n).map gaps) = some s ∧ s.cursor = 0 ∧
      ∀ key, (∀ ms, ms <+: ((range n).map gaps).flatten → (ms.foldl ConcurrentDict.apply d).Present key) →
        Matches w.compile pattern key → c ≤ d.spread key → key ∈ s.returned := by
  induction left generalizing d c returned gaps with
  | zero => omega
  | succ left ih =>
    obtain ⟨ks, c', hscan, hc', hkeys⟩ := dictScan_spec o hd (htakes 0 (Nat.succ_pos _)) hcompile hc
    have hcall : ShardScan.call w o count pattern ⟨d, c, returned⟩ = some ⟨d, c', returned ++ ks⟩ := by
      rw [ShardScan.call, hscan]
      rfl
    rcases hc' with rfl | ⟨hlt, hlt'⟩
    · -- the scan has ended
      refine ⟨0, Nat.succ_pos _, _, hcall, rfl, fun key hpresent hmatch hle => ?_⟩
      rcases hkeys key (hpresent [] nil_prefix) hmatch hle with hmem | ⟨hne, -⟩
      · exact mem_append_right _ hmem
      · exact absurd rfl hne
    obtain ⟨hinv, hlen⟩ := hd.writes (gaps 0)
    have hspread : ((gaps 0).foldl ConcurrentDict.apply d).spread = d.spread := by
      funext key
      rw [ConcurrentDict.spread, hlen, ConcurrentDict.spread]
    have hgaps (n : Nat) : (range (n + 1)).map gaps = gaps 0 :: (range n).map fun i => gaps (i + 1) := by
      rw [range_succ_eq_map, map_cons, map_map]
      rfl
    obtain ⟨n, hn, s, hrun, hend, hrest⟩ := ih hinv (by rw [hlen]; exact hlt') (by rw [hlen]; omega)
      (returned ++ ks) (fun i => gaps (i + 1)) fun i hi => by
        have hnext := htakes (i + 1) (Nat.succ_lt_succ hi)
        rwa [hgaps, flatten_cons, foldl_append] at hnext
    have hrun' : shardScanRun w o count pattern ⟨d, c, returned⟩ ((range (n + 1)).map gaps) = some s := by
      rw [hgaps, shardScanRun, hcall]
      exact (if_neg (by dsimp only; omega)).trans hrun
    refine ⟨n + 1, Nat.succ_lt_succ hn, s, hrun', hend, fun key hpresent hmatch hle => ?_⟩
    rw [hgaps, flatten_cons] at hpresent
    rcases hkeys key (hpresent [] nil_prefix) hmatch hle with hmem | ⟨-, hle'⟩
    · exact shardScan_returned hrun (mem_append_right _ hmem)
    · refine hrest key (fun ms hms => ?_) hmatch (by rw [hspread]; exact hle')
      rw [← foldl_append]
      exact hpresent _ ((prefix_append_right_inj _).2 hms)

/-- A scan of `d`, with these writes between its calls, ends after as many calls as there are shards at most,
with the cursor 0, unless its first call refuses the pattern. It has returned every key that matches and was
present at each of its calls. -/
def ScanComplete (w : Wildcard) (o : MapOrder) (d : ConcurrentDict V) (count : Int) (pattern : Bytes)
    (gaps : Nat → List (Mutation V)) : Prop :=
  ∃ n < d.table.length, ∃ s, shardScanRun w o count pattern ⟨d, 0, []⟩ ((range n).map gaps) = some s ∧
    (s.cursor = 0 ∨ n = 0 ∧ s.cursor = -1 ∧ w.compile pattern = none) ∧
    ∀ key, (∀ ms, ms <+: ((range n).map gaps).flatten → (ms.foldl ConcurrentDict.apply d).Present key) →
      Matches w.compile pattern key → key ∈ s.returned

/-- **The guarantee of `SCAN`.** From every dict that writes have made, whatever the writes between the
calls, as long as no call finds a negative counter that it makes a slice of. -/
theorem shardScan_complete (w : Wildcard) (o : MapOrder) (shardCount : Int) (writes : List (Mutation V))
    (count : Int) (pattern : Bytes) (gaps : Nat → List (Mutation V)) :
    let d := writes.foldl ConcurrentDict.apply (.makeConcurrent shardCount)
    (∀ i < d.table.length, (((range i).map gaps).flatten.foldl ConcurrentDict.apply d).Takes count pattern) →
      ScanComplete w o d count pattern gaps := by
  intro d htakes
  have hd : d.Inv := ((ConcurrentDict.inv_makeConcurrent shardCount).writes writes).1
  cases hcompile : w.compile pattern with
  | none =>
    refine ⟨0, hd.pos, ⟨d, -1, []⟩, ?_, .inr ⟨rfl, rfl, hcompile⟩, fun key _ hmatch => ?_⟩
    · change ShardScan.call w o count pattern _ = _
      rw [ShardScan.call, dictScan_refused hcompile]
      rfl
    · -- no key matches it
      rcases hmatch with hstar | ⟨matchKey, hm, -⟩
      · exact absurd hstar (w.ne_star hcompile)
      · rw [hcompile] at hm
        cases hm
  | some matchKey =>
    obtain ⟨n, hn, s, hrun, hend, hkeys⟩ := shardScan_rest hcompile d.table.length hd hd.pos
      (Nat.le_of_eq (Nat.zero_add _).symm) [] gaps htakes
    exact ⟨n, hn, s, hrun, .inl hend, fun key hpresent hmatch => hkeys key hpresent hmatch (Nat.zero_le _)⟩

def Wildcard.all : Wildcard := ⟨fun _ => some fun _ => true, rfl⟩

def MapOrder.asIs : MapOrder := ⟨fun es => es, fun _ => .refl _⟩

/-- Three keys in 16 shards, one at a call: `c` is removed and `d` put after the first call, `a` and `b` stay. -/
theorem shardScan_complete_three :
    let d := [Mutation.put (str "a") 1, .put "b" 2, .put "c" 3].foldl ConcurrentDict.apply (.makeConcurrent 16)
    let gaps : Nat → List (Mutation Nat) := fun i => if i = 0 then [.remove "c", .put "d" 4] else []
    (∀ i < d.table.length, (((range i).map gaps).flatten.foldl ConcurrentDict.apply d).Takes 1 star) ∧
      ScanComplete .all MapOrder.asIs d 1 star gaps := by
  intro d gaps
  have htakes : ∀ i < d.table.length, (((range i).map gaps).flatten.foldl ConcurrentDict.apply d).Takes 1 star := by
    have hlen : ∀ i < 16, 0 ≤ (((range i).map gaps).flatten.foldl ConcurrentDict.apply d).len := by decide +kernel
    exact fun i hi _ _ => hlen i hi
  exact ⟨htakes, shardScan_complete .all MapOrder.asIs 16 _ 1 star gaps htakes⟩

def numbered (n : Nat) : List (Bytes × Unit) := (range n).map fun i : Nat => (itoa i, ())

/-- Puts of the numbers below `n` into one shard. -/
theorem foldl_numbered {n : Nat} (hn : n < 2 ^ 62) :
    ((numbered n).map fun e => Mutation.put e.1 e.2).foldl ConcurrentDict.apply (.makeConcurrent 1) =
      ⟨[numbered n], wrap32 n⟩ := by
  induction n with
  | zero => rfl
  | succ n ih =>
    have hnot : itoa n ∉ (numbered n).map Prod.fst := by
      rw [numbered, map_map, mem_map]
      rintro ⟨i, hi, heq⟩
      have hi := mem_range.1 hi
      have hparse := congrArg parseInt heq
      rw [Function.comp, parseInt_itoa (by omega) (by omega), parseInt_itoa (by omega) (by omega)] at hparse
      have := Option.some.inj hparse
      omega
    have hget : (numbered n).lookup (itoa n) = none := by
      rw [← Option.not_isSome_iff_eq_none, isSome_lookup]
      exact hnot
    have hsucc : numbered (n + 1) = numbered n ++ [(itoa n, ())] := by
      rw [numbered, range_succ, map_append]
      rfl
    have hcount : wrap32 (wrap32 n + 1) = wrap32 (n + 1 : Nat) := by
      unfold wrap32
      omega
    rw [hsucc, map_append, foldl_append, ih (by omega), map_cons, map_nil, foldl_cons, foldl_nil]
    simp only [ConcurrentDict.apply, ConcurrentDict.put, ConcurrentDict.get, ConcurrentDict.shardOf,
      ConcurrentDict.assign, ConcurrentDict.spread, spreadIn, length_singleton, if_true, getD_cons_zero, hget,
      modify_zero_cons, putField_of_notMem hnot]
    rw [hcount]

/-- With 2^31 keys the counter is negative, and `Keys` cannot make its slice. -/
theorem shardScan_panics : ¬∀ (w : Wildcard) (o : MapOrder) (shardCount : Int) (writes : List (Mutation Unit))
    (count : Int) (pattern : Bytes) (gaps : Nat → List (Mutation Unit)),
    ScanComplete w o (writes.foldl ConcurrentDict.apply (.makeConcurrent shardCount)) count pattern gaps := by
  intro h
  obtain ⟨n, -, s, hrun, -⟩ := h .all MapOrder.asIs 1 ((numbered (2 ^ 31)).map fun e => .put e.1 e.2) 1 star fun _ => []
  rw [foldl_numbered (by norm_num), show wrap32 (2 ^ 31 : Nat) = -2147483648 by decide] at hrun
  have hscan (table : List (List (Bytes × Unit))) :
      ConcurrentDict.dictScan .all MapOrder.asIs ⟨table, -2147483648⟩ 0 1 star = none := rfl
  cases n with
  | zero => simp [shardScanRun, ShardScan.call, hscan] at hrun
  | succ n => simp [range_succ_eq_map, shardScanRun, ShardScan.call, hscan] at hrun

end Run

end Hayakv.Dict
