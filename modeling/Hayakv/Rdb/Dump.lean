import Hayakv.Cmd.Server
import Hayakv.Rdb.Encoder
import Mathlib.Data.Multiset.MapFold

/-!
# Saving a dataset

`DumpEngineToRDB` (`internal/persist/aof/faithful_rdb.go`), which `SAVE` calls, and the snapshot of
`BGSAVE` (`internal/command/snapshot.go`). Both go through the databases and switch on what a key holds.
They write the same entries unless a key holds a stream, which only the first of them writes
(`save_eq_bgsave_iff`).

Each function is `none` where it panics: a skiplist is walked from its first rank, so an empty one
panics.
-/

namespace Hayakv.Rdb

open Engine List Option

/-! ## Datasets -/

/-- `entity.Data`, by the types that saving tells apart. A `*SortedSet` is its elements by rank. What
`LoadRDB` makes of a list or a sorted set, a bare `*object.List` or `*object.ZSet`, is of no type of the
switches. -/
inductive Data
  | bytes (b : Bytes)
  | list (vals : List Bytes)
  | set (members : List Bytes)
  | dict (fields : List (Bytes × Bytes))
  | sortedSet (elems : List (Bytes × UInt64))
  | robj (v : Value)
  | other

/-- A key as `ForEach` passes it on. -/
structure KeyData where
  key : Key
  data : Data
  expiration : Option Int

/-- A database: its keys, and the number of those with an expiry. -/
structure DBData where
  keys : List KeyData
  ttlLen : Nat

def Data.ofCell (h : Heap) (c : Cell) : Data :=
  match c.robj, h.value c with
  | true, v => .robj v
  | false, .str _ b => .bytes (b.getD [])
  | false, .coll (.set s) => .set s.members
  | false, .coll (.hash h) => .dict h.fields
  | false, .coll _ => .other

def dataset (σ : Cmd.Server) : List DBData :=
  σ.dbSet.map fun db =>
    ⟨db.data.filterMap fun (key, r) => (σ.heap.cell r).map fun c =>
      ⟨key, .ofCell σ.heap c, db.ttl.lookup key⟩, db.ttl.length⟩

/-- `uint64(expiration.UnixNano() / 1e6)`, and 0 where there is no expiry. -/
def expireMS (expiration : Option Int) : UInt64 :=
  match expiration with
  | some t => UInt64.ofNat (uint64 (GoTime.logMilli t))
  | none => 0

def toMembers (es : List (Bytes × UInt64)) : List ZSetMember := es.map fun (m, s) => ⟨m, s⟩

/-- `ForEachByRank` over all of a `*SortedSet`. -/
def walkRanks (elems : List (Bytes × UInt64)) : Option (List (Bytes × UInt64)) :=
  if elems = [] then none else some elems

section saving

variable (f : FloatOps) (o : LoopOrder)

/-- The switch of `writeRobjEntity` and `snapshotRobj`, with what they make of a stream; `some none` is no value. -/
def robjValue (stream : StreamObj → Option EntryVal) : Value → Option (Option EntryVal)
  | .str _ b => some (some (.string (b.getD [])))
  | .coll (.list l) => some (some (.list l.elems))
  | .coll (.set s) => some (some (.set (o.order s.members)))
  | .coll (.hash h) => some (some (.hash (o.order h.fields)))
  | .coll (.zset z) => (z.walk f).map fun es => some (.zset (toMembers es))
  | .coll (.stream s) => some (stream s)

/-- The switch of `writeEntity` and `snapshotEntity`. -/
def entityValue (robj : Value → Option (Option EntryVal)) : Data → Option (Option EntryVal)
  | .bytes b => some (some (.string b))
  | .list vals => some (some (.list vals))
  | .set members => some (some (.set (o.order members)))
  | .dict fields => some (some (.hash (o.order fields)))
  | .sortedSet elems => (walkRanks elems).map fun es => some (.zset (toMembers es))
  | .robj v => robj v
  | .other => some none

/-! ## SAVE -/

def writeRobjEntity : Value → Option (Option EntryVal) := robjValue f o fun s => some (.stream (streamData o s))

/-- The value that `writeEntity` writes. -/
def writeValue : Data → Option (Option EntryVal) := entityValue o (writeRobjEntity f o)

def writeEntity (k : KeyData) : Option (Option Call) :=
  (writeValue f o k.data).map fun value => value.map fun v => .entry k.key v (expireMS k.expiration)

/-- The turn of `DumpEngineToRDB` for a database. -/
def dumpDB (db : DBData × Nat) : Option (List Call) :=
  if db.1.keys.length = 0 then some []
  else
    ((o.order db.1.keys).mapM (writeEntity f o)).map fun calls =>
      .selectDB db.2 :: .resizeDB (UInt64.ofNat db.1.keys.length) (UInt64.ofNat db.1.ttlLen) :: calls.reduceOption

/-- The calls that `DumpEngineToRDB` makes at the time `now`. -/
def dumpEngineToRDB (now : Int) (dbs : List DBData) : Option (List Call) :=
  (dbs.zipIdx.mapM (dumpDB f o)).map fun calls =>
    [.aux "redis-ver" "8.0.0", .aux "redis-bits" "64",
      .aux "ctime" (itoa (GoTime.unix now)), .aux "used-mem" "0",
      .aux "aof-base" "0"] ++ calls.flatten

/-! ## BGSAVE -/

def snapshotRobj : Value → Option (Option EntryVal) := robjValue f o fun _ => none

def snapshotEntity : Data → Option (Option EntryVal) := entityValue o (snapshotRobj f o)

def snapshotKey (db : Nat) (k : KeyData) : Option (Option Entry) :=
  (snapshotEntity f o k.data).map fun value => value.map fun v => ⟨db, k.key, v, expireMS k.expiration⟩

structure DBSnapshot where
  dbIndex : Nat
  entries : List Entry

/-- The turn of `snapshotAllDBs` for a database. -/
def snapshotDB (db : DBData × Nat) : Option DBSnapshot :=
  ((o.order db.1.keys).mapM (snapshotKey f o db.2)).map fun entries => ⟨db.2, entries.reduceOption⟩

def snapshotAllDBs (dbs : List DBData) : Option (List DBSnapshot) :=
  (dbs.zipIdx.mapM (snapshotDB f o)).map fun snaps => snaps.filter fun snap => snap.entries.length > 0

/-- `writeSnapshotEntry`: there is no case for streams. -/
def writeSnapshotEntry (e : Entry) : Option Call :=
  match e.value with
  | .stream _ => none
  | v => some (.entry e.key v e.expireMS)

/-- The calls that `writeSnapshotRDB` makes. -/
def writeSnapshotRDB (snaps : List DBSnapshot) : List Call :=
  [.aux "redis-ver" "8.0.0", .aux "redis-bits" "64"] ++
    snaps.flatMap fun snap =>
      .selectDB snap.dbIndex :: .resizeDB (UInt64.ofNat snap.entries.length)
        (UInt64.ofNat (snap.entries.countP (·.expireMS ≠ 0))) :: snap.entries.filterMap writeSnapshotEntry

/-- The calls that `BGSAVE` makes. -/
def bgsave (dbs : List DBData) : Option (List Call) := (snapshotAllDBs f o dbs).map writeSnapshotRDB

end saving

/-! ## What is saved -/

/-- What an entry says, without the order of the loops over maps. -/
inductive Content
  | string (val : Bytes)
  | list (vals : List Bytes)
  | set (members : Multiset Bytes)
  | hash (fields : Multiset (Bytes × Bytes))
  | zset (members : List ZSetMember)
  | stream (sd : StreamData)

def EntryVal.content : EntryVal → Content
  | .string val => .string val
  | .list vals => .list vals
  | .set members => .set members
  | .hash fields => .hash fields
  | .zset members => .zset members
  | .stream sd => .stream sd

def Entry.content (e : Entry) : Int × Bytes × Content × UInt64 := (e.dbIndex, e.key, e.value.content, e.expireMS)

/-- The entries that calls write, each with its database. -/
def contents (calls : List Call) : Multiset (Int × Bytes × Content × UInt64) := ((written 0 calls).map Entry.content : List _)

def Data.isStream : Data → Bool
  | .robj (.coll (.stream _)) => true
  | _ => false

def Data.panics (f : FloatOps) : Data → Bool
  | .sortedSet elems => (walkRanks elems).isNone
  | .robj (.coll (.zset z)) => (z.walk f).isNone
  | _ => false

section values

variable {f : FloatOps} {o o' : LoopOrder} {d : Data}

theorem entityValue_eq_none (stream : StreamObj → Option EntryVal) :
    entityValue o (robjValue f o stream) d = none ↔ d.panics f = true := by
  cases d with
  | robj v =>
    cases v with
    | str enc b => simp [entityValue, robjValue, Data.panics]
    | coll c => cases c <;> simp [entityValue, robjValue, Data.panics]
  | _ => simp [entityValue, Data.panics]

theorem writeValue_eq_none : writeValue f o d = none ↔ d.panics f = true := entityValue_eq_none _

theorem snapshotEntity_eq_none : snapshotEntity f o d = none ↔ d.panics f = true := entityValue_eq_none _

/-- The two switches agree on all that is not a stream. -/
theorem content_writeValue (f : FloatOps) (o o' : LoopOrder) (h : d.isStream = false) :
    (writeValue f o d).map (Option.map EntryVal.content) = (snapshotEntity f o' d).map (Option.map EntryVal.content) := by
  have hset : ∀ members : List Bytes, ((o.order members : List Bytes) : Multiset Bytes) = o'.order members :=
    fun members => Multiset.coe_eq_coe.2 ((o.perm members).trans (o'.perm members).symm)
  have hhash : ∀ fields : List (Bytes × Bytes), ((o.order fields : List _) : Multiset (Bytes × Bytes)) = o'.order fields :=
    fun fields => Multiset.coe_eq_coe.2 ((o.perm fields).trans (o'.perm fields).symm)
  cases d with
  | robj v =>
    cases v with
    | str enc b => rfl
    | coll c =>
      cases c with
      | stream s => cases h
      | set s => exact congrArg (some ∘ some ∘ Content.set) (hset s.members)
      | hash h => exact congrArg (some ∘ some ∘ Content.hash) (hhash _)
      | list l | zset z => rfl
  | set members => exact congrArg (some ∘ some ∘ Content.set) (hset members)
  | dict fields => exact congrArg (some ∘ some ∘ Content.hash) (hhash fields)
  | _ => rfl

theorem snapshotEntity_ne_stream (sd : StreamData) : snapshotEntity f o d ≠ some (some (.stream sd)) := by
  cases d with
  | robj v =>
    cases v with
    | str enc b => simp [snapshotEntity, snapshotRobj, entityValue, robjValue]
    | coll c => cases c <;> simp [snapshotEntity, snapshotRobj, entityValue, robjValue]
  | _ => simp [snapshotEntity, entityValue]

end values

/-! ## The calls of a database -/

section written

theorem reduceOption_eq {α : Type} (as : List (Option α)) : as.reduceOption = as.filterMap id := rfl

variable {α β : Type}

theorem mapM_of_forall {g : α → Option β} {g' : α → β} {xs : List α} (h : ∀ x ∈ xs, g x = some (g' x)) :
    xs.mapM g = some (xs.map g') := by
  induction xs with
  | nil => rfl
  | cons x xs ih =>
    rw [mapM_cons, h x mem_cons_self, ih fun y hy => h y (mem_cons_of_mem x hy)]
    rfl

theorem mapM_eq_none {g : α → Option β} {xs : List α} {x : α} (hx : x ∈ xs) (h : g x = none) : xs.mapM g = none := by
  induction xs with
  | nil => cases hx
  | cons y xs ih =>
    rw [mapM_cons]
    rcases mem_cons.1 hx with rfl | hx
    · rw [h]
      rfl
    · rw [ih hx]
      cases g y <;> rfl

theorem flatMap_filter {p : α → Bool} {g : α → List β} {xs : List α} (h : ∀ x ∈ xs, p x = false → g x = []) :
    (xs.filter p).flatMap g = xs.flatMap g := by
  induction xs with
  | nil => rfl
  | cons x xs ih =>
    have htail := ih fun y hy => h y (mem_cons_of_mem x hy)
    cases hx : p x with
    | true => rw [filter_cons_of_pos hx, flatMap_cons, flatMap_cons, htail]
    | false => rw [filter_cons_of_neg (by simp [hx]), flatMap_cons, h x mem_cons_self hx, htail, nil_append]

variable {value : Data → Option EntryVal} {o : LoopOrder}

/-- The entries of a database, of which each key has the given value. -/
def saved (value : Data → Option EntryVal) (o : LoopOrder) (db : DBData × Nat) : List Entry :=
  (o.order db.1.keys).filterMap fun k => (value k.data).map fun v => ⟨db.2, k.key, v, expireMS k.expiration⟩

theorem written_entries (db : Int) (es : List Entry) (rest : List Call) (h : ∀ e ∈ es, e.dbIndex = db) :
    written db (es.map (fun e => .entry e.key e.value e.expireMS) ++ rest) = es ++ written db rest := by
  induction es with
  | nil => rfl
  | cons e es ih =>
    have htail := ih fun e he => h e (mem_cons_of_mem _ he)
    obtain rfl := h e mem_cons_self
    exact congrArg (e :: ·) htail

/-- Calls that each select their database write its entries, whatever was selected before. -/
theorem written_flatMap {α : Type} {block : α → List Call} {entries : α → List Entry} {xs : List α}
    (h : ∀ x ∈ xs, ∀ cur rest, (∀ cur, written cur rest = written 0 rest) →
      written cur (block x ++ rest) = entries x ++ written 0 rest) (cur : Int) :
    written cur (xs.flatMap block) = xs.flatMap entries := by
  induction xs generalizing cur with
  | nil => rfl
  | cons x xs ih =>
    have hrest := ih fun y hy => h y (mem_cons_of_mem x hy)
    rw [flatMap_cons, flatMap_cons, h x mem_cons_self _ _ fun cur => by rw [hrest, hrest], hrest]

theorem dbIndex_saved {db : DBData × Nat} {e : Entry} (he : e ∈ saved value o db) : e.dbIndex = db.2 := by
  obtain ⟨k, -, hk⟩ := mem_filterMap.1 he
  obtain ⟨v, -, rfl⟩ := map_eq_some_iff.1 hk
  rfl

theorem written_block {db : DBData × Nat} {a b : UInt64} {cur : Int} {rest : List Call}
    (hrest : ∀ cur, written cur rest = written 0 rest) : written cur (.selectDB db.2 :: .resizeDB a b ::
      (saved value o db).map (fun e => .entry e.key e.value e.expireMS) ++ rest) = saved value o db ++ written 0 rest := by
  show written db.2 ((saved value o db).map _ ++ rest) = _
  rw [written_entries _ _ _ fun e he => dbIndex_saved he, hrest]

end written

section runs

variable {f : FloatOps} {o : LoopOrder} {dbs : List DBData}

/-- Some key holds what cannot be walked. -/
def Panics (f : FloatOps) (dbs : List DBData) : Prop := ∃ db ∈ dbs, ∃ k ∈ db.keys, k.data.panics f = true

theorem mem_of_zipIdx {db : DBData × Nat} (h : db ∈ dbs.zipIdx) : db.1 ∈ dbs :=
  mem_of_getElem? (mem_zipIdx_iff_getElem?.1 h)

/-- The values that `SAVE` writes. -/
def dumpValue (f : FloatOps) (o : LoopOrder) (d : Data) : Option EntryVal := (writeValue f o d).getD none

theorem dump_written (h : ¬ Panics f dbs) (now : Int) :
    ∃ calls, dumpEngineToRDB f o now dbs = some calls ∧ written 0 calls = dbs.zipIdx.flatMap (saved (dumpValue f o) o) := by
  let block : DBData × Nat → List Call := fun db =>
    if db.1.keys.length = 0 then []
    else .selectDB db.2 :: .resizeDB (UInt64.ofNat db.1.keys.length) (UInt64.ofNat db.1.ttlLen) ::
      (saved (dumpValue f o) o db).map fun e => .entry e.key e.value e.expireMS
  have hblock : ∀ db ∈ dbs.zipIdx, dumpDB f o db = some (block db) := by
    intro db hdb
    have hkeys : ∀ k ∈ o.order db.1.keys, writeEntity f o k =
        some ((dumpValue f o k.data).map fun v => .entry k.key v (expireMS k.expiration)) := by
      intro k hk
      have hsome : writeValue f o k.data ≠ none := fun hnone =>
        h ⟨db.1, mem_of_zipIdx hdb, k, (o.perm _).mem_iff.1 hk, writeValue_eq_none.1 hnone⟩
      obtain ⟨v, hv⟩ := ne_none_iff_exists'.1 hsome
      simp [writeEntity, dumpValue, hv]
    simp only [dumpDB, block]
    split
    · rfl
    · rw [mapM_of_forall hkeys, Option.map_some, saved, map_filterMap, reduceOption_eq, filterMap_map]
      simp only [Function.comp_def, id, Option.map_map]
  rw [dumpEngineToRDB, mapM_of_forall hblock]
  refine ⟨_, rfl, ?_⟩
  refine written_flatMap (fun db _ cur rest hrest => ?_) 0
  simp only [block]
  split
  · rename_i hlen
    have hkeys : o.order db.1.keys = [] := ((o.perm _).trans (by rw [length_eq_zero_iff.1 hlen])).eq_nil
    rw [nil_append, saved, hkeys, hrest]
    rfl
  · exact written_block hrest

/-- The values that `BGSAVE` writes. -/
def snapshotValue (f : FloatOps) (o : LoopOrder) (d : Data) : Option EntryVal := (snapshotEntity f o d).getD none

theorem snapshotValue_ne_stream (d : Data) (sd : StreamData) : snapshotValue f o d ≠ some (.stream sd) := by
  intro h
  rw [snapshotValue] at h
  cases hv : snapshotEntity f o d with
  | none => simp [hv] at h
  | some v => exact snapshotEntity_ne_stream sd (by rw [hv, ← h, hv]; rfl)

theorem bgsave_written (h : ¬ Panics f dbs) :
    ∃ calls, bgsave f o dbs = some calls ∧ written 0 calls = dbs.zipIdx.flatMap (saved (snapshotValue f o) o) := by
  have hdb : ∀ db ∈ dbs.zipIdx, snapshotDB f o db = some ⟨db.2, saved (snapshotValue f o) o db⟩ := by
    intro db hdb
    have hkeys : ∀ k ∈ o.order db.1.keys, snapshotKey f o db.2 k =
        some ((snapshotValue f o k.data).map fun v => ⟨db.2, k.key, v, expireMS k.expiration⟩) := by
      intro k hk
      have hsome : snapshotEntity f o k.data ≠ none := fun hnone =>
        h ⟨db.1, mem_of_zipIdx hdb, k, (o.perm _).mem_iff.1 hk, snapshotEntity_eq_none.1 hnone⟩
      obtain ⟨v, hv⟩ := ne_none_iff_exists'.1 hsome
      simp [snapshotKey, snapshotValue, hv]
    rw [snapshotDB, mapM_of_forall hkeys, map_some, saved, reduceOption_eq, filterMap_map]
    rfl
  have hcalls : ∀ db, (saved (snapshotValue f o) o db).filterMap writeSnapshotEntry =
      (saved (snapshotValue f o) o db).map fun e => .entry e.key e.value e.expireMS := by
    intro db
    rw [← filterMap_eq_map]
    refine filterMap_congr fun e he => ?_
    obtain ⟨k, -, hk⟩ := mem_filterMap.1 he
    obtain ⟨v, hv, rfl⟩ := map_eq_some_iff.1 hk
    cases v with
    | stream sd => exact absurd hv (snapshotValue_ne_stream _ sd)
    | _ => rfl
  rw [bgsave, snapshotAllDBs, mapM_of_forall hdb]
  refine ⟨_, rfl, ?_⟩
  let snaps := dbs.zipIdx.map fun db => (⟨db.2, saved (snapshotValue f o) o db⟩ : DBSnapshot)
  have hsnaps : (snaps.filter fun snap => snap.entries.length > 0).flatMap DBSnapshot.entries =
      dbs.zipIdx.flatMap (saved (snapshotValue f o) o) := by
    rw [flatMap_filter (by simp), flatMap_map]
  rw [← hsnaps]
  refine written_flatMap (fun snap hsnap cur rest hrest => ?_) 0
  obtain ⟨db, -, rfl⟩ := mem_map.1 (mem_of_mem_filter hsnap)
  rw [hcalls]
  exact written_block hrest

theorem dump_eq_none (h : Panics f dbs) (now : Int) : dumpEngineToRDB f o now dbs = none := by
  obtain ⟨db, hdb, k, hk, hpanic⟩ := h
  obtain ⟨i, hi⟩ := getElem?_of_mem hdb
  have hnone : dumpDB f o (db, i) = none := by
    rw [dumpDB, if_neg (by simpa using ne_nil_of_mem hk),
      mapM_eq_none ((o.perm _).mem_iff.2 hk) (by rw [writeEntity, writeValue_eq_none.2 hpanic]; rfl)]
    rfl
  rw [dumpEngineToRDB, mapM_eq_none (mem_zipIdx_iff_getElem?.2 hi) hnone]
  rfl

theorem bgsave_eq_none (h : Panics f dbs) : bgsave f o dbs = none := by
  obtain ⟨db, hdb, k, hk, hpanic⟩ := h
  obtain ⟨i, hi⟩ := getElem?_of_mem hdb
  have hnone : snapshotDB f o (db, i) = none := by
    rw [snapshotDB, mapM_eq_none ((o.perm _).mem_iff.2 hk) (by rw [snapshotKey, snapshotEntity_eq_none.2 hpanic]; rfl)]
    rfl
  rw [bgsave, snapshotAllDBs, mapM_eq_none (mem_zipIdx_iff_getElem?.2 hi) hnone]
  rfl

theorem isStream_iff {d : Data} : d.isStream = true ↔ ∃ s, d = .robj (.coll (.stream s)) := by
  cases d with
  | robj v =>
    cases v with
    | str enc b => simp [Data.isStream]
    | coll c => cases c <;> simp [Data.isStream]
  | _ => simp [Data.isStream]

theorem notStream_of_bgsave {calls : List Call} {e : Entry}
    (hcalls : written 0 calls = dbs.zipIdx.flatMap (saved (snapshotValue f o) o)) (he : e ∈ written 0 calls)
    (sd : StreamData) : e.value.content ≠ .stream sd := by
  rw [hcalls] at he
  obtain ⟨db, -, he⟩ := mem_flatMap.1 he
  obtain ⟨k, -, hk⟩ := mem_filterMap.1 he
  obtain ⟨v, hv, rfl⟩ := map_eq_some_iff.1 hk
  cases v with
  | stream sd' => exact absurd hv (snapshotValue_ne_stream _ sd')
  | _ => exact Content.noConfusion

theorem content_saved {o' : LoopOrder} {value value' : Data → Option EntryVal} {db : DBData × Nat}
    (h : ∀ k ∈ db.1.keys, (value k.data).map EntryVal.content = (value' k.data).map EntryVal.content) :
    ((saved value o db).map Entry.content).Perm ((saved value' o' db).map Entry.content) := by
  have hmap : ∀ (o : LoopOrder) (value : Data → Option EntryVal), ((saved value o db).map Entry.content).Perm
      (db.1.keys.filterMap fun k => ((value k.data).map EntryVal.content).map fun c =>
        ((db.2 : Int), k.key, c, expireMS k.expiration)) := by
    intro o value
    rw [saved, map_filterMap]
    simp only [Option.map_map]
    exact (o.perm _).filterMap _
  refine (hmap o value).trans (.trans (.of_eq ?_) (hmap o' value').symm)
  exact filterMap_congr fun k hk => by rw [h k hk]

end runs

/-- `SAVE` and `BGSAVE` write the same entries, or both panic, exactly if no key holds a stream or some
key holds what cannot be walked. -/
theorem save_eq_bgsave_iff (f : FloatOps) (dbs : List DBData) :
    (∀ (o o' : LoopOrder) (now : Int), (dumpEngineToRDB f o now dbs).map contents = (bgsave f o' dbs).map contents) ↔
      (∀ db ∈ dbs, ∀ k ∈ db.keys, k.data.isStream = false) ∨ Panics f dbs := by
  by_cases hpanic : Panics f dbs
  · simp [dump_eq_none hpanic, bgsave_eq_none hpanic, hpanic]
  simp only [hpanic, or_false]
  refine ⟨fun h db hdb k hk => ?_, fun h o o' now => ?_⟩
  · obtain ⟨calls, hdump, hcalls⟩ := dump_written hpanic 0
    obtain ⟨calls', hsave, hcalls'⟩ := bgsave_written hpanic
    have heq := h .insertion .insertion 0
    rw [hdump, hsave, Option.map_some, Option.map_some, Option.some.injEq] at heq
    by_contra hstream
    obtain ⟨s, hs⟩ := isStream_iff.1 (Bool.not_eq_false _ ▸ hstream)
    obtain ⟨i, hi⟩ := List.getElem?_of_mem hdb
    let entry : Entry := ⟨i, k.key, .stream (streamData .insertion s), expireMS k.expiration⟩
    have hmem : entry ∈ written 0 calls := by
      rw [hcalls]
      refine List.mem_flatMap.2 ⟨(db, i), List.mem_zipIdx_iff_getElem?.2 hi, List.mem_filterMap.2 ⟨k, hk, ?_⟩⟩
      rw [hs]
      rfl
    have hcontent : entry.content ∈ contents calls := Multiset.mem_coe.2 (List.mem_map_of_mem hmem)
    rw [heq] at hcontent
    obtain ⟨e, he, hec⟩ := List.mem_map.1 (Multiset.mem_coe.1 hcontent)
    exact notStream_of_bgsave hcalls' he _ (congrArg (fun c => c.2.2.1) hec)
  · obtain ⟨calls, hdump, hcalls⟩ := dump_written hpanic now
    obtain ⟨calls', hsave, hcalls'⟩ := bgsave_written hpanic
    rw [hdump, hsave, Option.map_some, Option.map_some, contents, contents, hcalls, hcalls', List.map_flatMap,
      List.map_flatMap]
    refine congrArg some (Multiset.coe_eq_coe.2 (List.Perm.flatMap_left _ fun db hdb => content_saved fun k hk => ?_))
    have hcontent := content_writeValue f o o' (h db.1 (mem_of_zipIdx hdb) k hk)
    have hgetD : ∀ x : Option (Option EntryVal),
        (x.getD none).map EntryVal.content = (x.map (Option.map EntryVal.content)).getD none := by
      rintro (_ | _) <;> rfl
    rw [dumpValue, snapshotValue, hgetD, hgetD, hcontent]

/-- A server after `XADD s 1-1 f v`. -/
def oneStream : Cmd.Server := (Cmd.newServer 1).step (.plain 0) (.command 0 ["xadd", "s", "1-1", "f", "v"])

theorem stream_notSnapshot : Cmd.Server.Reachable 1 oneStream ∧ ¬ ∀ (o o' : LoopOrder) (now : Int),
      (dumpEngineToRDB (Env.plain 0).float o now (dataset oneStream)).map contents =
        (bgsave (Env.plain 0).float o' (dataset oneStream)).map contents := by
  refine ⟨.step _ _ .start, fun h => ?_⟩
  have hcard := congrArg (Option.map Multiset.card) (h .insertion .insertion 0)
  exact absurd hcard (by decide)

end Hayakv.Rdb
