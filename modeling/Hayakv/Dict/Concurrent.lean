import Hayakv.Dict.Scan
import Hayakv.Object.SimpleDict

/-!
# `ConcurrentDict`: the map with one lock for each shard

`internal/datastruct/dict/concurrent.go`. A shard's Go map is a list of entries with distinct keys; a loop
over it goes through them in any order (`MapOrder`). Each method here holds the lock of its shard for its
whole body, and the `WithLock` variants have the same bodies.

`Inv` is what every call keeps: the keys of a shard are distinct, and the counter counts the entries in 32
bits.
-/

namespace Hayakv.Dict

open Chained Engine Object List Prod

def fnv32 (key : Bytes) : UInt32 := key.foldl (fun hash b => hash * 16777619 ^^^ b.toUInt32) 2166136261

/-- `computeCapacity`. The shifts of a positive number stay positive, so that the branch for a negative one
is never taken. -/
def computeCapacity (param : Int) : Nat :=
  if param ≤ 16 then 16
  else
    let n := param.toNat - 1
    BitSmear.smear 16 (BitSmear.smear 8 (BitSmear.smear 4 (BitSmear.smear 2 (BitSmear.smear 1 n)))) + 1

/-- `(tableSize - 1) & hashCode`, or 0 for a table of one shard. -/
def spreadIn (shards : Nat) (key : Bytes) : Nat :=
  if shards = 1 then 0 else ((UInt32.ofNat shards - 1) &&& fnv32 key).toNat

theorem spreadIn_lt {shards : Nat} (h : 0 < shards) (key : Bytes) : spreadIn shards key < shards := by
  rw [spreadIn]
  split
  · exact h
  have hle : ((UInt32.ofNat shards - 1) &&& fnv32 key).toNat ≤ (UInt32.ofNat shards - 1).toNat := by
    exact Nat.and_le_left
  have hsub : (UInt32.ofNat shards - 1).toNat < shards := by
    rw [UInt32.toNat_sub, UInt32.toNat_ofNat', UInt32.toNat_one]
    omega
  exact Nat.lt_of_le_of_lt hle hsub

/-- An integer as an `int32`, in two's complement. -/
def wrap32 (n : Int) : Int := (n + 2 ^ 31) % 2 ^ 32 - 2 ^ 31

structure ConcurrentDict (V : Type) where
  table : List (List (Bytes × V))
  count : Int

namespace ConcurrentDict

variable {V : Type}

def makeConcurrent (shardCount : Int) : ConcurrentDict V where
  table := replicate (if shardCount = 1 then 1 else computeCapacity shardCount) []
  count := 0

def spread (d : ConcurrentDict V) (key : Bytes) : Nat := spreadIn d.table.length key

def shardOf (d : ConcurrentDict V) (key : Bytes) : List (Bytes × V) := d.table.getD (d.spread key) []

def get (d : ConcurrentDict V) (key : Bytes) : Option V := (d.shardOf key).lookup key

def len (d : ConcurrentDict V) : Int := d.count

/-- `s.m[key] = val`. -/
def assign (d : ConcurrentDict V) (key : Bytes) (val : V) : ConcurrentDict V :=
  { d with table := d.table.modify (d.spread key) (putField key val) }

/-- `Put`: `1` for a new key. -/
def put (d : ConcurrentDict V) (key : Bytes) (val : V) : ConcurrentDict V × Int :=
  match d.get key with
  | some _ => (d.assign key val, 0)
  | none => ({ d.assign key val with count := wrap32 (d.count + 1) }, 1)

def putIfAbsent (d : ConcurrentDict V) (key : Bytes) (val : V) : ConcurrentDict V × Int :=
  match d.get key with
  | some _ => (d, 0)
  | none => ({ d.assign key val with count := wrap32 (d.count + 1) }, 1)

def putIfExists (d : ConcurrentDict V) (key : Bytes) (val : V) : ConcurrentDict V × Int :=
  match d.get key with
  | some _ => (d.assign key val, 1)
  | none => (d, 0)

def remove (d : ConcurrentDict V) (key : Bytes) : ConcurrentDict V × Option V × Int :=
  match d.get key with
  | some val =>
    let table := d.table.modify (d.spread key) (removeField key)
    ({ table, count := wrap32 (d.count - 1) }, some val, 1)
  | none => (d, none, 0)

def apply (d : ConcurrentDict V) : Mutation V → ConcurrentDict V
  | .put key val => (d.put key val).1
  | .putIfAbsent key val => (d.putIfAbsent key val).1
  | .putIfExists key val => (d.putIfExists key val).1
  | .remove key => (d.remove key).1

def Present (d : ConcurrentDict V) (key : Bytes) : Prop := (d.get key).isSome

/-- The keys in the order of `ForEach`. -/
def forEachKeys (o : MapOrder) (d : ConcurrentDict V) : List Bytes :=
  (d.table.map fun m => (o.order m).map fst).flatten

/-- `Keys`: a slice of length `Len`, which the keys fill from its start; what is too much for it is
appended. `make` panics for a negative length. -/
def keys (o : MapOrder) (d : ConcurrentDict V) : Option (List Bytes) :=
  if d.count < 0 then none
  else
    let ks := forEachKeys o d
    some (ks ++ replicate (d.count.toNat - ks.length) [])

/-! ## What every call keeps -/

structure Inv (d : ConcurrentDict V) : Prop where
  pos : 0 < d.table.length
  nodup : ∀ m ∈ d.table, (m.map fst).Nodup
  count : d.count = wrap32 d.table.flatten.length

theorem computeCapacity_pos (param : Int) : 0 < computeCapacity param := by
  rw [computeCapacity]
  split
  · decide
  · exact Nat.succ_pos _

theorem inv_makeConcurrent (shardCount : Int) : (makeConcurrent shardCount : ConcurrentDict V).Inv where
  pos := by
    rw [makeConcurrent, length_replicate]
    split
    · exact Nat.one_pos
    · exact computeCapacity_pos shardCount
  nodup m hm := by
    rw [eq_of_mem_replicate hm]
    exact nodup_nil
  count := by
    have hzero : (0 : Int) = wrap32 0 := by decide
    rwa [makeConcurrent, flatten_replicate_nil]

variable {d : ConcurrentDict V} {key : Bytes} {val : V}

theorem Inv.spread_lt (h : d.Inv) (key : Bytes) : d.spread key < d.table.length := spreadIn_lt h.pos key

theorem Inv.nodup_shardOf (h : d.Inv) (key : Bytes) : ((d.shardOf key).map fst).Nodup := by
  rw [shardOf, getD_eq_getElem _ _ (h.spread_lt key)]
  exact h.nodup _ (getElem_mem _)

theorem Inv.modify (h : d.Inv) (key : Bytes) {f : List (Bytes × V) → List (Bytes × V)} {count : Int}
    (hnodup : ∀ m, (m.map fst).Nodup → ((f m).map fst).Nodup)
    (hcount : count = wrap32 (d.count + ((f (d.shardOf key)).length - (d.shardOf key).length))) :
    Inv { table := d.table.modify (d.spread key) f, count } where
  pos := by
    rw [length_modify]
    exact h.pos
  nodup m hm := by
    obtain ⟨i, hi, rfl⟩ := mem_iff_getElem.1 hm
    rw [getElem_modify]
    split
    · exact hnodup _ (h.nodup _ (getElem_mem _))
    · exact h.nodup _ (getElem_mem _)
  count := by
    have hnew := (flatten_modify (h.spread_lt key) f).length_eq
    have hold := (flatten_eraseIdx (h.spread_lt key)).length_eq
    have hd := h.count
    rw [length_append, ← shardOf] at hnew hold
    dsimp only
    unfold wrap32 at *
    omega

theorem length_putField (d : ConcurrentDict V) (key : Bytes) (val : V) :
    (putField key val (d.shardOf key)).length = (d.shardOf key).length + if (d.get key).isSome then 0 else 1 := by
  rw [get, ← length_map fst, keys_putField]
  by_cases hmem : key ∈ (d.shardOf key).map fst
  · simp [hmem, isSome_lookup.2 hmem]
  · simp [hmem, mt isSome_lookup.1 hmem]

theorem Inv.length_removeField (hd : d.Inv) (h : d.get key = some val) :
    (removeField key (d.shardOf key)).length + 1 = (d.shardOf key).length := by
  have hmem : key ∈ (d.shardOf key).map fst := isSome_lookup.1 (by rw [← get, h]; rfl)
  have hkeys : (removeField key (d.shardOf key)).map fst = ((d.shardOf key).map fst).erase key := by
    rw [keys_removeField, (hd.nodup_shardOf key).erase_eq_filter]
    exact filter_congr fun k _ => by rw [Bool.eq_iff_iff, decide_eq_true_iff, bne_iff_ne]
  have hlen := length_erase_of_mem hmem
  have hpos := length_pos_of_mem hmem
  rw [← hkeys] at hlen
  simp only [length_map] at hlen hpos
  omega

theorem Inv.put (h : d.Inv) (key : Bytes) (val : V) : (d.put key val).1.Inv := by
  rw [ConcurrentDict.put]
  have hcount := h.count
  have hlen := length_putField d key val
  cases hget : d.get key with
  | some old | none =>
    refine h.modify key (fun _ => nodup_putField) ?_
    simp only [hget, Option.isSome_some, Option.isSome_none, if_true, Bool.false_eq_true, if_false] at hlen ⊢
    unfold wrap32 at *
    omega

theorem Inv.putIfAbsent (h : d.Inv) (key : Bytes) (val : V) : (d.putIfAbsent key val).1.Inv := by
  rw [ConcurrentDict.putIfAbsent]
  cases hget : d.get key with
  | some old => exact h
  | none => simpa [ConcurrentDict.put, hget] using h.put key val

theorem Inv.putIfExists (h : d.Inv) (key : Bytes) (val : V) : (d.putIfExists key val).1.Inv := by
  rw [ConcurrentDict.putIfExists]
  cases hget : d.get key with
  | some old => simpa [ConcurrentDict.put, hget] using h.put key val
  | none => exact h

theorem Inv.remove (h : d.Inv) (key : Bytes) : (d.remove key).1.Inv := by
  rw [ConcurrentDict.remove]
  cases hget : d.get key with
  | some old =>
    have hlen := h.length_removeField hget
    refine h.modify key (fun _ => nodup_removeField) ?_
    rw [show (d.count - 1 : Int) = d.count + ((removeField key (d.shardOf key)).length - (d.shardOf key).length) by omega]
  | none => exact h

theorem Inv.apply (h : d.Inv) (m : Mutation V) : (d.apply m).Inv := by
  cases m with
  | put key val => exact h.put key val
  | putIfAbsent key val => exact h.putIfAbsent key val
  | putIfExists key val => exact h.putIfExists key val
  | remove key => exact h.remove key

theorem length_apply (d : ConcurrentDict V) (m : Mutation V) : (d.apply m).table.length = d.table.length := by
  cases m <;> simp only [ConcurrentDict.apply, put, putIfAbsent, putIfExists, remove]
  all_goals split <;> simp only [assign, length_modify]

theorem Inv.writes (h : d.Inv) (ms : List (Mutation V)) :
    (ms.foldl ConcurrentDict.apply d).Inv ∧ (ms.foldl ConcurrentDict.apply d).table.length = d.table.length := by
  induction ms generalizing d with
  | nil => exact ⟨h, rfl⟩
  | cons m ms ih =>
    obtain ⟨hinv, hlen⟩ := ih (h.apply m)
    exact ⟨hinv, hlen.trans (length_apply d m)⟩

end ConcurrentDict

end Hayakv.Dict
