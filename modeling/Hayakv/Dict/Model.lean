import Hayakv.Lib.Chained
import Hayakv.Lib.BitSmear
import Hayakv.Lib.GoText

/-!
# `RedisDict`: the hash table with incremental rehashing

`internal/datastruct/dict/redisdict.go`, function by function. A bucket's linked
list of entries is a list, its head first; `tables[1] == nil` is `none`; Go's
`int` fields are `Int` and table lengths `Nat`. The mutex is left out: every
method holds it for its whole body.

`nextPower` works on 64-bit integers, so `MakeRedis` fails (`make` panics) when
the rounded size does not fit; that is `none`.
-/

namespace Hayakv.Dict

open Chained

def minSize : Nat := 4

/-- The FNV-1a hash of a string, modulo `2 ^ 64`. -/
def fnv1a (key : Bytes) : UInt64 :=
  key.foldl (fun hash b => (hash ^^^ b.toUInt64) * 1099511628211) 14695981039346656037

/-- `nextPower`: the smallest power of two `≥ n`, by smearing the bits of `n - 1`. -/
def nextPower (n : Nat) : Nat := if n ≤ minSize then minSize else BitSmear.smear64 (n - 1) + 1

structure HashTable (V : Type*) where
  buckets : List (List (Bytes × V))
  mask : UInt64
  used : Int
deriving DecidableEq

structure RedisDict (V : Type*) where
  table0 : HashTable V
  table1 : Option (HashTable V)
  /-- `-1` when not rehashing. -/
  rehashIdx : Int
  count : Int
deriving DecidableEq

variable {V : Type*}

namespace HashTable

/-- `&hashTable{buckets: make([]*entry, sz), mask: uint64(sz - 1), used: 0}`. -/
def make (sz : Nat) : HashTable V where
  buckets := List.replicate sz []
  mask := UInt64.ofNat (sz - 1)
  used := 0

variable (ht : HashTable V)

/-- The bucket of a key: `fnv1a(key) & ht.mask`. -/
def index (key : Bytes) : Nat := (fnv1a key &&& ht.mask).toNat

/-- The chain a key belongs to. -/
def chain (key : Bytes) : List (Bytes × V) := ht.buckets.getD (ht.index key) []

/-- `findEntry(ht.buckets[idx], key)`. -/
def findEntry (key : Bytes) : Option V := (ht.chain key).lookup key

/-- `e.val = val` on the entry that `findEntry` found. -/
def setVal (key : Bytes) (val : V) : HashTable V :=
  { ht with buckets := ht.buckets.modify (ht.index key) (assign key val) }

def insert (e : Bytes × V) : HashTable V :=
  { ht with buckets := ht.buckets.modify (ht.index e.1) (e :: ·), used := ht.used + 1 }

/-- The entry of `key` unlinked from its bucket. -/
def unlink (key : Bytes) : HashTable V :=
  { ht with buckets := ht.buckets.modify (ht.index key) (Chained.unlink key), used := ht.used - 1 }

end HashTable

namespace RedisDict

/-- `MakeRedis`. The size is a Go `int`; a length past `2 ^ 63 - 1` makes `make` panic. -/
def makeRedis (size : Int64) : Option (RedisDict V) :=
  let size := if size < Int64.ofNat minSize then Int64.ofNat minSize else size
  let sz := nextPower size.toNatClampNeg
  if sz < 2 ^ 63 then
    some { table0 := .make sz, table1 := none, rehashIdx := -1, count := 0 }
  else none

variable (d : RedisDict V)

def isRehashing : Bool := d.rehashIdx ≠ -1

def startRehash (newSize : Nat) : RedisDict V :=
  if d.isRehashing then d
  else
    let newSize := if (newSize : Int) < d.table0.used then d.table0.used.toNat else newSize
    { d with table1 := some (.make (nextPower newSize)), rehashIdx := 0 }

/-- `used / len(buckets) >= loadFactor` with `loadFactor = 1` is `len(buckets) ≤ used`. -/
def startRehashIfNeeded : RedisDict V :=
  if d.isRehashing then d
  else if d.table0.used = 0 then d
  else if (d.table0.buckets.length : Int) ≤ d.table0.used then
    d.startRehash (d.table0.buckets.length * 2)
  else d

/-- The first bucket at or after `i` that is not empty; `len(buckets)` or more if there is none. -/
def nextNonEmpty (buckets : List (List (Bytes × V))) (i : Nat) : Nat :=
  i + (buckets.drop i).findIdx (fun b => !b.isEmpty)

/-- One step of the rehash: the next bucket that is not empty moves to `table1`, entry by
entry, or the rehash ends. -/
def rehashStep : RedisDict V :=
  if d.isRehashing then
    match d.table1 with
    | none => d
    | some ht1 =>
      let j := nextNonEmpty d.table0.buckets d.rehashIdx.toNat
      if j < d.table0.buckets.length then
        { d with
          table0 := { d.table0 with buckets := d.table0.buckets.modify j fun _ => [] }
          table1 := some ((d.table0.buckets.getD j []).foldl .insert ht1)
          rehashIdx := j + 1 }
      else { d with table0 := ht1, table1 := none, rehashIdx := -1 }
  else d

/-- `bucketIndex`: whether the key's bucket is in `tables[1]`. -/
def inTable1 (key : Bytes) : Bool := d.isRehashing && !decide (d.rehashIdx ≤ d.table0.index key)

/-- The table `bucketIndex` returns. -/
def tableOf (key : Bytes) : HashTable V := if d.inTable1 key then d.table1.getD d.table0 else d.table0

/-- A change of the table that `bucketIndex` returns. -/
def modifyTable (key : Bytes) (f : HashTable V → HashTable V) : RedisDict V :=
  if d.inTable1 key then { d with table1 := d.table1.map f } else { d with table0 := f d.table0 }

def findEntry (key : Bytes) : Option V := (d.tableOf key).findEntry key

def get (key : Bytes) : Option V × Bool :=
  match d.findEntry key with
  | some v => (some v, true)
  | none => (none, false)

def len : Int := d.count

/-- The new entry of `Put` and `PutIfAbsent`. -/
def insertNew (key : Bytes) (val : V) : RedisDict V :=
  { d.modifyTable key (·.insert (key, val)) with count := d.count + 1 }

/-- `Put`: `1` if the key is new, `0` if it was updated. -/
def put (key : Bytes) (val : V) : RedisDict V × Int :=
  let d := d.startRehashIfNeeded.rehashStep
  match d.findEntry key with
  | some _ => (d.modifyTable key (·.setVal key val), 0)
  | none => (d.insertNew key val, 1)

def putIfAbsent (key : Bytes) (val : V) : RedisDict V × Int :=
  let d := d.startRehashIfNeeded.rehashStep
  match d.findEntry key with
  | some _ => (d, 0)
  | none => (d.insertNew key val, 1)

def putIfExists (key : Bytes) (val : V) : RedisDict V × Int :=
  let d := d.startRehashIfNeeded.rehashStep
  match d.findEntry key with
  | some _ => (d.modifyTable key (·.setVal key val), 1)
  | none => (d, 0)

/-- `Remove` looks in both tables during a rehash, whatever `rehashIdx` is. -/
def remove (key : Bytes) : RedisDict V × Option V × Int :=
  let d := if d.isRehashing then d.rehashStep else d
  match d.table0.findEntry key with
  | some v => ({ d with table0 := d.table0.unlink key, count := d.count - 1 }, some v, 1)
  | none =>
    if d.isRehashing then
      match d.table1 with
      | none => (d, none, 0)
      | some ht1 =>
        match ht1.findEntry key with
        | some v => ({ d with table1 := some (ht1.unlink key), count := d.count - 1 }, some v, 1)
        | none => (d, none, 0)
    else (d, none, 0)

def clear (_ : RedisDict V) : RedisDict V where
  table0 := .make minSize
  table1 := none
  rehashIdx := -1
  count := 0

/-- The entries in the order of `ForEach`: the buckets of `tables[0]`, and during a rehash
those of `tables[1]`. -/
def entries : List (Bytes × V) :=
  d.table0.buckets.flatten ++
    if d.isRehashing then (d.table1.map (·.buckets.flatten)).getD [] else []

/-- Feed entries to a consumer with state `σ` until it answers `false`. -/
def consume {σ : Type*} (consumer : σ → Bytes → V → σ × Bool) : List (Bytes × V) → σ → σ
  | [], s => s
  | e :: es, s =>
    match consumer s e.1 e.2 with
    | (s, true) => consume consumer es s
    | (s, false) => s

def forEach {σ : Type*} (consumer : σ → Bytes → V → σ × Bool) (s : σ) : σ := consume consumer d.entries s

def keys : List Bytes := d.forEach (fun ks key _ => (ks ++ [key], true)) []

end RedisDict

end Hayakv.Dict
