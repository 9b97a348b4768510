import Hayakv.Engine.Object
import Hayakv.Lib.Prog

/-!
# The database and the operations of commands

`internal/command/database.go`: a database with its keys, their expiry times and versions, and the
heap behind it. Keys hold references. Two keys may hold the same one (`COPY`, and the shared
integers), and what is changed through a reference is changed for both. A string is a slice of a
byte array, which `SETRANGE`, `SETBIT` and others write in place.

A command is a program over the operations of `Op` (`Lib.Prog`): the methods of `DB`, and reading
and writing through the pointers they return. A command holds the pointer that it last got for a key
(`Bound`), so operations name objects by keys; it works on at most one byte slice at a time.

Times are in nanoseconds since the epoch.
-/

namespace Hayakv.Engine

abbrev Key := Bytes
abbrev CmdLine := List Bytes

/-- `redis.Reply`, by what it is on the wire. `bulk none` is the null bulk reply, `nullArray` the
null multi bulk reply. -/
inductive Reply
  | status (text : Bytes)
  | err (text : Bytes)
  | int (n : Int)
  | bulk (arg : Option Bytes)
  | array (replies : List Reply)
  | nullArray
deriving Repr

namespace Reply

def error (msg : String) : Reply := .err (str msg)
def ok : Reply := .status "OK"
def nullBulk : Reply := .bulk none
def emptyMultiBulk : Reply := .array []
def multiBulk (args : List Bytes) : Reply := .array (args.map fun a => .bulk (some a))
def syntaxErr : Reply := .err "Err syntax error"
def wrongType : Reply := .err "WRONGTYPE Operation against a key holding the wrong kind of value"

/-- `IsErrorReply`. -/
def isError : Reply → Bool
  | .err _ => true
  | _ => false

end Reply

/-- How a command ends early: with a reply, or in a panic. -/
inductive Exit
  | reply (r : Reply)
  | panic

/-! ## The heap -/

structure Slice where
  arr : Nat
  len : Nat
deriving DecidableEq, Repr

/-- `Robj.Ptr` of a string. -/
inductive StrPtr
  | int (v : Int)
  | bytes (s : Slice)
  | nil
deriving DecidableEq, Repr

/-- What an entity's `Data` points to: an `*object.Robj`, or the bare value that the RDB loader
installs. -/
inductive Cell
  | str (robj : Bool) (enc : Encoding) (ptr : StrPtr)
  | coll (robj : Bool) (c : Coll)
deriving DecidableEq, Repr

/-- A reference: one of the shared integers, or an object of the heap. -/
inductive Ref
  | shared (n : Nat)
  | heap (i : Nat)
deriving DecidableEq, Repr

/-- Objects and byte arrays, the arrays up to their capacity. Of the shared integers, those that
were changed in place are listed. -/
structure Heap where
  shared : List (Nat × Cell)
  cells : List Cell
  arrays : List Bytes
deriving DecidableEq, Repr

namespace Heap

def empty : Heap := ⟨[], [], []⟩

variable (h : Heap)

def cell : Ref → Option Cell
  | .shared n => some ((h.shared.lookup n).getD (.str true .int (.int n)))
  | .heap i => h.cells[i]?

def setCell (r : Ref) (c : Cell) : Heap :=
  match r with
  | .shared n => { h with shared := putField n c h.shared }
  | .heap i => { h with cells := h.cells.set i c }

def newCell (c : Cell) : Ref × Heap := (.heap h.cells.length, { h with cells := h.cells ++ [c] })

def slice (s : Slice) : Bytes := ((h.arrays[s.arr]?).getD []).take s.len

def newArray (b : Bytes) (spare : Nat) : Slice × Heap :=
  (⟨h.arrays.length, b.length⟩, { h with arrays := h.arrays ++ [b ++ List.replicate spare 0] })

def poke (arr : Nat) (writes : List (Nat × UInt8)) : Heap :=
  { h with arrays := h.arrays.modify arr fun a => writes.foldl (fun a (i, b) => a.set i b) a }

/-- Go's `append`: in place when the capacity allows. -/
def append (spare : Nat → Nat) (s : Option Slice) (b : Bytes) : Option Slice × Heap :=
  match s with
  | none =>
    if b = [] then (none, h)
    else
      let (s, h) := h.newArray b (spare b.length)
      (some s, h)
  | some s =>
    if s.len + b.length ≤ ((h.arrays[s.arr]?).getD []).length then
      (some ⟨s.arr, s.len + b.length⟩, h.poke s.arr ((List.range b.length).zipWith (fun i x => (s.len + i, x)) b))
    else
      let (s, h) := h.newArray (h.slice s ++ b) (spare (s.len + b.length))
      (some s, h)

/-- `GetStringBytes`, and the value of the other types. -/
def value : Cell → Value
  | .str _ enc (.int v) => .str enc (some (itoa v))
  | .str _ enc (.bytes s) => .str enc (some (h.slice s))
  | .str _ enc .nil => .str enc none
  | .coll _ c => .coll c

end Heap

/-- What a command gets from `GetEntity`: the value, and whether `Data` is an `*object.Robj`. -/
structure Entity where
  robj : Bool
  value : Value
deriving DecidableEq, Repr

def Cell.robj : Cell → Bool
  | .str robj _ _ | .coll robj _ => robj

def Cell.buf : Cell → Option Slice
  | .str _ _ (.bytes b) => some b
  | _ => none

def Heap.entity (h : Heap) (r : Ref) : Option Entity := (h.cell r).map fun c => ⟨c.robj, h.value c⟩

/-! ## The state -/

/-- The pointer a command holds for a key, and the byte slice of a string. -/
structure Bound where
  ref : Ref
  buf : Option Slice
deriving DecidableEq, Repr

structure State where
  data : List (Key × Ref)
  ttl : List (Key × Int)
  versions : List (Key × UInt32)
  heap : Heap
  /-- The command lines given to `addAof`, the oldest first. -/
  aof : List CmdLine
  /-- `simpleRandSeed`. -/
  seed : UInt32
  /-- What the running command holds. -/
  bound : List (Key × Bound)
  /-- The byte slice that the running command works on; `none` for the nil slice. -/
  work : Option Slice
deriving DecidableEq, Repr

/-- `lib/geohash`, on the bit patterns of floats. -/
structure GeoOps where
  /-- Whether a latitude and a longitude are in range. -/
  valid : UInt64 → UInt64 → Bool
  /-- `float64(Encode(lat, lng))`. -/
  encode : UInt64 → UInt64 → UInt64
  /-- `Decode(uint64(score))`: latitude and longitude. -/
  decode : UInt64 → UInt64 × UInt64
  /-- `Distance` of two pairs of latitude and longitude. -/
  distance : UInt64 × UInt64 → UInt64 × UInt64 → UInt64
  /-- `ToString(FromInt(uint64(score)))`. -/
  hashText : UInt64 → Bytes
  /-- `GetNeighbours` of a latitude, a longitude and a radius: the bounds of the areas. -/
  neighbours : UInt64 → UInt64 → UInt64 → List (UInt64 × UInt64)
  mul1000 : UInt64 → UInt64
  div1000 : UInt64 → UInt64

/-- What a command's run depends on besides the state: the clock, the configuration, the memory
allocator, the order of Go maps, random numbers, and libraries of which nothing is assumed. -/
structure Env where
  now : Int
  thresholds : EncodingThresholds
  float : FloatOps
  /-- The spare capacity that a new slice of this length gets. -/
  spare : Nat → Nat
  compilePattern : Bytes → Option (Bytes → Bool)
  valueDigest : Bytes → Bytes
  /-- `dict.DictScan` on a dict with these keys: cursor, count and pattern to keys and a cursor. -/
  dictScan : List Key → Int → Int → Bytes → List Key × Int
  /-- `RandomKeys(1)` on a dict with these keys. -/
  randomKey : List Key → Option Key
  /-- The text of the error of `strconv.ParseInt`. -/
  parseIntError : Bytes → Bytes
  /-- The estimate of `hll.Count` from the number of registers with each value. -/
  hllEstimate : List Nat → UInt64
  geo : GeoOps
  usingLFU : Bool
  /-- The idle time and the frequency that OBJECT answers for a key that is there. -/
  idleTime : Key → Int
  freq : Key → Int
  /-- The replies of MEMORY STATS and MEMORY DOCTOR. -/
  memoryStats : Reply
  memoryDoctor : Reply
  /-- The keys that `freeMemoryIfNeeded` evicts, with their databases, and whether it frees too little. -/
  evicted : List (Nat × Key)
  overLimit : Bool

/-- The default configuration at a time, with libraries that answer nothing of interest. -/
def Env.plain (now : Int) : Env where
  now := now
  thresholds := defaultEncodingThresholds
  float := ⟨fun _ => none, fun _ => [], fun _ => [], fun x _ => x, fun _ _ => false, fun _ _ => false, id⟩
  spare _ := 0
  compilePattern _ := none
  valueDigest := id
  dictScan keys _ _ _ := (keys, 0)
  randomKey := List.head?
  parseIntError := id
  hllEstimate _ := 0
  geo := ⟨fun _ _ => false, fun _ _ => 0, fun _ => (0, 0), fun _ _ => 0, fun _ => [], fun _ _ _ => [], id, id⟩
  usingLFU := false
  idleTime _ := 0
  freq _ := 0
  memoryStats := .ok
  memoryDoctor := .ok
  evicted := []
  overLimit := false

/-- `time.Now().UnixMilli()`. -/
def Env.nowMs (env : Env) : Int := GoTime.unixMilli env.now

namespace State

def empty : State := ⟨[], [], [], .empty, [], 12345, [], none⟩

variable (s : State)

/-- `time.Now().After(expireTime)` for the expiry of the key, if it has one. -/
def expired (now : Int) (key : Key) : Bool := (s.ttl.lookup key).any (· < now)

def remove (key : Key) : State := { s with data := removeField key s.data, ttl := removeField key s.ttl }

def bind (key : Key) (r : Ref) (buf : Option Slice) : State := { s with bound := putField key ⟨r, buf⟩ s.bound }

def held (key : Key) : Option (Ref × Cell) :=
  (s.bound.lookup key).bind fun b => (s.heap.cell b.ref).map fun c => (b.ref, c)

def getEntity (now : Int) (key : Key) : Option Entity × State :=
  match s.data.lookup key with
  | none => (none, { s with bound := removeField key s.bound })
  | some r =>
    if s.expired now key then (none, { s.remove key with bound := removeField key s.bound })
    else
      match s.heap.cell r with
      | some c => (s.heap.entity r, s.bind key r c.buf)
      | none => (none, s)

/-- `PutEntity`: the key's expiry stays as it is. -/
def putRef (key : Key) (r : Ref) : State := { s with data := putField key r s.data }

/-- `PutEntity` of a new object, which the command then holds. -/
def putNew (key : Key) (c : Cell) : State :=
  let (r, heap) := s.heap.newCell c
  ({ s with heap }.putRef key r).bind key r c.buf

/-- `MakeStringObject`: the reference of a new string, or of a shared integer. -/
def makeStringObject (env : Env) (b : Option Bytes) : Ref × State :=
  match b with
  | none =>
    let (r, heap) := s.heap.newCell (.str true .embstr .nil)
    (r, { s with heap })
  | some b =>
    match isInt b with
    | some v =>
      if 0 ≤ v ∧ v < 10000 then (.shared v.toNat, s)
      else
        let (r, heap) := s.heap.newCell (.str true .int (.int v))
        (r, { s with heap })
    | none =>
      let (sl, heap) := s.heap.newArray b (env.spare b.length)
      let (r, heap) := heap.newCell (.str true (if b.length ≤ 44 then .embstr else .raw) (.bytes sl))
      (r, { s with heap })

/-- Write to a structure through the pointer held for its key. A bare `dict.Dict` has no place for
field expiries. -/
def store (key : Key) (c : Coll) : State :=
  match s.held key with
  | some (r, .coll true _) => { s with heap := s.heap.setCell r (.coll true c) }
  | some (r, .coll false _) =>
    let c := match c with
      | .hash h => .hash { h with fieldExpire := [] }
      | c => c
    { s with heap := s.heap.setCell r (.coll false c) }
  | _ => s

/-- `PurgeExpiredFields` on the hash held for a key. -/
def purge (now : Int) (key : Key) : State :=
  match s.held key with
  | some (r, .coll robj (.hash h)) =>
    { s with heap := s.heap.setCell r (.coll robj (.hash (h.purgeExpiredFields (GoTime.unixMilli now)))) }
  | _ => s

/-- Work on the slice of the string held for a key: for an integer a new one with its digits, and
the nil slice where there is no key. -/
def openBuf (env : Env) (key : Key) : State :=
  match s.bound.lookup key with
  | some ⟨_, some sl⟩ => { s with work := some sl }
  | some ⟨r, none⟩ =>
    match s.heap.cell r with
    | some (.str _ _ (.int v)) =>
      let (sl, heap) := s.heap.newArray (itoa v) (env.spare (itoa v).length)
      { s with heap, work := some sl }
    | _ => { s with work := none }
  | none => { s with work := none }

def editBuf (env : Env) (writes : List (Nat × UInt8)) (suffixes : List Bytes) : State :=
  let heap := match s.work with
    | some sl => s.heap.poke sl.arr writes
    | none => s.heap
  let (work, heap) := suffixes.foldl (fun (work, heap) b => heap.append env.spare work b) (s.work, heap)
  { s with heap, work }

def bufPtr : Option Slice → StrPtr
  | some sl => .bytes sl
  | none => .nil

end State

/-! ## Operations -/

inductive Op
  | getEntity (key : Key)
  /-- `ttlMap.Get`. -/
  | getTTL (key : Key)
  /-- `data.GetWithLock`, without a look at the expiry. -/
  | rawExists (key : Key)
  | isExpired (key : Key)
  | load (key : Key)
  | store (key : Key) (c : Coll)
  /-- `PurgeExpiredFields` on the hash held for a key. -/
  | purge (key : Key)
  /-- `PutEntity` with a new structure. -/
  | putColl (key : Key) (c : Coll)
  /-- `PutEntity` with `MakeStringObject(b)`, where `b` is argument `arg` if there is one. -/
  | putStr (key : Key) (b : Option Bytes)
  /-- `PutIfAbsent` with `MakeStringObject(b)`. -/
  | putIfAbsent (key : Key) (b : Bytes)
  /-- `PutIfExists` with `MakeStringObject(b)`. -/
  | putIfExists (key : Key) (b : Bytes)
  /-- `PutEntity(dest, entity)` with the entity held for `src`. -/
  | putFrom (dest src : Key)
  | readHeld (key : Key)
  /-- Work on the slice of the string held for a key. -/
  | openBuf (key : Key)
  /-- Work on a new slice, or the nil slice. -/
  | freshBuf (b : Option Bytes)
  /-- `buf = buf[:n]`. -/
  | cutBuf (n : Nat)
  | editBuf (writes : List (Nat × UInt8)) (suffixes : List Bytes)
  | readBuf
  /-- `PutEntity` with a raw string of the slice worked on. -/
  | putBuf (key : Key)
  /-- `robj.Ptr = buf; robj.Encoding = EncRaw` on the object held for a key. -/
  | assignBuf (key : Key)
  | remove (key : Key)
  | expire (key : Key) (at_ : Int)
  | persist (key : Key)
  | addAof (line : CmdLine)
  /-- The keys in the order of `data.ForEach`. -/
  | keys
  /-- `GetVersion`. -/
  | version (key : Key)
  /-- `simpleRand`. -/
  | rand

@[reducible] def Op.Ret : Op → Type
  | .getEntity _ => Option Entity
  | .getTTL _ => Option Int
  | .rawExists _ | .isExpired _ => Bool
  | .load _ => Option Coll
  | .readHeld _ | .readBuf => Option Bytes
  | .putIfAbsent .. | .putIfExists .. => Nat
  | .keys => List Key
  | .version _ | .rand => UInt32
  | _ => Unit

def handle (env : Env) : Prog.Handler Op Op.Ret State
  | .getEntity key, s => s.getEntity env.now key
  | .getTTL key, s => (s.ttl.lookup key, s)
  | .rawExists key, s => ((s.data.lookup key).isSome, s)
  | .isExpired key, s => if s.expired env.now key then (true, s.remove key) else (false, s)
  | .load key, s =>
    (match s.held key with
      | some (_, .coll _ c) => some c
      | _ => none, s)
  | .store key c, s => ((), s.store key c)
  | .purge key, s => ((), s.purge env.now key)
  | .putColl key c, s => ((), s.putNew key (.coll true c))
  | .putStr key b, s =>
    let (r, s) := s.makeStringObject env b
    ((), s.putRef key r)
  | .putIfAbsent key b, s =>
    let (r, s) := s.makeStringObject env (some b)
    if (s.data.lookup key).isSome then ((0 : Nat), s) else ((1 : Nat), s.putRef key r)
  | .putIfExists key b, s =>
    let (r, s) := s.makeStringObject env (some b)
    if (s.data.lookup key).isSome then ((1 : Nat), s.putRef key r) else ((0 : Nat), s)
  | .putFrom dest src, s =>
    match s.bound.lookup src with
    | some b => ((), s.putRef dest b.ref)
    | none => ((), s)
  | .readHeld key, s => (((s.bound.lookup key).bind Bound.buf).map s.heap.slice, s)
  | .openBuf key, s => ((), s.openBuf env key)
  | .freshBuf (some b), s =>
    let (sl, heap) := s.heap.newArray b 0
    ((), { s with heap, work := some sl })
  | .freshBuf none, s => ((), { s with work := none })
  | .cutBuf n, s => ((), { s with work := s.work.map fun sl => ⟨sl.arr, min n sl.len⟩ })
  | .editBuf writes suffixes, s => ((), s.editBuf env writes suffixes)
  | .readBuf, s => (s.work.map s.heap.slice, s)
  | .putBuf key, s =>
    let (r, heap) := s.heap.newCell (.str true .raw (State.bufPtr s.work))
    ((), { s with heap }.putRef key r)
  | .assignBuf key, s =>
    match s.held key with
    | some (r, .str true _ _) =>
      ((), { s with heap := s.heap.setCell r (.str true .raw (State.bufPtr s.work)) })
    | _ => ((), s)
  | .remove key, s => ((), s.remove key)
  | .expire key t, s => ((), { s with ttl := putField key t s.ttl })
  | .persist key, s => ((), { s with ttl := removeField key s.ttl })
  | .addAof line, s => ((), { s with aof := s.aof ++ [line] })
  | .keys, s => (s.data.map Prod.fst, s)
  | .version key, s => ((s.versions.lookup key).getD 0, s)
  | .rand, s =>
    let seed := s.seed * 1103515245 + 12345
    (seed, { s with seed })

abbrev Exec := Prog Op Op.Ret Exit

/-- The length of a new slice with elements of this size: `make` panics for one that is negative, or
needs more than an address space. -/
def makeLen (size n : Int) : Option Nat := if n < 0 ∨ 2 ^ 48 < size * n then none else some n.toNat

namespace Exec

variable {α β : Type}

def reply (r : Reply) : Exec α := .exit (.reply r)

def panic : Exec α := .exit .panic

def check (c : Bool) (r : Reply) : Exec Unit := if c then reply r else pure ()

def when (c : Bool) (p : Exec Unit) : Exec Unit := if c then p else pure ()

/-- Go on with the value, or end the command with a reply. -/
def require (o : Option α) (r : Reply) : Exec α :=
  match o with
  | some a => pure a
  | none => reply r

/-- Go on with the value, or end the command with its error. -/
def orReply : Except Reply α → Exec α
  | .ok a => pure a
  | .error r => reply r

/-- Go on with the value, or end the command the way it says. -/
def orExit : Except Exit α → Exec α
  | .ok a => pure a
  | .error e => .exit e

def whenSome (o : Option α) (f : α → Exec Unit) : Exec Unit :=
  match o with
  | some a => f a
  | none => pure ()

/-- Go on with the value, or panic. -/
def orPanic : Option α → Exec α
  | some a => pure a
  | none => panic

/-- `args[i]`. -/
def arg (args : List Bytes) (i : Nat) : Exec Bytes := orPanic args[i]?

abbrev getEntity (key : Key) : Exec (Option Entity) := Prog.perform (Op.getEntity key)
abbrev getTTL (key : Key) : Exec (Option Int) := Prog.perform (Op.getTTL key)
abbrev rawExists (key : Key) : Exec Bool := Prog.perform (Op.rawExists key)
abbrev isExpired (key : Key) : Exec Bool := Prog.perform (Op.isExpired key)
abbrev load (key : Key) : Exec (Option Coll) := Prog.perform (Op.load key)
abbrev store (key : Key) (c : Coll) : Exec Unit := Prog.perform (Op.store key c)
abbrev purge (key : Key) : Exec Unit := Prog.perform (Op.purge key)
abbrev putColl (key : Key) (c : Coll) : Exec Unit := Prog.perform (Op.putColl key c)
abbrev putStr (key : Key) (b : Option Bytes) : Exec Unit := Prog.perform (Op.putStr key b)
abbrev putIfAbsent (key : Key) (b : Bytes) : Exec Nat := Prog.perform (Op.putIfAbsent key b)
abbrev putIfExists (key : Key) (b : Bytes) : Exec Nat := Prog.perform (Op.putIfExists key b)
abbrev putFrom (dest src : Key) : Exec Unit := Prog.perform (Op.putFrom dest src)
abbrev readHeld (key : Key) : Exec (Option Bytes) := Prog.perform (Op.readHeld key)
abbrev openBuf (key : Key) : Exec Unit := Prog.perform (Op.openBuf key)
abbrev freshBuf (b : Option Bytes) : Exec Unit := Prog.perform (Op.freshBuf b)
abbrev cutBuf (n : Nat) : Exec Unit := Prog.perform (Op.cutBuf n)
abbrev editBuf (writes : List (Nat × UInt8)) (suffixes : List Bytes) : Exec Unit :=
  Prog.perform (Op.editBuf writes suffixes)
abbrev readBuf : Exec (Option Bytes) := Prog.perform Op.readBuf
abbrev putBuf (key : Key) : Exec Unit := Prog.perform (Op.putBuf key)
abbrev assignBuf (key : Key) : Exec Unit := Prog.perform (Op.assignBuf key)
abbrev remove (key : Key) : Exec Unit := Prog.perform (Op.remove key)
abbrev expire (key : Key) (at_ : Int) : Exec Unit := Prog.perform (Op.expire key at_)
abbrev persist (key : Key) : Exec Unit := Prog.perform (Op.persist key)
abbrev addAof (line : CmdLine) : Exec Unit := Prog.perform (Op.addAof line)
abbrev keys : Exec (List Key) := Prog.perform Op.keys
abbrev version (key : Key) : Exec UInt32 := Prog.perform (Op.version key)
abbrev rand : Exec UInt32 := Prog.perform Op.rand

/-- What `f` says of the operations that a program does, one after the other. -/
def trace {α : Type} (env : Env) (f : Op → List α) : Exec Reply → State → List α
  | .pure _, _ | .exit _, _ => []
  | .op o k, s => f o ++ trace env f (k (handle env o s).1) (handle env o s).2

end Exec

end Hayakv.Engine
