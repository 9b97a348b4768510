import Hayakv.Engine.Object
import Hayakv.Rdb.Primitives

/-!
# The RDB encoder

`internal/persist/rdb/rdb.go` and `encoder.go`: the entries of an RDB file, and what the methods of
`Encoder` write for them. A Go map that is written (the fields of a hash, the groups of a stream, what is
pending) is the list of its entries in the order in which the loop of the encoder meets them.

A file is written by a sequence of calls (`Call`) between `WriteHeader` and `WriteEnd`. `written` lists
the entries that the calls write, each with the database that was selected last.
-/

namespace Hayakv.Rdb

open Engine (StreamID StreamObj)

/-! ## Entries -/

structure ZSetMember where
  member : Bytes
  score : UInt64
deriving DecidableEq

structure StreamPendingEntry where
  id : StreamID
  consumer : Bytes
  deliveryTime : Int
  deliveryCount : UInt64
deriving DecidableEq

structure StreamConsumerData where
  name : Bytes
  activeTime : Int
  pending : List StreamID
deriving DecidableEq

structure StreamGroupData where
  name : Bytes
  lastDelivered : StreamID
  entriesRead : UInt64
  pending : List StreamPendingEntry
  consumers : List StreamConsumerData
deriving DecidableEq

structure StreamData where
  lastID : StreamID
  maxDeletedID : StreamID
  entriesAdded : UInt64
  entries : List Engine.Entry
  groups : List StreamGroupData
deriving DecidableEq

/-- The type of an `Entry`, and the field that the type says is populated. -/
inductive EntryVal
  | string (val : Bytes)
  | list (vals : List Bytes)
  | set (members : List Bytes)
  | hash (fields : List (Bytes × Bytes))
  | zset (members : List ZSetMember)
  | stream (sd : StreamData)
deriving DecidableEq

/-- `Entry`; `expireMS` is 0 where there is no expiry. -/
structure Entry where
  dbIndex : Int
  key : Bytes
  value : EntryVal
  expireMS : UInt64
deriving DecidableEq

/-! ## The encoder -/

def opAux : UInt8 := 0xFA
def opResizeDB : UInt8 := 0xFB
def opExpireMS : UInt8 := 0xFC
def opExpireSec : UInt8 := 0xFD
def opSelectDB : UInt8 := 0xFE
def opEOF : UInt8 := 0xFF
def opIdle : UInt8 := 0xF8
def opFreq : UInt8 := 0xF9

def typeString : UInt8 := 0
def typeList : UInt8 := 1
def typeSet : UInt8 := 2
def typeZSet : UInt8 := 3
def typeHash : UInt8 := 4
def typeStream : UInt8 := 200

/-- `uint64(n)` of an `int64`. -/
def uint64 (n : Int) : Nat := (n % 2 ^ 64).toNat

section encoder

variable (F : Format)

def writeHeader : Bytes := "REDIS0011"

def writeAux (key val : Bytes) : Bytes := opAux :: (writeString key ++ writeString val)

def writeSelectDB (db : Int) : Bytes := opSelectDB :: writeLen (uint64 db)

def writeResizeDB (dbSize expiresSize : UInt64) : Bytes :=
  opResizeDB :: (writeLen dbSize.toNat ++ writeLen expiresSize.toNat)

def writeExpire (expireMS : UInt64) : Bytes :=
  if expireMS = 0 then [] else opExpireMS :: littleEndian 8 expireMS.toNat

def writeKeyed (typeByte : UInt8) (key : Bytes) (expireMS : UInt64) (value : Bytes) : Bytes :=
  writeExpire expireMS ++ typeByte :: (writeString key ++ value)

def writeMany {α : Type} (write : α → Bytes) (items : List α) : Bytes := writeLen items.length ++ items.flatMap write

def writeStringEntry (key val : Bytes) (expireMS : UInt64) : Bytes :=
  writeKeyed typeString key expireMS (writeString val)

variable (key : Bytes)

def writeListEntry (vals : List Bytes) (expireMS : UInt64) : Bytes :=
  writeKeyed typeList key expireMS (writeMany writeString vals)

def writeSetEntry (members : List Bytes) (expireMS : UInt64) : Bytes :=
  writeKeyed typeSet key expireMS (writeMany writeString members)

def writeField (f : Bytes × Bytes) : Bytes := writeString f.1 ++ writeString f.2

def writeHashEntry (hash : List (Bytes × Bytes)) (expireMS : UInt64) : Bytes :=
  writeKeyed typeHash key expireMS (writeMany writeField hash)

def writeMember (m : ZSetMember) : Bytes := writeString m.member ++ writeRawString (F.formatScore m.score)

def writeZSetEntry (members : List ZSetMember) (expireMS : UInt64) : Bytes :=
  writeKeyed typeZSet key expireMS (writeMany (writeMember F) members)

def writeID (id : StreamID) : Bytes := writeLen id.ms.toNat ++ writeLen id.seq.toNat

def writeStreamItem (entry : Engine.Entry) : Bytes := writeID entry.id ++ writeMany writeField entry.fields

def writePending (pe : StreamPendingEntry) : Bytes :=
  writeID pe.id ++ (writeString pe.consumer ++ (writeLen (uint64 pe.deliveryTime) ++ writeLen pe.deliveryCount.toNat))

def writeConsumer (c : StreamConsumerData) : Bytes :=
  writeString c.name ++ (writeLen (uint64 c.activeTime) ++ writeMany writeID c.pending)

def writeGroup (g : StreamGroupData) : Bytes :=
  writeString g.name ++ (writeID g.lastDelivered ++ (writeLen g.entriesRead.toNat ++
    (writeMany writePending g.pending ++ writeMany writeConsumer g.consumers)))

def writeStreamData (sd : StreamData) : Bytes :=
  writeID sd.lastID ++ (writeID sd.maxDeletedID ++ (writeLen sd.entriesAdded.toNat ++
    (writeMany writeStreamItem sd.entries ++ writeMany writeGroup sd.groups)))

structure LoopOrder where
  order : {α : Type} → List α → List α
  perm : ∀ {α : Type} (xs : List α), (order xs).Perm xs

def LoopOrder.insertion : LoopOrder := ⟨id, .refl⟩

/-- What `WriteStreamEntry` reads of a stream. -/
def streamData (o : LoopOrder) (s : StreamObj) : StreamData where
  lastID := s.lastID
  maxDeletedID := s.maxDeletedID
  entriesAdded := s.entriesAdded
  entries := s.range ⟨0, 0⟩ .max (-1)
  groups := (o.order s.groups).map fun (name, g) => {
    name
    lastDelivered := g.lastDelivered
    entriesRead := g.entriesRead
    pending := (o.order g.pending).filterMap fun (id, p) =>
      g.pendingEntries[p]?.map fun pe => ⟨id, pe.consumer, pe.deliveryTime, pe.deliveryCount⟩
    consumers := (o.order g.consumers).map fun (name, c) =>
      ⟨name, c.activeTime, (o.order c.pending).map Prod.fst⟩ }

/-- `WriteStreamEntry`, of what it reads. -/
def writeStreamEntry (sd : StreamData) (expireMS : UInt64) : Bytes :=
  writeKeyed typeStream key expireMS (writeStreamData sd)

inductive Call
  | aux (key val : Bytes)
  | selectDB (db : Int)
  | resizeDB (dbSize expiresSize : UInt64)
  | entry (key : Bytes) (value : EntryVal) (expireMS : UInt64)
deriving DecidableEq

def Call.bytes : Call → Bytes
  | .aux key val => writeAux key val
  | .selectDB db => writeSelectDB db
  | .resizeDB dbSize expiresSize => writeResizeDB dbSize expiresSize
  | .entry key (.string val) expireMS => writeStringEntry key val expireMS
  | .entry key (.list vals) expireMS => writeListEntry key vals expireMS
  | .entry key (.set members) expireMS => writeSetEntry key members expireMS
  | .entry key (.hash fields) expireMS => writeHashEntry key fields expireMS
  | .entry key (.zset members) expireMS => writeZSetEntry F key members expireMS
  | .entry key (.stream sd) expireMS => writeStreamEntry key sd expireMS

/-- `writer`: what was written, and its CRC64. -/
structure Writer where
  out : Bytes
  crc : UInt64

def crc64Update (crc : UInt64) (b : Bytes) : UInt64 := b.foldl F.crc64Byte crc

def Writer.writeBytes (w : Writer) (b : Bytes) : Writer := ⟨w.out ++ b, crc64Update F w.crc b⟩

/-- `WriteEnd`: the trailer is not part of the CRC64. -/
def Writer.writeEnd (w : Writer) : Bytes :=
  let w := w.writeBytes F [opEOF]
  w.out ++ littleEndian 8 w.crc.toNat

def encode (calls : List Call) : Bytes :=
  (calls.foldl (fun w call => w.writeBytes F (call.bytes F)) (Writer.writeBytes F ⟨[], 0⟩ writeHeader)).writeEnd F

end encoder

/-- The entries that calls write after the database `db` was selected. -/
def written : Int → List Call → List Entry
  | _, [] => []
  | _, .selectDB db :: calls => written db calls
  | db, .entry key value expireMS :: calls => ⟨db, key, value, expireMS⟩ :: written db calls
  | db, .aux .. :: calls | db, .resizeDB .. :: calls => written db calls

def callsFor (es : List Entry) : List Call :=
  es.flatMap fun e => [.selectDB e.dbIndex, .entry e.key e.value e.expireMS]

theorem written_callsFor (db : Int) (es : List Entry) : written db (callsFor es) = es := by
  induction es generalizing db with
  | nil => rfl
  | cons e es ih =>
    exact congrArg (e :: ·) (ih e.dbIndex)

end Hayakv.Rdb
