import Hayakv.Rdb.Encoder

/-!
# The RDB decoder

`internal/persist/rdb/decoder.go` and `listpack.go`: `Parse` and what it reads, with the types that only
Redis writes (intsets, listpacks, quicklists, binary scores). One turn of `Parse` is `readTurn`. `parse`
keeps the state of its callback also where it fails.
-/

namespace Hayakv.Rdb

open UInt64

open Engine (StreamID putField)

/-! ## Packed encodings -/

def backlenSize (entryLen : Nat) : Nat :=
  if entryLen ≤ 127 then 1
  else if entryLen < 16384 then 2
  else if entryLen < 2097152 then 3
  else if entryLen < 268435456 then 4
  else 5

/-- `blob[start : stop]`. -/
def slice (blob : Bytes) (start stop : Nat) : Bytes := (blob.take stop).drop start

/-- The element at `p` of a listpack, whose first byte is `b0`, and the length of its encoding. -/
def listpackElem (blob : Bytes) (p : Nat) (b0 : UInt8) : Except RdbError (Bytes × Nat) :=
  let within (len : Nat) (what : String) (elem : Bytes × Nat) : Except RdbError (Bytes × Nat) :=
    if p + len > blob.length then .error (.listpackOverflow (str what)) else .ok elem
  let int (bits len : Nat) (what : String) : Except RdbError (Bytes × Nat) :=
    within len what (itoa (signed bits (fromLittleEndian (slice blob (p + 1) (p + len)))), len)
  let next : Nat := ((blob[p + 1]?).getD 0).toNat
  if b0 < 0x80 then .ok (itoa (b0 &&& 0x7F).toNat, 1)
  else if b0 < 0xC0 then
    let l := (b0 &&& 0x3F).toNat
    within (1 + l) "6-bit string" (slice blob (p + 1) (p + 1 + l), 1 + l)
  else if b0 < 0xE0 then within 2 "13-bit int" (itoa (signed 13 ((b0 &&& 0x1F).toNat * 2 ^ 8 + next)), 2)
  else if b0 < 0xF0 then
    let l := (b0 &&& 0x0F).toNat * 2 ^ 8 + next
    (within 2 "12-bit string header" ([], 0)).bind fun _ =>
      within (2 + l) "12-bit string" (slice blob (p + 2) (p + 2 + l), 2 + l)
  else if b0 = 0xF0 then
    let l := fromLittleEndian (slice blob (p + 1) (p + 5))
    (within 5 "32-bit string header" ([], 0)).bind fun _ =>
      within (5 + l) "32-bit string" (slice blob (p + 5) (p + 5 + l), 5 + l)
  else if b0 = 0xF1 then int 16 3 "int16"
  else if b0 = 0xF2 then int 24 4 "int24"
  else if b0 = 0xF3 then int 32 5 "int32"
  else if b0 = 0xF4 then int 64 9 "int64"
  else .error (.listpackHeader b0)

/-- The loop of `parseListpack` from `p` on. Every turn moves it, so as many turns as there are bytes
are enough. -/
def parseListpackFrom (blob : Bytes) : Nat → Nat → List Bytes → Except RdbError (List Bytes)
  | 0, _, _ => .error .listpackUnterminated
  | fuel + 1, p, out =>
    match blob[p]? with
    | none => .error .listpackUnterminated
    | some b0 =>
      if b0 = 0xFF then .ok out
      else
        (listpackElem blob p b0).bind fun (val, encDataLen) =>
          parseListpackFrom blob fuel (p + (encDataLen + backlenSize encDataLen)) (out ++ [val])

def parseListpack (blob : Bytes) : Except RdbError (List Bytes) :=
  if blob.length < 7 then .error (.listpackTooShort blob.length)
  else
    let total := fromLittleEndian (slice blob 0 4)
    if total ≠ blob.length then .error (.listpackTotal total blob.length)
    else parseListpackFrom blob blob.length 6 []

def parseIntset (blob : Bytes) : Except RdbError (List Bytes) :=
  if blob.length < 8 then .error (.intsetTooShort blob.length)
  else
    let enc := fromLittleEndian (slice blob 0 4)
    let length := fromLittleEndian (slice blob 4 8)
    if enc ≠ 2 ∧ enc ≠ 4 ∧ enc ≠ 8 then .error (.intsetEncoding enc)
    else if 8 + length * enc > blob.length then .error (.intsetOverflow length enc blob.length)
    else
      .ok ((List.range length).map fun i =>
        itoa (signed (8 * enc) (fromLittleEndian (slice blob (8 + i * enc) (8 + i * enc + enc)))))

def inPairs : List Bytes → List (Bytes × Bytes)
  | a :: b :: rest => (a, b) :: inPairs rest
  | _ => []

/-! ## Objects -/

def typeZSet2 : UInt8 := 5
def typeSetIntset : UInt8 := 11
def typeHashListpack : UInt8 := 16
def typeZSetListpack : UInt8 := 17
def typeListQuicklist2 : UInt8 := 18
def typeSetListpack : UInt8 := 20

section decoder

variable (F : Format)

/-- A length whose kind is not looked at. -/
def readCount : Dec Nat := do
  let (n, _) ← readLen F
  pure n

def readMany {α : Type} (item : Dec α) : Dec (List α) := do
  let n ← readCount F
  let n ← makeSlice n
  Reader.many item n

def readStringVector : Dec (List Bytes) := readMany F (readString F)

def readField : Dec (Bytes × Bytes) := do
  let f ← readString F
  let v ← readString F
  pure (f, v)

/-- `e.HashVal[f] = v` for each of the fields. -/
def toMap (fields : List (Bytes × Bytes)) : List (Bytes × Bytes) := fields.foldl (fun m (f, v) => putField f v m) []

def scoreOf (err : Bytes → RdbError) (text : Bytes) : Except RdbError UInt64 :=
  match F.parseFloat text with
  | some score => .ok score
  | none => .error (err text)

def readMember : Dec ZSetMember := do
  let m ← readString F
  let scoreStr ← readString F
  let score ← (liftM (scoreOf F .badScore scoreStr) : Dec UInt64)
  pure ⟨m, score⟩

/-- `readDouble`: a `float64` is its bits. -/
def readDouble : Dec UInt64 := do
  let b ← readFull F 8
  pure (ofNat (fromLittleEndian b))

def readMember2 : Dec ZSetMember := do
  let m ← readString F
  let score ← readDouble F
  pure ⟨m, score⟩

/-- A node of `readQuicklist2`. -/
def readNode : Dec (List Bytes) := do
  let container ← readCount F
  let blob ← readString F
  if container = 1 then pure [blob]
  else if container = 2 then liftM (parseListpack blob)
  else throw (.unknownContainer container)

def readQuicklist2 : Dec (List Bytes) := do
  let nodeCount ← readCount F
  let nodes ← Reader.many (readNode F) nodeCount
  pure nodes.flatten

def readID : Dec StreamID := do
  let ms ← readCount F
  let seq ← readCount F
  pure ⟨ofNat ms, ofNat seq⟩

def readStreamItem : Dec Engine.Entry := do
  let id ← readID F
  let fields ← readMany F (readField F)
  pure ⟨id, fields⟩

def readPending : Dec StreamPendingEntry := do
  let id ← readID F
  let consumer ← readString F
  let time ← readCount F
  let count ← readCount F
  pure ⟨id, consumer, signed 64 time, ofNat count⟩

def readConsumer : Dec StreamConsumerData := do
  let name ← readString F
  let active ← readCount F
  let pending ← readMany F (readID F)
  pure ⟨name, signed 64 active, pending⟩

def readGroup : Dec StreamGroupData := do
  let name ← readString F
  let lastDelivered ← readID F
  let entriesRead ← readCount F
  let pending ← readMany F (readPending F)
  let consumers ← readMany F (readConsumer F)
  pure ⟨name, lastDelivered, ofNat entriesRead, pending, consumers⟩

def readStreamData : Dec StreamData := do
  let lastID ← readID F
  let maxDeletedID ← readID F
  let entriesAdded ← readCount F
  let entries ← readMany F (readStreamItem F)
  let groups ← readMany F (readGroup F)
  pure ⟨lastID, maxDeletedID, ofNat entriesAdded, entries, groups⟩

def evenPairs (err : Nat → RdbError) (elems : List Bytes) : Except RdbError (List (Bytes × Bytes)) :=
  if elems.length % 2 ≠ 0 then .error (err elems.length) else .ok (inPairs elems)

/-- The value that `readObject` reads after the key. -/
def readValue (typeByte : UInt8) : Dec EntryVal :=
  if typeByte = typeString then do
    let val ← readString F
    pure (.string val)
  else if typeByte = typeList then do
    let vals ← readStringVector F
    pure (.list vals)
  else if typeByte = typeSet then do
    let vals ← readStringVector F
    pure (.set vals)
  else if typeByte = typeHash then do
    let n ← readCount F
    let fields ← Reader.many (readField F) n
    pure (.hash (toMap fields))
  else if typeByte = typeZSet then do
    let members ← readMany F (readMember F)
    pure (.zset members)
  else if typeByte = typeZSet2 then do
    let members ← readMany F (readMember2 F)
    pure (.zset members)
  else if typeByte = typeSetIntset then do
    let blob ← readString F
    let members ← (liftM (parseIntset blob) : Dec (List Bytes))
    pure (.set members)
  else if typeByte = typeHashListpack then do
    let blob ← readString F
    let elems ← (liftM (parseListpack blob) : Dec (List Bytes))
    let fields ← (liftM (evenPairs .oddHash elems) : Dec (List (Bytes × Bytes)))
    pure (.hash (toMap fields))
  else if typeByte = typeZSetListpack then do
    let blob ← readString F
    let elems ← (liftM (parseListpack blob) : Dec (List Bytes))
    let ps ← (liftM (evenPairs .oddZSet elems) : Dec (List (Bytes × Bytes)))
    let members ← (liftM (ps.mapM fun (m, s) => (scoreOf F .badListpackScore s).map (ZSetMember.mk m)) :
      Dec (List ZSetMember))
    pure (.zset members)
  else if typeByte = typeListQuicklist2 then do
    let vals ← readQuicklist2 F
    pure (.list vals)
  else if typeByte = typeStream then do
    let sd ← readStreamData F
    pure (.stream sd)
  else if typeByte = typeSetListpack then do
    let blob ← readString F
    let members ← (liftM (parseListpack blob) : Dec (List Bytes))
    pure (.set members)
  else throw (.unsupportedType typeByte)

def readObject (typeByte : UInt8) (db : Int) (expireMS : UInt64) : Dec Entry := do
  let key ← readString F
  let value ← readValue F typeByte
  pure ⟨db, key, value, expireMS⟩

/-! ## Files -/

def version : Int := 12

def readHeader : Dec Unit := do
  let header ← (readFull F 9).mapError .readHeader
  if header.take 5 ≠ "REDIS" then throw (.badMagic (header.take 5))
  else
    match parseInt (header.drop 5) with
    | none => throw (.unsupportedVersion (header.drop 5))
    | some ver => if ver < 1 ∨ ver > version then throw (.unsupportedVersion (header.drop 5)) else pure ()

def verifyCRC : Dec Unit := do
  let (_, expected) ← get
  let trailer ← (Reader.take (fun crc _ => crc) .eof .unexpectedEOF 8).mapError .readTrailer
  let stored := ofNat (fromLittleEndian trailer)
  if stored = 0 then pure ()
  else if stored ≠ expected then throw (.crcMismatch stored expected)
  else pure ()

/-- What a turn of the loop of `Parse` comes to. -/
inductive Turn
  | done
  | next (curDB : Int) (pendingExpireMS : UInt64)
  | entry (e : Entry)

/-- A turn of the loop of `Parse`. -/
def readTurn (curDB : Int) (pendingExpireMS : UInt64) : Dec Turn := do
  let op ← (readByte F).mapError .readOpcode
  if op = opEOF then do
    verifyCRC
    pure .done
  else if op = opSelectDB then do
    let n ← readCount F
    pure (.next (signed 64 n) pendingExpireMS)
  else if op = opResizeDB then do
    let _ ← readCount F
    let _ ← readCount F
    pure (.next curDB pendingExpireMS)
  else if op = opAux then do
    let _ ← readString F
    let _ ← readString F
    pure (.next curDB pendingExpireMS)
  else if op = opExpireMS then do
    let b ← readFull F 8
    pure (.next curDB (ofNat (fromLittleEndian b)))
  else if op = opExpireSec then do
    let b ← readFull F 4
    pure (.next curDB (ofNat (fromLittleEndian b) * 1000))
  else if op = opIdle then do
    let _ ← readCount F
    pure (.next curDB pendingExpireMS)
  else if op = opFreq then do
    let _ ← readByte F
    pure (.next curDB pendingExpireMS)
  else do
    let e ← readObject F op curDB pendingExpireMS
    pure (.entry e)

variable {σ : Type} (fn : σ → Entry → σ × Bool)

/-- The loop of `Parse`. Every turn takes a byte at least: after as many turns as there were bytes none
is left. -/
def parseLoop : Nat → Bytes × UInt64 → Int → UInt64 → σ → σ × Option RdbError
  | 0, _, _, _, s => (s, some (.readOpcode .eof))
  | fuel + 1, inp, curDB, pendingExpireMS, s =>
    match readTurn F curDB pendingExpireMS inp with
    | .error err => (s, some err)
    | .ok (.done, _) => (s, none)
    | .ok (.next db expireMS, inp) => parseLoop fuel inp db expireMS s
    | .ok (.entry e, inp) => if (fn s e).2 then parseLoop fuel inp curDB 0 (fn s e).1 else ((fn s e).1, none)

/-- `Parse`, with the state of the callback `fn`. -/
def parse (s : σ) (input : Bytes) : σ × Option RdbError :=
  match readHeader F (input, 0) with
  | .error err => (s, some err)
  | .ok ((), inp) => parseLoop F fn inp.1.length inp 0 0 s

end decoder

end Hayakv.Rdb
