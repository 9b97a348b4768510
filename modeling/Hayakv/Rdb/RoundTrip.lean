import Hayakv.Rdb.Decoder
import Hayakv.Object.SimpleDict

/-!
# Round trip of RDB files

The decoder reports the entries that an encoder wrote, in order, and accepts the checksum
(`parse_encode`). Each reader of the decoder is proved against the writer it reads (`Reads`), a turn
of `Parse` against the records that a call writes, and the loop by induction on the calls.

`Call.Ok` says that the numbers of a call are numbers of Go: lengths are those of slices, and times and
database indices are of 64 bits. The fields of a hash are the entries of a map, and the text of each score
parses back to it (that of a NaN does so for one bit pattern only).
-/

namespace Hayakv.Rdb

open Engine (StreamID putField)
open List UInt64

variable {F : Format}

/-! ## Values of Go -/

/-- A Go string. -/
def StringOk (s : Bytes) : Prop := s.length < 2 ^ 63

/-- An `int64`. -/
def IntOk (n : Int) : Prop := -(2 ^ 63) ≤ n ∧ n < 2 ^ 63

/-- A slice, of elements that are fit to write. -/
def SliceOk {α : Type} (P : α → Prop) (xs : List α) : Prop := xs.length < 2 ^ 63 ∧ ∀ x ∈ xs, P x

def FieldOk (f : Bytes × Bytes) : Prop := StringOk f.1 ∧ StringOk f.2

def StreamPendingEntry.Ok (pe : StreamPendingEntry) : Prop := StringOk pe.consumer ∧ IntOk pe.deliveryTime

def StreamConsumerData.Ok (c : StreamConsumerData) : Prop :=
  StringOk c.name ∧ IntOk c.activeTime ∧ SliceOk (fun _ => True) c.pending

def StreamGroupData.Ok (g : StreamGroupData) : Prop :=
  StringOk g.name ∧ SliceOk StreamPendingEntry.Ok g.pending ∧ SliceOk StreamConsumerData.Ok g.consumers

def StreamData.Ok (sd : StreamData) : Prop :=
  SliceOk (fun entry : Engine.Entry => SliceOk FieldOk entry.fields) sd.entries ∧ SliceOk StreamGroupData.Ok sd.groups

variable (F) in
/-- The text of a score is a string that parses back to it. -/
def ScoreOk (score : UInt64) : Prop := StringOk (F.formatScore score) ∧ F.parseFloat (F.formatScore score) = some score

variable (F) in
def EntryVal.Ok : EntryVal → Prop
  | .string val => StringOk val
  | .list vals | .set vals => SliceOk StringOk vals
  | .hash fields => SliceOk FieldOk fields ∧ (fields.map Prod.fst).Nodup
  | .zset members => SliceOk (fun m => StringOk m.member ∧ ScoreOk F m.score) members
  | .stream sd => sd.Ok

variable (F) in
def Call.Ok : Call → Prop
  | .aux key val => StringOk key ∧ StringOk val
  | .selectDB db => IntOk db
  | .resizeDB .. => True
  | .entry key value _ => StringOk key ∧ value.Ok F

variable (F) in
def Entry.Ok (e : Entry) : Prop := IntOk e.dbIndex ∧ StringOk e.key ∧ e.value.Ok F

/-! ## Parts -/

theorem uint64_lt (n : Int) : uint64 n < 2 ^ 64 := by
  rw [uint64]
  omega

theorem signed_uint64 {n : Int} (h : IntOk n) : signed 64 (uint64 n) = n := signed_mod (by decide) h.1 h.2

theorem ofNat_littleEndian (n : UInt64) : UInt64.ofNat (fromLittleEndian (littleEndian 8 n.toNat)) = n := by
  have hlt : n.toNat < 256 ^ 8 := n.toNat_lt
  rw [fromLittleEndian_littleEndian, Nat.mod_eq_of_lt hlt, UInt64.ofNat_toNat]

theorem reads_count {n : Nat} (h : n < 2 ^ 64) : Reads F.crc64Byte (readCount F) (writeLen n) n :=
  (reads_len h).bind_nil (.pure _)

theorem reads_uint64 (n : UInt64) : Reads F.crc64Byte (readCount F) (writeLen n.toNat) n.toNat :=
  reads_count n.toNat_lt

/-- A count, and so many items. -/
theorem reads_many {α : Type} {item : Dec α} {write : α → Bytes} {P : α → Prop} {xs : List α}
    (hitem : ∀ x, P x → Reads F.crc64Byte item (write x) x) (h : SliceOk P xs) :
    Reads F.crc64Byte (readMany F item) (writeMany write xs) xs := by
  obtain ⟨hlen, hall⟩ := h
  refine (reads_count (by omega)).bind ?_
  rw [makeSlice, if_pos hlen]
  exact .many fun x hx => hitem x (hall x hx)

theorem reads_field {f : Bytes × Bytes} (h : FieldOk f) : Reads F.crc64Byte (readField F) (writeField f) f :=
  (reads_string h.1).bind ((reads_string h.2).bind_nil (.pure _))

theorem reads_member {m : ZSetMember} (h : StringOk m.member ∧ ScoreOk F m.score) :
    Reads F.crc64Byte (readMember F) (writeMember F m) m := by
  obtain ⟨hmember, htext, hparse⟩ := h
  refine (reads_string hmember).bind ((reads_rawString htext).bind_nil ?_)
  rw [scoreOf, hparse]
  exact .pure _

theorem reads_id (id : StreamID) : Reads F.crc64Byte (readID F) (writeID id) id := by
  refine (reads_uint64 id.ms).bind ((reads_uint64 id.seq).bind_nil ?_)
  rw [UInt64.ofNat_toNat, UInt64.ofNat_toNat]
  exact .pure _

theorem reads_streamItem {entry : Engine.Entry} (h : SliceOk FieldOk entry.fields) :
    Reads F.crc64Byte (readStreamItem F) (writeStreamItem entry) entry :=
  (reads_id entry.id).bind ((reads_many (fun _ => reads_field) h).bind_nil (.pure _))

theorem reads_pending {pe : StreamPendingEntry} (h : pe.Ok) :
    Reads F.crc64Byte (readPending F) (writePending pe) pe := by
  refine (reads_id pe.id).bind ((reads_string h.1).bind ((reads_count (uint64_lt _)).bind
    ((reads_uint64 pe.deliveryCount).bind_nil ?_)))
  rw [signed_uint64 h.2, UInt64.ofNat_toNat]
  exact .pure _

theorem reads_consumer {c : StreamConsumerData} (h : c.Ok) :
    Reads F.crc64Byte (readConsumer F) (writeConsumer c) c := by
  obtain ⟨hname, htime, hpending⟩ := h
  refine (reads_string hname).bind ((reads_count (uint64_lt _)).bind
    ((reads_many (fun id _ => reads_id id) hpending).bind_nil ?_))
  rw [signed_uint64 htime]
  exact .pure _

theorem reads_group {g : StreamGroupData} (h : g.Ok) : Reads F.crc64Byte (readGroup F) (writeGroup g) g := by
  obtain ⟨hname, hpending, hconsumers⟩ := h
  refine (reads_string hname).bind ((reads_id g.lastDelivered).bind ((reads_uint64 g.entriesRead).bind
    ((reads_many (fun _ => reads_pending) hpending).bind
      ((reads_many (fun _ => reads_consumer) hconsumers).bind_nil ?_))))
  rw [UInt64.ofNat_toNat]
  exact .pure _

theorem reads_streamData {sd : StreamData} (h : sd.Ok) :
    Reads F.crc64Byte (readStreamData F) (writeStreamData sd) sd := by
  refine (reads_id sd.lastID).bind ((reads_id sd.maxDeletedID).bind ((reads_uint64 sd.entriesAdded).bind
    ((reads_many (fun _ => reads_streamItem) h.1).bind ((reads_many (fun _ => reads_group) h.2).bind_nil ?_))))
  rw [UInt64.ofNat_toNat]
  exact .pure _

/-- A Go map keeps fields that are distinct. -/
theorem toMap_of_nodup {fields : List (Bytes × Bytes)} (h : (fields.map Prod.fst).Nodup) : toMap fields = fields := by
  have hfold : fields.foldl (fun m f => putField f.1 f.2 m) (Object.SimpleDict.makeSimple).m =
      (fields.foldl (fun d e => (d.put e.1 e.2).1) Object.SimpleDict.makeSimple).m :=
    foldl_hom Object.SimpleDict.m fun _ _ => rfl
  exact hfold.trans (Object.SimpleDict.foldl_put h)

/-! ## Turns -/

/-- The opcode of an object. -/
def EntryVal.typeByte : EntryVal → UInt8
  | .string _ => typeString
  | .list _ => typeList
  | .set _ => typeSet
  | .hash _ => typeHash
  | .zset _ => typeZSet
  | .stream _ => typeStream

def EntryVal.bytes (F : Format) : EntryVal → Bytes
  | .string val => writeString val
  | .list vals | .set vals => writeMany writeString vals
  | .hash fields => writeMany writeField fields
  | .zset members => writeMany (writeMember F) members
  | .stream sd => writeStreamData sd

theorem bytes_entry (key : Bytes) (value : EntryVal) (expireMS : UInt64) :
    (Call.entry key value expireMS).bytes F = writeKeyed value.typeByte key expireMS (value.bytes F) := by
  cases value <;> rfl

theorem reads_value {value : EntryVal} (h : value.Ok F) :
    Reads F.crc64Byte (readValue F value.typeByte) (value.bytes F) value := by
  cases value with
  | string val => exact (reads_string h).bind_nil (.pure _)
  | list vals | set members => exact (reads_many (fun _ => reads_string) h).bind_nil (.pure _)
  | hash fields =>
    obtain ⟨⟨hlen, hall⟩, hnodup⟩ := h
    refine (reads_count (by omega)).bind ((Reads.many fun f hf => reads_field (hall f hf)).bind_nil ?_)
    rw [toMap_of_nodup hnodup]
    exact .pure _
  | zset members => exact (reads_many (fun _ => reads_member) h).bind_nil (.pure _)
  | stream sd => exact (reads_streamData h).bind_nil (.pure _)

theorem typeByte_notOp (value : EntryVal) : value.typeByte ∉
    [opEOF, opSelectDB, opResizeDB, opAux, opExpireMS, opExpireSec, opIdle, opFreq] := by
  have htype : value.typeByte ∈ [typeString, typeList, typeSet, typeHash, typeZSet, typeStream] := by
    cases value <;> simp [EntryVal.typeByte]
  simp only [mem_cons, not_mem_nil, or_false] at htype
  rcases htype with h | h | h | h | h | h <;> rw [h] <;> decide

section turns

variable {db : Int} {expireMS : UInt64}

theorem reads_opcode (op : UInt8) : Reads F.crc64Byte ((readByte F).mapError RdbError.readOpcode) [op] op :=
  (reads_byte op).mapError _

theorem reads_object {key : Bytes} {value : EntryVal} (hkey : StringOk key) (hvalue : value.Ok F) :
    Reads F.crc64Byte (readTurn F db expireMS) (value.typeByte :: (writeString key ++ (value.bytes F)))
      (.entry ⟨db, key, value, expireMS⟩) := by
  have hop := typeByte_notOp value
  simp only [mem_cons, not_mem_nil, or_false, not_or] at hop
  obtain ⟨h₁, h₂, h₃, h₄, h₅, h₆, h₇, h₈⟩ := hop
  refine Reads.bind (reads_opcode _) ?_
  rw [if_neg h₁, if_neg h₂, if_neg h₃, if_neg h₄, if_neg h₅, if_neg h₆, if_neg h₇, if_neg h₈]
  have hobject : Reads F.crc64Byte (readObject F value.typeByte db expireMS) (writeString key ++ value.bytes F)
      ⟨db, key, value, expireMS⟩ := (reads_string hkey).bind ((reads_value hvalue).bind_nil (.pure _))
  exact hobject.bind_nil (.pure _)

theorem reads_expire (ms : UInt64) :
    Reads F.crc64Byte (readTurn F db expireMS) (opExpireMS :: littleEndian 8 ms.toNat) (.next db ms) := by
  refine Reads.bind (reads_opcode _) ((reads_full _ (length_littleEndian 8 _)).bind_nil ?_)
  rw [ofNat_littleEndian]
  exact .pure _

theorem reads_selectDB {n : Int} (h : IntOk n) :
    Reads F.crc64Byte (readTurn F db expireMS) (writeSelectDB n) (.next n expireMS) := by
  refine Reads.bind (reads_opcode _) ((reads_count (uint64_lt n)).bind_nil ?_)
  rw [signed_uint64 h]
  exact .pure _

theorem reads_resizeDB (dbSize expiresSize : UInt64) :
    Reads F.crc64Byte (readTurn F db expireMS) (writeResizeDB dbSize expiresSize) (.next db expireMS) :=
  Reads.bind (reads_opcode _) ((reads_uint64 dbSize).bind ((reads_uint64 expiresSize).bind_nil (.pure _)))

theorem reads_aux {key val : Bytes} (hkey : StringOk key) (hval : StringOk val) :
    Reads F.crc64Byte (readTurn F db expireMS) (writeAux key val) (.next db expireMS) :=
  Reads.bind (reads_opcode _) ((reads_string hkey).bind ((reads_string hval).bind_nil (.pure _)))

end turns

/-! ## Files -/

section files

variable {σ : Type} {fn : σ → Entry → σ × Bool} {fuel : Nat} {db : Int} {expireMS : UInt64} {s : σ} {c : UInt64}
  {bs rest : Bytes}

/-- A turn of the loop, and the rest of the file. -/
theorem parseLoop_turn {t : Turn} (hne : bs ≠ []) (h : Reads F.crc64Byte (readTurn F db expireMS) bs t)
    (hfuel : (bs ++ rest).length ≤ fuel) :
    ∃ fuel', rest.length ≤ fuel' ∧ parseLoop F fn fuel (bs ++ rest, c) db expireMS s = match t with
      | .done => (s, none)
      | .next db expireMS => parseLoop F fn fuel' (rest, bs.foldl F.crc64Byte c) db expireMS s
      | .entry e =>
        if (fn s e).2 then parseLoop F fn fuel' (rest, bs.foldl F.crc64Byte c) db 0 (fn s e).1 else ((fn s e).1, none) := by
  have hpos := length_pos_of_ne_nil hne
  rw [length_append] at hfuel
  obtain ⟨fuel, rfl⟩ : ∃ n, fuel = n + 1 := ⟨fuel - 1, by omega⟩
  exact ⟨fuel, by omega, by cases t <;> rw [parseLoop, h]⟩

variable {trailer : Bytes}

/-- The bytes that `verifyCRC` reads leave the checksum as it is. -/
theorem readTrailer_eq (h : trailer.length = 8) (crc : UInt64) :
    (Reader.take (fun (crc : UInt64) (_ : UInt8) => crc) .eof .unexpectedEOF 8).mapError RdbError.readTrailer
      (trailer, crc) = .ok (trailer, [], crc) := by
  have htake : Reads (fun (crc : UInt64) (_ : UInt8) => crc)
      (Reader.take (fun (crc : UInt64) (_ : UInt8) => crc) RdbError.eof .unexpectedEOF trailer.length) trailer
      trailer := Reads.take trailer
  have hread := htake.mapError RdbError.readTrailer [] crc
  rwa [h, append_nil, foldl_fixed] at hread

/-- The checksum at the end is that of the bytes before it. -/
theorem verifyCRC_eq {crc : UInt64} (h : trailer.length = 8)
    (hcrc : ofNat (fromLittleEndian trailer) = crc) : verifyCRC (trailer, crc) = .ok ((), [], crc) := by
  have hverify : verifyCRC (trailer, crc) =
      ((Reader.take (fun (crc : UInt64) (_ : UInt8) => crc) .eof .unexpectedEOF 8).mapError RdbError.readTrailer
        (trailer, crc)).bind fun p =>
          (if ofNat (fromLittleEndian p.1) = 0 then pure ()
          else if ofNat (fromLittleEndian p.1) ≠ crc then
            throw (.crcMismatch (ofNat (fromLittleEndian p.1)) crc)
          else pure () : Dec Unit) p.2 := rfl
  rw [hverify, readTrailer_eq h, Except.bind, hcrc, if_neg (not_not.2 rfl), ite_self]
  rfl

theorem parseLoop_end (h : trailer.length = 8)
    (hcrc : ofNat (fromLittleEndian trailer) = F.crc64Byte c opEOF) (hfuel : 0 < fuel) :
    parseLoop F fn fuel (opEOF :: trailer, c) db expireMS s = (s, none) := by
  obtain ⟨fuel, rfl⟩ : ∃ n, fuel = n + 1 := ⟨fuel - 1, by omega⟩
  have hturn : readTurn F db expireMS (opEOF :: trailer, c) =
      (verifyCRC (trailer, F.crc64Byte c opEOF)).bind fun p => .ok (.done, p.2) := rfl
  rw [parseLoop, hturn, verifyCRC_eq h hcrc]
  rfl

theorem parseLoop_object {key : Bytes} {value : EntryVal} {es : List Entry} (hkey : StringOk key) (hvalue : value.Ok F)
    (hfuel : (value.typeByte :: (writeString key ++ value.bytes F) ++ rest).length ≤ fuel)
    (hrest : ∀ fuel' s, rest.length ≤ fuel' →
      parseLoop F fn fuel' (rest, (value.typeByte :: (writeString key ++ value.bytes F)).foldl F.crc64Byte c) db 0 s =
        (visit fn s es, none)) :
    parseLoop F fn fuel (value.typeByte :: (writeString key ++ value.bytes F) ++ rest, c) db expireMS s =
      (visit fn s (⟨db, key, value, expireMS⟩ :: es), none) := by
  obtain ⟨fuel', hfuel', hloop⟩ := parseLoop_turn (c := c) (cons_ne_nil _ _) (reads_object hkey hvalue) hfuel
  refine hloop.trans ?_
  dsimp only
  rw [hrest _ _ hfuel', visit]
  split <;> rfl

/-- By induction on the calls: each is read in one or two turns. -/
theorem parseLoop_calls {calls : List Call} (hok : ∀ call ∈ calls, call.Ok F)
    (hfuel : (calls.flatMap (Call.bytes F) ++ opEOF :: rest).length ≤ fuel)
    (hrest : rest = littleEndian 8 ((calls.flatMap (Call.bytes F) ++ [opEOF]).foldl F.crc64Byte c).toNat) :
    parseLoop F fn fuel (calls.flatMap (Call.bytes F) ++ opEOF :: rest, c) db 0 s =
      (visit fn s (written db calls), none) := by
  induction calls generalizing fuel c db s with
  | nil =>
    refine parseLoop_end (by rw [hrest, length_littleEndian]) ?_ (lt_of_lt_of_le (by simp) hfuel)
    rw [hrest, ofNat_littleEndian]
    rfl
  | cons call calls ih =>
    have hcalls : ∀ call ∈ calls, call.Ok F := fun k hk => hok k (mem_cons_of_mem call hk)
    have hcall := hok call mem_cons_self
    rw [flatMap_cons, append_assoc, foldl_append] at hrest
    rw [flatMap_cons, append_assoc] at hfuel ⊢
    cases call with
    | aux key val =>
      obtain ⟨fuel', hfuel', hloop⟩ := parseLoop_turn (c := c) (by simp [writeAux]) (reads_aux hcall.1 hcall.2) hfuel
      exact hloop.trans (ih hcalls hfuel' hrest)
    | selectDB n =>
      obtain ⟨fuel', hfuel', hloop⟩ := parseLoop_turn (c := c) (by simp [writeSelectDB]) (reads_selectDB hcall) hfuel
      exact hloop.trans (ih hcalls hfuel' hrest)
    | resizeDB dbSize expiresSize =>
      obtain ⟨fuel', hfuel', hloop⟩ := parseLoop_turn (c := c) (by simp [writeResizeDB])
        (reads_resizeDB dbSize expiresSize) hfuel
      exact hloop.trans (ih hcalls hfuel' hrest)
    | entry key value expireMS =>
      rw [bytes_entry, writeKeyed, writeExpire] at hfuel hrest ⊢
      by_cases hexpire : expireMS = 0
      · rw [if_pos hexpire, nil_append] at hfuel hrest ⊢
        rw [hexpire]
        exact parseLoop_object hcall.1 hcall.2 hfuel fun fuel' s hfuel' => ih hcalls hfuel' hrest
      rw [if_neg hexpire, append_assoc] at hfuel ⊢
      rw [if_neg hexpire] at hrest
      obtain ⟨fuel', hfuel', hloop⟩ := parseLoop_turn (c := c) (cons_ne_nil _ _) (reads_expire expireMS) hfuel
      exact hloop.trans (parseLoop_object hcall.1 hcall.2 hfuel' fun fuel'' s hfuel'' =>
        ih hcalls hfuel'' (hrest.trans (by simp only [foldl_append])))

theorem foldl_writeBytes (calls : List Call) (w : Writer) :
    calls.foldl (fun w call => w.writeBytes F (call.bytes F)) w =
      ⟨w.out ++ calls.flatMap (Call.bytes F), (calls.flatMap (Call.bytes F)).foldl F.crc64Byte w.crc⟩ := by
  induction calls generalizing w with
  | nil => simp
  | cons call calls ih =>
    rw [foldl_cons, ih, flatMap_cons, foldl_append, Writer.writeBytes, crc64Update, append_assoc]

theorem encode_eq (calls : List Call) : encode F calls =
    writeHeader ++ (calls.flatMap (Call.bytes F) ++ opEOF :: littleEndian 8
      ((calls.flatMap (Call.bytes F) ++ [opEOF]).foldl F.crc64Byte (writeHeader.foldl F.crc64Byte 0)).toNat) := by
  rw [encode, foldl_writeBytes, foldl_append]
  simp [Writer.writeEnd, Writer.writeBytes, crc64Update]

theorem reads_header : Reads F.crc64Byte (readHeader F) writeHeader () := by
  refine ((reads_full writeHeader (by decide)).mapError _).bind_nil ?_
  exact .pure _

end files

theorem parse_calls (F : Format) {σ : Type} (fn : σ → Entry → σ × Bool) (s : σ) {calls : List Call}
    (hok : ∀ call ∈ calls, call.Ok F) : parse F fn s (encode F calls) = (visit fn s (written 0 calls), none) := by
  rw [parse, encode_eq, reads_header]
  exact parseLoop_calls hok le_rfl rfl

theorem callsFor_ok {es : List Entry} (h : ∀ e ∈ es, e.Ok F) : ∀ call ∈ callsFor es, call.Ok F := by
  intro call hcall
  obtain ⟨e, he, hcall⟩ := mem_flatMap.1 hcall
  obtain ⟨hdb, hkey, hvalue⟩ := h e he
  rcases mem_cons.1 hcall with rfl | hcall
  · exact hdb
  · obtain rfl := mem_singleton.1 hcall
    exact ⟨hkey, hvalue⟩

/-- The round trip of RDB files. Every list of entries can be written, and however an encoder is called
to write it (with whatever auxiliary fields, hints and changes of the database in between), `Parse`
reports its entries, all of them in order up to the one that the callback stops at, and accepts the
checksum. -/
theorem parse_encode (F : Format) (es : List Entry) (hok : ∀ e ∈ es, e.Ok F) :
    (∃ calls, written 0 calls = es ∧ ∀ call ∈ calls, call.Ok F) ∧
      ∀ calls, written 0 calls = es → (∀ call ∈ calls, call.Ok F) →
        ∀ (σ : Type) (fn : σ → Entry → σ × Bool) (s : σ), parse F fn s (encode F calls) = (visit fn s es, none) :=
  ⟨⟨callsFor es, written_callsFor 0 es, callsFor_ok hok⟩,
    fun _ hwritten hcalls _ fn s => hwritten ▸ parse_calls F fn s hcalls⟩

/-- The bits of a natural number below 2^53 as a `float64`. -/
def floatOfNat (n : Nat) : UInt64 :=
  if n = 0 then 0 else ofNat ((1023 + n.log2) * 2 ^ 52 + (n - 2 ^ n.log2) * 2 ^ (52 - n.log2))

/-- The CRC64 of Redis files, and `strconv` on the scores 0 to 999; other scores have no text here. -/
def Format.naturals : Format where
  crc64Byte crc b :=
    let shift (c : UInt64) : UInt64 := if c &&& 1 = 1 then (c >>> 1) ^^^ 0x95ac9329ac4bc9b5 else c >>> 1
    shift^[8] ((crc ^^^ b.toUInt64) &&& 0xff) ^^^ (crc >>> 8)
  formatScore f := ((range 1000).find? fun n => floatOfNat n = f).elim [] fun n => itoa n
  parseFloat s := (parseInt s).bind fun n => if 0 ≤ n ∧ n < 1000 then some (floatOfNat n.toNat) else none

example : (str "123456789").foldl Format.naturals.crc64Byte 0 = 0xe9c6d914c4b8d9ca := by decide +kernel

theorem parse_encode_zset : let es : List Entry := [⟨1, "z", .zset [⟨"12", floatOfNat 7⟩, ⟨"b", floatOfNat 10⟩], 5⟩]
    (∀ e ∈ es, e.Ok .naturals) ∧ (∃ calls, written 0 calls = es ∧ ∀ call ∈ calls, call.Ok .naturals) ∧
      ∀ calls, written 0 calls = es → (∀ call ∈ calls, call.Ok .naturals) →
        ∀ (σ : Type) (fn : σ → Entry → σ × Bool) (s : σ),
          parse .naturals fn s (encode .naturals calls) = (visit fn s es, none) := by
  intro es
  have hseven : ScoreOk .naturals (floatOfNat 7) := by
    unfold ScoreOk StringOk
    decide +kernel
  have hten : ScoreOk .naturals (floatOfNat 10) := by
    unfold ScoreOk StringOk
    decide +kernel
  have hok : ∀ e ∈ es, e.Ok .naturals := by
    simp [es, Entry.Ok, IntOk, StringOk, EntryVal.Ok, SliceOk, str, hseven, hten]
  exact ⟨hok, parse_encode .naturals es hok⟩

end Hayakv.Rdb
