import Hayakv.Lib.Codec
import Hayakv.Lib.GoTime

/-!
# Lengths and strings of an RDB file

`internal/persist/rdb/primitives.go`: lengths in four forms, and strings, of which those that are the
text of a 32-bit integer are written as the integer. What a function of the encoder writes is its
result; a function of the decoder is a `Reader` that keeps the CRC64 of what it took. `reads_len`,
`reads_string` and `reads_rawString` say that the decoder reads back what the encoder wrote.
-/

namespace Hayakv.Rdb

open UInt8

/-- What the format rests on: the CRC64, byte by byte, and the text of scores. -/
structure Format where
  /-- The table lookup of `crc64jones.Update`. -/
  crc64Byte : UInt64 → UInt8 → UInt64
  /-- `formatScore`: `strconv.FormatFloat(f, 'g', -1, 64)`. -/
  formatScore : UInt64 → Bytes
  /-- `strconv.ParseFloat(s, 64)`. -/
  parseFloat : Bytes → Option UInt64

inductive RdbError
  | eof
  | unexpectedEOF
  /-- A length that is not one of a slice. -/
  | panic
  | badLengthByte (first : UInt8)
  | lzf
  | unknownStringEncoding (n : Nat)
  | readHeader (err : RdbError)
  | badMagic (magic : Bytes)
  | unsupportedVersion (version : Bytes)
  | readOpcode (err : RdbError)
  | badScore (text : Bytes)
  | badListpackScore (text : Bytes)
  | oddHash (n : Nat)
  | oddZSet (n : Nat)
  | unsupportedType (typeByte : UInt8)
  | unknownContainer (n : Nat)
  | readTrailer (err : RdbError)
  | crcMismatch (stored computed : UInt64)
  | listpackTooShort (n : Nat)
  | listpackTotal (total len : Nat)
  | listpackOverflow (what : Bytes)
  | listpackHeader (header : UInt8)
  | listpackUnterminated
  | intsetTooShort (n : Nat)
  | intsetEncoding (enc : Nat)
  | intsetOverflow (length enc len : Nat)
deriving DecidableEq

/-! ## Writing -/

def len6Bit : UInt8 := 0
def len14Bit : UInt8 := 1
def lenSpecial : UInt8 := 3
def len32 : UInt8 := 0x80
def len64 : UInt8 := 0x81

def encInt8 : Nat := 0
def encInt16 : Nat := 1
def encInt32 : Nat := 2
def encLZF : Nat := 3

/-- `writeLen` of a `uint64`. -/
def writeLen (n : Nat) : Bytes :=
  if n < 2 ^ 6 then [len6Bit <<< 6 ||| ofNat n]
  else if n < 2 ^ 14 then [len14Bit <<< 6 ||| ofNat (n / 2 ^ 8), ofNat n]
  else if n ≤ 0xFFFFFFFF then len32 :: bigEndian 4 n
  else len64 :: bigEndian 8 n

/-- `writeIntString` of a value of 32 bits. -/
def writeIntString (v : Int) : Bytes :=
  if -(2 ^ 7) ≤ v ∧ v < 2 ^ 7 then
    (lenSpecial <<< 6 ||| ofNat encInt8) :: littleEndian 1 (v % 2 ^ 8).toNat
  else if -(2 ^ 15) ≤ v ∧ v < 2 ^ 15 then
    (lenSpecial <<< 6 ||| ofNat encInt16) :: littleEndian 2 (v % 2 ^ 16).toNat
  else (lenSpecial <<< 6 ||| ofNat encInt32) :: littleEndian 4 (v % 2 ^ 32).toNat

def tryParseInt (s : Bytes) : Option Int :=
  if s.length = 0 ∨ s.length > 11 then none
  else
    (parseInt s).bind fun v =>
      if v < -(2 ^ 31) ∨ v ≥ 2 ^ 31 then none
      else if itoa v ≠ s then none
      else some v

def writeRawString (s : Bytes) : Bytes := writeLen s.length ++ s

def writeString (s : Bytes) : Bytes :=
  match tryParseInt s with
  | some iv => writeIntString iv
  | none => writeLen s.length ++ s

/-! ## Reading -/

abbrev Dec (α : Type) : Type := Reader UInt8 UInt64 RdbError α

/-- `intN(n)` of an unsigned value of `bits` bits. -/
def signed (bits n : Nat) : Int := if n < 2 ^ (bits - 1) then n else (n : Int) - 2 ^ bits

section reading

variable (F : Format)

def readByte : Dec UInt8 := Reader.next F.crc64Byte .eof

def readFull (n : Nat) : Dec Bytes := Reader.take F.crc64Byte .eof .unexpectedEOF n

/-- `readLen`, with whether it is a special encoding. -/
def readLen : Dec (Nat × Bool) := do
  let first ← readByte F
  if first >>> 6 = len6Bit then pure ((first &&& 0x3F).toNat, false)
  else if first >>> 6 = len14Bit then do
    let second ← readByte F
    pure ((first &&& 0x3F).toNat * 2 ^ 8 + second.toNat, false)
  else if first >>> 6 = lenSpecial then pure ((first &&& 0x3F).toNat, true)
  else if first = len32 then do
    let b ← readFull F 4
    pure (fromBigEndian b, false)
  else if first = len64 then do
    let b ← readFull F 8
    pure (fromBigEndian b, false)
  else throw (.badLengthByte first)

/-- `make` of a slice, with a length that was read. -/
def makeSlice (n : Nat) : Dec Nat := if n < 2 ^ 63 then pure n else throw .panic

def readString : Dec Bytes := do
  let (n, special) ← readLen F
  if !special then do
    let n ← makeSlice n
    readFull F n
  else if n = encInt8 then do
    let b ← readFull F 1
    pure (itoa (signed 8 (fromLittleEndian b)))
  else if n = encInt16 then do
    let b ← readFull F 2
    pure (itoa (signed 16 (fromLittleEndian b)))
  else if n = encInt32 then do
    let b ← readFull F 4
    pure (itoa (signed 32 (fromLittleEndian b)))
  else if n = encLZF then throw .lzf
  else throw (.unknownStringEncoding n)

end reading

/-! ## The decoder reads what the encoder writes -/

section roundTrip

variable {F : Format} {n : Nat} {s : Bytes}

theorem reads_byte (b : UInt8) : Reads F.crc64Byte (readByte F) [b] b := .next b

theorem reads_full (bs : Bytes) (h : bs.length = n) : Reads F.crc64Byte (readFull F n) bs bs := h ▸ .take bs

theorem first_len6 : ∀ n < 64, (len6Bit <<< 6 ||| ofNat n) >>> 6 = len6Bit ∧
    ((len6Bit <<< 6 ||| ofNat n) &&& 0x3F).toNat = n := by
  decide +kernel

theorem first_len14 : ∀ n < 64, (len14Bit <<< 6 ||| ofNat n) >>> 6 = len14Bit ∧
    ((len14Bit <<< 6 ||| ofNat n) &&& 0x3F).toNat = n := by
  decide +kernel

theorem reads_len (h : n < 2 ^ 64) : Reads F.crc64Byte (readLen F) (writeLen n) (n, false) := by
  unfold writeLen readLen
  split
  · rename_i h6
    obtain ⟨hshift, hmask⟩ := first_len6 n h6
    refine (reads_byte _).bind_nil ?_
    rw [if_pos hshift, hmask]
    exact .pure _
  split
  · rename_i h6 h14
    obtain ⟨hshift, hmask⟩ := first_len14 (n / 2 ^ 8) (by omega)
    refine Reads.bind (reads_byte _) ?_
    rw [if_neg (by rw [hshift]; decide), if_pos hshift, hmask]
    have hlow : n / 2 ^ 8 * 2 ^ 8 + (ofNat n).toNat = n := by
      rw [toNat_ofNat']
      omega
    refine (reads_byte _).bind_nil ?_
    rw [hlow]
    exact .pure _
  · split
    · refine Reads.bind (reads_byte _) ?_
      refine (reads_full _ (length_bigEndian 4 n)).bind_nil ?_
      rw [fromBigEndian_bigEndian, Nat.mod_eq_of_lt (by omega)]
      exact .pure _
    · refine Reads.bind (reads_byte _) ?_
      refine (reads_full _ (length_bigEndian 8 n)).bind_nil ?_
      rw [fromBigEndian_bigEndian, Nat.mod_eq_of_lt (by omega)]
      exact .pure _

theorem reads_special (h : n < 4) : Reads F.crc64Byte (readLen F) [lenSpecial <<< 6 ||| ofNat n] (n, true) := by
  have hfirst : ∀ n < 4, (lenSpecial <<< 6 ||| ofNat n) >>> 6 = lenSpecial ∧
      ((lenSpecial <<< 6 ||| ofNat n) &&& 0x3F).toNat = n := by decide
  obtain ⟨hshift, hmask⟩ := hfirst n h
  refine (reads_byte _).bind_nil ?_
  rw [if_neg (by rw [hshift]; decide), if_neg (by rw [hshift]; decide), if_pos hshift, hmask]
  exact .pure _

variable {v : Int}

theorem signed_mod {bits : Nat} (hbits : 0 < bits) (hlo : -(2 ^ (bits - 1)) ≤ v) (hhi : v < 2 ^ (bits - 1)) :
    signed bits (v % 2 ^ bits).toNat = v := by
  obtain ⟨k, rfl⟩ : ∃ k, bits = k + 1 := ⟨bits - 1, by omega⟩
  rw [Nat.add_sub_cancel] at hlo hhi
  have hpow : (2 : Int) ^ (k + 1) = 2 * 2 ^ k := by ring
  have hcast : ((2 ^ k : Nat) : Int) = 2 ^ k := by push_cast; rfl
  rw [signed, Nat.add_sub_cancel, hpow]
  rcases le_or_gt 0 v with hv | hv
  · rw [Int.emod_eq_of_lt hv (by omega), if_pos (by omega)]
    omega
  · have hmod : v % (2 * 2 ^ k) = v + 2 * 2 ^ k := by
      rw [← Int.add_emod_right, Int.emod_eq_of_lt (by omega) (by omega)]
    omega

theorem reads_rawString (h : s.length < 2 ^ 63) : Reads F.crc64Byte (readString F) (writeRawString s) s := by
  refine (reads_len (by omega)).bind ?_
  show Reads _ (makeSlice s.length >>= fun n => readFull F n) s s
  rw [makeSlice, if_pos h]
  exact reads_full s rfl

theorem tryParseInt_eq_some (h : tryParseInt s = some v) : -(2 ^ 31) ≤ v ∧ v < 2 ^ 31 ∧ itoa v = s := by
  unfold tryParseInt at h
  split at h
  · cases h
  obtain ⟨w, -, hw⟩ := Option.bind_eq_some_iff.1 h
  split at hw
  · cases hw
  split at hw
  · cases hw
  · rename_i hrange heq
    obtain rfl := Option.some.inj hw
    exact ⟨by omega, by omega, not_not.1 heq⟩

theorem reads_signed {k : Nat} (hk : 0 < k) (hlo : -(2 ^ (8 * k - 1)) ≤ v) (hhi : v < 2 ^ (8 * k - 1)) :
    Reads F.crc64Byte (do
      let b ← readFull F k
      pure (itoa (signed (8 * k) (fromLittleEndian b)))) (littleEndian k (v % 2 ^ (8 * k)).toNat) (itoa v) := by
  have hlt : (v % 2 ^ (8 * k)).toNat < 256 ^ k := by
    have hpow : ((256 ^ k : Nat) : Int) = 2 ^ (8 * k) := by
      rw [pow_mul]
      norm_num
    omega
  refine (reads_full _ (length_littleEndian k _)).bind_nil ?_
  rw [fromLittleEndian_littleEndian, Nat.mod_eq_of_lt hlt, signed_mod (by omega) hlo hhi]
  exact .pure _

theorem reads_intString (hlo : -(2 ^ 31) ≤ v) (hhi : v < 2 ^ 31) :
    Reads F.crc64Byte (readString F) (writeIntString v) (itoa v) := by
  unfold writeIntString
  split
  · rename_i h8
    exact Reads.bind (reads_special (by decide)) (reads_signed (by decide) h8.1 h8.2)
  · split
    · rename_i h16
      exact Reads.bind (reads_special (by decide)) (reads_signed (by decide) h16.1 h16.2)
    · exact Reads.bind (reads_special (by decide)) (reads_signed (by decide) hlo hhi)

theorem reads_string (h : s.length < 2 ^ 63) : Reads F.crc64Byte (readString F) (writeString s) s := by
  rw [writeString]
  cases hint : tryParseInt s with
  | none => exact reads_rawString h
  | some v =>
    obtain ⟨hlo, hhi, rfl⟩ := tryParseInt_eq_some hint
    exact reads_intString hlo hhi

end roundTrip

end Hayakv.Rdb
