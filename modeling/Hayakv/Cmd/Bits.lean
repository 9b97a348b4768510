import Hayakv.Cmd.Lists

/-!
# BITFIELD and BITOP

`internal/command/bitfield.go` and `internal/command/bitop.go`. BITFIELD writes into the string in
place, one subcommand after another, and so what it has written stays when a later subcommand is
refused. BITOP ANDOR with one source makes the destination share the array of the source.
-/

namespace Hayakv.Cmd

open Engine Engine.Exec

/-! ## BITFIELD -/

structure BitField where
  bits : Nat
  signed : Bool
  offset : Int
deriving DecidableEq, Repr

inductive Overflow
  | wrap | sat | fail
deriving DecidableEq, Repr

def parseBitfieldType : Bytes → Option (Nat × Bool)
  | [] => none
  | [_] => none
  | c :: s =>
    if c = 105 ∨ c = 117 then
      (parseInt s).bind fun bits =>
        if bits < 1 ∨ (if c = 105 then 64 else 63) < bits then none else some (bits.toNat, c = 105)
    else none

def parseBitfieldOffset (s : Bytes) (bits : Nat) : Option Int :=
  match s with
  | 35 :: s => (parseInt s).map fun n => wrap64 (n * bits)
  | s => parseInt s

def bfParseSubcommand (typeStr offsetStr : Bytes) : Except Reply BitField :=
  match parseBitfieldType typeStr with
  | none => .error (.error "ERR invalid type specifier")
  | some (bits, signed) =>
    match parseBitfieldOffset offsetStr bits with
    | none => .error (.error "ERR invalid bit offset")
    | some offset => .ok ⟨bits, signed, offset⟩

/-- A subcommand of BITFIELD. One that is refused ends the command where its turn comes. -/
inductive BfOp
  | overflow (o : Overflow)
  | get (f : BitField)
  | set (f : BitField) (val : Int)
  | incrby (f : BitField) (incr : Int)
  | refuse (r : Reply)

def parseBfValue (typeStr offsetStr val : Bytes) (op : BitField → Int → BfOp) : BfOp :=
  match bfParseSubcommand typeStr offsetStr with
  | .error r => .refuse r
  | .ok f =>
    match parseInt val with
    | none => .refuse (.error "ERR invalid bitfield value")
    | some v => op f v

def parseBitfield : List Bytes → List BfOp
  | [] => []
  | sub :: args =>
    if toUpper sub = "OVERFLOW" then
      match args with
      | [] => [.refuse (.error "ERR syntax error")]
      | o :: args =>
        if toUpper o = "WRAP" then .overflow .wrap :: parseBitfield args
        else if toUpper o = "SAT" then .overflow .sat :: parseBitfield args
        else if toUpper o = "FAIL" then .overflow .fail :: parseBitfield args
        else [.refuse (.error "ERR invalid OVERFLOW type specified")]
    else if toUpper sub = "GET" then
      match args with
      | t :: o :: args =>
        (match bfParseSubcommand t o with
          | .error r => .refuse r
          | .ok f => .get f) :: parseBitfield args
      | _ => [.refuse (.error "ERR syntax error")]
    else if toUpper sub = "SET" then
      match args with
      | t :: o :: v :: args => parseBfValue t o v .set :: parseBitfield args
      | _ => [.refuse (.error "ERR syntax error")]
    else if toUpper sub = "INCRBY" then
      match args with
      | t :: o :: v :: args => parseBfValue t o v .incrby :: parseBitfield args
      | _ => [.refuse (.error "ERR syntax error")]
    else [.refuse (.error "ERR syntax error")]

/-- A number modulo `2 ^ bits`, in the range of the type. -/
def bfWrap (bits : Nat) (signed : Bool) (v : Int) : Int :=
  let r := v % 2 ^ bits
  if signed && 2 ^ (bits - 1) ≤ r then r - 2 ^ bits else r

def bfGet (b : Bytes) (f : BitField) : Option Int :=
  ((List.range f.bits).foldlM (fun (v : Nat) (i : Nat) =>
    (getBit b (wrap64 (f.offset + i))).map fun bit => 2 * v + bit) 0).map fun v =>
      bfWrap f.bits f.signed v

/-- `bfSet`, on the slice worked on, whose bytes are `b`: its bytes afterwards. -/
def bfSet (b : Bytes) (f : BitField) (val : Int) : Exec Bytes :=
  Prog.fold (List.range f.bits) b fun b i =>
    writeBit b (wrap64 (f.offset + i)) ((val % 2 ^ f.bits).toNat.testBit (f.bits - 1 - i))

/-- Whether `bfIncrby` sees an overflow. For an unsigned field the bound is computed in 64 bits. -/
def bfOverflows (f : BitField) (old incr : Int) : Bool :=
  if f.signed then
    (0 < incr && 2 ^ (f.bits - 1) - 1 - incr < old) || (incr < 0 && old < -2 ^ (f.bits - 1) - incr)
  else
    (0 < incr && (2 ^ f.bits - 1 - incr) % 2 ^ 64 < old) || (incr < 0 && old < -incr % 2 ^ 64)

/-- The least and the greatest value of a field. -/
def bfMin (f : BitField) : Int := if f.signed then -2 ^ (f.bits - 1) else 0
def bfMax (f : BitField) : Int := if f.signed then 2 ^ (f.bits - 1) - 1 else 2 ^ f.bits - 1

/-- The value that `bfIncrby` stores and returns, `none` if it fails. -/
def bfIncrby (f : BitField) (old incr : Int) : Overflow → Option Int
  | .wrap => some (bfWrap f.bits f.signed (old + incr))
  | .sat =>
    some (if bfOverflows f old incr then if 0 < incr then bfMax f else bfMin f else wrap64 (old + incr))
  | .fail => if bfOverflows f old incr then none else some (wrap64 (old + incr))

/-- What BITFIELD keeps from one subcommand to the next. -/
structure BfState where
  bytes : Bytes
  overflow : Overflow
  results : List Reply

def bfStep (st : BfState) : BfOp → Exec BfState
  | .overflow o => pure { st with overflow := o }
  | .get f => do
    let v ← orPanic (bfGet st.bytes f)
    return { st with results := st.results ++ [.int v] }
  | .set f val => do
    let old ← orPanic (bfGet st.bytes f)
    let bytes ← bfSet st.bytes f val
    return { st with bytes, results := st.results ++ [.int old] }
  | .incrby f incr => do
    let old ← orPanic (bfGet st.bytes f)
    match bfIncrby f old incr st.overflow with
    | none => return { st with results := st.results ++ [.nullBulk] }
    | some v => do
      let bytes ← bfSet st.bytes f v
      return { st with bytes, results := st.results ++ [.int v] }
  | .refuse r => reply r

/-- `getOrInitBitmap`: a bare `[]byte` is refused. -/
def Entity.asBitmap (e : Entity) : Except Reply Bytes :=
  match e.robj, e.value with
  | true, .str _ b => .ok (b.getD [])
  | _, _ => .error .wrongType

/-- `execBitfield`. The string that was there is changed through its object. -/
def execBitfield (args : List Bytes) : Exec Reply := do
  check (args.length < 1) (.error "ERR wrong number of arguments for 'bitfield' command")
  let key ← arg args 0
  let found ← getAs Entity.asBitmap key
  if found.isNone then
    freshBuf (some [])
    let st ← Prog.fold (parseBitfield (args.drop 1)) ⟨[], .wrap, []⟩ bfStep
    putBuf key
    addAof ("bitfield" :: args)
    return .array st.results
  else
    openBuf key
    let st ← Prog.fold (parseBitfield (args.drop 1)) ⟨found.getD [], .wrap, []⟩ bfStep
    assignBuf key
    addAof ("bitfield" :: args)
    return .array st.results

/-- The replies of BITFIELD_RO, each `none` for an index out of range, up to the first error. -/
def bitfieldROReplies (b : Option Bytes) : List Bytes → Except Exit (List Reply)
  | [] => .ok []
  | sub :: args =>
    if toUpper sub = "GET" then
      match args with
      | t :: o :: args =>
        match bfParseSubcommand t o with
        | .error r => .error (.reply r)
        | .ok f =>
          match b with
          | none => (bitfieldROReplies b args).map (.nullBulk :: ·)
          | some bytes =>
            match bfGet bytes f with
            | none => .error .panic
            | some v => (bitfieldROReplies b args).map (.int v :: ·)
      | _ => .error (.reply (.error "ERR syntax error"))
    else .error (.reply (.error "ERR BITFIELD_RO only supports the GET subcommand"))

def execBitfieldRO (args : List Bytes) : Exec Reply := do
  check (args.length < 1) (.error "ERR wrong number of arguments for 'bitfield_ro' command")
  let key ← arg args 0
  let bs ← getAsString key
  let results ← orExit (bitfieldROReplies bs (args.drop 1))
  return .array results

/-! ## BITOP -/

def maxLen (srcs : List Bytes) : Nat := (srcs.map List.length).foldl max 0

/-- The bytes at each position, up to the longest source, combined; `pad` stands for one that is
missing. -/
def bitopBy (pad : UInt8) (f : List UInt8 → UInt8) (srcs : List Bytes) : Bytes :=
  (List.range (maxLen srcs)).map fun i => f (srcs.map fun src => src.getD i pad)

/-- `bitopAnd`: a source that is too short counts as ones. -/
def bitopAnd : List Bytes → Bytes := bitopBy 0xFF fun bs => bs.foldl (· &&& ·) 0xFF

def bitopOr : List Bytes → Bytes := bitopBy 0 fun bs => bs.foldl (· ||| ·) 0

def bitopXor : List Bytes → Bytes := bitopBy 0 fun bs => bs.foldl (· ^^^ ·) 0

def bitopNot (src : Bytes) : Bytes := src.map fun b => ~~~b

/-- `bitopDiff`: with one source its complement. -/
def bitopDiff : List Bytes → Bytes
  | [src] => bitopNot src
  | srcs => bitopAnd [srcs.headD [], bitopNot (bitopOr (srcs.drop 1))]

def bitopDiff1 (srcs : List Bytes) : Bytes := bitopAnd [bitopNot (srcs.headD []), bitopOr (srcs.drop 1)]

def bitopAndOr (srcs : List Bytes) : Bytes := bitopAnd [srcs.headD [], bitopOr (srcs.drop 1)]

/-- `bitopOne`: the bits that one source has. The count of them is a byte. -/
def bitopOne : List Bytes → Bytes := bitopBy 0 fun bs =>
  (List.range 8).foldl (fun out bit =>
    let mask := (1 : UInt8) <<< UInt8.ofNat bit
    if (bs.countP fun b => b &&& mask ≠ 0) % 256 = 1 then out ||| mask else out) 0

def bitopOf (op : Bytes) : Option (List Bytes → Bytes) :=
  if op = "AND" then some bitopAnd
  else if op = "OR" then some bitopOr
  else if op = "XOR" then some bitopXor
  else if op = "NOT" then some fun srcs => bitopNot (srcs.headD [])
  else if op = "DIFF" then some bitopDiff
  else if op = "DIFF1" then some bitopDiff1
  else if op = "ANDOR" then some bitopAndOr
  else if op = "ONE" then some bitopOne
  else none

/-- `execBitOp`. DIFF1 with one source stores a nil slice, ANDOR the slice of the source. -/
def execBitOp (args : List Bytes) : Exec Reply := do
  check (args.length < 3) (.error "ERR wrong number of arguments for 'bitop' command")
  let opStr ← arg args 0
  let op := toUpper opStr
  let dest ← arg args 1
  let f ← require (bitopOf op) (.error "ERR syntax error")
  check (op = "NOT" && args.length ≠ 3) (.error "ERR BITOP NOT requires exactly one source key")
  let srcs ← Prog.fold (args.drop 2) [] fun srcs key => do
    let bs ← getAsString key
    return srcs ++ [bs.getD []]
  if args.length = 3 ∧ op = "ANDOR" then
    let src ← arg args 2
    openBuf src
    putBuf dest
    addAof ("bitop" :: args)
    return .int (srcs.headD []).length
  else if args.length = 3 ∧ op = "DIFF1" then
    freshBuf none
    putBuf dest
    addAof ("bitop" :: args)
    return .int 0
  else
    freshBuf (some (f srcs))
    putBuf dest
    addAof ("bitop" :: args)
    return .int (f srcs).length

end Hayakv.Cmd
