import Hayakv.Cmd.Keys

/-!
# Commands on strings

`internal/command/string.go` and `internal/datastruct/bitmap`.
-/

namespace Hayakv.Cmd

open Engine Engine.Exec

def notInteger : Reply := .error "ERR value is not an integer or out of range"

def bulkOrNull (b : Option Bytes) : Reply := .bulk b

variable (args : List Bytes)

def execGet : Exec Reply := do
  let key ← arg args 0
  let bytes ← getAsString key
  return bulkOrNull bytes

/-! ## Options -/

inductive Policy
  | upsert | insert | update
deriving DecidableEq, Repr

/-- The options of `execSet`; a `ttl` of 0 is none. -/
structure SetOpts where
  policy : Policy
  ttl : Int
  ifeq : Option Bytes
  ifne : Option Bytes
  ifdeq : Option Bytes
  ifdne : Option Bytes
deriving DecidableEq, Repr

def SetOpts.default : SetOpts := ⟨.upsert, 0, none, none, none, none⟩

/-- The value of an option EX or PX: a positive number, in milliseconds by a factor. -/
def parseTTL (cmd : String) (factor : Int) (a : Bytes) : Except Reply Int :=
  match parseInt a with
  | none => .error .syntaxErr
  | some n =>
    if n ≤ 0 then .error (.error ("ERR invalid expire time in " ++ cmd))
    else .ok (wrap64 (n * factor))

def parseSet : SetOpts → List Bytes → Except Reply SetOpts
  | opts, [] => .ok opts
  | opts, a :: args =>
    let opt := toUpper a
    if opt = "NX" then
      if opts.policy = .update then .error .syntaxErr
      else parseSet { opts with policy := .insert } args
    else if opt = "XX" then
      if opts.policy = .insert then .error .syntaxErr
      else parseSet { opts with policy := .update } args
    else if opt = "EX" ∨ opt = "PX" then
      if opts.ttl ≠ 0 then .error .syntaxErr
      else
        match args with
        | [] => .error .syntaxErr
        | v :: args =>
          match parseTTL "set" (if opt = "EX" then 1000 else 1) v with
          | .error r => .error r
          | .ok ttl => parseSet { opts with ttl } args
    else if opt = "IFEQ" then
      match args with
      | [] => .error .syntaxErr
      | v :: args => parseSet { opts with ifeq := some v } args
    else if opt = "IFNE" then
      match args with
      | [] => .error .syntaxErr
      | v :: args => parseSet { opts with ifne := some v } args
    else if opt = "IFDEQ" then
      match args with
      | [] => .error .syntaxErr
      | v :: args => parseSet { opts with ifdeq := some v } args
    else if opt = "IFDNE" then
      match args with
      | [] => .error .syntaxErr
      | v :: args => parseSet { opts with ifdne := some v } args
    else .error .syntaxErr

def setCondition (key : Key) (given : Option Bytes) (fails : Option Bytes → Bytes → Bool) : Exec Unit :=
  whenSome given fun v => do
    let existing ← getAsString key
    check (fails existing v) .nullBulk

variable (env : Env)

/-- `time.Now().Add(time.Duration(ttl) * time.Millisecond)`. -/
def expireIn (ttl : Int) : Int := env.now + GoTime.duration ttl GoTime.msec

/-- The put of a policy, with what it answers. -/
def putBy (policy : Policy) (key : Key) (value : Bytes) : Exec Nat :=
  match policy with
  | .upsert => do
    putStr key (some value)
    return 1
  | .insert => putIfAbsent key value
  | .update => putIfExists key value

def execSet (args : List Bytes) : Exec Reply := do
  let key ← arg args 0
  let value ← arg args 1
  let opts ← orReply (parseSet .default (args.drop 2))
  setCondition key opts.ifeq fun existing v => existing ≠ some v
  setCondition key opts.ifne fun existing v => existing = some v
  setCondition key opts.ifdeq fun existing v => existing.map env.valueDigest ≠ some v
  setCondition key opts.ifdne fun existing v => existing.map env.valueDigest = some v
  let result ← putBy opts.policy key value
  check (result = 0) .nullBulk
  if opts.ttl ≠ 0 then
    expire key (expireIn env opts.ttl)
    addAof ["SET", key, value]
    addAof (makeExpireCmd key (expireIn env opts.ttl))
    return .ok
  else
    persist key
    addAof ("set" :: args)
    return .ok

/-- What the options of GETEX do: whether PERSIST was met, and the time to live or the error. An
unknown option is passed over. -/
def parseGetEX : Bool → Int → List Bytes → Bool × Except Reply Int
  | persisted, ttl, [] => (persisted, .ok ttl)
  | persisted, ttl, a :: args =>
    let opt := toUpper a
    if opt = "EX" ∨ opt = "PX" then
      if ttl ≠ 0 then (persisted, .error .syntaxErr)
      else
        match args with
        | [] => (persisted, .error .syntaxErr)
        | v :: args =>
          match parseTTL "getex" (if opt = "EX" then 1000 else 1) v with
          | .error r => (persisted, .error r)
          | .ok ttl => parseGetEX persisted ttl args
    else if opt = "PERSIST" then
      if ttl ≠ 0 then (persisted, .error .syntaxErr) else parseGetEX true ttl args
    else parseGetEX persisted ttl args

/-- `execGetEX`. The options are worked through after the value was read, and PERSIST takes effect
before those after it are looked at. -/
def execGetEX (args : List Bytes) : Exec Reply := do
  let key ← arg args 0
  let bytes ← getAsString key
  check bytes.isNone .nullBulk
  let (persisted, parsed) := parseGetEX false 0 (args.drop 1)
  when persisted (persist key)
  let ttl ← orReply parsed
  if args.length ≤ 1 then return bulkOrNull bytes
  else if ttl ≠ 0 then
    expire key (expireIn env ttl)
    addAof (makeExpireCmd key (expireIn env ttl))
    return bulkOrNull bytes
  else
    persist key
    addAof ["persist", key]
    return bulkOrNull bytes

def execSetNX : Exec Reply := do
  let key ← arg args 0
  let value ← arg args 1
  let result ← putIfAbsent key value
  addAof ("setnx" :: args)
  return .int result

/-- SETEX and PSETEX, which both log themselves as `setex`. -/
def setEXBy (factor : Int) (env : Env) (args : List Bytes) : Exec Reply := do
  let key ← arg args 0
  let value ← arg args 2
  let text ← arg args 1
  let ttlArg ← require (parseInt text) .syntaxErr
  check (ttlArg ≤ 0) (.error "ERR invalid expire time in setex")
  let expireTime := expireIn env (wrap64 (ttlArg * factor))
  putStr key (some value)
  expire key expireTime
  addAof ("setex" :: args)
  addAof (makeExpireCmd key expireTime)
  return .ok

def execSetEX : Env → List Bytes → Exec Reply := setEXBy 1000

def execPSetEX : Env → List Bytes → Exec Reply := setEXBy 1

/-! ## Several keys -/

/-- The keys of key-value pairs. A last key without a value is none. -/
def pairKeys : List Bytes → List Key
  | k :: _ :: args => k :: pairKeys args
  | _ => []

def pairs : List Bytes → List (Key × Bytes)
  | k :: v :: args => (k, v) :: pairs args
  | _ => []

def execMSet : Exec Reply := do
  check (args.length % 2 ≠ 0) .syntaxErr
  Prog.fold (pairs args) () fun _ (key, value) => putStr key (some value)
  addAof ("mset" :: args)
  return .ok

def execMGet : Exec Reply := do
  let result ← Prog.fold args [] fun (result : List Reply) key => do
    let entity ← getEntity key
    -- a value of another type is nil
    let bytes := match entity.map Entity.asString with
      | some (.ok b) => b
      | _ => none
    return result ++ [.bulk bytes]
  return .array result

def execMSetNX : Exec Reply := do
  check (args.length % 2 ≠ 0) .syntaxErr
  Prog.fold (pairKeys args) () fun _ key => do
    let entity ← getEntity key
    check entity.isSome (.int 0)
  Prog.fold (pairs args) () fun _ (key, value) => putStr key (some value)
  addAof ("msetnx" :: args)
  return .int 1

def execGetSet : Exec Reply := do
  let key ← arg args 0
  let value ← arg args 1
  let old ← getAsString key
  putStr key (some value)
  persist key
  addAof ("set" :: args)
  return bulkOrNull old

def execGetDel : Exec Reply := do
  let key ← arg args 0
  let old ← getAsString key
  check old.isNone .nullBulk
  remove key
  addAof ("del" :: args)
  return bulkOrNull old

/-- The time to live that an option of MSETEX gives, in milliseconds; −2 for a time that has passed. -/
def msetTTL (nowMs : Int) (opt v : Bytes) : Except Reply Int :=
  let until_ (at_ : Int) : Int := if wrap64 (at_ - nowMs) < 0 then -2 else wrap64 (at_ - nowMs)
  match parseInt v with
  | none => .error (.error "ERR invalid expire time in msetex")
  | some n =>
    if n ≤ 0 then .error (.error "ERR invalid expire time in msetex")
    else if opt = "EX" then .ok (wrap64 (n * 1000))
    else if opt = "PX" then .ok n
    else if opt = "EXAT" then .ok (until_ (wrap64 (n * 1000)))
    else .ok (until_ n)

/-- The options of MSETEX: the policy and the time to live, which is −1 for KEEPTTL. -/
def parseMSetEX (nowMs : Int) : Policy → Int → List Bytes → Except Reply (Policy × Int)
  | policy, ttl, [] => .ok (policy, ttl)
  | policy, ttl, a :: args =>
    let opt := toUpper a
    if opt = "NX" then
      if policy = .update then .error .syntaxErr else parseMSetEX nowMs .insert ttl args
    else if opt = "XX" then
      if policy = .insert then .error .syntaxErr else parseMSetEX nowMs .update ttl args
    else if opt = "EX" ∨ opt = "PX" ∨ opt = "EXAT" ∨ opt = "PXAT" then
      if ttl ≠ 0 then .error .syntaxErr
      else
        match args with
        | [] => .error .syntaxErr
        | v :: args =>
          match msetTTL nowMs opt v with
          | .error r => .error r
          | .ok ttl => parseMSetEX nowMs policy ttl args
    else if opt = "KEEPTTL" then parseMSetEX nowMs policy (-1) args
    else .error .syntaxErr

/-- `execMSetEX`. Where NX or XX fails for a key, the other keys are set all the same. -/
def execMSetEX (args : List Bytes) : Exec Reply := do
  check (args.length < 3) .syntaxErr
  let text ← arg args 0
  let numkeys ← require (parseInt text) notInteger
  check (numkeys < 1) notInteger
  let kvEnd := wrap64 (1 + wrap64 (numkeys * 2))
  check (args.length < kvEnd) (.error "ERR wrong number of key-value pairs")
  -- a product that has wrapped is negative, and `args[kvEnd]` panics
  let kvEnd ← orPanic (if kvEnd < 0 then none else some kvEnd.toNat)
  let (policy, ttl) ← orReply (parseMSetEX env.nowMs .upsert 0 (args.drop kvEnd))
  let kvs := pairs ((args.take kvEnd).drop 1)
  let applied ← Prog.fold kvs true fun applied (key, value) => do
    let result ← putBy policy key value
    return applied && 0 < result
  check (!applied) (.int 0)
  when (0 < ttl) (Prog.fold kvs () fun _ (key, _) => expire key (expireIn env ttl))
  when (ttl = -2) (Prog.fold kvs () fun _ (key, _) => expire key env.now)
  addAof ("msetex" :: args)
  return .int 1

/-! ## Numbers -/

/-- INCR and its kin: `op` on the number that is there, or the text and the number of a new one. -/
def incrWith (name : String) (op : Int → Int) (init : Bytes) (initVal : Int) (args : List Bytes) : Exec Reply := do
  let key ← arg args 0
  let bytes ← getAsString key
  match bytes with
  | some b =>
    let val ← require (parseInt b) notInteger
    putStr key (some (itoa (wrap64 (op val))))
    addAof (str name :: args)
    return .int (wrap64 (op val))
  | none =>
    putStr key (some init)
    addAof (str name :: args)
    return .int initVal

def execIncr : List Bytes → Exec Reply := incrWith "incr" (· + 1) "1" 1

def execDecr : List Bytes → Exec Reply := incrWith "decr" (· - 1) "-1" (-1)

/-- `execIncrBy`: a new value is the argument as it is. -/
def execIncrBy : Exec Reply := do
  let rawDelta ← arg args 1
  let delta ← require (parseInt rawDelta) notInteger
  incrWith "incrby" (· + delta) rawDelta delta args

def execDecrBy : Exec Reply := do
  let rawDelta ← arg args 1
  let delta ← require (parseInt rawDelta) notInteger
  incrWith "decrby" (· - delta) (itoa (wrap64 (-delta))) (wrap64 (-delta)) args

def execIncrByFloat (args : List Bytes) : Exec Reply := do
  let key ← arg args 0
  let rawDelta ← arg args 1
  let delta ← require (env.float.parse rawDelta) (.error "ERR value is not a valid float")
  let bytes ← getAsString key
  match bytes with
  | some b =>
    let val ← require (env.float.parse b) (.error "ERR value is not a valid float")
    let result := env.float.format (env.float.add val delta)
    putStr key (some result)
    addAof ("incrbyfloat" :: args)
    return .bulk (some result)
  | none =>
    putStr key (some rawDelta)
    addAof ("incrbyfloat" :: args)
    return .bulk (some rawDelta)

/-! ## Parts of strings -/

def execStrLen : Exec Reply := do
  let key ← arg args 0
  let bytes ← getAsString key
  return .int (bytes.getD []).length

/-- `execAppend`. An empty suffix makes a new key with a nil slice. -/
def execAppend : Exec Reply := do
  let key ← arg args 0
  let suffix ← arg args 1
  let bytes ← getAsString key
  let entity ← getEntity key
  if entity.isSome then
    openBuf key
    editBuf [] [suffix]
    putBuf key
    addAof ("append" :: args)
    return .int ((bytes.getD []).length + suffix.length)
  else
    putStr key (if suffix = [] then none else some suffix)
    addAof ("append" :: args)
    return .int suffix.length

/-- `execSetRange`. A negative offset panics. -/
def execSetRange (args : List Bytes) : Exec Reply := do
  let key ← arg args 0
  let text ← arg args 1
  let offset ← require (parseInt text) (.err (env.parseIntError text))
  let value ← arg args 2
  let bytes ← getAsString key
  let len := (bytes.getD []).length
  check (value = []) (.int len)
  let _ ← orPanic (makeLen 1 (max 0 (offset - len)))
  let offset ← orPanic (if offset < 0 then none else some offset.toNat)
  let inPlace := value.take (len - offset)
  openBuf key
  editBuf ((List.range inPlace.length).zipWith (fun i b => (offset + i, b)) inPlace)
    (List.replicate (offset - len) 0 :: (value.drop (len - offset)).map fun b => [b])
  putBuf key
  addAof ("setRange" :: args)
  return .int (max len (offset + value.length))

/-- `utils.ConvertRange`; `none` for −1. -/
def convertRange (start stop : Int) (size : Nat) : Option (Nat × Nat) :=
  if start < -(size : Int) then none
  else if (size : Int) ≤ start then none
  else if stop < -(size : Int) then none
  else
    let start := if start < 0 then size + start else start
    let stop := if stop < 0 then size + stop + 1 else if stop < size then stop + 1 else size
    if stop < start then none else some (start.toNat, stop.toNat)

def execGetRange : Exec Reply := do
  let key ← arg args 0
  let t₁ ← arg args 1
  let startIdx ← require (parseInt t₁) notInteger
  let t₂ ← arg args 2
  let endIdx ← require (parseInt t₂) notInteger
  let bs ← getAsString key
  let bs ← require bs .nullBulk
  let (beg, stop) ← require (convertRange startIdx endIdx bs.length) .nullBulk
  return .bulk (some ((bs.take stop).drop beg))

/-! ## Bits -/

variable (b : Bytes)

/-- `GetBit`: the bit, `none` for a panic. Offsets from −7 to −1 are in the first byte. -/
def getBit (offset : Int) : Option Nat :=
  let byteIndex := offset.tdiv 8
  if (b.length : Int) ≤ byteIndex then some 0
  else if byteIndex < 0 then none
  else
    match b[byteIndex.toNat]? with
    | some x => some (x.toNat / 2 ^ (7 - offset.tmod 8).toNat % 2)
    | none => none

/-- The bytes that `SetBit` appends, and the byte it writes; `none` for a panic. -/
def setBit (offset : Int) (val : Bool) : Option (Nat × Nat × UInt8) :=
  let byteIndex := offset.tdiv 8
  let mask := UInt8.ofNat (2 ^ (7 - offset.tmod 8).toNat)
  let bitSize := wrap64 (offset + 1)
  let byteSize := bitSize.tdiv 8 + (if bitSize.tmod 8 = 0 then 0 else 1)
  match makeLen 1 (max 0 (byteSize - b.length)) with
  | none => none
  | some gap =>
    if byteIndex < 0 then none
    else
      let x := if byteIndex < b.length then b[byteIndex.toNat]? else
        if byteIndex < b.length + gap then some 0 else none
      x.map fun x => (gap, byteIndex.toNat, if val then x ||| mask else x &&& ~~~mask)

def parseBit (s : Bytes) : Option Bool := if s = "1" then some true else if s = "0" then some false else none

/-- `SetBit` on the slice worked on, whose bytes are `b`: its bytes afterwards. -/
def writeBit (offset : Int) (val : Bool) : Exec Bytes := do
  let (gap, i, x) ← orPanic (setBit b offset val)
  editBuf (if i < b.length then [(i, x)] else [])
    [if i < b.length then [] else (List.replicate gap 0).set (i - b.length) x]
  return (b ++ List.replicate gap 0).set i x

def execSetBit : Exec Reply := do
  let key ← arg args 0
  let text ← arg args 1
  let offset ← require (parseInt text) (.error "ERR bit offset is not an integer or out of range")
  let valStr ← arg args 2
  let v ← require (parseBit valStr) (.error "ERR bit is not an integer or out of range")
  let bs ← getAsString key
  let bs := bs.getD []
  let former ← orPanic (getBit bs offset)
  openBuf key
  let _ ← writeBit bs offset v
  putBuf key
  addAof ("setBit" :: args)
  return .int former

def execGetBit : Exec Reply := do
  let key ← arg args 0
  let text ← arg args 1
  let offset ← require (parseInt text) (.error "ERR bit offset is not an integer or out of range")
  let bs ← getAsString key
  let bs ← require bs (.int 0)
  let bit ← orPanic (getBit bs offset)
  return .int bit

/-- The bits of a string, the most significant of each byte first. -/
def bitsOf : List Bool := b.flatMap fun x => (List.range 8).map fun i => x.toNat.testBit (7 - i)

/-- The bits that `ForEachBit` visits: all for `stop = 0`, and at least one. -/
def forEachBit (beg stop : Nat) : List Bool :=
  let rest := (bitsOf b).drop beg
  if stop = 0 then rest else rest.take (max 1 (stop - beg))

/-- The bytes that `ForEachByte` visits: all for `stop = 0`. -/
def forEachByte (beg stop : Nat) : Bytes := (if stop = 0 then b else b.take stop).drop beg

/-- The argument BIT or BYTE: whether bytes are counted. -/
def parseBitMode (i : Nat) : Except Reply Bool :=
  match args[i]? with
  | none => .ok true
  | some mode =>
    if toLower mode = "bit" then .ok false
    else if toLower mode = "byte" then .ok true
    else .error (.error "ERR syntax error")

/-- The range of BITCOUNT and BITPOS from argument `i` on. -/
def bitRange (i size : Nat) : Exec (Nat × Nat) :=
  if args.length ≤ i then pure (0, 0) else do
    let t₁ ← arg args i
    let startIdx ← require (parseInt t₁) notInteger
    let t₂ ← arg args (i + 1)
    let endIdx ← require (parseInt t₂) notInteger
    require (convertRange startIdx endIdx size) (.int 0)

def execBitCount : Exec Reply := do
  let key ← arg args 0
  let bs ← getAsString key
  let bs ← require bs (.int 0)
  let byteMode ← orReply (parseBitMode args 3)
  let (beg, stop) ← bitRange args 1 (if byteMode then bs.length else 8 * bs.length)
  let visited := if byteMode then bitsOf (forEachByte bs beg stop) else forEachBit bs beg stop
  return .int (visited.count true)

def execBitPos : Exec Reply := do
  let key ← arg args 0
  let bs ← getAsString key
  let bs ← require bs (.int (-1))
  let valStr ← arg args 1
  let v ← require (parseBit valStr) (.error "ERR bit is not an integer or out of range")
  let byteMode ← orReply (parseBitMode args 4)
  let (beg, stop) ← bitRange args 2 (if byteMode then bs.length else 8 * bs.length)
  let (beg, stop) := if byteMode then (8 * beg, 8 * stop) else (beg, stop)
  return .int (match (forEachBit bs beg stop).findIdx? (· = v) with
    | some i => (beg + i : Int)
    | none => -1)

def getRandomKey (_args : List Bytes) : Exec Reply := do
  let all ← keys
  return .bulk (env.randomKey all)

end Hayakv.Cmd
