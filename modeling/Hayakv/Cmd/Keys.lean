import Hayakv.Engine.State

/-!
# Commands on keys

`internal/command/keys.go`.
-/

namespace Hayakv.Cmd

open Engine Engine.Exec GoTime

/-- `Removes`: the number of keys that were there. -/
def removes (keys : List Key) : Exec Nat :=
  Prog.fold keys 0 fun deleted key => do
    let found ← rawExists key
    when found (remove key)
    return if found then deleted + 1 else deleted

variable (args : List Bytes)

def execDel : Exec Reply := do
  let deleted ← removes args
  when (0 < deleted) (addAof ("del" :: args))
  return .int deleted

/-- The value of a string, `none` if there is no key (or a nil slice). -/
def Entity.asString (e : Entity) : Except Reply (Option Bytes) :=
  match e.value with
  | .str _ b => .ok b
  | .coll _ => .error .wrongType

def getAsString (key : Key) : Exec (Option Bytes) := do
  let entity ← getEntity key
  orReply ((entity.map Entity.asString).getD (.ok none))

variable (env : Env)

/-- The conditions of DELEX on the present value; `none` if there is no such condition. -/
def delExHolds (cond current condVal : Bytes) : Option Bool :=
  if cond = "IFEQ" then some (current = condVal)
  else if cond = "IFNE" then some (current ≠ condVal)
  else if cond = "IFDEQ" then some (env.valueDigest current = condVal)
  else if cond = "IFDNE" then some (env.valueDigest current ≠ condVal)
  else none

def execDelEX (args : List Bytes) : Exec Reply := do
  check (args.length < 1 || 3 < args.length) (.error "ERR wrong number of arguments for 'delex' command")
  let key ← arg args 0
  if args.length = 1 then
    let entity ← getEntity key
    check entity.isNone (.int 0)
    remove key
    addAof ("delex" :: args)
    return .int 1
  else
    check (args.length ≠ 3) (.error "ERR wrong number of arguments for 'delex' command")
    let cond ← arg args 1
    let condVal ← arg args 2
    let current ← getAsString key
    -- an unknown condition is an error for a missing key too
    let holds ← require (delExHolds env (toUpper cond) (current.getD []) condVal)
      (.error "ERR Invalid condition. Use IFEQ, IFNE, IFDEQ, or IFDNE")
    check (current.isNone || !holds) (.int 0)
    remove key
    addAof ("delex" :: args)
    return .int 1

def execExists : Exec Reply := do
  let result ← Prog.fold args 0 fun (result : Nat) key => do
    let entity ← getEntity key
    return if entity.isSome then result + 1 else result
  return .int result

/-- The name of the type of an entity. A bare `*object.List` or `*object.ZSet` has none. -/
def Entity.typeName (e : Entity) : Bytes :=
  match e.robj, e.value with
  | false, .coll (.list _) | false, .coll (.zset _) => []
  | _, v => v.typeName

def getType (key : Key) : Exec Bytes := do
  let entity ← getEntity key
  return (entity.map Entity.typeName).getD "none"

def execType : Exec Reply := do
  let key ← arg args 0
  let result ← getType key
  return if result ≠ [] then .status result else .error "Err unknown"

def execRename : Exec Reply := do
  check (args.length ≠ 2) (.error "ERR wrong number of arguments for 'rename' command")
  let src ← arg args 0
  let dest ← arg args 1
  let entity ← getEntity src
  check entity.isNone (.error "no such key")
  let ttl ← getTTL src
  putFrom dest src
  remove src
  whenSome ttl fun expireTime => do
    persist src
    persist dest
    expire dest expireTime
  addAof ("rename" :: args)
  return .ok

def execRenameNx : Exec Reply := do
  let src ← arg args 0
  let dest ← arg args 1
  let found ← getEntity dest
  check found.isSome (.int 0)
  let entity ← getEntity src
  check entity.isNone (.error "no such key")
  let ttl ← getTTL src
  let _ ← removes [src, dest]
  putFrom dest src
  whenSome ttl fun expireTime => do
    persist src
    persist dest
    expire dest expireTime
  addAof ("renamenx" :: args)
  return .int 1

/-! ## Expiry -/

/-- The bit flags of `parseExpireOption`. -/
structure ExpireOpts where
  nx : Bool
  xx : Bool
  gt : Bool
  lt : Bool
deriving DecidableEq, Repr

def ExpireOpts.none : ExpireOpts := ⟨false, false, false, false⟩

def expireFlags : ExpireOpts → List Bytes → Except Reply ExpireOpts
  | opts, [] => .ok opts
  | opts, a :: args =>
    let opt := toUpper a
    if opt = "NX" then expireFlags { opts with nx := true } args
    else if opt = "XX" then expireFlags { opts with xx := true } args
    else if opt = "GT" then expireFlags { opts with gt := true } args
    else if opt = "LT" then expireFlags { opts with lt := true } args
    else .error (.err ("ERR Unsupported option " ++ a))

def parseExpireOption : Except Reply ExpireOpts :=
  match expireFlags .none args with
  | .error r => .error r
  | .ok opts =>
    if opts.nx && (opts.xx || opts.gt || opts.lt) then
      .error (.error "ERR NX and XX, GT or LT options at the same time are not compatible")
    else if opts.gt && opts.lt then
      .error (.error "ERR GT and LT options at the same time are not compatible")
    else .ok opts

/-- `checkExpireOption`, given the present expiry. -/
def checkExpireOption (ttl : Option Int) (opts : ExpireOpts) (expireAt : Int) : Bool :=
  match ttl with
  | some t =>
    !opts.nx && (!opts.gt || t < expireAt) && (!opts.lt || expireAt < t)
  | none => !opts.xx && !opts.gt

def makeExpireCmd (key : Key) (expireAt : Int) : CmdLine := ["PEXPIREAT", key, itoa (logMilli expireAt)]

/-- EXPIRE and its kin, which differ in what time the argument stands for. -/
def expireBy (expireAt : Int → Int) (args : List Bytes) : Exec Reply := do
  let key ← arg args 0
  let text ← arg args 1
  let raw ← require (parseInt text) (.error "ERR value is not an integer or out of range")
  let entity ← getEntity key
  check entity.isNone (.int 0)
  let opts ← orReply (parseExpireOption (args.drop 2))
  let ttl ← getTTL key
  check (!checkExpireOption ttl opts (expireAt raw)) (.int 0)
  expire key (expireAt raw)
  addAof (makeExpireCmd key (expireAt raw))
  return .int 1

def execExpire : List Bytes → Exec Reply := expireBy fun ttl => env.now + duration ttl second

def execPExpire : List Bytes → Exec Reply := expireBy fun ttl => env.now + duration ttl msec

def execExpireAt : List Bytes → Exec Reply := expireBy unixSec

def execPExpireAt : List Bytes → Exec Reply := expireBy fun ms => unixNsec (duration ms msec)

/-- TTL and its kin: −2 without the key, −1 without an expiry. -/
def ttlBy (ofExpiry : Int → Int) (args : List Bytes) : Exec Reply := do
  let key ← arg args 0
  let entity ← getEntity key
  check entity.isNone (.int (-2))
  let ttl ← getTTL key
  return .int ((ttl.map ofExpiry).getD (-1))

def execExpireTime : List Bytes → Exec Reply := ttlBy unix

def execPExpireTime : List Bytes → Exec Reply := ttlBy unixMilli

def execTTL : List Bytes → Exec Reply := ttlBy fun t => env.float.roundSeconds (sub t env.now)

def execPTTL : List Bytes → Exec Reply := ttlBy fun t => quot (sub t env.now) msec

def execPersist : Exec Reply := do
  let key ← arg args 0
  let entity ← getEntity key
  check entity.isNone (.int 0)
  let ttl ← getTTL key
  check ttl.isNone (.int 0)
  persist key
  addAof ("persist" :: args)
  return .int 1

/-! ## Enumeration -/

def execKeys (args : List Bytes) : Exec Reply := do
  let text ← arg args 0
  let isMatch ← require (env.compilePattern text) (.error "ERR illegal wildcard")
  let all ← keys
  let result ← Prog.fold (all.filter isMatch) [] fun result key => do
    let dead ← isExpired key
    return if dead then result else result ++ [key]
  return .multiBulk result

structure ScanOpts where
  count : Int
  pattern : Bytes
  type : Bytes
deriving DecidableEq, Repr

def ScanOpts.default : ScanOpts := ⟨10, "*", []⟩

/-- The options of SCAN and its kin; the value of the last option may be missing, which panics. -/
def parseScan (withType : Bool) : ScanOpts → List Bytes → Except Exit ScanOpts
  | opts, [] => .ok opts
  | opts, a :: args =>
    let opt := toLower a
    if opt = "count" then
      match args with
      | [] => .error .panic
      | n :: args =>
        match parseInt n with
        | none => .error (.reply .syntaxErr)
        | some count => parseScan withType { opts with count } args
    else if opt = "match" then
      match args with
      | [] => .error .panic
      | pattern :: args => parseScan withType { opts with pattern } args
    else if withType && opt = "type" then
      match args with
      | [] => .error .panic
      | t :: args => parseScan withType { opts with type := toLower t } args
    else .error (.reply .syntaxErr)

def scanReply (cursor : Int) (found : List Reply) : Reply := .array [.bulk (some (itoa cursor)), .array found]

def execScan (args : List Bytes) : Exec Reply := do
  let opts ← orExit (parseScan true .default (args.drop 1))
  let text ← arg args 0
  let cursor ← require (parseInt text) (.error "ERR invalid cursor")
  let all ← keys
  let (found, next) := env.dictScan all cursor opts.count opts.pattern
  check (next < 0) (.error "Invalid argument")
  let found ← if opts.type = [] then pure found else
    Prog.fold found [] fun result key => do
      let t ← getType key
      return if t = opts.type then result ++ [key] else result
  return scanReply next (found.map fun k => .bulk (some k))

end Hayakv.Cmd
