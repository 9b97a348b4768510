import Hayakv.Cmd.Hashes

/-!
# Expiry of hash fields

`internal/command/hash_ttl.go`. Field expiries are absolute times in milliseconds.
-/

namespace Hayakv.Cmd

open Engine Engine.Exec

/-- `FIELDS numfields` and what is after it, `width` arguments for each field, at the end of `total`
arguments. How too few arguments are answered is up to the caller. -/
def parseFields (total width : Nat) (tooFew : Reply) (args : List Bytes) : Except Exit (List Bytes) :=
  match args with
  | kw :: n :: rest =>
    if toUpper kw ≠ "FIELDS" then .error (.reply .syntaxErr)
    else
      match parseInt n with
      | none => .error (.reply notInteger)
      | some numFields =>
        if numFields < 0 then .error (.reply notInteger)
        -- the sum may wrap, and then the slice of fields is too large to make
        else if total < wrap64 (total - rest.length + wrap64 (numFields * width)) then
          .error (.reply tooFew)
        else if rest.length < numFields.toNat * width then .error .panic
        else .ok (rest.take (numFields.toNat * width))
  | _ => .error (.reply .syntaxErr)

/-- The value of an expiry option of a hash field, in milliseconds. EXAT and PXAT are taken like EX
and PX, as times from now. -/
def fieldTTL (cmd : String) (opt v : Bytes) : Except Reply Int :=
  match parseInt v with
  | none => .error (.error ("ERR invalid expire time in '" ++ cmd ++ "' command"))
  | some n =>
    if n ≤ 0 then .error (.error ("ERR invalid expire time in '" ++ cmd ++ "' command"))
    else if opt = "EX" ∨ opt = "EXAT" then .ok (wrap64 (n * 1000))
    else .ok n

def isFieldTTLOpt (opt : Bytes) : Bool := opt = "EX" || opt = "PX" || opt = "EXAT" || opt = "PXAT"

/-- The options of HGETEX before FIELDS: the change of the expiry (0 for none, −1 for PERSIST), and
the rest. -/
def parseHGetEx : Int → List Bytes → Except Reply (Int × List Bytes)
  | ttl, [] => .ok (ttl, [])
  | ttl, a :: args =>
    let opt := toUpper a
    if opt = "FIELDS" then .ok (ttl, a :: args)
    else if isFieldTTLOpt opt then
      if ttl ≠ 0 then .error .syntaxErr
      else
        match args with
        | [] => .error .syntaxErr
        | v :: args =>
          match fieldTTL "hgetex" opt v with
          | .error r => .error r
          | .ok ttl => parseHGetEx ttl args
    else if opt = "PERSIST" then
      if ttl ≠ 0 then .error .syntaxErr else parseHGetEx (-1) args
    else .error .syntaxErr

def touchFields (nowMs ttl : Int) (h : HashObj) (fields : List Bytes) : HashObj :=
  if 0 < ttl then
    fields.foldl (fun h f =>
      if (h.get f).isSome then h.setFieldExpire f (wrap64 (nowMs + ttl)) else h) h
  else if ttl = -1 then fields.foldl (fun h f => (h.persistField f).1) h
  else h

/-- `execHGetEx`. It logs nothing. -/
def execHGetEx (env : Env) (args : List Bytes) : Exec Reply := do
  let key ← arg args 0
  let (ttl, rest) ← orReply (parseHGetEx 0 (args.drop 1))
  let fields ← orExit (parseFields args.length 1 .syntaxErr rest)
  let hash ← getAsHash env key
  let hash ← require hash (.array (fields.map fun _ => .bulk none))
  when (0 < ttl || ttl = -1) (store key (.hash (touchFields env.nowMs ttl hash fields)))
  return .array (fields.map fun f => .bulk (hash.get f))

def dropFields (h : HashObj) (fields : List Bytes) : HashObj :=
  fields.foldl (fun h f => ((h.remove f).1.persistField f).1) h

def execHGetDel (env : Env) (args : List Bytes) : Exec Reply := do
  let key ← arg args 0
  let fields ← orExit (parseFields args.length 1 .syntaxErr (args.drop 1))
  let hash ← getAsHash env key
  let hash ← require hash (.array (fields.map fun _ => .bulk none))
  let rest := dropFields hash fields
  store key (.hash rest)
  when (rest.len = 0) (remove key)
  addAof ("hgetdel" :: args)
  return .array (fields.map fun f => .bulk (hash.get f))

/-! ## HSETEX -/

/-- FNX and FXX at the front of HSETEX: whether one is there, and which. -/
inductive FieldCond
  | always | fnx | fxx
deriving DecidableEq, Repr

def parseFieldCond : FieldCond → List Bytes → Except Reply (FieldCond × List Bytes)
  | cond, [] => .ok (cond, [])
  | cond, a :: args =>
    let opt := toUpper a
    if opt = "FNX" ∨ opt = "FXX" then
      if cond ≠ .always then .error .syntaxErr
      else parseFieldCond (if opt = "FNX" then .fnx else .fxx) args
    else .ok (cond, a :: args)

/-- The expiry options of HSETEX, and the rest. -/
def parseHSetEx : Int → Bool → List Bytes → Except Reply (Int × Bool × List Bytes)
  | ttl, keep, [] => .ok (ttl, keep, [])
  | ttl, keep, a :: args =>
    let opt := toUpper a
    if opt = "FIELDS" then .ok (ttl, keep, a :: args)
    else if isFieldTTLOpt opt then
      if ttl ≠ 0 || keep then .error .syntaxErr
      else
        match args with
        | [] => .error .syntaxErr
        | v :: args =>
          match fieldTTL "hsetex" opt v with
          | .error r => .error r
          | .ok ttl => parseHSetEx ttl keep args
    else if opt = "KEEPTTL" then
      if ttl ≠ 0 then .error .syntaxErr else parseHSetEx ttl true args
    else .error .syntaxErr

def setFieldEx (env : Env) (cond : FieldCond) (ttl : Int) (keep : Bool) (h : HashObj) (f v : Bytes) : HashObj × Nat :=
  let present := (h.get f).isSome
  let put := (h.put env.thresholds f v).1
  let expireAt := wrap64 (env.nowMs + ttl)
  match cond with
  | .fnx =>
    if present then (h, 0) else (if 0 < ttl then put.setFieldExpire f expireAt else put, 1)
  | .fxx =>
    if !present then (h, 0)
    else if !keep && 0 < ttl then (put.setFieldExpire f expireAt, 1)
    else if !keep && ttl = 0 then ((put.persistField f).1, 1)
    else (put, 1)
  | .always => (if 0 < ttl then put.setFieldExpire f expireAt else put, 1)

def setFieldsEx (env : Env) (cond : FieldCond) (ttl : Int) (keep : Bool) : HashObj → List Bytes → HashObj × Nat
  | h, f :: v :: rest =>
    let (h, n) := setFieldEx env cond ttl keep h f v
    let (h, m) := setFieldsEx env cond ttl keep h rest
    (h, n + m)
  | h, _ => (h, 0)

def execHSetEx (env : Env) (args : List Bytes) : Exec Reply := do
  let key ← arg args 0
  let (cond, rest) ← orReply (parseFieldCond .always (args.drop 1))
  let (ttl, keep, rest) ← orReply (parseHSetEx 0 false rest)
  let pairs ← orExit (parseFields args.length 2 .syntaxErr rest)
  let (hash, inited) ← getOrInitHash key
  let (hash, setCount) := setFieldsEx env cond ttl keep (hash.purgeExpiredFields env.nowMs) pairs
  store key (.hash hash)
  when (0 < setCount || inited) (addAof ("hsetex" :: args))
  return .int setCount

/-! ## The HEXPIRE family -/

def parseHExpireArgs (args : List Bytes) : Except Exit (ExpireOpts × List Bytes) :=
  let opt := (args.head?.map toUpper).getD []
  let mismatch := .error "ERR number of fields and number of arguments mismatch"
  let fields (opts : ExpireOpts) (rest : List Bytes) := (parseFields args.length 1 mismatch rest).map (opts, ·)
  if opt = "NX" then fields { ExpireOpts.none with nx := true } (args.drop 1)
  else if opt = "XX" then fields { ExpireOpts.none with xx := true } (args.drop 1)
  else if opt = "GT" then fields { ExpireOpts.none with gt := true } (args.drop 1)
  else if opt = "LT" then fields { ExpireOpts.none with lt := true } (args.drop 1)
  else fields .none args

def parseHFieldsArgs (args : List Bytes) : Except Exit (List Bytes) :=
  parseFields args.length 1 (.error "ERR number of fields and number of arguments mismatch") (args.drop 1)

/-- `checkHFieldExpireOption`. Unlike for keys, GT holds for a field without an expiry. -/
def checkHFieldExpireOption (current : Option Int) (opts : ExpireOpts) (expireAtMs : Int) : Bool :=
  match current with
  | some t => !opts.nx && (!opts.gt || t < expireAtMs) && (!opts.lt || expireAtMs < t)
  | none => !opts.xx

/-- `hExpireFields`: the hash and the result for each field. -/
def hExpireFields (opts : ExpireOpts) (expireAtMs : Int) : HashObj → List Bytes → HashObj × List Reply
  | h, [] => (h, [])
  | h, f :: fs =>
    let (h, r) : HashObj × Int :=
      if (h.get f).isNone then (h, -2)
      else if !checkHFieldExpireOption (h.getFieldExpire f) opts expireAtMs then (h, 0)
      else (h.setFieldExpire f expireAtMs, 1)
    let (h, rs) := hExpireFields opts expireAtMs h fs
    (h, .int r :: rs)

/-- HEXPIRE and its kin, which differ in what time the argument stands for. -/
def hexpireBy (name : String) (expireAtMs : Int → Int) (env : Env) (args : List Bytes) : Exec Reply := do
  let key ← arg args 0
  let text ← arg args 1
  let raw ← require (parseInt text) notInteger
  let (opts, fields) ← orExit (parseHExpireArgs (args.drop 2))
  let hash ← getAsHash env key
  let hash ← require hash (.array (fields.map fun _ => .int (-2)))
  addAof (str name :: args)
  let (hash, results) := hExpireFields opts (expireAtMs raw) hash fields
  store key (.hash hash)
  return .array results

def execHExpire (env : Env) : List Bytes → Exec Reply :=
  hexpireBy "hexpire" (fun seconds => wrap64 (env.nowMs + wrap64 (seconds * 1000))) env

def execHPExpire (env : Env) : List Bytes → Exec Reply := hexpireBy "hpexpire" (fun ms => wrap64 (env.nowMs + ms)) env

def execHExpireAt : Env → List Bytes → Exec Reply := hexpireBy "hexpireat" fun sec => wrap64 (sec * 1000)

def execHPExpireAt : Env → List Bytes → Exec Reply := hexpireBy "hpexpireat" id

/-- HTTL and its kin, which differ in what they answer of an expiry. -/
def httlBy (answer : Int → Int) (env : Env) (args : List Bytes) : Exec Reply := do
  let key ← arg args 0
  let fields ← orExit (parseHFieldsArgs args)
  let hash ← getAsHash env key
  return .array (fields.map fun f => .int (
    match hash with
    | none => -2
    | some h =>
      if (h.get f).isNone then -2
      else
        match h.getFieldExpire f with
        | none => -1
        | some t => answer t))

def execHTTL (env : Env) : List Bytes → Exec Reply :=
  httlBy (fun t => if wrap64 (t - env.nowMs) ≤ 0 then -2 else GoTime.quot (wrap64 (t - env.nowMs)) 1000) env

def execHPTTL (env : Env) : List Bytes → Exec Reply :=
  httlBy (fun t => if wrap64 (t - env.nowMs) ≤ 0 then -2 else wrap64 (t - env.nowMs)) env

def execHExpireTime : Env → List Bytes → Exec Reply := httlBy fun t => GoTime.quot t 1000

def execHPExpireTime : Env → List Bytes → Exec Reply := httlBy id

def persistFields : HashObj → List Bytes → HashObj × List Reply
  | h, [] => (h, [])
  | h, f :: fs =>
    let (h, r) : HashObj × Int :=
      if (h.get f).isNone then (h, -2)
      else if (h.getFieldExpire f).isNone then (h, -1)
      else ((h.persistField f).1, 1)
    let (h, rs) := persistFields h fs
    (h, .int r :: rs)

/-- `execHPersist`. It logs itself for a missing key too. -/
def execHPersist (env : Env) (args : List Bytes) : Exec Reply := do
  let key ← arg args 0
  let fields ← orExit (parseHFieldsArgs args)
  let hash ← getAsHash env key
  match hash with
  | none =>
    addAof ("hpersist" :: args)
    return .array (fields.map fun _ => .int (-2))
  | some h =>
    let (h, results) := persistFields h fields
    store key (.hash h)
    addAof ("hpersist" :: args)
    return .array results

end Hayakv.Cmd
