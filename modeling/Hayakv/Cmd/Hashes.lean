import Hayakv.Cmd.Lists

/-!
# Commands on hashes

`internal/command/hash.go`. Most commands purge the expired fields of a hash when they get it, those
that create one do not. The RDB loader installs a bare `dict.Dict`, which reading commands wrap (and
which has no field expiries), and which is of the wrong type for the commands that create a hash.
-/

namespace Hayakv.Cmd

open Engine Engine.Exec

def Entity.asHash (e : Entity) : Except Reply HashObj :=
  match e.value with
  | .coll (.hash h) => .ok h
  | _ => .error .wrongType

/-- As for a command that may create the hash: a bare dict is of the wrong type. -/
def Entity.asRobjHash (e : Entity) : Except Reply HashObj :=
  match e.robj, e.value with
  | true, .coll (.hash h) => .ok h
  | _, _ => .error .wrongType

variable (env : Env)

def getAsHash (key : Key) : Exec (Option HashObj) := do
  let found ← getAs Entity.asHash key
  when found.isSome (purge key)
  return found.map (·.purgeExpiredFields env.nowMs)

/-- `getOrInitHash`, with whether the hash is new. -/
def getOrInitHash (key : Key) : Exec (HashObj × Bool) := do
  let found ← getAs Entity.asRobjHash key
  when found.isNone (putColl key (.hash .new))
  return (found.getD .new, found.isNone)

/-- `Put` one pair after another, with the number of fields added. -/
def putPairs (t : EncodingThresholds) : HashObj → List Bytes → HashObj × Nat
  | h, f :: v :: rest =>
    let (h, n) := h.put t f v
    let (h, m) := putPairs t h rest
    (h, n + m)
  | h, _ => (h, 0)

def execHSet (args : List Bytes) : Exec Reply := do
  check (args.length < 3 || args.length % 2 ≠ 1) .syntaxErr
  let key ← arg args 0
  let (hash, _) ← getOrInitHash key
  let (hash, result) := putPairs env.thresholds hash (args.drop 1)
  store key (.hash hash)
  addAof ("hset" :: args)
  return .int result

def execHMSet (args : List Bytes) : Exec Reply := do
  check (args.length % 2 ≠ 1) .syntaxErr
  let key ← arg args 0
  let (hash, _) ← getOrInitHash key
  store key (.hash (putPairs env.thresholds hash (args.drop 1)).1)
  addAof ("hmset" :: args)
  return .ok

def execHSetNX (args : List Bytes) : Exec Reply := do
  let key ← arg args 0
  let field ← arg args 1
  let value ← arg args 2
  let (hash, _) ← getOrInitHash key
  let (hash, result) := hash.putIfAbsent env.thresholds field value
  store key (.hash hash)
  when (0 < result) (addAof ("hsetnx" :: args))
  return .int result

def readHash (args : List Bytes) (absent : Reply) (answer : HashObj → Reply) : Exec Reply := do
  let key ← arg args 0
  let hash ← getAsHash env key
  return (hash.map answer).getD absent

def execHGet (args : List Bytes) : Exec Reply := do
  let field ← arg args 1
  readHash env args .nullBulk fun h => .bulk (h.get field)

def execHExists (args : List Bytes) : Exec Reply := do
  let field ← arg args 1
  readHash env args (.int 0) fun h => .int (if (h.get field).isSome then 1 else 0)

def execHLen (args : List Bytes) : Exec Reply := readHash env args (.int 0) fun h => .int h.len

def execHStrlen (args : List Bytes) : Exec Reply := do
  let field ← arg args 1
  readHash env args (.int 0) fun h => .int ((h.get field).getD []).length

def execHMGet (args : List Bytes) : Exec Reply :=
  let fields := args.drop 1
  readHash env args (.array (fields.map fun _ => .bulk none)) fun h =>
    .array (fields.map fun f => .bulk (h.get f))

def execHKeys (args : List Bytes) : Exec Reply :=
  readHash env args .emptyMultiBulk fun h => .multiBulk (h.fields.map Prod.fst)

def execHVals (args : List Bytes) : Exec Reply :=
  readHash env args .emptyMultiBulk fun h => .multiBulk (h.fields.map Prod.snd)

def execHGetAll (args : List Bytes) : Exec Reply :=
  readHash env args .emptyMultiBulk fun h => .multiBulk (h.fields.flatMap fun (f, v) => [f, v])

/-- `Remove` one field after another, with the number of fields removed. -/
def removeFields : HashObj → List Bytes → HashObj × Nat
  | h, [] => (h, 0)
  | h, f :: fs =>
    let (h, n) := h.remove f
    let (h, m) := removeFields h fs
    (h, n + m)

def execHDel (args : List Bytes) : Exec Reply := do
  let key ← arg args 0
  let hash ← getAsHash env key
  let hash ← require hash (.int 0)
  let (hash, deleted) := removeFields hash (args.drop 1)
  store key (.hash hash)
  when (hash.len = 0) (remove key)
  when (0 < deleted) (addAof ("hdel" :: args))
  return .int deleted

/-- HINCRBY and HINCRBYFLOAT: a new field gets the argument as it is. -/
def hincrBy (name : String) (next : Bytes → Except Reply (Bytes × Reply)) (initReply : Reply) (env : Env)
    (args : List Bytes) : Exec Reply := do
  let key ← arg args 0
  let field ← arg args 1
  let rawDelta ← arg args 2
  let (hash, _) ← getOrInitHash key
  let (value, r) ← orReply (match hash.get field with
    | none => .ok (rawDelta, initReply)
    | some v => next v)
  store key (.hash (hash.put env.thresholds field value).1)
  addAof (str name :: args)
  return r

def execHIncrBy (args : List Bytes) : Exec Reply := do
  let rawDelta ← arg args 2
  let delta ← require (parseInt rawDelta) notInteger
  hincrBy "hincrby" (fun v =>
    match parseInt v with
    | none => .error (.error "ERR hash value is not an integer")
    | some n => .ok (itoa (wrap64 (n + delta)), .int (wrap64 (n + delta)))) (.int delta) env args

def execHIncrByFloat (args : List Bytes) : Exec Reply := do
  let rawDelta ← arg args 2
  let delta ← require (env.float.parse rawDelta) (.error "ERR value is not a valid float")
  hincrBy "hincrbyfloat" (fun v =>
    match env.float.parse v with
    | none => .error (.error "ERR hash value is not a float")
    | some x =>
      let result := env.float.format (env.float.add x delta)
      .ok (result, .bulk (some result))) (.bulk (some rawDelta)) env args

/-- The fields that `RandomDistinctKeys` and `RandomKeys` choose: the first ones, or all of them in
turn. -/
def randomFields (h : HashObj) (count : Int) : List Bytes :=
  let names := h.fields.map Prod.fst
  if 0 ≤ count then names.take count.toNat
  else (List.range (-count).toNat).filterMap fun i => names[i % names.length]?

def execHRandField (args : List Bytes) : Exec Reply := do
  let key ← arg args 0
  check (3 < args.length) (.error "ERR wrong number of arguments for 'hrandfield' command")
  check (args[2]?.any fun a => toLower a ≠ "withvalues") .syntaxErr
  let count ← require ((args[1]?.map parseInt).getD (some 1)) notInteger
  let hash ← getAsHash env key
  let hash ← require hash .emptyMultiBulk
  check (count = 0) .emptyMultiBulk
  let _ ← orPanic (makeLen 16 (max 0 (-count)))
  let fields := randomFields hash count
  return if args.length = 3 then .array (fields.flatMap fun f => [.bulk (some f), .bulk (hash.get f)])
    else .multiBulk fields

/-- The loop of `Hash.Scan` and `SetScan` over the sorted keys, with what a key adds to the result. -/
def scanFrom (pattern : Bytes) (emit : Bytes → List Reply) (most : Int) (isMatch : Bytes → Bool) :
    List Bytes → Nat → List Reply → List Reply × Int
  | [], i, found => (found, i)
  | k :: ks, i, found =>
    if most ≤ (found.length : Int) then (found, i)
    else if pattern = "*" || isMatch k then scanFrom pattern emit most isMatch ks (i + 1) (found ++ emit k)
    else scanFrom pattern emit most isMatch ks (i + 1) found

/-- Both: what is found from the cursor on, and the next cursor. -/
def scanSorted (keys : List Bytes) (emit : Bytes → List Reply) (most cursor : Int) (pattern : Bytes) :
    Option (List Reply × Int) :=
  let all := sortBy bytesLt keys
  if all = [] then some ([], 0)
  else
    match env.compilePattern pattern with
    | none => some ([], -1)
    | some isMatch =>
      if cursor < 0 then if 0 < most then none else some ([], cursor)
      else
        let (found, next) := scanFrom pattern emit most isMatch (all.drop cursor.toNat) cursor.toNat []
        some (found, if (all.length : Int) ≤ next then 0 else next)

/-- `Hash.Scan`. -/
def scanHash (h : HashObj) (cursor count : Int) : Bytes → Option (List Reply × Int) :=
  scanSorted env (h.fields.map Prod.fst) (fun k => [.bulk (some k), .bulk (h.get k)]) (wrap64 (2 * count)) cursor

def execHScan (args : List Bytes) : Exec Reply := do
  let opts ← orExit (parseScan false .default (args.drop 2))
  check (args.length < 2) .syntaxErr
  let key ← arg args 0
  let hash ← getAsHash env key
  let hash ← require hash .nullBulk
  let text ← arg args 1
  let cursor ← require (parseInt text) (.error "ERR invalid cursor")
  let (found, next) ← orPanic (scanHash env hash cursor opts.count opts.pattern)
  check (next < 0) (.error "Invalid argument")
  return scanReply next found

end Hayakv.Cmd
