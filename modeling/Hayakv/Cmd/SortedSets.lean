import Hayakv.Cmd.Lists

/-!
# Commands on sorted sets

`internal/command/sortedset.go`. Only ZMPOP deletes the key of a sorted set that it has emptied.
-/

namespace Hayakv.Cmd

open Engine Engine.Exec

def Entity.asZSet (e : Entity) : Except Reply ZSetObj :=
  match e.value with
  | .coll (.zset z) => .ok z
  | _ => .error .wrongType

def getAsZSet : Key → Exec (Option ZSetObj) := getAs Entity.asZSet

def getOrInitZSet (key : Key) : Exec ZSetObj := do
  let found ← getAsZSet key
  when found.isNone (putColl key (.zset .new))
  return found.getD .new

def notFloat : Reply := .error "ERR value is not a valid float"

/-- The score-member pairs of ZADD; `none` if a score is no number. -/
def parseScores (f : FloatOps) : List Bytes → Option (List (Bytes × UInt64))
  | s :: m :: rest =>
    match f.parse s with
    | none => none
    | some score => (parseScores f rest).map ((m, score) :: ·)
  | _ => some []

/-- `Add` one pair after another, with the number of members added. -/
def addScores (t : EncodingThresholds) : ZSetObj → List (Bytes × UInt64) → ZSetObj × Nat
  | z, [] => (z, 0)
  | z, (m, score) :: rest =>
    let (z, new) := z.add t m score
    let (z, n) := addScores t z rest
    (z, if new then n + 1 else n)

variable (env : Env)

def execZAdd (args : List Bytes) : Exec Reply := do
  check (args.length % 2 ≠ 1) .syntaxErr
  let key ← arg args 0
  let elements ← require (parseScores env.float (args.drop 1)) notFloat
  let zset ← getOrInitZSet key
  let (zset, added) := addScores env.thresholds zset elements
  store key (.zset zset)
  -- `syncZSetEncodingAfterWrite`
  let _ ← getEntity key
  addAof ("zadd" :: args)
  return .int added

/-- `execZIncrBy`: a new member's reply is the argument as it is. -/
def execZIncrBy (args : List Bytes) : Exec Reply := do
  let key ← arg args 0
  let rawDelta ← arg args 1
  let field ← arg args 2
  let delta ← require (env.float.parse rawDelta) notFloat
  let zset ← getOrInitZSet key
  let score := (zset.get field).elim delta (env.float.add · delta)
  store key (.zset (zset.add env.thresholds field score).1)
  let _ ← getEntity key
  addAof ("zincrby" :: args)
  return .bulk (some (if (zset.get field).isSome then env.float.format score else rawDelta))

variable (args : List Bytes)

/-- A command that looks at a sorted set. -/
def readZSet (absent : Reply) (answer : ZSetObj → Reply) : Exec Reply := do
  let key ← arg args 0
  let zset ← getAsZSet key
  return (zset.map answer).getD absent

def execZScore (args : List Bytes) : Exec Reply := do
  let member ← arg args 1
  readZSet args .nullBulk fun z => .bulk ((z.get member).map env.float.format)

def rankBy (desc : Bool) (env : Env) (args : List Bytes) : Exec Reply := do
  let member ← arg args 1
  readZSet args .nullBulk fun z => ((z.getRank env.float member desc).map fun r => .int r).getD .nullBulk

def execZRank : Env → List Bytes → Exec Reply := rankBy false

def execZRevRank : Env → List Bytes → Exec Reply := rankBy true

def execZCard : Exec Reply := readZSet args (.int 0) fun z => .int z.len

def elementsReply (f : FloatOps) (withScores : Bool) (es : List (Bytes × UInt64)) : Reply :=
  .multiBulk (if withScores then es.flatMap fun (m, s) => [m, f.format s] else es.map Prod.fst)

def range0 (key : Key) (start stop : Int) (withScores desc : Bool) : Exec Reply := do
  let zset ← getAsZSet key
  let zset ← require zset .emptyMultiBulk
  let (start, stop) ← require (listRange start stop zset.len) .emptyMultiBulk
  let slice ← orPanic (zset.rangeByRank env.float start stop desc)
  return elementsReply env.float withScores slice

/-- ZRANGE and ZREVRANGE, which differ in how they read WITHSCORES. -/
def zrangeBy (name : String) (fold : Bytes → Bytes) (desc : Bool) (env : Env) (args : List Bytes) : Exec Reply := do
  check (args.length ≠ 3 && args.length ≠ 4) (.error ("ERR wrong number of arguments for '" ++ name ++ "' command"))
  check (args[3]?.any fun a => fold a ≠ "WITHSCORES") (.error "syntax error")
  let key ← arg args 0
  let t₁ ← arg args 1
  let start ← require (parseInt t₁) notInteger
  let t₂ ← arg args 2
  let stop ← require (parseInt t₂) notInteger
  range0 env key start stop (args.length = 4) desc

def execZRange : Env → List Bytes → Exec Reply := zrangeBy "zrange" toUpper false

def execZRevRange : Env → List Bytes → Exec Reply := zrangeBy "zrevrange" id true

/-! ## Borders -/

/-- `ParseScoreBorder`. An empty argument panics. -/
def parseScoreBorder (f : FloatOps) (s : Bytes) : Except Exit Border :=
  let notFloat : Exit := .reply (.error "ERR min or max is not a float")
  if s = "inf" ∨ s = "+inf" then .ok .posInf
  else if s = "-inf" then .ok .negInf
  else
    match s with
    | [] => .error .panic
    | 40 :: s => ((f.parse s).map fun v => .ok (.score 0 v true)).getD (.error notFloat)
    | s => ((f.parse s).map fun v => .ok (.score 0 v false)).getD (.error notFloat)

/-- `ParseLexBorder`. An empty argument panics. -/
def parseLexBorder (s : Bytes) : Except Exit Border :=
  if s = "+" then .ok (.lex 1 [] false)
  else if s = "-" then .ok (.lex (-1) [] false)
  else
    match s with
    | [] => .error .panic
    | 40 :: s => .ok (.lex 0 s true)
    | 91 :: s => .ok (.lex 0 s false)
    | _ => .error (.reply (.error "ERR min or max not valid string range item"))

def execZCount (args : List Bytes) : Exec Reply := do
  let key ← arg args 0
  let t₁ ← arg args 1
  let lo ← orExit (parseScoreBorder env.float t₁)
  let t₂ ← arg args 2
  let hi ← orExit (parseScoreBorder env.float t₂)
  let zset ← getAsZSet key
  let zset ← require zset (.int 0)
  let n ← orPanic (zset.rangeCount env.float lo hi)
  return .int n

def execZLexCount (args : List Bytes) : Exec Reply := do
  let key ← arg args 0
  let zset ← getAsZSet key
  let zset ← require zset (.int 0)
  let t₁ ← arg args 1
  let lo ← orExit (parseLexBorder t₁)
  let t₂ ← arg args 2
  let hi ← orExit (parseLexBorder t₂)
  let n ← orPanic (zset.rangeCount env.float lo hi)
  return .int n

structure ByScoreOpts where
  withScores : Bool
  offset : Int
  limit : Int
deriving DecidableEq, Repr

def parseByScore : ByScoreOpts → List Bytes → Except Reply ByScoreOpts
  | opts, [] => .ok opts
  | opts, a :: args =>
    if toUpper a = "WITHSCORES" then parseByScore { opts with withScores := true } args
    else if toUpper a = "LIMIT" then
      match args with
      | o :: l :: args =>
        match parseInt o, parseInt l with
        | some offset, some limit => parseByScore { opts with offset, limit } args
        | _, _ => .error notInteger
      | _ => .error (.error "ERR syntax error")
    else .error (.error "ERR syntax error")

/-- `execZRangeByScore` and `execZRevRangeByScore`, which has the borders the other way round. -/
def rangeByScoreBy (desc : Bool) (env : Env) (args : List Bytes) : Exec Reply := do
  check (args.length < 3) (.error "ERR wrong number of arguments for 'zrangebyscore' command")
  let key ← arg args 0
  let tmin ← arg args (if desc then 2 else 1)
  let lo ← orExit (parseScoreBorder env.float tmin)
  let tmax ← arg args (if desc then 1 else 2)
  let hi ← orExit (parseScoreBorder env.float tmax)
  let opts ← orReply (parseByScore ⟨false, 0, -1⟩ (args.drop 3))
  let zset ← getAsZSet key
  let zset ← require zset .emptyMultiBulk
  return elementsReply env.float opts.withScores (zset.range env.float lo hi opts.offset opts.limit desc)

def execZRangeByScore : Env → List Bytes → Exec Reply := rangeByScoreBy false

def execZRevRangeByScore : Env → List Bytes → Exec Reply := rangeByScoreBy true

/-- `LIMIT offset count` of ZRANGEBYLEX. -/
def parseLexLimit : Except Reply (Int × Int) :=
  match args with
  | [_, o, c] =>
    match parseInt o with
    | none => .error notInteger
    | some offset =>
      if offset < 0 then .error .emptyMultiBulk
      else
        match parseInt c with
        | none => .error notInteger
        | some count => .ok (offset, if 0 ≤ count then count else 2 ^ 63 - 1)
  | _ => .ok (0, 2 ^ 63 - 1)

/-- `execZRangeByLex` and `execZRevRangeByLex`, which has the borders the other way round. -/
def rangeByLexBy (desc : Bool) (env : Env) (args : List Bytes) : Exec Reply := do
  check (args[3]?.any fun a => toLower a ≠ "limit") (.error "ERR syntax error")
  check (args.length ≠ 3 && args.length ≠ 6) (.error "ERR wrong number of arguments for 'zrangebylex' command")
  let key ← arg args 0
  let zset ← getAsZSet key
  let zset ← require zset (.int 0)
  let tmin ← arg args (if desc then 2 else 1)
  let lo ← orExit (parseLexBorder tmin)
  let tmax ← arg args (if desc then 1 else 2)
  let hi ← orExit (parseLexBorder tmax)
  let (offset, limit) ← orReply (parseLexLimit (args.drop 3))
  return elementsReply env.float false (zset.range env.float lo hi offset limit desc)

def execZRangeByLex : Env → List Bytes → Exec Reply := rangeByLexBy false

def execZRevRangeByLex : Env → List Bytes → Exec Reply := rangeByLexBy true

/-! ## Removal -/

def execZRemRangeByScore (args : List Bytes) : Exec Reply := do
  check (args.length ≠ 3) (.error "ERR wrong number of arguments for 'zremrangebyscore' command")
  let key ← arg args 0
  let t₁ ← arg args 1
  let lo ← orExit (parseScoreBorder env.float t₁)
  let t₂ ← arg args 2
  let hi ← orExit (parseScoreBorder env.float t₂)
  let zset ← getAsZSet key
  let zset ← require zset .emptyMultiBulk
  let (rest, removed) := zset.removeRange env.float lo hi
  store key (.zset rest)
  when (0 < removed) (addAof ("zremrangebyscore" :: args))
  return .int removed

/-- `execZRemRangeByLex`. It logs nothing. -/
def execZRemRangeByLex (args : List Bytes) : Exec Reply := do
  check (args.length ≠ 3) (.error "ERR wrong number of arguments for 'zremrangebylex' command")
  let key ← arg args 0
  let zset ← getAsZSet key
  let zset ← require zset (.int 0)
  let t₁ ← arg args 1
  let lo ← orExit (parseLexBorder t₁)
  let t₂ ← arg args 2
  let hi ← orExit (parseLexBorder t₂)
  let (rest, count) := zset.removeRange env.float lo hi
  store key (.zset rest)
  return .int count

def execZRemRangeByRank (args : List Bytes) : Exec Reply := do
  let key ← arg args 0
  let t₁ ← arg args 1
  let start ← require (parseInt t₁) notInteger
  let t₂ ← arg args 2
  let stop ← require (parseInt t₂) notInteger
  let zset ← getAsZSet key
  let zset ← require zset (.int 0)
  let (start, stop) ← require (listRange start stop zset.len) (.int 0)
  let (rest, removed) := zset.removeByRank env.float start stop
  store key (.zset rest)
  when (0 < removed) (addAof ("zremrangebyrank" :: args))
  return .int removed

def execZPopMin (args : List Bytes) : Exec Reply := do
  let key ← arg args 0
  let count ← require ((args[1]?.map parseInt).getD (some 1)) notInteger
  let zset ← getAsZSet key
  let zset ← require zset .emptyMultiBulk
  let (rest, removed) ← orPanic (zset.popMin env.float count)
  store key (.zset rest)
  when (removed ≠ []) (addAof ("zpopmin" :: args))
  return elementsReply env.float true removed

def execZRem : Exec Reply := do
  let key ← arg args 0
  let zset ← getAsZSet key
  let zset ← require zset (.int 0)
  let rest := zset.removeAll (args.drop 1)
  store key (.zset rest)
  when (rest.len < zset.len) (addAof ("zrem" :: args))
  return .int (zset.len - rest.len)

/-- `ZSetScan`: the cursor and the count are not looked at. -/
def scanZSet (z : ZSetObj) (pattern : Bytes) : List Reply × Int :=
  match env.compilePattern pattern with
  | none => ([], -1)
  | some isMatch =>
    let format := if z.isListpack then env.float.format else env.float.format10
    ((z.entries.filter fun (m, _) => pattern = "*" || isMatch m).flatMap fun (m, s) =>
      [.bulk (some m), .bulk (some (format s))], 0)

def execZScan (args : List Bytes) : Exec Reply := do
  let opts ← orExit (parseScan false .default (args.drop 2))
  let key ← arg args 0
  let zset ← getAsZSet key
  let zset ← require zset .emptyMultiBulk
  let text ← arg args 1
  let _ ← require (parseInt text) (.error "ERR invalid cursor")
  let (found, next) := scanZSet env zset opts.pattern
  check (next < 0) (.error "Invalid argument")
  return scanReply next found

def execZMPop (args : List Bytes) : Exec Reply := do
  check (args.length < 3) (.error "ERR wrong number of arguments for 'zmpop' command")
  let text ← arg args 0
  let numKeys ← require (parseInt text) notInteger
  check (numKeys < 1) notInteger
  check (args.length < wrap64 (numKeys + 2)) (.error "ERR wrong number of arguments for 'zmpop' command")
  let direction ← arg args (numKeys.toNat + 1)
  check (toUpper direction ≠ "MIN" && toUpper direction ≠ "MAX") (.error "ERR syntax error")
  let count ← orReply (parseCount (args.drop (numKeys.toNat + 2)))
  Prog.fold ((args.drop 1).take numKeys.toNat) () fun _ key => do
    let zset ← getAsZSet key
    whenSome (zset.filter (0 < ·.len)) fun zset => do
      let slice := (zset.ranked env.float (toUpper direction = "MAX")).take count.toNat
      let rest := zset.removeAll (slice.map Prod.fst)
      store key (.zset rest)
      let _ ← getEntity key
      when (rest.len = 0) (remove key)
      addAof ("zmpop" :: args)
      reply (.array [.bulk (some key),
        .array (slice.map fun (m, s) => .array [.bulk (some m), .bulk (some (env.float.format s))])])
  return .nullBulk

end Hayakv.Cmd
