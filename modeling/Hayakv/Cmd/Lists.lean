import Hayakv.Cmd.Strings

/-!
# Commands on lists

`internal/command/list.go`. A list that LTRIM has emptied keeps its key.
-/

namespace Hayakv.Cmd

open Engine Engine.Exec

/-- The value of an entity, if there is one, seen as one of its type. -/
def getAs {α : Type} (view : Entity → Except Reply α) (key : Key) : Exec (Option α) := do
  let entity ← getEntity key
  orReply (match entity with
    | none => .ok none
    | some e => (view e).map some)

/-- Read the structure held for a key once more. -/
def loadAs {α : Type} (view : Coll → Option α) (key : Key) : Exec α := do
  let c ← load key
  orPanic (c.bind view)

def Coll.asList : Coll → Option ListObj
  | .list l => some l
  | _ => none

def Entity.asList (e : Entity) : Except Reply ListObj :=
  match e.value with
  | .coll (.list l) => .ok l
  | _ => .error .wrongType

def getAsList : Key → Exec (Option ListObj) := getAs Entity.asList

def getOrInitList (key : Key) : Exec ListObj := do
  let found ← getAsList key
  when found.isNone (putColl key (.list .new))
  return found.getD .new

/-- An index that may count from the end, within the list. -/
def listIndex (index : Int) (size : Nat) : Option Nat :=
  if index < -(size : Int) then none
  else if index < 0 then some (size + index).toNat
  else if (size : Int) ≤ index then none
  else some index.toNat

variable (args : List Bytes)

def execLIndex : Exec Reply := do
  let key ← arg args 0
  let text ← arg args 1
  let index ← require (parseInt text) notInteger
  let list ← getAsList key
  let list ← require list .nullBulk
  let index ← require (listIndex index list.len) .nullBulk
  return .bulk (list.get index)

def execLLen : Exec Reply := do
  let key ← arg args 0
  let list ← getAsList key
  return .int ((list.map ListObj.len).getD 0)

def popMany (left : Bool) (count : Nat) (l : ListObj) : List Bytes × ListObj :=
  if left then (l.elems.take count, { l with elems := l.elems.drop count })
  else (l.elems.reverse.take count, { l with elems := l.elems.take (l.len - count) })

def popOne (left : Bool) (l : ListObj) : Option (Option Bytes × ListObj) :=
  if left then l.removeFirst else some l.removeLast

/-- `execLPop` and `execRPop`. -/
def popBy (name : String) (left : Bool) (args : List Bytes) : Exec Reply := do
  let key ← arg args 0
  let list ← getAsList key
  let list ← require list .nullBulk
  if args.length = 2 then
    let text ← arg args 1
    let count ← require (parseInt text) notInteger
    let count ← orPanic (makeLen 24 (min count list.len))
    let (vals, rest) := popMany left count list
    store key (.list rest)
    when (rest.len = 0) (remove key)
    addAof (str name :: args)
    return .multiBulk vals
  else
    let (val, rest) ← orPanic (popOne left list)
    store key (.list rest)
    when (rest.len = 0) (remove key)
    addAof (str name :: args)
    return .bulk val

def execLPop : List Bytes → Exec Reply := popBy "lpop" true

def execRPop : List Bytes → Exec Reply := popBy "rpop" false

def pushLeft (t : EncodingThresholds) (l : ListObj) (values : List Bytes) : ListObj :=
  values.foldl (fun l v => l.insert t 0 v) l

def pushRight (t : EncodingThresholds) (l : ListObj) (values : List Bytes) : ListObj :=
  values.foldl (fun l v => l.add t v) l

def pushBy (name : String) (push : EncodingThresholds → ListObj → List Bytes → ListObj) (env : Env)
    (args : List Bytes) : Exec Reply := do
  let key ← arg args 0
  let list ← getOrInitList key
  let list := push env.thresholds list (args.drop 1)
  store key (.list list)
  addAof (str name :: args)
  return .int list.len

def pushXBy (name : String) (push : EncodingThresholds → ListObj → List Bytes → ListObj) (env : Env)
    (args : List Bytes) : Exec Reply := do
  let key ← arg args 0
  let list ← getAsList key
  let list ← require list (.int 0)
  let list := push env.thresholds list (args.drop 1)
  store key (.list list)
  addAof (str name :: args)
  return .int list.len

def execLPush : Env → List Bytes → Exec Reply := pushBy "lpush" pushLeft

def execRPush : Env → List Bytes → Exec Reply := pushBy "rpush" pushRight

def execLPushX : Env → List Bytes → Exec Reply := pushXBy "lpushx" pushLeft

def execRPushX (env : Env) (args : List Bytes) : Exec Reply := do
  check (args.length < 2) (.error "ERR wrong number of arguments for 'rpush' command")
  pushXBy "rpushx" pushRight env args

/-- The bounds of LRANGE; `none` for an empty reply. -/
def listRange (start stop : Int) (size : Nat) : Option (Nat × Nat) :=
  if (size : Int) ≤ start then none
  else
    let start := if start < -(size : Int) then 0 else if start < 0 then size + start else start
    let stop := if stop < -(size : Int) then 0
      else if stop < 0 then size + stop + 1
      else if stop < size then stop + 1 else size
    some (start.toNat, (max start stop).toNat)

def execLRange : Exec Reply := do
  let key ← arg args 0
  let t₁ ← arg args 1
  let start ← require (parseInt t₁) notInteger
  let t₂ ← arg args 2
  let stop ← require (parseInt t₂) notInteger
  let list ← getAsList key
  let list ← require list .emptyMultiBulk
  let (start, stop) ← require (listRange start stop list.len) .emptyMultiBulk
  let slice ← orPanic (list.range start stop)
  return .multiBulk slice

def lremBy (count : Int) (value : Bytes) (l : ListObj) : Option ListObj :=
  if count = 0 then l.removeAllByVal value
  else if 0 < count then some (l.removeByVal value count.toNat)
  else some (l.reverseRemoveByVal value (wrap64 (-count)))

def execLRem : Exec Reply := do
  let key ← arg args 0
  let text ← arg args 1
  let count ← require (parseInt text) notInteger
  let value ← arg args 2
  let list ← getAsList key
  let list ← require list (.int 0)
  let rest ← orPanic (lremBy count value list)
  store key (.list rest)
  when (rest.len = 0) (remove key)
  when (rest.len < list.len) (addAof ("lrem" :: args))
  return .int (list.len - rest.len)

def execLSet : Exec Reply := do
  let key ← arg args 0
  let text ← arg args 1
  let index ← require (parseInt text) notInteger
  let value ← arg args 2
  let list ← getAsList key
  let list ← require list (.error "ERR no such key")
  let index ← require (listIndex index list.len) (.error "ERR index out of range")
  store key (.list (list.set index value))
  addAof ("lset" :: args)
  return .ok

/-- `execRPopLPush`. The two lists may be one. -/
def execRPopLPush (env : Env) (args : List Bytes) : Exec Reply := do
  let sourceKey ← arg args 0
  let destKey ← arg args 1
  let source ← getAsList sourceKey
  check source.isNone .nullBulk
  let _ ← getOrInitList destKey
  let source ← loadAs Coll.asList sourceKey
  let (val, rest) := source.removeLast
  store sourceKey (.list rest)
  let dest ← loadAs Coll.asList destKey
  store destKey (.list (dest.insert env.thresholds 0 (val.getD [])))
  let source ← loadAs Coll.asList sourceKey
  when (source.len = 0) (remove sourceKey)
  addAof ("rpoplpush" :: args)
  return .bulk val

def trimList (start stop : Int) (l : ListObj) : ListObj :=
  let start := if start < 0 then start + l.len else start
  let stop := if stop < 0 then stop + l.len else stop
  let rest := l.elems.drop start.toNat
  { l with elems := rest.take (rest.length - (l.len - stop - 1).toNat) }

def execLTrim : Exec Reply := do
  check (args.length ≠ 3) (.err ("ERR wrong number of arguments (given " ++ itoa args.length ++ ", expected 3)"))
  let key ← arg args 0
  let t₁ ← arg args 1
  let start ← require (parseInt t₁) notInteger
  let t₂ ← arg args 2
  let stop ← require (parseInt t₂) notInteger
  let list ← getAsList key
  let list ← require list .ok
  store key (.list (trimList start stop list))
  addAof ("ltrim" :: args)
  return .ok

/-- BLPOP and BRPOP, as far as they do not block. -/
def blockPopBy (name : String) (left : Bool) (args : List Bytes) : Exec Reply := do
  Prog.fold args.dropLast () fun _ key => do
    let list ← getAsList key
    whenSome (list.filter (0 < ·.len)) fun list => do
      let (val, rest) ← orPanic (popOne left list)
      store key (.list rest)
      when (rest.len = 0) (remove key)
      addAof (str name :: args)
      reply (.array [.bulk (some key), .bulk val])
  return .nullBulk

def execBLPop : List Bytes → Exec Reply := blockPopBy "blpop" true

def execBRPop : List Bytes → Exec Reply := blockPopBy "brpop" false

def execLInsert (env : Env) (args : List Bytes) : Exec Reply := do
  check (args.length ≠ 4) (.error "ERR wrong number of arguments for 'linsert' command")
  let key ← arg args 0
  let list ← getAsList key
  let list ← require list (.int 0)
  let dir ← arg args 1
  check (toLower dir ≠ "before" && toLower dir ≠ "after") (.error "ERR syntax error")
  let pivot ← arg args 2
  let index ← require (list.elems.findIdx? (· = pivot)) (.int (-1))
  let val ← arg args 3
  let list := list.insert env.thresholds (if toLower dir = "before" then index else index + 1) val
  store key (.list list)
  addAof ("linsert" :: args)
  return .int list.len

/-! ## LPOS and LMPOP -/

/-- The options of LPOS; a negative `count` asks for one index, a negative `maxlen` is no bound. -/
structure LPosOpts where
  rank : Int
  count : Int
  maxlen : Int
deriving DecidableEq, Repr

def LPosOpts.default : LPosOpts := ⟨1, -1, -1⟩

def parseLPos : LPosOpts → List Bytes → Except Reply LPosOpts
  | opts, [] => .ok opts
  | opts, a :: args =>
    let opt := toUpper a
    if opt = "RANK" ∨ opt = "COUNT" ∨ opt = "MAXLEN" then
      match args with
      | [] => .error (.error "ERR syntax error")
      | v :: args =>
        match parseInt v with
        | none => .error notInteger
        | some n =>
          if opt = "RANK" then
            if n = 0 then .error (.error "ERR RANK can't be zero: use 1 to start from the first match, 2 from the second ... or use negative to start from the end of the list")
            else parseLPos { opts with rank := n } args
          else if n < 0 then .error notInteger
          else if opt = "COUNT" then parseLPos { opts with count := n } args
          else parseLPos { opts with maxlen := n } args
    else .error (.error "ERR syntax error")

/-- The indices of LPOS; `none` where there are fewer matches than a negative rank asks for. -/
def lposMatches (opts : LPosOpts) (element : Bytes) (l : ListObj) : Option (List Nat) :=
  let limit := if 0 ≤ opts.maxlen then min opts.maxlen.toNat l.len else l.len
  let all := (List.range limit).filter fun i => l.get i = some element
  if 0 < opts.rank then
    let rest := all.drop (opts.rank.toNat - 1)
    some (if opts.count < 0 then rest.take 1 else if opts.count = 0 then rest
      else rest.take opts.count.toNat)
  else
    let start := all.length + opts.rank
    if start < 0 then none
    else if opts.count < 0 then some ((all.drop start.toNat).take 1)
    else
      -- `start + count` may wrap, and then there are no matches
      let stop := min (wrap64 (start + opts.count)) all.length
      some ((all.drop start.toNat).take (stop - start).toNat)

def execLPos : Exec Reply := do
  check (args.length < 2) (.error "ERR wrong number of arguments for 'lpos' command")
  let key ← arg args 0
  let element ← arg args 1
  let opts ← orReply (parseLPos .default (args.drop 2))
  let absent := if 0 ≤ opts.count then .emptyMultiBulk else .nullBulk
  let list ← getAsList key
  let list ← require list absent
  let found ← require (lposMatches opts element list) absent
  let first ← require found.head? absent
  return if 0 ≤ opts.count then .array (found.map fun i => .int i) else .int first

/-- The tail of LMPOP and ZMPOP: an optional COUNT. -/
def parseCount : Except Reply Int :=
  match args with
  | [] => .ok 1
  | opt :: rest =>
    if toUpper opt = "COUNT" then
      match rest with
      | [] => .error (.error "ERR syntax error")
      | c :: _ =>
        match parseInt c with
        | some n => if n < 1 then .error notInteger else .ok n
        | none => .error notInteger
    else .error (.error "ERR syntax error")

def execLMPop : Exec Reply := do
  check (args.length < 3) (.error "ERR wrong number of arguments for 'lmpop' command")
  let text ← arg args 0
  let numKeys ← require (parseInt text) notInteger
  check (numKeys < 1) notInteger
  check (args.length < wrap64 (numKeys + 2)) (.error "ERR wrong number of arguments for 'lmpop' command")
  let direction ← arg args (numKeys.toNat + 1)
  check (toUpper direction ≠ "LEFT" && toUpper direction ≠ "RIGHT") (.error "ERR syntax error")
  let count ← orReply (parseCount (args.drop (numKeys.toNat + 2)))
  Prog.fold ((args.drop 1).take numKeys.toNat) () fun _ key => do
    let list ← getAsList key
    whenSome (list.filter (0 < ·.len)) fun list => do
      let (vals, rest) := popMany (toUpper direction = "LEFT") (min count.toNat list.len) list
      store key (.list rest)
      when (rest.len = 0) (remove key)
      addAof ("lmpop" :: args)
      reply (.array [.bulk (some key), .multiBulk vals])
  return .nullBulk

end Hayakv.Cmd
