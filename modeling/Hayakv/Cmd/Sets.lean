import Hayakv.Cmd.Hashes

/-!
# Commands on sets

`internal/command/set.go`. The RDB loader installs a bare `set.Set`, of which a command gets a copy:
what it changes there is lost.
-/

namespace Hayakv.Cmd

open Engine Engine.Exec

variable (t : EncodingThresholds)

/-- A set, and whether the command has the stored one or a copy. -/
def Entity.asSet (e : Entity) : Except Reply (SetObj × Bool) :=
  match e.robj, e.value with
  | true, .coll (.set s) => .ok (s, true)
  | false, .coll (.set s) => .ok ((SetObj.new.addAll t s.members).1, false)
  | _, _ => .error .wrongType

variable (env : Env)

def getAsSet : Key → Exec (Option (SetObj × Bool)) := getAs (Entity.asSet env.thresholds)

def getOrInitSet (key : Key) : Exec (SetObj × Bool) := do
  let found ← getAsSet env key
  when found.isNone (putColl key (.set .new))
  return found.getD (.new, true)

def execSAdd (args : List Bytes) : Exec Reply := do
  let key ← arg args 0
  let (set, own) ← getOrInitSet env key
  let (set, counter) := set.addAll env.thresholds (args.drop 1)
  when own (store key (.set set))
  -- `syncSetEncodingAfterWrite`
  let _ ← getEntity key
  addAof ("sadd" :: args)
  return .int counter

def readSet (args : List Bytes) (absent : Reply) (answer : SetObj → Reply) : Exec Reply := do
  let key ← arg args 0
  let set ← getAsSet env key
  return (set.map fun (s, _) => answer s).getD absent

def memberReply (s : SetObj) (member : Bytes) : Reply := .int (if s.has member then 1 else 0)

def execSIsMember (args : List Bytes) : Exec Reply := do
  let member ← arg args 1
  readSet env args (.int 0) fun s => memberReply s member

def execSMIsMember (args : List Bytes) : Exec Reply := do
  check (args.length < 2) (.error "ERR wrong number of arguments for 'smismember' command")
  readSet env args (.array ((args.drop 1).map fun _ => .int 0)) fun s =>
    .array ((args.drop 1).map (memberReply s))

def execSCard (args : List Bytes) : Exec Reply := readSet env args (.int 0) fun s => .int s.len

def execSMembers (args : List Bytes) : Exec Reply := readSet env args .emptyMultiBulk fun s => .multiBulk s.members

/-- `Remove` one member after another, with the number of members removed. -/
def removeMembers : SetObj → List Bytes → SetObj × Nat
  | s, [] => (s, 0)
  | s, m :: ms =>
    let (s, n) := s.remove m
    let (s, k) := removeMembers s ms
    (s, n + k)

def execSRem (args : List Bytes) : Exec Reply := do
  let key ← arg args 0
  let set ← getAsSet env key
  let (set, own) ← require set (.int 0)
  let (set, counter) := removeMembers set (args.drop 1)
  when own (store key (.set set))
  when (set.len = 0) (remove key)
  when (0 < counter) (addAof ("srem" :: args))
  return .int counter

/-- Swap two elements. -/
def swapAt (xs : List Bytes) (i j : Nat) : List Bytes :=
  match xs[i]?, xs[j]? with
  | some a, some b => (xs.set i b).set j a
  | _, _ => xs

/-- `RandomDistinctMembers`: the front of a shuffled list. -/
def randomDistinctMembers (s : SetObj) (limit : Nat) : Exec (List Bytes) := do
  let limit := min limit s.len
  let shuffled ← Prog.fold (List.range limit) s.members fun members i => do
    let r ← rand
    return swapAt members i (i + r.toNat % (members.length - i))
  return shuffled.take limit

def randomMembers (s : SetObj) (limit : Nat) : Exec (List Bytes) :=
  if s.members = [] then pure []
  else
    Prog.fold (List.range limit) [] fun result _ => do
      let r ← rand
      return result ++ [s.members.getD (r.toNat % s.len) []]

/-- `execSPop`. A set that it empties keeps its key. -/
def execSPop (args : List Bytes) : Exec Reply := do
  check (args.length ≠ 1 && args.length ≠ 2) (.error "ERR wrong number of arguments for 'spop' command")
  let key ← arg args 0
  let set ← getAsSet env key
  let (set, own) ← require set .nullBulk
  let count ← require ((args[1]?.map parseInt).getD (some 1)) (.error "ERR value is out of range, must be positive")
  check (count ≤ 0) (.error "ERR value is out of range, must be positive")
  let members ← randomDistinctMembers set count.toNat
  when own (store key (.set (removeMembers set members).1))
  when (members ≠ []) (addAof ("spop" :: args))
  return if args.length = 1 then .bulk members.head? else .multiBulk members

def execSRandMember (args : List Bytes) : Exec Reply := do
  check (args.length ≠ 1 && args.length ≠ 2) (.error "ERR wrong number of arguments for 'srandmember' command")
  let key ← arg args 0
  let set ← getAsSet env key
  let (set, _) ← require set .nullBulk
  if args.length = 1 then
    let members ← randomMembers set 1
    let m ← orPanic members.head?
    return .bulk (some m)
  else
    let text ← arg args 1
    let count ← require (parseInt text) notInteger
    if 0 < count then
      let members ← randomDistinctMembers set count.toNat
      return .multiBulk members
    else if count < 0 then
      let limit ← orPanic (if set.members = [] then some 0 else makeLen 16 (wrap64 (-count)))
      let members ← randomMembers set limit
      return .multiBulk members
    else return .emptyMultiBulk

/-! ## Set algebra -/

/-- The sets of keys, in order; a missing key has the empty set. Where `stop` is given, an empty set
ends the command with it. -/
def getSets (stop : Option Reply) (keys : List Key) : Exec (List SetObj) :=
  Prog.fold keys [] fun sets key => do
    let set ← getAsSet env key
    let set := (set.map Prod.fst).getD .new
    whenSome (stop.filter fun _ => set.len = 0) reply
    return sets ++ [set]

def objectIntersect (sets : List SetObj) : SetObj :=
  let visits := sets.flatMap SetObj.members
  (SetObj.new.addAll t (visits.dedup.filter fun m => visits.count m = sets.length)).1

def objectUnion (sets : List SetObj) : SetObj := (SetObj.new.addAll t (sets.flatMap SetObj.members)).1

def objectDiff : List SetObj → SetObj
  | [] => .new
  | s :: sets =>
    sets.foldl (fun r s => (removeMembers r s.members).1) (SetObj.new.addAll t s.members).1

def execSInter (args : List Bytes) : Exec Reply := do
  let sets ← getSets env (some .emptyMultiBulk) args
  return .multiBulk (objectIntersect env.thresholds sets).members

def execSUnion (args : List Bytes) : Exec Reply := do
  let sets ← getSets env none args
  return .multiBulk (objectUnion env.thresholds sets).members

def execSDiff (args : List Bytes) : Exec Reply := do
  let sets ← getSets env none args
  return .multiBulk (objectDiff env.thresholds sets).members

/-- `execSInterStore`: the expiry of the destination stays. -/
def execSInterStore (args : List Bytes) : Exec Reply := do
  let dest ← arg args 0
  let sets ← getSets env (some (.int 0)) (args.drop 1)
  let result := objectIntersect env.thresholds sets
  putColl dest (.set result)
  addAof ("sinterstore" :: args)
  return .int result.len

/-- SUNIONSTORE and SDIFFSTORE. An empty result deletes the destination without a word in the log. -/
def setStoreBy (name : String) (op : EncodingThresholds → List SetObj → SetObj) (env : Env)
    (args : List Bytes) : Exec Reply := do
  let dest ← arg args 0
  let sets ← getSets env none (args.drop 1)
  let result := op env.thresholds sets
  remove dest
  check (result.len = 0) (.int 0)
  putColl dest (.set result)
  addAof (str name :: args)
  return .int result.len

def execSUnionStore : Env → List Bytes → Exec Reply := setStoreBy "sunionstore" objectUnion

def execSDiffStore : Env → List Bytes → Exec Reply := setStoreBy "sdiffstore" objectDiff

/-- `SetScan`. -/
def scanSet (s : SetObj) (cursor count : Int) : Bytes → Option (List Reply × Int) :=
  scanSorted env s.members (fun m => [.bulk (some m)]) count cursor

def execSScan (args : List Bytes) : Exec Reply := do
  let opts ← orExit (parseScan false .default (args.drop 2))
  let key ← arg args 0
  let set ← getAsSet env key
  let (set, _) ← require set .emptyMultiBulk
  let text ← arg args 1
  let cursor ← require (parseInt text) (.error "ERR invalid cursor")
  let (found, next) ← orPanic (scanSet env set cursor opts.count opts.pattern)
  check (next < 0) (.error "Invalid argument")
  return scanReply next found

/-- `LIMIT limit` of SINTERCARD; 0 is none. -/
def parseLimit (args : List Bytes) : Except Reply Int :=
  match args with
  | [] => .ok 0
  | opt :: rest =>
    if toUpper opt = "LIMIT" then
      match rest with
      | [] => .error (.error "ERR syntax error")
      | l :: _ =>
        match parseInt l with
        | some n => if n < 0 then .error notInteger else .ok n
        | none => .error notInteger
    else .error (.error "ERR syntax error")

def execSInterCard (args : List Bytes) : Exec Reply := do
  check (args.length < 1) (.error "ERR wrong number of arguments for 'sintercard' command")
  let text ← arg args 0
  let numKeys ← require (parseInt text) notInteger
  check (numKeys < 1) notInteger
  check (args.length < wrap64 (1 + numKeys)) (.error "ERR wrong number of arguments for 'sintercard' command")
  -- a sum that has wrapped is a negative index
  let numKeys ← orPanic (if args.length < 1 + numKeys then none else some numKeys.toNat)
  let limit ← orReply (parseLimit (args.drop (1 + numKeys)))
  let sets ← getSets env (some (.int 0)) ((args.drop 1).take numKeys)
  let count := (objectIntersect env.thresholds sets).len
  return .int (if 0 < limit ∧ limit < count then limit else count)

end Hayakv.Cmd
