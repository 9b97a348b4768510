import Hayakv.Cmd.Bits
import Hayakv.Cmd.Cluster
import Hayakv.Cmd.Geo
import Hayakv.Cmd.HashTTL
import Hayakv.Cmd.HyperLogLog
import Hayakv.Cmd.Sets
import Hayakv.Cmd.StreamGroups

/-!
# The table of commands

The commands that `registerCommand` enters in `cmdTable`, with the functions that say which keys a
command writes and reads, and `execWithLock`.
-/

namespace Hayakv.Cmd

open Engine Engine.Exec

/-! ## Keys written and read -/

/-- The keys that a command writes and those it only reads; `none` is a panic. -/
abbrev Prepare := List Bytes → Option (List Key × List Key)

def readFirstKey : Prepare := fun args => args.head?.map fun key => ([], [key])

def writeFirstKey : Prepare := fun args => args.head?.map fun key => ([key], [])

def writeAllKeys : Prepare := fun args => some (args, [])

def readAllKeys : Prepare := fun args => some ([], args)

def noPrepare : Prepare := fun _ => some ([], [])

/-- `prepareRename`: the source counts as read. -/
def prepareRename : Prepare
  | src :: dest :: _ => some ([dest], [src])
  | _ => none

def prepareMSet : Prepare := fun args => some (pairKeys args, [])

def prepareMSetEX : Prepare
  | [] => some ([], [])
  | n :: args =>
    match parseInt n with
    | none => some ([], [])
    | some numkeys =>
      if numkeys < 1 then some ([], [])
      else (makeLen 16 numkeys).map fun n => ((pairKeys args).take n, [])

def prepareMGet : Prepare := fun args => some ([], args)

def prepareRPopLPush : Prepare
  | src :: dest :: _ => some ([src, dest], [])
  | _ => none

/-- `prepareBLPop`: all but the timeout. -/
def prepareBLPop : Prepare := fun args => if args = [] then none else some (args.dropLast, [])

/-- The keys after their number, none for a bad number. -/
def countedKeys : List Bytes → Option (List Key)
  | [] => none
  | n :: args =>
    match parseInt n with
    | none => some []
    | some numKeys =>
      if numKeys < 1 then some []
      else if args.length < numKeys then none
      else some (args.take numKeys.toNat)

def prepareLMPop : Prepare := fun args => (countedKeys args).map fun keys => (keys, [])

def prepareZMPop : Prepare := prepareLMPop

def prepareSInterCard : Prepare := fun args => (countedKeys args).map fun keys => ([], keys)

def prepareSetCalculate : Prepare := fun args => some ([], args)

def prepareSetCalculateStore : Prepare
  | [] => none
  | dest :: keys => some ([dest], keys)

def prepareBitOp : Prepare
  | _ :: dest :: _ => some ([dest], [])
  | _ => some ([], [])

/-! ## The table -/

inductive Flag
  | write | readOnly
deriving DecidableEq, Repr

/-- `command`. The executor gets what runs a command line inside of it. -/
structure Command where
  name : Bytes
  executor : Env → (CmdLine → Exec Reply) → List Bytes → Exec Reply
  prepare : Prepare
  arity : Int
  flag : Flag

/-- `keys.go`. -/
def keyCommands : List Command := [
  ⟨"del", fun _ _ => execDel, writeAllKeys, -2, .write⟩,
  ⟨"delex", fun env _ => execDelEX env, writeFirstKey, -2, .write⟩,
  ⟨"expire", fun env _ => execExpire env, writeFirstKey, -3, .write⟩,
  ⟨"expireat", fun _ _ => execExpireAt, writeFirstKey, -3, .write⟩,
  ⟨"expiretime", fun _ _ => execExpireTime, readFirstKey, 2, .readOnly⟩,
  ⟨"pexpire", fun env _ => execPExpire env, writeFirstKey, -3, .write⟩,
  ⟨"pexpireat", fun _ _ => execPExpireAt, writeFirstKey, -3, .write⟩,
  ⟨"pexpiretime", fun _ _ => execPExpireTime, readFirstKey, 2, .readOnly⟩,
  ⟨"ttl", fun env _ => execTTL env, readFirstKey, 2, .readOnly⟩,
  ⟨"pttl", fun env _ => execPTTL env, readFirstKey, 2, .readOnly⟩,
  ⟨"persist", fun _ _ => execPersist, writeFirstKey, 2, .write⟩,
  ⟨"exists", fun _ _ => execExists, readAllKeys, -2, .readOnly⟩,
  ⟨"type", fun _ _ => execType, readFirstKey, 2, .readOnly⟩,
  ⟨"rename", fun _ _ => execRename, prepareRename, 3, .readOnly⟩,
  ⟨"renamenx", fun _ _ => execRenameNx, prepareRename, 3, .readOnly⟩,
  ⟨"keys", fun env _ => execKeys env, noPrepare, 2, .readOnly⟩,
  ⟨"scan", fun env _ => execScan env, noPrepare, -2, .readOnly⟩]

/-- `string.go`. -/
def stringCommands : List Command := [
  ⟨"set", fun env _ => execSet env, writeFirstKey, -3, .write⟩,
  ⟨"setnx", fun _ _ => execSetNX, writeFirstKey, 3, .write⟩,
  ⟨"setex", fun env _ => execSetEX env, writeFirstKey, 4, .write⟩,
  ⟨"psetex", fun env _ => execPSetEX env, writeFirstKey, 4, .write⟩,
  ⟨"mset", fun _ _ => execMSet, prepareMSet, -3, .write⟩,
  ⟨"mget", fun _ _ => execMGet, prepareMGet, -2, .readOnly⟩,
  ⟨"msetnx", fun _ _ => execMSetNX, prepareMSet, -3, .write⟩,
  ⟨"msetex", fun env _ => execMSetEX env, prepareMSetEX, -3, .write⟩,
  ⟨"get", fun _ _ => execGet, readFirstKey, 2, .readOnly⟩,
  ⟨"getex", fun env _ => execGetEX env, writeFirstKey, -2, .readOnly⟩,
  ⟨"getset", fun _ _ => execGetSet, writeFirstKey, 3, .write⟩,
  ⟨"getdel", fun _ _ => execGetDel, writeFirstKey, 2, .write⟩,
  ⟨"incr", fun _ _ => execIncr, writeFirstKey, 2, .write⟩,
  ⟨"incrby", fun _ _ => execIncrBy, writeFirstKey, 3, .write⟩,
  ⟨"incrbyfloat", fun env _ => execIncrByFloat env, writeFirstKey, 3, .write⟩,
  ⟨"decr", fun _ _ => execDecr, writeFirstKey, 2, .write⟩,
  ⟨"decrby", fun _ _ => execDecrBy, writeFirstKey, 3, .write⟩,
  ⟨"strlen", fun _ _ => execStrLen, readFirstKey, 2, .readOnly⟩,
  ⟨"append", fun _ _ => execAppend, writeFirstKey, 3, .write⟩,
  ⟨"setrange", fun env _ => execSetRange env, writeFirstKey, 4, .write⟩,
  ⟨"getrange", fun _ _ => execGetRange, readFirstKey, 4, .readOnly⟩,
  ⟨"setbit", fun _ _ => execSetBit, writeFirstKey, 4, .write⟩,
  ⟨"getbit", fun _ _ => execGetBit, readFirstKey, 3, .readOnly⟩,
  ⟨"bitcount", fun _ _ => execBitCount, readFirstKey, -2, .readOnly⟩,
  ⟨"bitpos", fun _ _ => execBitPos, readFirstKey, -3, .readOnly⟩,
  ⟨"randomkey", fun env _ => getRandomKey env, readAllKeys, 1, .readOnly⟩]

/-- `bitfield.go`. -/
def bitfieldCommands : List Command := [
  ⟨"bitfield", fun _ _ => execBitfield, writeFirstKey, -2, .write⟩,
  ⟨"bitfield_ro", fun _ _ => execBitfieldRO, readFirstKey, -2, .readOnly⟩]

/-- `bitop.go`. -/
def bitOpCommands : List Command := [⟨"bitop", fun _ _ => execBitOp, prepareBitOp, -4, .write⟩]

/-- `list.go`. -/
def listCommands : List Command := [
  ⟨"lpos", fun _ _ => execLPos, readFirstKey, -3, .readOnly⟩,
  ⟨"lmpop", fun _ _ => execLMPop, prepareLMPop, -4, .write⟩,
  ⟨"lpush", fun env _ => execLPush env, writeFirstKey, -3, .write⟩,
  ⟨"lpushx", fun env _ => execLPushX env, writeFirstKey, -3, .write⟩,
  ⟨"rpush", fun env _ => execRPush env, writeFirstKey, -3, .write⟩,
  ⟨"rpushx", fun env _ => execRPushX env, writeFirstKey, -3, .write⟩,
  ⟨"lpop", fun _ _ => execLPop, writeFirstKey, -2, .write⟩,
  ⟨"rpop", fun _ _ => execRPop, writeFirstKey, -2, .write⟩,
  ⟨"rpoplpush", fun env _ => execRPopLPush env, prepareRPopLPush, 3, .write⟩,
  ⟨"lrem", fun _ _ => execLRem, writeFirstKey, 4, .write⟩,
  ⟨"llen", fun _ _ => execLLen, readFirstKey, 2, .readOnly⟩,
  ⟨"lindex", fun _ _ => execLIndex, readFirstKey, 3, .readOnly⟩,
  ⟨"lset", fun _ _ => execLSet, writeFirstKey, 4, .write⟩,
  ⟨"lrange", fun _ _ => execLRange, readFirstKey, 4, .readOnly⟩,
  ⟨"ltrim", fun _ _ => execLTrim, writeFirstKey, 4, .write⟩,
  ⟨"linsert", fun env _ => execLInsert env, writeFirstKey, 5, .write⟩,
  ⟨"blpop", fun _ _ => execBLPop, prepareBLPop, -3, .write⟩,
  ⟨"brpop", fun _ _ => execBRPop, prepareBLPop, -3, .write⟩]

/-- `hash.go`. -/
def hashCommands : List Command := [
  ⟨"hset", fun env _ => execHSet env, writeFirstKey, -4, .write⟩,
  ⟨"hsetnx", fun env _ => execHSetNX env, writeFirstKey, 4, .write⟩,
  ⟨"hget", fun env _ => execHGet env, readFirstKey, 3, .readOnly⟩,
  ⟨"hexists", fun env _ => execHExists env, readFirstKey, 3, .readOnly⟩,
  ⟨"hdel", fun env _ => execHDel env, writeFirstKey, -3, .write⟩,
  ⟨"hlen", fun env _ => execHLen env, readFirstKey, 2, .readOnly⟩,
  ⟨"hstrlen", fun env _ => execHStrlen env, readFirstKey, 3, .readOnly⟩,
  ⟨"hmset", fun env _ => execHMSet env, writeFirstKey, -4, .write⟩,
  ⟨"hmget", fun env _ => execHMGet env, readFirstKey, -3, .readOnly⟩,
  ⟨"hkeys", fun env _ => execHKeys env, readFirstKey, 2, .readOnly⟩,
  ⟨"hvals", fun env _ => execHVals env, readFirstKey, 2, .readOnly⟩,
  ⟨"hgetall", fun env _ => execHGetAll env, readFirstKey, 2, .readOnly⟩,
  ⟨"hincrby", fun env _ => execHIncrBy env, writeFirstKey, 4, .write⟩,
  ⟨"hincrbyfloat", fun env _ => execHIncrByFloat env, writeFirstKey, 4, .write⟩,
  ⟨"hrandfield", fun env _ => execHRandField env, readFirstKey, -2, .readOnly⟩,
  ⟨"hscan", fun env _ => execHScan env, readFirstKey, -2, .readOnly⟩]

/-- `hash_ttl.go`. -/
def hashTTLCommands : List Command := [
  ⟨"hgetex", fun env _ => execHGetEx env, readFirstKey, -5, .readOnly⟩,
  ⟨"hgetdel", fun env _ => execHGetDel env, writeFirstKey, -4, .write⟩,
  ⟨"hsetex", fun env _ => execHSetEx env, writeFirstKey, -5, .write⟩,
  ⟨"hexpire", fun env _ => execHExpire env, writeFirstKey, -5, .write⟩,
  ⟨"hpexpire", fun env _ => execHPExpire env, writeFirstKey, -5, .write⟩,
  ⟨"hexpireat", fun env _ => execHExpireAt env, writeFirstKey, -5, .write⟩,
  ⟨"hpexpireat", fun env _ => execHPExpireAt env, writeFirstKey, -5, .write⟩,
  ⟨"httl", fun env _ => execHTTL env, readFirstKey, -4, .readOnly⟩,
  ⟨"hpttl", fun env _ => execHPTTL env, readFirstKey, -4, .readOnly⟩,
  ⟨"hexpiretime", fun env _ => execHExpireTime env, readFirstKey, -4, .readOnly⟩,
  ⟨"hpexpiretime", fun env _ => execHPExpireTime env, readFirstKey, -4, .readOnly⟩,
  ⟨"hpersist", fun env _ => execHPersist env, writeFirstKey, -4, .write⟩]

/-- `set.go`. -/
def setCommands : List Command := [
  ⟨"smismember", fun env _ => execSMIsMember env, readFirstKey, -3, .readOnly⟩,
  ⟨"sintercard", fun env _ => execSInterCard env, prepareSInterCard, -4, .readOnly⟩,
  ⟨"sadd", fun env _ => execSAdd env, writeFirstKey, -3, .write⟩,
  ⟨"sismember", fun env _ => execSIsMember env, readFirstKey, 3, .readOnly⟩,
  ⟨"srem", fun env _ => execSRem env, writeFirstKey, -3, .write⟩,
  ⟨"spop", fun env _ => execSPop env, writeFirstKey, -2, .write⟩,
  ⟨"scard", fun env _ => execSCard env, readFirstKey, 2, .readOnly⟩,
  ⟨"smembers", fun env _ => execSMembers env, readFirstKey, 2, .readOnly⟩,
  ⟨"sinter", fun env _ => execSInter env, prepareSetCalculate, -2, .readOnly⟩,
  ⟨"sinterstore", fun env _ => execSInterStore env, prepareSetCalculateStore, -3, .write⟩,
  ⟨"sunion", fun env _ => execSUnion env, prepareSetCalculate, -2, .readOnly⟩,
  ⟨"sunionstore", fun env _ => execSUnionStore env, prepareSetCalculateStore, -3, .write⟩,
  ⟨"sdiff", fun env _ => execSDiff env, prepareSetCalculate, -2, .readOnly⟩,
  ⟨"sdiffstore", fun env _ => execSDiffStore env, prepareSetCalculateStore, -3, .write⟩,
  ⟨"srandmember", fun env _ => execSRandMember env, readFirstKey, -2, .readOnly⟩,
  ⟨"sscan", fun env _ => execSScan env, readFirstKey, -2, .readOnly⟩]

/-- `sortedset.go`. -/
def sortedSetCommands : List Command := [
  ⟨"zmpop", fun env _ => execZMPop env, prepareZMPop, -4, .write⟩,
  ⟨"zadd", fun env _ => execZAdd env, writeFirstKey, -4, .write⟩,
  ⟨"zscore", fun env _ => execZScore env, readFirstKey, 3, .readOnly⟩,
  ⟨"zincrby", fun env _ => execZIncrBy env, writeFirstKey, 4, .write⟩,
  ⟨"zrank", fun env _ => execZRank env, readFirstKey, 3, .readOnly⟩,
  ⟨"zcount", fun env _ => execZCount env, readFirstKey, 4, .readOnly⟩,
  ⟨"zrevrank", fun env _ => execZRevRank env, readFirstKey, 3, .readOnly⟩,
  ⟨"zcard", fun _ _ => execZCard, readFirstKey, 2, .readOnly⟩,
  ⟨"zrange", fun env _ => execZRange env, readFirstKey, -4, .readOnly⟩,
  ⟨"zrangebyscore", fun env _ => execZRangeByScore env, readFirstKey, -4, .readOnly⟩,
  ⟨"zrevrange", fun env _ => execZRevRange env, readFirstKey, -4, .readOnly⟩,
  ⟨"zrevrangebyscore", fun env _ => execZRevRangeByScore env, readFirstKey, -4, .readOnly⟩,
  ⟨"zpopmin", fun env _ => execZPopMin env, writeFirstKey, -2, .write⟩,
  ⟨"zrem", fun _ _ => execZRem, writeFirstKey, -3, .write⟩,
  ⟨"zremrangebyscore", fun env _ => execZRemRangeByScore env, writeFirstKey, 4, .write⟩,
  ⟨"zremrangebyrank", fun env _ => execZRemRangeByRank env, writeFirstKey, 4, .write⟩,
  ⟨"zlexcount", fun env _ => execZLexCount env, readFirstKey, 4, .readOnly⟩,
  ⟨"zrangebylex", fun env _ => execZRangeByLex env, readFirstKey, -4, .readOnly⟩,
  ⟨"zremrangebylex", fun env _ => execZRemRangeByLex env, writeFirstKey, 4, .write⟩,
  ⟨"zrevrangebylex", fun env _ => execZRevRangeByLex env, readFirstKey, -4, .readOnly⟩,
  ⟨"zscan", fun env _ => execZScan env, readFirstKey, -2, .readOnly⟩]

/-- `geo.go`. -/
def geoCommands : List Command := [
  ⟨"geoadd", fun env _ => execGeoAdd env, writeFirstKey, -5, .write⟩,
  ⟨"geopos", fun env _ => execGeoPos env, readFirstKey, -2, .readOnly⟩,
  ⟨"geodist", fun env _ => execGeoDist env, readFirstKey, -4, .readOnly⟩,
  ⟨"geohash", fun env _ => execGeoHash env, readFirstKey, -2, .readOnly⟩,
  ⟨"georadius", fun env _ => execGeoRadius env, readFirstKey, -6, .readOnly⟩,
  ⟨"georadiusbymember", fun env _ => execGeoRadiusByMember env, readFirstKey, -5, .readOnly⟩]

/-- `stream.go`. -/
def streamCommands : List Command := [
  ⟨"xadd", fun env _ => execXAdd env, writeFirstKey, -5, .write⟩,
  ⟨"xrange", fun _ _ => execXRange, readFirstKey, -4, .readOnly⟩,
  ⟨"xrevrange", fun _ _ => execXRevRange, readFirstKey, -4, .readOnly⟩,
  ⟨"xlen", fun _ _ => execXLen, readFirstKey, 2, .readOnly⟩,
  ⟨"xdel", fun _ _ => execXDel, writeFirstKey, -3, .write⟩,
  ⟨"xtrim", fun _ _ => execXTrim, writeFirstKey, -2, .write⟩,
  ⟨"xsetid", fun _ _ => execXSetID, writeFirstKey, -3, .write⟩,
  ⟨"xread", fun _ _ => execXRead, readFirstKey, -4, .readOnly⟩]

/-- `stream_group.go`. -/
def streamGroupCommands : List Command := [
  ⟨"xgroup", fun env _ => execXGroup env, writeFirstKey, -4, .write⟩,
  ⟨"xreadgroup", fun env _ => execXReadGroup env, readFirstKey, -7, .write⟩,
  ⟨"xack", fun _ _ => execXAck, writeFirstKey, -4, .write⟩,
  ⟨"xpending", fun env _ => execXPending env, readFirstKey, -3, .readOnly⟩,
  ⟨"xclaim", fun env _ => execXClaim env, writeFirstKey, -6, .write⟩,
  ⟨"xautoclaim", fun env _ => execXAutoClaim env, writeFirstKey, -5, .write⟩,
  ⟨"xinfo", fun env _ => execXInfo env, readFirstKey, -2, .readOnly⟩]

/-- `hll.go`. -/
def hllCommands : List Command := [
  ⟨"pfadd", fun _ _ => execPFAdd, writeFirstKey, -2, .write⟩,
  ⟨"pfcount", fun env _ => execPFCount env, readFirstKey, -2, .readOnly⟩,
  ⟨"pfmerge", fun _ _ => execPFMerge, writeFirstKey, -2, .write⟩,
  ⟨"pfdebug", fun env _ => execPFDebug env, writeFirstKey, -3, .write⟩,
  ⟨"pfselftest", fun env _ => execPFSelftest env, readFirstKey, 1, .readOnly⟩]

/-- `object.go`, `memory.go`, `cluster_helper.go` and `transaction.go`. -/
def serverCommands : List Command := [
  ⟨"object", fun env _ => execObject env, readFirstKey, 3, .readOnly⟩,
  ⟨"memory", fun env _ => execMemory env, readFirstKey, -2, .readOnly⟩,
  ⟨"dumpkey", fun env _ => execDumpKey env, writeAllKeys, 2, .readOnly⟩,
  ⟨"existin", fun _ _ => execExistIn, readAllKeys, -1, .readOnly⟩,
  ⟨"renamefrom", fun _ _ => execRenameFrom, readFirstKey, 2, .write⟩,
  ⟨"renameto", fun _ run => execRenameTo run, writeFirstKey, 4, .write⟩,
  ⟨"renamenxto", fun _ run => execRenameTo run, writeFirstKey, 4, .write⟩,
  ⟨"copyfrom", fun _ _ => execCopyFrom, readFirstKey, 2, .readOnly⟩,
  ⟨"copyto", fun _ run => execRenameTo run, writeFirstKey, 5, .write⟩,
  ⟨"getver", fun _ _ => execGetVersion, readAllKeys, 2, .readOnly⟩]

def cmdTable : List Command :=
  keyCommands ++ stringCommands ++ bitfieldCommands ++ bitOpCommands ++ listCommands ++
  hashCommands ++ hashTTLCommands ++ setCommands ++ sortedSetCommands ++ geoCommands ++
  streamCommands ++ streamGroupCommands ++ hllCommands ++ serverCommands

/-- `validateArity`, of a command line with its name. -/
def validateArity (arity : Int) (cmdLine : CmdLine) : Bool :=
  if 0 ≤ arity then cmdLine.length = arity else -arity ≤ cmdLine.length

/-- The commands with the flag `denyoom`. -/
def denyOOM : List Bytes :=
  ["bitfield", "bitop", "geoadd", "hset", "hsetnx", "hmset", "hincrby", "hincrbyfloat", "hsetex", "pfadd", "pfmerge",
   "lpush", "lpushx", "rpush", "rpushx", "rpoplpush", "lset", "linsert", "sadd", "sinterstore", "sunionstore",
   "sdiffstore", "zadd", "zincrby", "xadd", "xgroup", "set", "setnx", "setex", "psetex", "mset", "msetnx", "msetex",
   "getset", "getdel", "incr", "incrby", "incrbyfloat", "decr", "decrby", "append", "setrange", "setbit"]

def findCommand (name : Bytes) : Option Command := cmdTable.find? (·.name = name)

def prepared : CmdLine → List Key × List Key
  | [] => ([], [])
  | name :: args => ((findCommand (toLower name)).bind (·.prepare args)).getD ([], [])

/-- The result of a command that has ended early, unless in a panic. -/
def replyOf : Exit → Option Reply
  | .reply r => some r
  | .panic => none

/-- `execWithLock`. A command line inside of another is shorter than the one around it, so its
length is enough fuel. -/
def execWithLock (env : Env) : Nat → CmdLine → Exec Reply
  | 0, _ => panic
  | _, [] => panic
  | fuel + 1, name :: args =>
    match findCommand (toLower name) with
    | none => pure (.err ("ERR unknown command '" ++ toLower name ++ "'"))
    | some cmd =>
      if validateArity cmd.arity (name :: args) then
        (cmd.executor env (execWithLock env fuel) args).catchExit replyOf
      else
        pure (.err ("ERR wrong number of arguments for '" ++ toLower name ++ "' command"))

def lineFuel (cmdLine : CmdLine) : Nat := (cmdLine.map List.length).sum + 1

/-- The executor of a command on a database. It holds nothing at its start. -/
def exec (env : Env) (c : Command) (args : List Bytes) (s : State) : Except Exit Reply × State :=
  (c.executor env (execWithLock env (lineFuel (c.name :: args))) args).run (handle env)
    { s with bound := [], work := none }

end Hayakv.Cmd
