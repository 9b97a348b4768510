import Hayakv.Cmd.Lists
import Hayakv.Engine.Marshal
import Hayakv.Resp.Parser

/-!
# OBJECT, MEMORY, GETVER and the commands of the cluster

`internal/command/object.go`, `memory.go`, `cluster_helper.go`, and GETVER of `transaction.go`.
RENAMETO and COPYTO run the two commands that they are given, whatever these are.
-/

namespace Hayakv.Cmd

open Engine Engine.Exec

def Entity.encodingName (e : Entity) : Bytes :=
  if !e.robj then "go-native"
  else
    match e.value with
    | .str enc _ => enc.name
    | .coll (.list l) => l.currentEncoding.name
    | .coll (.hash h) => h.currentEncoding.name
    | .coll (.set s) => s.currentEncoding.name
    | .coll (.zset z) => z.currentEncoding.name
    | .coll (.stream _) => Encoding.name .stream

def noSuchKey : Reply := .error "ERR no such key"

def execObject (env : Env) (args : List Bytes) : Exec Reply := do
  check (args.length < 2) (.error "ERR wrong number of arguments for 'object' command")
  let sub ← arg args 0
  let key ← arg args 1
  if toUpper sub = "ENCODING" then
    let entity ← getEntity key
    return .bulk (entity.map Entity.encodingName)
  else if toUpper sub = "IDLETIME" then
    check env.usingLFU (.error "ERR An LFU maxmemory policy is selected, idle time not tracked. Please note that when switching between maxmemory policies at runtime LFU and LRU data will take some time to adjust.")
    let entity ← getEntity key
    check entity.isNone noSuchKey
    return .int (env.idleTime key)
  else if toUpper sub = "FREQ" then
    check (!env.usingLFU) (.error "ERR An LFU maxmemory policy is not selected, access frequency not tracked. Please note that when switching between maxmemory policies at runtime LFU and LRU data will take some time to adjust.")
    let entity ← getEntity key
    check entity.isNone noSuchKey
    return .int (env.freq key)
  else if toUpper sub = "REFCOUNT" then
    let entity ← getEntity key
    check entity.isNone noSuchKey
    return .int 1
  else
    return .err ("ERR Unknown subcommand or wrong number of arguments for '" ++ toUpper sub ++ "'")

/-- `valueSize`: of the structures, only the bare ones from an RDB file are measured. -/
def valueSize (e : Entity) : Int :=
  (if e.robj then 16 else 0) +
    match e.robj, e.value with
    | true, .str .int _ => 8
    | _, .str _ b => (b.getD []).length + 8
    | false, .coll (.hash h) => (h.fields.map fun (f, v) => (f.length + 16 + v.length : Int)).sum
    | false, .coll (.set s) => (s.members.map fun m => (m.length + 16 : Int)).sum
    | _, _ => 16

def execMemory (env : Env) (args : List Bytes) : Exec Reply := do
  check (args.length < 1) (.error "ERR wrong number of arguments for 'memory' command")
  let sub ← arg args 0
  if toUpper sub = "USAGE" then
    check (args.length < 2) (.error "ERR wrong number of arguments for 'memory|usage' command")
    let key ← arg args 1
    let entity ← getEntity key
    let entity ← require entity .nullBulk
    return .int (56 + key.length + valueSize entity)
  else if toUpper sub = "STATS" then return env.memoryStats
  else if toUpper sub = "DOCTOR" then return env.memoryDoctor
  else
    return .err ("ERR Unknown MEMORY subcommand or wrong number of arguments for '" ++ toUpper sub ++ "'")

def execGetVersion (args : List Bytes) : Exec Reply := do
  let key ← arg args 0
  let ver ← version key
  return .int ver.toNat

def execExistIn (args : List Bytes) : Exec Reply := do
  let result ← Prog.fold args [] fun result key => do
    let entity ← getEntity key
    return if entity.isSome then result ++ [key] else result
  return .multiBulk result

/-- `execDumpKey`. A stream has no command, and so it panics. -/
def execDumpKey (env : Env) (args : List Bytes) : Exec Reply := do
  let key ← arg args 0
  let entity ← getEntity key
  let entity ← require entity .emptyMultiBulk
  let dumpCmd ← orPanic (entityToCmd env.float key entity).join
  let ttl ← getTTL key
  return .multiBulk [Resp.toBytes dumpCmd, Resp.toBytes (toTTLCmd key ttl)]

def execRenameFrom (args : List Bytes) : Exec Reply := do
  let key ← arg args 0
  remove key
  return .ok

/-- `ParseOne`: the first payload of the stream. -/
def parseOne (data : Bytes) : Resp.Payload := ((Resp.parseStream data).head?).getD (.error (.other "no protocol"))

/-- `err.Error()` of a parse error. -/
def parseErrText : Resp.ParseErr → Bytes
  | .eof => "EOF"
  | .unexpectedEof => "unexpected EOF"
  | .other msg => msg

/-- The command line of a dump with its key changed. One with a single word panics. -/
def parseDump (what : String) (data : Bytes) (key : Key) : Except Exit CmdLine :=
  match parseOne data with
  | .error e => .error (.reply (.err ("illegal " ++ str what ++ " cmd: " ++ parseErrText e)))
  | .data (.multiBulk args) => if args.length < 2 then .error .panic else .ok (args.set 1 key)
  | .data _ => .error (.reply (.err (str what ++ " cmd is not multi bulk reply")))

/-- `execRenameTo` and `execCopyTo`, with what runs a command line (`execWithLock`). -/
def execRenameTo (run : CmdLine → Exec Reply) (args : List Bytes) : Exec Reply := do
  let key ← arg args 0
  let dump ← arg args 1
  let dumpCmd ← orExit (parseDump "dump" dump key)
  let ttl ← arg args 2
  let ttlCmd ← orExit (parseDump "ttl" ttl key)
  remove key
  let dumpResult ← run dumpCmd
  check dumpResult.isError dumpResult
  let ttlResult ← run ttlCmd
  check ttlResult.isError ttlResult
  return .ok

def execCopyFrom (_args : List Bytes) : Exec Reply := return .ok

end Hayakv.Cmd
