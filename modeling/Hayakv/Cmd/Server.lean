import Hayakv.Cmd.Table

/-!
# The server

`server.go`: the databases of a server over one heap, and the requests that change them. Those of
`cmdTable` work on one database; `COPY` puts the object of a key into another database, `FLUSHDB` and
`FLUSHALL` install new databases, and `LoadRDB` installs new objects.
-/

namespace Hayakv.Cmd

open Engine

/-- `DB`: the keys of one database. -/
structure Database where
  data : List (Key × Ref)
  ttl : List (Key × Int)
  versions : List (Key × UInt32)
deriving DecidableEq, Repr

def makeDB : Database := ⟨[], [], []⟩

/-- `Server`, with the lines of all databases that were given to the AOF. -/
structure Server where
  dbSet : List Database
  heap : Heap
  aof : List (Nat × CmdLine)
  seed : UInt32
deriving DecidableEq, Repr

/-- `NewStandaloneServer`. -/
def newServer (databases : Nat) : Server := ⟨List.replicate databases makeDB, .empty, [], 12345⟩

namespace Server

variable (σ : Server)

/-- `selectDB`: the state that a command of the database sees. -/
def selectDB (i : Nat) : Option State :=
  σ.dbSet[i]?.map fun db => ⟨db.data, db.ttl, db.versions, σ.heap, [], σ.seed, [], none⟩

def put (i : Nat) (s : State) : Server :=
  ⟨σ.dbSet.set i ⟨s.data, s.ttl, s.versions⟩, s.heap, σ.aof ++ s.aof.map fun line => (i, line), s.seed⟩

/-- Work on one database, if there is one of this number. -/
def onDB (i : Nat) (f : State → State) : Server :=
  match σ.selectDB i with
  | some s => σ.put i (f s)
  | none => σ

/-- `GetEntity`: what the key holds, and the server without the key if it has expired. -/
def getEntity (now : Int) (i : Nat) (key : Key) : Option Ref × Server :=
  match σ.selectDB i with
  | some s => (if s.expired now key then none else s.data.lookup key, σ.put i (s.getEntity now key).2)
  | none => (none, σ)

/-- `evictOneKeyWithSize`, of the key that the policy has picked. -/
def evict (v : Nat × Key) : Server := σ.onDB v.1 fun s => { s.remove v.2 with aof := s.aof ++ [[str "DEL", v.2]] }

def getExpiration (i : Nat) (key : Key) : Option Int := σ.dbSet[i]?.bind fun db => db.ttl.lookup key

end Server

def addVersion (keys : List Key) (s : State) : State :=
  { s with versions := keys.foldl (fun vs k => putField k ((vs.lookup k).getD 0 + 1) vs) s.versions }

/-- `execNormalCommand` but for the check of the memory. -/
def execNormalCommand (env : Env) (cmdLine : CmdLine) (s : State) : Except Exit Reply × State :=
  match cmdLine with
  | [] => (.error .panic, s)
  | name :: args =>
    match findCommand (toLower name) with
    | none => (.ok (.err ("ERR unknown command '" ++ toLower name ++ "'")), s)
    | some cmd =>
      if validateArity cmd.arity (name :: args) then
        match cmd.prepare args with
        | none => (.error .panic, s)
        | some (write, _) => exec env cmd args (addVersion write s)
      else
        (.ok (.err ("ERR wrong number of arguments for '" ++ toLower name ++ "' command")), s)

/-- `isDenyOOMCmd`, of a line that passes the checks before it. -/
def isDenyOOM : CmdLine → Bool
  | [] => false
  | name :: args => (findCommand (toLower name)).any fun cmd =>
    cmd.name ∈ denyOOM && validateArity cmd.arity (name :: args) && (cmd.prepare args).isSome

/-- `freeMemoryIfNeeded`, before a command that asks for it. -/
def Server.freeMemory (env : Env) (cmdLine : CmdLine) (σ : Server) : Server :=
  if isDenyOOM cmdLine then env.evicted.foldl Server.evict σ else σ

/-- `execNormalCommand` of a database. -/
def Server.command (env : Env) (db : Nat) (cmdLine : CmdLine) (σ : Server) : Except Exit Reply × Server :=
  let σ := σ.freeMemory env cmdLine
  if isDenyOOM cmdLine && env.overLimit then
    (.ok (.error "OOM command not allowed when used memory > 'maxmemory'."), σ)
  else
    match σ.selectDB db with
    | some s => ((execNormalCommand env cmdLine s).1, σ.put db (execNormalCommand env cmdLine s).2)
    | none => (.ok (.error "ERR DB index is out of range"), σ)

/-- The options of `COPY`: the destination's database and `REPLACE`. -/
def copyOptions (databases : Nat) : List Bytes → Nat → Bool → Except Reply (Nat × Bool)
  | [], dbIndex, replace => .ok (dbIndex, replace)
  | a :: args, dbIndex, replace =>
    if toLower a = "db" then
      match args with
      | [] => .error .syntaxErr
      | n :: args =>
        match parseInt n with
        | none => .error .syntaxErr
        | some idx =>
          if idx ≥ databases ∨ idx < 0 then .error (.error "ERR DB index is out of range")
          else copyOptions databases args idx.toNat replace
    else if toLower a = "replace" then copyOptions databases args dbIndex true
    else .error .syntaxErr

def copyEntity (cur : Nat) (args : List Bytes) (src dest : Key) (i : Nat) (r : Ref) (σ : Server) : Server :=
  let σ := σ.onDB i (·.putRef dest r)
  let σ := match σ.getExpiration cur src with
    | some t => σ.onDB i fun s => { s with ttl := putField dest t s.ttl }
    | none => σ
  { σ with aof := σ.aof ++ [(cur, str "copy" :: args)] }

/-- `execCopy`, for a client that has selected the database `cur`. -/
def execCopy (env : Env) (cur : Nat) (args : List Bytes) (σ : Server) : Except Exit Reply × Server :=
  match args with
  | src :: dest :: options =>
    match copyOptions σ.dbSet.length options cur false with
    | .error r => (.ok r, σ)
    | .ok (i, replace) =>
      if src = dest ∧ i = cur then
        (.ok (.error "ERR source and destination objects are the same"), σ)
      else
        match σ.getEntity env.now cur src with
        | (none, σ) => (.ok (.int 0), σ)
        | (some r, σ) =>
          match σ.getEntity env.now i dest with
          | (some _, σ) =>
            if replace then (.ok (.int 1), copyEntity cur args src dest i r σ) else (.ok (.int 0), σ)
          | (none, σ) => (.ok (.int 1), copyEntity cur args src dest i r σ)
  | _ => (.ok (.error "ERR wrong number of arguments for 'copy' command"), σ)

def flushDB (i : Nat) (σ : Server) : Server := { σ with dbSet := σ.dbSet.set i makeDB }

def flushAll (σ : Server) : Server := { σ with dbSet := σ.dbSet.map fun _ => makeDB }

/-- What `LoadRDB` makes of a decoded object: a byte slice or a bare structure. -/
inductive Loaded
  | str (b : Bytes)
  | coll (c : Coll)

/-- `PutEntity` and `Expire` with a decoded object. -/
def loadEntity (env : Env) (key : Key) (v : Loaded) (expiration : Option Int) (s : State) : State :=
  let s := match v with
    | .str b =>
      let (sl, heap) := s.heap.newArray b (env.spare b.length)
      let (r, heap) := heap.newCell (.str false .raw (.bytes sl))
      { s with heap }.putRef key r
    | .coll c =>
      let (r, heap) := s.heap.newCell (.coll false c)
      { s with heap }.putRef key r
  match expiration with
  | some t => { s with ttl := putField key t s.ttl }
  | none => s

/-- What a server does at a client's request, or when it loads a file. -/
inductive Request
  /-- A command of `cmdTable`. -/
  | command (db : Nat) (cmdLine : CmdLine)
  | copy (db : Nat) (args : List Bytes)
  | flushDB (db : Nat)
  | flushAll
  | load (db : Nat) (key : Key) (v : Loaded) (expiration : Option Int)

def Server.step (env : Env) (σ : Server) : Request → Server
  | .command db cmdLine => (σ.command env db cmdLine).2
  | .copy db args => (execCopy env db args σ).2
  | .flushDB db => Cmd.flushDB db σ
  | .flushAll => Cmd.flushAll σ
  | .load db key v expiration => σ.onDB db (loadEntity env key v expiration)

/-- The states of a server: what requests at any times make of the new server. -/
inductive Server.Reachable (databases : Nat) : Server → Prop
  | start : Reachable databases (newServer databases)
  | step {σ : Server} (env : Env) (r : Request) : Reachable databases σ → Reachable databases (σ.step env r)

end Hayakv.Cmd
