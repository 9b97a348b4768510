import Hayakv.Resp.Parser

/-!
# Client connections

`internal/server/connection/conn.go`: the `Connection` record and the methods that
write it, which every command goes through. The three bits of `flags` are three
fields, and a Go map that is only read by its entries is a list without
repetitions, `nil` as the empty one. `Op` lists the methods: a session on a
connection is a list of them.
-/

namespace Hayakv.Conn

open Resp (CmdLine)

abbrev User := Bytes

/-- `redis.RESP2` and `redis.RESP3`; other numbers are never negotiated. -/
inductive RespVersion
  | resp2
  | resp3
deriving DecidableEq, Repr

/-- `Connection`. The defaults are those of `&Connection{}`. -/
structure Connection where
  conn : Option Nat := none
  -- flags
  slave : Bool := false
  master : Bool := false
  multi : Bool := false
  subs : List Bytes := []
  pSubs : List Bytes := []
  password : Bytes := []
  queue : List CmdLine := []
  watching : List (Bytes × UInt32) := []
  txErrors : List Bytes := []
  selectedDB : Int := 0
  protocol : RespVersion := .resp2
  closed : Bool := false
  onClose : Bool := false
  id : UInt64 := 0
  clientName : Bytes := []
  libName : Bytes := []
  libVer : Bytes := []
  createdAt : Int := 0
  replyMode : Int := 0
  tracking : Bool := false
  trackingMode : Int := 0
  noLoop : Bool := false
  redirectID : UInt64 := 0
  bcastMode : Bool := false
  bcastPrefixes : List Bytes := []
  cachingNext : Bool := false
  user : Option User := none
deriving DecidableEq, Repr

namespace Connection

variable (c : Connection)

def subscribe (channel : Bytes) : Connection := { c with subs := c.subs.insert channel }

def unSubscribe (channel : Bytes) : Connection := { c with subs := c.subs.erase channel }

def pSubscribe (pattern : Bytes) : Connection := { c with pSubs := c.pSubs.insert pattern }

def pUnSubscribe (pattern : Bytes) : Connection := { c with pSubs := c.pSubs.erase pattern }

def setPassword (password : Bytes) : Connection := { c with password }

def inMultiState : Bool := c.multi

/-- `SetMultiState`: the end of a transaction drops the queue and the watched keys. -/
def setMultiState (state : Bool) : Connection :=
  if !state then { c with watching := [], queue := [], multi := false } else { c with multi := true }

def enqueueCmd (cmdLine : CmdLine) : Connection := { c with queue := c.queue ++ [cmdLine] }

def addTxError (err : Bytes) : Connection := { c with txErrors := c.txErrors ++ [err] }

def clearQueuedCmds : Connection := { c with queue := [] }

/-- `c.GetWatching()[key] = ver`. -/
def watch (key : Bytes) (ver : UInt32) : Connection :=
  { c with watching := (key, ver) :: c.watching.filter fun w => w.1 ≠ key }

def selectDB (dbNum : Int) : Connection := { c with selectedDB := dbNum }

end Connection

inductive Op
  | subscribe (channel : Bytes)
  | unSubscribe (channel : Bytes)
  | pSubscribe (pattern : Bytes)
  | pUnSubscribe (pattern : Bytes)
  | setPassword (password : Bytes)
  | setMultiState (state : Bool)
  | enqueueCmd (cmdLine : CmdLine)
  | addTxError (err : Bytes)
  | clearQueuedCmds
  | watch (key : Bytes) (ver : UInt32)
  | selectDB (dbNum : Int)
  | setProtocol (v : RespVersion)
  | setSlave
  | setMaster
  | setClientName (name : Bytes)
  | setLibName (name : Bytes)
  | setLibVer (ver : Bytes)
  | setReplyMode (mode : Int)
  | setTracking (v : Bool)
  | setTrackingMode (mode : Int)
  | setNoLoop (v : Bool)
  | setRedirectID (id : UInt64)
  | setBcastMode (v : Bool)
  | setBcastPrefixes (prefixes : List Bytes)
  | setCachingNext (v : Bool)
  | setUser (u : Option User)
  | onClose
deriving DecidableEq, Repr

def Connection.call (c : Connection) : Op → Connection
  | .subscribe channel => c.subscribe channel
  | .unSubscribe channel => c.unSubscribe channel
  | .pSubscribe pattern => c.pSubscribe pattern
  | .pUnSubscribe pattern => c.pUnSubscribe pattern
  | .setPassword password => c.setPassword password
  | .setMultiState state => c.setMultiState state
  | .enqueueCmd cmdLine => c.enqueueCmd cmdLine
  | .addTxError err => c.addTxError err
  | .clearQueuedCmds => c.clearQueuedCmds
  | .watch key ver => c.watch key ver
  | .selectDB dbNum => c.selectDB dbNum
  | .setProtocol v => { c with protocol := v }
  | .setSlave => { c with slave := true }
  | .setMaster => { c with master := true }
  | .setClientName name => { c with clientName := name }
  | .setLibName name => { c with libName := name }
  | .setLibVer ver => { c with libVer := ver }
  | .setReplyMode mode => { c with replyMode := mode }
  | .setTracking v => { c with tracking := v }
  | .setTrackingMode mode => { c with trackingMode := mode }
  | .setNoLoop v => { c with noLoop := v }
  | .setRedirectID id => { c with redirectID := id }
  | .setBcastMode v => { c with bcastMode := v }
  | .setBcastPrefixes prefixes => { c with bcastPrefixes := prefixes }
  | .setCachingNext v => { c with cachingNext := v }
  | .setUser u => { c with user := u }
  | .onClose => { c with onClose := true }

end Hayakv.Conn
