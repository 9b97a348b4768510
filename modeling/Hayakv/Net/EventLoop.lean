import Hayakv.Lib.Memory
import Hayakv.Lib.GoTime
import Hayakv.Net.Requests

/-!
# The event loop

`internal/net/eventloop`: one goroutine polls the sockets, reads into the client's
query buffer, parses, runs the commands and buffers their replies. A blocking
command that finds nothing suspends its client in the registry (`block.go`) until
a push to one of its keys or its deadline.

The arguments of a command are slices of the query buffer (`cmdSlices`), which is
compacted before the commands run and which later reads refill in place; the
engine may keep the slices and write through them. Clients are objects by number,
and the loop finds one by its descriptor (`Server.fds`): a closed client is still
an object, and its number may still stand in the registry.

What the kernel and the other parties do is part of an `Event`: what arrives, how
much a write takes, when the poller refuses a call, in which order the map of the
clients is visited.

The fields at the end of `Client` and `Server` are not in the code: what the client
has sent and received, its commands by number, what the engine was given. They only
record.
-/

namespace Hayakv.Net

open Memory (Arr Slice Heap)

/-- A byte on its way to a client: whose reply it belongs to and which command of that client it
answers; `none` where the engine writes on its own. -/
structure Tag where
  owner : Nat
  command : Option Nat
deriving DecidableEq, Repr

def tagged (t : Tag) (bs : Bytes) : List (Tag × UInt8) := bs.map fun b => (t, b)

/-- A query buffer: the first `len` bytes of an array. -/
structure QueryBuf where
  arr : Nat
  len : Nat
deriving DecidableEq, Repr

def QueryBuf.slice (q : QueryBuf) : Slice := ⟨q.arr, 0, q.len⟩

/-- A command line: `none` for a `nil` argument. -/
abbrev CmdSlices := List (Option Slice)

structure Client where
  fd : Nat := 0
  queryBuf : QueryBuf := ⟨0, 0⟩
  out : List (Tag × UInt8) := []
  /-- `nil` if the client is not blocked -/
  blockKeys : List Bytes := []
  blockCmd : Bytes := []
  blockDeadline : Int := 0
  blockCmdLine : CmdSlices := []
  sent : Bytes := []
  /-- How many commands were taken from its query buffer. -/
  count : Nat := 0
  blockNo : Nat := 0
  /-- The commands executed for it as they were read: their numbers and their arguments' bytes. -/
  seen : List (Nat × List (Option Bytes)) := []
  /-- What was buffered in answer to its commands, in that order. -/
  answers : List Bytes := []
  received : List (Tag × UInt8) := []
  /-- The other end has closed the connection. -/
  gone : Bool := false

/-- What `Exec` does: the new state and memory, the reply (`none` is `nil`), what it writes to
connections itself, and which arguments it keeps. -/
structure Executed (E R : Type) where
  state : E
  heap : Heap
  reply : Option R
  pushes : List (Nat × Bytes)
  keeps : List Nat

/-- What the loop runs on: the storage engine, the codec, the growth of slices, and
`strconv.ParseFloat` with the conversion to nanoseconds, where it gives a positive number. -/
structure Runtime (E R : Type) where
  exec : E → Nat → Heap → CmdSlices → Executed E R
  afterClientClose : E → Nat → E
  isNullReply : R → Bool
  /-- `codec.Encode(reply, c.conn.Protocol())` -/
  encode : E → Nat → R → Bytes
  nullMultiBulk : R
  grow : Nat → Nat → Nat
  timeoutNanos : Bytes → Option Int

/-- `Server`, with the registry `blocks` as `waiters`. -/
structure Server (E : Type) where
  engine : E
  heap : Heap := ⟨0, fun _ => ⟨0, fun _ => 0⟩⟩
  clients : Nat → Client := fun _ => {}
  next : Nat := 0
  /-- `clients`: the client of a descriptor. -/
  fds : Nat → Option Nat := fun _ => none
  waiters : Bytes → List Nat := fun _ => []
  /-- A panic has ended the process. -/
  crashed : Bool := false
  /-- The slices the engine has kept of the commands as they were read, with their bytes at that time. -/
  kept : List (Slice × Bytes) := []
  /-- No command has written to an array that there was. -/
  quiet : Prop := True
  /-- The clients for which a waiting command found something, and whether they could receive it. -/
  woken : List (Nat × Bool) := []

/-- How the writes of a `flush` end: after `n` bytes there is nothing left or the socket is full;
or a write fails; or the poller refuses to change the client's interest. -/
inductive Outcome
  | wrote (n : Nat)
  | failed (n : Nat)
  | refused (n : Nat)
deriving DecidableEq, Repr

def Outcome.written : Outcome → Nat
  | .wrote n => n
  | .failed n => n
  | .refused n => n

/-- What is left of the output buffer. A failed write loses it. -/
def Outcome.left (out : List (Tag × UInt8)) : Outcome → List (Tag × UInt8)
  | .wrote n => out.drop n
  | .failed _ => []
  | .refused n => out.drop n

def Outcome.closes : Outcome → Bool
  | .wrote _ => false
  | .failed _ => true
  | .refused _ => true

/-! ## Command lines -/

/-- `string(arg)`. -/
def argString (h : Heap) : Option Slice → Bytes
  | none => []
  | some s => h.read s

def cmdStrings (h : Heap) (cmdLine : CmdSlices) : List Bytes := cmdLine.map (argString h)

def cmdBytes (h : Heap) (cmdLine : CmdSlices) : List (Option Bytes) := cmdLine.map (Option.map h.read)

/-- The arguments of a parsed command as slices of the query buffer's array. -/
def cmdSlices (arr : Nat) (args : Args) : CmdSlices := args.map (Option.map fun s => ⟨arr, s.start, s.len⟩)

/-- `strings.ToLower(string(cmdLine[0]))`. -/
def cmdName (line : List Bytes) : Bytes := toLower (line.headD [])

variable (name : Bytes)

def isBlockCommand : Bool := name = "blpop" ∨ name = "brpop" ∨ name = "xread" ∨ name = "xreadgroup"

def isStreamRead : Bool := name = "xread" ∨ name = "xreadgroup"

def isStreamAddCommand : Bool := name = "xadd"

def isListPushCommand : Bool := name = "lpush" ∨ name = "rpush"

def extractBlockKeys (line : List Bytes) : List Bytes := if line.length < 3 then [] else (line.drop 1).dropLast

def isStreams (arg : Bytes) : Bool := toLower arg = "streams"

def extractStreamBlockKeys (line : List Bytes) : List Bytes :=
  match line.dropWhile (fun arg => !isStreams arg) with
  | [] => []
  | _ :: rest => if rest.length % 2 ≠ 0 ∨ rest = [] then [] else rest.take (rest.length / 2)

/-- `time.Now().UnixNano()` and a timeout of so many nanoseconds. -/
def deadlineAfter (now nanos : Int) : Int := wrap64 (now + wrap64 nanos)

def extractStreamBlockDeadline (now : Int) : List Bytes → Int
  | [] => 0
  | [_] => 0
  | arg :: timeout :: rest =>
    if toLower arg = "block" then
      match parseInt timeout with
      | none => 0
      | some ms =>
        if ms < 0 then 0
        else if ms = 0 then deadlineAfter now (3600 * 24 * 365 * 1000000000)
        else deadlineAfter now (ms * 1000000)
    else extractStreamBlockDeadline now (timeout :: rest)

def blockKeysOf (line : List Bytes) : List Bytes :=
  if isStreamRead name then extractStreamBlockKeys line else extractBlockKeys line

section Runtime

variable {E R : Type} (rt : Runtime E R)

def extractBlockDeadline (now : Int) (line : List Bytes) : Int :=
  if line.length < 3 then 0
  else
    match rt.timeoutNanos (line.getLastD []) with
    | none => 0
    | some nanos => deadlineAfter now nanos

def blockDeadlineOf (now : Int) (name : Bytes) (line : List Bytes) : Int :=
  if isStreamRead name then extractStreamBlockDeadline now line else extractBlockDeadline rt now line

end Runtime

/-! ## The wake-up command -/

/-- A part of a wake-up command: an argument of the command it repeats, or new bytes. -/
abbrev Part := Option Slice ⊕ Bytes

/-- The options of a stream read before `STREAMS`, without `BLOCK`; whether `COUNT` is among them;
and the arguments from `STREAMS` on. -/
def wakeOptions (h : Heap) : CmdSlices → List Part × Bool × CmdSlices
  | [] => ([], false, [])
  | [arg] =>
    if isStreams (argString h arg) then ([], false, [arg])
    else if toLower (argString h arg) = "block" then ([], false, [])
    else ([.inl arg], toLower (argString h arg) = "count", [])
  | arg :: next :: rest =>
    if isStreams (argString h arg) then ([], false, arg :: next :: rest)
    -- the timeout goes with BLOCK
    else if toLower (argString h arg) = "block" then wakeOptions h rest
    else
      let r := wakeOptions h (next :: rest)
      (.inl arg :: r.1, r.2.1 || toLower (argString h arg) = "count", r.2.2)

/-- The last lines of `buildStreamWakeupCmd`. -/
def wakeFallback (c : Client) : List Part :=
  [.inr c.blockCmd] ++
    (if c.blockCmd = "xreadgroup" then [.inr "GROUP", .inr "?", .inr "?"]
      else []) ++
    [.inr "COUNT", .inr "1", .inr "STREAMS"] ++ c.blockKeys.map .inr ++
    c.blockKeys.map fun _ => .inr "0-0"

def buildStreamWakeupCmd (h : Heap) (c : Client) : List Part :=
  match c.blockCmdLine with
  | [] => wakeFallback c
  | name :: rest =>
    let options := wakeOptions h rest
    let result := .inl name :: options.1 ++
      if options.2.1 then [] else [.inr "COUNT", .inr "1"]
    match options.2.2 with
    | [] => wakeFallback c
    | word :: ids =>
      if ids ≠ [] ∧ ids.length % 2 = 0 then
        result ++ .inl word :: (ids.take (ids.length / 2)).map .inl ++ List.replicate (ids.length / 2) (.inr "0-0")
      else wakeFallback c

def wakeParts (h : Heap) (c : Client) : List Part :=
  if isStreamRead c.blockCmd then buildStreamWakeupCmd h c
  else .inr c.blockCmd :: c.blockKeys.map .inr ++ [.inr "0"]

/-- The parts as arguments, the new bytes in arrays of their own. -/
def allocParts (h : Heap) : List Part → Heap × CmdSlices
  | [] => (h, [])
  | .inl arg :: parts => ((allocParts h parts).1, arg :: (allocParts h parts).2)
  | .inr bs :: parts =>
    let r := allocParts (h.alloc bs.length bs) parts
    (r.1, some ⟨h.next, 0, bs.length⟩ :: r.2)

/-! ## The query buffer -/

/-- `append(c.queryBuf, data...)`. -/
def QueryBuf.append (grow : Nat → Nat → Nat) (h : Heap) (q : QueryBuf) (data : Bytes) : Heap × QueryBuf :=
  let len := q.len + data.length
  if len ≤ (h.arr q.arr).cap then (h.write q.arr q.len data, ⟨q.arr, len⟩)
  else
    let bs := h.read q.slice ++ data
    (h.alloc (max len (grow (h.arr q.arr).cap len)) bs, ⟨h.next, len⟩)

/-- The chunks that `read` gives, one after the other. -/
def QueryBuf.appendAll (grow : Nat → Nat → Nat) : Heap → QueryBuf → List Bytes → Heap × QueryBuf
  | h, q, [] => (h, q)
  | h, q, data :: chunks =>
    let r := q.append grow h data
    appendAll grow r.1 r.2 chunks

/-- The incomplete tail moves to the front. -/
def QueryBuf.compact (h : Heap) (q : QueryBuf) (consumed : Nat) : Heap × QueryBuf :=
  if consumed = 0 then (h, q)
  else (h.write q.arr 0 (h.read ⟨q.arr, consumed, q.len - consumed⟩), ⟨q.arr, q.len - consumed⟩)

/-! ## The server -/

section Server

variable {E R : Type} (rt : Runtime E R)

namespace Server

def modify (s : Server E) (k : Nat) (f : Client → Client) : Server E :=
  { s with clients := Function.update s.clients k (f (s.clients k)) }

def crash (s : Server E) : Server E := { s with crashed := true }

def push (s : Server E) (p : Nat × Bytes) : Server E :=
  s.modify p.1 fun c => { c with out := c.out ++ tagged ⟨p.1, none⟩ p.2 }

/-- `blocks.block`. -/
def register (s : Server E) (k : Nat) (keys : List Bytes) : Server E :=
  { s with waiters := fun key => s.waiters key ++ List.replicate (keys.count key) k }

/-- `blocks.unblock`: the first entry of the client in each list. -/
def unregister (s : Server E) (k : Nat) : Server E := { s with waiters := fun key => (s.waiters key).erase k }

end Server

def keptArgs (h : Heap) (cmdLine : CmdSlices) (keeps : List Nat) : List (Slice × Bytes) :=
  keeps.filterMap fun i => (cmdLine[i]?).join.map fun sl => (sl, h.read sl)

/-- `engine.Exec(c.conn, cmdLine)`. -/
def call (s : Server E) (k : Nat) (cmdLine : CmdSlices) : Server E × Option R :=
  let r := rt.exec s.engine k s.heap cmdLine
  let quiet := s.quiet ∧ s.heap.Extends r.heap
  (r.pushes.foldl Server.push { s with engine := r.state, heap := r.heap, quiet }, r.reply)

def encodeReply (s : Server E) (k : Nat) : Option R → Bytes
  | none => []
  | some reply => rt.encode s.engine k reply

/-- `reply != nil && isNullReply(reply)`. -/
def isNull : Option R → Bool
  | none => false
  | some reply => rt.isNullReply reply

variable (c : Client)

def Client.answer (k : Nat) (no : Nat) (bs : Bytes) : Client :=
  { c with out := c.out ++ tagged ⟨k, some no⟩ bs, answers := c.answers ++ [bs] }

def Client.unblock : Client := { c with blockKeys := [], blockCmd := [], blockCmdLine := [] }

def Client.clearDeadline : Client := { c with blockDeadline := 0 }

def Client.noteGone (fin : Bool) : Client := { c with gone := c.gone || fin }

def closeClient (s : Server E) (k : Nat) : Server E :=
  { s with
    engine := rt.afterClientClose s.engine k
    fds := Function.update s.fds (s.clients k).fd none }

def Client.setOut (out : List (Tag × UInt8)) : Client := { c with out := out }

def Client.deliver (bs : List (Tag × UInt8)) : Client := { c with received := c.received ++ bs }

/-- `flush`. The descriptor may be closed, or another client's by now. -/
def flush (s : Server E) (k : Nat) (net : Nat → Outcome) : Server E :=
  let out := (s.clients k).out
  if out = [] then s
  else
    match s.fds (s.clients k).fd with
    | none => closeClient rt (s.modify k fun c => c.setOut []) k
    | some j =>
      let s := s.modify k fun c => c.setOut ((net k).left out)
      let s := s.modify j fun c => c.deliver (out.take (net k).written)
      if (net k).closes then closeClient rt s k else s

def tryWake (s : Server E) (k : Nat) : Server E × Option R :=
  let cmd := allocParts s.heap (wakeParts s.heap (s.clients k))
  call rt { s with heap := cmd.1 } k cmd.2

def release (s : Server E) (k : Nat) (bs : Bytes) : Server E :=
  (s.modify k fun c => (c.answer k c.blockNo bs).unblock).unregister k

/-- The client waits, and what is written to its descriptor reaches it. -/
def canReceive (s : Server E) (k : Nat) : Bool :=
  s.fds (s.clients k).fd = some k ∧ (s.clients k).blockKeys ≠ [] ∧ (s.clients k).gone = false

def awaken (s : Server E) (k : Nat) (bs : Bytes) : Server E :=
  { release s k bs with woken := s.woken ++ [(k, canReceive s k)] }

/-- One round of the loop of `wakeBlockedClients`. -/
def wakeOne (s : Server E) (k : Nat) (net : Nat → Outcome) : Server E :=
  let r := tryWake rt s k
  match r.2 with
  | none => r.1
  | some reply =>
    if rt.isNullReply reply then r.1
    else
      flush rt (awaken r.1 k (rt.encode r.1.engine k reply)) k net

def wakeBlockedClients (s : Server E) (key : Bytes) (net : Nat → Outcome) : Server E :=
  (s.waiters key).foldl (fun s k => wakeOne rt s k net) s

/-- The client waits. The null reply that was buffered last is dropped. -/
def Client.block (no preLen : Nat) (name : Bytes) (keys : List Bytes) (deadline : Int)
    (cmdLine : CmdSlices) : Client :=
  { c with
    out := c.out.take preLen
    answers := c.answers.dropLast
    blockKeys := keys
    blockCmd := name
    blockDeadline := deadline
    blockCmdLine := cmdLine
    blockNo := no }

/-- After a command: those who wait for what it has added. -/
def wakeAfter (s : Server E) (name : Bytes) (cmdLine : CmdSlices) (net : Nat → Outcome) : Server E :=
  let pushKey := (cmdStrings s.heap cmdLine).getD 1 []
  let s := if isListPushCommand name ∧ 2 ≤ cmdLine.length then wakeBlockedClients rt s pushKey net
    else s
  if isStreamAddCommand name ∧ 2 ≤ cmdLine.length then
    wakeBlockedClients rt s ((cmdStrings s.heap cmdLine).getD 1 []) net
  else s

def Client.executed (no : Nat) (line : List (Option Bytes)) : Client := { c with seen := c.seen ++ [(no, line)] }

def execute (s : Server E) (k no : Nat) (cmdLine : CmdSlices) : Server E × Option R :=
  let line := cmdBytes s.heap cmdLine
  let kept := s.kept ++ keptArgs s.heap cmdLine (rt.exec s.engine k s.heap cmdLine).keeps
  let r := call rt s k cmdLine
  (Server.modify { r.1 with kept } k fun c => (c.executed no line).answer k no (encodeReply rt r.1 k r.2), r.2)

/-- One round of the loop over the parsed commands; with `true` it leaves the loop. -/
def runCmd (s : Server E) (k no : Nat) (now : Int) (net : Nat → Outcome) (cmdLine : CmdSlices) : Server E × Bool :=
  let name := cmdName (cmdStrings s.heap cmdLine)
  let preLen := (s.clients k).out.length
  let r := execute rt s k no cmdLine
  let s := r.1
  let line := cmdStrings s.heap cmdLine
  let keys := blockKeysOf name line
  let deadline := blockDeadlineOf rt now name line
  if isBlockCommand name ∧ isNull rt r.2 ∧ keys ≠ [] ∧ 0 < deadline then
    (Server.register (s.modify k fun c => c.block no preLen name keys deadline cmdLine) k keys, true)
  else (wakeAfter rt s name cmdLine net, false)

/-- The loop over the parsed commands, the first of which has number `no`. A command without a
name makes `cmdLine[0]` panic. -/
def runCmds (s : Server E) (k no : Nat) (now : Int) (net : Nat → Outcome) : List CmdSlices → Server E
  | [] => s
  | [] :: _ => s.crash
  | (arg :: args) :: cmds =>
    let r := runCmd rt s k no now net (arg :: args)
    if r.2 then r.1 else runCmds r.1 k (no + 1) now net cmds

def Client.read (q : QueryBuf) (data : Bytes) : Client := { c with queryBuf := q, sent := c.sent ++ data }

def readAll (s : Server E) (k : Nat) (chunks : List Bytes) : Server E :=
  let r := (s.clients k).queryBuf.appendAll rt.grow s.heap chunks
  Server.modify { s with heap := r.1 } k fun c => c.read r.2 chunks.flatten

def Client.took (q : QueryBuf) (commands : Nat) : Client := { c with queryBuf := q, count := c.count + commands }

def takeCmds (s : Server E) (k commands consumed : Nat) : Server E :=
  let r := (s.clients k).queryBuf.compact s.heap consumed
  Server.modify { s with heap := r.1 } k fun c => c.took r.2 commands

/-- `onReadable`: the chunks of its reads, and whether the last read finds the connection closed
or fails. -/
def onReadable (s : Server E) (k : Nat) (chunks : List Bytes) (fin : Bool) (now : Int)
    (net : Nat → Outcome) : Server E :=
  let no := (s.clients k).count
  let s := readAll rt s k chunks
  let q := (s.clients k).queryBuf
  if fin then closeClient rt (s.modify k fun c => c.noteGone true) k
  else
    match parseRequests (s.heap.read q.slice) with
    | .error .panic => s.crash
    | .error _ => closeClient rt s k
    | .ok (cmds, consumed) =>
      let s := takeCmds s k cmds.length consumed
      let s := runCmds rt s k no now net (cmds.map (cmdSlices q.arr))
      if s.crashed then s else flush rt s k net

/-- One round of the loop of `expireBlockedClients`, at a client found in the map. -/
def expireOne (s : Server E) (now : Int) (net : Nat → Outcome) (fd : Nat) : Server E :=
  match s.fds fd with
  | none => s
  | some k =>
    let c := s.clients k
    if c.blockKeys = [] ∨ c.blockDeadline = 0 ∨ now < c.blockDeadline then s
    else
      let s := release s k (rt.encode s.engine k rt.nullMultiBulk)
      flush rt (s.modify k fun c => c.clearDeadline) k net

inductive Event (E : Type)
  | accept (fd : Nat)
  /-- The poller reports a descriptor: what arrives if it is readable, and whether it is
  writable. -/
  | ready (fd : Nat) (reads : Option (List Bytes × Bool)) (writable : Bool) (now : Int)
      (net : Nat → Outcome)
  /-- The deadlines are checked, the clients in this order. -/
  | expire (order : List Nat) (now : Int) (net : Nat → Outcome)
  /-- The engine's own work: expiry and what runs beside the loop. -/
  | background (engine : E)

/-- `newClient` and its entry in the map. -/
def accept (s : Server E) (fd : Nat) : Server E :=
  match s.fds fd with
  | some _ => s
  | none =>
    { s with
      heap := s.heap.alloc 1024 []
      clients := Function.update s.clients s.next { fd := fd, queryBuf := ⟨s.heap.next, 0⟩ }
      next := s.next + 1
      fds := Function.update s.fds fd (some s.next) }

/-- The readable part of a reported descriptor. A blocked client is not read from, so the loop
does not learn that it is gone. -/
def onReport (s : Server E) (k : Nat) (now : Int) (net : Nat → Outcome) : Option (List Bytes × Bool) → Server E
  | none => s
  | some (chunks, fin) =>
    if (s.clients k).blockKeys = [] then onReadable rt s k chunks fin now net
    else s.modify k fun c => c.noteGone fin

def step (s : Server E) (ev : Event E) : Server E :=
  if s.crashed then s
  else
    match ev with
    | .accept fd => accept s fd
    | .ready fd reads writable now net =>
      match s.fds fd with
      | none => s
      | some k =>
        let s := onReport rt s k now net reads
        if s.crashed ∨ writable = false then s else flush rt s k net
    | .expire order now net => order.foldl (fun s fd => expireOne rt s now net fd) s
    | .background engine => { s with engine := engine }

/-- `NewServer`. -/
def Server.start (e : E) : Server E := { engine := e }

def run (s : Server E) (evs : List (Event E)) : Server E := evs.foldl (step rt) s

end Server

end Hayakv.Net
