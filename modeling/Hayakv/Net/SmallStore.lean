import Hayakv.Net.Buffers

/-!
# A small storage engine

What `PING`, `SET`, `GET`, `LPUSH`, `RPUSH`, `RPOPLPUSH`, `BLPOP` and `BRPOP` do with
their arguments, on one database: `SET` keeps the slice that holds the value, as
`MakeStringObject` does, and a list copies its elements. The runs that show what
the event loop does are runs of this engine.
-/

namespace Hayakv.Net

open Function

open Memory (Arr Slice Heap)

structure Store where
  strings : Bytes → Option Slice := fun _ => none
  lists : Bytes → List Bytes := fun _ => []

inductive Answer
  | pong
  | ok
  | null
  | nullMultiBulk
  | bulk (bs : Bytes)
  | pair (key value : Bytes)
  | int (n : Nat)
  | error
deriving DecidableEq, Repr

namespace Answer

def toBytes : Answer → Bytes
  | pong => "+PONG\r\n"
  | ok => "+OK\r\n"
  | null => "$-1\r\n"
  | nullMultiBulk => "*-1\r\n"
  | bulk bs => Resp.bulk bs
  | pair key value => "*2\r\n" ++ Resp.bulk key ++ Resp.bulk value
  | int n => ":" ++ itoa n ++ "\r\n"
  | error => "-ERR\r\n"

end Answer

namespace Store

/-- `execBLPop` and `execBRPop`: the first key that has elements. -/
def pop (left : Bool) (st : Store) : List Bytes → Store × Answer
  | [] => (st, .null)
  | key :: keys =>
    match st.lists key with
    | [] => pop left st keys
    | v :: vs =>
      if left then ({ st with lists := update st.lists key vs }, .pair key v)
      else ({ st with lists := update st.lists key (v :: vs).dropLast }, .pair key ((v :: vs).getLastD []))

/-- `execLPush` and `execRPush`. -/
def push (left : Bool) (st : Store) (key : Bytes) (values : List Bytes) : Store × Answer :=
  let list := if left then values.reverse ++ st.lists key else st.lists key ++ values
  ({ st with lists := update st.lists key list }, .int list.length)

/-- `execRPopLPush`. -/
def rpoplpush (st : Store) (source dest : Bytes) : Store × Answer :=
  match st.lists source with
  | [] => (st, .null)
  | v :: vs =>
    let lists := update st.lists source (v :: vs).dropLast
    let value := (v :: vs).getLastD []
    ({ st with lists := update lists dest (value :: lists dest) }, .bulk value)

/-- A command: the new state, the reply, and the arguments that are kept. -/
def command (st : Store) (h : Heap) (cmdLine : CmdSlices) : Store × Answer × List Nat :=
  let line := cmdStrings h cmdLine
  let name := cmdName line
  let key := line.getD 1 []
  if name = "ping" then (st, .pong, [])
  else if name = "get" then
    match st.strings key with
    | none => (st, .null, [])
    | some value => (st, .bulk (h.read value), [])
  else if name = "set" then
    match (cmdLine[2]?).join with
    | none => (st, .error, [])
    | some value => ({ st with strings := update st.strings key (some value) }, .ok, [2])
  else if name = "lpush" then
    ((st.push true key (line.drop 2)).1, (st.push true key (line.drop 2)).2, [])
  else if name = "rpush" then
    ((st.push false key (line.drop 2)).1, (st.push false key (line.drop 2)).2, [])
  else if name = "rpoplpush" then
    ((st.rpoplpush key (line.getD 2 [])).1, (st.rpoplpush key (line.getD 2 [])).2, [])
  else if name = "blpop" then
    ((st.pop true (extractBlockKeys line)).1, (st.pop true (extractBlockKeys line)).2, [])
  else if name = "brpop" then
    ((st.pop false (extractBlockKeys line)).1, (st.pop false (extractBlockKeys line)).2, [])
  else (st, .error, [])

/-- The event loop on this engine. -/
def runtime : Runtime Store Answer where
  exec st _ h cmdLine :=
    let r := st.command h cmdLine
    { state := r.1, heap := h, reply := some r.2.1, pushes := [], keeps := r.2.2 }
  afterClientClose st _ := st
  isNullReply r := r = .null ∨ r = .nullMultiBulk
  encode _ _ r := r.toBytes
  nullMultiBulk := .nullMultiBulk
  grow cap _ := 2 * cap
  timeoutNanos bs := ((parseInt bs).filter (0 < ·)).map (· * 1000000000)

theorem quiet_run (evs : List (Event Store)) : (run runtime (.start {}) evs).quiet :=
  Still.quiet (fun _ _ h _ => .refl h) {} evs

def writeAll : Nat → Outcome := fun _ => .wrote 1000

/-- Commands arrive in one piece, with `more` behind them. -/
def arrives (fd : Nat) (cmds : List (List Bytes)) (more : Bytes) : Event Store :=
  .ready fd (some ([cmds.flatMap Resp.toBytes ++ more], false)) false 0 writeAll

end Store

end Hayakv.Net
