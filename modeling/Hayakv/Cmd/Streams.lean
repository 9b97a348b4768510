import Hayakv.Cmd.SortedSets

/-!
# Commands on streams

`internal/command/stream.go`. What XADD logs has the ID that was assigned, and not its trimming
options.
-/

namespace Hayakv.Cmd

open Engine Engine.Exec

/-- `MakeArgNumErrReply`. -/
def argNumErr (name : String) : Reply := .err ("ERR wrong number of arguments for '" ++ str name ++ "' command")

def invalidStreamID : Reply := .error "ERR Invalid stream ID specified as stream command argument"

/-- `ParseID`, or its error. -/
def parseStreamID (s : Bytes) : Except Reply StreamID :=
  match StreamID.parse s with
  | some (id, _) => .ok id
  | none => .error invalidStreamID

/-- The IDs of a list of arguments, or the error of the first that is none. -/
def parseStreamIDs : List Bytes → Except Reply (List StreamID)
  | [] => .ok []
  | s :: args => (parseStreamID s).bind fun id => (parseStreamIDs args).map (id :: ·)

/-- A stream is always an `*object.Robj`. -/
def Entity.asStream (e : Entity) : Except Reply StreamObj :=
  match e.robj, e.value with
  | true, .coll (.stream s) => .ok s
  | _, _ => .error .wrongType

def getAsStream : Key → Exec (Option StreamObj) := getAs Entity.asStream

def getOrInitStream (key : Key) : Exec StreamObj := do
  let found ← getAsStream key
  when found.isNone (putColl key (.stream .new))
  return found.getD .new

/-! ## Adding -/

structure TrimOpts where
  maxLen : Option Int
  minID : Option StreamID
  approx : Bool

/-- `=` or `~`, if it comes next. -/
def parseApprox (approx : Bool) : List Bytes → Bool × List Bytes
  | next :: args =>
    if next = "=" ∨ next = "~" then (next = "~", args) else (approx, next :: args)
  | [] => (approx, [])

def parseMaxLen (v : Bytes) : Except Reply Int :=
  match parseInt v with
  | none => .error (.error "ERR invalid MAXLEN argument")
  | some n => if n < 0 then .error (.error "ERR value is negative or out of range") else .ok n

/-- One trimming option and its value, `none` where another argument comes. -/
def parseTrimOpt (o : TrimOpts) : List Bytes → Option (Except Reply (TrimOpts × List Bytes))
  | [] => none
  | opt :: args =>
    if toUpper opt = "MAXLEN" then
      some <| match parseApprox o.approx args with
        | (_, []) => .error .syntaxErr
        | (approx, v :: args) => (parseMaxLen v).map fun n => ({ o with maxLen := some n, approx }, args)
    else if toUpper opt = "MINID" then
      some <| match parseApprox o.approx args with
        | (_, []) => .error .syntaxErr
        | (approx, v :: args) => (parseStreamID v).map fun id => ({ o with minID := some id, approx }, args)
    else if toUpper opt = "LIMIT" then
      some <| match args with
        | [] => .error .syntaxErr
        | v :: args =>
          if (parseInt v).any (0 ≤ ·) then .ok (o, args) else .error (.error "ERR invalid LIMIT argument")
    else none

/-- The trimming options of XADD. Each takes an argument, so `fuel` need not exceed their number. -/
def parseTrimOpts : Nat → TrimOpts → List Bytes → Except Reply (TrimOpts × List Bytes)
  | 0, o, args => .ok (o, args)
  | fuel + 1, o, args =>
    match parseTrimOpt o args with
    | none => .ok (o, args)
    | some (.error r) => .error r
    | some (.ok (o, args)) => parseTrimOpts fuel o args

/-- The field-value pairs of XADD; `none` for an odd number of arguments or none. -/
def parseFieldPairs : List Bytes → Option (List (Bytes × Bytes))
  | [] => none
  | [_] => none
  | [f, v] => some [(f, v)]
  | f :: v :: args => (parseFieldPairs args).map ((f, v) :: ·)

/-- The arguments of XADD after the key. In place of the ID is what it is to be assigned from, if it
is to be assigned. -/
structure XAddOpts where
  noMkStream : Bool
  trim : TrimOpts
  id : StreamID
  autoAssign : Bool
  fields : List (Bytes × Bytes)

variable (args : List Bytes)

def parseXAdd : Except Reply XAddOpts :=
  let noMkStream := args.head?.any fun a => toUpper a = "NOMKSTREAM"
  let args := if noMkStream then args.drop 1 else args
  (parseTrimOpts args.length ⟨none, none, false⟩ args).bind fun (trim, args) =>
    match args with
    | [] => .error .syntaxErr
    | idStr :: args =>
      match if idStr = "*" then some (.zero, true) else StreamID.parse idStr with
      | none => .error invalidStreamID
      | some (id, autoAssign) =>
        match parseFieldPairs args with
        | none => .error .syntaxErr
        | some fields => .ok ⟨noMkStream, trim, id, autoAssign, fields⟩

def xaddID (env : Env) (o : XAddOpts) (s : StreamObj) : StreamID :=
  if o.autoAssign then s.autoID (if o.id.ms = 0 then UInt64.ofInt env.nowMs else o.id.ms) else o.id

def applyStreamTrim (s : StreamObj) (o : TrimOpts) : StreamObj :=
  let s := (o.maxLen.map fun n => (s.trimMaxLen n o.approx).1).getD s
  (o.minID.map fun id => (s.trimMinID id o.approx).1).getD s

def buildXAddAofArgs (key : Key) (id : StreamID) (fields : List (Bytes × Bytes)) : List Bytes :=
  key :: id.text :: fields.flatMap fun (f, v) => [f, v]

/-- `execXAdd`. A stream that it has made stays when the ID is refused. -/
def execXAdd (env : Env) (args : List Bytes) : Exec Reply := do
  check (args.length < 3) (argNumErr "xadd")
  let key ← arg args 0
  let o ← orReply (parseXAdd (args.drop 1))
  let found ← getAsStream key
  check (o.noMkStream && found.isNone) .nullBulk
  when found.isNone (putColl key (.stream .new))
  let s := found.getD .new
  let id := xaddID env o s
  let s ← orReply ((s.add id o.fields).mapError .err)
  store key (.stream (applyStreamTrim s o.trim))
  addAof ("xadd" :: buildXAddAofArgs key id o.fields)
  return .bulk (some id.text)

/-! ## Reading -/

def parseXRangeCount : List Bytes → Except Reply Int
  | opt :: v :: _ =>
    if toUpper opt ≠ "COUNT" then .error .syntaxErr
    else
      match parseInt v with
      | some c => if c < 0 then .error notInteger else .ok c
      | none => .error notInteger
  | _ => .ok 0

def fieldArgs (fields : List (Bytes × Bytes)) : List Bytes := fields.flatMap fun (f, v) => [f, v]

def streamEntriesToReply (entries : List Entry) : Reply :=
  .array (entries.map fun e => .array [.bulk (some e.id.text), .multiBulk (fieldArgs e.fields)])

/-- `execXRange` and `execXRevRange`, which takes the end first but looks at the start first. -/
def xrangeBy (name : String) (rev : Bool) (args : List Bytes) : Exec Reply := do
  check (args.length < 3) (argNumErr name)
  let key ← arg args 0
  let startStr ← arg args (if rev then 2 else 1)
  let endStr ← arg args (if rev then 1 else 2)
  let start ← orReply (parseStreamID startStr)
  let stop ← orReply (parseStreamID endStr)
  let count ← orReply (parseXRangeCount (args.drop 3))
  let s ← getAsStream key
  let s ← require s (.array [])
  return streamEntriesToReply (if rev then s.revRange start stop count else s.range start stop count)

def execXRange : List Bytes → Exec Reply := xrangeBy "xrange" false

def execXRevRange : List Bytes → Exec Reply := xrangeBy "xrevrange" true

def execXLen : Exec Reply := do
  let key ← arg args 0
  let s ← getAsStream key
  return .int ((s.map StreamObj.len).getD 0)

/-- The optional COUNT and BLOCK of XREAD, and STREAMS; what follows it. -/
def parseXRead : Except Reply (Int × List Bytes) :=
  let count : Except Reply (Int × List Bytes) := match args with
    | opt :: rest =>
      if toUpper opt = "COUNT" then
        match rest with
        | [] => .error .syntaxErr
        | v :: rest =>
          match parseInt v with
          | some c => if c < 0 then .error notInteger else .ok (c, rest)
          | none => .error notInteger
      else .ok (0, args)
    | [] => .ok (0, args)
  count.bind fun (count, args) =>
    let rest : Except Reply (List Bytes) := match args with
      | opt :: rest =>
        if toUpper opt = "BLOCK" then
          match rest with
          | [] => .error .syntaxErr
          | v :: rest => if (parseInt v).isSome then .ok rest else .error notInteger
        else .ok args
      | [] => .ok args
    rest.bind fun args =>
      match args with
      | [] => .error .syntaxErr
      | opt :: args => if toUpper opt = "STREAMS" then .ok (count, args) else .error .syntaxErr

/-- The keys and, after them, the IDs that XREAD and XREADGROUP end with. -/
def splitStreams : List (Key × Bytes) := (args.take (args.length / 2)).zip (args.drop (args.length / 2))

/-- The first ID after `id`; the greatest one is followed by `0-0`. -/
def nextStreamID (id : StreamID) : StreamID :=
  if id.seq = 0xFFFFFFFFFFFFFFFF then ⟨id.ms + 1, 0⟩ else ⟨id.ms, id.seq + 1⟩

def xreadStart (s : StreamObj) (id : Bytes) : Except Reply StreamID :=
  if id = "$" then .ok s.lastID else parseStreamID id

def execXRead : Exec Reply := do
  check (args.length < 4) (argNumErr "xread")
  let (count, rest) ← orReply (parseXRead args)
  check (rest.length < 2 || rest.length % 2 ≠ 0) (.error
    "ERR Unbalanced XREAD list of streams: for each stream key an ID or '$' must be specified")
  let results ← Prog.fold (splitStreams rest) [] fun (results : List Reply) (key, id) => do
    let s ← getAsStream key
    match s with
    | none => return results
    | some s => do
      let start ← orReply (xreadStart s id)
      let entries := s.range (nextStreamID start) .max count
      return if entries = [] then results
        else results ++ [.array [.bulk (some key), streamEntriesToReply entries]]
  return if results.isEmpty then .nullArray else .array results

/-! ## Removing -/

def execXDel : Exec Reply := do
  check (args.length < 2) (argNumErr "xdel")
  let key ← arg args 0
  let s ← getAsStream key
  let s ← require s (.int 0)
  let ids ← orReply (parseStreamIDs (args.drop 1))
  let (s, deleted) := s.delete ids
  store key (.stream s)
  addAof ("xdel" :: args)
  return .int deleted

/-- What XTRIM does to a stream, with the number of entries removed. -/
def trimStream (s : StreamObj) (args : List Bytes) : Except Reply (StreamObj × Nat) :=
  match args with
  | [] => .error (.error "ERR syntax error")
  | opt :: args =>
    if toUpper opt = "MAXLEN" then
      match parseApprox false args with
      | (_, []) => .error .syntaxErr
      | (approx, v :: _) => (parseMaxLen v).map fun n => s.trimMaxLen n approx
    else if toUpper opt = "MINID" then
      match parseApprox false args with
      | (_, []) => .error .syntaxErr
      | (approx, v :: _) => (parseStreamID v).map fun id => s.trimMinID id approx
    else .error (.error "ERR syntax error")

def execXTrim : Exec Reply := do
  check (args.length < 3) (argNumErr "xtrim")
  let key ← arg args 0
  let s ← getAsStream key
  let s ← require s (.int 0)
  let (s, removed) ← orReply (trimStream s (args.drop 1))
  store key (.stream s)
  addAof ("xtrim" :: args)
  return .int removed

/-- The options of XSETID: the number of entries added and the greatest deleted ID. -/
def parseXSetID : UInt64 × StreamID → List Bytes → Except Reply (UInt64 × StreamID)
  | o, [] => .ok o
  | (added, maxDeleted), opt :: args =>
    if toUpper opt = "ENTRIESADDED" then
      match args with
      | [] => .error .syntaxErr
      | v :: args =>
        match parseUint v with
        | none => .error notInteger
        | some n => parseXSetID (n, maxDeleted) args
    else if toUpper opt = "MAXDELETEDID" then
      match args with
      | [] => .error .syntaxErr
      | v :: args =>
        match StreamID.parse v with
        | none => .error invalidStreamID
        | some (id, _) => parseXSetID (added, id) args
    else .error .syntaxErr

def execXSetID : Exec Reply := do
  check (args.length < 2) (argNumErr "xsetid")
  let key ← arg args 0
  let text ← arg args 1
  let lastID ← orReply (parseStreamID text)
  let (entriesAdded, maxDeletedID) ← orReply (parseXSetID (0, .zero) (args.drop 2))
  let s ← getOrInitStream key
  store key (.stream (s.setID lastID entriesAdded maxDeletedID))
  addAof ("xsetid" :: args)
  return .ok

end Hayakv.Cmd
