import Hayakv.Cmd.Streams

/-!
# Commands on consumer groups

`internal/command/stream_group.go`. XGROUP and XINFO have a subcommand in front of the key. What
XGROUP logs lacks the subcommand, and XREADGROUP logs nothing.
-/

namespace Hayakv.Cmd

open Engine Engine.Exec

def noGroup : Reply := .error "NOGROUP No such consumer group"

def parseStreamStartID (s : StreamObj) (text : Bytes) : Except Reply StreamID :=
  if text = "$" then .ok s.lastID
  else if text = "0" then .ok .zero
  else parseStreamID text

/-! ## XGROUP -/

/-- The options of XGROUP CREATE, and of SETID, which does not know MKSTREAM: whether to make the
stream. The number of entries added is read and dropped. -/
def parseXGroup (create : Bool) : Bool → List Bytes → Except Reply Bool
  | mkstream, [] => .ok mkstream
  | mkstream, opt :: args =>
    if create ∧ toUpper opt = "MKSTREAM" then parseXGroup create true args
    else if toUpper opt = "ENTRIESADDED" then
      match args with
      | [] => .error .syntaxErr
      | v :: args => if (parseUint v).isSome then parseXGroup create mkstream args else .error notInteger
    else .error .syntaxErr

variable (args : List Bytes)

def execXGroupCreate : Exec Reply := do
  check (args.length < 3) .syntaxErr
  let key ← arg args 0
  let group ← arg args 1
  let startArg ← arg args 2
  let mkstream ← orReply (parseXGroup true false (args.drop 3))
  let found ← getAsStream key
  check (found.isNone && !mkstream) (.error "ERR The XGROUP subcommand requires the key to exist")
  when found.isNone (putColl key (.stream .new))
  let s := found.getD .new
  let start ← orReply (parseStreamStartID s startArg)
  check (s.getGroup group).isSome (.error "BUSYGROUP Consumer Group name already exists")
  store key (.stream (s.setGroup group (.new start)))
  addAof ("xgroup" :: args)
  return .ok

def execXGroupSetID : Exec Reply := do
  check (args.length < 3) .syntaxErr
  let key ← arg args 0
  let group ← arg args 1
  let startArg ← arg args 2
  let _ ← orReply (parseXGroup false false (args.drop 3))
  let s ← getAsStream key
  let s ← require s (.error "ERR The XGROUP subcommand requires the key to exist")
  let g ← require (s.getGroup group) noGroup
  let start ← orReply (parseStreamStartID s startArg)
  store key (.stream (s.setGroup group { g with lastDelivered := start }))
  addAof ("xgroup" :: args)
  return .ok

def execXGroupDestroy : Exec Reply := do
  check (args.length < 2) .syntaxErr
  let key ← arg args 0
  let group ← arg args 1
  let s ← getAsStream key
  let s ← require s (.int 0)
  check (s.getGroup group).isNone (.int 0)
  store key (.stream { s with groups := removeField group s.groups })
  addAof ("xgroup" :: args)
  return .int 1

variable (env : Env)

/-- `execXGroupCreateConsumer`: it reads what is new for the consumer, and makes no consumer where
there is nothing. -/
def execXGroupCreateConsumer (args : List Bytes) : Exec Reply := do
  check (args.length < 3) .syntaxErr
  let key ← arg args 0
  let group ← arg args 1
  let consumer ← arg args 2
  let s ← getAsStream key
  let s ← require s (.int 0)
  let g ← require (s.getGroup group) noGroup
  check (g.consumers.lookup consumer).isSome (.int 0)
  store key (.stream (s.setGroup group (g.readNew s consumer 0 env.nowMs).1))
  addAof ("xgroup" :: args)
  return .int 1

def execXGroupDelConsumer : Exec Reply := do
  check (args.length < 3) .syntaxErr
  let key ← arg args 0
  let group ← arg args 1
  let consumer ← arg args 2
  let s ← getAsStream key
  let s ← require s (.int 0)
  let g ← require (s.getGroup group) noGroup
  let c ← require (g.consumers.lookup consumer) (.int 0)
  let acked := (g.ack (c.pending.map Prod.fst)).1
  store key (.stream (s.setGroup group { acked with consumers := removeField consumer acked.consumers }))
  addAof ("xgroup" :: args)
  return .int c.pending.length

def execXGroup (args : List Bytes) : Exec Reply :=
  match args with
  | [] => reply (.error "ERR wrong number of arguments for 'xgroup' command")
  | sub :: args =>
    if toUpper sub = "CREATE" then execXGroupCreate args
    else if toUpper sub = "SETID" then execXGroupSetID args
    else if toUpper sub = "DESTROY" then execXGroupDestroy args
    else if toUpper sub = "CREATECONSUMER" then execXGroupCreateConsumer env args
    else if toUpper sub = "DELCONSUMER" then execXGroupDelConsumer args
    else reply (.error "ERR Unknown subcommand or wrong number of arguments for 'XGROUP' command")

/-! ## XREADGROUP and XACK -/

structure XReadGroupOpts where
  group : Bytes
  consumer : Bytes
  count : Int
  noack : Bool
  blockMs : Int

/-- The options of XREADGROUP, and what follows STREAMS. GROUP with one argument panics. -/
def parseXReadGroup : XReadGroupOpts → List Bytes → Except Exit (XReadGroupOpts × List Bytes)
  | _, [] => .error (.reply .syntaxErr)
  | o, opt :: args =>
    if toUpper opt = "GROUP" then
      match args with
      | [] => .error (.reply .syntaxErr)
      | [_] => .error .panic
      | group :: consumer :: args => parseXReadGroup { o with group, consumer } args
    else if toUpper opt = "COUNT" then
      match args with
      | [] => .error (.reply .syntaxErr)
      | v :: args =>
        match parseInt v with
        | some n => if n ≤ 0 then .error (.reply notInteger) else parseXReadGroup { o with count := n } args
        | none => .error (.reply notInteger)
    else if toUpper opt = "NOACK" then parseXReadGroup { o with noack := true } args
    else if toUpper opt = "BLOCK" then
      match args with
      | [] => .error (.reply .syntaxErr)
      | v :: args =>
        match parseInt v with
        | some n => parseXReadGroup { o with blockMs := n } args
        | none => .error (.reply notInteger)
    else if toUpper opt = "STREAMS" then .ok (o, args)
    else .error (.reply .syntaxErr)

def fieldsOf (s : StreamObj) (id : StreamID) : List (Bytes × Bytes) :=
  ((s.range id id 1).head?.map Entry.fields).getD []

/-- What XREADGROUP reads from a stream: new entries for `>`, or pending ones. -/
def readGroup (o : XReadGroupOpts) (s : StreamObj) (g : Group) (id : Bytes) : Except Reply (Group × List Entry) :=
  if id = ">" then
    let (g, entries) := g.readNew s o.consumer o.count env.nowMs
    .ok (g, entries.map fun e => if e.fields = [] then { e with fields := fieldsOf s e.id } else e)
  else
    (parseStreamID id).map fun start =>
      let ids := g.readPending o.consumer start .max o.count
      (if o.noack then (g.ack ids).1 else g, ids.map fun id => ⟨id, fieldsOf s id⟩)

def flatEntry (e : Entry) : Reply := .multiBulk (e.id.text :: fieldArgs e.fields)

def execXReadGroup (args : List Bytes) : Exec Reply := do
  check (args.length < 2) .syntaxErr
  let (o, rest) ← orExit (parseXReadGroup ⟨[], [], 0, false, -1⟩ args)
  check (o.group = [] || o.consumer = []) .syntaxErr
  check (rest.length = 0 || rest.length % 2 ≠ 0) .syntaxErr
  check (o.blockMs = 0) .nullBulk
  let results ← Prog.fold (splitStreams rest) [] fun (results : List Reply) (key, id) => do
    let s ← getAsStream key
    match s with
    | none => return results
    | some s => do
      let g ← require (s.getGroup o.group) (.err ("NOGROUP No such consumer group '" ++ o.group ++
        "' in key '" ++ key ++ "'"))
      let (g, entries) ← orReply (readGroup env o s g id)
      when (id = ">" || o.noack) (store key (.stream (s.setGroup o.group g)))
      return if entries = [] then results
        else results ++ [.array [.bulk (some key), .array (entries.map flatEntry)]]
  return if results.isEmpty then .nullBulk else .array results

def execXAck : Exec Reply := do
  check (args.length < 3) .syntaxErr
  let key ← arg args 0
  let group ← arg args 1
  let ids ← orReply (parseStreamIDs (args.drop 2))
  let s ← getAsStream key
  let s ← require s (.int 0)
  let g ← require (s.getGroup group) noGroup
  let (g, acked) := g.ack ids
  store key (.stream (s.setGroup group g))
  addAof ("xack" :: args)
  return .int acked

/-! ## XPENDING -/

def xpendingSummary (g : Group) : Reply :=
  if g.pending = [] then .array [.int 0]
  else
    let ids := g.consumers.flatMap fun (_, c) => c.pending.map Prod.fst
    let smallest := ids.foldl (fun m id => if m.greater id then id else m) .max
    let largest := ids.foldl (fun m id => if id.greater m then id else m) .zero
    .array [.int g.pending.length, .bulk (some smallest.text), .bulk (some largest.text),
      .array ((g.consumers.filter fun (_, c) => c.pending ≠ []).flatMap fun (name, c) =>
        [.bulk (some name), .int c.pending.length])]

/-- The time since a moment, 0 for one that is still to come. -/
def idleTime (now t : Int) : Int := max 0 (wrap64 (now - t))

def xpendingExtended (g : Group) (start stop : StreamID) (count : Int) (consumer : Bytes) (now : Int) : Reply :=
  let found : List Reply := (g.consumers.filter fun (name, _) => consumer = [] || name = consumer).flatMap
    fun (_, c) => (c.pending.filter fun (id, _) =>
      (id.greater start || id = start) && !id.greater stop).flatMap fun (id, p) =>
        (g.pendingEntries[p]?).toList.map fun pe =>
          .array [.bulk (some id.text), .bulk (some pe.consumer), .int (idleTime now pe.deliveryTime),
            .int (wrap64 pe.deliveryCount.toNat)]
  .array (if 0 < count then found.take count.toNat else found)

def execXPending (args : List Bytes) : Exec Reply := do
  check (args.length < 2) .syntaxErr
  let key ← arg args 0
  let group ← arg args 1
  let s ← getAsStream key
  let s ← require s .emptyMultiBulk
  let g ← require (s.getGroup group) noGroup
  check (args.length = 2) (xpendingSummary g)
  check (args.length < 5) .syntaxErr
  let startArg ← arg args 2
  let endArg ← arg args 3
  let countArg ← arg args 4
  let count ← require (parseInt countArg) notInteger
  check (count < 0) notInteger
  let start ← orReply (parseStreamID startArg)
  let stop ← orReply (parseStreamID endArg)
  return xpendingExtended g start stop count (args[5]?.getD []) env.nowMs

/-! ## XCLAIM and XAUTOCLAIM -/

structure XClaimOpts where
  idleMs : Int
  timeMs : Int
  retryCount : Int
  force : Bool
  justid : Bool

/-- Whether an argument ends the IDs of XCLAIM. -/
def isXClaimOpt (a : Bytes) : Bool :=
  toUpper a ∈ [str "IDLE", str "TIME", str "RETRYCOUNT", str "FORCE", str "JUSTID"]

def parseXClaim : XClaimOpts → List Bytes → Except Reply XClaimOpts
  | o, [] => .ok o
  | o, opt :: args =>
    if toUpper opt = "FORCE" then parseXClaim { o with force := true } args
    else if toUpper opt = "JUSTID" then parseXClaim { o with justid := true } args
    else if toUpper opt = "IDLE" then
      match args with
      | [] => .error .syntaxErr
      | v :: args =>
        match parseInt v with
        | some n => parseXClaim { o with idleMs := n } args
        | none => .error notInteger
    else if toUpper opt = "TIME" then
      match args with
      | [] => .error .syntaxErr
      | v :: args =>
        match parseInt v with
        | some n => parseXClaim { o with timeMs := n } args
        | none => .error notInteger
    else if toUpper opt = "RETRYCOUNT" then
      match args with
      | [] => .error .syntaxErr
      | v :: args =>
        match parseInt v with
        | some n => parseXClaim { o with retryCount := n } args
        | none => .error notInteger
    else .error .syntaxErr

/-- What XCLAIM's options change of a claimed entry. -/
def adjustPending (o : XClaimOpts) (now : Int) (pe : PendingEntry) : PendingEntry :=
  { pe with
    deliveryTime := if 0 ≤ o.idleMs then wrap64 (now - o.idleMs)
      else if 0 ≤ o.timeMs then o.timeMs else pe.deliveryTime
    deliveryCount := if 0 ≤ o.retryCount then UInt64.ofInt o.retryCount else pe.deliveryCount }

/-- Change the entries pending under these IDs for a consumer. -/
def adjustClaimed (o : XClaimOpts) (now : Int) (consumer : Bytes) (claimed : List StreamID) (g : Group) : Group :=
  match g.consumers.lookup consumer with
  | none => g
  | some c => claimed.foldl (fun g id =>
      match c.pending.lookup id with
      | some p => { g with pendingEntries := g.pendingEntries.modify p (adjustPending o now) }
      | none => g) g

/-- The entries with these IDs, of which only the ID may be left. -/
def claimedEntries (s : StreamObj) (ids : List StreamID) : List Reply :=
  ids.map fun id => flatEntry ⟨id, fieldsOf s id⟩

def idReplies (ids : List StreamID) : List Reply := ids.map fun id => .bulk (some id.text)

/-- `execXClaim`. With JUSTID it logs nothing. -/
def execXClaim (args : List Bytes) : Exec Reply := do
  check (args.length < 4) .syntaxErr
  let key ← arg args 0
  let group ← arg args 1
  let consumer ← arg args 2
  let text ← arg args 3
  let minIdleTime ← require (parseInt text) notInteger
  let ids ← orReply (parseStreamIDs ((args.drop 4).takeWhile fun a => !isXClaimOpt a))
  let o ← orReply (parseXClaim ⟨-1, -1, -1, false, false⟩ ((args.drop 4).dropWhile fun a => !isXClaimOpt a))
  let s ← getAsStream key
  let s ← require s .emptyMultiBulk
  let g ← require (s.getGroup group) noGroup
  let (g, claimed) := g.claim consumer minIdleTime ids o.force env.nowMs
  let g := adjustClaimed o env.nowMs consumer claimed g
  store key (.stream (s.setGroup group g))
  check o.justid (.array (idReplies claimed))
  check (claimed = []) .emptyMultiBulk
  addAof ("xclaim" :: args)
  return .array (claimedEntries s claimed)

def parseXAutoClaim : Int × Bool → List Bytes → Except Reply (Int × Bool)
  | o, [] => .ok o
  | (count, justid), opt :: args =>
    if toUpper opt = "COUNT" then
      match args with
      | [] => .error .syntaxErr
      | v :: args =>
        match parseInt v with
        | some n => if n ≤ 0 then .error notInteger else parseXAutoClaim (n, justid) args
        | none => .error notInteger
    else if toUpper opt = "JUSTID" then parseXAutoClaim (count, true) args
    else .error .syntaxErr

/-- The IDs that XAUTOCLAIM claims, the greatest first. -/
def idlePending (g : Group) (start : StreamID) (minIdleTime count now : Int) : List StreamID :=
  let ids := g.consumers.flatMap fun (_, c) =>
    (c.pending.filter fun (id, p) => (id.greater start || id = start) &&
      (g.pendingEntries[p]?).any fun pe => minIdleTime ≤ wrap64 (now - pe.deliveryTime)).map Prod.fst
  (sortBy StreamID.greater ids).take count.toNat

def nextStart (start : StreamID) (claimed : List StreamID) : StreamID :=
  match claimed.getLast? with
  | some last => ⟨if last.seq + 1 = 0 then last.ms + 1 else last.ms, last.seq + 1⟩
  | none => start

/-- `execXAutoClaim`. With JUSTID it logs nothing. -/
def execXAutoClaim (args : List Bytes) : Exec Reply := do
  check (args.length < 5) .syntaxErr
  let key ← arg args 0
  let group ← arg args 1
  let consumer ← arg args 2
  let text ← arg args 3
  let minIdleTime ← require (parseInt text) notInteger
  let startArg ← arg args 4
  let (count, justid) ← orReply (parseXAutoClaim (100, false) (args.drop 5))
  let start ← orReply (parseStreamID startArg)
  let s ← getAsStream key
  let s ← require s noGroup
  let g ← require (s.getGroup group) noGroup
  let toClaim := idlePending g start minIdleTime count env.nowMs
  let (g, claimed) := g.claim consumer minIdleTime toClaim false env.nowMs
  store key (.stream (s.setGroup group g))
  let next := Reply.bulk (some (nextStart start claimed).text)
  check justid (.array [next, .array (idReplies claimed), .emptyMultiBulk])
  addAof ("xautoclaim" :: args)
  return .array [next, .array (claimedEntries s claimed), .emptyMultiBulk]

/-! ## XINFO -/

/-- The options of XINFO STREAM, which change nothing. -/
def parseXInfo : List Bytes → Except Reply Unit
  | [] => .ok ()
  | opt :: args =>
    if toUpper opt = "FULL" then parseXInfo args
    else if toUpper opt = "COUNT" then
      match args with
      | [] => .error .syntaxErr
      | v :: args => if (parseInt v).any (0 ≤ ·) then parseXInfo args else .error notInteger
    else .error .syntaxErr

def namedReplies (rs : List (String × Reply)) : List Reply := rs.flatMap fun (name, r) => [.bulk (some (str name)), r]

/-- The first entry of a list, an empty array if there is none. -/
def firstEntry (es : List Entry) : Reply := (es.head?.map flatEntry).getD .emptyMultiBulk

def execXInfoStream : Exec Reply := do
  check (args.length < 1) .syntaxErr
  let key ← arg args 0
  orReply (parseXInfo (args.drop 1))
  let s ← getAsStream key
  let s ← require s (.error "ERR no such key")
  return .array (namedReplies [
    ("length", .int s.len),
    ("radix-tree-keys", .int 1),
    ("radix-tree-nodes", .int 2),
    ("groups", .int s.groups.length),
    ("last-generated-id", .bulk (some s.lastID.text)),
    ("max-deleted-entry-id", .bulk (some s.maxDeletedID.text)),
    ("entries-added", .int (wrap64 s.entriesAdded.toNat)),
    ("first-entry", firstEntry (s.range .zero .max 1)),
    ("last-entry", firstEntry (if 0 < s.len then s.range s.lastID s.lastID 1 else []))])

def execXInfoGroups : Exec Reply := do
  check (args.length < 1) .syntaxErr
  let key ← arg args 0
  let s ← getAsStream key
  let s ← require s (.error "ERR no such key")
  return .array (s.groups.map fun (name, g) => .array (namedReplies [
    ("name", .bulk (some name)),
    ("consumers", .int g.consumers.length),
    ("pending", .int g.pending.length),
    ("last-delivered-id", .bulk (some g.lastDelivered.text)),
    ("entries-read", .int (wrap64 s.entriesAdded.toNat)),
    ("lag", .int (wrap64 (g.lag s.entriesAdded).toNat))]))

def execXInfoConsumers (args : List Bytes) : Exec Reply := do
  check (args.length < 2) .syntaxErr
  let key ← arg args 0
  let group ← arg args 1
  let s ← getAsStream key
  let s ← require s (.error "ERR no such key")
  let g ← require (s.getGroup group) noGroup
  return .array (g.consumers.map fun (name, c) => .array (namedReplies [
    ("name", .bulk (some name)),
    ("pending", .int c.pending.length),
    ("idle", .int (idleTime env.nowMs c.activeTime))]))

def execXInfo (args : List Bytes) : Exec Reply :=
  match args with
  | [] => reply (.error "ERR wrong number of arguments for 'xinfo' command")
  | sub :: args =>
    if toUpper sub = "STREAM" then execXInfoStream args
    else if toUpper sub = "GROUPS" then execXInfoGroups args
    else if toUpper sub = "CONSUMERS" then execXInfoConsumers env args
    else reply (.error "ERR Unknown subcommand or wrong number of arguments for 'XINFO' command")

end Hayakv.Cmd
