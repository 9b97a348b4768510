import Hayakv.Resp.Parser
import Hayakv.Lib.Guarded

/-!
# The replication backlog

`internal/command/replication_master.go`: the bounded window of the replication
stream that a master keeps (`replBacklog`), what it sends from it, and its
replacement by `rewriteRDB`. Offsets count bytes; the wrap of `int64` is out of
reach of any stream.

`Window base b σ` says that a backlog, numbered from `base` on, holds an end of the
bytes `σ` that it was given. A window that starts at `0` answers from any valid
offset with exactly the bytes since (`Window.getSnapshotAfter`,
`Window.sendUpdates`).

`rewriteRDB` counts the bytes of a new backlog from `0`, and does not give it the
pings and GETACKs of the old one. A swap keeps the window exactly if nothing had
been streamed when the rewrite began and the two backlogs have been given as much
since (`backlog_window`).
-/

namespace Hayakv.Repl

open Resp (CmdLine toBytes)
open List

structure ReplBacklog where
  buf : Bytes := []
  beginOffset : Int := 0
  currentOffset : Int := 0
  limit : Int := 0
  totalProduced : Int := 0
deriving DecidableEq, Repr

namespace ReplBacklog

/-- `appendBytes`: beyond the limit the oldest bytes are dropped. -/
def appendBytes (b : ReplBacklog) (bin : Bytes) : ReplBacklog :=
  let buf := b.buf ++ bin
  let b := { b with
    buf, currentOffset := b.currentOffset + bin.length, totalProduced := b.totalProduced + bin.length }
  if 0 < b.limit ∧ b.limit < (buf.length : Int) then
    let drop := (buf.length : Int) - b.limit
    { b with buf := buf.drop drop.toNat, beginOffset := b.beginOffset + drop }
  else b

/-- `getSnapshotAfter`; `none` where the slice is out of range. -/
def getSnapshotAfter (b : ReplBacklog) (beginOffset : Int) : Option (Bytes × Int) :=
  if b.currentOffset ≤ beginOffset then some ([], b.currentOffset)
  else
    let beg := (beginOffset - b.beginOffset).toNat
    if b.buf.length < beg then none else some (b.buf.drop beg, b.currentOffset)

def isValidOffset (b : ReplBacklog) (offset : Int) : Bool := b.beginOffset ≤ offset && offset ≤ b.currentOffset

end ReplBacklog

/-- What `masterSendUpdatesToSlave` does with one replica: it is removed, the slice is out of range,
or it is sent bytes and its `sendOffset` is set. -/
inductive Sent
  | removed
  | panic
  | sent (bytes : Bytes) (sendOffset : Int)
deriving DecidableEq, Repr

/-- `masterSendUpdatesToSlave`, for an online replica: the end of `getSnapshot` that it was not sent
yet. -/
def sendUpdates (b : ReplBacklog) (sendOffset : Int) : Sent :=
  let slaveBeginOffset := sendOffset - b.beginOffset
  if slaveBeginOffset < 0 then .removed
  else if (b.buf.length : Int) < slaveBeginOffset then .panic
  else .sent (b.buf.drop slaveBeginOffset.toNat) b.currentOffset

/-! ## Windows -/

/-- The backlog holds an end of the bytes `σ` that it was given; their first one has the number
`base`, but they are counted from `0`. -/
structure Window (base : Int) (b : ReplBacklog) (σ : Bytes) : Prop where
  begin_ge : base ≤ b.beginOffset
  begin_le : b.beginOffset - base ≤ σ.length
  current : b.currentOffset = σ.length
  bytes : b.buf = σ.drop (b.beginOffset - base).toNat

namespace Window

variable {base : Int} {b : ReplBacklog} {σ : Bytes}

theorem length (h : Window base b σ) : (b.buf.length : Int) = b.currentOffset - (b.beginOffset - base) := by
  have := h.begin_ge
  have := h.begin_le
  rw [h.bytes, h.current, length_drop]
  omega

theorem append (h : Window base b σ) (bin : Bytes) : Window base (b.appendBytes bin) (σ ++ bin) := by
  have hge := h.begin_ge
  have hlen := h.length
  have hcur := h.current
  have hbuf : b.buf ++ bin = (σ ++ bin).drop (b.beginOffset - base).toNat := by
    rw [h.bytes, drop_append_of_le_length (by omega)]
  have hbin : ((b.buf ++ bin).length : Int) = b.buf.length + bin.length := by simp
  have hσ : ((σ ++ bin).length : Int) = σ.length + bin.length := by simp
  rw [ReplBacklog.appendBytes]
  dsimp only
  split
  · rename_i hlim
    refine ⟨?_, ?_, ?_, ?_⟩ <;> dsimp only
    · omega
    · omega
    · omega
    · rw [hbin]
      rw [hbuf, drop_drop]
      congr 1
      omega
  · refine ⟨hge, ?_, ?_, hbuf⟩ <;> dsimp only <;> omega

theorem drop_eq (h : Window 0 b σ) {o : Int} (ho : b.beginOffset ≤ o) :
    b.buf.drop (o - b.beginOffset).toNat = σ.drop o.toNat := by
  have hge := h.begin_ge
  rw [h.bytes, drop_drop]
  congr 1
  omega

theorem getSnapshotAfter (h : Window 0 b σ) {o : Int} (ho : b.isValidOffset o = true) :
    b.getSnapshotAfter o = some (σ.drop o.toNat, b.currentOffset) := by
  rw [ReplBacklog.isValidOffset, Bool.and_eq_true, decide_eq_true_eq, decide_eq_true_eq] at ho
  have hlen := h.length
  have hcur := h.current
  rw [ReplBacklog.getSnapshotAfter]
  split
  · rw [drop_eq_nil_of_le (by omega)]
  · dsimp only
    rw [if_neg (by omega), h.drop_eq ho.1]

theorem sendUpdates (h : Window 0 b σ) {o : Int} (ho : b.isValidOffset o = true) :
    Repl.sendUpdates b o = .sent (σ.drop o.toNat) b.currentOffset := by
  rw [ReplBacklog.isValidOffset, Bool.and_eq_true, decide_eq_true_eq, decide_eq_true_eq] at ho
  have hlen := h.length
  rw [Repl.sendUpdates, if_neg (by omega), if_neg (by omega), h.drop_eq ho.1]

end Window

/-! ## The master -/

/-- A `rewriteRDB` whose listener gets updates: its new backlog, and `snapshotOffset`. -/
structure Rewrite where
  backlog : ReplBacklog
  snapshotOffset : Int
deriving DecidableEq, Repr

/-- `masterStatus`, as far as its stream goes. -/
structure Master where
  backlog : ReplBacklog
  /-- How many listeners of the persister write to the backlog. -/
  listeners : Nat
  rewrites : List Rewrite
  /-- All bytes that the backlogs of the master were given while they were the current one. -/
  stream : Bytes
deriving DecidableEq, Repr

/-- `initMasterStatus`. -/
def Master.init (limit : Int) : Master := ⟨{ limit }, 0, [], []⟩

def pingBytes : Bytes := toBytes ["ping"]

def getackBytes : Bytes := toBytes ["REPLCONF", "GETACK", "*"]

inductive MasterEvent
  /-- `saveForReplication` registers its listener. -/
  | save
  /-- The persister calls its listeners. -/
  | callback (cmdLines : List CmdLine)
  /-- `masterCron`. -/
  | ping
  /-- `getAckFromSlaves`. -/
  | getack
  /-- `rewriteRDB`, up to the end of its hook; `limit` is the configured size. -/
  | rewrite (limit : Int)
  /-- The end of a `rewriteRDB`. -/
  | swap (i : Nat)
deriving DecidableEq, Repr

def ReplBacklog.callback (b : ReplBacklog) (cmdLines : List CmdLine) : ReplBacklog :=
  cmdLines.foldl (fun b cmdLine => b.appendBytes (toBytes cmdLine)) b

namespace Master

variable (s : Master)

def appendBytes (bin : Bytes) : Master := { s with backlog := s.backlog.appendBytes bin, stream := s.stream ++ bin }

/-- Every listener of the current backlog appends the command lines to it. -/
def callbacks (cmdLines : List CmdLine) : Nat → Master → Master
  | 0, s => s
  | k + 1, s =>
    callbacks cmdLines k
      { s with backlog := s.backlog.callback cmdLines, stream := s.stream ++ cmdLines.flatMap toBytes }

/-- A rewrite begins with its hook, under the lock of the persister: no callback comes between. -/
def startRewrite (limit : Int) : Rewrite :=
  ⟨{ limit, beginOffset := s.backlog.currentOffset }, s.backlog.currentOffset⟩

/-- One event. A rewrite only begins once a replica was served, so with a listener registered. -/
def step : MasterEvent → Master
  | .save => { s with listeners := s.listeners + 1 }
  | .callback cmdLines =>
    let s := callbacks cmdLines s.listeners s
    { s with rewrites := s.rewrites.map fun r => { r with backlog := r.backlog.callback cmdLines } }
  | .ping => s.appendBytes pingBytes
  | .getack => s.appendBytes getackBytes
  | .rewrite limit =>
    if s.listeners = 0 then s else { s with rewrites := s.rewrites ++ [s.startRewrite limit] }
  | .swap i =>
    match s.rewrites[i]? with
    | none => s
    | some r => { s with backlog := r.backlog, listeners := 1, rewrites := s.rewrites.eraseIdx i }

/-- The rewrite began before anything was streamed, and its backlog has been given as much as the
current one. -/
def Aligned (r : Rewrite) : Prop := r.snapshotOffset = 0 ∧ r.backlog.currentOffset = s.backlog.currentOffset

/-- The condition on one event: the backlog swapped in is aligned. -/
def SwapAligned : MasterEvent → Prop
  | .swap i => ∀ r ∈ s.rewrites[i]?, s.Aligned r
  | _ => True

instance (s : Master) (r : Rewrite) : Decidable (s.Aligned r) := inferInstanceAs (Decidable (_ ∧ _))

instance (s : Master) (e : MasterEvent) : Decidable (s.SwapAligned e) := by
  cases e <;> unfold SwapAligned <;> infer_instance

end Master

/-! ## Rewrites under way -/

/-- What is known of a rewrite under way: it began `snapshotOffset` bytes into the stream, and its
backlog was given as much as the stream got since only if it was given just that. -/
structure Pending (stream : Bytes) (r : Rewrite) (before since given : Bytes) : Prop where
  stream_eq : stream = before ++ since
  before_len : (before.length : Int) = r.snapshotOffset
  window : Window r.snapshotOffset r.backlog given
  given_le : given.length ≤ since.length
  given_eq : given.length = since.length → given = since

namespace Pending

variable {stream before since given : Bytes} {r : Rewrite}

theorem append (h : Pending stream r before since given) (bin : Bytes) :
    Pending (stream ++ bin) r before (since ++ bin) given where
  stream_eq := by rw [h.stream_eq, append_assoc]
  before_len := h.before_len
  window := h.window
  given_le := by
    have := h.given_le
    rw [length_append]
    omega
  given_eq hlen := by
    have hle := h.given_le
    rw [length_append] at hlen
    obtain rfl : bin = [] := length_eq_zero_iff.1 (by omega)
    rw [append_nil]
    exact h.given_eq (by simpa using hlen)

end Pending

theorem Window.callback {base : Int} {b : ReplBacklog} {σ : Bytes} (h : Window base b σ)
    (cmdLines : List CmdLine) : Window base (b.callback cmdLines) (σ ++ cmdLines.flatMap toBytes) := by
  induction cmdLines generalizing b σ with
  | nil => simpa [ReplBacklog.callback] using h
  | cons cmdLine cmdLines ih =>
    rw [flatMap_cons, ← append_assoc]
    exact ih (h.append (toBytes cmdLine))

theorem Pending.callback {stream before since given : Bytes} {r : Rewrite}
    (h : Pending stream r before since given) (cmdLines : List CmdLine) :
    Pending (stream ++ cmdLines.flatMap toBytes) { r with backlog := r.backlog.callback cmdLines } before
      (since ++ cmdLines.flatMap toBytes) (given ++ cmdLines.flatMap toBytes) where
  stream_eq := by rw [h.stream_eq, append_assoc]
  before_len := h.before_len
  window := h.window.callback cmdLines
  given_le := by
    have := h.given_le
    rw [length_append, length_append]
    omega
  given_eq hlen := by
    rw [length_append, length_append] at hlen
    rw [h.given_eq (by omega)]

theorem Pending.aligned {s : Master} {before since given : Bytes} {r : Rewrite}
    (h : Pending s.stream r before since given) (hs : Window 0 s.backlog s.stream)
    (ha : s.Aligned r) : Window 0 r.backlog s.stream := by
  have hbefore := h.before_len
  rw [ha.1] at hbefore
  have hnil : before = [] := length_eq_zero_iff.1 (by omega)
  have hlen : given.length = since.length := by
    have hg := h.window.current
    have hcur := hs.current
    rw [h.stream_eq, hnil, nil_append] at hcur
    have := ha.2
    omega
  have hw := h.window
  rw [ha.1, h.given_eq hlen] at hw
  rwa [h.stream_eq, hnil, nil_append]

namespace Master

/-- What holds after every run whose swaps are aligned. -/
structure Inv (s : Master) : Prop where
  window : Window 0 s.backlog s.stream
  listening : s.rewrites ≠ [] → 0 < s.listeners
  pending : ∀ r ∈ s.rewrites, ∃ before since given, Pending s.stream r before since given

theorem inv_init (limit : Int) : (init limit).Inv where
  window := ⟨Int.le_refl 0, Int.le_refl 0, rfl, rfl⟩
  listening h := absurd rfl h
  pending _ h := absurd h not_mem_nil

variable {s : Master}

theorem Inv.appendBytes (h : s.Inv) (bin : Bytes) : (s.appendBytes bin).Inv where
  window := h.window.append bin
  listening := h.listening
  pending r hr := by
    obtain ⟨before, since, given, hp⟩ := h.pending r hr
    exact ⟨before, since ++ bin, given, hp.append bin⟩

theorem callbacks_eq (cmdLines : List CmdLine) (k : Nat) (s : Master) : ∃ b, callbacks cmdLines k s = { s with
        backlog := b
        stream := s.stream ++ (replicate k (cmdLines.flatMap toBytes)).flatten } ∧
      (Window 0 s.backlog s.stream → Window 0 b (s.stream ++ (replicate k (cmdLines.flatMap toBytes)).flatten)) := by
  induction k generalizing s with
  | zero => exact ⟨s.backlog, by simp [callbacks], fun h => by simpa using h⟩
  | succ k ih =>
    obtain ⟨b, heq, hb⟩ := ih
      { s with backlog := s.backlog.callback cmdLines, stream := s.stream ++ cmdLines.flatMap toBytes }
    refine ⟨b, by rw [callbacks, heq]; simp [replicate_succ], fun h => ?_⟩
    rw [replicate_succ, flatten_cons, ← append_assoc]
    exact hb (h.callback cmdLines)

theorem Inv.callback (h : s.Inv) (cmdLines : List CmdLine) : (s.step (.callback cmdLines)).Inv := by
  obtain ⟨b, heq, hb⟩ := callbacks_eq cmdLines s.listeners s
  rw [step, heq]
  refine ⟨hb h.window, fun hne => h.listening (by simpa using hne), fun r hr => ?_⟩
  obtain ⟨r, hmem, rfl⟩ := mem_map.1 hr
  obtain ⟨before, since, given, hp⟩ := h.pending r hmem
  -- the current backlog has a listener, so it is given the lines once and maybe more
  have hpos := h.listening (ne_nil_of_mem hmem)
  obtain ⟨k, hk⟩ : ∃ k, s.listeners = k + 1 := ⟨s.listeners - 1, by omega⟩
  rw [hk, replicate_succ, flatten_cons, ← append_assoc]
  exact ⟨_, _, _, (hp.callback cmdLines).append _⟩

theorem Inv.step (h : s.Inv) (e : MasterEvent) (hok : s.SwapAligned e) : (s.step e).Inv := by
  cases e with
  | save => exact ⟨h.window, fun _ => Nat.succ_pos _, h.pending⟩
  | callback cmdLines => exact h.callback cmdLines
  | ping => exact h.appendBytes pingBytes
  | getack => exact h.appendBytes getackBytes
  | rewrite limit =>
    rw [Master.step]
    split
    · exact h
    rename_i hl
    refine ⟨h.window, fun _ => Nat.pos_of_ne_zero hl, fun r hr => ?_⟩
    rcases mem_append.1 hr with hr | hr
    · exact h.pending r hr
    · obtain rfl := mem_singleton.1 hr
      have hw : Window s.backlog.currentOffset (s.startRewrite limit).backlog [] :=
        ⟨Int.le_refl _, by simp [startRewrite], rfl, by simp [startRewrite]⟩
      exact ⟨s.stream, [], [], by simp, h.window.current.symm, hw, Nat.le_refl _, fun _ => rfl⟩
  | swap i =>
    rw [Master.step]
    split
    · exact h
    · rename_i r hr
      obtain ⟨before, since, given, hp⟩ := h.pending r (mem_of_getElem? hr)
      exact ⟨hp.aligned h.window (hok r hr), fun _ => Nat.one_pos,
        fun r' hr' => h.pending r' (mem_of_mem_eraseIdx hr')⟩

theorem Inv.currentOffset_le (h : s.Inv) (e : MasterEvent) (hok : s.SwapAligned e) :
    s.backlog.currentOffset ≤ (s.step e).backlog.currentOffset := by
  have hcur := h.window.current
  have hcur' := (h.step e hok).window.current
  have hstream : s.stream.length ≤ (s.step e).stream.length := by
    cases e with
    | save => exact Nat.le_refl _
    | callback cmdLines =>
      obtain ⟨b, heq, -⟩ := callbacks_eq cmdLines s.listeners s
      rw [Master.step, heq]
      simp
    | ping | getack => simp [Master.step, Master.appendBytes]
    | rewrite limit | swap i =>
      rw [Master.step]
      split <;> exact Nat.le_refl _
  omega

/-- The window of the current backlog: its length, and what is read and sent from it. -/
structure HasWindow (s : Master) : Prop where
  length : (s.backlog.buf.length : Int) = s.backlog.currentOffset - s.backlog.beginOffset
  current : s.backlog.currentOffset = s.stream.length
  snapshotAfter : ∀ o, s.backlog.isValidOffset o = true →
    s.backlog.getSnapshotAfter o = some (s.stream.drop o.toNat, s.backlog.currentOffset)
  sendUpdates : ∀ o, s.backlog.isValidOffset o = true →
    sendUpdates s.backlog o = .sent (s.stream.drop o.toNat) s.backlog.currentOffset

theorem Inv.hasWindow (h : s.Inv) : s.HasWindow where
  length := by have := h.window.length; omega
  current := h.window.current
  snapshotAfter _ ho := h.window.getSnapshotAfter ho
  sendUpdates _ ho := h.window.sendUpdates ho

/-- A swap keeps the length of the window, and takes nothing off the current offset, exactly if it
is aligned. -/
theorem Inv.swap_iff (h : s.Inv) {i : Nat} {r : Rewrite} (hr : s.rewrites[i]? = some r) :
    (((s.step (.swap i)).backlog.buf.length : Int) =
          (s.step (.swap i)).backlog.currentOffset - (s.step (.swap i)).backlog.beginOffset ∧
        s.backlog.currentOffset ≤ (s.step (.swap i)).backlog.currentOffset) ↔ s.Aligned r := by
  have hstep : (s.step (.swap i)).backlog = r.backlog := by rw [Master.step, hr]
  obtain ⟨before, since, given, hp⟩ := h.pending r (mem_of_getElem? hr)
  rw [hstep]
  constructor
  · rintro ⟨hlen, hle⟩
    have hwin := hp.window.length
    have hcur := hp.window.current
    have hgiven := hp.given_le
    have hs := h.window.current
    rw [hp.stream_eq, length_append] at hs
    exact ⟨by omega, by omega⟩
  · intro ha
    have hwin := (hp.aligned h.window ha).length
    exact ⟨by omega, by rw [ha.2]⟩

end Master

/-- In every run of the master whose swaps are aligned, the current backlog is a window of the
stream and its offset never decreases; and after such a run, a swap that is not aligned breaks the
one or the other. -/
theorem backlog_window (limit : Int) (es : List MasterEvent)
    (h : Guarded Master.step Master.SwapAligned (.init limit) es) : (es.foldl Master.step (.init limit)).HasWindow ∧
      (∀ e, (es.foldl Master.step (.init limit)).SwapAligned e →
        (es.foldl Master.step (.init limit)).backlog.currentOffset ≤
          ((es.foldl Master.step (.init limit)).step e).backlog.currentOffset) ∧
      ∀ i r, (es.foldl Master.step (.init limit)).rewrites[i]? = some r →
        (((((es.foldl Master.step (.init limit)).step (.swap i)).backlog.buf.length : Int) =
              ((es.foldl Master.step (.init limit)).step (.swap i)).backlog.currentOffset -
                ((es.foldl Master.step (.init limit)).step (.swap i)).backlog.beginOffset ∧
            (es.foldl Master.step (.init limit)).backlog.currentOffset ≤
              ((es.foldl Master.step (.init limit)).step (.swap i)).backlog.currentOffset) ↔
          (es.foldl Master.step (.init limit)).Aligned r) := by
  have hinv : (es.foldl Master.step (.init limit)).Inv :=
    h.run (fun _ e hs hok => hs.step e hok) (Master.inv_init limit)
  exact ⟨hinv.hasWindow, fun e hok => hinv.currentOffset_le e hok, fun _ _ hr => hinv.swap_iff hr⟩

/-- A rewrite before the first update, and updates past the limit of both backlogs. -/
theorem backlog_window_rewritten : Guarded Master.step Master.SwapAligned (.init 40)
        [.save, .rewrite 30, .callback [["set", "k", "1"], ["del", "k"]], .swap 0, .ping] ∧
      ([MasterEvent.save, .rewrite 30, .callback [["set", "k", "1"], ["del", "k"]],
        .swap 0, .ping].foldl Master.step (.init 40)).HasWindow :=
  ⟨by decide, (backlog_window 40 _ (by decide)).1⟩

/-- The first update, and then a rewrite: the new backlog begins behind its current offset, which
has gone back to `0`. -/
theorem backlog_window_lost : ¬∀ (limit : Int) (es : List MasterEvent),
    (es.foldl Master.step (.init limit)).HasWindow := fun h =>
  absurd (h 1 [.save, .callback [["set", "k", "1"]], .rewrite 1, .swap 0]).length (by decide)

end Hayakv.Repl
