import Hayakv.Cmd.Table
import Hayakv.Conn.Connection
import Hayakv.Lib.Guarded

/-!
# Transactions of one session

`Server.Exec` of `internal/command/server.go`, `DB.Exec`, and the transaction
commands of `transaction.go`, on one connection. `route` says where a command line
goes: to a fixed answer, to a command outside of transactions, to `RESET`, or to the
database, which queues all but MULTI, EXEC, DISCARD and WATCH inside of MULTI. What
commands do to the databases and the server is a parameter (`Env`), and so are the
commands that no transaction queues; none of them reads or writes the queue, the
watched keys or the errors of a transaction. A script's calls are calls of the
session.

Leaving MULTI drops the queue and the watched keys, but no path drops the errors
(`txErrors_run_iff`): a session whose queued commands were all accepted answers a later
transaction as if there had been none before, and any other session aborts it
(`later_replies`).
-/

namespace Hayakv.Conn

open Resp (CmdLine crlf)
open List
open Cmd (validateArity)

def errReply (msg : Bytes) : Bytes := 45 :: msg ++ crlf

/-- `MakeArgNumErrReply`. -/
def argNumErr (cmd : Bytes) : Bytes := errReply ("ERR wrong number of arguments for '" ++ cmd ++ "' command")

def okReply : Bytes := "+OK" ++ crlf

def queuedReply : Bytes := "+QUEUED" ++ crlf

def execAbort : Bytes := errReply "EXECABORT Transaction discarded because of previous errors."

/-- What `EnqueueCmd` reads of an entry of `cmdTable`. -/
structure CmdInfo where
  hasPrepare : Bool
  arity : Int

def Op.OnTxn : Op → Prop
  | .setMultiState _ | .enqueueCmd _ | .addTxError _ | .clearQueuedCmds | .watch _ _ => True
  | _ => False

/-- A connection without queue, watched keys and errors. -/
def Connection.forget (c : Connection) : Connection := { c with queue := [], watching := [], txErrors := [] }

/-- A connection outside of MULTI on which no transaction has been. -/
def Connection.fresh (c : Connection) : Connection := { c.forget with multi := false }

/-- The server around a connection: `W` is everything but the connection. -/
structure Env (W : Type) where
  cmdTable : Bytes → Option CmdInfo
  isAuthenticated : W → Connection → Bool
  /-- The answer of the access control list to a command that the user may not run. -/
  noPerm : W → Connection → Bytes → Option Bytes
  /-- Whether a replica refuses the command. -/
  readOnly : W → Connection → Bytes → Bool
  /-- The error of `selectDB` on the connection's database. -/
  selectDB : W → Connection → Option Bytes
  /-- A command that is not queued: its reply, what it calls on the connection, and the server. -/
  other : W → Connection → CmdLine → Bytes × List Op × W
  other_ops : ∀ w c l, ∀ op ∈ (other w c l).2.1, ¬op.OnTxn
  /-- `execNormalCommand`. -/
  normal : W → Connection → CmdLine → Bytes × List Op × W
  normal_ops : ∀ w c l, ∀ op ∈ (normal w c l).2.1, ¬op.OnTxn
  getVersion : W → Connection → Bytes → UInt32
  execMulti : W → Connection → List (Bytes × UInt32) → List CmdLine → Bytes × W
  execMulti_nil : ∀ w c, (execMulti w c [] []).1 = "*0" ++ crlf
  /-- `UnsubscribeAll` and `unregisterMonitor`. -/
  unsubscribeAll : W → Connection → W
  /-- The slow log, the statistics and the monitors, which get a command of the database and its
  reply. -/
  record : W → Connection → CmdLine → Bytes → W

structure Session (W : Type) where
  conn : Connection
  world : W

/-- The commands of `Server.Exec` before the check of the password. -/
def openCommands : List Bytes := ["hello", "ping", "auth"]

/-- The commands of `Server.Exec` before RESET. -/
def earlyCommands : List Bytes :=
  ["info", "debug", "eval", "eval_ro", "evalsha", "evalsha_ro", "script",
    "slowlog", "latency", "dbsize", "slaveof", "replicaof", "command",
    "config", "client", "monitor"]

/-- The commands of `Server.Exec` behind the check for replicas. -/
def specialCommands : List Bytes :=
  ["subscribe", "publish", "unsubscribe", "psubscribe", "punsubscribe",
    "pubsub", "ssubscribe", "spublish", "sunsubscribe", "bgrewriteaof",
    "rewriteaof", "flushall", "flushdb", "save", "bgsave", "select",
    "copy", "replconf", "psync", "wait", "waitaof", "failover"]

inductive Route
  | answer (reply : Bytes)
  | other
  | reset
  | db (cmdName : Bytes)

variable {W : Type} (env : Env W)

/-- `Server.Exec`, up to the call of the command. The connection is read without the state of its
transaction. -/
def route (s : Session W) (cmdLine : CmdLine) : Route :=
  let c := s.conn.forget
  match cmdLine with
  -- the index is out of range, and recovered
  | [] => .answer (errReply "Err unknown")
  | name :: _ =>
    let cmdName := toLower name
    if cmdName ∈ openCommands then .other
    else if ¬env.isAuthenticated s.world c then .answer (errReply "NOAUTH Authentication required")
    else if cmdName = "acl" then .other
    else
      match env.noPerm s.world c cmdName with
      | some reply => .answer reply
      | none =>
        if cmdName ∈ earlyCommands then .other
        else if cmdName = "reset" then .reset
        else if env.readOnly s.world c cmdName then
          .answer (errReply "READONLY You can't write against a read only slave.")
        else if cmdName ∈ specialCommands then .other
        else
          match env.selectDB s.world c with
          | some reply => .answer reply
          | none => .db cmdName

namespace Session

/-- A call that runs a command now: the methods it calls, and its reply. -/
def apply (s : Session W) (r : Bytes × List Op × W) : Bytes × Session W :=
  (r.1, ⟨r.2.1.foldl Connection.call s.conn, r.2.2⟩)

end Session

/-- The error of `EnqueueCmd`, if it does not queue the command. -/
def refusal (cmdName : Bytes) (cmdLine : CmdLine) : Option Bytes :=
  match env.cmdTable cmdName with
  | none => some (errReply ("ERR unknown command '" ++ cmdName ++ "'"))
  | some cmd =>
    if !cmd.hasPrepare then
      some (errReply ("ERR command '" ++ cmdName ++ "' cannot be used in MULTI"))
    else if !validateArity cmd.arity cmdLine then some (argNumErr cmdName)
    else none

def enqueueCmd (cmdName : Bytes) (cmdLine : CmdLine) (c : Connection) : Bytes × Connection :=
  match refusal env cmdName cmdLine with
  | some err => (err, c.addTxError err)
  | none => (queuedReply, c.enqueueCmd cmdLine)

/-- `execMulti`; leaving MULTI is deferred. -/
def execMulti (s : Session W) : Bytes × Session W :=
  if !s.conn.inMultiState then (errReply "ERR EXEC without MULTI", s)
  else if 0 < s.conn.txErrors.length then (execAbort, { s with conn := s.conn.setMultiState false })
  else
    let r := env.execMulti s.world s.conn.forget s.conn.watching s.conn.queue
    (r.1, ⟨s.conn.setMultiState false, r.2⟩)

def watch (s : Session W) (keys : List Bytes) : Connection :=
  keys.foldl (fun c key => c.watch key (env.getVersion s.world s.conn.forget key)) s.conn

/-- `DB.Exec`. -/
def dbExec (s : Session W) (cmdName : Bytes) (cmdLine : CmdLine) : Bytes × Session W :=
  if cmdName = "multi" then
    if cmdLine.length ≠ 1 then (argNumErr cmdName, s)
    else if s.conn.inMultiState then (errReply "ERR MULTI calls can not be nested", s)
    else (okReply, { s with conn := s.conn.setMultiState true })
  else if cmdName = "discard" then
    if cmdLine.length ≠ 1 then (argNumErr cmdName, s)
    else if !s.conn.inMultiState then (errReply "ERR DISCARD without MULTI", s)
    else (okReply, { s with conn := s.conn.clearQueuedCmds.setMultiState false })
  else if cmdName = "exec" then
    if cmdLine.length ≠ 1 then (argNumErr cmdName, s) else execMulti env s
  else if cmdName = "watch" then
    if !validateArity (-2) cmdLine then (argNumErr cmdName, s)
    else (okReply, { s with conn := watch env s cmdLine.tail })
  else if s.conn.inMultiState then
    let r := enqueueCmd env cmdName cmdLine s.conn
    (r.1, { s with conn := r.2 })
  else s.apply (env.normal s.world s.conn.forget cmdLine)

def execReset (s : Session W) : Bytes × Session W :=
  let c := { s.conn with subs := [], pSubs := [] }
  ("+RESET" ++ crlf, ⟨{ c.setMultiState false with clientName := [], selectedDB := 0, password := [] },
      env.unsubscribeAll s.world s.conn.forget⟩)

def exec (s : Session W) (cmdLine : CmdLine) : Bytes × Session W :=
  match route env s cmdLine with
  | .answer reply => (reply, s)
  | .other => s.apply (env.other s.world s.conn.forget cmdLine)
  | .reset => execReset env s
  | .db cmdName =>
    let r := dbExec env s cmdName cmdLine
    (r.1, { r.2 with world := env.record r.2.world r.2.conn.forget cmdLine r.1 })

def after (s : Session W) (cmdLine : CmdLine) : Session W := (exec env s cmdLine).2

def replies (s : Session W) : List CmdLine → List Bytes
  | [] => []
  | l :: ls => (exec env s l).1 :: replies (after env s l) ls

/-! ## What a call does to the state of a transaction -/

theorem Connection.call_of_not_onTxn (c : Connection) {op : Op} (h : ¬op.OnTxn) :
    (c.call op).multi = c.multi ∧ (c.call op).queue = c.queue ∧
      (c.call op).watching = c.watching ∧ (c.call op).txErrors = c.txErrors := by
  cases op
  case setMultiState => exact absurd trivial h
  case enqueueCmd => exact absurd trivial h
  case addTxError => exact absurd trivial h
  case clearQueuedCmds => exact absurd trivial h
  case watch => exact absurd trivial h
  all_goals exact ⟨rfl, rfl, rfl, rfl⟩

theorem Connection.txErrors_calls {ops : List Op} (h : ∀ op ∈ ops, ¬op.OnTxn) (c : Connection) :
    (ops.foldl Connection.call c).txErrors = c.txErrors := by
  induction ops generalizing c with
  | nil => rfl
  | cons op ops ih =>
    rw [foldl_cons, ih fun o ho => h o (mem_cons_of_mem _ ho)]
    exact (c.call_of_not_onTxn (h op mem_cons_self)).2.2.2

theorem Connection.txErrors_setMultiState (c : Connection) (state : Bool) :
    (c.setMultiState state).txErrors = c.txErrors := by
  cases state <;> rfl

theorem Connection.txErrors_watch (keys : List Bytes) (ver : Bytes → UInt32) (c : Connection) :
    (keys.foldl (fun c key => c.watch key (ver key)) c).txErrors = c.txErrors := by
  induction keys generalizing c with
  | nil => rfl
  | cons key keys ih => exact ih _

/-- The commands of transactions, which are never queued. -/
def txnCommands : List Bytes := ["multi", "discard", "exec", "watch"]

/-- The error that the call adds to the transaction: it would be queued, and is refused. -/
def refusedError (s : Session W) (cmdLine : CmdLine) : Option Bytes :=
  match route env s cmdLine with
  | .db cmdName =>
    if cmdName ∈ txnCommands ∨ s.conn.multi = false then none else refusal env cmdName cmdLine
  | _ => none

theorem txErrors_execMulti (s : Session W) : (execMulti env s).2.conn.txErrors = s.conn.txErrors := by
  rw [execMulti]
  split
  · rfl
  · split <;> exact s.conn.txErrors_setMultiState false

theorem txErrors_dbExec (s : Session W) (cmdName : Bytes) (cmdLine : CmdLine) :
    (dbExec env s cmdName cmdLine).2.conn.txErrors = s.conn.txErrors ++
      (if cmdName ∈ txnCommands ∨ s.conn.multi = false then none else refusal env cmdName cmdLine).toList := by
  have hnone : s.conn.txErrors = s.conn.txErrors ++ (none : Option Bytes).toList := by simp
  by_cases htxn : cmdName ∈ txnCommands
  · rw [if_pos (.inl htxn), ← hnone]
    simp only [txnCommands, mem_cons, not_mem_nil, or_false] at htxn
    rw [dbExec]
    split
    · split
      · rfl
      · split
        · rfl
        · exact s.conn.txErrors_setMultiState true
    split
    · split
      · rfl
      · split
        · rfl
        · exact s.conn.clearQueuedCmds.txErrors_setMultiState false
    · split
      · split
        · rfl
        · exact txErrors_execMulti env s
      · rw [if_pos (by tauto)]
        split
        · rfl
        · exact Connection.txErrors_watch _ _ _
  · simp only [txnCommands, mem_cons, not_mem_nil, or_false, not_or] at htxn
    rw [dbExec, if_neg htxn.1, if_neg htxn.2.1, if_neg htxn.2.2.1, if_neg htxn.2.2.2]
    have hnot : cmdName ∉ txnCommands := by simpa [txnCommands] using htxn
    cases hmulti : s.conn.multi with
    | false =>
      have hin : ¬s.conn.inMultiState = true := by rw [Connection.inMultiState, hmulti]; decide
      rw [if_neg hin, if_pos (.inr rfl), ← hnone]
      exact Connection.txErrors_calls (env.normal_ops _ _ _) _
    | true =>
      have hin : s.conn.inMultiState = true := by rw [Connection.inMultiState, hmulti]
      rw [if_pos hin, if_neg (by simpa using hnot), enqueueCmd]
      cases refusal env cmdName cmdLine with
      | none => exact hnone
      | some err => rfl

/-- No path takes an error away. -/
theorem txErrors_after (s : Session W) (cmdLine : CmdLine) :
    (after env s cmdLine).conn.txErrors = s.conn.txErrors ++ (refusedError env s cmdLine).toList := by
  have hnone : s.conn.txErrors = s.conn.txErrors ++ (none : Option Bytes).toList := by simp
  rw [after, exec, refusedError]
  cases route env s cmdLine with
  | answer reply => exact hnone
  | other => exact (Connection.txErrors_calls (env.other_ops _ _ _) _).trans hnone
  | reset => exact hnone
  | db cmdName => exact txErrors_dbExec env s cmdName cmdLine

/-- The condition on one call: it is not refused inside of MULTI. -/
def Accepted (s : Session W) (cmdLine : CmdLine) : Prop := refusedError env s cmdLine = none

instance (s : Session W) (cmdLine : CmdLine) : Decidable (Accepted env s cmdLine) :=
  inferInstanceAs (Decidable (_ = none))

/-- A session has errors of transactions exactly if a call of it was refused inside of one. -/
theorem txErrors_run_iff (s : Session W) (hs : s.conn.txErrors = []) (h : List CmdLine) :
    (h.foldl (after env) s).conn.txErrors = [] ↔ Guarded (after env) (Accepted env) s h := by
  have hkeep : ∀ (ls : List CmdLine) (s : Session W), s.conn.txErrors ≠ [] →
      (ls.foldl (after env) s).conn.txErrors ≠ [] := fun ls s hs =>
    foldl_invariant (P := fun s : Session W => s.conn.txErrors ≠ [])
      (fun s l h => by rw [txErrors_after]; exact append_ne_nil_of_left_ne_nil h _) hs ls
  induction h generalizing s with
  | nil => exact ⟨fun _ => trivial, fun _ => hs⟩
  | cons l h ih =>
    rw [foldl_cons, guarded_cons, Accepted]
    have hl := txErrors_after env s l
    rw [hs, nil_append] at hl
    cases hr : refusedError env s l with
    | none =>
      rw [hr] at hl
      simpa using ih _ hl
    | some err =>
      rw [hr] at hl
      exact ⟨fun hc => absurd hc (hkeep h _ (by rw [hl]; simp)), fun hc => absurd hc.1 (by simp)⟩

/-! ## Leaving a transaction -/

/-- The calls that leave MULTI: EXEC and DISCARD inside of it, and RESET. -/
def Leaves (s : Session W) (cmdLine : CmdLine) : Prop :=
  match route env s cmdLine with
  | .reset => True
  | .db cmdName =>
    s.conn.multi = true ∧ cmdLine.length = 1 ∧ (cmdName = "exec" ∨ cmdName = "discard")
  | _ => False

instance (s : Session W) (cmdLine : CmdLine) : Decidable (Leaves env s cmdLine) := by
  unfold Leaves
  split <;> infer_instance

/-- The session on a connection that never was in a transaction. -/
def Session.fresh (s : Session W) : Session W := { s with conn := s.conn.fresh }

variable {s : Session W}

theorem after_of_leaves {cmdLine : CmdLine} (h : Leaves env s cmdLine) :
    (after env s cmdLine).conn.multi = false ∧ (after env s cmdLine).conn.queue = [] ∧
      (after env s cmdLine).conn.watching = [] := by
  rw [Leaves] at h
  rw [after, exec]
  cases hroute : route env s cmdLine with
  | answer reply | other => rw [hroute] at h; exact h.elim
  | reset => exact ⟨rfl, rfl, rfl⟩
  | db cmdName =>
    rw [hroute] at h
    obtain ⟨hmulti, hlen, hname⟩ := h
    have hin : (!s.conn.inMultiState) = false := by rw [Connection.inMultiState, hmulti]; rfl
    rcases hname with rfl | rfl
    · have hdb : dbExec env s "exec" cmdLine = execMulti env s := by
        rw [dbExec, if_neg (by decide), if_neg (by decide), if_pos rfl, if_neg (by simpa using hlen)]
      dsimp only
      rw [hdb, execMulti, if_neg (by rw [hin]; decide)]
      split <;> exact ⟨rfl, rfl, rfl⟩
    · have hdb : dbExec env s "discard" cmdLine =
          (okReply, { s with conn := s.conn.clearQueuedCmds.setMultiState false }) := by
        rw [dbExec, if_neg (by decide), if_pos rfl, if_neg (by simpa using hlen), if_neg (by rw [hin]; decide)]
      dsimp only
      rw [hdb]
      exact ⟨rfl, rfl, rfl⟩

theorem Connection.fresh_eq {c : Connection} (hmulti : c.multi = false) (hqueue : c.queue = [])
    (hwatching : c.watching = []) (herr : c.txErrors = []) : c.fresh = c := by
  obtain ⟨⟩ := c
  subst hmulti hqueue hwatching herr
  rfl

theorem Connection.forget_fresh {c : Connection} (hmulti : c.multi = false) : c.fresh.forget = c.forget := by
  rw [fresh, forget, forget, ← hmulti]

/-! ## The next transaction -/

/-- MULTI and EXEC, called next, get to the database. -/
def Reaches (s : Session W) : Prop :=
  (∃ n, route env s ["multi"] = .db n) ∧ ∃ n, route env (after env s ["multi"]) ["exec"] = .db n

theorem route_db {name : Bytes} {args : CmdLine} {cmdName : Bytes}
    (h : route env s (name :: args) = .db cmdName) : cmdName = toLower name := by
  simp only [route] at h
  repeat' split at h
  all_goals cases h
  rfl

theorem route_congr {s t : Session W} (hc : s.conn.forget = t.conn.forget) (hw : s.world = t.world)
    (cmdLine : CmdLine) : route env s cmdLine = route env t cmdLine := by
  simp only [route, hc, hw]

theorem exec_multi {n : Bytes} (hroute : route env s ["multi"] = .db n) (hmulti : s.conn.multi = false) :
    exec env s ["multi"] = (okReply, ⟨{ s.conn with multi := true },
      env.record s.world { s.conn.forget with multi := true } ["multi"] okReply⟩) := by
  have hn : n = "multi" := (route_db env hroute).trans (by decide)
  have hdb : dbExec env s n ["multi"] = (okReply, { s with conn := { s.conn with multi := true } }) := by
    rw [dbExec, if_pos hn, if_neg (by decide), if_neg (by rw [Connection.inMultiState, hmulti]; decide)]
    rfl
  rw [exec, hroute]
  dsimp only
  rw [hdb]
  rfl

theorem exec_exec {n : Bytes} (hroute : route env s ["exec"] = .db n) (hmulti : s.conn.multi = true)
    (hqueue : s.conn.queue = []) (hwatching : s.conn.watching = []) :
    (exec env s ["exec"]).1 = if s.conn.txErrors = [] then "*0" ++ crlf else execAbort := by
  have hn : n = "exec" := (route_db env hroute).trans (by decide)
  have hdb : dbExec env s n ["exec"] = execMulti env s := by
    rw [dbExec, hn, if_neg (by decide), if_neg (by decide), if_pos rfl, if_neg (by decide)]
  rw [exec, hroute]
  dsimp only
  rw [hdb, execMulti, if_neg (by rw [Connection.inMultiState, hmulti]; decide), hqueue, hwatching]
  by_cases herr : s.conn.txErrors = []
  · rw [if_pos herr, if_neg (by rw [herr]; decide), ← env.execMulti_nil]
  · rw [if_neg herr, if_pos (length_pos_iff.2 herr)]

/-- Any history of a session on a new connection, up to a call that leaves MULTI. If no call was
refused inside of a transaction, the session answers every later list of calls as on a connection
that never was in one; if one was, it aborts the next transaction, even an empty one. -/
theorem later_replies (c : Connection) (w : W) (h : List CmdLine) (last : CmdLine)
    (hleaves : Leaves env (h.foldl (after env) ⟨c.fresh, w⟩) last) :
    (Guarded (after env) (Accepted env) ⟨c.fresh, w⟩ (h ++ [last]) →
      ∀ later, replies env ((h ++ [last]).foldl (after env) ⟨c.fresh, w⟩) later =
        replies env ((h ++ [last]).foldl (after env) ⟨c.fresh, w⟩).fresh later) ∧
    (¬Guarded (after env) (Accepted env) ⟨c.fresh, w⟩ (h ++ [last]) →
      Reaches env ((h ++ [last]).foldl (after env) ⟨c.fresh, w⟩) →
      replies env ((h ++ [last]).foldl (after env) ⟨c.fresh, w⟩) [["multi"], ["exec"]] ≠
        replies env ((h ++ [last]).foldl (after env) ⟨c.fresh, w⟩).fresh [["multi"], ["exec"]]) := by
  have herr := txErrors_run_iff env ⟨c.fresh, w⟩ rfl (h ++ [last])
  have hleft : ((h ++ [last]).foldl (after env) ⟨c.fresh, w⟩).conn.multi = false ∧
      ((h ++ [last]).foldl (after env) ⟨c.fresh, w⟩).conn.queue = [] ∧
      ((h ++ [last]).foldl (after env) ⟨c.fresh, w⟩).conn.watching = [] := by
    rw [List.foldl_append]
    exact after_of_leaves env hleaves
  rw [← herr]
  generalize (h ++ [last]).foldl (after env) ⟨c.fresh, w⟩ = s at hleft ⊢
  obtain ⟨hmulti, hqueue, hwatching⟩ := hleft
  constructor
  · intro hnil later
    have heq : s.fresh = s := by
      rw [Session.fresh, Connection.fresh_eq hmulti hqueue hwatching hnil]
    rw [heq]
  · rintro hne ⟨⟨n, hm⟩, ⟨m, he⟩⟩ heq
    have hforget : s.fresh.conn.forget = s.conn.forget := Connection.forget_fresh hmulti
    have hm' : route env s.fresh ["multi"] = .db n := (route_congr env hforget rfl _).trans hm
    -- both sessions begin, and EXEC then sees the errors in one of them
    have hs := exec_multi env hm hmulti
    have hf := exec_multi env hm' rfl
    rw [hforget] at hf
    rw [after, hs] at he
    have hworld : s.fresh.world = s.world := rfl
    have he' : route env ⟨{ s.fresh.conn with multi := true },
        env.record s.world { s.conn.forget with multi := true } ["multi"] okReply⟩
        ["exec"] = .db m := (route_congr env rfl rfl _).trans he
    simp only [replies, after, hs, hf, hworld, List.cons.injEq, and_true, true_and] at heq
    have habort := exec_exec env he rfl hqueue hwatching
    have hempty := exec_exec env he' rfl rfl rfl
    rw [if_neg hne] at habort
    rw [habort, hempty] at heq
    exact absurd heq (by rw [if_pos (show s.fresh.conn.txErrors = [] from rfl)]; decide)

/-! ## A server to run sessions on -/

/-- A server whose only command is `get`; everything else answers OK and changes nothing. -/
def tinyEnv : Env Unit where
  cmdTable name := if name = "get" then some ⟨true, 2⟩ else none
  isAuthenticated _ _ := true
  noPerm _ _ _ := none
  readOnly _ _ _ := false
  selectDB _ _ := none
  other _ _ _ := (okReply, [], ())
  other_ops _ _ _ _ h := absurd h List.not_mem_nil
  normal _ _ _ := (okReply, [], ())
  normal_ops _ _ _ _ h := absurd h List.not_mem_nil
  getVersion _ _ _ := 0
  execMulti _ _ _ cmdLines := (if cmdLines = [] then "*0" ++ crlf else okReply, ())
  execMulti_nil _ _ := rfl
  unsubscribeAll _ _ := ()
  record _ _ _ _ := ()

theorem later_replies_get :
    Leaves tinyEnv ([[str "MULTI"], [str "GET", str "k"]].foldl (after tinyEnv) ⟨{}, ()⟩) [str "EXEC"] ∧
      ∀ later, replies tinyEnv
          ([[str "MULTI"], [str "GET", str "k"], [str "EXEC"]].foldl (after tinyEnv) ⟨{}, ()⟩) later = replies tinyEnv
          ([[str "MULTI"], [str "GET", str "k"], [str "EXEC"]].foldl (after tinyEnv) ⟨{}, ()⟩).fresh later :=
  ⟨by decide, (later_replies tinyEnv {} () [["MULTI"], ["GET", "k"]] ["EXEC"] (by decide)).1 (by decide)⟩

/-- After MULTI, an unknown command and DISCARD the next transaction is aborted, although it is
empty. -/
theorem later_replies_poisoned :
    ¬∀ (W : Type) (env : Env W) (c : Connection) (w : W) (h : List CmdLine) (last : CmdLine),
      Leaves env (h.foldl (after env) ⟨c.fresh, w⟩) last → ∀ later,
        replies env ((h ++ [last]).foldl (after env) ⟨c.fresh, w⟩) later =
          replies env ((h ++ [last]).foldl (after env) ⟨c.fresh, w⟩).fresh later := fun h =>
  absurd (h Unit tinyEnv {} () [["MULTI"], ["FLY"]] ["DISCARD"] (by decide) [["MULTI"], ["EXEC"]]) (by decide)

end Hayakv.Conn
