import Hayakv.Conn.Session
import Hayakv.Frame.Server

/-!
# Replicas

The check of `Server.Exec` by which a replica refuses all commands of its clients but those that are flagged as
read-only, and what clients change all the same: some commands with the flag write, and `DEBUG` is answered before the
check.

A client may be in a transaction from before; `EXEC`, `MULTI` and `WATCH` are refused. The calls of a script are calls
of its client. Who is refused by the password or the access control list changes nothing.
-/

namespace Hayakv.Frame

open Engine Cmd

abbrev Loads := List (Nat × Key × Loaded × Option Int)

/-- What is around the data of a server: its files, and the commands of `Server.Exec` behind the check. -/
structure Host where
  /-- The objects that `DEBUG RELOAD` saves and loads; `none` if it cannot save. -/
  saved : Server → Option Loads
  /-- The append only file, if there is one: an RDB part, and command lines with their database. -/
  aof : Option (Loads × List (Nat × CmdLine))
  special : Bytes → List Bytes → Server → Server

def isReadOnlyCommand (name : Bytes) : Bool := (findCommand name).any (·.flag = .readOnly)

/-- `Server.Exec` from the check on. In a transaction the command is queued. -/
def execChecked (host : Host) (env : Env) (db : Nat) (multi : Bool) (name : Bytes) (args : List Bytes) (σ : Server) :
    Server :=
  if !isReadOnlyCommand (toLower name) then σ
  else if toLower name ∈ Conn.specialCommands then host.special (toLower name) args σ
  else if multi then σ
  else σ.step env (.command db (name :: args))

def load (env : Env) (objects : Loads) (σ : Server) : Server :=
  objects.foldl (fun σ o => σ.step env (.load o.1 o.2.1 o.2.2.1 o.2.2.2)) σ

/-- `LoadAof`. Its connection is not that of the master. -/
def loadAof (host : Host) (env : Env) (file : Loads × List (Nat × CmdLine)) (σ : Server) : Server :=
  file.2.foldl (fun σ line => execChecked host env line.1 false (line.2.headD []) line.2.tail σ) (load env file.1 σ)

/-- `execDebug`. What `POPULATE` sets is refused. -/
def execDebug (host : Host) (env : Env) (args : List Bytes) (σ : Server) : Server :=
  match args with
  | [] => σ
  | sub :: _ =>
    if toUpper sub = "RELOAD" then (host.saved σ).elim σ fun objects => load env objects (flushAll σ)
    else if toUpper sub = "LOADAOF" then host.aof.elim σ fun file => loadAof host env file (flushAll σ)
    else σ

/-- `Server.Exec` on a replica, for a client. -/
def replicaExec (host : Host) (env : Env) (db : Nat) (multi : Bool) (name : Bytes) (args : List Bytes) (σ : Server) :
    Server :=
  if toLower name = "debug" then execDebug host env args σ
  else if toLower name ∈ Conn.openCommands ∨ toLower name = "acl" ∨ toLower name ∈ Conn.earlyCommands ∨
    toLower name = "reset" then σ
  else execChecked host env db multi name args σ

/-- The commands by which a client changes the data of a replica. -/
def writers : List Bytes := ["rename", "renamenx", "getex", "hgetex", "pfcount", "debug"]

/-! ## The commands with the flag -/

/-- The keys that are declared are only read. -/
def ReadsOnly (p : Prepare) : Prop := ∀ args W R, p args = some (W, R) → W = []

theorem readsOnly_prepare : ReadsOnly readFirstKey ∧ ReadsOnly prepareSInterCard ∧ ReadsOnly readAllKeys ∧
    ReadsOnly noPrepare ∧ ReadsOnly prepareMGet ∧ ReadsOnly prepareSetCalculate := by
  simp only [ReadsOnly, readFirstKey, prepareSInterCard, readAllKeys, noPrepare, prepareMGet, prepareSetCalculate,
    Option.map_eq_some_iff, Option.some.injEq, Prod.mk.injEq]
  refine ⟨?_, ?_, ?_, ?_, ?_, ?_⟩
  iterate 2
    rintro _ _ _ ⟨-, -, rfl, -⟩
    rfl
  all_goals
    rintro _ _ _ ⟨rfl, -⟩
    rfl

/-- A command with the flag that is no writer declares no key as written, but for DUMPKEY. -/
theorem readsOnly_cmdTable :
    ∀ c ∈ cmdTable, c.flag = .readOnly → c.name ∈ writers ∨ c.executor = (fun env _ => execDumpKey env) ∨
      ReadsOnly c.prepare := by
  simp only [cmdTable, keyCommands, stringCommands, bitfieldCommands, bitOpCommands, listCommands, hashCommands,
    hashTTLCommands, setCommands, sortedSetCommands, geoCommands, streamCommands, streamGroupCommands, hllCommands,
    serverCommands, List.forall_mem_append, List.forall_mem_cons, List.not_mem_nil, readsOnly_prepare, reduceCtorEq,
    false_imp_iff, implies_true, and_true, true_and, true_or, or_true]
  -- what is left are the writers among them
  repeat' apply And.intro
  all_goals exact fun _ => .inl (by decide +kernel)

theorem undeclared_cmdTable : ∀ c ∈ cmdTable, c.flag = .readOnly → c.name ∉ writers →
    (undeclared.lookup c.name).isNone ∧ c.name ≠ "xgroup" ∧ c.name ∉ carriers ∧ c.name ∉ denyOOM := by
  decide +kernel

theorem special_refused : ∀ name ∈ Conn.specialCommands, isReadOnlyCommand name = false := by decide +kernel

section replica

variable {host : Host} {env : Env} {db : Nat} {multi : Bool} {name : Bytes} {args : List Bytes} {σ : Server} {i : Nat}
  {key : Key}

theorem keeps_readOnly {c : Command} {W R : List Key} {s : State} (hc : c ∈ cmdTable) (hflag : c.flag = .readOnly)
    (hname : c.name ∉ writers) (harity : validateArity c.arity (c.name :: args) = true)
    (hprep : c.prepare args = some (W, R)) :
    Scope.Keeps ⟨(· ∈ []), fun k => k ∉ [] ∧ s.visible env.now k = none, True⟩ (fun _ => True)
      (c.name = "bitfield") (c.executor env (execWithLock env (lineFuel (c.name :: args))) args) := by
  obtain ⟨hundecl, hgroup, hdump, -⟩ := undeclared_cmdTable c hc hflag hname
  have hnone : undeclaredKeys c.name args = [] := by rw [undeclaredKeys, Option.isNone_iff_eq_none.1 hundecl]; rfl
  rcases (readsOnly_cmdTable c hc hflag).resolve_left hname with hdumpKey | hr
  · rw [hdumpKey]
    exact keeps_execDumpKey.of_false
  · cases hr args W R hprep
    exact keeps_declared hc harity hprep ⟨by simp [hnone], fun h => absurd h hgroup, fun h => absurd h hdump⟩

theorem visible_execChecked (ok : ServerOk σ) (hname : toLower name ∉ writers) :
    (execChecked host env db multi name args σ).visible env.now i key = σ.visible env.now i key := by
  unfold execChecked
  split
  · rfl
  rename_i hread
  rw [Bool.not_eq_true, Bool.not_eq_false'] at hread
  split
  · rename_i hspecial
    exact absurd (special_refused _ hspecial) (by simp [hread])
  split
  · rfl
  have hcommand : ∀ {c}, findCommand (toLower name) = some c → c ∈ cmdTable ∧ c.flag = .readOnly ∧ c.name ∉ writers :=
    fun {c} hc => by
      have hcname : c.name = toLower name := by simpa using List.find?_some hc
      exact ⟨List.mem_of_find?_eq_some hc, by simpa [isReadOnlyCommand, hc] using hread, hcname ▸ hname⟩
  -- no command with the flag has the flag `denyoom`
  have hfree : σ.freeMemory env (name :: args) = σ := Server.freeMemory_eq fun _ _ c p hline hc hdeny _ => by
    cases hline
    obtain ⟨hmem, hflag, hwriter⟩ := hcommand hc
    exact absurd hdeny (undeclared_cmdTable c hmem hflag hwriter).2.2.2
  rcases Server.command_cases env db (name :: args) σ with hstep | hstep <;> rw [hstep, hfree]
  rcases execNormalCommand_cases env (name :: args) with heq | ⟨_, _, c, W, R, hline, hc, harity, hprep, heq⟩
  · simp only [heq]
    exact Server.visible_onDB (fun _ _ _ => rfl) fun _ _ _ _ _ _ => rfl
  cases hline
  obtain ⟨hmem, hflag, hwriter⟩ := hcommand hc
  simp only [heq]
  exact visible_exec ok (fun s _ => keeps_readOnly hmem hflag hwriter harity hprep) (by simp) (by simp)

theorem replicaExec_congr {name' : Bytes} (h : toLower name = toLower name') :
    replicaExec host env db multi name args σ = replicaExec host env db multi name' args σ := by
  simp only [replicaExec, execChecked, Server.step, Server.command, Server.freeMemory, isDenyOOM, execNormalCommand, validateArity, List.length_cons, h]

/-- For each writer, the requests that make some data, arguments of the writer, and a key that it changes. -/
def writerRuns : List (Bytes × List Request × List Bytes × Key) :=
  let a := str "a"
  let set := [Request.command 0 [str "SET", a, str "v"]]
  [(str "rename", set, [a, str "b"], a), (str "renamenx", set, [a, str "b"], a),
   (str "getex", set, [a, str "EX", str "10"], a),
   (str "hgetex", [.command 0 [str "HSET", a, str "f", str "v"]], [a, str "EX", str "10", str "FIELDS", str "1", str "f"], a),
   (str "pfcount", [.command 0 [str "SET", a, str "HYLL" ++ List.replicate 12 0]], [a], a),
   (str "debug", set, [str "LOADAOF"], a)]

/-- No file, but an append only file without a line. -/
def emptyAof : Host := ⟨fun _ => none, some ([], []), fun _ _ σ => σ⟩

theorem writerRuns_change : ∀ r ∈ writerRuns, (replicaExec emptyAof (.plain 0) 0 false r.1 r.2.2.1
      (runRequests 0 r.2.1)).visible 0 0 r.2.2.2 ≠ (runRequests 0 r.2.1).visible 0 0 r.2.2.2 := by
  decide +kernel

/-- Whatever its clients send, the data of a replica stays, but for the writers. -/
theorem replica_readOnly_iff (name : Bytes) :
    (∀ (host : Host) (env : Env) (databases : Nat) (σ : Server), Server.Reachable databases σ →
      ∀ (db : Nat) (multi : Bool) (args : List Bytes) (i : Nat) (key : Key),
        (replicaExec host env db multi name args σ).visible env.now i key = σ.visible env.now i key) ↔
      toLower name ∉ writers := by
  refine ⟨fun h hmem => ?_, fun hname host env databases σ hσ db multi args i key => ?_⟩
  · obtain ⟨r, hr, hrname⟩ : ∃ r ∈ writerRuns, toLower r.1 = toLower name := by
      revert hmem
      generalize toLower name = w
      revert w
      decide
    refine writerRuns_change r hr ?_
    rw [replicaExec_congr hrname]
    exact h _ _ 2 _ (reachable_runRequests 0 _) _ _ _ _ _
  · unfold replicaExec
    split
    · rename_i hdebug
      exact absurd (hdebug ▸ by decide) hname
    split
    · rfl
    · exact visible_execChecked (.of_reachable hσ) hname

/-- RENAME is flagged as read-only. -/
theorem replica_renames : ¬ ∀ (host : Host) (env : Env) (databases : Nat) (σ : Server),
    Server.Reachable databases σ → ∀ (db : Nat) (multi : Bool) (name : Bytes) (args : List Bytes) (i : Nat) (key : Key),
      (replicaExec host env db multi name args σ).visible env.now i key = σ.visible env.now i key := by
  intro h
  refine writerRuns_change _ List.mem_cons_self ?_
  exact h _ _ 2 _ (reachable_runRequests 0 _) _ _ _ _ _ _

end replica

end Hayakv.Frame
