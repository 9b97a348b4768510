import Mathlib.Data.List.Basic

/-!
# WATCH as an optimistic lock

`internal/command/transaction.go` and the command path of `database.go`, at the
level of versions, locks and values, cut where other clients may come in between.

* An ordinary command takes its key locks and bumps the versions of its write
  keys (`begin`), and then runs its executor (`run`).
* `EXEC` checks the versions of the watched keys (`check`), takes its locks
  (`lock`), runs its queue command by command (`start`, `exec`), and at last bumps
  the versions, or undoes what it did (`finish`).
* Before a command that may need memory, and in `EXEC` between the check and the
  locks, `freeMemoryIfNeeded` removes keys of any database under their locks but
  leaves the versions (`evict`); `EXEC` gives up if that was not enough (`reject`).
* `WATCH` reads a version without a lock. `FLUSHDB` puts a new database object,
  with all versions zero, in the place of the old one.

Executors and undo logs are arbitrary functions of the values.

`seen` records which keys a client watched and whether their value has changed
since; `violated` that a queue ran although one had. `Sys.Ok` names, step by step,
what the code does not ensure; in runs that meet it no queue runs after such a
change (`watch_sound`). Without it a write between `check` and `lock` goes
unnoticed (`watch_unsound`).
-/

namespace Hayakv.Txn

open List Function

variable {K V : Type*}

/-- The values of a database: `none` for an absent key. -/
abbrev Values (K V : Type*) := K → Option V

/-- A command: the keys that its `prepare` returns, its executor with whether the reply is an
error, and the undo log taken before it, as a function to apply later. -/
structure Cmd (K V : Type*) where
  write : List K
  read : List K
  exec : Values K V → Values K V × Bool
  undo : Values K V → Values K V → Values K V

/-- A database object: its values, and the version map with `0` for absent keys. -/
structure Db (K V : Type*) where
  values : Values K V
  versions : K → UInt32

/-- Database objects: the index, and how often it was flushed before. -/
abbrev Obj := Nat × Nat

/-- What a client's operation has done so far. -/
inductive Phase (K V : Type*)
  | idle
  | writing (o : Obj) (cmd : Cmd K V)
  | checked (o : Obj)
  | locked (o : Obj)
  | running (o : Obj) (rest : List (Cmd K V)) (undo : List (Values K V → Values K V)) (failed : Bool)

structure Client (K V : Type*) where
  db : Nat
  watching : List (K × UInt32)
  inMulti : Bool
  queue : List (Cmd K V)
  phase : Phase K V
  /-- The keys watched, with their database and whether the value has changed since. -/
  seen : List (Nat × K × Bool)
  /-- A queue was run after a watched key had changed. -/
  violated : Bool

structure Sys (K V : Type*) where
  objs : Obj → Db K V
  gen : Nat → Nat
  clients : Nat → Client K V

inductive Event (K V : Type*)
  | watch (c : Nat) (key : K)
  | select (c d : Nat)
  | multi (c : Nat)
  | enqueue (c : Nat) (cmd : Cmd K V)
  | discard (c : Nat)
  | flushDB (c : Nat)
  | begin (c : Nat) (cmd : Cmd K V)
  | run (c : Nat)
  | check (c : Nat)
  | evict (c : Nat) (o : Obj) (key : K)
  | reject (c : Nat)
  | lock (c : Nat)
  | start (c : Nat)
  | exec (c : Nat)
  | finish (c : Nat)

/-! ## Steps -/

namespace Client

variable (cl : Client K V)

/-- The write keys that `ExecMulti` collects over the queue. -/
def queueWrite : List K := cl.queue.flatMap (·.write)

/-- The read keys: those of the queue, and the watched keys. -/
def queueRead : List K := cl.queue.flatMap (·.read) ++ cl.watching.map Prod.fst

/-- The client holds the write lock of `key`. -/
def WriteHeld (o : Obj) (key : K) : Prop :=
  match cl.phase with
  | .writing o' cmd => o' = o ∧ key ∈ cmd.write
  | .locked o' | .running o' _ _ _ => o' = o ∧ key ∈ cl.queueWrite
  | _ => False

/-- The client holds the read lock of `key`. -/
def ReadHeld (o : Obj) (key : K) : Prop :=
  match cl.phase with
  | .writing o' cmd => o' = o ∧ key ∈ cmd.read
  | .locked o' | .running o' _ _ _ => o' = o ∧ key ∈ cl.queueRead
  | _ => False

/-- `SetMultiState(false)`, with the operation over. -/
def reset : Client K V := { cl with watching := [], inMulti := false, queue := [], phase := .idle, seen := [] }

/-- `watching[key] = version`; a key is `seen` from the first time on. -/
def watch [DecidableEq K] (key : K) (version : UInt32) : Client K V :=
  { cl with
    watching := (key, version) :: cl.watching.filter (·.1 ≠ key)
    seen := if cl.seen.any (fun e => e.1 = cl.db ∧ e.2.1 = key) then cl.seen
      else (cl.db, key, false) :: cl.seen }

end Client

def addVersion [DecidableEq K] (keys : List K) (versions : K → UInt32) : K → UInt32 :=
  keys.foldl (fun v k => update v k (v k + 1)) versions

namespace Sys

def obj (s : Sys K V) (d : Nat) : Obj := (d, s.gen d)

def cur (s : Sys K V) (c : Nat) : Obj := s.obj (s.clients c).db

def value (s : Sys K V) (d : Nat) (key : K) : Option V := (s.objs (s.obj d)).values key

def setClient (s : Sys K V) (c : Nat) (cl : Client K V) : Sys K V := { s with clients := update s.clients c cl }

def setObj (s : Sys K V) (o : Obj) (db : Db K V) : Sys K V := { s with objs := update s.objs o db }

def setPhase (s : Sys K V) (c : Nat) (p : Phase K V) : Sys K V := s.setClient c { s.clients c with phase := p }

variable [DecidableEq K] [DecidableEq V]

def isWatchingChanged (s : Sys K V) (o : Obj) (watching : List (K × UInt32)) : Bool :=
  watching.any fun e => (s.objs o).versions e.1 ≠ e.2

/-- What an event does, apart from the record of changes. -/
def act (s : Sys K V) : Event K V → Sys K V
  | .watch c key =>
    s.setClient c ((s.clients c).watch key ((s.objs (s.cur c)).versions key))
  | .select c d => s.setClient c { s.clients c with db := d }
  | .multi c => s.setClient c { s.clients c with inMulti := true }
  | .enqueue c cmd => s.setClient c { s.clients c with queue := (s.clients c).queue ++ [cmd] }
  | .discard c | .reject c => s.setClient c (s.clients c).reset
  | .flushDB c =>
    let d := (s.clients c).db
    { s with
      gen := update s.gen d (s.gen d + 1)
      objs := update s.objs (d, s.gen d + 1) ⟨fun _ => none, fun _ => 0⟩ }
  | .begin c cmd =>
    let db := s.objs (s.cur c)
    (s.setObj (s.cur c) { db with versions := addVersion cmd.write db.versions }).setPhase c (.writing (s.cur c) cmd)
  | .run c =>
    match (s.clients c).phase with
    | .writing o cmd =>
      (s.setObj o { s.objs o with values := (cmd.exec (s.objs o).values).1 }).setPhase c .idle
    | _ => s
  | .check c =>
    if s.isWatchingChanged (s.cur c) (s.clients c).watching then s.setClient c (s.clients c).reset
    else s.setPhase c (.checked (s.cur c))
  | .evict _ o key => s.setObj o { s.objs o with values := update (s.objs o).values key none }
  | .lock c =>
    match (s.clients c).phase with
    | .checked o => s.setPhase c (.locked o)
    | _ => s
  | .start c =>
    match (s.clients c).phase with
    | .locked o =>
      s.setClient c { s.clients c with
        phase := .running o (s.clients c).queue [] false
        violated := (s.clients c).violated || (s.clients c).seen.any (·.2.2) }
    | _ => s
  | .exec c =>
    match (s.clients c).phase with
    | .running o (cmd :: rest) undo false =>
      let values := (s.objs o).values
      let (values', isErr) := cmd.exec values
      -- the undo log of a failed command is dropped, and the rest of the queue not run
      (s.setObj o { s.objs o with values := values' }).setPhase c
        (if isErr then .running o [] undo true else .running o rest (cmd.undo values :: undo) false)
    | _ => s
  | .finish c =>
    match (s.clients c).phase with
    | .running o [] undo failed =>
      let db := s.objs o
      let db' := if failed then { db with values := undo.foldl (fun v u => u v) db.values }
        else { db with versions := addVersion (s.clients c).queueWrite db.versions }
      (s.setObj o db').setClient c (s.clients c).reset
    | _ => s

/-- Record which watched keys have another value in `s'` than in `s`. -/
def note (s s' : Sys K V) : Sys K V :=
  { s' with
    clients := fun c => { s'.clients c with
      seen := (s'.clients c).seen.map fun (d, key, changed) =>
        (d, key, changed || decide (s'.value d key ≠ s.value d key)) } }

def step (s : Sys K V) (e : Event K V) : Sys K V := s.note (s.act e)

/-- No other client holds a lock that conflicts with these. -/
def Lockable (s : Sys K V) (c : Nat) (o : Obj) (write read : List K) : Prop :=
  ∀ c', c' ≠ c →
    (∀ key ∈ write, ¬(s.clients c').WriteHeld o key ∧ ¬(s.clients c').ReadHeld o key) ∧
      ∀ key ∈ read, ¬(s.clients c').WriteHeld o key

def Enabled (s : Sys K V) : Event K V → Prop
  | .watch c _ => (s.clients c).phase = .idle
  | .select c _ | .multi c | .flushDB c => (s.clients c).phase = .idle ∧ (s.clients c).inMulti = false
  | .enqueue c _ | .discard c | .check c => (s.clients c).phase = .idle ∧ (s.clients c).inMulti = true
  | .begin c cmd =>
    (s.clients c).phase = .idle ∧ (s.clients c).inMulti = false ∧ s.Lockable c (s.cur c) cmd.write cmd.read
  | .run c => ∃ o cmd, (s.clients c).phase = .writing o cmd
  | .evict c o key =>
    ((s.clients c).phase = .idle ∧ (s.clients c).inMulti = false ∨ ∃ o', (s.clients c).phase = .checked o') ∧
      o.2 ≤ s.gen o.1 ∧ s.Lockable c o [key] []
  | .reject c => ∃ o, (s.clients c).phase = .checked o
  | .lock c => ∃ o, (s.clients c).phase = .checked o ∧ s.Lockable c o (s.clients c).queueWrite (s.clients c).queueRead
  | .start c => ∃ o, (s.clients c).phase = .locked o
  | .exec c => ∃ o cmd rest undo, (s.clients c).phase = .running o (cmd :: rest) undo false
  | .finish c => ∃ o undo failed, (s.clients c).phase = .running o [] undo failed

/-- The server when it starts: empty databases, and clients in database 0. -/
def init : Sys K V where
  objs _ := ⟨fun _ => none, fun _ => 0⟩
  gen _ := 0
  clients _ := ⟨0, [], false, [], .idle, [], false⟩

def RunEnabled (s : Sys K V) : List (Event K V) → Prop
  | [] => True
  | e :: es => s.Enabled e ∧ (s.step e).RunEnabled es

/-! ## The condition -/

end Sys

/-- The executor and the undo log of a command change only its write keys. -/
def Cmd.Sound (cmd : Cmd K V) : Prop :=
  ∀ key ∉ cmd.write, (∀ v, (cmd.exec v).1 key = v key) ∧ ∀ v₀ v, cmd.undo v₀ v key = v key

namespace Client

def Watches (cl : Client K V) (key : K) : Prop := ∃ r, (key, r) ∈ cl.watching

/-- The client is in an `EXEC` that has taken its locks. -/
def InTxn (cl : Client K V) (o : Obj) : Prop :=
  cl.phase = .locked o ∨ ∃ rest undo failed, cl.phase = .running o rest undo failed

end Client

/-- What holds of a client by itself: the commands it queued or runs are sound, its undo log too,
and what it has `seen` it watches, in its database. -/
structure Client.Inv (cl : Client K V) : Prop where
  queue_sound : ∀ cmd ∈ cl.queue, cmd.Sound
  writing_sound : ∀ o cmd, cl.phase = .writing o cmd → cmd.Sound
  running_sound : ∀ o rest undo failed, cl.phase = .running o rest undo failed →
    (∀ cmd ∈ rest, cmd ∈ cl.queue) ∧ ∀ u ∈ undo, ∀ v : Values K V, ∀ key ∉ cl.queueWrite, u v key = v key
  seen_db : ∀ e ∈ cl.seen, e.1 = cl.db ∧ cl.Watches e.2.1

namespace Sys

/-- Bumping the versions of `keys` takes none to a version that the client has recorded; only a
wrap-around of the 32-bit counter could. -/
def NoWrap [DecidableEq K] (s : Sys K V) (o : Obj) (keys : List K) (c : Nat) : Prop :=
  s.cur c = o → ∀ key r, (key, r) ∈ (s.clients c).watching → key ∈ keys →
    (s.objs o).versions key + UInt32.ofNat (keys.count key) ≠ r

/-- What the code does not ensure, step by step.
* `WATCH` of a key already watched finds the recorded version, and no command is between the
  version bump and the write of that key;
* a client that watches keys stays in its database, and that database is not flushed;
* commands change only their write keys, and no version wraps around to a recorded one;
* from the version check of an `EXEC` to its locks, no other client holds or takes the write lock
  of a key it watches;
* no key is evicted that a client watches, its own `EXEC` included;
* an `EXEC` that fails has no write key that another client watches. -/
def Ok [DecidableEq K] (s : Sys K V) : Event K V → Prop
  | .watch c key =>
    (∀ r, (key, r) ∈ (s.clients c).watching → r = (s.objs (s.cur c)).versions key) ∧
      ∀ c' cmd, (s.clients c').phase = .writing (s.cur c) cmd → key ∉ cmd.write
  | .select c d => (s.clients c).watching = [] ∨ d = (s.clients c).db
  | .enqueue _ cmd => cmd.Sound
  | .flushDB c => ∀ c', (s.clients c').watching ≠ [] → (s.clients c').db ≠ (s.clients c).db
  | .begin c cmd =>
    cmd.Sound ∧ (∀ c', s.NoWrap (s.cur c) cmd.write c') ∧
      ∀ c', (s.clients c').phase = .checked (s.cur c) → ∀ key ∈ cmd.write, ¬(s.clients c').Watches key
  | .check c =>
    ∀ c', c' ≠ c → (s.clients c').InTxn (s.cur c) → ∀ key ∈ (s.clients c').queueWrite, ¬(s.clients c).Watches key
  | .evict _ o key => ∀ c, s.cur c = o → ¬(s.clients c).Watches key
  | .lock c =>
    ∀ o, (s.clients c).phase = .checked o → ∀ c', c' ≠ c → (s.clients c').phase = .checked o →
      ∀ key ∈ (s.clients c).queueWrite, ¬(s.clients c').Watches key
  | .finish c =>
    ∀ o undo failed, (s.clients c).phase = .running o [] undo failed → ∀ c', c' ≠ c →
      s.NoWrap o (s.clients c).queueWrite c' ∧
        (failed = true → s.cur c' = o → ∀ key ∈ (s.clients c).queueWrite, ¬(s.clients c').Watches key)
  | _ => True

def RunOk [DecidableEq K] [DecidableEq V] (s : Sys K V) : List (Event K V) → Prop
  | [] => True
  | e :: es => s.Ok e ∧ (s.step e).RunOk es

/-! ## What every run keeps -/

/-- The value of a key watched by the client has changed since. -/
def Changed (s : Sys K V) (c : Nat) (key : K) : Prop := ((s.clients c).db, key, true) ∈ (s.clients c).seen

/-- While a client is not in `EXEC`: if the version is still the recorded one, then no command is
about to write the key, and a change of the key comes from an `EXEC` that will yet bump it. -/
def RestOk (s : Sys K V) (c : Nat) (key : K) (r : UInt32) : Prop :=
  (s.objs (s.cur c)).versions key = r →
    (∀ c' cmd, (s.clients c').phase = .writing (s.cur c) cmd → key ∉ cmd.write) ∧
      (s.Changed c key → ∃ c', c' ≠ c ∧ (s.clients c').InTxn (s.cur c) ∧ key ∈ (s.clients c').queueWrite)

/-- Once the version check has passed: the key has not changed, and no one else can change it. -/
def CheckedOk (s : Sys K V) (c : Nat) (o : Obj) (key : K) : Prop :=
  o = s.cur c ∧ ¬s.Changed c key ∧ ∀ c', c' ≠ c → ¬(s.clients c').WriteHeld o key

structure Inv (s : Sys K V) : Prop where
  client : ∀ c, (s.clients c).Inv
  rest : ∀ c, ((s.clients c).phase = .idle ∨ ∃ o cmd, (s.clients c).phase = .writing o cmd) →
    ∀ key r, (key, r) ∈ (s.clients c).watching → s.RestOk c key r
  checked : ∀ c o, ((s.clients c).phase = .checked o ∨ (s.clients c).phase = .locked o) →
    ∀ key, (s.clients c).Watches key → s.CheckedOk c o key
  not_violated : ∀ c, (s.clients c).violated = false

theorem inv_init : (init : Sys K V).Inv := by
  refine ⟨fun c => ?_, ?_, ?_, ?_⟩
  · constructor <;> simp [init]
  all_goals simp [init, Client.Watches]

/-! ### The record of changes -/

variable [DecidableEq K]

section

variable [DecidableEq V] (s : Sys K V) (e : Event K V)
include s e

@[simp] theorem step_objs : (s.step e).objs = (s.act e).objs := rfl
@[simp] theorem step_gen : (s.step e).gen = (s.act e).gen := rfl
@[simp] theorem step_db (c : Nat) : ((s.step e).clients c).db = ((s.act e).clients c).db := rfl
@[simp] theorem step_watching (c : Nat) : ((s.step e).clients c).watching = ((s.act e).clients c).watching := rfl
@[simp] theorem step_queue (c : Nat) : ((s.step e).clients c).queue = ((s.act e).clients c).queue := rfl
@[simp] theorem step_phase (c : Nat) : ((s.step e).clients c).phase = ((s.act e).clients c).phase := rfl
@[simp] theorem step_violated (c : Nat) : ((s.step e).clients c).violated = ((s.act e).clients c).violated := rfl

end

theorem addVersion_apply (keys : List K) (v : K → UInt32) (key : K) :
    addVersion keys v key = v key + UInt32.ofNat (keys.count key) := by
  induction keys generalizing v with
  | nil => simp [addVersion]
  | cons k keys ih =>
    have hrec : addVersion (k :: keys) v = addVersion keys (update v k (v k + 1)) := rfl
    rw [hrec, ih]
    by_cases hk : k = key
    · subst hk
      rw [update_self, count_cons_self, UInt32.ofNat_add]
      grind
    · rw [update_of_ne (Ne.symm hk), count_cons_of_ne hk]

end Sys

def Event.client : Event K V → Nat
  | watch c _ | select c _ | multi c | enqueue c _ | discard c | flushDB c | begin c _ | run c
  | check c | evict c _ _ | reject c | lock c | start c | exec c | finish c => c

/-- The event changes no value but under the client's own locks. -/
def Event.Local : Event K V → Prop
  | flushDB _ | evict .. => False
  | _ => True

attribute [local simp] Sys.act Event.client Sys.setPhase Sys.setClient Sys.setObj Client.reset Client.watch

namespace Sys

variable (s : Sys K V) {e : Event K V} {undo : List (Values K V → Values K V)}

theorem foldl_undo_apply {key : K} (h : ∀ u ∈ undo, ∀ v : Values K V, u v key = v key) (v : Values K V) :
    undo.foldl (fun v u => u v) v key = v key := by
  induction undo generalizing v with
  | nil => rfl
  | cons u undo ih =>
    rw [foldl_cons, ih fun u hu => h u (mem_cons_of_mem _ hu), h u mem_cons_self]

theorem value_setObj (o : Obj) (db : Db K V) (d : Nat) (key : K)
    (h : o = s.obj d → db.values key = (s.objs o).values key) :
    ((s.setObj o db).objs (s.obj d)).values key = (s.objs (s.obj d)).values key := by
  by_cases ho : s.obj d = o
  · subst ho
    simp only [setObj, update_self, h rfl]
  · simp only [setObj, update_of_ne ho]

variable [DecidableEq K]

theorem act_clients_of_ne (e : Event K V) {c : Nat} (h : c ≠ e.client) : (s.act e).clients c = s.clients c := by
  cases e <;> simp only [Event.client] at h <;> simp only [act]
  all_goals try split
  all_goals simp [update_of_ne h]

theorem act_gen (h : e.Local) : (s.act e).gen = s.gen := by
  cases e <;> simp only [act]
  case flushDB c => exact h.elim
  all_goals try split
  all_goals rfl

/-- Another client stays in its database object, unless that is flushed. -/
theorem cur_step [DecidableEq V] (he : e.Local) {c : Nat} (h : c ≠ e.client) : (s.step e).cur c = s.cur c := by
  simp only [cur, obj, step_gen, step_db, act_gen s he, act_clients_of_ne s e h]

/-- Only the holder of the write lock changes a value: when it runs its command, runs a queued
command, or undoes its queue. -/
theorem Inv.value_act {s : Sys K V} (h : s.Inv) (he : e.Local) {d : Nat} {key : K}
    (hne : (s.act e).value d key ≠ s.value d key) : (s.clients e.client).WriteHeld (s.obj d) key := by
  by_contra hheld
  refine hne ?_
  cases e with
  | flushDB c | evict c o key => exact he.elim
  | run c =>
    simp only [act]
    split
    · rename_i o cmd hphase
      refine value_setObj s o _ d key fun ho => ?_
      refine ((h.client c).writing_sound o cmd hphase key fun hk => hheld ?_).1 _
      rw [Client.WriteHeld, Event.client, hphase]
      exact ⟨ho, hk⟩
    · rfl
  | exec c =>
    simp only [act]
    split
    · rename_i o cmd rest undo hphase
      have hcmd := ((h.client c).running_sound o _ _ _ hphase).1 cmd mem_cons_self
      refine value_setObj s o _ d key fun ho => ?_
      refine ((h.client c).queue_sound cmd hcmd key fun hk => hheld ?_).1 _
      rw [Client.WriteHeld, Event.client, hphase]
      exact ⟨ho, mem_flatMap.2 ⟨cmd, hcmd, hk⟩⟩
    · rfl
  | finish c =>
    simp only [act]
    split
    · rename_i o undo failed hphase
      refine value_setObj s o _ d key fun ho => ?_
      cases failed with
      | false => rfl
      | true =>
        refine foldl_undo_apply (fun u hu v => ?_) _
        refine ((h.client c).running_sound o _ _ _ hphase).2 u hu v key fun hk => hheld ?_
        rw [Client.WriteHeld, Event.client, hphase]
        exact ⟨ho, hk⟩
    · rfl
  | begin c cmd =>
    exact value_setObj s (s.cur c)
      { s.objs (s.cur c) with versions := addVersion cmd.write (s.objs (s.cur c)).versions } d key
      fun _ => rfl
  | check c | lock c | start c =>
    simp only [act]
    split <;> rfl
  | _ => rfl

theorem versions_begin (c : Nat) (cmd : Cmd K V) (key : K) :
    ((s.act (.begin c cmd)).objs (s.cur c)).versions key =
      (s.objs (s.cur c)).versions key + UInt32.ofNat (cmd.write.count key) := by
  simp only [act, setPhase, setClient, setObj, update_self, addVersion_apply]

theorem versions_finish {c : Nat} {o : Obj}
    (hphase : (s.clients c).phase = .running o [] undo false) (key : K) : ((s.act (.finish c)).objs o).versions key =
      (s.objs o).versions key + UInt32.ofNat ((s.clients c).queueWrite.count key) := by
  simp [hphase, addVersion_apply]

/-- Versions change when a command begins and when an `EXEC` succeeds. -/
theorem versions_act (he : e.Local) (o : Obj) (key : K) :
    ((s.act e).objs o).versions key = (s.objs o).versions key ∨
      (∃ c cmd, e = .begin c cmd ∧ o = s.cur c ∧ key ∈ cmd.write) ∨
      ∃ c undo, e = .finish c ∧ (s.clients c).phase = .running o [] undo false ∧ key ∈ (s.clients c).queueWrite := by
  cases e with
  | flushDB c | evict c o key => exact he.elim
  | begin c cmd =>
    by_cases ho : o = s.cur c
    · by_cases hk : key ∈ cmd.write
      · exact .inr (.inl ⟨c, cmd, rfl, ho, hk⟩)
      · rw [ho, versions_begin, count_eq_zero.2 hk]
        exact .inl (by simp)
    · exact .inl (by simp only [act, setPhase, setClient, setObj, update_of_ne ho])
  | run c | exec c =>
    simp only [act]
    split
    · exact .inl (by simp only [setPhase, setClient, setObj, update_apply]; split <;> simp_all)
    · exact .inl rfl
  | finish c =>
    cases hphase : (s.clients c).phase with
    | running o' rest undo failed =>
      cases rest with
      | cons cmd rest => exact .inl (by simp [hphase])
      | nil =>
        by_cases ho : o = o'
        · subst ho
          cases failed with
          | true => exact .inl (by simp [hphase])
          | false =>
            by_cases hk : key ∈ (s.clients c).queueWrite
            · exact .inr (.inr ⟨c, undo, rfl, hphase, hk⟩)
            · rw [versions_finish s hphase, count_eq_zero.2 hk]
              exact .inl (by simp)
        · exact .inl (by simp [hphase, update_of_ne ho])
    | _ => exact .inl (by simp [hphase])
  | check c | lock c | start c =>
    simp only [act]
    split <;> exact .inl rfl
  | _ => exact .inl rfl

end Sys

namespace Client

variable {cl : Client K V} {o : Obj} {key : K}

theorem Inv.reset : cl.reset.Inv := by
  constructor <;> simp

section

variable (h : cl.Inv)
include h

theorem Inv.watch [DecidableEq K] (key : K) (version : UInt32) : (cl.watch key version).Inv := by
  refine { h with seen_db := fun e he => ?_ }
  have hold : ∀ e ∈ cl.seen, e.1 = cl.db ∧ (cl.watch key version).Watches e.2.1 := by
    intro e he
    obtain ⟨hdb, r, hr⟩ := h.seen_db e he
    refine ⟨hdb, ?_⟩
    by_cases hk : e.2.1 = key
    · exact ⟨version, hk ▸ mem_cons_self⟩
    · exact ⟨r, mem_cons_of_mem _ (mem_filter.2 ⟨hr, by simpa using hk⟩)⟩
  simp only [Client.watch] at he
  split at he
  · exact hold e he
  · rcases mem_cons.1 he with rfl | he
    · exact ⟨rfl, version, mem_cons_self⟩
    · exact hold e he

theorem Inv.seen_eq_nil (hw : cl.watching = []) : cl.seen = [] := by
  refine eq_nil_iff_forall_not_mem.2 fun e he => ?_
  obtain ⟨-, r, hr⟩ := h.seen_db e he
  simp [hw] at hr

theorem Inv.select {d : Nat} (hd : cl.watching = [] ∨ d = cl.db) : ({ cl with db := d } : Client K V).Inv := by
  refine { h with seen_db := fun e he => ?_ }
  rcases hd with hw | rfl
  · rw [h.seen_eq_nil hw] at he
    cases he
  · exact h.seen_db e he

theorem Inv.enqueue (hidle : cl.phase = .idle) {cmd : Cmd K V} (hcmd : cmd.Sound) :
    ({ cl with queue := cl.queue ++ [cmd] } : Client K V).Inv where
  queue_sound cmd' hc := by
    rcases mem_append.1 hc with hc | hc
    · exact h.queue_sound cmd' hc
    · exact mem_singleton.1 hc ▸ hcmd
  writing_sound o cmd' hp := by simp [hidle] at hp
  running_sound o rest undo failed hp := by simp [hidle] at hp
  seen_db := h.seen_db

/-- A phase may be entered when the commands and undo logs in it are sound. -/
theorem Inv.setPhase (p : Phase K V) (b : Bool) (hwriting : ∀ o cmd, p = .writing o cmd → cmd.Sound := by simp)
    (hrunning : ∀ o rest undo failed, p = .running o rest undo failed →
      (∀ cmd ∈ rest, cmd ∈ cl.queue) ∧
        ∀ u ∈ undo, ∀ v : Values K V, ∀ key ∉ cl.queueWrite, u v key = v key := by simp) :
    ({ cl with phase := p, violated := b } : Client K V).Inv :=
  ⟨h.queue_sound, hwriting, hrunning, h.seen_db⟩

/-- A queued command that ran leaves a sound rest and a sound undo log. -/
theorem Inv.exec {cmd : Cmd K V} {rest : List (Cmd K V)} {undo : List (Values K V → Values K V)}
    (hp : cl.phase = .running o (cmd :: rest) undo false) (values : Values K V) (isErr : Bool) :
    ({ cl with phase := if isErr then .running o [] undo true
        else .running o rest (cmd.undo values :: undo) false } : Client K V).Inv := by
  obtain ⟨hrest, hundo⟩ := h.running_sound o _ _ _ hp
  have hcmd := hrest cmd mem_cons_self
  refine h.setPhase _ _ (fun o' cmd' h' => ?_) fun o' rest' undo' failed' h' => ?_
  · split at h' <;> cases h'
  · split at h'
    · cases h'
      exact ⟨by simp, hundo⟩
    cases h'
    refine ⟨fun cmd' hc => hrest cmd' (mem_cons_of_mem _ hc), fun u hu v key hk => ?_⟩
    rcases mem_cons.1 hu with rfl | hu
    · exact (h.queue_sound cmd hcmd key fun hw => hk (mem_flatMap.2 ⟨cmd, hcmd, hw⟩)).2 _ _
    · exact hundo u hu v key hk

end

theorem WriteHeld.cases (h : cl.WriteHeld o key) :
    (∃ cmd, cl.phase = .writing o cmd ∧ key ∈ cmd.write) ∨ (cl.InTxn o ∧ key ∈ cl.queueWrite) := by
  rw [WriteHeld] at h
  split at h
  · rename_i o' cmd hp
    exact .inl ⟨cmd, h.1 ▸ hp, h.2⟩
  · rename_i o' hp
    exact .inr ⟨.inl (h.1 ▸ hp), h.2⟩
  · rename_i o' rest undo failed hp
    exact .inr ⟨.inr ⟨rest, undo, failed, h.1 ▸ hp⟩, h.2⟩
  · exact h.elim

theorem InTxn.writeHeld (h : cl.InTxn o) (hk : key ∈ cl.queueWrite) : cl.WriteHeld o key := by
  rw [WriteHeld]
  rcases h with hp | ⟨rest, undo, failed, hp⟩ <;> rw [hp] <;> exact ⟨rfl, hk⟩

theorem Inv.note (h : cl.Inv) (f : Nat → K → Bool → Bool) :
    ({ cl with seen := cl.seen.map fun (d, key, b) => (d, key, f d key b) } : Client K V).Inv := by
  refine { h with seen_db := fun e he => ?_ }
  obtain ⟨e', he', rfl⟩ := mem_map.1 he
  exact h.seen_db e' he'

end Client

namespace Sys

variable {s : Sys K V} {e : Event K V} {c : Nat} {o : Obj} {key : K} {r : UInt32}

theorem not_inTxn_of_idle {cl : Client K V} (h : cl.phase = .idle) (o : Obj) : ¬cl.InTxn o := by
  simp [Client.InTxn, h]

variable [DecidableEq K]

theorem Inv.client_act (h : s.Inv) (he : s.Enabled e) (hok : s.Ok e) : ((s.act e).clients e.client).Inv := by
  cases e with
  | watch c key => simpa using (h.client c).watch key _
  | select c d => simpa using (h.client c).select hok
  | multi c =>
    have hc := h.client c
    simpa using
      (⟨hc.queue_sound, hc.writing_sound, hc.running_sound, hc.seen_db⟩ : Client.Inv { s.clients c with inMulti := true })
  | enqueue c cmd => simpa using (h.client c).enqueue he.1 hok
  | discard c | reject c => simpa using Client.Inv.reset
  | flushDB c | evict c o key => exact h.client c
  | begin c cmd =>
    simpa using (h.client c).setPhase (.writing (s.cur c) cmd) (s.clients c).violated (by rintro _ _ ⟨⟩; exact hok.1)
  | run c =>
    obtain ⟨o, cmd, hp⟩ := he
    simpa [hp] using (h.client c).setPhase .idle (s.clients c).violated
  | check c =>
    simp only [act, Event.client]
    split
    · simpa using Client.Inv.reset
    · simpa using (h.client c).setPhase (.checked (s.cur c)) (s.clients c).violated
  | lock c =>
    obtain ⟨o, hp, -⟩ := he
    simpa [hp] using (h.client c).setPhase (.locked o) (s.clients c).violated
  | start c =>
    obtain ⟨o, hp⟩ := he
    simpa [hp] using (h.client c).setPhase (.running o (s.clients c).queue [] false)
      ((s.clients c).violated || (s.clients c).seen.any (·.2.2)) (by simp) (by rintro _ _ _ _ ⟨⟩; simp)
  | exec c =>
    obtain ⟨o, cmd, rest, undo, hp⟩ := he
    have hphase := (h.client c).exec hp (s.objs o).values (cmd.exec (s.objs o).values).2
    simpa [hp] using hphase
  | finish c =>
    obtain ⟨o, undo, failed, hp⟩ := he
    simpa [hp] using Client.Inv.reset

/-! ### The phases over a step -/

inductive Moves (s : Sys K V) (e : Event K V) : Phase K V → Phase K V → Prop
  | stay : Moves s e .idle .idle
  | begin {cmd : Cmd K V} : e = .begin e.client cmd → Moves s e .idle (.writing (s.cur e.client) cmd)
  | run {o : Obj} {cmd : Cmd K V} : e = .run e.client → Moves s e (.writing o cmd) .idle
  | check : e = .check e.client → Moves s e .idle (.checked (s.cur e.client))
  | reject {o : Obj} : Moves s e (.checked o) .idle
  | lock {o : Obj} : e = .lock e.client → Moves s e (.checked o) (.locked o)
  | start {o : Obj} : Moves s e (.locked o) (.running o (s.clients e.client).queue [] false)
  | exec {o : Obj} {cmd : Cmd K V} {rest rest' : List (Cmd K V)} {undo undo' : List (Values K V → Values K V)}
      {failed : Bool} : Moves s e (.running o (cmd :: rest) undo false) (.running o rest' undo' failed)
  | finish {o : Obj} {undo : List (Values K V → Values K V)} {failed : Bool} :
      e = .finish e.client → Moves s e (.running o [] undo failed) .idle

section

variable (he : s.Enabled e) (hl : e.Local)
include he hl

theorem moves_act : s.Moves e (s.clients e.client).phase ((s.act e).clients e.client).phase := by
  cases e with
  | evict c o key => exact hl.elim
  | begin c cmd =>
    rw [Event.client, he.1]
    simp only [act, setPhase, setClient, update_self]
    exact .begin rfl
  | run c =>
    obtain ⟨o, cmd, hp⟩ := he
    simpa [hp] using Moves.run rfl
  | check c =>
    rw [Event.client, he.1]
    simp only [act]
    split <;> simp only [setPhase, setClient, Client.reset, update_self]
    · exact .stay
    · exact .check rfl
  | reject c =>
    obtain ⟨o, hp⟩ := he
    simpa [hp] using Moves.reject
  | lock c =>
    obtain ⟨o, hp, -⟩ := he
    simpa [hp] using Moves.lock rfl
  | start c =>
    obtain ⟨o, hp⟩ := he
    simpa [hp] using Moves.start
  | exec c =>
    obtain ⟨o, cmd, rest, undo, hp⟩ := he
    simp only [act, Event.client, setPhase, setClient, hp, update_self]
    split <;> exact .exec
  | finish c =>
    obtain ⟨o, undo, failed, hp⟩ := he
    simpa [hp] using Moves.finish rfl
  | watch c key => simpa [show _ = _ from he] using Moves.stay
  | discard c => simpa [he.1] using Moves.stay
  | _ => simpa [he.1] using Moves.stay

/-- The queue changes between operations only, or at their end. -/
theorem queue_act (hp : (s.clients e.client).phase ≠ .idle) (hp' : ((s.act e).clients e.client).phase ≠ .idle) :
    ((s.act e).clients e.client).queue = (s.clients e.client).queue := by
  cases e with
  | finish c =>
    obtain ⟨o, undo, failed, hrun⟩ := he
    simp [hrun] at hp'
  | evict c o key => exact hl.elim
  | reject c => simp at hp'
  | watch c key => exact absurd he hp
  | run c | lock c | start c | exec c =>
    simp only [act, Event.client]
    split <;> simp
  | _ => exact absurd he.1 hp

/-- A command is between its version bump and its write only from `begin` on. -/
theorem writing_act {cmd : Cmd K V} (hp : ((s.act e).clients e.client).phase = .writing o cmd) :
    e = .begin e.client cmd ∧ o = s.cur e.client := by
  have hm := moves_act he hl
  rw [hp] at hm
  generalize (s.clients e.client).phase = p at hm
  cases hm with
  | begin heq => exact ⟨heq, rfl⟩

/-- An `EXEC` that has its locks keeps them, and its queue, until it finishes. -/
theorem inTxn_act (h : (s.clients e.client).InTxn o) : (((s.act e).clients e.client).InTxn o ∧
        ((s.act e).clients e.client).queue = (s.clients e.client).queue) ∨
      (e = .finish e.client ∧ ∃ undo failed, (s.clients e.client).phase = .running o [] undo failed) := by
  have hm := moves_act he hl
  have hq := queue_act he hl
  rcases h with hp | ⟨rest, undo, failed, hp⟩
  all_goals
    rw [hp] at hm hq
    generalize hp' : ((s.act e).clients e.client).phase = p' at hm hq
    cases hm
  case start => exact .inl ⟨.inr ⟨_, _, _, hp'⟩, hq (by simp) (by simp)⟩
  case exec => exact .inl ⟨.inr ⟨_, _, _, hp'⟩, hq (by simp) (by simp)⟩
  case finish heq => exact .inr ⟨heq, undo, failed, hp⟩

/-- An `EXEC` has its locks after a step if it had them before, or if it takes them. -/
theorem inTxn_of_act (h : ((s.act e).clients e.client).InTxn o) :
    ((s.act e).clients e.client).queue = (s.clients e.client).queue ∧ ((s.clients e.client).InTxn o ∨
        (e = .lock e.client ∧ (s.clients e.client).phase = .checked o)) := by
  have hm := moves_act he hl
  have hq := queue_act he hl
  rcases h with hp' | ⟨rest, undo, failed, hp'⟩
  all_goals
    rw [hp'] at hm hq
    generalize hp : (s.clients e.client).phase = p at hm hq
    cases hm
  case lock heq => exact ⟨hq (by simp) (by simp), .inr ⟨heq, rfl⟩⟩
  case start => exact ⟨hq (by simp) (by simp), .inl (.inl hp)⟩
  case exec => exact ⟨hq (by simp) (by simp), .inl (.inr ⟨_, _, _, hp⟩)⟩

end

/-! ### One step keeps the invariant -/

section

variable (h : s.Inv)
include h

/-- `WATCH` records a version that is `RestOk`. -/
theorem Inv.rest_watch (hidle : (s.clients c).phase = .idle) (hok : s.Ok (.watch c key)) :
    s.RestOk c key ((s.objs (s.cur c)).versions key) := by
  refine fun _ => ⟨hok.2, fun hch => ?_⟩
  obtain ⟨-, r, hr⟩ := (h.client c).seen_db _ hch
  exact (h.rest c (.inl hidle) key r hr (hok.1 r hr).symm).2 hch

theorem Inv.violated_act : ((s.act e).clients e.client).violated = false := by
  have hsame := h.not_violated e.client
  cases e with
  | start c =>
    simp only [act, Event.client]
    split
    · rename_i o hp
      have hseen : (s.clients c).seen.any (·.2.2) = false := by
        refine any_eq_false.2 fun e he hch => ?_
        obtain ⟨hdb, hkey⟩ := (h.client c).seen_db e he
        refine (h.checked c o (.inr hp) e.2.1 hkey).2.1 ?_
        rw [Changed, ← hdb, ← hch]
        exact he
      simpa [hseen] using hsame
    · exact hsame
  | run c | lock c | exec c | finish c | check c =>
    simp only [act, Event.client]
    split
    all_goals simpa using hsame
  | _ => simpa using hsame

variable [DecidableEq V]

theorem Inv.client_step (he : s.Enabled e) (hok : s.Ok e) (c : Nat) : ((s.step e).clients c).Inv := by
  have hact : ((s.act e).clients c).Inv := by
    by_cases hc : c = e.client
    · exact hc ▸ h.client_act he hok
    · rw [act_clients_of_ne s e hc]
      exact h.client c
  exact hact.note fun d key b => b || decide ((s.act e).value d key ≠ s.value d key)

omit h in
theorem changed_step (h : (s.step e).Changed c key) : (s.act e).Changed c key ∨
      (s.act e).value ((s.act e).clients c).db key ≠ s.value ((s.act e).clients c).db key := by
  obtain ⟨⟨d, k, b⟩, hmem, heq⟩ := mem_map.1 h
  simp only [Prod.mk.injEq, Bool.or_eq_true, decide_eq_true_eq] at heq
  obtain ⟨rfl, rfl, rfl | hne⟩ := heq
  · exact .inl hmem
  · exact .inr hne

/-- A change of another client's watched key comes from the holder of its write lock. -/
theorem Inv.changed_other (he : e.Local) (hc : c ≠ e.client)
    (hch : (s.step e).Changed c key) : s.Changed c key ∨ (s.clients e.client).WriteHeld (s.cur c) key := by
  rcases changed_step hch with hch | hne
  · rw [Changed, act_clients_of_ne s e hc] at hch
    exact .inl hch
  · rw [act_clients_of_ne s e hc] at hne
    exact .inr (h.value_act he hne)

/-- A client that watches keys keeps `RestOk` while another one takes a step. -/
theorem Inv.rest_other (he : s.Enabled e) (hok : s.Ok e) (hl : e.Local)
    (hc : c ≠ e.client) (hr : (key, r) ∈ (s.clients c).watching) (hrest : s.RestOk c key r) :
    (s.step e).RestOk c key r := by
  have hcur := cur_step s hl hc
  intro hver
  rw [hcur, step_objs] at hver
  rw [hcur]
  -- a bump would have taken the version away from the recorded one
  have hbegin : ∀ cmd, e = .begin e.client cmd → s.cur e.client = s.cur c → key ∉ cmd.write := by
    intro cmd heq ho hk
    rw [heq] at hok
    refine hok.2.1 c (ho ▸ rfl) key r hr hk ?_
    rw [← hver, heq, ← ho]
    exact (versions_begin s _ cmd key).symm
  have hfinish : ∀ undo failed, e = .finish e.client →
      (s.clients e.client).phase = .running (s.cur c) [] undo failed → key ∉ (s.clients e.client).queueWrite := by
    intro undo failed heq hp hk
    rw [heq] at hok
    obtain ⟨hwrap, hfail⟩ := hok _ undo failed hp c hc
    cases failed with
    | true => exact hfail rfl rfl key hk ⟨r, hr⟩
    | false =>
      refine hwrap rfl key r hr hk ?_
      rw [← hver, heq]
      exact (versions_finish s hp key).symm
  have hold : ((s.objs (s.cur c)).versions key) = r := by
    rcases versions_act s hl (s.cur c) key with hv | ⟨c', cmd, rfl, ho, hk⟩ | ⟨c', undo, rfl, hp, hk⟩
    · rw [← hv, hver]
    · exact absurd hk (hbegin cmd rfl ho.symm)
    · exact absurd hk (hfinish undo false rfl hp)
  obtain ⟨hwriting, hchanged⟩ := hrest hold
  refine ⟨fun c' cmd hp hk => ?_, fun hch => ?_⟩
  · rw [step_phase] at hp
    by_cases hc' : c' = e.client
    · subst hc'
      obtain ⟨heq, ho⟩ := writing_act he hl hp
      exact hbegin cmd heq ho.symm hk
    · rw [act_clients_of_ne s e hc'] at hp
      exact hwriting c' cmd hp hk
  · have hpend : ∀ c', c' ≠ c → (s.clients c').InTxn (s.cur c) → key ∈ (s.clients c').queueWrite →
        ∃ c', c' ≠ c ∧ ((s.step e).clients c').InTxn (s.cur c) ∧ key ∈ ((s.step e).clients c').queueWrite := by
      intro c' hne hin hk
      refine ⟨c', hne, ?_⟩
      by_cases hc' : c' = e.client
      · subst hc'
        rcases inTxn_act he hl hin with ⟨hin', hq⟩ | ⟨heq, undo, failed, hp⟩
        · refine ⟨hin', ?_⟩
          rw [Client.queueWrite, step_queue, hq]
          exact hk
        · exact absurd hk (hfinish undo failed heq hp)
      · rw [Client.InTxn, step_phase, Client.queueWrite, step_queue, act_clients_of_ne s e hc']
        exact ⟨hin, hk⟩
    rcases h.changed_other hl hc hch with hch | hheld
    · obtain ⟨c', hne, hin, hk⟩ := hchanged hch
      exact hpend c' hne hin hk
    · rcases hheld.cases with ⟨cmd, hp, hk⟩ | ⟨hin, hk⟩
      · exact absurd hk (hwriting _ cmd hp)
      · exact hpend _ (Ne.symm hc) hin hk

/-- A client past its version check keeps `CheckedOk` while another one takes a step. -/
theorem Inv.checked_other (he : s.Enabled e) (hok : s.Ok e) (hl : e.Local)
    (hc : c ≠ e.client) (hp : (s.clients c).phase = .checked o ∨ (s.clients c).phase = .locked o)
    (hkey : (s.clients c).Watches key) (hck : s.CheckedOk c o key) : (s.step e).CheckedOk c o key := by
  obtain ⟨rfl, hch, hfree⟩ := hck
  -- the locks of an EXEC cover its watched keys
  have hread : (s.clients c).phase = .locked (s.cur c) → (s.clients c).ReadHeld (s.cur c) key := by
    intro hp
    obtain ⟨r, hr⟩ := hkey
    rw [Client.ReadHeld, hp]
    exact ⟨rfl, mem_append_right _ (mem_map.2 ⟨(key, r), hr, rfl⟩)⟩
  refine ⟨(cur_step s hl hc).symm, fun hch' => ?_, fun c' hne hheld => ?_⟩
  · rcases h.changed_other hl hc hch' with hch' | hheld
    · exact hch hch'
    · exact hfree _ (Ne.symm hc) hheld
  · by_cases hc' : c' = e.client
    · subst hc'
      rcases hheld.cases with ⟨cmd, hp', hk⟩ | ⟨hin, hk⟩
      · obtain ⟨heq, ho⟩ := writing_act he hl hp'
        rw [heq] at he hok
        rcases hp with hp | hp
        · exact hok.2.2 c (ho ▸ hp) key hk hkey
        · exact ((he.2.2 c hc).1 key hk).2 (ho ▸ hread hp)
      obtain ⟨hq, hin | ⟨heq, hp'⟩⟩ := inTxn_of_act he hl hin
      · rw [Client.queueWrite, step_queue, hq] at hk
        exact hfree _ hne (hin.writeHeld hk)
      · rw [Client.queueWrite, step_queue, hq] at hk
        rw [heq] at he hok
        rcases hp with hp | hp
        · exact hok _ hp' c hc hp key hk hkey
        · obtain ⟨o', ho', hlock⟩ := he
          obtain rfl : s.cur c = o' := by simpa using hp'.symm.trans ho'
          exact ((hlock c hc).1 key hk).2 (hread hp)
    · refine hfree c' hne ?_
      rw [← act_clients_of_ne s e hc']
      exact hheld

/-- A client keeps `RestOk` over its own step, when it stays in its database. -/
theorem Inv.rest_own (hl : e.Local) (hphase : ∀ o, ¬(s.clients e.client).InTxn o)
    (hdb : ((s.act e).clients e.client).db = (s.clients e.client).db)
    (hseen : (s.act e).Changed e.client key → s.Changed e.client key)
    (hver : ((s.act e).objs (s.cur e.client)).versions key = r → (s.objs (s.cur e.client)).versions key = r ∧
        ∀ cmd, ((s.act e).clients e.client).phase = .writing (s.cur e.client) cmd → key ∉ cmd.write)
    (hrest : s.RestOk e.client key r) : (s.step e).RestOk e.client key r := by
  have hcur : (s.step e).cur e.client = s.cur e.client := by
    simp only [cur, obj, step_gen, step_db, act_gen s hl, hdb]
  intro hv
  rw [hcur, step_objs] at hv
  rw [hcur]
  obtain ⟨hold, hown⟩ := hver hv
  obtain ⟨hwriting, hchanged⟩ := hrest hold
  refine ⟨fun c' cmd hp => ?_, fun hch => ?_⟩
  · by_cases hc' : c' = e.client
    · exact hown cmd (hc' ▸ hp)
    · rw [step_phase, act_clients_of_ne s e hc'] at hp
      exact hwriting c' cmd hp
  · have hch' : s.Changed e.client key := by
      rcases changed_step hch with hch | hne
      · exact hseen hch
      · rw [hdb] at hne
        rcases (h.value_act hl hne).cases with ⟨cmd, hp, hk⟩ | ⟨hin, -⟩
        · exact absurd hk (hwriting _ cmd hp)
        · exact absurd hin (hphase _)
    obtain ⟨c', hne, hin, hk⟩ := hchanged hch'
    refine ⟨c', hne, ?_⟩
    rw [Client.InTxn, step_phase, Client.queueWrite, step_queue, act_clients_of_ne s e hne]
    exact ⟨hin, hk⟩

/-- A client that stays idle, in its database, with what it watched and what it saw before, keeps
`RestOk`. -/
theorem Inv.rest_idle (hl : e.Local) (hidle : (s.clients e.client).phase = .idle)
    (hobjs : (s.act e).objs = s.objs) (hown : ((s.act e).clients e.client).phase = .idle ∧
      ((s.act e).clients e.client).db = (s.clients e.client).db ∧
        ((s.act e).clients e.client).watching = (s.clients e.client).watching ∧
          ((s.act e).clients e.client).seen = (s.clients e.client).seen)
    (hr : (key, r) ∈ ((s.act e).clients e.client).watching) : (s.step e).RestOk e.client key r := by
  obtain ⟨hidle', hdb, hw, hseen⟩ := hown
  refine h.rest_own hl (not_inTxn_of_idle hidle) hdb (fun hch => ?_) (fun hv => ⟨hobjs ▸ hv, fun cmd hp => ?_⟩)
    (h.rest _ (.inl hidle) key r (hw ▸ hr))
  · rwa [Changed, hseen, hdb] at hch
  · cases hidle'.symm.trans hp

theorem Inv.rest_step (he : s.Enabled e) (hok : s.Ok e) (hl : e.Local)
    (hp : ((s.act e).clients e.client).phase = .idle ∨ ∃ o cmd, ((s.act e).clients e.client).phase = .writing o cmd)
    (hr : (key, r) ∈ ((s.act e).clients e.client).watching) : (s.step e).RestOk e.client key r := by
  cases e with
  | watch c key' =>
    have hidle : (s.clients c).phase = .idle := he
    have hrest : s.RestOk c key r := by
      simp only [act, Event.client, setClient, update_self, Client.watch, mem_cons, Prod.mk.injEq] at hr
      rcases hr with ⟨rfl, rfl⟩ | hr
      · exact h.rest_watch hidle hok
      · exact h.rest c (.inl hidle) key r (mem_of_mem_filter hr)
    refine h.rest_own hl (not_inTxn_of_idle hidle) ?_ ?_ (fun hv => ⟨hv, fun cmd hp => ?_⟩) hrest
    · simp
    · intro hch
      simp only [Changed, act, Event.client, setClient, update_self, Client.watch] at hch ⊢
      split at hch
      · exact hch
      · simpa using hch
    · simp [hidle] at hp
  | select c d =>
    rcases hok with hw | rfl
    · simp [hw] at hr
    · exact h.rest_idle hl he.1 rfl (by simp [he.1]) hr
  | multi c | enqueue c cmd => exact h.rest_idle hl he.1 rfl (by simp [he.1]) hr
  | begin c cmd =>
    obtain ⟨hidle, -⟩ := he
    have hr' : (key, r) ∈ (s.clients c).watching := by
      simpa using hr
    -- a command that writes the client's own watched key takes its version away
    have hnot : ((s.act (.begin c cmd)).objs (s.cur c)).versions key = r → key ∉ cmd.write :=
      fun hv hk => hok.2.1 c rfl key r hr' hk ((versions_begin s c cmd key).symm.trans hv)
    refine h.rest_own hl (not_inTxn_of_idle hidle) ?_ ?_ (fun hv => ⟨?_, fun cmd' hp => ?_⟩)
      (h.rest c (.inl hidle) key r hr')
    · simp
    · simp [Changed]
    · rw [Event.client] at hv
      have hbump := versions_begin s c cmd key
      rw [hv, count_eq_zero.2 (hnot hv)] at hbump
      rw [hbump]
      simp
    · simp only [act, Event.client, setPhase, setClient, update_self, Phase.writing.injEq] at hp
      exact hp.2 ▸ hnot hv
  | run c =>
    obtain ⟨o, cmd, hp'⟩ := he
    refine h.rest_own hl (fun o' => by simp [Client.InTxn, hp']) ?_ ?_ (fun hv => ⟨?_, fun cmd' hp => ?_⟩) ?_
    · simp [hp']
    · simp [Changed, hp']
    · rcases versions_act s hl (s.cur c) key with hold | ⟨_, _, hcon, -⟩ | ⟨_, _, hcon, -⟩
      · exact hold.symm.trans hv
      · cases hcon
      · cases hcon
    · simp [hp'] at hp
    · exact h.rest c (.inr ⟨o, cmd, hp'⟩) key r (by simpa [hp'] using hr)
  | check c =>
    simp only [act, Event.client] at hp hr
    split at hr
    · simp at hr
    · rename_i hcond
      simp [hcond] at hp
  | discard c | reject c => simp at hr
  | finish c =>
    obtain ⟨o, undo, failed, hp'⟩ := he
    simp [hp'] at hr
  | flushDB c | evict c o key => exact hl.elim
  | lock c =>
    obtain ⟨o, hp', -⟩ := he
    simp [hp'] at hp
  | start c =>
    obtain ⟨o, hp'⟩ := he
    simp [hp'] at hp
  | exec c =>
    obtain ⟨o, cmd, rest, undo, hp'⟩ := he
    simp only [act, Event.client, setPhase, setClient, hp', update_self] at hp
    split at hp <;> simp at hp

theorem Inv.checked_step (he : s.Enabled e) (hok : s.Ok e) (hl : e.Local)
    (hp : ((s.act e).clients e.client).phase = .checked o ∨
      ((s.act e).clients e.client).phase = .locked o) (hkey : ((s.act e).clients e.client).Watches key) :
    (s.step e).CheckedOk e.client o key := by
  have hother : ∀ c', c' ≠ e.client → ((s.step e).clients c').WriteHeld o key → (s.clients c').WriteHeld o key := by
    intro c' hc' hheld
    rw [← act_clients_of_ne s e hc']
    exact hheld
  have hm := moves_act he hl
  rcases hp with hp | hp
  all_goals
    rw [hp] at hm
    generalize hp' : (s.clients e.client).phase = p at hm
    cases hm
  case check heq =>
    generalize e.client = c at heq hp' hother hkey hp ⊢
    subst heq
    have hw : s.isWatchingChanged (s.cur c) (s.clients c).watching = false := by
      by_contra hw
      simp [Bool.of_not_eq_false hw] at hp
    have hact : s.act (.check c) = s.setPhase c (.checked (s.cur c)) := by simp [hw]
    simp only [hact, setPhase, setClient, update_self] at hkey
    obtain ⟨r, hr⟩ := hkey
    have hver : (s.objs (s.cur c)).versions key = r := by
      simpa using any_eq_false.1 hw _ hr
    obtain ⟨hwriting, hchanged⟩ := h.rest c (.inl hp') key r hr hver
    refine ⟨?_, fun hch => ?_, fun c' hc' hheld => ?_⟩
    · simp only [cur, obj, step_gen, step_db, hact, setPhase, setClient, update_self]
    · have hch' : s.Changed c key := by
        rcases changed_step hch with hch | hne
        · simpa [Changed, hw] using hch
        · rw [hact] at hne
          exact absurd rfl hne
      obtain ⟨c', hc', hin, hk⟩ := hchanged hch'
      exact hok c' hc' hin key hk ⟨r, hr⟩
    · rcases (hother c' hc' hheld).cases with ⟨cmd, hp, hk⟩ | ⟨hin, hk⟩
      · exact hwriting c' cmd hp hk
      · exact hok c' hc' hin key hk ⟨r, hr⟩
  case lock heq =>
    generalize e.client = c at heq hp' hother hkey hp ⊢
    subst heq
    have hact : s.act (.lock c) = s.setPhase c (.locked o) := by simp [hp']
    simp only [hact, setPhase, setClient, update_self] at hkey
    obtain ⟨ho, hch, hfree⟩ := h.checked c o (.inl hp') key hkey
    refine ⟨?_, fun hch' => hch ?_, fun c' hc' hheld => hfree c' hc' (hother c' hc' hheld)⟩
    · rw [ho]
      simp [cur, obj, hp']
    · rcases changed_step hch' with hch' | hne
      · simpa [Changed, hp'] using hch'
      · rw [hact] at hne
        exact absurd rfl hne

/-- The invariant over an event without locks: it moves no client, and a client finds the keys that
it watches as they were. -/
theorem Inv.step_of_same (he : s.Enabled e) (hok : s.Ok e) (hclients : (s.act e).clients = s.clients)
    (hsame : ∀ c key, (s.clients c).Watches key → (s.act e).cur c = s.cur c ∧
      ((s.act e).objs (s.cur c)).versions key = (s.objs (s.cur c)).versions key ∧
        ((s.act e).objs (s.cur c)).values key = (s.objs (s.cur c)).values key) : (s.step e).Inv := by
  have hcl : ∀ c, (s.step e).clients c = { s.clients c with seen := ((s.step e).clients c).seen } := fun c => by
    rw [← hclients]
    rfl
  have hch : ∀ c key, (s.clients c).Watches key → (s.step e).Changed c key → s.Changed c key := by
    intro c key hkey hch
    obtain ⟨hcur, -, hval⟩ := hsame c key hkey
    rcases changed_step hch with hch | hne
    · rwa [Changed, hclients] at hch
    · rw [hclients] at hne
      have hobj : (s.act e).obj (s.clients c).db = s.cur c := by rw [← hcur, cur, hclients]
      refine absurd ?_ hne
      rw [value, hobj]
      exact hval
  refine ⟨h.client_step he hok, fun c hp key r hr hver => ?_, fun c o hp key hkey => ?_, fun c => ?_⟩
  · rw [hcl] at hp hr
    obtain ⟨hcur, hver', -⟩ := hsame c key ⟨r, hr⟩
    have hcur' : (s.step e).cur c = s.cur c := hcur
    rw [hcur', step_objs, hver'] at hver
    obtain ⟨hwriting, hchanged⟩ := h.rest c hp key r hr hver
    rw [hcur']
    refine ⟨fun c' cmd hp' => hwriting c' cmd (by rw [hcl] at hp'; exact hp'), fun hch' => ?_⟩
    obtain ⟨c', hne, hin⟩ := hchanged (hch c key ⟨r, hr⟩ hch')
    exact ⟨c', hne, by rw [hcl]; exact hin⟩
  · rw [hcl] at hp hkey
    obtain ⟨ho, hch', hfree⟩ := h.checked c o hp key hkey
    exact ⟨ho.trans (hsame c key hkey).1.symm, fun hc => hch' (hch c key hkey hc), fun c' hne hheld =>
      hfree c' hne (by rw [hcl] at hheld; exact hheld)⟩
  · rw [hcl]
    exact h.not_violated c

theorem Inv.flushDB (he : s.Enabled (.flushDB c)) (hok : s.Ok (.flushDB c)) : (s.step (.flushDB c)).Inv := by
  refine h.step_of_same he hok rfl fun c' key ⟨r, hr⟩ => ?_
  have hdb := hok c' (ne_nil_of_mem hr)
  have hne : s.cur c' ≠ ((s.clients c).db, s.gen (s.clients c).db + 1) := fun heq =>
    hdb (congrArg Prod.fst heq)
  simp only [act, update_of_ne hne, and_self, and_true]
  simp only [cur, obj, update_of_ne hdb]

theorem Inv.evict (he : s.Enabled (.evict c o key)) (hok : s.Ok (.evict c o key)) :
    (s.step (.evict c o key)).Inv := by
  refine h.step_of_same he hok rfl fun c' key' hkey => ⟨rfl, ?_⟩
  by_cases ho : s.cur c' = o
  · have hne : key' ≠ key := fun heq => hok c' ho (heq ▸ hkey)
    simp only [act, setObj, ho, update_self, update_of_ne hne, and_self]
  · simp only [act, setObj, update_of_ne ho, and_self]

theorem Inv.step (he : s.Enabled e) (hok : s.Ok e) : (s.step e).Inv := by
  by_cases hl : e.Local
  case neg =>
    cases e with
    | flushDB c => exact h.flushDB he hok
    | evict c o key => exact h.evict he hok
    | _ => exact absurd trivial hl
  refine ⟨h.client_step he hok, fun c hp key r hr => ?_, fun c o hp key hkey => ?_, fun c => ?_⟩
  all_goals by_cases hc : c = e.client
  · subst hc
    exact h.rest_step he hok hl hp hr
  · rw [step_phase, act_clients_of_ne s e hc] at hp
    rw [step_watching, act_clients_of_ne s e hc] at hr
    exact h.rest_other he hok hl hc hr (h.rest c hp key r hr)
  · subst hc
    exact h.checked_step he hok hl hp hkey
  · rw [step_phase, act_clients_of_ne s e hc] at hp
    rw [Client.Watches, step_watching, act_clients_of_ne s e hc] at hkey
    exact h.checked_other he hok hl hc hp hkey (h.checked c o hp key hkey)
  · subst hc
    exact h.violated_act
  · rw [step_violated, act_clients_of_ne s e hc]
    exact h.not_violated c

theorem Inv.run {es : List (Event K V)} (he : s.RunEnabled es) (hok : s.RunOk es) : (es.foldl Sys.step s).Inv := by
  induction es generalizing s with
  | nil => exact h
  | cons e es ih => exact ih (h.step he.1 hok.1) he.2 hok.2

end

end Sys

namespace Sys

theorem lockable_of_phase {s : Sys K V} {c : Nat} {o : Obj} {write read : List K}
    (h : ∀ c', c' ≠ c → (s.clients c').phase = .idle ∨ ∃ o', (s.clients c').phase = .checked o') :
    s.Lockable c o write read := by
  intro c' hc'
  rcases h c' hc' with hp | ⟨o', hp⟩ <;> simp [Client.WriteHeld, Client.ReadHeld, hp]

theorem run_of_ne [DecidableEq K] [DecidableEq V] {es : List (Event K V)} {c : Nat} (h : ∀ e ∈ es, c ≠ e.client) :
    (es.foldl Sys.step Sys.init).clients c = (Sys.init : Sys K V).clients c := by
  suffices ∀ s : Sys K V, s.clients c = Sys.init.clients c →
      (es.foldl Sys.step s).clients c = Sys.init.clients c from this _ rfl
  induction es with
  | nil => exact fun s hs => hs
  | cons e es ih =>
    refine fun s hs => ih (fun e' he' => h e' (mem_cons_of_mem _ he')) _ ?_
    simp only [step, note, act_clients_of_ne s e (h e mem_cons_self), hs]
    rfl

end Sys

/-- `SET key value`. -/
def setCmd (key value : Nat) : Cmd Nat Nat where
  write := [key]
  read := []
  exec v := (update v key (some value), false)
  undo v₀ v := update v key (v₀ key)

theorem setCmd_sound (key value : Nat) : (setCmd key value).Sound := by
  intro key' h
  have hne : key' ≠ key := by simpa [setCmd] using h
  simp [setCmd, update_of_ne hne]

theorem phase_cases (es : List (Event Nat Nat)) (hes : ∀ e ∈ es, e.client = 1 ∨ e.client = 2)
    (c : Nat) : c = 1 ∨ c = 2 ∨ (es.foldl Sys.step Sys.init).clients c = Sys.init.clients c := by
  rw [← or_assoc]
  by_cases hc : c = 1 ∨ c = 2
  · exact .inl hc
  · exact .inr (Sys.run_of_ne fun e he heq => hc (heq ▸ hes e he))

/-- Client 2 writes another key than the one client 1 watches. -/
def otherWrite : List (Event Nat Nat) :=
  [.watch 1 0, .multi 1, .enqueue 1 (setCmd 0 5), .begin 2 (setCmd 1 7), .run 2, .check 1, .lock 1,
    .start 1, .exec 1, .finish 1]

theorem otherWrite_client : ∀ e ∈ otherWrite, e.client = 1 ∨ e.client = 2 := by
  simp [otherWrite]

theorem runEnabled_otherWrite : Sys.init.RunEnabled otherWrite := by
  refine ⟨rfl, ⟨rfl, rfl⟩, ⟨rfl, rfl⟩, ⟨rfl, rfl, ?_⟩, ⟨_, _, rfl⟩, ⟨rfl, rfl⟩, ⟨_, rfl, ?_⟩, ⟨_, rfl⟩,
    ⟨_, _, _, _, rfl⟩, ⟨_, _, _, rfl⟩, trivial⟩
  all_goals refine Sys.lockable_of_phase fun c hc => ?_
  · rcases phase_cases _ (fun e he => otherWrite_client e (mem_of_mem_take (i := 3) he)) c with
      rfl | rfl | hc'
    · exact .inl rfl
    · exact absurd rfl hc
    · exact .inl (congrArg Client.phase hc')
  · rcases phase_cases _ (fun e he => otherWrite_client e (mem_of_mem_take (i := 6) he)) c with
      rfl | rfl | hc'
    · exact absurd rfl hc
    · exact .inl rfl
    · exact .inl (congrArg Client.phase hc')

theorem runOk_otherWrite : Sys.init.RunOk otherWrite := by
  have hcases := fun n (c : Nat) =>
    phase_cases _ (fun e he => otherWrite_client e (mem_of_mem_take (i := n) he)) c
  refine ⟨⟨by simp [Sys.init], fun c cmd hp => by cases hp⟩, trivial, setCmd_sound _ _,
    ⟨setCmd_sound _ _, fun c _ key r hr hk => ?_, fun c hp => ?_⟩, trivial, fun c hc hin => ?_,
    fun o _ c hc hp => ?_, trivial, trivial, fun o undo failed hp c hc => ?_, trivial⟩
  · rcases hcases 3 c with rfl | rfl | hc
    · obtain rfl : key = 1 := mem_singleton.1 hk
      have hr' : (1, r) ∈ [((0 : Nat), (0 : UInt32))] := hr
      simp at hr'
    · cases hr
    · replace hr := (congrArg Client.watching hc) ▸ hr
      cases hr
  · rcases hcases 3 c with rfl | rfl | hc
    · cases hp
    · cases hp
    · cases hp.symm.trans (congrArg Client.phase hc)
  · rcases hcases 5 c with rfl | rfl | hc'
    · exact absurd rfl hc
    · exact absurd hin (Sys.not_inTxn_of_idle rfl _)
    · exact absurd hin (Sys.not_inTxn_of_idle (congrArg Client.phase hc') _)
  · rcases hcases 6 c with rfl | rfl | hc'
    · exact absurd rfl hc
    · cases hp
    · cases hp.symm.trans (congrArg Client.phase hc')
  · have hw : ∀ key r, (key, r) ∉ (((otherWrite.take 9).foldl Sys.step Sys.init).clients c).watching := by
      rcases hcases 9 c with rfl | rfl | hc'
      · exact absurd rfl hc
      · exact fun _ _ hr => by cases hr
      · rw [hc']
        exact fun _ _ hr => by cases hr
    exact ⟨fun _ key r hr _ => absurd hr (hw key r), fun _ _ key _ ⟨r, hr⟩ => hw key r hr⟩

/-- Client 2 writes the watched key once client 1 has checked its version. -/
def lateWrite : List (Event Nat Nat) :=
  [.watch 1 0, .multi 1, .enqueue 1 (setCmd 1 5), .check 1, .begin 2 (setCmd 0 7), .run 2, .lock 1, .start 1]

end Hayakv.Txn
