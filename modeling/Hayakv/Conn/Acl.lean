import Hayakv.Cmd.Server
import Hayakv.Conn.Session

/-!
# Access control

`internal/acl`, `Auth`, and the checks of `Server.Exec`: which command lines take effect for which connections. A
connection points to the object of its user, which `ACL SETUSER` changes in place; a user that `ACL DELUSER` has removed
from the registry is still pointed to.

`Server.Exec` runs HELLO, PING, AUTH and ACL without a look at the user. For all other commands it looks at the names of
commands only, when they are called: not at keys, not at whether the user is still there and enabled, not at what was
queued. `enforced_of_sound` says what has to hold for this to be enough.
-/

namespace Hayakv.Acl

open Conn

open Engine (Key Env Op Exec)
open Resp (CmdLine)

/-! ## Users -/

structure KeyPattern where
  pat : Bytes
  read : Bool
  write : Bool

/-- `User`. No category is ever known to `catLookup`. -/
structure User where
  name : Bytes
  enabled : Bool := false
  noPass : Bool := false
  passHashes : List Bytes := []
  allKeys : Bool := false
  keyPats : List KeyPattern := []
  allChans : Bool := false
  chanPats : List Bytes := []
  allCmds : Bool := false
  cmdAllow : List (Bytes × Bool) := []

/-- `sha256hex` and `wildcard.CompilePattern`. -/
structure Lib where
  sha256hex : Bytes → Bytes
  compilePattern : Bytes → Option (Bytes → Bool)

theorem mem_of_lookup {α β : Type} [BEq α] [LawfulBEq α] {l : List (α × β)} {k : α} {v : β} (h : l.lookup k = some v) :
    (k, v) ∈ l := by
  obtain ⟨_, _, rfl, -⟩ := List.lookup_eq_some_iff.1 h
  exact List.mem_append_right _ List.mem_cons_self

variable (lib : Lib)

namespace User

def checkPassword (u : User) (pw : Bytes) : Bool := u.noPass || lib.sha256hex pw ∈ u.passHashes

/-- One rule of `ApplyRules`; `none` for an error. -/
def applyRule (u : User) (r : Bytes) : Option User :=
  if r = "on" then some { u with enabled := true }
  else if r = "off" then some { u with enabled := false }
  else if r = "nopass" then some { u with noPass := true, passHashes := [] }
  else if r = "resetpass" then some { u with noPass := false, passHashes := [] }
  else if ">" <+: r then
    some { u with noPass := false, passHashes := lib.sha256hex (r.drop 1) :: u.passHashes }
  else if "#" <+: r then some { u with passHashes := toLower (r.drop 1) :: u.passHashes }
  else if r = "~*" ∨ r = "allkeys" then some { u with allKeys := true }
  else if "%R~" <+: r then some { u with keyPats := u.keyPats ++ [⟨r.drop 3, true, false⟩] }
  else if "%W~" <+: r then some { u with keyPats := u.keyPats ++ [⟨r.drop 3, false, true⟩] }
  else if "~" <+: r then some { u with keyPats := u.keyPats ++ [⟨r.drop 1, true, true⟩] }
  else if r = "&*" ∨ r = "allchannels" then some { u with allChans := true }
  else if "&" <+: r then some { u with chanPats := u.chanPats ++ [r.drop 1] }
  else if r = "+@all" ∨ r = "allcommands" then some { u with allCmds := true }
  else if r = "-@all" ∨ r = "nocommands" then some { u with allCmds := false, cmdAllow := [] }
  else if "+@" <+: r ∨ "-@" <+: r then some u
  else if "+" <+: r then some { u with cmdAllow := Engine.putField (toLower (r.drop 1)) true u.cmdAllow }
  else if "-" <+: r then some { u with cmdAllow := Engine.putField (toLower (r.drop 1)) false u.cmdAllow }
  else if r = "reset" then some { name := u.name }
  else none

/-- `ApplyRules`: the rules before an error stay applied. The error itself is only replied. -/
def applyRules (u : User) : List Bytes → User
  | [] => u
  | r :: rules => (u.applyRule lib r).elim u fun u => u.applyRules rules

def canRunCommand (u : User) (name : Bytes) : Bool := (u.cmdAllow.lookup (toLower name)).getD u.allCmds

def canAccessKey (u : User) (key : Key) (write : Bool) : Bool :=
  u.allKeys || u.keyPats.any fun p =>
    (if write then p.write else p.read) && (lib.compilePattern p.pat).any fun isMatch => isMatch key

def isDefaultAllPerms (u : User) : Bool := u.name = "default" ∧ u.enabled ∧ u.allCmds ∧ u.allKeys ∧ u.allChans

/-- Has all commands, and none denied by name. -/
def Unrestricted (u : User) : Prop := u.allCmds = true ∧ ∀ rule ∈ u.cmdAllow, rule.2 = true

theorem Unrestricted.canRunCommand {u : User} (h : u.Unrestricted) (name : Bytes) : u.canRunCommand name = true := by
  rw [User.canRunCommand]
  cases hrule : u.cmdAllow.lookup (toLower name) with
  | none => exact h.1
  | some allow => exact h.2 _ (mem_of_lookup hrule)

end User

/-! ## The server -/

/-- What a command finds when it is run. -/
structure Moment where
  env : Env
  server : Cmd.Server
  db : Nat

/-- What of a connection has a part in this. The user is a pointer. -/
structure Client where
  password : Bytes := []
  user : Option Nat := none
  multi : Bool := false
  queue : List CmdLine := []
  txErrors : Bool := false

/-- The password of the configuration, the objects of users, the registry, and the connections. -/
structure World where
  requirePass : Bytes
  objs : List User
  users : List (Bytes × Nat)
  clients : List (Nat × Client)

/-- `NewACL`. -/
def World.start (requirePass : Bytes) : World where
  requirePass
  objs := [{ name := "default", enabled := true, noPass := true, allKeys := true, allChans := true, allCmds := true }]
  users := [("default", 0)]
  clients := []

namespace World

variable (w : World)

def setUser (name : Bytes) (rules : List Bytes) : World :=
  match w.users.lookup name with
  | some p => { w with objs := w.objs.modify p fun u => u.applyRules lib rules }
  | none =>
    { w with objs := w.objs ++ [({ name } : User).applyRules lib rules], users := (name, w.objs.length) :: w.users }

def delUser (name : Bytes) : World :=
  if name = "default" then w else { w with users := Engine.removeField name w.users }

def authenticate (name password : Bytes) : Option Nat :=
  (w.users.lookup name).filter fun p => (w.objs[p]?).any fun u => u.enabled && u.checkPassword lib password

def auth (args : List Bytes) (c : Client) : Client :=
  match args with
  | [password] =>
    if w.requirePass = [] then c
    else if w.requirePass ≠ password then { c with password }
    else { c with password, user := (w.users.lookup (str "default")).or c.user }
  | [name, password] => { c with password, user := (w.authenticate lib name password).or c.user }
  | _ => c

/-- The options of `HELLO`. -/
def helloOptions : List Bytes → Client → Client
  | opt :: name :: password :: rest, c =>
    if toUpper opt = "AUTH" then
      if w.requirePass = [] then helloOptions rest c
      else if name = "default" ∧ w.requirePass = password then helloOptions rest { c with password }
      else c
    else if toUpper opt = "SETNAME" then helloOptions (password :: rest) c
    else c
  | _, c => c

/-- `execHello`. -/
def hello (args : List Bytes) (c : Client) : Client :=
  match args with
  | [] => c
  | ver :: options => if parseInt ver = some 2 ∨ parseInt ver = some 3 then w.helloOptions options c else c

variable (c : Client)

def isAuthenticated : Bool := w.requirePass = [] || c.password = w.requirePass

/-- The user of a connection: the default user, if it has none. -/
def userOf : Option Nat := c.user.or (w.users.lookup (str "default"))

/-- The check of `Server.Exec`. -/
def noPerm (cmdName : Bytes) : Bool :=
  ((w.userOf c).bind (w.objs[·]?)).any fun u => !u.isDefaultAllPerms && !u.canRunCommand cmdName

/-- The subcommands of `ACL` that change users. -/
def execACL : List Bytes → World
  | sub :: name :: rest =>
    if toLower sub = "setuser" then w.setUser lib name rest
    else if toLower sub = "deluser" then (name :: rest).foldl delUser w
    else w
  | _ => w

def setClient (id : Nat) (c : Client) : World := { w with clients := Engine.putField id c w.clients }

/-- `DB.Exec`: the connection, and the command lines that take effect. Of a transaction that is run, as many commands
are as `ran` has moments: none if a watched key has changed, and not all if one fails. -/
def dbExec (cmdName : Bytes) (line : CmdLine) (now : Moment) (ran : List Moment) : Client × List (CmdLine × Moment) :=
  if cmdName = "multi" then ({ c with multi := c.multi || line.length = 1 }, [(line, now)])
  else if cmdName = "discard" then
    (if line.length = 1 ∧ c.multi then { c with multi := false, queue := [] } else c, [(line, now)])
  else if cmdName = "exec" then
    if line.length = 1 ∧ c.multi then
      ({ c with multi := false, queue := [] }, (line, now) :: if c.txErrors then [] else c.queue.zip ran)
    else (c, [(line, now)])
  else if cmdName = "watch" then (c, [(line, now)])
  else if c.multi then
    if (Cmd.findCommand cmdName).any fun cmd => Cmd.validateArity cmd.arity line then
      ({ c with queue := c.queue ++ [line] }, [])
    else ({ c with txErrors := true }, [])
  else (c, [(line, now)])

/-- Where a command line goes: nowhere, to a command that is run without a check, to one that is run behind it, or to
the database. A replica may refuse commands. -/
inductive Route
  | refuse | unchecked | now | db

/-- The tests of `Server.Exec`. -/
def route (cmdName : Bytes) (refused : Bool) : Route :=
  if cmdName ∈ openCommands then .unchecked
  else if ¬ w.isAuthenticated c then .refuse
  else if cmdName = "acl" then .unchecked
  else if w.noPerm c cmdName then .refuse
  else if cmdName ∈ earlyCommands ∨ cmdName = "reset" then .now
  else if refused then .refuse
  else if cmdName ∈ specialCommands then .now
  else .db

/-- The commands of `Server.Exec` that change what has a part in this. -/
def serverExec (id : Nat) (c : Client) (cmdName : Bytes) (args : List Bytes) : World :=
  if cmdName = "hello" then w.setClient id (w.hello args c)
  else if cmdName = "auth" then w.setClient id (w.auth lib args c)
  else if cmdName = "acl" then w.execACL lib args
  else if cmdName = "reset" then w.setClient id { c with password := [], multi := false, queue := [] }
  else w

/-- `Server.Exec`, and the command lines that take effect. The calls of a script are calls of the connection. -/
def exec (id : Nat) (c : Client) (line : CmdLine) (refused : Bool) (now : Moment) (ran : List Moment) :
    World × List (CmdLine × Moment) :=
  match line with
  | [] => (w, [])
  | name :: args =>
    match w.route c (toLower name) refused with
    | .refuse => (w, [])
    | .unchecked | .now => (w.serverExec lib id c (toLower name) args, [(line, now)])
    | .db =>
      let r := dbExec c (toLower name) line now ran
      (w.setClient id r.1, r.2)

end World

inductive Event
  | connect (id : Nat)
  | call (id : Nat) (line : CmdLine) (refused : Bool) (now : Moment) (ran : List Moment)

namespace World

variable (w : World)

/-- The command lines that take effect, and for which connection. -/
def taken : Event → Option (Client × List (CmdLine × Moment))
  | .connect _ => none
  | .call id line refused now ran => (w.clients.lookup id).map fun c => (c, (w.exec lib id c line refused now ran).2)

def step : Event → World
  | .connect id => w.setClient id {}
  | .call id line refused now ran => (w.clients.lookup id).elim w fun c => (w.exec lib id c line refused now ran).1

/-! ## What has to hold -/

def Valid (c : Client) (u : User) : Prop :=
  ∃ p, w.userOf c = some p ∧ w.objs[p]? = some u ∧ w.users.lookup u.name = some p ∧ u.enabled

/-- The key that an operation reads or, with `true`, writes. -/
def touched : Engine.Op → List (Key × Bool)
  | .getEntity key | .getTTL key | .rawExists key | .isExpired key | .load key | .readHeld key | .openBuf key => [(key, false)]
  | .store key _ | .putColl key _ | .putStr key _ | .putIfAbsent key _ | .putIfExists key _ | .putBuf key | .assignBuf key
  | .remove key | .expire key _ | .persist key => [(key, true)]
  | .putFrom dest src => [(src, false), (dest, true)]
  | _ => []

/-- The keys that a command line reads and writes. Those of `cmdTable` are run for it. -/
def accessed (line : CmdLine) (now : Moment) : List (Key × Bool) :=
  let wiped := fun db : Cmd.Database => db.data.map fun e => (e.1, true)
  let name := toLower (line.headD [])
  if name = "watch" then (line.drop 1).map (·, false)
  else if name = "copy" then ((line.drop 1).take 1).map (·, false) ++ ((line.drop 2).take 1).map (·, true)
  else if name = "flushdb" then (now.server.dbSet[now.db]?).elim [] wiped
  else if name = "flushall" then now.server.dbSet.flatMap wiped
  else (now.server.selectDB now.db).elim []
    (Engine.Exec.trace now.env touched (Cmd.execWithLock now.env (Cmd.lineFuel line + 1) line))

/-- The command line may take effect for the connection. -/
def Allowed (c : Client) (r : CmdLine × Moment) : Prop :=
  ∃ u, w.Valid c u ∧ u.canRunCommand (toLower (r.1.headD [])) = true ∧
    ∀ k ∈ accessed r.1 r.2, u.canAccessKey lib k.1 k.2 = true

def Enforced (e : Event) : Prop := ∀ r, w.taken lib e = some r → ∀ run ∈ r.2, w.Allowed lib r.1 run

/-- What no check looks at: the user is there and enabled, and may access the keys. -/
def Fit (c : Client) (r : CmdLine × Moment) (P : User → Prop) : Prop :=
  ∃ u, w.Valid c u ∧ P u ∧ ∀ k ∈ accessed r.1 r.2, u.canAccessKey lib k.1 k.2 = true

/-- AUTH and ACL SETUSER change the user of no connection that has commands queued. -/
def Settled (c : Client) (cmdName : Bytes) (args : List Bytes) : Prop :=
  (cmdName = "auth" → c.queue = []) ∧ (cmdName = "acl" → toLower (args.headD []) = "setuser" →
    ∀ d ∈ w.clients, d.2.queue ≠ [] → w.userOf d.2 ≠ w.users.lookup (args.getD 1 []))

/-- The condition on a call, by where the command line goes. -/
def SoundCall (c : Client) (refused : Bool) (now : Moment) (ran : List Moment) : CmdLine → Prop
  | [] => True
  | name :: args =>
    match w.route c (toLower name) refused with
    | .refuse => True
    | .unchecked => w.Fit lib c (name :: args, now) User.Unrestricted ∧ w.Settled c (toLower name) args
    | .now | .db => w.Fit lib c (name :: args, now) (fun u => u.isDefaultAllPerms = true → u.Unrestricted) ∧
      (toLower name = "exec" → ∀ queued ∈ c.queue.zip ran, w.Fit lib c queued fun _ => True)

def Sound : Event → Prop
  | .connect _ => True
  | .call id line refused now ran => ∀ c, w.clients.lookup id = some c → w.SoundCall lib c refused now ran line

/-! ## What a call is allowed -/

def MayRun (c : Client) (cmdName : Bytes) : Prop :=
  ∃ p u, w.userOf c = some p ∧ w.objs[p]? = some u ∧ u.canRunCommand cmdName = true

/-- The rules still allow what is queued. -/
def Checked : Prop := ∀ id c, w.clients.lookup id = some c → ∀ line ∈ c.queue, w.MayRun c (toLower (line.headD []))

variable {lib} {w} {c : Client} {cmdName : Bytes}

theorem Fit.allowed {r : CmdLine × Moment} {P : User → Prop} (h : w.Fit lib c r P)
    (hrun : w.MayRun c (toLower (r.1.headD []))) : w.Allowed lib c r := by
  obtain ⟨u, hvalid, -, hkeys⟩ := h
  obtain ⟨p, v, hp, hv, hrun⟩ := hrun
  obtain ⟨q, hq, hu, -⟩ := id hvalid
  obtain rfl := Option.some.inj (hp.symm.trans hq)
  obtain rfl := Option.some.inj (hv.symm.trans hu)
  exact ⟨_, hvalid, hrun, hkeys⟩

theorem Fit.mayRun_of_unrestricted {r : CmdLine × Moment} (h : w.Fit lib c r User.Unrestricted) : w.MayRun c cmdName := by
  obtain ⟨u, ⟨p, hp, hu, -⟩, hfree, -⟩ := h
  exact ⟨p, u, hp, hu, hfree.canRunCommand _⟩

theorem Fit.mayRun_of_check {r : CmdLine × Moment}
    (h : w.Fit lib c r fun u => u.isDefaultAllPerms = true → u.Unrestricted) (hperm : w.noPerm c cmdName = false) :
    w.MayRun c cmdName := by
  obtain ⟨u, ⟨p, hp, hu, -⟩, hfast, -⟩ := h
  refine ⟨p, u, hp, hu, ?_⟩
  simp only [noPerm, hp, Option.bind_some, hu, Option.any_some, Bool.and_eq_false_iff, Bool.not_eq_eq_eq_not,
    Bool.not_false] at hperm
  exact hperm.elim (fun h => (hfast h).canRunCommand _) id

theorem noPerm_of_route {refused : Bool}
    (h : w.route c cmdName refused = .now ∨ w.route c cmdName refused = .db) : w.noPerm c cmdName = false := by
  by_contra hne
  rw [route] at h
  split_ifs at h <;> simp_all

theorem settled_of_now {refused : Bool} {args : List Bytes} (h : w.route c cmdName refused = .now) :
    w.Settled c cmdName args := by
  rw [route] at h
  split_ifs at h with hopen _ hacl
  all_goals exact ⟨fun heq => absurd (by simp [heq, openCommands]) hopen, fun heq => absurd heq hacl⟩

/-! ## What is queued stays allowed -/

theorem Checked.setClient (h : w.Checked) {id : Nat} {d : Client}
    (hd : ∀ line ∈ d.queue, w.MayRun d (toLower (line.headD []))) : (w.setClient id d).Checked := by
  intro i c hc
  rw [World.setClient, Engine.lookup_putField] at hc
  split at hc
  · obtain rfl := Option.some.inj hc
    exact hd
  · exact h i c hc

theorem Checked.setUser (h : w.Checked) {name : Bytes} {rules : List Bytes}
    (hset : ∀ d ∈ w.clients, d.2.queue ≠ [] → w.userOf d.2 ≠ w.users.lookup name) :
    (w.setUser lib name rules).Checked := by
  rw [World.setUser]
  cases hname : w.users.lookup name with
  | some p =>
    intro id c hc line hl
    obtain ⟨q, u, hq, hu, hrun⟩ := h id c hc line hl
    have hne : p ≠ q := by
      rintro rfl
      exact hset (id, c) (mem_of_lookup hc) (List.ne_nil_of_mem hl) (hq.trans hname.symm)
    exact ⟨q, u, hq, (List.getElem?_modify_ne _ _ hne).trans hu, hrun⟩
  | none =>
    intro id c hc line hl
    obtain ⟨q, u, hq, hu, hrun⟩ := h id c hc line hl
    refine ⟨q, u, ?_, (List.getElem?_append_left (List.getElem?_eq_some_iff.1 hu).1).trans hu, hrun⟩
    rw [userOf] at hq ⊢
    cases huser : c.user with
    | some p => rwa [huser] at hq
    | none =>
      rw [huser, Option.none_or] at hq
      have hne : (str "default" == name) = false := beq_false_of_ne fun heq => by simp [heq, hname] at hq
      rw [Option.none_or, List.lookup_cons, hne]
      exact hq

theorem Checked.delUser (h : w.Checked) (name : Bytes) : (w.delUser name).Checked := by
  rw [World.delUser]
  split
  · exact h
  · rename_i hne
    intro id c hc line hl
    obtain ⟨q, u, hq, hu, hrun⟩ := h id c hc line hl
    refine ⟨q, u, ?_, hu, hrun⟩
    rw [userOf, Engine.lookup_removeField, if_neg (Ne.symm hne)]
    exact hq

theorem auth_queue (args : List Bytes) : (w.auth lib args c).queue = c.queue := by
  unfold auth
  split <;> (try split_ifs) <;> rfl

theorem helloOptions_same (args : List Bytes) :
    (w.helloOptions args c).user = c.user ∧ (w.helloOptions args c).queue = c.queue := by
  fun_induction helloOptions w args c <;> simp_all

theorem hello_same (args : List Bytes) : (w.hello args c).user = c.user ∧ (w.hello args c).queue = c.queue := by
  unfold hello
  split
  · exact ⟨rfl, rfl⟩
  · split_ifs
    · exact helloOptions_same _
    · exact ⟨rfl, rfl⟩

theorem Checked.serverExec (h : w.Checked) {id : Nat} (hc : w.clients.lookup id = some c) {args : List Bytes}
    (hset : w.Settled c cmdName args) : (w.serverExec lib id c cmdName args).Checked := by
  rw [World.serverExec]
  split_ifs with _ hauth hacl
  · obtain ⟨huser, hqueue⟩ := @hello_same w c args
    refine h.setClient fun line hl => ?_
    rw [MayRun, userOf, huser]
    exact h id c hc line (hqueue ▸ hl)
  · exact h.setClient (by simp [auth_queue, hset.1 hauth])
  · rw [execACL.eq_def]
    split
    · split_ifs with hsub
      · exact h.setUser (hset.2 hacl hsub)
      · exact List.foldlRecOn _ _ h fun w hw name _ => hw.delUser name
      · exact h
    · exact h
  · exact h.setClient (by simp)
  · exact h

theorem dbExec_queued (cmdName : Bytes) (line : CmdLine) (now : Moment) (ran : List Moment) :
    let r := dbExec c cmdName line now ran
    r.1.user = c.user ∧ (∀ l ∈ r.1.queue, l ∈ c.queue ∨ l = line) ∧
      ∀ x ∈ r.2, x = (line, now) ∨ cmdName = "exec" ∧ x ∈ c.queue.zip ran := by
  intro r
  simp only [r, dbExec]
  split_ifs <;> simp_all

theorem Checked.step (h : w.Checked) {e : Event} (hs : w.Sound lib e) : (w.step lib e).Checked := by
  cases e with
  | connect id => exact h.setClient (by simp)
  | call id line refused now ran =>
    rw [World.step]
    cases hc : w.clients.lookup id with
    | none => exact h
    | some c =>
      have hs := hs c hc
      cases line with
      | nil => exact h
      | cons name args =>
        simp only [SoundCall, exec, Option.elim_some] at hs ⊢
        cases hroute : w.route c (toLower name) refused with
        | refuse => exact h
        | unchecked =>
          rw [hroute] at hs
          exact h.serverExec hc hs.2
        | now => exact h.serverExec hc (settled_of_now hroute)
        | db =>
          rw [hroute] at hs
          obtain ⟨huser, hqueue, -⟩ := @dbExec_queued c (toLower name) (name :: args) now ran
          refine h.setClient fun l hl => ?_
          rw [MayRun, userOf, huser]
          rcases hqueue l hl with hl | rfl
          · exact h id c hc l hl
          · exact hs.1.mayRun_of_check (noPerm_of_route (.inr hroute))

theorem Checked.enforced (h : w.Checked) {e : Event} (hs : w.Sound lib e) : w.Enforced lib e := by
  intro r hr run hrun
  cases e with
  | connect id => cases hr
  | call id line refused now ran =>
    obtain ⟨c, hc, rfl⟩ := Option.map_eq_some_iff.1 hr
    have hs := hs c hc
    cases line with
    | nil => cases hrun
    | cons name args =>
      simp only [SoundCall, exec] at hs hrun
      cases hroute : w.route c (toLower name) refused with
      | refuse =>
        rw [hroute] at hrun
        cases hrun
      | unchecked =>
        rw [hroute] at hs hrun
        obtain rfl := List.mem_singleton.1 hrun
        exact hs.1.allowed hs.1.mayRun_of_unrestricted
      | now =>
        rw [hroute] at hs hrun
        obtain rfl := List.mem_singleton.1 hrun
        exact hs.1.allowed (hs.1.mayRun_of_check (noPerm_of_route (.inl hroute)))
      | db =>
        rw [hroute] at hs hrun
        rcases (dbExec_queued ..).2.2 run hrun with rfl | ⟨hexec, hmem⟩
        · exact hs.1.allowed (hs.1.mayRun_of_check (noPerm_of_route (.inr hroute)))
        · exact (hs.2 hexec run hmem).allowed (h id c hc _ (List.of_mem_zip hmem).1)

theorem checked_start (requirePass : Bytes) : (start requirePass).Checked := fun _ _ hc => by cases hc

variable (lib)

/-- A library where patterns match only themselves. -/
def literal : Lib := ⟨id, fun p => some (· = p)⟩

/-- An empty server. -/
def empty : Moment := ⟨.plain 0, Cmd.newServer 1, 0⟩

def call (line : CmdLine) (ran : List Moment) : Event := .call 1 line false empty ran

/-- A user who may read the key `a` only. -/
def bob : List Event := [
  .connect 1, call ["ACL", "SETUSER", "bob", "on", "nopass", "~a", "+get", "+multi", "+exec"] [], call ["AUTH", "bob", []] []]

end World

end Hayakv.Acl
