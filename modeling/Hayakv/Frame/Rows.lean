import Hayakv.Cmd.Table
import Hayakv.Frame.Access

/-!
# What a command needs of a scope

A scope fits a command (`Fits`) if it has the keys that the command declares as written, and those that
it changes without declaring them. Every command of the table keeps to the discipline in a scope that
fits it (`Row`); the modules after this one show so, one list of commands after another.
-/

namespace Hayakv.Frame

open Engine Cmd Access Scope

/-- The keys that some commands change, if they are there, without declaring them as written. -/
def undeclared : List (Bytes × (List Bytes → List Key)) := [
  ("rename", List.take 1),
  ("renamenx", List.take 1),
  ("renamefrom", List.take 1),
  ("hgetex", fun args =>
    match parseHGetEx 0 (args.drop 1) with
    | .ok (ttl, _) => if 0 < ttl ∨ ttl = -1 then args.take 1 else []
    | .error _ => []),
  ("xgroup", fun args => (args.drop 1).take 1),
  ("xreadgroup", fun args =>
    match parseXReadGroup ⟨[], [], 0, false, -1⟩ args with
    | .ok (o, rest) => ((splitStreams rest).filter fun p => p.2 = str ">" || o.noack).map Prod.fst
    | .error _ => []),
  ("pfcount", fun args => if args.length = 1 then args else []),
  ("pfdebug", fun args =>
    match args with
    | sub :: key :: _ => if toUpper sub = str "TODENSE" ∨ toUpper sub = str "DECODE" then [key] else []
    | _ => [])]

def undeclaredKeys (name : Bytes) (args : List Bytes) : List Key := ((undeclared.lookup name).getD fun _ => []) args

/-- The keys that some commands look for in the map, or give a new value, without a look at their
expiry. -/
def unchecked : List (Bytes × (List Bytes → List Key)) := [
  ("del", id),
  ("rename", fun args => (args.drop 1).take 1),
  ("set", fun args =>
    match parseSet .default (args.drop 2) with
    | .ok o => if o.policy = .upsert then [] else args.take 1
    | .error _ => []),
  ("setnx", List.take 1),
  ("mset", pairKeys),
  ("msetex", fun args =>
    match (args.head?.bind parseInt) with
    | some m => (pairKeys (args.drop 1)).take m.toNat
    | none => []),
  ("sinterstore", List.take 1),
  (str "bitop", fun args => (args.drop 1).take 1)]

def uncheckedKeys (name : Bytes) (args : List Bytes) : List Key := ((unchecked.lookup name).getD fun _ => []) args

section keys

variable {key : Key} {args rest : List Bytes}

theorem mem_undeclared_hgetex {ttl : Int} {fields : List Bytes} (hp : parseHGetEx 0 rest = .ok (ttl, fields))
    (ht : 0 < ttl ∨ ttl = -1) : key ∈ undeclaredKeys "hgetex" (key :: rest) := by
  change key ∈ match parseHGetEx 0 rest with
    | .ok (ttl, _) => if 0 < ttl ∨ ttl = -1 then [key] else []
    | .error _ => []
  rw [hp]
  simp [ht]

theorem mem_undeclared_xreadgroup {o : XReadGroupOpts} {p : Key × Bytes}
    (hp : parseXReadGroup ⟨[], [], 0, false, -1⟩ args = .ok (o, rest)) (hmem : p ∈ splitStreams rest)
    (hr : p.2 = str ">" ∨ o.noack = true) : p.1 ∈ undeclaredKeys (str "xreadgroup") args := by
  change p.1 ∈ match parseXReadGroup ⟨[], [], 0, false, -1⟩ args with
    | .ok (o, rest) =>
      ((splitStreams rest).filter fun (p : Key × Bytes) => p.2 = ">" || o.noack).map Prod.fst
    | .error _ => []
  rw [hp]
  exact List.mem_map_of_mem (List.mem_filter.2 ⟨hmem, by simpa using hr⟩)

theorem mem_unchecked_set {o : SetOpts} (ho : parseSet .default (rest.drop 1) = .ok o) (hp : o.policy ≠ .upsert) :
    key ∈ uncheckedKeys "set" (key :: rest) := by
  change key ∈ match parseSet .default (rest.drop 1) with
    | .ok o => if o.policy = Policy.upsert then [] else [key]
    | .error _ => []
  rw [ho]
  simp [hp]

theorem mem_unchecked_msetex {n : Bytes} {m : Int} (hm : parseInt n = some m)
    (hk : key ∈ (pairKeys rest).take m.toNat) : key ∈ uncheckedKeys "msetex" (n :: rest) := by
  change key ∈ match parseInt n with
    | some m => (pairKeys rest).take m.toNat
    | none => []
  rwa [hm]

end keys

def listing : List Bytes := ["keys", "scan", "randomkey"]

/-- The commands that carry a dump, those that a dump consists of, and those of an expiry. -/
def carriers : List Bytes := ["renameto", "renamenxto", "copyto"]
def dumps : List Bytes := ["set", "rpush", "sadd", "hmset", "zadd"]
def expiries : List Bytes := ["persist", "pexpireat"]

/-- Whether what is parsed is a command line of one of these commands, or none. -/
def isLineOf (names : List Bytes) : Except Exit CmdLine → Bool
  | .ok (name :: _) => toLower name ∈ names
  | _ => true

/-- The arguments of RENAMETO and its kin are what DUMPKEY answers. -/
def carriesDump : List Bytes → Bool
  | key :: dump :: ttl :: _ =>
    isLineOf dumps (parseDump "dump" dump key) && isLineOf expiries (parseDump "ttl" ttl key)
  | _ => true

/-- Whether XGROUP is to make the stream: it is to create a group, with MKSTREAM. -/
def makesStream (sub : Bytes) (args : List Bytes) : Prop :=
  toUpper sub = "CREATE" ∧ parseXGroup true false (args.drop 2) = .ok true

/-- A scope has what a command, which declares the keys `W`, may change, and what it takes for known
is. -/
structure Fits (S : Scope) (known : Key → Prop) (apart : Prop) (name : Bytes) (args : List Bytes)
    (W : List Key) : Prop where
  writes : ∀ k ∈ W, S.writes k
  undeclared : ∀ k ∈ undeclaredKeys name args, S.writes k ∨ S.absent k
  makes : name = "xgroup" → ∀ sub key rest, args = sub :: key :: rest → makesStream sub rest → S.writes key
  unchecked : ∀ k ∈ uncheckedKeys name args, known k
  lists : name ∈ listing → S.scan
  all : name = "keys" → ∀ k, known k
  apart : name = "bitfield" → apart
  dump : name ∈ carriers → carriesDump args

variable {S : Scope} {known : Key → Prop} {apart : Prop} {env : Env} {run : CmdLine → Exec Reply}

def Row (S : Scope) (known : Key → Prop) (apart : Prop) (env : Env) (run : CmdLine → Exec Reply)
    (c : Command) : Prop :=
  ∀ args W R, validateArity c.arity (c.name :: args) = true → c.prepare args = some (W, R) →
    Fits S known apart c.name args W → S.Keeps known apart (c.executor env run args)

variable {c : Command}

theorem row_of_any (h : ∀ {args}, S.Keeps known False (c.executor env run args)) : Row S known apart env run c :=
  fun _ _ _ _ _ _ => h.of_false

theorem row_of_fits (hp : c.prepare = writeFirstKey) (h : ∀ key rest, Fits S known apart c.name (key :: rest) [key] →
      S.Keeps known False (c.executor env run (key :: rest))) : Row S known apart env run c := by
  intro args W R _ hprep hfit
  rw [hp] at hprep
  cases args with
  | nil => cases hprep
  | cons key rest =>
    cases hprep
    exact (h key rest hfit).of_false

theorem row_of_first (hp : c.prepare = writeFirstKey)
    (h : ∀ {key rest}, S.writes key → S.Keeps known False (c.executor env run (key :: rest))) :
    Row S known apart env run c :=
  row_of_fits hp fun key _ hfit => h (hfit.writes key List.mem_cons_self)

theorem row_of_rename (hp : c.prepare = prepareRename)
    (h : ∀ src dest rest, Fits S known apart c.name (src :: dest :: rest) [dest] →
      S.Keeps known False (c.executor env run (src :: dest :: rest))) : Row S known apart env run c := by
  intro args W R _ hprep hfit
  rw [hp] at hprep
  match args, hprep with
  | src :: dest :: rest, rfl => exact (h src dest rest hfit).of_false

theorem row_of_counted (hp : c.prepare = prepareLMPop)
    (h : ∀ {args keys}, countedKeys args = some keys → (∀ k ∈ keys, S.writes k) →
      S.Keeps known False (c.executor env run args)) : Row S known apart env run c := by
  intro args W R _ hprep hfit
  rw [hp, prepareLMPop, Option.map_eq_some_iff] at hprep
  obtain ⟨keys, hn, hW⟩ := hprep
  obtain rfl : keys = W := congrArg Prod.fst hW
  exact (h hn hfit.writes).of_false

theorem row_of_blocking (hp : c.prepare = prepareBLPop)
    (h : ∀ {args : List Bytes}, (∀ k ∈ args.dropLast, S.writes k) →
      S.Keeps known False (c.executor env run args)) : Row S known apart env run c := by
  intro args W R _ hprep hfit
  rw [hp, prepareBLPop] at hprep
  split at hprep
  · cases hprep
  · cases hprep
    exact (h hfit.writes).of_false

theorem row_of_store (hp : c.prepare = prepareSetCalculateStore)
    (h : ∀ dest rest, Fits S known apart c.name (dest :: rest) [dest] →
      S.Keeps known False (c.executor env run (dest :: rest))) : Row S known apart env run c := by
  intro args W R _ hprep hfit
  rw [hp] at hprep
  match args, hprep with
  | dest :: rest, rfl => exact (h dest rest hfit).of_false

end Hayakv.Frame
