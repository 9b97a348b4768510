import Hayakv.Conn.Pool
import Hayakv.Frame.Server
import Mathlib.Data.List.Dedup

/-!
# Client-side caching

`internal/command/tracking.go`, and the hook of `execNormalCommand` that calls it: which clients have read which keys,
and the invalidations that they are sent.

A `World` is a server with its clients. A command holds the locks of its keys until its hook has run, so the two are
one step; `FLUSHDB` takes no locks, and sends before it installs the new database, so it is two. `cached` is what the
claim of coherence is about: the keys that clients have read, where their mode says that this is tracked. A new client
gets any object that another one has left (`Conn.Pool`).

Only the hook sends anything. `coherent_run`: the clients are told of every change in a run whose steps change what is
cached only by plain commands that declare it, and whose clients read only what they declare.
-/

namespace Hayakv.Tracking

open Engine Cmd Conn List Bool Server

/-! ## The invalidation table -/

/-- `invalidationTable`: the entries of `table` and `bcast`, by database, key or prefix, and client. -/
structure Table where
  table : List (Nat × Key × UInt64)
  bcast : List (Nat × Bytes × UInt64)

abbrev Clients := List (UInt64 × Connection)

structure Message where
  dest : UInt64
  key : Option Key
deriving DecidableEq

namespace Table

def track (db : Nat) (id : UInt64) (t : Table) (key : Key) : Table := { t with table := t.table.insert (db, key, id) }

def untrackAll (t : Table) (id : UInt64) : Table where
  table := t.table.filter (·.2.2 ≠ id)
  bcast := t.bcast.filter (·.2.2 ≠ id)

/-- `trackBcast`, for prefixes and all databases. -/
def trackBcast (t : Table) (databases : Nat) (prefixes : List Bytes) (id : UInt64) : Table :=
  { t with bcast := (prefixes.flatMap fun p => (List.range databases).map fun db => (db, p, id)) ∪ t.bcast }

def affected (t : Table) (db : Nat) (key : Key) : List UInt64 :=
  ((t.table.filter fun e => e.1 = db ∧ e.2.1 = key) ++ t.bcast.filter fun e => e.1 = db ∧ e.2.1 <+: key).map (·.2.2)

end Table

/-- Where the invalidations of a client go that does not speak RESP3. -/
def target (id : UInt64) (c : Connection) : UInt64 := if c.redirectID = 0 then id else c.redirectID

/-- Send an invalidation to a client, or to whom it redirects. -/
def send (clients : Clients) (key : Option Key) (id : UInt64) : List Message :=
  match clients.lookup id with
  | none => []
  | some c =>
    if c.protocol = .resp3 then [⟨id, key⟩]
    else if (clients.lookup (target id c)).isSome then [⟨target id c, key⟩] else []

def notifyTrackedKeys (t : Table) (clients : Clients) (db : Nat) (keys : List Key) (source : UInt64) : List Message :=
  keys.dedup.flatMap fun key => (t.affected db key).dedup.flatMap fun id =>
    if id = source ∧ (clients.lookup id).any (·.noLoop) then [] else send clients (some key) id

def untrackDB (t : Table) (clients : Clients) (db : Nat) : Table × List Message :=
  let affected := ((t.table.filter (·.1 = db)) ++ t.bcast.filter (·.1 = db)).map (·.2.2)
  (⟨t.table.filter (·.1 ≠ db), t.bcast.filter (·.1 ≠ db)⟩, affected.dedup.flatMap (send clients none))

/-! ## The commands of a client -/

/-- The options of `CLIENT TRACKING ON`: the connection, and the prefixes. -/
def trackingOptions : List Bytes → Connection → List Bytes → Connection × List Bytes
  | [], c, prefixes => (c, prefixes)
  | opt :: rest, c, prefixes =>
    if toUpper opt = "REDIRECT" then
      match rest with
      | [] => (c, prefixes)
      | n :: rest => trackingOptions rest { c with redirectID := (parseUint n).getD c.redirectID } prefixes
    else if toUpper opt = "NOLOOP" then trackingOptions rest { c with noLoop := true } prefixes
    else if toUpper opt = "OPTIN" then trackingOptions rest { c with trackingMode := 1 } prefixes
    else if toUpper opt = "OPTOUT" then trackingOptions rest { c with trackingMode := 2 } prefixes
    else if toUpper opt = "BCAST" then trackingOptions rest { c with bcastMode := true } prefixes
    else if toUpper opt = "PREFIX" then
      match rest with
      | [] => (c, prefixes)
      | p :: rest => trackingOptions rest c (prefixes ++ [p])
    else trackingOptions rest c prefixes

/-- `execClientTracking`. What `untrackBcast` removes, `untrackAll` removes. -/
def execClientTracking (databases : Nat) (id : UInt64) (args : List Bytes) (c : Connection) (t : Table) :
    Reply × Connection × Table :=
  match args with
  | [] => (.error "ERR wrong number of arguments for 'client|tracking' command", c, t)
  | mode :: options =>
    if toUpper mode = "ON" then
      let (c, prefixes) := trackingOptions options { c with tracking := true } []
      if c.protocol ≠ .resp3 ∧ c.redirectID = 0 then
        (.error ("ERR Client tracking can be enabled only in RESP3 mode or when a redirection client is specified " ++
          "via the 'REDIRECT' option"), { c with tracking := false }, t)
      else if prefixes = [] then (.ok, c, t)
      else (.ok, { c with bcastPrefixes := prefixes }, t.trackBcast databases prefixes id)
    else if toUpper mode = "OFF" then
      (.ok, { c with tracking := false, trackingMode := 0, noLoop := false, redirectID := 0, bcastMode := false,
                     bcastPrefixes := [], cachingNext := false }, t.untrackAll id)
    else (.error "ERR invalid TRACKING mode", c, t)

def clientCaching (args : List Bytes) (c : Connection) : Reply × Connection :=
  match args with
  | [] => (.error "ERR wrong number of arguments for 'client|caching' command", c)
  | opt :: _ =>
    if !c.tracking then (.error "ERR CLIENT CACHING is not available when tracking is disabled", c)
    else if toUpper opt = "YES" then (.ok, { c with cachingNext := true })
    else if toUpper opt = "NO" then (.ok, { c with cachingNext := false })
    else (.error "ERR invalid CLIENT CACHING option, must be YES or NO", c)

def trackReadKeys (c : Connection) (id : UInt64) (db : Nat) (keys : List Key) (t : Table) : Connection × Table :=
  if !c.tracking || c.bcastMode || (c.trackingMode = 1 && !c.cachingNext) || (c.trackingMode = 2 && c.cachingNext) then
    (c, t)
  else ({ c with cachingNext := false }, keys.foldl (Table.track db id) t)

/-! ## What a client has read -/

def looked : Engine.Op → List Key
  | .getEntity key | .getTTL key | .rawExists key => [key]
  | _ => []

/-- The keys that a command line reads: those that its command looks up, if it is one that only reads. -/
def reads (env : Env) (line : CmdLine) (s : State) : List Key :=
  match line with
  | [] => []
  | name :: args =>
    match findCommand (toLower name) with
    | none => []
    | some cmd =>
      if cmd.flag = .readOnly then
        Exec.trace env looked (cmd.executor env (execWithLock env (lineFuel (cmd.name :: args))) args)
          { s with bound := [], work := none }
      else []

/-- Whether the mode of a client says that a key is tracked. Of an OPTOUT client this is every key, also one that it has
opted out by `CLIENT CACHING NO`: the code tracks those too. -/
def tracks (c : Connection) (key : Key) : Bool :=
  c.tracking &&
    if c.bcastMode then c.bcastPrefixes = [] || c.bcastPrefixes.any (· <+: key)
    else c.trackingMode ≠ 1 || c.cachingNext

/-! ## Steps -/

structure World where
  server : Server
  now : Int
  clients : Clients
  table : Table
  cached : List (UInt64 × Nat × Key)

def World.start (databases : Nat) : World := ⟨newServer databases, 0, [], ⟨[], []⟩, []⟩

def accepted : Except Exit Reply → Bool
  | .ok r => !r.isError
  | .error _ => false

inductive Event
  /-- A command of `cmdTable`, also one of a script. -/
  | call (env : Env) (id : UInt64) (line : CmdLine)
  /-- One of a transaction that `EXEC` runs, or undoes. -/
  | queued (env : Env) (id : UInt64) (line : CmdLine)
  /-- `COPY`, an object of an RDB file, and the second half of `FLUSHDB`. -/
  | other (env : Env) (r : Request)
  /-- The first half of `FLUSHDB`. -/
  | untrackDB (db : Nat)
  | evict (db : Nat) (key : Key)
  /-- Time passes, and keys expire. -/
  | tick (now : Int)
  | tracking (id : UInt64) (args : List Bytes)
  | caching (id : UInt64) (args : List Bytes)
  | select (id : UInt64) (db : Nat)
  | hello (id : UInt64) (v : RespVersion)
  /-- With the object that `connPool.Get` answers. -/
  | connect (id : UInt64) (obj : Connection)
  | close (id : UInt64)

namespace World

variable (w : World)

def answer (env : Env) (db : Nat) (line : CmdLine) : Except Exit Reply :=
  (w.server.command { env with now := w.now } db line).1

def readsOf (env : Env) (db : Nat) (line : CmdLine) : List Key :=
  (w.server.selectDB db).elim [] (reads { env with now := w.now } line)

/-- A command line of a client is run: the client may have read keys. Its versions are counted as in
`execNormalCommand`, also in a transaction; nothing here depends on them. -/
def run (env : Env) (id : UInt64) (c : Connection) (line : CmdLine) : World :=
  let db := c.selectedDB.toNat
  let keys := (w.readsOf env db line).filter (tracks c)
  { w with
    server := w.server.step { env with now := w.now } (.command db line)
    cached := if accepted (w.answer env db line) then keys.map (id, db, ·) ++ w.cached else w.cached }

/-- What `execNormalCommand` does after a command. -/
def hook (id : UInt64) (c : Connection) (line : CmdLine) : World × List Message :=
  let db := c.selectedDB.toNat
  if (prepared line).1 = [] then
    if c.tracking ∧ (prepared line).2 ≠ [] then
      let r := trackReadKeys c id db (prepared line).2 w.table
      ({ w with clients := putField id r.1 w.clients, table := r.2 }, [])
    else (w, [])
  else (w, notifyTrackedKeys w.table w.clients db (prepared line).1 id)

def onClient (id : UInt64) (f : Connection → World) : World := (w.clients.lookup id).elim w f

def step : Event → World × List Message
  | .call env id line =>
    match w.clients.lookup id with
    | none => (w, [])
    | some c =>
      if accepted (w.answer env c.selectedDB.toNat line) then (w.run env id c line).hook id c line
      else (w.run env id c line, [])
  | .queued env id line => (w.onClient id fun c => w.run env id c line, [])
  | .other env r => ({ w with server := w.server.step { env with now := w.now } r }, [])
  | .untrackDB db =>
    let r := Tracking.untrackDB w.table w.clients db
    ({ w with table := r.1 }, r.2)
  | .evict db key => ({ w with server := w.server.onDB db (·.remove key) }, [])
  | .tick now => ({ w with now }, [])
  | .tracking id args =>
    (w.onClient id fun c =>
      let r := (execClientTracking w.server.dbSet.length id args c w.table).2
      let off := args.head?.any (toUpper · = "OFF")
      { w with
        clients := putField id r.1 w.clients
        table := r.2
        cached := if off then w.cached.filter (·.1 ≠ id) else w.cached }, [])
  | .caching id args =>
    (w.onClient id fun c => { w with clients := putField id (clientCaching args c).2 w.clients }, [])
  | .select id db => (w.onClient id fun c => { w with clients := putField id (c.selectDB db) w.clients }, [])
  | .hello id v => (w.onClient id fun c => { w with clients := putField id { c with protocol := v } w.clients }, [])
  | .connect id obj =>
    ({ w with clients := putField id (obj.renew 0 id w.now) w.clients, cached := w.cached.filter (·.1 ≠ id) }, [])
  | .close id => ({ w with clients := removeField id w.clients, cached := w.cached.filter (·.1 ≠ id) }, [])

/-- The client, or the one that it redirects to, is sent an invalidation of the key. -/
def Told (msgs : List Message) (id : UInt64) (key : Key) : Prop :=
  ∃ m ∈ msgs, (m.key = none ∨ m.key = some key) ∧ (m.dest = id ∨ (w.clients.lookup id).any (·.redirectID = m.dest))

def Coherent (e : Event) : Prop :=
  ∀ id db key, (id, db, key) ∈ w.cached →
    (w.step e).1.server.visible (w.step e).1.now db key ≠ w.server.visible w.now db key → w.Told (w.step e).2 id key

/-! ## The condition -/

/-- A command line that changes only what it declares, and nothing if it fails. -/
structure Plain (w : World) (env : Env) (db : Nat) (line : CmdLine) : Prop where
  separate : Frame.Request.Separate { env with now := w.now } w.server (.command db line)
  clean : accepted (w.answer env db line) = false → ∀ i key,
    (w.server.step { env with now := w.now } (.command db line)).visible w.now i key = w.server.visible w.now i key

/-- A client can be told of what another one, or itself, writes. -/
def Listens (source id : UInt64) : Prop :=
  ∀ c, w.clients.lookup id = some c → ¬ (id = source ∧ c.noLoop) ∧
    (c.protocol = .resp3 ∨ (w.clients.lookup (target id c)).isSome)

/-- A client in BCAST mode has named prefixes; in the other modes a command that reads writes nothing and declares what
it reads, and OPTOUT clients have not said CLIENT CACHING YES. -/
def Declares (c : Connection) (line : CmdLine) (key : Key) : Prop :=
  if c.bcastMode then c.bcastPrefixes ≠ []
  else (prepared line).1 = [] ∧ key ∈ (prepared line).2 ∧ (c.trackingMode = 2 → c.cachingNext = false)

/-- What is cached is changed only by plain commands whose keys are declared, and only such keys are cached. A new client
finds nothing of CLIENT TRACKING on its object. -/
def Meets : Event → Prop
  | .call env id line => ∀ c, w.clients.lookup id = some c →
    let db := c.selectedDB.toNat
    w.Plain env db line ∧
    (∀ id' key, (id', db, key) ∈ w.cached → key ∈ (prepared line).1 → w.Listens id id') ∧
    ∀ key ∈ w.readsOf env db line, tracks c key → Declares c line key
  | .queued env id line => ∀ c, w.clients.lookup id = some c →
    let db := c.selectedDB.toNat
    w.Plain env db line ∧ (∀ id' key, (id', db, key) ∈ w.cached → key ∉ (prepared line).1) ∧
    ∀ key ∈ w.readsOf env db line, tracks c key → c.bcastMode ∧ c.bcastPrefixes ≠ []
  | .other env r => Frame.Request.Separate { env with now := w.now } w.server r ∧
    ∀ id db key, (id, db, key) ∈ w.cached → ¬ r.Writes w.server db key
  | .untrackDB db => (∀ id key, (id, db, key) ∉ w.cached) ∧ ∀ id c, w.clients.lookup id = some c → c.bcastPrefixes = []
  | .evict db key => ∀ id, (id, db, key) ∉ w.cached
  | .tick now => ∀ id db key, (id, db, key) ∈ w.cached → w.server.visible now db key = w.server.visible w.now db key
  | .connect _ obj => obj.Untracked
  | _ => True

end World

/-! ## The table and the clients -/

section table

variable {t : Table} {clients : Clients} {db : Nat} {id : UInt64} {key : Key} {c : Connection}

theorem mem_affected : id ∈ t.affected db key ↔ (db, key, id) ∈ t.table ∨ ∃ p, p <+: key ∧ (db, p, id) ∈ t.bcast := by
  simp only [Table.affected, mem_map, mem_append, mem_filter, decide_eq_true_eq]
  constructor
  · rintro ⟨⟨db', p, id'⟩, ⟨hmem, rfl, rfl⟩ | ⟨hmem, rfl, hp⟩, rfl⟩
    · exact .inl hmem
    · exact .inr ⟨p, hp, hmem⟩
  · rintro (hmem | ⟨p, hp, hmem⟩)
    · exact ⟨_, .inl ⟨hmem, rfl, rfl⟩, rfl⟩
    · exact ⟨_, .inr ⟨hmem, rfl, hp⟩, rfl⟩

theorem affected_mono {t' : Table} (h : id ∈ t.affected db key)
    (htable : (db, key, id) ∈ t.table → (db, key, id) ∈ t'.table)
    (hbcast : ∀ p, (db, p, id) ∈ t.bcast → (db, p, id) ∈ t'.bcast) : id ∈ t'.affected db key :=
  mem_affected.2 ((mem_affected.1 h).imp htable fun ⟨p, hp, hmem⟩ => ⟨p, hp, hbcast p hmem⟩)

variable {keys : List Key}

theorem notifyTrackedKeys_told {source : UInt64} (hkey : key ∈ keys) (hid : id ∈ t.affected db key)
    (hc : clients.lookup id = some c) (hloop : ¬ (id = source ∧ c.noLoop))
    (hdest : c.protocol = .resp3 ∨ (clients.lookup (target id c)).isSome) :
    ∃ m ∈ notifyTrackedKeys t clients db keys source, m.key = some key ∧ (m.dest = id ∨ c.redirectID = m.dest) := by
  have hsend : ∃ m ∈ send clients (some key) id, m.key = some key ∧ (m.dest = id ∨ c.redirectID = m.dest) := by
    simp only [send, hc]
    by_cases hproto : c.protocol = .resp3
    · exact ⟨⟨id, some key⟩, by simp [hproto], rfl, .inl rfl⟩
    refine ⟨⟨target id c, some key⟩, by simp [hproto, hdest.resolve_left hproto], rfl, ?_⟩
    simp only [target]
    split
    · exact .inl rfl
    · exact .inr rfl
  obtain ⟨m, hm, hspec⟩ := hsend
  refine ⟨m, ?_, hspec⟩
  refine mem_flatMap.2 ⟨key, mem_dedup.2 hkey, mem_flatMap.2 ⟨id, mem_dedup.2 hid, ?_⟩⟩
  rwa [if_neg (by simpa [hc] using hloop)]

theorem mem_foldl_track {e : Nat × Key × UInt64} :
    e ∈ (keys.foldl (Table.track db id) t).table ↔ e ∈ t.table ∨ ∃ key ∈ keys, e = (db, key, id) := by
  induction keys generalizing t with
  | nil => simp
  | cons key keys ih =>
    rw [foldl_cons, ih]
    simp only [Table.track, mem_insert_iff, exists_mem_cons_iff]
    tauto

theorem bcast_foldl_track : (keys.foldl (Table.track db id) t).bcast = t.bcast := by
  induction keys generalizing t with
  | nil => rfl
  | cons key keys ih => exact ih

theorem trackReadKeys_keeps (c : Connection) (id : UInt64) (db : Nat) (keys : List Key) (t : Table) :
    (trackReadKeys c id db keys t).1.bcastPrefixes = c.bcastPrefixes ∧
    t.table ⊆ (trackReadKeys c id db keys t).2.table ∧ t.bcast ⊆ (trackReadKeys c id db keys t).2.bcast := by
  unfold trackReadKeys
  split
  · exact ⟨rfl, List.Subset.refl _, List.Subset.refl _⟩
  · exact ⟨rfl, fun e he => mem_foldl_track.2 (.inl he), by rw [bcast_foldl_track]; exact List.Subset.refl _⟩

theorem trackReadKeys_registers (htracks : tracks c key = true) (hbcast : c.bcastMode = false)
    (hout : c.trackingMode = 2 → c.cachingNext = false) (hkey : key ∈ keys) :
    (db, key, id) ∈ (trackReadKeys c id db keys t).2.table := by
  simp only [tracks, hbcast, false_eq_true, if_false, and_eq_true, or_eq_true, decide_eq_true_eq] at htracks
  obtain ⟨htrack, hin⟩ := htracks
  unfold trackReadKeys
  rw [if_neg]
  · exact mem_foldl_track.2 (.inr ⟨key, hkey, rfl⟩)
  · simp only [htrack, hbcast, Bool.not_true, Bool.false_or, Bool.or_eq_true, Bool.and_eq_true, decide_eq_true_eq,
      Bool.not_eq_true']
    rintro (⟨hmode, hnext⟩ | ⟨hmode, hnext⟩)
    · simp [hmode, hnext] at hin
    · simp [hout hmode] at hnext

theorem trackingOptions_keeps (args : List Bytes) (c : Connection) (prefixes : List Bytes) :
    (trackingOptions args c prefixes).1.bcastPrefixes = c.bcastPrefixes := by
  fun_induction trackingOptions args c prefixes <;> simp_all

/-- `CLIENT TRACKING` registers the prefixes that it sets, or drops the client. -/
theorem execClientTracking_cases (databases : Nat) (id : UInt64) (args : List Bytes) (c : Connection) (t : Table) :
    let r := (execClientTracking databases id args c t).2
    (args.head?.any (toUpper · = "OFF") = false ∧ r.2.table = t.table ∧
      t.bcast ⊆ r.2.bcast ∧ ∀ p ∈ r.1.bcastPrefixes, p ∈ c.bcastPrefixes ∨ ∀ db < databases, (db, p, id) ∈ r.2.bcast) ∨
    (args.head?.any (toUpper · = "OFF") = true ∧ r.1.bcastPrefixes = [] ∧ r.2 = t.untrackAll id) := by
  cases args with
  | nil => exact .inl ⟨rfl, rfl, List.Subset.refl _, fun _ => .inl⟩
  | cons mode options =>
    have hprefixes := trackingOptions_keeps options { c with tracking := true } []
    simp only [execClientTracking, head?_cons, Option.any_some, decide_eq_false_iff_not, decide_eq_true_eq]
    split
    · rename_i hon
      have hoff : toUpper mode ≠ "OFF" := by rw [hon]; decide
      refine .inl ⟨hoff, ?_⟩
      split
      · exact ⟨rfl, List.Subset.refl _, fun p hp => .inl (hprefixes ▸ hp)⟩
      split
      · exact ⟨rfl, List.Subset.refl _, fun p hp => .inl (hprefixes ▸ hp)⟩
      · refine ⟨rfl, fun e he => mem_union_iff.2 (.inr he), fun p hp => .inr fun db hdb => ?_⟩
        refine mem_union_iff.2 (.inl (mem_flatMap.2 ⟨p, hp, ?_⟩))
        exact mem_map.2 ⟨db, mem_range.2 hdb, rfl⟩
    · split
      · rename_i hoff
        exact .inr ⟨hoff, rfl, rfl⟩
      · rename_i hoff
        exact .inl ⟨hoff, rfl, List.Subset.refl _, fun _ => .inl⟩

theorem clientCaching_keeps (args : List Bytes) (c : Connection) :
    (clientCaching args c).2.bcastPrefixes = c.bcastPrefixes := by
  fun_cases clientCaching args c <;> rfl

end table

/-! ## The invariant -/

namespace World

/-- Who has cached a key is registered for it, and prefixes are registered. -/
structure Inv (w : World) : Prop where
  ok : ServerOk w.server
  registered : ∀ id db key, (id, db, key) ∈ w.cached → (w.clients.lookup id).isSome ∧ id ∈ w.table.affected db key
  prefixes : ∀ id c, w.clients.lookup id = some c → ∀ p ∈ c.bcastPrefixes, ∀ db < w.server.dbSet.length,
    (db, p, id) ∈ w.table.bcast

variable {w w' : World} {id : UInt64} {c c' : Connection}

theorem Inv.server (h : Inv w) (hok : ServerOk w'.server) (hlen : w'.server.dbSet.length = w.server.dbSet.length)
    (hrest : w' = { w with server := w'.server, now := w'.now }) : Inv w' := by
  rw [hrest]
  exact ⟨hok, h.registered, hlen ▸ h.prefixes⟩

theorem Inv.client (h : Inv w) (hc : w.clients.lookup id = some c) (hok : ServerOk w'.server)
    (hlen : w'.server.dbSet.length = w.server.dbSet.length)
    (hclients : ∀ i, w'.clients.lookup i = if i = id then some c' else w.clients.lookup i)
    (htable : w.table.table ⊆ w'.table.table) (hbcast : w.table.bcast ⊆ w'.table.bcast)
    (hprefixes : ∀ p ∈ c'.bcastPrefixes,
      p ∈ c.bcastPrefixes ∨ ∀ db < w.server.dbSet.length, (db, p, id) ∈ w'.table.bcast)
    (hcached : ∀ i db key, (i, db, key) ∈ w'.cached →
      (i, db, key) ∈ w.cached ∨ (i = id ∧ id ∈ w'.table.affected db key)) : Inv w' := by
  refine ⟨hok, fun i db key hmem => ?_, fun i c'' hi p hp db hdb => ?_⟩
  · rw [hclients]
    rcases hcached i db key hmem with hmem | ⟨rfl, haff⟩
    · obtain ⟨hsome, haff⟩ := h.registered i db key hmem
      refine ⟨?_, affected_mono haff (@htable _) fun p => @hbcast _⟩
      split
      · rfl
      · exact hsome
    · exact ⟨by simp, haff⟩
  · rw [hclients] at hi
    rw [hlen] at hdb
    split at hi
    · rename_i heq
      subst heq
      cases hi
      exact (hprefixes p hp).elim (fun hp => hbcast (h.prefixes i c hc p hp db hdb)) fun hp => hp db hdb
    · exact hbcast (h.prefixes i c'' hi p hp db hdb)

theorem Inv.drop (h : Inv w) {clients : Clients} {t : Table} (hclients : ∀ i ≠ id, clients.lookup i = w.clients.lookup i)
    (hid : ∀ c, clients.lookup id = some c → c.bcastPrefixes = [])
    (htable : ∀ e ∈ w.table.table, e.2.2 ≠ id → e ∈ t.table) (hbcast : ∀ e ∈ w.table.bcast, e.2.2 ≠ id → e ∈ t.bcast) :
    Inv { w with clients, table := t, cached := w.cached.filter (·.1 ≠ id) } := by
  refine ⟨h.ok, fun i db key hmem => ?_, fun i c hi p hp db hdb => ?_⟩
  · obtain ⟨hmem, hne⟩ := mem_filter.1 hmem
    replace hne : i ≠ id := of_decide_eq_true hne
    obtain ⟨hsome, haff⟩ := h.registered i db key hmem
    exact ⟨hclients i hne ▸ hsome, affected_mono haff (htable _ · hne) fun p => (hbcast _ · hne)⟩
  · by_cases hne : i = id
    · subst hne
      rw [hid c hi] at hp
      cases hp
    · exact hbcast _ (h.prefixes i c (hclients i hne ▸ hi) p hp db hdb) hne

/-! ## Steps keep it -/

section run

variable {env : Env} {line : CmdLine} {key : Key}

theorem writes_command {σ : Server} {db i : Nat} :
    (Request.command db line).Writes σ i key ↔ i = db ∧ key ∈ (prepared line).1 := by
  cases line with
  | nil => simp [Request.Writes, prepared]
  | cons name args =>
    cases hc : findCommand (toLower name) with
    | none => simp [Request.Writes, prepared, hc]
    | some cmd =>
      simp only [Request.Writes, prepared, hc, Option.mem_def, Option.bind_some, Option.some.injEq, exists_eq_left']
      cases cmd.prepare args <;> simp [-Prod.exists]

theorem Inv.registered_bcast (h : Inv w) (hc : w.clients.lookup id = some c)
    (hread : key ∈ w.readsOf env c.selectedDB.toNat line) (htracks : tracks c key = true)
    (hbcast : c.bcastMode = true ∧ c.bcastPrefixes ≠ []) : id ∈ w.table.affected c.selectedDB.toNat key := by
  have hdb : c.selectedDB.toNat < w.server.dbSet.length := by
    unfold readsOf at hread
    cases hs : w.server.selectDB c.selectedDB.toNat with
    | none =>
      rw [hs] at hread
      cases hread
    | some s => exact lt_of_selectDB hs
  simp only [tracks, hbcast, if_true, decide_false, Bool.false_or, Bool.and_eq_true, any_eq_true,
    decide_eq_true_eq] at htracks
  obtain ⟨-, p, hp, hkey⟩ := htracks
  exact mem_affected.2 (.inr ⟨p, hkey, h.prefixes id c hc p hp _ hdb⟩)

theorem Inv.run (h : Inv w) (hc : w.clients.lookup id = some c) {clients : Clients} {t : Table}
    (hclients : ∀ i, clients.lookup i = if i = id then some c' else w.clients.lookup i)
    (hprefixes : c'.bcastPrefixes = c.bcastPrefixes) (htable : w.table.table ⊆ t.table)
    (hbcast : w.table.bcast ⊆ t.bcast)
    (hreads : accepted (w.answer env c.selectedDB.toNat line) = true → ∀ key ∈ w.readsOf env c.selectedDB.toNat line,
      tracks c key = true → id ∈ t.affected c.selectedDB.toNat key) :
    Inv { w.run env id c line with clients, table := t } := by
  let request := Request.command c.selectedDB.toNat line
  refine h.client hc (h.ok.step { env with now := w.now } request)
    (length_step { env with now := w.now } request) hclients htable hbcast
    (fun p hp => .inl (hprefixes ▸ hp)) fun i db key hmem => ?_
  simp only [World.run] at hmem
  split at hmem
  · rename_i hacc
    rcases mem_append.1 hmem with hmem | hmem
    · obtain ⟨key', hkey, heq⟩ := mem_map.1 hmem
      obtain ⟨hread, htracks⟩ := mem_filter.1 hkey
      cases heq
      exact .inr ⟨rfl, hreads hacc key hread htracks⟩
    · exact .inl hmem
  · exact .inl hmem

theorem Inv.run_self (h : Inv w) (hc : w.clients.lookup id = some c)
    (hreads : accepted (w.answer env c.selectedDB.toNat line) = true → ∀ key ∈ w.readsOf env c.selectedDB.toNat line,
      tracks c key = true → c.bcastMode = true ∧ c.bcastPrefixes ≠ []) : Inv (w.run env id c line) := by
  refine h.run hc (fun i => ?_) (rfl : c.bcastPrefixes = _) (List.Subset.refl _) (List.Subset.refl _)
    fun hacc key hread htracks => ?_
  · split
    · rename_i heq
      rw [heq, hc]
    · rfl
  · exact h.registered_bcast hc hread htracks (hreads hacc key hread htracks)

theorem Declares.cases (h : Declares c line key) : (c.bcastMode = true ∧ c.bcastPrefixes ≠ []) ∨
    (c.bcastMode = false ∧ (prepared line).1 = [] ∧ key ∈ (prepared line).2 ∧
      (c.trackingMode = 2 → c.cachingNext = false)) := by
  unfold Declares at h
  split at h
  · exact .inl ⟨‹_›, h⟩
  · exact .inr ⟨not_eq_true _ ▸ ‹_›, h⟩

theorem Plain.visible (h : Inv w) {db i : Nat} (hplain : w.Plain env db line)
    (hw : ¬ (i = db ∧ key ∈ (prepared line).1)) :
    (w.server.step { env with now := w.now } (.command db line)).visible w.now i key = w.server.visible w.now i key :=
  @Frame.visible_step { env with now := w.now } _ _ _ h.ok _ hplain.separate fun hwrites => hw (writes_command.1 hwrites)

theorem Inv.call (h : Inv w) (hm : w.Meets (.call env id line)) :
    Inv (w.step (.call env id line)).1 ∧ w.Coherent (.call env id line) := by
  cases hc : w.clients.lookup id with
  | none =>
    simp only [Coherent, step, hc]
    exact ⟨h, fun _ _ _ _ hne => absurd rfl hne⟩
  | some c =>
    obtain ⟨hplain, hlisten, hreads⟩ := hm c hc
    cases hacc : accepted (w.answer env c.selectedDB.toNat line) with
    | false =>
      simp only [Coherent, step, hc, hacc, false_eq_true, if_false]
      refine ⟨h.run_self hc fun htrue => ?_, fun _ db key _ hne => absurd (hplain.clean hacc db key) hne⟩
      rw [hacc] at htrue
      cases htrue
    | true =>
      simp only [Coherent, step, hc, hacc, if_true, hook]
      by_cases hnil : (prepared line).1 = []
      · -- nothing is written: what is read is registered
        have hkeep : ∀ db key, (w.run env id c line).server.visible w.now db key = w.server.visible w.now db key :=
          fun db key => hplain.visible h (by simp [hnil])
        rw [if_pos hnil]
        split
        · refine ⟨?_, fun _ db key _ hne => absurd (hkeep db key) hne⟩
          obtain ⟨hp, htable, hbc⟩ := trackReadKeys_keeps c id c.selectedDB.toNat (prepared line).2 w.table
          refine h.run hc (fun i => lookup_putField _ _ _ _) hp htable hbc fun _ key hread htracks => ?_
          rcases (hreads key hread htracks).cases with hb | ⟨hb, -, hkey, hout⟩
          · exact affected_mono (h.registered_bcast hc hread htracks hb) (@htable _) fun p => @hbc _
          · exact mem_affected.2 (.inl (trackReadKeys_registers htracks hb hout hkey))
        · rename_i hskip
          refine ⟨h.run_self hc fun _ key hread htracks => ?_, fun _ db key _ hne => absurd (hkeep db key) hne⟩
          refine (hreads key hread htracks).cases.resolve_right fun ⟨_, _, hkey, _⟩ => hskip ⟨?_, ne_nil_of_mem hkey⟩
          exact (and_eq_true _ _ ▸ htracks).1
      · -- what is written is notified
        rw [if_neg hnil]
        refine ⟨h.run_self hc fun _ key hread htracks => ?_, fun id' db key hmem hne => ?_⟩
        · exact (hreads key hread htracks).cases.resolve_right fun h => hnil h.2.1
        · have hkey : db = c.selectedDB.toNat ∧ key ∈ (prepared line).1 := by
            by_contra hw
            exact hne (hplain.visible h hw)
          obtain ⟨rfl, hkey⟩ := hkey
          obtain ⟨hsome, haff⟩ := h.registered id' _ key hmem
          obtain ⟨c', hc'⟩ := Option.isSome_iff_exists.1 hsome
          obtain ⟨hloop, hdest⟩ := hlisten id' key hmem hkey c' hc'
          obtain ⟨m, hm, hmkey, hmdest⟩ := notifyTrackedKeys_told hkey haff hc' hloop hdest
          exact ⟨m, hm, .inr hmkey, hmdest.imp_right fun heq => by simp [hc', heq]⟩

theorem Inv.queued (h : Inv w) (hm : w.Meets (.queued env id line)) :
    Inv (w.step (.queued env id line)).1 ∧ w.Coherent (.queued env id line) := by
  simp only [Coherent, step, onClient]
  cases hc : w.clients.lookup id with
  | none => exact ⟨h, fun _ _ _ _ hne => absurd rfl hne⟩
  | some c =>
    obtain ⟨hplain, hwrites, hreads⟩ := hm c hc
    refine ⟨h.run_self hc fun _ => hreads, fun id' db key hmem hne => absurd (hplain.visible h ?_) hne⟩
    rintro ⟨rfl, hkey⟩
    exact hwrites id' key hmem hkey

end run

theorem Inv.evict (h : Inv w) {db : Nat} {key : Key} (hm : w.Meets (.evict db key)) :
    Inv (w.step (.evict db key)).1 ∧ w.Coherent (.evict db key) := by
  refine ⟨h.server (h.ok.onDB fun _ hs => hs.remove) length_onDB rfl, fun id i k hmem hne => absurd ?_ hne⟩
  refine visible_onDB (fun s _ hi => ?_) fun _ _ _ _ _ _ => rfl
  have hk : k ≠ key := by
    rintro rfl
    exact hm id (hi ▸ hmem)
  refine State.visible_congr ?_ ?_ fun _ _ => rfl
  · simp only [State.remove, lookup_removeField, if_neg hk]
  · simp only [State.remove, lookup_removeField, if_neg hk]

theorem coherent_of_server {e : Event} (hserver : (w.step e).1.server = w.server) (hnow : (w.step e).1.now = w.now) :
    w.Coherent e := fun _ _ _ _ hne => absurd (by rw [hserver, hnow]) hne

theorem Inv.untrackDB (h : Inv w) {db : Nat} (hm : w.Meets (.untrackDB db)) : Inv (w.step (.untrackDB db)).1 := by
  obtain ⟨hcached, hprefixes⟩ := hm
  refine ⟨h.ok, fun id i key hmem => ?_, fun id c hc p hp => ?_⟩
  · obtain ⟨hsome, haff⟩ := h.registered id i key hmem
    have hi : i ≠ db := by
      rintro rfl
      exact hcached id key hmem
    refine ⟨hsome, affected_mono haff (fun he => ?_) fun p he => ?_⟩
    · exact mem_filter.2 ⟨he, decide_eq_true hi⟩
    · exact mem_filter.2 ⟨he, decide_eq_true hi⟩
  · rw [hprefixes id c hc] at hp
    cases hp

theorem Inv.tracking (h : Inv w) (id : UInt64) (args : List Bytes) : Inv (w.step (.tracking id args)).1 := by
  simp only [step, onClient]
  cases hc : w.clients.lookup id with
  | none => exact h
  | some c =>
    rcases execClientTracking_cases w.server.dbSet.length id args c w.table with
      ⟨hoff, htable, hbcast, hprefixes⟩ | ⟨hoff, hprefixes, htable⟩
    · simp only [hoff, false_eq_true, if_false, Option.elim_some]
      exact h.client hc h.ok rfl (fun i => lookup_putField _ _ _ _) (htable ▸ List.Subset.refl _) hbcast hprefixes
        fun _ _ _ => .inl
    simp only [hoff, if_true, Option.elim_some, htable]
    refine h.drop (fun i hi => ?_) (fun c' hc' => ?_) (fun e he hne => ?_) fun e he hne => ?_
    · rw [lookup_putField, if_neg hi]
    · rw [lookup_putField, if_pos rfl] at hc'
      cases hc'
      exact hprefixes
    · exact mem_filter.2 ⟨he, decide_eq_true hne⟩
    · exact mem_filter.2 ⟨he, decide_eq_true hne⟩

theorem Inv.onClient (h : Inv w) (id : UInt64) {f : Connection → Connection}
    (hf : ∀ c, (f c).bcastPrefixes = c.bcastPrefixes) :
    Inv (w.onClient id fun c => { w with clients := putField id (f c) w.clients }) := by
  unfold World.onClient
  cases hc : w.clients.lookup id with
  | none => exact h
  | some c =>
    exact h.client hc h.ok rfl (fun i => lookup_putField _ _ _ _) (List.Subset.refl _) (List.Subset.refl _)
      (fun p hp => .inl (hf c ▸ hp)) fun _ _ _ => .inl

theorem coherent_onClient {e : Event} {id : UInt64} {f : Connection → World} (hstep : (w.step e).1 = w.onClient id f)
    (hf : ∀ c, (f c).server = w.server ∧ (f c).now = w.now) : w.Coherent e := by
  have hserver : (w.onClient id f).server = w.server ∧ (w.onClient id f).now = w.now := by
    unfold World.onClient
    cases w.clients.lookup id with
    | none => exact ⟨rfl, rfl⟩
    | some c => exact hf c
  exact coherent_of_server (hstep ▸ hserver.1) (hstep ▸ hserver.2)

theorem Inv.step (h : Inv w) {e : Event} (hm : w.Meets e) : Inv (w.step e).1 ∧ w.Coherent e := by
  cases e with
  | call env id line => exact h.call hm
  | queued env id line => exact h.queued hm
  | other env r =>
    refine ⟨h.server (h.ok.step _ r) (length_step _ r) rfl, fun id db key hmem hne => absurd ?_ hne⟩
    exact @Frame.visible_step { env with now := w.now } _ _ _ h.ok _ hm.1 (hm.2 id db key hmem)
  | evict db key => exact h.evict hm
  | tick now => exact ⟨h.server h.ok rfl rfl, fun id db key hmem hne => absurd (hm id db key hmem) hne⟩
  | untrackDB db => exact ⟨h.untrackDB hm, coherent_of_server rfl rfl⟩
  | tracking id args => exact ⟨h.tracking id args, coherent_onClient rfl fun _ => ⟨rfl, rfl⟩⟩
  | caching id args => exact ⟨h.onClient id (clientCaching_keeps args), coherent_onClient rfl fun _ => ⟨rfl, rfl⟩⟩
  | select id db | hello id v => exact ⟨h.onClient id fun _ => rfl, coherent_onClient rfl fun _ => ⟨rfl, rfl⟩⟩
  | connect id obj =>
    refine ⟨h.drop (fun i hi => ?_) (fun c' hc' => ?_) (fun _ he _ => he) fun _ he _ => he, coherent_of_server rfl rfl⟩
    · rw [lookup_putField, if_neg hi]
    · rw [lookup_putField, if_pos rfl] at hc'
      cases hc'
      obtain ⟨-, -, -, -, -, hprefixes, -⟩ := hm
      exact hprefixes
  | close id =>
    refine ⟨h.drop (fun i hi => ?_) (fun c' hc' => ?_) (fun _ he _ => he) fun _ he _ => he, coherent_of_server rfl rfl⟩
    · rw [lookup_removeField, if_neg hi]
    · rw [lookup_removeField, if_pos rfl] at hc'
      cases hc'

theorem inv_start (databases : Nat) : Inv (start databases) where
  ok := .of_reachable .start
  registered _ _ _ h := absurd h not_mem_nil
  prefixes _ _ h := by cases h

/-- In a run whose steps meet the condition, who has read a key is told of every change of it. -/
theorem coherent_run (databases : Nat) (es : List Event)
    (h : Guarded (fun w e => (w.step e).1) Meets (start databases) es) :
    Guarded (fun w e => (w.step e).1) Coherent (start databases) es := by
  have hinv := inv_start databases
  generalize start databases = w at h hinv ⊢
  induction es generalizing w with
  | nil => trivial
  | cons e es ih =>
    obtain ⟨hnext, hcoh⟩ := hinv.step h.1
    exact ⟨hcoh, ih _ h.2 hnext⟩

/-- A client that has read a key in RESP3 mode, and another one. -/
def readK : List Event := [
  .connect 1 {}, .hello 1 .resp3, .tracking 1 ["ON"], .connect 2 {}, .call (.plain 0) 1 ["GET", "k"]]

/-- A command that writes new keys is plain, if it declares all that it changes. -/
theorem plain_of_new {env : Env} {db : Nat} {name : Bytes} {args : List Bytes} {c : Command} {W R : List Key}
    (hc : findCommand (toLower name) = some c) (hprep : c.prepare args = some (W, R))
    (hkept : env.evicted = []) (hdecl : Frame.undeclaredKeys c.name args = []) (hgroup : c.name ≠ "xgroup") (hdump : c.name ∉ Frame.carriers)
    (hnew : ∀ k ∈ W, w.server.lookup db k = none) (hacc : accepted (w.answer env db (name :: args)) = true) :
    w.Plain env db (name :: args) := by
  refine ⟨fun c' W' R' hc' hprep' => ?_, fun hfalse => by rw [hacc] at hfalse; cases hfalse⟩
  obtain rfl : c = c' := Option.some.inj (hc.symm.trans hc')
  obtain ⟨rfl, rfl⟩ := Prod.mk.inj (Option.some.inj (hprep.symm.trans hprep'))
  refine ⟨fun s _ => ⟨fun k hk => ?_, fun h => absurd h hgroup, fun h => absurd h hdump⟩, fun k hk _ _ _ _ _ hr => ?_,
    fun _ => hkept⟩
  · rw [hdecl] at hk
    cases hk
  · rw [hnew k hk] at hr
    cases hr

theorem coherent_run_set : let es := readK ++ [.call (.plain 0) 2 ["SET", "k", "v"]]
    Guarded (fun w e => (w.step e).1) Coherent (start 1) es := by
  have hnew : Connection.Untracked {} := ⟨rfl, rfl, rfl, rfl, rfl, rfl, rfl⟩
  refine coherent_run 1 _ ⟨hnew, trivial, trivial, hnew, fun c hc => ?_, fun c hc => ?_, trivial⟩
  · obtain rfl : { (({} : Connection).renew 0 1 0) with protocol := .resp3, tracking := true } = c := Option.some.inj hc
    refine ⟨plain_of_new rfl rfl rfl (by decide) (by decide) (by decide) (fun _ hk => absurd hk List.not_mem_nil)
      (by decide +kernel), fun _ _ hmem => absurd hmem List.not_mem_nil, fun key hread _ => ?_⟩
    obtain rfl : key = "k" := List.mem_singleton.1 hread
    exact ⟨rfl, List.mem_singleton.2 rfl, fun h => absurd h (by decide)⟩
  · obtain rfl : ({} : Connection).renew 0 2 0 = c := Option.some.inj hc
    refine ⟨plain_of_new rfl rfl rfl (by decide) (by decide) (by decide) (fun k hk => ?_) (by decide +kernel),
      fun id' key hmem _ c' hc' => ?_, fun key hread _ => absurd hread List.not_mem_nil⟩
    · rw [List.mem_singleton.1 hk]
      decide +kernel
    · obtain ⟨rfl, -⟩ := Prod.mk.inj (List.mem_singleton.1 hmem)
      obtain rfl : { (({} : Connection).renew 0 1 0) with protocol := .resp3, tracking := true } = c' := Option.some.inj hc'
      exact ⟨fun h => absurd h.1 (by decide), .inl rfl⟩

/-- A transaction that sets the key tells no one. -/
theorem transaction_not_told : ¬ ∀ databases es, Guarded (fun w e => (w.step e).1) Coherent (start databases) es := by
  intro h
  have hlast := (guarded_append.1 (h 1 (readK ++ [.queued (.plain 0) 2 ["SET", "k", "v"]]))).2.1
  obtain ⟨m, hm, -⟩ := hlast 1 0 "k" (by decide +kernel) (by decide +kernel)
  cases hm

end World

end Hayakv.Tracking
