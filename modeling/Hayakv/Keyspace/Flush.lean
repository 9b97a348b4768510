import Hayakv.Lib.Guarded
import Hayakv.Lib.Held

/-!
# Flushes and the append only file

Clients that write while FLUSHDB and FLUSHALL run. A command loads the object of its
database (`selectDB`), takes its locks there, runs and enqueues its record, and a flush
puts a new object in place of the old (`loadDB`) without any lock. FLUSHDB enqueues its
record before that, FLUSHALL when it has replaced all databases.

What is in memory and what a replay of the log gives (`replay`) agree on every key but
those of commands that have run and not logged yet; there, the record leads from the one
to the other (`World.Agree`). A flush breaks this between its two steps.
-/

namespace Hayakv.Keyspace.Flush

open Function

variable {n : Nat} {κ ν L ι : Type}

abbrev Dataset (κ ν : Type) := κ → Option ν

/-- A command that logs its effect faithfully. `record m` is what the record of a run on `m` does when it
is replayed (nothing, if none is written): on a dataset with the same values for the keys of the command,
the same as the command. -/
structure Command (κ ν : Type) [DecidableEq κ] where
  write : List κ
  read : List κ
  exec : Dataset κ ν → Dataset κ ν
  record : Dataset κ ν → Dataset κ ν → Dataset κ ν
  frame : ∀ m k, k ∉ write → exec m k = m k
  faithful : ∀ m m', (∀ k, k ∈ write ∨ k ∈ read → m' k = m k) →
    ∀ k, record m m' k = if k ∈ write then exec m k else m' k

inductive Record (n : Nat) (κ ν : Type) where
  | command (db : Fin n) (effect : Dataset κ ν → Dataset κ ν)
  | flushDB (db : Fin n)
  | flushAll

def Record.apply (m : Fin n → Dataset κ ν) : Record n κ ν → Fin n → Dataset κ ν
  | .command db effect => Function.update m db (effect (m db))
  | .flushDB db => Function.update m db fun _ => none
  | .flushAll => fun _ _ => none

def replay (log : List (Record n κ ν)) : Fin n → Dataset κ ν := log.foldl Record.apply fun _ _ => none

theorem replay_concat (log : List (Record n κ ν)) (r : Record n κ ν) :
    replay (log ++ [r]) = r.apply (replay log) := by
  rw [replay, List.foldl_append]
  rfl

section

variable [DecidableEq κ]

inductive Thread (n : Nat) (κ ν : Type) [DecidableEq κ] where
  | idle
  /-- `selectDB` has returned the object. -/
  | selected (db : Fin n) (obj : Nat)
  /-- Under the locks of the keys; `pending` is a command that has run and not logged, with the dataset it
  ran on. -/
  | locked (db : Fin n) (obj : Nat) (write read : List κ) (pending : Option (Command κ ν × Dataset κ ν))
  /-- In `execFlushDB`, before `flushDB`. -/
  | flushDB (db : Fin n)
  /-- In `flushAll`, with the databases that are not replaced yet. -/
  | flushAll (rest : List (Fin n))

/-- The database objects, which of them `dbSet` points to, and the log. -/
structure World (n : Nat) (κ ν ι : Type) [DecidableEq κ] where
  objects : Nat → Dataset κ ν
  next : Nat
  dbSet : Fin n → Nat
  log : List (Record n κ ν) := []
  thread : ι → Thread n κ ν

inductive Event (n : Nat) (κ ν ι : Type) [DecidableEq κ] where
  | select (i : ι) (db : Fin n)
  | lock (i : ι) (write read : List κ)
  | exec (i : ι) (cmd : Command κ ν)
  | log (i : ι)
  | unlock (i : ι)
  | flushDB (i : ι) (db : Fin n)
  | flushAll (i : ι)
  | flush (i : ι)

def Thread.held (shard : κ → L) : Thread n κ ν → Held (Nat × L)
  | .locked _ obj write read _ =>
    { write := write.map fun k => (obj, shard k), read := read.map fun k => (obj, shard k) }
  | _ => {}

def World.memory (w : World n κ ν ι) (db : Fin n) : Dataset κ ν := w.objects (w.dbSet db)

/-- `makeDB` and `loadDB`. -/
def World.loadDB (w : World n κ ν ι) (db : Fin n) : World n κ ν ι :=
  { w with
    objects := Function.update w.objects w.next fun _ => none
    next := w.next + 1
    dbSet := Function.update w.dbSet db w.next }

def World.save (w : World n κ ν ι) (r : Record n κ ν) : World n κ ν ι := { w with log := w.log ++ [r] }

variable [DecidableEq L] [DecidableEq ι] [Fintype ι] (shard : κ → L)

def World.set (w : World n κ ν ι) (i : ι) (t : Thread n κ ν) : World n κ ν ι :=
  { w with thread := Function.update w.thread i t }

def World.held (w : World n κ ν ι) (i : ι) : Held (Nat × L) := (w.thread i).held shard

/-- The keys of a command are among those that are locked. -/
def Command.Within (cmd : Command κ ν) (write read : List κ) : Prop :=
  (∀ k ∈ cmd.write, k ∈ write) ∧ ∀ k ∈ cmd.read, k ∈ write ∨ k ∈ read

instance (cmd : Command κ ν) (write read : List κ) : Decidable (cmd.Within write read) :=
  decidable_of_iff ((cmd.write.all fun k => k ∈ write) ∧ cmd.read.all fun k => k ∈ write ∨ k ∈ read)
    (by simp [Command.Within])

def World.step (w : World n κ ν ι) : Event n κ ν ι → World n κ ν ι
  | .select i db =>
    match w.thread i with
    | .idle => w.set i (.selected db (w.dbSet db))
    | _ => w
  | .lock i write read =>
    match w.thread i with
    | .selected db obj =>
      if Held.Available (w.held shard) i ((Thread.locked (ν := ν) db obj write read none).held shard) then
        w.set i (.locked db obj write read none)
      else w
    | _ => w
  | .exec i cmd =>
    match w.thread i with
    | .locked db obj write read none =>
      if cmd.Within write read then
        { w with objects := Function.update w.objects obj (cmd.exec (w.objects obj)) }.set i
          (.locked db obj write read (some (cmd, w.objects obj)))
      else w
    | _ => w
  | .log i =>
    match w.thread i with
    | .locked db obj write read (some (cmd, before)) =>
      (w.save (.command db (cmd.record before))).set i (.locked db obj write read none)
    | _ => w
  | .unlock i =>
    match w.thread i with
    | .locked _ _ _ _ none => w.set i .idle
    | _ => w
  | .flushDB i db =>
    match w.thread i with
    | .idle => (w.save (.flushDB db)).set i (.flushDB db)
    | _ => w
  | .flushAll i =>
    match w.thread i with
    | .idle => w.set i (.flushAll (List.finRange n))
    | _ => w
  | .flush i =>
    match w.thread i with
    | .flushDB db => (w.loadDB db).set i .idle
    | .flushAll (db :: rest) => (w.loadDB db).set i (.flushAll rest)
    | .flushAll [] => (w.save .flushAll).set i .idle
    | _ => w

def World.run (w : World n κ ν ι) (events : List (Event n κ ν ι)) : World n κ ν ι := events.foldl (World.step shard) w

end

/-! ## Memory and log -/

section Agree

variable [DecidableEq κ]

def Thread.client : Thread n κ ν → Option (Fin n × Nat)
  | .selected db obj | .locked db obj _ _ _ => some (db, obj)
  | _ => none

/-- The command on a database that has run and not logged. -/
def Thread.pending (d : Fin n) : Thread n κ ν → Option (Command κ ν × Dataset κ ν)
  | .locked db _ _ _ pending => if db = d then pending else none
  | _ => none

def Thread.Uses (d : Fin n) (t : Thread n κ ν) : Prop := ∃ obj, t.client = some (d, obj)

def Thread.Flushes (d : Fin n) : Thread n κ ν → Prop
  | .flushDB db => db = d
  | .flushAll _ => True
  | _ => False

instance (d : Fin n) (t : Thread n κ ν) : Decidable (t.Uses d) :=
  decidable_of_iff (t.client.map Prod.fst = some d) (by
    rw [Thread.Uses, Option.map_eq_some_iff]
    constructor
    · rintro ⟨⟨_, obj⟩, hobj, rfl⟩
      exact ⟨obj, hobj⟩
    · rintro ⟨obj, hobj⟩
      exact ⟨(d, obj), hobj, rfl⟩)

instance (d : Fin n) : (t : Thread n κ ν) → Decidable (t.Flushes d)
  | .flushDB db => inferInstanceAs (Decidable (db = d))
  | .flushAll _ => .isTrue trivial
  | .idle | .selected _ _ | .locked _ _ _ _ _ => .isFalse id

/-- In a flush that has not replaced the database yet. -/
def Thread.Replaces (d : Fin n) : Thread n κ ν → Prop
  | .flushDB db => db = d
  | .flushAll rest => d ∈ rest
  | _ => False

/-- In a flush that has not enqueued its record yet. -/
def Thread.Records : Thread n κ ν → Prop
  | .flushAll _ => True
  | _ => False

/-- A database that is not flushed. Memory and log agree where no command is between its run and its
record; such a command has run on what the log gives. -/
structure World.Agree (w : World n κ ν ι) (d : Fin n) : Prop where
  quiet : ∀ j, ¬ (w.thread j).Flushes d
  current : ∀ j obj, (w.thread j).client = some (d, obj) → obj = w.dbSet d
  before : ∀ j cmd m, (w.thread j).pending d = some (cmd, m) →
    ∀ k, k ∈ cmd.write ∨ k ∈ cmd.read → replay w.log d k = m k
  after : ∀ j cmd m, (w.thread j).pending d = some (cmd, m) → ∀ k ∈ cmd.write, w.memory d k = cmd.exec m k
  settled : ∀ k, (∀ j cmd m, (w.thread j).pending d = some (cmd, m) → k ∉ cmd.write) → w.memory d k = replay w.log d k

structure World.Emptying (w : World n κ ν ι) (d : Fin n) : Prop where
  unused : ∀ j, ¬ (w.thread j).Uses d
  memory : (w.memory d = fun _ => none) ∨ ∃ j, (w.thread j).Replaces d
  log : (replay w.log d = fun _ => none) ∨ ∃ j, (w.thread j).Records

theorem Thread.flushes_of_replaces {d : Fin n} {t : Thread n κ ν} (h : t.Replaces d) : t.Flushes d := by
  cases t with
  | flushDB db => exact h
  | flushAll rest => trivial
  | _ => exact h.elim

theorem Thread.flushes_of_records {d : Fin n} {t : Thread n κ ν} (h : t.Records) : t.Flushes d := by
  cases t with
  | flushAll rest => trivial
  | _ => exact h.elim

section

variable {d : Fin n} {t : Thread n κ ν} {p : Command κ ν × Dataset κ ν} (h : t.pending d = some p)
include h

theorem Thread.locked_of_pending : ∃ obj write read, t = .locked d obj write read (some p) := by
  cases t with
  | locked db obj write read pending =>
    simp only [Thread.pending] at h
    split at h
    · rename_i hdb
      subst hdb
      exact ⟨obj, write, read, by rw [h]⟩
    · cases h
  | _ => cases h

theorem Thread.uses_of_pending : t.Uses d := by
  obtain ⟨obj, write, read, rfl⟩ := Thread.locked_of_pending h
  exact ⟨obj, rfl⟩

end

variable {w : World n κ ν ι} {d : Fin n}

theorem World.Emptying.agree (h : w.Emptying d) (hquiet : ∀ j, ¬ (w.thread j).Flushes d) : w.Agree d where
  quiet := hquiet
  current j obj hj := (h.unused j ⟨obj, hj⟩).elim
  before j _ _ hj := (h.unused j (Thread.uses_of_pending hj)).elim
  after j _ _ hj := (h.unused j (Thread.uses_of_pending hj)).elim
  settled k _ := by
    have hmem := h.memory.resolve_right fun ⟨j, hj⟩ => hquiet j (Thread.flushes_of_replaces hj)
    have hlog := h.log.resolve_right fun ⟨j, hj⟩ => hquiet j (Thread.flushes_of_records hj)
    rw [hmem, hlog]

variable [DecidableEq ι] {w' : World n κ ν ι} {i : ι} {t t₀ : Thread n κ ν}

/-- A step of a thread that has nothing to log in the database, and changes neither memory nor log there. -/
theorem World.Agree.frame (h : w.Agree d) (hi : w.thread i = t₀) (hthread : w'.thread = update w.thread i t)
    (hdb : w'.dbSet d = w.dbSet d) (hmem : w'.memory d = w.memory d) (hlog : replay w'.log d = replay w.log d)
    (hold : t₀.pending d = none) (hnew : t.pending d = none) (hflush : ¬ t.Flushes d)
    (hclient : ∀ obj, t.client = some (d, obj) → obj = w.dbSet d) : w'.Agree d := by
  have hpending : ∀ j, (w'.thread j).pending d = (w.thread j).pending d := by
    intro j
    rw [hthread, update_apply]
    split
    · rw [‹j = i›, hi, hold, hnew]
    · rfl
  constructor
  · rw [hthread]
    exact (forall_update_iff _ fun _ u => ¬ Thread.Flushes d u).2 ⟨hflush, fun j _ => h.quiet j⟩
  · rw [hthread, hdb]
    exact (forall_update_iff _ fun _ u => ∀ obj, Thread.client u = some (d, obj) → obj = w.dbSet d).2
      ⟨hclient, fun j _ => h.current j⟩
  · intro j cmd m
    rw [hpending, hlog]
    exact h.before j cmd m
  · intro j cmd m
    rw [hpending, hmem]
    exact h.after j cmd m
  · intro k hk
    rw [hmem, hlog]
    exact h.settled k fun j cmd m hj => hk j cmd m ((hpending j).trans hj)

theorem not_uses_of_client (h : t.client = none) : ¬ t.Uses d := by
  rintro ⟨obj, hobj⟩
  rw [h] at hobj
  cases hobj

theorem unused_update (hthread : w'.thread = update w.thread i t) (h : ∀ j, ¬ (w.thread j).Uses d)
    (ht : t.client = none) : ∀ j, ¬ (w'.thread j).Uses d := by
  rw [hthread]
  exact (forall_update_iff _ fun _ u => ¬ Thread.Uses d u).2 ⟨not_uses_of_client ht, fun j _ => h j⟩

/-- A step of a thread that does not select the database, and does what it takes out of its plan. -/
theorem World.Emptying.frame (h : w.Emptying d) (hi : w.thread i = t₀)
    (hthread : w'.thread = update w.thread i t) (huse : ¬ t.Uses d)
    (hmem : (w'.memory d = fun _ => none) ∨ w'.memory d = w.memory d ∧ (t₀.Replaces d → t.Replaces d))
    (hlog : (replay w'.log d = fun _ => none) ∨ replay w'.log d = replay w.log d ∧ (t₀.Records → t.Records)) :
    w'.Emptying d := by
  have hkeeps : ∀ P : Thread n κ ν → Prop, (P t₀ → P t) → (∃ j, P (w.thread j)) → ∃ j, P (w'.thread j) := by
    rintro P hP ⟨j, hj⟩
    refine ⟨j, ?_⟩
    rw [hthread, update_apply]
    split
    · exact hP (hi ▸ ‹j = i› ▸ hj)
    · exact hj
  constructor
  · rw [hthread]
    exact (forall_update_iff _ fun _ u => ¬ Thread.Uses d u).2 ⟨huse, fun j _ => h.unused j⟩
  · obtain hmem | ⟨hmem, hreplaces⟩ := hmem
    · exact .inl hmem
    · rw [hmem]
      exact h.memory.imp_right (hkeeps _ hreplaces)
  · obtain hlog | ⟨hlog, hrecords⟩ := hlog
    · exact .inl hlog
    · rw [hlog]
      exact h.log.imp_right (hkeeps _ hrecords)

end Agree

/-! ## Runs -/

section Runs

variable [DecidableEq κ] {shard : κ → L} {w : World n κ ν ι} {d : Fin n} {i : ι}

variable (shard) in
structure World.Inv (w : World n κ ν ι) : Prop where
  exclusive : Held.Exclusive (w.held shard)
  allocated : ∀ d, w.dbSet d < w.next
  injective : Function.Injective w.dbSet
  within : ∀ j db obj write read cmd m, w.thread j = .locked db obj write read (some (cmd, m)) → cmd.Within write read
  database : ∀ d, w.Agree d ∨ w.Emptying d

theorem World.Inv.agree_of_quiet (h : w.Inv shard) (hquiet : ∀ j, ¬ (w.thread j).Flushes d) : w.Agree d :=
  (h.database d).elim id fun he => he.agree hquiet

theorem World.Inv.agree_of_uses (h : w.Inv shard) (huse : (w.thread i).Uses d) : w.Agree d :=
  (h.database d).resolve_right fun he => he.unused i huse

theorem World.Inv.emptying_of_flushes (h : w.Inv shard) (hflush : (w.thread i).Flushes d) : w.Emptying d :=
  (h.database d).resolve_left fun ha => ha.quiet i hflush

variable {t : Thread n κ ν} {p : Option (Command κ ν × Dataset κ ν)} {w' : World n κ ν ι}

variable {obj : Nat} {write read : List κ} {cmd : Command κ ν}

/-- A command that has not logged yet writes no key that another thread has locked, and uses none that
another has locked for writing. -/
theorem World.Inv.apart (h : w.Inv shard) (hi : w.thread i = .locked d obj write read p) {j : ι} (hj : j ≠ i)
    {m : Dataset κ ν} (hp : (w.thread j).pending d = some (cmd, m)) (k : κ) :
    (k ∈ cmd.write → k ∉ write ∧ k ∉ read) ∧ (k ∈ cmd.write ∨ k ∈ cmd.read → k ∉ write) := by
  have ha := h.agree_of_uses (Thread.uses_of_pending hp)
  obtain ⟨obj', write', read', ht⟩ := Thread.locked_of_pending hp
  have hobj : obj' = obj := by
    rw [ha.current j obj' (by rw [ht]; rfl), ha.current i obj (by rw [hi]; rfl)]
  subst hobj
  obtain ⟨hwrite, hread⟩ := h.within j d obj' write' read' cmd m ht
  have hcompat := h.exclusive j i hj
  rw [World.held, World.held, ht, hi] at hcompat
  have hmem : ∀ {l : List κ}, k ∈ l → (obj', shard k) ∈ l.map fun k => (obj', shard k) :=
    fun hk => List.mem_map_of_mem hk
  refine ⟨fun hk => ?_, fun hk hlocked => ?_⟩
  · obtain ⟨hw, hr⟩ := hcompat.1 (obj', shard k) (hmem (hwrite k hk))
    exact ⟨fun hk' => hw (hmem hk'), fun hk' => hr (hmem hk')⟩
  · obtain hk' | hk' := hk.elim (fun hk => .inl (hwrite k hk)) (hread k)
    · exact (hcompat.1 (obj', shard k) (hmem hk')).1 (hmem hlocked)
    · exact hcompat.2 (obj', shard k) (hmem hlocked) (hmem hk')

/-- No thread runs, and memory is what the log gives. -/
structure World.Loaded (w : World n κ ν ι) : Prop where
  idle : ∀ i, w.thread i = .idle
  allocated : ∀ d, w.dbSet d < w.next
  injective : Function.Injective w.dbSet
  memory : ∀ d, w.memory d = replay w.log d

theorem World.Loaded.inv (h : w.Loaded) : w.Inv shard where
  exclusive i j _ := by
    rw [World.held, World.held, h.idle i, h.idle j]
    exact Held.compatible_nothing _
  allocated := h.allocated
  injective := h.injective
  within j _ _ _ _ _ _ hj := by
    rw [h.idle j] at hj
    cases hj
  database d := by
    refine .inl ?_
    constructor <;> simp [h.idle, h.memory, Thread.Flushes, Thread.client, Thread.pending]

theorem World.memory_loadDB_self (w : World n κ ν ι) (d : Fin n) : (w.loadDB d).memory d = fun _ => none := by
  simp [World.memory, World.loadDB]

theorem World.Inv.memory_loadDB_of_ne (h : w.Inv shard) {db : Fin n} (hd : d ≠ db) :
    (w.loadDB db).memory d = w.memory d := by
  have hlt := h.allocated d
  simp only [World.memory, World.loadDB, update_of_ne hd]
  exact update_of_ne hlt.ne _ _

theorem World.Inv.allocated_loadDB (h : w.Inv shard) (db d : Fin n) : (w.loadDB db).dbSet d < (w.loadDB db).next := by
  have hlt := h.allocated d
  simp only [World.loadDB, update_apply]
  split <;> omega

theorem World.Inv.injective_loadDB (h : w.Inv shard) (db : Fin n) : Function.Injective (w.loadDB db).dbSet := by
  intro a b hab
  have ha := h.allocated a
  have hb := h.allocated b
  simp only [World.loadDB, update_apply] at hab
  grind [@h.injective a b]

variable [DecidableEq ι]

theorem World.pending_set_self : ((w.set i (.locked d obj write read p)).thread i).pending d = p := by
  simp [World.set, Thread.pending]

theorem World.thread_set_self (w : World n κ ν ι) (i : ι) (t : Thread n κ ν) : (w.set i t).thread i = t :=
  update_self ..

theorem World.thread_set_of_ne {j : ι} (hj : j ≠ i) (t : Thread n κ ν) : (w.set i t).thread j = w.thread j :=
  update_of_ne hj ..

theorem World.Agree.goOn (h : w.Agree d) (w' : World n κ ν ι) {p p' : Option (Command κ ν × Dataset κ ν)}
    (hi : w.thread i = .locked d obj write read p)
    (hthread : w'.thread = update w.thread i (.locked d obj write read p')) (hdb : w'.dbSet d = w.dbSet d) :
    (∀ j, ¬ (w'.thread j).Flushes d) ∧ ∀ j obj, (w'.thread j).client = some (d, obj) → obj = w'.dbSet d := by
  rw [hthread, hdb]
  constructor
  · exact (forall_update_iff _ fun _ u => ¬ Thread.Flushes d u).2 ⟨id, fun j _ => h.quiet j⟩
  · refine (forall_update_iff _ fun _ u => ∀ obj, Thread.client u = some (d, obj) → obj = w.dbSet d).2
      ⟨fun obj' hobj => ?_, fun j _ => h.current j⟩
    cases hobj
    exact h.current i obj (by rw [hi]; rfl)

theorem World.Inv.agree_exec (h : w.Inv shard) (hi : w.thread i = .locked d obj write read none)
    (hcmd : cmd.Within write read) : ({ w with objects := update w.objects obj (cmd.exec (w.objects obj)) }.set i
      (.locked d obj write read (some (cmd, w.objects obj)))).Agree d := by
  have ha : w.Agree d := h.agree_of_uses ⟨obj, by rw [hi]; rfl⟩
  obtain rfl : obj = w.dbSet d := ha.current i obj (by rw [hi]; rfl)
  set w' := { w with objects := update w.objects (w.dbSet d) (cmd.exec (w.objects (w.dbSet d))) }
  set t : Thread n κ ν := .locked d (w.dbSet d) write read (some (cmd, w.objects (w.dbSet d)))
  have hmem : (w'.set i t).memory d = cmd.exec (w.memory d) := update_self ..
  have hself : ((w'.set i t).thread i).pending d = some (cmd, w.memory d) := World.pending_set_self
  -- the other commands that have not logged write other keys, so memory and log agree on these
  have hagree : ∀ k, k ∈ write ∨ k ∈ read → w.memory d k = replay w.log d k := by
    intro k hk
    refine ha.settled k fun j cmd' m hj hk' => ?_
    by_cases hji : j = i
    · subst hji
      simp [hi, Thread.pending] at hj
    · obtain ⟨hw, hr⟩ := (h.apart hi hji hj k).1 hk'
      exact hk.elim hw hr
  obtain ⟨hquiet, hcurrent⟩ := ha.goOn (w'.set i t) hi rfl rfl
  refine ⟨hquiet, hcurrent, ?_, ?_, ?_⟩
  · intro j cmd' m hj k hk
    by_cases hji : j = i
    · subst hji
      rw [hself] at hj
      cases hj
      exact (hagree k (hk.elim (fun hk => .inl (hcmd.1 k hk)) (hcmd.2 k))).symm
    · rw [World.thread_set_of_ne hji] at hj
      exact ha.before j cmd' m hj k hk
  · intro j cmd' m hj k hk
    rw [hmem]
    by_cases hji : j = i
    · subst hji
      rw [hself] at hj
      cases hj
      rfl
    · rw [World.thread_set_of_ne hji] at hj
      rw [cmd.frame _ k fun hk' => ((h.apart hi hji hj k).1 hk).1 (hcmd.1 k hk')]
      exact ha.after j cmd' m hj k hk
  · intro k hk
    rw [hmem, cmd.frame _ k (hk i cmd _ hself)]
    refine ha.settled k fun j cmd' m hj => ?_
    by_cases hji : j = i
    · subst hji
      simp [hi, Thread.pending] at hj
    · exact hk j cmd' m (by rw [World.thread_set_of_ne hji]; exact hj)

theorem World.Inv.agree_log (h : w.Inv shard) {m : Dataset κ ν}
    (hi : w.thread i = .locked d obj write read (some (cmd, m))) :
    ((w.save (.command d (cmd.record m))).set i (.locked d obj write read none)).Agree d := by
  have ha : w.Agree d := h.agree_of_uses ⟨obj, by rw [hi]; rfl⟩
  have hp : (w.thread i).pending d = some (cmd, m) := by simp [hi, Thread.pending]
  have hcmd := h.within i d obj write read cmd m hi
  set t : Thread n κ ν := .locked d obj write read none
  have hlog : ∀ k, replay ((w.save (.command d (cmd.record m))).set i t).log d k =
      if k ∈ cmd.write then cmd.exec m k else replay w.log d k := by
    intro k
    simp only [World.set, World.save, replay_concat, Record.apply, update_self]
    exact cmd.faithful m _ (ha.before i cmd m hp) k
  have hself : (((w.save (.command d (cmd.record m))).set i t).thread i).pending d = none := World.pending_set_self
  have hother : ∀ {j}, j ≠ i → ((w.save (.command d (cmd.record m))).set i t).thread j = w.thread j :=
    fun hj => World.thread_set_of_ne hj t
  obtain ⟨hquiet, hcurrent⟩ := ha.goOn ((w.save (.command d (cmd.record m))).set i t) hi rfl rfl
  refine ⟨hquiet, hcurrent, ?_, ?_, ?_⟩
  · intro j cmd' m' hj k hk
    by_cases hji : j = i
    · subst hji
      rw [hself] at hj
      cases hj
    · rw [hother hji] at hj
      rw [hlog k, if_neg fun hk' => (h.apart hi hji hj k).2 hk (hcmd.1 k hk')]
      exact ha.before j cmd' m' hj k hk
  · intro j cmd' m' hj k hk
    by_cases hji : j = i
    · subst hji
      rw [hself] at hj
      cases hj
    · rw [hother hji] at hj
      exact ha.after j cmd' m' hj k hk
  · intro k hk
    rw [hlog k]
    split
    · rename_i hmem
      exact ha.after i cmd m hp k hmem
    rename_i hmem
    refine ha.settled k fun j cmd' m' hj => ?_
    by_cases hji : j = i
    · subst hji
      rw [hp] at hj
      cases hj
      exact hmem
    · exact hk j cmd' m' (by rw [hother hji]; exact hj)

theorem World.Inv.update (h : w.Inv shard) (hthread : w'.thread = update w.thread i t)
    (hheld : Held.Available (w.held shard) i (t.held shard))
    (hwithin : ∀ db obj write read cmd m, t = .locked db obj write read (some (cmd, m)) → cmd.Within write read)
    (hallocated : ∀ d, w'.dbSet d < w'.next) (hinjective : Function.Injective w'.dbSet)
    (hdatabase : ∀ d, w'.Agree d ∨ w'.Emptying d) : w'.Inv shard where
  exclusive := by
    have hupdate : w'.held shard = Function.update (w.held shard) i (t.held shard) := by
      funext j
      rw [World.held, hthread, update_apply, update_apply]
      split <;> rfl
    rw [hupdate]
    exact h.exclusive.take hheld
  allocated := hallocated
  injective := hinjective
  within := by
    rw [hthread]
    exact (forall_update_iff _ fun _ u => ∀ db obj write read (cmd : Command κ ν) m,
      u = Thread.locked db obj write read (some (cmd, m)) → cmd.Within write read).2 ⟨hwithin, fun j _ => h.within j⟩
  database := hdatabase

/-- A command and a flush of its database do not overlap. -/
def World.Apart (w : World n κ ν ι) : Event n κ ν ι → Prop
  | .select _ d => ∀ j, ¬ (w.thread j).Flushes d
  | .flushDB _ d => ∀ j, ¬ (w.thread j).Uses d
  | .flushAll _ => ∀ j d, ¬ (w.thread j).Uses d
  | _ => True

theorem World.Inv.setClient (h : w.Inv shard) {t t₀ : Thread n κ ν} (hi : w.thread i = t₀)
    (hheld : Held.Available (w.held shard) i (t.held shard)) (hold : ∀ d, t₀.pending d = none)
    (hnew : ∀ d, t.pending d = none) (hfree : ∀ d, ¬ t₀.Flushes d) (hflush : ∀ d, ¬ t.Flushes d)
    (hclient : ∀ d obj, t.client = some (d, obj) → w.Agree d ∧ obj = w.dbSet d) : (w.set i t).Inv shard := by
  refine h.update rfl hheld ?_ h.allocated h.injective fun d => ?_
  · rintro db obj write read cmd m rfl
    have hnone := hnew db
    simp [Thread.pending] at hnone
  · have hagree : w.Agree d → (w.set i t).Agree d := fun ha =>
      ha.frame hi rfl rfl rfl rfl (hold d) (hnew d) (hflush d) fun obj hobj => (hclient d obj hobj).2
    by_cases huse : t.Uses d
    · obtain ⟨obj, hobj⟩ := huse
      exact .inl (hagree (hclient d obj hobj).1)
    · refine (h.database d).imp hagree fun he => he.frame hi rfl huse (.inr ⟨rfl, fun hr => ?_⟩) (.inr ⟨rfl, fun hr => ?_⟩)
      · exact (hfree d (Thread.flushes_of_replaces hr)).elim
      · exact (hfree d (Thread.flushes_of_records hr)).elim

/-- A step of a client that changes the data or the log of its own database. -/
theorem World.Inv.setWriter (h : w.Inv shard) {db : Fin n} {p p' : Option (Command κ ν × Dataset κ ν)}
    (hi : w.thread i = .locked db obj write read p)
    (hthread : w'.thread = Function.update w.thread i (.locked db obj write read p'))
    (hwithin : ∀ cmd m, p' = some (cmd, m) → cmd.Within write read) (hdbSet : w'.dbSet = w.dbSet)
    (hnext : w'.next = w.next) (hmem : ∀ d, d ≠ db → w'.memory d = w.memory d)
    (hlog : ∀ d, d ≠ db → replay w'.log d = replay w.log d) (hagree : w'.Agree db) : w'.Inv shard := by
  refine h.update hthread ?_ ?_ ?_ ?_ fun d => ?_
  · have hheld : w.held shard i = (Thread.locked db obj write read p').held shard := by rw [World.held, hi]; rfl
    rw [← hheld]
    exact h.exclusive.available i
  · intro db' obj' write' read' cmd m ht
    cases ht
    exact hwithin cmd m rfl
  · rw [hdbSet, hnext]
    exact h.allocated
  · rw [hdbSet]
    exact h.injective
  · by_cases hd : d = db
    · subst hd
      exact .inl hagree
    have hpending : ∀ q, (Thread.locked (ν := ν) db obj write read q).pending d = none := fun q => if_neg (Ne.symm hd)
    have hclient : ∀ obj', (Thread.locked db obj write read p').client ≠ some (d, obj') := by
      intro obj' hobj
      cases hobj
      exact hd rfl
    refine (h.database d).imp (fun ha => ?_) fun he => ?_
    · exact ha.frame hi hthread (by rw [hdbSet]) (hmem d hd) (hlog d hd) (hpending p) (hpending p') id
        fun obj' hobj => (hclient obj' hobj).elim
    · exact he.frame hi hthread (fun ⟨obj', hobj⟩ => hclient obj' hobj) (.inr ⟨hmem d hd, id⟩) (.inr ⟨hlog d hd, id⟩)

/-- A step of a flush: each database is as before, or empty where the flush has got to. -/
theorem World.Inv.setFlush (h : w.Inv shard) (hthread : w'.thread = Function.update w.thread i t)
    (hheld : t.held shard = {}) (hclient : t.client = none) (hallocated : ∀ d, w'.dbSet d < w'.next)
    (hinjective : Function.Injective w'.dbSet) (hdatabase : ∀ d, w'.Agree d ∨ w'.Emptying d) : w'.Inv shard := by
  refine h.update hthread ?_ ?_ hallocated hinjective hdatabase
  · rw [hheld]
    exact Held.available_nothing _ i
  · rintro db obj write read cmd m rfl
    cases hclient

variable [DecidableEq L] [Fintype ι]

instance (w : World n κ ν ι) : (e : Event n κ ν ι) → Decidable (w.Apart e)
  | .select _ d => inferInstanceAs (Decidable (∀ j, ¬ (w.thread j).Flushes d))
  | .flushDB _ d => inferInstanceAs (Decidable (∀ j, ¬ (w.thread j).Uses d))
  | .flushAll _ => inferInstanceAs (Decidable (∀ j d, ¬ (w.thread j).Uses d))
  | .lock _ _ _ | .exec _ _ | .log _ | .unlock _ | .flush _ => .isTrue trivial

theorem World.Inv.step (h : w.Inv shard) {e : Event n κ ν ι} (hok : w.Apart e) : (w.step shard e).Inv shard := by
  cases e with
  | select i db =>
    simp only [World.step]
    split
    · rename_i hi
      refine h.setClient hi (Held.available_nothing _ i) (fun _ => rfl) (fun _ => rfl) (fun _ => id) (fun _ => id)
        fun d obj hobj => ?_
      cases hobj
      exact ⟨h.agree_of_quiet hok, rfl⟩
    · exact h
  | lock i write read =>
    simp only [World.step]
    split
    · rename_i db obj hi
      split
      · rename_i havail
        refine h.setClient hi havail (fun _ => rfl) (fun _ => ite_self _) (fun _ => id) (fun _ => id) fun d obj' hobj => ?_
        cases hobj
        have hcl : (w.thread i).client = some (db, obj) := by rw [hi]; rfl
        have ha := h.agree_of_uses ⟨obj, hcl⟩
        exact ⟨ha, ha.current i obj hcl⟩
      · exact h
    · exact h
  | exec i cmd =>
    simp only [World.step]
    split
    · rename_i db obj write read hi
      split
      · rename_i hcmd
        have hobj : obj = w.dbSet db := (h.agree_of_uses ⟨obj, by rw [hi]; rfl⟩).current i obj (by rw [hi]; rfl)
        refine h.setWriter hi rfl ?_ rfl rfl (fun d hd => ?_) (fun _ _ => rfl) (h.agree_exec hi hcmd)
        · intro cmd' m hp
          cases hp
          exact hcmd
        · refine update_of_ne ?_ _ _
          rw [hobj]
          exact fun heq => hd (h.injective heq)
      · exact h
    · exact h
  | log i =>
    simp only [World.step]
    split
    · rename_i db obj write read cmd m hi
      refine h.setWriter hi rfl (fun _ _ hp => by cases hp) rfl rfl (fun _ _ => rfl) (fun d hd => ?_) (h.agree_log hi)
      simp only [World.set, World.save, replay_concat, Record.apply]
      exact update_of_ne hd _ _
    · exact h
  | unlock i =>
    simp only [World.step]
    split
    · rename_i hi
      exact h.setClient hi (Held.available_nothing _ i) (fun _ => ite_self _) (fun _ => rfl) (fun _ => id) (fun _ => id)
        fun _ _ hobj => by cases hobj
    · exact h
  | flushDB i db =>
    simp only [World.step]
    split
    · rename_i hi
      refine h.setFlush rfl rfl rfl h.allocated h.injective fun d => ?_
      by_cases hd : d = db
      · subst hd
        refine .inr ⟨unused_update rfl hok rfl, .inr ⟨i, ?_⟩, .inl ?_⟩
        · rw [World.thread_set_self]
          rfl
        · rw [World.set, World.save, replay_concat]
          exact update_self ..
      · have hlog : replay ((w.save (.flushDB db)).set i (.flushDB db)).log d = replay w.log d := by
          rw [World.set, World.save, replay_concat]
          exact update_of_ne hd _ _
        refine (h.database d).imp (fun ha => ?_) fun he => ?_
        · exact ha.frame hi rfl rfl rfl hlog rfl rfl (Ne.symm hd) fun _ hobj => by cases hobj
        · exact he.frame hi rfl (not_uses_of_client rfl) (.inr ⟨rfl, False.elim⟩) (.inr ⟨hlog, False.elim⟩)
    · exact h
  | flushAll i =>
    simp only [World.step]
    split
    · refine h.setFlush rfl rfl rfl h.allocated h.injective fun d => .inr ?_
      refine ⟨unused_update rfl (fun j => hok j d) rfl, .inr ⟨i, ?_⟩, .inr ⟨i, ?_⟩⟩
      · rw [World.thread_set_self]
        exact List.mem_finRange d
      · rw [World.thread_set_self]
        trivial
    · exact h
  | flush i =>
    simp only [World.step]
    split
    · rename_i db hi
      refine h.setFlush rfl rfl rfl (h.allocated_loadDB db) (h.injective_loadDB db) fun d => ?_
      by_cases hd : d = db
      · subst hd
        have he : w.Emptying d := h.emptying_of_flushes (by rw [hi]; rfl)
        exact .inr (he.frame hi rfl (not_uses_of_client rfl) (.inl (w.memory_loadDB_self d)) (.inr ⟨rfl, False.elim⟩))
      · have hmem := h.memory_loadDB_of_ne hd
        refine (h.database d).imp (fun ha => ?_) fun he => ?_
        · exact ha.frame hi rfl (update_of_ne hd _ _) hmem rfl rfl rfl id fun _ hobj => by cases hobj
        · exact he.frame hi rfl (not_uses_of_client rfl) (.inr ⟨hmem, fun hr => (hd hr.symm).elim⟩) (.inr ⟨rfl, False.elim⟩)
    · rename_i db rest hi
      refine h.setFlush rfl rfl rfl (h.allocated_loadDB db) (h.injective_loadDB db) fun d => .inr ?_
      have he : w.Emptying d := h.emptying_of_flushes (by rw [hi]; trivial)
      refine he.frame hi rfl (not_uses_of_client rfl) ?_ (.inr ⟨rfl, fun _ => trivial⟩)
      by_cases hd : d = db
      · subst hd
        exact .inl (w.memory_loadDB_self d)
      · exact .inr ⟨h.memory_loadDB_of_ne hd, fun hr => List.mem_of_ne_of_mem hd hr⟩
    · rename_i hi
      refine h.setFlush rfl rfl rfl h.allocated h.injective fun d => .inr ?_
      have he : w.Emptying d := h.emptying_of_flushes (by rw [hi]; trivial)
      refine he.frame hi rfl (not_uses_of_client rfl) (.inr ⟨rfl, fun hr => (List.not_mem_nil hr).elim⟩) (.inl ?_)
      rw [World.set, World.save, replay_concat]
      rfl
    · exact h

variable (shard) in
/-- If no command overlaps with a flush of its database, then the log gives what is in memory once all
threads are done. -/
theorem replay_run (hw : w.Loaded) {events : List (Event n κ ν ι)}
    (hok : Guarded (World.step shard) World.Apart w events) (hdone : ∀ i, (w.run shard events).thread i = .idle)
    (d : Fin n) : replay (w.run shard events).log d = (w.run shard events).memory d := by
  have hinv : (w.run shard events).Inv shard := hok.run (fun _ _ h hok => h.step hok) hw.inv
  have ha : (w.run shard events).Agree d := hinv.agree_of_quiet fun j => by rw [hdone j]; exact id
  funext k
  refine (ha.settled k fun j cmd m hj => ?_).symm
  rw [hdone j] at hj
  cases hj

end Runs

/-! ## Two clients and one key -/

def set (value : Nat) : Command Unit Nat where
  write := [()]
  read := []
  exec _ _ := some value
  record _ _ _ := some value
  frame _ _ hk := absurd (List.mem_singleton.2 rfl) hk
  faithful _ _ _ _ := rfl

def start : World 1 Unit Nat (Fin 2) :=
  { objects := fun _ _ => none, next := 1, dbSet := fun _ => 0, thread := fun _ => .idle }

def writer : Fin 2 := ⟨0, Nat.two_pos⟩

def flusher : Fin 2 := ⟨1, Nat.one_lt_two⟩

def onlyDB : Fin 1 := ⟨0, Nat.one_pos⟩

def write : List (Event 1 Unit Nat (Fin 2)) :=
  [.select writer onlyDB, .lock writer [()] [], .exec writer (set 1), .log writer, .unlock writer]

theorem start_loaded : start.Loaded where
  idle _ := rfl
  allocated _ := Nat.zero_lt_one
  injective _ _ _ := Subsingleton.elim _ _
  memory _ := rfl

/-- The write comes between the two steps of FLUSHDB. -/
def flushDBRace : World 1 Unit Nat (Fin 2) := start.run id ([.flushDB flusher onlyDB] ++ write ++ [.flush flusher])

/-- The write comes between the two steps of FLUSHALL. -/
def flushAllRace : World 1 Unit Nat (Fin 2) :=
  start.run id ([.flushAll flusher, .flush flusher] ++ write ++ [.flush flusher])

/-- A write during FLUSHDB is lost in memory and comes back from the log; one during FLUSHALL stays in memory
and is not in the log. -/
theorem flush_races : ((∀ i, flushDBRace.thread i = .idle) ∧ flushDBRace.memory 0 () = none ∧
      replay flushDBRace.log 0 () = some 1) ∧
    (∀ i, flushAllRace.thread i = .idle) ∧ flushAllRace.memory 0 () = some 1 ∧
      replay flushAllRace.log 0 () = none := by
  refine ⟨⟨?_, rfl, rfl⟩, ?_, rfl, rfl⟩
  · exact Fin.forall_fin_two.2 ⟨rfl, rfl⟩
  · exact Fin.forall_fin_two.2 ⟨rfl, rfl⟩

def inTurn : List (Event 1 Unit Nat (Fin 2)) := write ++ [.flushAll flusher, .flush flusher, .flush flusher] ++ write

theorem replay_run_inTurn :
    Guarded (World.step id) World.Apart start inTurn ∧ (∀ i, (start.run id inTurn).thread i = .idle) ∧
      (start.run id inTurn).memory 0 () = some 1 ∧
      replay (start.run id inTurn).log 0 = (start.run id inTurn).memory 0 := by
  have hapart : Guarded (World.step id) World.Apart start inTurn := by decide
  have hdone : ∀ i, (start.run id inTurn).thread i = .idle := Fin.forall_fin_two.2 ⟨rfl, rfl⟩
  exact ⟨hapart, hdone, rfl, replay_run id start_loaded hapart hdone 0⟩

end Hayakv.Keyspace.Flush
