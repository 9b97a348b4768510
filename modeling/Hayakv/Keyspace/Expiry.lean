import Hayakv.Lib.Guarded
import Hayakv.Lib.Held

/-!
# Background expiry

Threads that remove expired keys while commands run: the passes of `activeExpireCycle`,
which visit keys with `expireIfNeeded`, and the callbacks of the timers that `Expire`
sets. Reading the expiry of a key under its lock, comparing it with the clock and the two
halves of `Remove` are steps of their own; what is read stays in the thread (`Place`), as
the time the thread compares with.

Commands hold the locks of their keys and may do anything to those: write a value, set,
extend, shorten or clear the expiry, remove the key. The shard of a key (`shard`) is what
is locked.

`activeHashFieldExpireCycle`, which takes no lock, is not among these threads.
-/

namespace Hayakv.Keyspace.Expiry

open Function

variable {κ ν L ι : Type}

/-- Where a thread is in `expireIfNeeded` or, from `waiting` on, in the callback of a timer. -/
inductive Place where
  | entered
  /-- The expiry was read without the lock. -/
  | peeked (expireTime : Int)
  /-- In `RWLocks`. -/
  | waiting
  | locked
  /-- The expiry was read under the lock. -/
  | reread (expireTime : Int)
  /-- In `Remove`, before `db.data.RemoveWithLock`. -/
  | expired
  /-- In `Remove`, before `db.ttlMap.Remove`. -/
  | dataRemoved
  /-- After `Remove`. -/
  | removed
  /-- In the deferred `RWUnLocks`, with the result. -/
  | leaving (reaped : Bool)
deriving DecidableEq

def Place.holds : Place → Bool
  | .entered | .peeked _ | .waiting => false
  | _ => true

/-- A database and the time. `aof` are the keys of the DEL records. -/
structure Db (κ ν : Type) where
  clock : Int
  data : κ → Option ν
  ttl : κ → Option Int
  aof : List κ := []

/-- A thread that visits a key goes to a place, or returns whether it has removed the key. -/
inductive Next where
  | place (p : Place)
  | ret (reaped : Bool)

/-- The step of a thread from its place. `logs` is set in `expireIfNeeded`; the callback of a timer
removes the key without a record. -/
def Db.visit [DecidableEq κ] (db : Db κ ν) (logs : Bool) (key : κ) : Place → Db κ ν × Next
  | .entered =>
    match db.ttl key with
    | none => (db, .ret false)
    | some expireTime => (db, .place (.peeked expireTime))
  | .peeked expireTime => if expireTime < db.clock then (db, .place .waiting) else (db, .ret false)
  | .waiting => (db, .place .locked)
  | .locked =>
    match db.ttl key with
    | none => (db, .place (.leaving false))
    | some expireTime => (db, .place (.reread expireTime))
  | .reread expireTime =>
    if expireTime < db.clock then (db, .place .expired) else (db, .place (.leaving false))
  | .expired => ({ db with data := Function.update db.data key none }, .place .dataRemoved)
  | .dataRemoved => ({ db with ttl := Function.update db.ttl key none }, .place .removed)
  | .removed => (if logs then { db with aof := db.aof ++ [key] } else db, .place (.leaving true))
  | .leaving reaped => (db, .ret reaped)

def activeExpireAcceptableStale : Nat := 25

/-- The variables of `activeExpireCycle`: `size` is the length of the sample, or 0 before it is taken,
`sample` what is left of it. -/
structure Pass (κ : Type) where
  maxLoops : Nat
  loop : Nat := 0
  size : Nat := 0
  sample : List κ := []
  expired : Nat := 0
  total : Nat := 0

def Pass.count (pass : Pass κ) : Bool → Pass κ
  | true => { pass with expired := pass.expired + 1, total := pass.total + 1 }
  | false => pass

inductive Thread (κ : Type) where
  | idle
  | command (write read : List κ)
  | timer (key : κ) (place : Place)
  | cycle (pass : Pass κ) (visit : Option (κ × Place))

def Thread.visit : Thread κ → Option (κ × Place)
  | .timer key place => some (key, place)
  | .cycle _ visit => visit
  | _ => none

def heldAt (shard : κ → L) (key : κ) (place : Place) : Held L := if place.holds then { write := [shard key] } else {}

def Thread.held (shard : κ → L) : Thread κ → Held L
  | .command write read => { write := write.map shard, read := read.map shard }
  | .timer key place => heldAt shard key place
  | .cycle _ (some (key, place)) => heldAt shard key place
  | _ => {}

inductive Op (κ ν : Type) where
  | put (key : κ) (value : ν)
  | delete (key : κ)
  | expire (key : κ) (expireTime : Int)
  | persist (key : κ)

def Op.key : Op κ ν → κ
  | .put key _ | .delete key | .expire key _ | .persist key => key

def Db.apply [DecidableEq κ] (db : Db κ ν) : Op κ ν → Db κ ν
  | .put key value => { db with data := Function.update db.data key (some value) }
  | .delete key => { db with data := Function.update db.data key none }
  | .expire key expireTime => { db with ttl := Function.update db.ttl key (some expireTime) }
  | .persist key => { db with ttl := Function.update db.ttl key none }

structure World (κ ν ι : Type) where
  db : Db κ ν
  thread : ι → Thread κ

inductive Event (κ ν ι : Type) where
  /-- The clock shows a new time; it does not run backwards. -/
  | tick (now : Int)
  | lock (i : ι) (write read : List κ)
  | op (i : ι) (o : Op κ ν)
  | unlock (i : ι)
  | fire (i : ι) (key : κ)
  | cron (i : ι) (maxLoops : Nat)
  /-- `ttlMap.RandomDistinctKeys` returns these keys; none if `ttlMap` is empty. -/
  | sample (i : ι) (keys : List κ)
  | advance (i : ι)

section Step

variable [DecidableEq κ] [DecidableEq L] [DecidableEq ι] [Fintype ι] (shard : κ → L)

variable (w : World κ ν ι)

def World.set (i : ι) (db : Db κ ν) (t : Thread κ) : World κ ν ι := { db, thread := Function.update w.thread i t }

def World.held (i : ι) : Held L := (w.thread i).held shard

/-- A thread in `RWLocks` stays there until it can have the lock. -/
def World.Blocked (i : ι) (key : κ) (place : Place) : Prop :=
  place = .waiting ∧ ¬ Held.Available (w.held shard) i { write := [shard key] }

instance (w : World κ ν ι) (i : ι) (key : κ) (place : Place) : Decidable (w.Blocked shard i key place) :=
  inferInstanceAs (Decidable (_ ∧ _))

def World.step : Event κ ν ι → World κ ν ι
  | .tick now => { w with db := { w.db with clock := max w.db.clock now } }
  | .lock i write read =>
    match w.thread i with
    | .idle =>
      if Held.Available (w.held shard) i { write := write.map shard, read := read.map shard } then
        w.set i w.db (.command write read)
      else w
    | _ => w
  | .op i o =>
    match w.thread i with
    | .command write read =>
      if o.key ∈ write ∨ o.key ∈ read then w.set i (w.db.apply o) (.command write read) else w
    | _ => w
  | .unlock i =>
    match w.thread i with
    | .command _ _ => w.set i w.db .idle
    | _ => w
  | .fire i key =>
    match w.thread i with
    | .idle => w.set i w.db (.timer key .waiting)
    | _ => w
  | .cron i maxLoops =>
    match w.thread i with
    | .idle => w.set i w.db (.cycle { maxLoops := if maxLoops = 0 then 16 else maxLoops } none)
    | _ => w
  | .sample i keys =>
    match w.thread i with
    | .cycle pass none =>
      if pass.size = 0 then
        if pass.loop < pass.maxLoops ∧ keys ≠ [] then
          w.set i w.db (.cycle { pass with size := keys.length, sample := keys, expired := 0 } none)
        else w.set i w.db .idle
      else w
    | _ => w
  | .advance i =>
    match w.thread i with
    | .timer key place =>
      if w.Blocked shard i key place then w
      else
        match w.db.visit false key place with
        | (db, .place p) => w.set i db (.timer key p)
        | (db, .ret _) => w.set i db .idle
    | .cycle pass (some (key, place)) =>
      if w.Blocked shard i key place then w
      else
        match w.db.visit true key place with
        | (db, .place p) => w.set i db (.cycle pass (some (key, p)))
        | (db, .ret reaped) => w.set i db (.cycle (pass.count reaped) none)
    | .cycle pass none =>
      match pass.sample with
      | key :: rest => w.set i w.db (.cycle { pass with sample := rest } (some (key, .entered)))
      | [] =>
        if pass.size = 0 then w
        else if pass.expired * 100 / pass.size ≤ activeExpireAcceptableStale then w.set i w.db .idle
        else w.set i w.db (.cycle { pass with loop := pass.loop + 1, size := 0 } none)
    | _ => w

def World.run (events : List (Event κ ν ι)) : World κ ν ι := events.foldl (World.step shard) w

end Step

/-! ## What a thread knows -/

def Db.Expired (db : Db κ ν) (key : κ) : Prop := ∃ t, db.ttl key = some t ∧ t < db.clock

/-- What holds of the key of a visit: what was read under the lock is what is there. -/
def Place.Ok (db : Db κ ν) (key : κ) : Place → Prop
  | .reread expireTime => db.ttl key = some expireTime
  | .expired | .dataRemoved => db.Expired key
  | _ => True

/-- The clock may go on, and the expiry of the key may only change if the thread does not hold its lock. -/
theorem Place.Ok.mono {db db' : Db κ ν} {key : κ} {place : Place} (h : place.Ok db key)
    (hclock : db.clock ≤ db'.clock) (httl : place.holds → db'.ttl key = db.ttl key) : place.Ok db' key := by
  have hexp : place.holds → db.Expired key → db'.Expired key := by
    rintro hp ⟨t, ht, hlt⟩
    exact ⟨t, (httl hp).trans ht, lt_of_lt_of_le hlt hclock⟩
  cases place with
  | reread t => exact (httl rfl).trans h
  | expired => exact hexp rfl h
  | dataRemoved => exact hexp rfl h
  | _ => trivial

section Visit

variable [DecidableEq κ] {db db' : Db κ ν} {logs : Bool} {key : κ} {place p : Place}

theorem Db.visit_cases (db : Db κ ν) (logs : Bool) (key : κ) (place : Place) :
    (place = .expired ∧ (db.visit logs key place).1 = { db with data := update db.data key none }) ∨
    (place = .dataRemoved ∧ (db.visit logs key place).1 = { db with ttl := update db.ttl key none }) ∨
    ∃ aof, (db.visit logs key place).1 = { db with aof } := by
  cases place with
  | expired => exact .inl ⟨rfl, rfl⟩
  | dataRemoved => exact .inr (.inl ⟨rfl, rfl⟩)
  | removed =>
    refine .inr (.inr ?_)
    cases logs with
    | true => exact ⟨_, rfl⟩
    | false => exact ⟨db.aof, rfl⟩
  | entered | locked | peeked t | reread t =>
    refine .inr (.inr ⟨db.aof, ?_⟩)
    simp only [Db.visit]
    split <;> rfl
  | waiting | leaving => exact .inr (.inr ⟨db.aof, rfl⟩)

theorem Db.visit_frame (db : Db κ ν) (logs : Bool) (key : κ) (place : Place) :
    (db.visit logs key place).1.clock = db.clock ∧
      ∀ k, (db.visit logs key place).1.ttl k ≠ db.ttl k → k = key ∧ place.holds := by
  obtain ⟨-, hv⟩ | ⟨rfl, hv⟩ | ⟨aof, hv⟩ := db.visit_cases logs key place
  · rw [hv]
    exact ⟨rfl, fun k hk => absurd rfl hk⟩
  · rw [hv]
    refine ⟨rfl, fun k hk => ⟨?_, rfl⟩⟩
    by_contra hne
    exact hk (update_of_ne hne _ _)
  · rw [hv]
    exact ⟨rfl, fun k hk => absurd rfl hk⟩

theorem Db.visit_removes (h : place.Ok db key) {k : κ}
    (hk : (db.visit logs key place).1.data k ≠ db.data k ∨ (db.visit logs key place).1.ttl k ≠ db.ttl k) :
    db.Expired k := by
  have hkey : ∀ {α : Type} {f : κ → Option α}, update f key none k ≠ f k → k = key := by
    intro α f hne
    by_contra hk
    exact hne (update_of_ne hk _ _)
  obtain ⟨rfl, hv⟩ | ⟨rfl, hv⟩ | ⟨aof, hv⟩ := db.visit_cases logs key place
  · rw [hv] at hk
    obtain rfl := hkey (hk.resolve_right fun hne => hne rfl)
    exact h
  · rw [hv] at hk
    obtain rfl := hkey (hk.resolve_left fun hne => hne rfl)
    exact h
  · rw [hv] at hk
    exact absurd hk (by simp)

theorem Db.visit_ok (h : place.Ok db key) (hv : db.visit logs key place = (db', .place p)) : p.Ok db' key := by
  cases place with
  | entered | peeked t =>
    simp only [Db.visit] at hv
    split at hv <;> cases hv
    trivial
  | locked =>
    simp only [Db.visit] at hv
    split at hv
    · cases hv
      trivial
    · rename_i t ht
      cases hv
      exact ht
  | reread t =>
    simp only [Db.visit] at hv
    split at hv
    · rename_i hlt
      cases hv
      exact ⟨t, h, hlt⟩
    · cases hv
      trivial
  | expired =>
    cases hv
    exact h
  | leaving => cases hv
  | waiting | dataRemoved | removed =>
    cases hv
    trivial

theorem Db.visit_holds (hv : db.visit logs key place = (db', .place p)) :
    p.holds = place.holds ∨ place = .waiting := by
  cases place with
  | entered | locked | peeked t | reread t =>
    simp only [Db.visit] at hv
    split at hv <;> cases hv <;> exact .inl rfl
  | waiting => exact .inr rfl
  | leaving => cases hv
  | expired | dataRemoved | removed =>
    cases hv
    exact .inl rfl

end Visit

/-! ## Runs -/

section Runs

variable {shard : κ → L} {w : World κ ν ι} {i : ι}

variable {key : κ} {place : Place}

theorem Thread.held_of_visit {t : Thread κ} (h : t.visit = some (key, place)) :
    t.held shard = heldAt shard key place := by
  cases t with
  | timer k p =>
    cases h
    rfl
  | cycle pass visit =>
    obtain rfl : visit = some (key, place) := h
    rfl
  | idle | command => cases h

theorem mem_heldAt (h : place.holds) : shard key ∈ (heldAt shard key place).write := by
  simp [heldAt, h]

variable (shard) in
structure World.Inv (w : World κ ν ι) : Prop where
  exclusive : Held.Exclusive (w.held shard)
  ok : ∀ i key place, (w.thread i).visit = some (key, place) → place.Ok w.db key

def World.Quiet (w : World κ ν ι) : Prop := ∀ i, w.thread i = .idle

theorem World.Quiet.inv (h : w.Quiet) : w.Inv shard where
  exclusive i j _ := by
    rw [World.held, World.held, h i, h j]
    exact Held.compatible_nothing _
  ok i key place hv := by
    rw [h i] at hv
    cases hv

section

variable [DecidableEq ι]

theorem World.thread_set_self (w : World κ ν ι) (i : ι) (db : Db κ ν) (t : Thread κ) :
    (w.set i db t).thread i = t := update_self ..

theorem World.thread_set_of_ne {j : ι} (hj : j ≠ i) (w : World κ ν ι) (db : Db κ ν) (t : Thread κ) :
    (w.set i db t).thread j = w.thread j := update_of_ne hj ..

theorem World.held_set (w : World κ ν ι) (i : ι) (db : Db κ ν) (t : Thread κ) :
    (w.set i db t).held shard = update (w.held shard) i (t.held shard) := by
  funext j
  by_cases hj : j = i
  · subst hj
    rw [World.held, World.thread_set_self, update_self]
  · rw [World.held, World.thread_set_of_ne hj, update_of_ne hj]
    rfl

variable {t : Thread κ}

/-- A step of one thread: it changes the expiry of keys that it has locked, and so of no key that another
thread visits under the lock. -/
theorem World.Inv.set (h : w.Inv shard) {db : Db κ ν} (hheld : Held.Available (w.held shard) i (t.held shard))
    (hclock : w.db.clock ≤ db.clock)
    (httl : ∀ k, db.ttl k ≠ w.db.ttl k → shard k ∈ (w.held shard i).write ∨ shard k ∈ (w.held shard i).read)
    (hown : ∀ key place, t.visit = some (key, place) → place.Ok db key) : (w.set i db t).Inv shard where
  exclusive := by
    rw [World.held_set]
    exact h.exclusive.take hheld
  ok j key place hj := by
    by_cases hji : j = i
    · subst hji
      rw [World.thread_set_self] at hj
      exact hown key place hj
    rw [World.thread_set_of_ne hji] at hj
    refine (h.ok j key place hj).mono hclock fun hp => ?_
    by_contra hne
    have hlocked : shard key ∈ (w.held shard j).write := by
      rw [World.held, Thread.held_of_visit hj]
      exact mem_heldAt hp
    have hcompat := (h.exclusive j i hji).1 (shard key) hlocked
    exact (httl key hne).elim hcompat.1 hcompat.2

theorem World.Inv.setThread (h : w.Inv shard) (hheld : Held.Available (w.held shard) i (t.held shard))
    (hown : ∀ key place, t.visit = some (key, place) → place.Ok w.db key) : (w.set i w.db t).Inv shard :=
  h.set hheld le_rfl (fun _ hk => absurd rfl hk) hown

theorem World.Inv.leave (h : w.Inv shard) (hheld : t.held shard = {}) (hvisit : t.visit = none) :
    (w.set i w.db t).Inv shard := by
  refine h.setThread ?_ fun key place hv => ?_
  · rw [hheld]
    exact Held.available_nothing _ i
  · rw [hvisit] at hv
    cases hv

end

variable [DecidableEq κ] [DecidableEq ι]

theorem World.Inv.visit (h : w.Inv shard) {logs : Bool} (hi : (w.thread i).visit = some (key, place))
    (hb : ¬ w.Blocked shard i key place) {t : Thread κ} (ht : (t.held shard = {} ∧ t.visit = none) ∨
      ∃ p, (w.db.visit logs key place).2 = .place p ∧ t.visit = some (key, p)) :
    (w.set i (w.db.visit logs key place).1 t).Inv shard := by
  have hheld : w.held shard i = heldAt shard key place := Thread.held_of_visit hi
  obtain ⟨hclock, hframe⟩ := w.db.visit_frame logs key place
  have httl : ∀ k, (w.db.visit logs key place).1.ttl k ≠ w.db.ttl k →
      shard k ∈ (w.held shard i).write ∨ shard k ∈ (w.held shard i).read := by
    intro k hk
    obtain ⟨rfl, hp⟩ := hframe k hk
    rw [hheld]
    exact .inl (mem_heldAt hp)
  obtain ⟨hnone, hv⟩ | ⟨p, hp, hv⟩ := ht
  · refine h.set ?_ hclock.ge httl fun key' place' hv' => ?_
    · rw [hnone]
      exact Held.available_nothing _ i
    · rw [hv] at hv'
      cases hv'
  · have hpair : w.db.visit logs key place = ((w.db.visit logs key place).1, .place p) := Prod.ext rfl hp
    refine h.set ?_ hclock.ge httl fun key' place' hv' => ?_
    · rw [Thread.held_of_visit hv]
      -- `RWLocks` returns when the lock is available; elsewhere the thread keeps what it holds
      obtain hsame | rfl := Db.visit_holds hpair
      · rw [show heldAt shard key p = w.held shard i by rw [hheld, heldAt, heldAt, hsame]]
        exact h.exclusive.available i
      · cases hpair
        exact not_not.1 fun hna => hb ⟨rfl, hna⟩
    · rw [hv] at hv'
      cases hv'
      exact Db.visit_ok (h.ok i key place hi) hpair

variable [DecidableEq L] [Fintype ι]

theorem World.Inv.step (h : w.Inv shard) (e : Event κ ν ι) : (w.step shard e).Inv shard := by
  cases e with
  | tick now =>
    refine ⟨h.exclusive, fun i key place hi => ?_⟩
    exact (h.ok i key place hi).mono (le_max_left _ _) fun _ => rfl
  | lock i write read =>
    simp only [World.step]
    split
    · split
      · rename_i ha
        exact h.setThread ha fun key place hv => by cases hv
      · exact h
    · exact h
  | op i o =>
    simp only [World.step]
    split
    · rename_i write read hi
      split
      · rename_i hmem
        have hheld : w.held shard i = (Thread.command write read).held shard := by rw [World.held, hi]
        refine h.set ?_ ?_ (fun k hk => ?_) fun key place hv => by cases hv
        · rw [← hheld]
          exact h.exclusive.available i
        · cases o <;> exact le_rfl
        · have hkey : k = o.key := by
            by_contra hne
            cases o with
            | put | delete => exact hk rfl
            | expire | persist => exact hk (update_of_ne hne _ _)
          subst hkey
          rw [hheld]
          exact hmem.imp List.mem_map_of_mem List.mem_map_of_mem
      · exact h
    · exact h
  | unlock i | cron i maxLoops =>
    simp only [World.step]
    split
    · exact h.leave rfl rfl
    · exact h
  | fire i key =>
    simp only [World.step]
    split
    · refine h.setThread (Held.available_nothing _ i) fun key' place hv => ?_
      cases hv
      trivial
    · exact h
  | sample i keys =>
    simp only [World.step]
    split
    · split
      · split
        · exact h.leave rfl rfl
        · exact h.leave rfl rfl
      · exact h
    · exact h
  | advance i =>
    simp only [World.step]
    split
    · rename_i key place hi
      have hvisit : (w.thread i).visit = some (key, place) := by rw [hi]; rfl
      split
      · exact h
      rename_i hb
      split
      · rename_i db p hv
        obtain rfl : (w.db.visit false key place).1 = db := by rw [hv]
        exact h.visit hvisit hb (.inr ⟨p, by rw [hv], rfl⟩)
      · rename_i db reaped hv
        obtain rfl : (w.db.visit false key place).1 = db := by rw [hv]
        exact h.visit hvisit hb (.inl ⟨rfl, rfl⟩)
    · rename_i pass key place hi
      have hvisit : (w.thread i).visit = some (key, place) := by rw [hi]; rfl
      split
      · exact h
      rename_i hb
      split
      · rename_i db p hv
        obtain rfl : (w.db.visit true key place).1 = db := by rw [hv]
        exact h.visit hvisit hb (.inr ⟨p, by rw [hv], rfl⟩)
      · rename_i db reaped hv
        obtain rfl : (w.db.visit true key place).1 = db := by rw [hv]
        exact h.visit hvisit hb (.inl ⟨rfl, rfl⟩)
    · split
      · refine h.setThread (Held.available_nothing _ i) fun key' place hv => ?_
        cases hv
        trivial
      · split
        · exact h
        · split
          · exact h.leave rfl rfl
          · exact h.leave rfl rfl
    · exact h

theorem World.Inv.run (h : w.Inv shard) (events : List (Event κ ν ι)) : (w.run shard events).Inv shard :=
  foldl_invariant (fun _ e hw => hw.step e) h events

variable (shard) in
/-- The background thread `i` takes the value or the expiry of the key away. -/
def World.Reaps (w : World κ ν ι) (i : ι) (key : κ) : Prop :=
  (w.db.data key ≠ none ∧ (w.step shard (.advance i)).db.data key = none) ∨
    (w.db.ttl key ≠ none ∧ (w.step shard (.advance i)).db.ttl key = none)

variable (shard) in
theorem World.advance_db (w : World κ ν ι) (i : ι) : (w.step shard (.advance i)).db = w.db ∨
    ∃ logs key place, (w.thread i).visit = some (key, place) ∧
      (w.step shard (.advance i)).db = (w.db.visit logs key place).1 := by
  simp only [World.step]
  split
  · rename_i key place hi
    split
    · exact .inl rfl
    refine .inr ⟨false, key, place, by rw [hi]; rfl, ?_⟩
    split
    · rename_i hv
      rw [hv]
      rfl
    · rename_i hv
      rw [hv]
      rfl
  · rename_i pass key place hi
    split
    · exact .inl rfl
    refine .inr ⟨true, key, place, by rw [hi]; rfl, ?_⟩
    split
    · rename_i hv
      rw [hv]
      rfl
    · rename_i hv
      rw [hv]
      rfl
  · refine .inl ?_
    split
    · rfl
    · split
      · rfl
      · split <;> rfl
  · exact .inl rfl

theorem World.Inv.expired_of_reaps (h : w.Inv shard) (hr : w.Reaps shard i key) : w.db.Expired key := by
  have hchange : (w.step shard (.advance i)).db.data key ≠ w.db.data key ∨
      (w.step shard (.advance i)).db.ttl key ≠ w.db.ttl key := by
    refine hr.imp ?_ ?_
    · rintro ⟨hsome, hnone⟩ heq
      exact hsome (heq.symm.trans hnone)
    · rintro ⟨hsome, hnone⟩ heq
      exact hsome (heq.symm.trans hnone)
  obtain hdb | ⟨logs, k, place, hi, hdb⟩ := World.advance_db shard w i
  · rw [hdb] at hchange
    exact absurd hchange (by simp)
  · rw [hdb] at hchange
    exact Db.visit_removes (h.ok i k place hi) hchange

variable (shard) in
/-- Whatever commands have done in between, a key that the background removes has an expiry at that
moment, and this is in the past. -/
theorem reaps_only_expired (hw : w.Quiet) (events : List (Event κ ν ι)) {key : κ}
    (hr : (w.run shard events).Reaps shard i key) :
    ∃ t, (w.run shard events).db.ttl key = some t ∧ t < (w.run shard events).db.clock :=
  (hw.inv.run events).expired_of_reaps hr

end Runs

def oneKey : World Unit Nat (Fin 2) :=
  { db := { clock := 0, data := fun _ => some 1, ttl := fun _ => some 5 }, thread := fun _ => .idle }

/-- Thread 0 has read the expiry without the lock; thread 1 then sets it to 10. -/
def extendRun : List (Event Unit Nat (Fin 2)) :=
  [.tick 6, .cron 0 1, .sample 0 [()], .advance 0, .advance 0, .advance 0,
    .lock 1 [()] [], .advance 0, .op 1 (.put () 2), .op 1 (.expire () 10), .unlock 1]

-- the extended expiry is read again, and the key stays
example : ((oneKey.run id (extendRun ++ [.advance 0, .advance 0, .advance 0, .advance 0])).db.data ()) = some 2 := by
  decide

theorem reaps_only_expired_extended :
    let w := oneKey.run id (extendRun ++ [.tick 11, .advance 0, .advance 0, .advance 0])
    oneKey.Quiet ∧ w.Reaps id 0 () ∧ ∃ t, w.db.ttl () = some t ∧ t < w.db.clock := by
  intro w
  have hquiet : oneKey.Quiet := fun _ => rfl
  have hreaps : w.Reaps id 0 () := .inl (by decide)
  exact ⟨hquiet, hreaps, reaps_only_expired id hquiet _ hreaps⟩

end Hayakv.Keyspace.Expiry
