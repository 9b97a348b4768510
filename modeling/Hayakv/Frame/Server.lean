import Hayakv.Cmd.Server
import Hayakv.Frame.Footprint

/-!
# What a request changes

In every state that a server reaches, a request leaves the keys of all databases that it does not
write, as long as none of them has a part in what it writes. `COPY` and the shared integers make keys
that do.
-/

namespace Hayakv.Cmd

open Engine Option Server Heap

namespace Server

variable {σ σ' : Server} {s : State} {now : Int} {i j : Nat} {key k : Key}

def lookup (σ : Server) (i : Nat) (key : Key) : Option Ref := σ.dbSet[i]?.bind fun db => db.data.lookup key

/-- The value and the expiry of a key of a database, if it has not expired. -/
def visible (σ : Server) (now : Int) (i : Nat) (key : Key) : Option (Entity × Option Int) :=
  if (σ.getExpiration i key).any (· < now) then none
  else (σ.lookup i key).bind fun r => (σ.heap.seen now r).map fun e => (e, σ.getExpiration i key)

section

variable (h : σ.selectDB i = some s)
include h

theorem lookup_of_selectDB : s.data.lookup key = σ.lookup i key := by
  obtain ⟨db, hdb, rfl⟩ := map_eq_some_iff.1 h
  simp [lookup, hdb]

theorem ttl_of_selectDB : s.ttl.lookup key = σ.getExpiration i key := by
  obtain ⟨db, hdb, rfl⟩ := map_eq_some_iff.1 h
  simp [getExpiration, hdb]

theorem heap_of_selectDB : s.heap = σ.heap := by
  obtain ⟨db, -, rfl⟩ := map_eq_some_iff.1 h
  rfl

theorem visible_of_selectDB : s.visible now key = σ.visible now i key := by
  unfold State.visible State.expired visible
  rw [lookup_of_selectDB h, ttl_of_selectDB h, heap_of_selectDB h]

theorem lt_of_selectDB : i < σ.dbSet.length := by
  obtain ⟨db, hdb, -⟩ := map_eq_some_iff.1 h
  exact (List.getElem?_eq_some_iff.1 hdb).1

end

theorem lookup_put_self (h : i < σ.dbSet.length) : (σ.put i s).lookup i key = s.data.lookup key := by
  simp [lookup, put, h]

theorem lookup_put_ne (h : j ≠ i) : (σ.put i s).lookup j key = σ.lookup j key := by
  simp [lookup, put, h.symm]

theorem getExpiration_put_self (h : i < σ.dbSet.length) : (σ.put i s).getExpiration i key = s.ttl.lookup key := by
  simp [getExpiration, put, h]

theorem getExpiration_put_ne (h : j ≠ i) : (σ.put i s).getExpiration j key = σ.getExpiration j key := by
  simp [getExpiration, put, h.symm]

theorem visible_put_self (h : i < σ.dbSet.length) : (σ.put i s).visible now i key = s.visible now key := by
  unfold visible State.visible State.expired
  rw [lookup_put_self h, getExpiration_put_self h]
  rfl

theorem visible_congr (hl : σ'.lookup i k = σ.lookup i k) (ht : σ'.getExpiration i k = σ.getExpiration i k)
    (hs : ∀ r, σ.lookup i k = some r → (σ.getExpiration i k).any (· < now) = false →
      σ'.heap.seen now r = σ.heap.seen now r) : σ'.visible now i k = σ.visible now i k := by
  unfold visible
  rw [hl, ht]
  split
  · rfl
  · rename_i hexp
    cases hr : σ.lookup i k with
    | none => rfl
    | some r => simp only [bind_some, hs r hr (by simpa using hexp)]

theorem getEntity_snd : (σ.getEntity now i key).2 = σ.onDB i fun s => (s.getEntity now key).2 := by
  unfold getEntity onDB
  split <;> rfl

theorem heap_getEntity : (σ.getEntity now i key).2.heap = σ.heap := by
  unfold getEntity
  split
  · rename_i s hs
    exact State.heap_getEntity.trans (heap_of_selectDB hs)
  · rfl

end Server

/-- What `execCopy` does: it looks up keys, and may then put what the source holds. -/
theorem execCopy_rule {env : Env} {cur : Nat} {args : List Bytes} {σ : Server} {P : Server → Prop}
    (start : P σ) (get : ∀ σ' i key, P σ' → P (σ'.getEntity env.now i key).2)
    (copy : ∀ src dest options i replace r, args = src :: dest :: options →
      copyOptions σ.dbSet.length options cur false = .ok (i, replace) → (σ.getEntity env.now cur src).1 = some r →
      P (copyEntity cur args src dest i r ((σ.getEntity env.now cur src).2.getEntity env.now i dest).2)) :
    P (execCopy env cur args σ).2 := by
  match args with
  | [] | [_] => exact start
  | src :: dest :: options =>
    cases hopts : copyOptions σ.dbSet.length options cur false with
    | error r => simpa [execCopy, hopts] using start
    | ok o =>
      obtain ⟨i, replace⟩ := o
      have hget := get _ cur src start
      have hgets := get _ i dest hget
      by_cases hsame : src = dest ∧ i = cur
      · simpa [execCopy, hopts, hsame] using start
      cases hsrc : σ.getEntity env.now cur src with
      | mk r σ₁ =>
        cases r with
        | none => simpa [execCopy, hopts, hsame, hsrc] using hget
        | some r =>
          have hcopy := copy src dest options i replace r rfl hopts (by rw [hsrc])
          cases hdest : σ₁.getEntity env.now i dest with
          | mk r' σ₂ =>
            rw [hsrc] at hgets hcopy
            simp only [hdest] at hgets hcopy
            cases r' with
            | none => simpa [execCopy, hopts, hsame, hsrc, hdest] using hcopy
            | some _ => cases replace <;> simpa [execCopy, hopts, hsame, hsrc, hdest]

namespace Server

variable {σ : Server}

@[simp] theorem length_put {i : Nat} {s : State} : (σ.put i s).dbSet.length = σ.dbSet.length := List.length_set

@[simp] theorem length_onDB {i : Nat} {f : State → State} : (σ.onDB i f).dbSet.length = σ.dbSet.length := by
  unfold onDB
  split <;> simp

variable {env : Env} {cmdLine : CmdLine}

theorem command_cases (env : Env) (db : Nat) (cmdLine : CmdLine) (σ : Server) :
    σ.step env (.command db cmdLine) = σ.freeMemory env cmdLine ∨ σ.step env (.command db cmdLine) =
      (σ.freeMemory env cmdLine).onDB db fun s => (execNormalCommand env cmdLine s).2 := by
  dsimp only [step, command, onDB]
  split
  · exact .inl rfl
  · exact .inr (by split <;> rfl)

theorem freeMemory_rule {P : Server → Prop} (start : P σ) (evict : ∀ {σ} v, P σ → P (σ.evict v)) :
    P (σ.freeMemory env cmdLine) := by
  unfold freeMemory
  split
  · exact List.foldlRecOn _ _ start fun _ h v _ => evict v h
  · exact start

/-- Nothing is evicted for a command without the flag, or within the limit. -/
theorem freeMemory_eq (h : ∀ name args c p, cmdLine = name :: args → findCommand (toLower name) = some c →
    c.name ∈ denyOOM → c.prepare args = some p → env.evicted = []) : σ.freeMemory env cmdLine = σ := by
  unfold freeMemory
  split
  · rename_i hdeny
    match cmdLine with
    | name :: args =>
      obtain ⟨c, hc, hc'⟩ := (any_eq_true ..).1 hdeny
      simp only [Bool.and_eq_true, decide_eq_true_eq] at hc'
      obtain ⟨p, hprep⟩ := isSome_iff_exists.1 hc'.2
      rw [h name args c p rfl hc hc'.1.1 hprep]
      rfl
  · rfl

theorem length_step (env : Env) (r : Request) : (σ.step env r).dbSet.length = σ.dbSet.length := by
  cases r with
  | command db cmdLine =>
    have hfree : (σ.freeMemory env cmdLine).dbSet.length = σ.dbSet.length :=
      freeMemory_rule (P := fun σ' => σ'.dbSet.length = σ.dbSet.length) rfl fun _ h => length_onDB.trans h
    rcases command_cases env db cmdLine σ with heq | heq <;> rw [heq]
    · exact hfree
    · exact length_onDB.trans hfree
  | load db key v t => exact length_onDB
  | flushDB db => exact List.length_set
  | flushAll => exact List.length_map _
  | copy db args =>
    refine execCopy_rule (P := fun σ' => σ'.dbSet.length = σ.dbSet.length) rfl
      (fun σ' i key h => by simpa [getEntity_snd] using h) fun src dest options i replace r _ _ _ => ?_
    simp only [copyEntity]
    split <;> simp [getEntity_snd]

end Server

theorem execNormalCommand_cases (env : Env) (cmdLine : CmdLine) : (∀ s, (execNormalCommand env cmdLine s).2 = s) ∨
    ∃ name args c W R, cmdLine = name :: args ∧ findCommand (toLower name) = some c ∧
      validateArity c.arity (c.name :: args) = true ∧ c.prepare args = some (W, R) ∧
      ∀ s, (execNormalCommand env cmdLine s).2 = (exec env c args (addVersion W s)).2 := by
  match cmdLine with
  | [] => exact Or.inl fun _ => rfl
  | name :: args =>
    cases hc : findCommand (toLower name) with
    | none => exact Or.inl fun s => by simp [execNormalCommand, hc]
    | some c =>
      by_cases harity : validateArity c.arity (name :: args) = true
      · cases hprep : c.prepare args with
        | none => exact Or.inl fun s => by simp [execNormalCommand, hc, harity, hprep]
        | some p =>
          obtain ⟨W, R⟩ := p
          refine Or.inr ⟨name, args, c, W, R, rfl, hc, harity, hprep, fun s => ?_⟩
          simp [execNormalCommand, hc, harity, hprep]
      · exact Or.inl fun s => by simp [execNormalCommand, hc, harity]

structure ServerOk (σ : Server) : Prop where
  heap : σ.heap.Ok
  data : ∀ i k r, σ.lookup i k = some r → (σ.heap.cell r).isSome

namespace ServerOk

variable {σ : Server} {s : State} {i : Nat} {f : State → State}

section

variable (ok : ServerOk σ)
include ok

theorem selectDB (h : σ.selectDB i = some s) : StateOk s := by
  have hdata : ∀ k r, s.data.lookup k = some r → (s.heap.cell r).isSome := fun k r hr => by
    rw [heap_of_selectDB h]
    exact ok.data i k r (lookup_of_selectDB h ▸ hr)
  obtain ⟨db, hdb, rfl⟩ := map_eq_some_iff.1 h
  exact ⟨ok.heap, hdata, by simp, has_none⟩

theorem put (hs : Since σ.heap s) (hi : i < σ.dbSet.length) : ServerOk (σ.put i s) where
  heap := hs.heap
  data j k r hr := by
    by_cases hj : j = i
    · subst hj
      exact hs.data k r (lookup_put_self hi ▸ hr)
    · rw [lookup_put_ne hj] at hr
      exact hs.grows.cell (ok.data j k r hr)

theorem since (h : σ.selectDB i = some s) : Since σ.heap s := heap_of_selectDB h ▸ (ok.selectDB h).since

theorem onDB (hf : ∀ s, Since σ.heap s → Since σ.heap (f s)) : ServerOk (σ.onDB i f) := by
  unfold Server.onDB
  split
  · rename_i s hs
    exact ok.put (hf s (ok.since hs)) (lt_of_selectDB hs)
  · exact ok

theorem getEntity {now : Int} {key : Key} : ServerOk (σ.getEntity now i key).2 := by
  rw [getEntity_snd]
  exact ok.onDB fun _ hs => hs.getEntity

theorem isSome_getEntity {now : Int} {key : Key} {r : Ref}
    (h : (σ.getEntity now i key).1 = some r) : (σ.heap.cell r).isSome := by
  unfold Server.getEntity at h
  split at h
  · rename_i s hs
    split at h
    · cases h
    · exact heap_of_selectDB hs ▸ (ok.selectDB hs).data key r h
  · cases h

end

variable {args : List Bytes}

theorem copyEntity (ok : ServerOk σ) {cur : Nat} {src dest : Key} {r : Ref} (hr : (σ.heap.cell r).isSome) :
    ServerOk (copyEntity cur args src dest i r σ) := by
  have hput : ServerOk (σ.onDB i (·.putRef dest r)) := ok.onDB fun s hs => hs.putRef (hs.grows.cell hr)
  cases ht : (σ.onDB i (·.putRef dest r)).getExpiration cur src with
  | none =>
    simp only [Cmd.copyEntity, ht]
    exact ⟨hput.heap, hput.data⟩
  | some t =>
    simp only [Cmd.copyEntity, ht]
    have hexpire := hput.onDB (i := i) (f := fun s => { s with ttl := putField dest t s.ttl }) fun s hs => { hs with }
    exact ⟨hexpire.heap, hexpire.data⟩

variable {env : Env}

theorem execCopy (ok : ServerOk σ) {cur : Nat} : ServerOk (execCopy env cur args σ).2 := by
  refine execCopy_rule ok (fun σ' i key h => h.getEntity) fun src dest options i replace r _ _ hr => ?_
  refine ServerOk.copyEntity ok.getEntity.getEntity ?_
  rw [heap_getEntity, heap_getEntity]
  exact ok.isSome_getEntity hr

variable {h₀ : Heap}

theorem exec (hs : Since h₀ s) {c : Command} : Since h₀ (exec env c args s).2 := by
  have hstart : Since h₀ { s with bound := [], work := none } :=
    { hs with
      bound := by simp
      work := has_none }
  exact hstart.run env _

theorem execNormalCommand (hs : Since h₀ s) {cmdLine : CmdLine} : Since h₀ (execNormalCommand env cmdLine s).2 := by
  rcases execNormalCommand_cases env cmdLine with heq | ⟨_, _, _, _, _, _, _, _, _, heq⟩
  · exact (heq s).symm ▸ hs
  · exact (heq s).symm ▸ exec (s := addVersion _ s) { hs with }

theorem loadEntity (hs : Since h₀ s) {key : Key} {v : Loaded} {t : Option Int} : Since h₀ (loadEntity env key v t s) := by
  have hload : Since h₀ (Cmd.loadEntity env key v none s) := by
    cases v with
    | str b =>
      exact (hs.newArray.newCell Since.has_newArray).putRef (isSome_newCell _ _)
    | coll c => exact (hs.newCell has_none).putRef (isSome_newCell _ _)
  cases t with
  | none => exact hload
  | some t => exact { hload with }

theorem step (ok : ServerOk σ) (env : Env) (r : Request) : ServerOk (σ.step env r) := by
  cases r with
  | command db cmdLine =>
    have hfree : ServerOk (σ.freeMemory env cmdLine) :=
      freeMemory_rule ok fun _ h => h.onDB fun s hs => { hs.remove with }
    rcases command_cases env db cmdLine σ with heq | heq <;> rw [heq]
    · exact hfree
    · exact hfree.onDB fun s hs => execNormalCommand hs
  | copy db args => exact ok.execCopy
  | flushDB db =>
    refine ⟨ok.heap, fun j k r hr => ?_⟩
    by_cases hj : j = db
    · subst hj
      by_cases hlt : j < σ.dbSet.length <;> simp [Server.lookup, Server.step, flushDB, makeDB, hlt] at hr
    · refine ok.data j k r ?_
      simpa [Server.lookup, Server.step, flushDB, Ne.symm hj] using hr
  | flushAll =>
    refine ⟨ok.heap, fun j k r hr => ?_⟩
    by_cases hlt : j < σ.dbSet.length <;> simp [Server.lookup, Server.step, flushAll, makeDB, hlt] at hr
  | load db key v t => exact ok.onDB fun s hs => loadEntity hs

theorem of_reachable {databases : Nat} (h : Server.Reachable databases σ) : ServerOk σ := by
  induction h with
  | start =>
    refine ⟨⟨by simp [newServer, empty], fun r c sl hc hsl => ?_⟩, fun i k r hr => ?_⟩
    · cases r with
      | shared n =>
        cases hc
        cases hsl
      | heap i => simp [newServer, empty, cell] at hc
    · by_cases hlt : i < databases <;> simp [lookup, newServer, makeDB, hlt] at hr
  | step env r _ ih => exact ih.step env r

end ServerOk

/-! ## What stays as it was -/

namespace Server

variable {σ : Server} {now : Int} {i j : Nat} {key k : Key} {f : State → State}

/-- A function that leaves what a key of its database shows leaves it on the server, and that of the
other databases, if it leaves the objects that the server holds. -/
theorem visible_onDB (hf : ∀ s, σ.selectDB i = some s → j = i → (f s).visible now k = s.visible now k)
    (hs : ∀ s r, σ.selectDB i = some s → j ≠ i → σ.lookup j k = some r →
      (σ.getExpiration j k).any (· < now) = false → (f s).heap.seen now r = s.heap.seen now r) :
    (σ.onDB i f).visible now j k = σ.visible now j k := by
  unfold onDB
  split
  · rename_i s hsel
    by_cases hj : j = i
    · subst hj
      rw [visible_put_self (lt_of_selectDB hsel), hf s hsel rfl, visible_of_selectDB hsel]
    · refine visible_congr (lookup_put_ne hj) (getExpiration_put_ne hj) fun r hr hexp => ?_
      exact (hs s r hsel hj hr hexp).trans (by rw [heap_of_selectDB hsel])
  · rfl

theorem visible_getEntity : (σ.getEntity now i key).2.visible now j k = σ.visible now j k := by
  have hstate : ∀ s : State, (s.getEntity now key).2.visible now k = s.visible now k := by
    intro s
    unfold State.getEntity
    split
    · rfl
    split
    · rename_i hexp
      by_cases hk : k = key
      · subst hk
        rw [State.visible_of_gone (Or.inl hexp), State.visible_of_gone (Or.inr ?_)]
        simp [State.remove, lookup_removeField]
      · refine State.visible_congr ?_ ?_ fun _ _ => rfl <;> simp [State.remove, lookup_removeField, hk]
    · split <;> rfl
  rw [getEntity_snd]
  exact visible_onDB (fun s _ _ => hstate s) fun s r _ _ _ _ => by rw [State.heap_getEntity]

theorem visible_copyEntity {cur : Nat} {args : List Bytes} {src dest : Key} {r : Ref} (hk : ¬(j = i ∧ k = dest)) :
    (copyEntity cur args src dest i r σ).visible now j k = σ.visible now j k := by
  have hput : (σ.onDB i (·.putRef dest r)).visible now j k = σ.visible now j k := by
    refine visible_onDB (fun s _ hj => State.visible_congr ?_ rfl fun _ _ => rfl) fun s r _ _ _ _ => rfl
    simp [State.putRef, lookup_putField, show k ≠ dest from fun h => hk ⟨hj, h⟩]
  cases ht : (σ.onDB i (·.putRef dest r)).getExpiration cur src with
  | none =>
    simp only [copyEntity, ht]
    exact hput
  | some t =>
    simp only [copyEntity, ht]
    refine Eq.trans (visible_onDB (fun s _ hj => State.visible_congr rfl ?_ fun _ _ => rfl)
      fun s r _ _ _ _ => rfl) hput
    simp [lookup_putField, show k ≠ dest from fun h => hk ⟨hj, h⟩]

end Server

/-- The keys that a request writes: those that its command declares, and the destination of `COPY`. -/
def Request.Writes (σ : Server) (i : Nat) (k : Key) : Request → Prop
  | .command _ [] => False
  | .command db (name :: args) =>
    i = db ∧ ∃ c ∈ findCommand (toLower name), ∃ p ∈ c.prepare args, k ∈ p.1
  | .copy db (_ :: dest :: options) =>
    k = dest ∧ ∃ replace, copyOptions σ.dbSet.length options db false = .ok (i, replace)
  | .copy .. => False
  | .flushDB db => i = db
  | .flushAll => True
  | .load db key _ _ => i = db ∧ k = key

end Hayakv.Cmd

namespace Hayakv.Frame

open Engine Cmd

/-- What a command of a server needs for no key outside of those that it declares to be changed: no
key of any database has a part in what it writes. -/
structure Separate (env : Env) (σ : Server) (db : Nat) (c : Command) (args : List Bytes) (W : List Key) : Prop where
  declared : ∀ s, σ.selectDB db = some s → Declared env.now s c.name args W
  apart : ∀ k ∈ W, ∀ i k', ¬(i = db ∧ k' ∈ W) → ∀ r r', σ.lookup db k = some r →
    σ.lookup i k' = some r' → σ.visible env.now i k' ≠ none →
    Apart σ.heap (c.name = "bitfield") r r'
  /-- No key is evicted for the command. -/
  evicted : c.name ∈ denyOOM → env.evicted = []

def Request.Separate (env : Env) (σ : Server) : Request → Prop
  | .command db (name :: args) => ∀ c W R, findCommand (toLower name) = some c →
    c.prepare args = some (W, R) → Frame.Separate env σ db c args W
  | _ => True

section server

variable {env : Env} {σ : Server} {db i : Nat} {k : Key}

theorem visible_addVersion {keys : List Key} {s : State} {now : Int} :
    (addVersion keys s).visible now k = s.visible now k := rfl

/-- A command that keeps to the scope of the keys `W` leaves all other keys, if these have no part in them. -/
theorem visible_exec (ok : ServerOk σ) {c : Command} {args : List Bytes} {V W : List Key} {apart : Prop}
    (hkeeps : ∀ s, σ.selectDB db = some s →
      Scope.Keeps ⟨(· ∈ W), fun k => k ∉ W ∧ s.visible env.now k = none, True⟩ (fun _ => True) apart
        (c.executor env (execWithLock env (lineFuel (c.name :: args))) args))
    (hapart : ∀ k ∈ W, ∀ i k', ¬(i = db ∧ k' ∈ W) → ∀ r r', σ.lookup db k = some r →
      σ.lookup i k' = some r' → σ.visible env.now i k' ≠ none → Apart σ.heap apart r r') (hW : ¬(i = db ∧ k ∈ W)) :
    (σ.onDB db fun s => (exec env c args (addVersion V s)).2).visible env.now i k = σ.visible env.now i k := by
  -- what is held from outside: by the other keys of all databases
  let refs : Ref → Prop := fun r => ∃ i k, ¬(i = db ∧ k ∈ W) ∧ σ.visible env.now i k ≠ none ∧ σ.lookup i k = some r
  have hframe : ∀ s, σ.selectDB db = some s → ∃ g, Inv ⟨(· ∈ W), fun k => k ∉ W ∧
      s.visible env.now k = none, True⟩ (outsideOf (addVersion V s).heap refs) env.now (addVersion V s) g
        (exec env c args (addVersion V s)).2 := by
    intro s hsel
    have hheap := Server.heap_of_selectDB hsel
    refine exec_frame (s := addVersion V s) { ok.selectDB hsel with } (hkeeps s hsel) ?_ ?_
    · rintro r ⟨i, k, -, -, hr⟩
      exact hheap ▸ ok.data i k r hr
    · rintro k hk r r' hr ⟨i, k', hW', hv, hr'⟩
      exact hheap ▸ hapart k hk i k' hW' r r' (Server.lookup_of_selectDB hsel ▸ hr) hr' hv
  refine Server.visible_onDB (fun s hsel hi => ?_) fun s r hsel hi hr hexp => ?_
  · obtain ⟨g, hinv⟩ := hframe s hsel
    refine hinv.visible { ok.selectDB hsel with } (fun h => hW ⟨hi, h⟩) fun hv r hr => ?_
    rw [visible_addVersion, Server.visible_of_selectDB hsel] at hv
    exact ⟨db, k, fun h => hW ⟨hi, h.2⟩, hv, Server.lookup_of_selectDB hsel ▸ hr⟩
  · obtain ⟨g, hinv⟩ := hframe s hsel
    refine hinv.seen ⟨i, k, fun h => hi h.1, ?_, hr⟩
    obtain ⟨c, hcell⟩ := Option.isSome_iff_exists.1 (ok.data i k r hr)
    simp [Server.visible, hr, hexp, Heap.seen, hcell]

theorem visible_execNormalCommand (ok : ServerOk σ) {cmdLine : CmdLine}
    (hsep : Request.Separate env σ (.command db cmdLine)) (hk : ¬(Request.command db cmdLine).Writes σ i k) :
    (σ.onDB db fun s => (execNormalCommand env cmdLine s).2).visible env.now i k = σ.visible env.now i k := by
  rcases execNormalCommand_cases env cmdLine with heq | ⟨name, args, c, W, R, rfl, hc, harity, hprep, heq⟩
  · simp only [heq]
    exact Server.visible_onDB (fun _ _ _ => rfl) fun _ _ _ _ _ _ => rfl
  · simp only [heq]
    have hs := hsep c W R hc hprep
    exact visible_exec ok (fun s hsel => keeps_declared (List.mem_of_find?_eq_some hc) harity hprep (hs.declared s hsel))
      hs.apart fun h => hk ⟨h.1, c, hc, (W, R), hprep, h.2⟩

theorem seen_loadEntity {s : State} (ok : StateOk s) {now : Int} {key : Key} {v : Loaded} {t : Option Int}
    {r : Ref} (hr : (s.heap.cell r).isSome) : (loadEntity env key v t s).heap.seen now r = s.heap.seen now r := by
  have hnew : ∀ v, (loadEntity env key v none s).heap.seen now r = s.heap.seen now r := by
    rintro (b | c)
    · have hcell := s.heap.cell_newArray r b (env.spare b.length)
      exact (Heap.seen_newCell ((congrArg Option.isSome hcell).trans hr)).trans ok.heap.seen_newArray
    · exact Heap.seen_newCell hr
  cases t with
  | none => exact hnew v
  | some t => exact hnew v

theorem lookup_loadEntity {s : State} {key : Key} {v : Loaded} {t : Option Int} (hk : k ≠ key) :
    (loadEntity env key v t s).data.lookup k = s.data.lookup k ∧
      (loadEntity env key v t s).ttl.lookup k = s.ttl.lookup k := by
  cases v <;> cases t <;> simp [loadEntity, State.putRef, lookup_putField, hk]

theorem visible_step (ok : ServerOk σ) {r : Request} (hr : Request.Separate env σ r) (hk : ¬r.Writes σ i k) :
    (σ.step env r).visible env.now i k = σ.visible env.now i k := by
  cases r with
  | command db cmdLine =>
    have hfree : σ.freeMemory env cmdLine = σ := Server.freeMemory_eq fun name args c p hline hc hname hprep => by
      subst hline
      exact (hr c p.1 p.2 hc hprep).evicted hname
    rcases Server.command_cases env db cmdLine σ with heq | heq <;> rw [heq, hfree]
    exact visible_execNormalCommand ok hr hk
  | copy db args =>
    refine execCopy_rule (P := fun σ' => σ'.visible env.now i k = σ.visible env.now i k) rfl
      (fun σ' i key h => Server.visible_getEntity.trans h) fun src dest options j replace r hargs hopts _ => ?_
    subst hargs
    rw [Server.visible_copyEntity, Server.visible_getEntity, Server.visible_getEntity]
    rintro ⟨rfl, rfl⟩
    exact hk ⟨rfl, replace, hopts⟩
  | flushDB db =>
    have hi : i ≠ db := hk
    refine Server.visible_congr ?_ ?_ fun _ _ _ => rfl
    · simp [Server.lookup, Server.step, flushDB, hi.symm]
    · simp [Server.getExpiration, Server.step, flushDB, hi.symm]
  | flushAll => exact absurd trivial hk
  | load db key v t =>
    refine Server.visible_onDB (fun s hsel hi => ?_) fun s r hsel hi hr _ => ?_
    · obtain ⟨hd, ht⟩ := lookup_loadEntity (v := v) (t := t) (show k ≠ key from fun h => hk ⟨hi, h⟩)
      exact State.visible_congr hd ht fun r hr => seen_loadEntity (ok.selectDB hsel) ((ok.selectDB hsel).data k r hr)
    · exact seen_loadEntity (ok.selectDB hsel) (Server.heap_of_selectDB hsel ▸ ok.data i k r hr)

def runRequests (now : Int) (rs : List Request) : Server := rs.foldl (Server.step (.plain now)) (newServer 2)

theorem reachable_runRequests (now : Int) (rs : List Request) : Server.Reachable 2 (runRequests now rs) :=
  List.foldlRecOn rs _ .start fun _ h r _ => .step _ r h

end server

end Hayakv.Frame
