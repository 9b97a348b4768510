import Hayakv.Cmd.Cluster
import Hayakv.Object.SimpleDict
import Mathlib.Algebra.Order.BigOperators.Group.List

/-!
# Eviction under `maxmemory`

`internal/command/evict.go`: `freeMemoryIfNeeded` estimates the memory in use, and evicts keys, one for each pass of
its loop, until the estimate is within the limit. What a sample of keys holds, and how a key was used, is up to an
`Oracle`.

The estimate of a structure is that of its pointer, a key that is the empty string is taken for no candidate, and the
loop ends after `maxEvictLoops` passes. `eviction_iff`: the data stays within the limit, and eviction gives up only when
no eligible key is left, if and only if none of this matters to a dataset.
-/

namespace Hayakv.Keyspace.Evict

open Engine List Prod List

/-! ## Databases -/

structure Db where
  data : List (Key × Entity)
  ttl : List (Key × Int)
  nodup : (data.map fst).Nodup
  ttl_subset : ∀ k ∈ ttl.map fst, k ∈ data.map fst

def Db.remove (db : Db) (key : Key) : Db where
  data := removeField key db.data
  ttl := removeField key db.ttl
  nodup := Object.nodup_removeField db.nodup
  ttl_subset k hk := by
    obtain ⟨e, he, rfl⟩ := mem_map.1 hk
    obtain ⟨he, hne⟩ := mem_filter.1 he
    obtain ⟨d, hd, heq⟩ := mem_map.1 (db.ttl_subset e.1 (mem_map_of_mem he))
    exact mem_map.2 ⟨d, mem_filter.2 ⟨hd, by rw [heq]; exact hne⟩, heq⟩

def estimateEntitySize (e : Key × Entity) : Int := 56 + e.1.length + Cmd.valueSize e.2

def usedMemory (dbs : List Db) : Int := (dbs.map fun db => (db.data.map estimateEntitySize).sum).sum

def payload : Value → Nat
  | .str _ b => (b.getD []).length
  | .coll (.list l) => (l.elems.map length).sum
  | .coll (.hash h) => (h.fields.map fun e => e.1.length + e.2.length).sum
  | .coll (.set s) => (s.members.map length).sum
  | .coll (.zset z) => (z.entries.map fun e => e.1.length).sum
  | .coll (.stream s) => (s.entries.map fun e => (e.fields.map fun f => f.1.length + f.2.length).sum).sum

def payloadBytes (dbs : List Db) : Int :=
  (dbs.map fun db => (db.data.map fun e => (e.1.length + payload e.2.value : Int)).sum).sum

/-! ## Candidates -/

inductive Kind
  | random | ttl | lfu | lru

/-- `maxmemory-policy`, other than `noeviction`. -/
structure Policy where
  isVolatile : Bool
  kind : Kind

/-- The keys that a policy may evict. -/
def Policy.eligible (p : Policy) (db : Db) : List Key := if p.isVolatile then db.ttl.map fst else db.data.map fst

theorem Policy.eligible_subset (p : Policy) (db : Db) : p.eligible db ⊆ db.data.map fst := by
  intro k hk
  rw [Policy.eligible] at hk
  split at hk
  · exact db.ttl_subset k hk
  · exact hk

/-- What the code does not determine: which keys are sampled in a pass and a database (`RandomDistinctKeys`), and their
LFU counters and idle times there. -/
structure Oracle where
  sample : Nat → Nat → List Key → List Key
  counter : Nat → Nat → Key → UInt8
  idle : Nat → Nat → Key → UInt32
  subset : ∀ n i ks, sample n i ks ⊆ ks
  nonempty : ∀ n i ks, ks ≠ [] → sample n i ks ≠ []

variable (better : Key → Key → Bool)

/-- The best key of a sample, with the empty string for none. -/
def best (sample : List Key) : Key := sample.foldl (fun b k => if b = [] || better k b then k else b) []

def evictionCandidates (o : Oracle) (n i : Nat) (kind : Kind) (db : Db) (sample : List Key) : Key :=
  match kind with
  | .random => sample.headD []
  | .ttl =>
    let at? := fun k => (db.ttl.lookup k).getD 0
    let b := best (fun k b => at? k < at? b) (sample.filter fun k => (db.ttl.lookup k).isSome)
    if b = [] then sample.headD [] else b
  | .lfu => best (fun k b => o.counter n i k < o.counter n i b) sample
  | .lru => best (fun k b => o.idle n i b < o.idle n i k) sample

theorem foldl_best (ks : List Key) (b : Key) :
    let r := ks.foldl (fun b k => if b = [] || better k b then k else b) b
    (r = b ∨ r ∈ ks) ∧ ((∀ k ∈ ks, k ≠ []) → (b ≠ [] ∨ ks ≠ []) → r ≠ []) := by
  induction ks generalizing b with
  | nil => exact ⟨.inl rfl, fun _ h => h.resolve_right fun h => h rfl⟩
  | cons k ks ih =>
    obtain ⟨hmem, hne⟩ := ih (if b = [] || better k b then k else b)
    refine ⟨?_, fun hks _ => hne (fun k' hk' => hks k' (mem_cons_of_mem _ hk')) (.inl ?_)⟩
    · rcases hmem with h | h
      · rw [foldl_cons, h]
        split
        · exact .inr mem_cons_self
        · exact .inl rfl
      · exact .inr (mem_cons_of_mem _ h)
    · split
      · exact hks k mem_cons_self
      · rename_i hb
        simp only [Bool.or_eq_true, decide_eq_true_eq, not_or] at hb
        exact hb.1

theorem best_mem (ks : List Key) : best better ks = [] ∨ best better ks ∈ ks := (foldl_best better ks []).1

theorem best_ne_nil {ks : List Key} (hks : ∀ k ∈ ks, k ≠ []) (h : ks ≠ []) : best better ks ≠ [] :=
  (foldl_best better ks []).2 hks (.inr h)

section candidates

variable {o : Oracle} {n i : Nat} {kind : Kind} {db : Db} {sample : List Key}

theorem headD_mem (h : sample ≠ []) : sample.headD [] ∈ sample := by
  cases sample with
  | nil => exact absurd rfl h
  | cons k ks => exact mem_cons_self

theorem evictionCandidates_mem (h : sample ≠ []) (hne : evictionCandidates o n i kind db sample ≠ []) :
    evictionCandidates o n i kind db sample ∈ sample := by
  cases kind with
  | random => exact headD_mem h
  | lfu | lru => exact (best_mem _ _).resolve_left hne
  | ttl =>
    simp only [evictionCandidates]
    split
    · exact headD_mem h
    · rename_i hb
      exact (mem_filter.1 ((best_mem _ _).resolve_left hb)).1

theorem evictionCandidates_ne_nil (h : sample ≠ []) (hks : ∀ k ∈ sample, k ≠ []) :
    evictionCandidates o n i kind db sample ≠ [] := by
  cases kind with
  | random => exact hks _ (headD_mem h)
  | lfu | lru => exact best_ne_nil _ hks h
  | ttl =>
    simp only [evictionCandidates]
    split
    · exact hks _ (headD_mem h)
    · rename_i hb
      exact hb

end candidates

/-! ## Eviction -/

/-- `evictOneKeyWithSize`, from database `i` on: what it frees, and what is left. -/
def evictOneKeyWithSize (o : Oracle) (p : Policy) (n : Nat) : Nat → List Db → Option (Int × List Db)
  | _, [] => none
  | i, db :: dbs =>
    let skip := (evictOneKeyWithSize o p n (i + 1) dbs).map fun r => (r.1, db :: r.2)
    if p.eligible db = [] then skip
    else
      let sample := o.sample n i (p.eligible db)
      let key := evictionCandidates o n i p.kind db sample
      if sample = [] || key = [] then skip
      else some (((db.data.lookup key).map fun e => estimateEntitySize (key, e)).getD 0, db.remove key :: dbs)

def maxEvictLoops : Nat := 100000

/-- The loop of `freeMemoryIfNeeded`, with the passes that are left. -/
def evictLoop (o : Oracle) (p : Policy) (limit : Int) : Nat → Int → List Db → Bool × List Db
  | 0, current, dbs => (current ≤ limit, dbs)
  | n + 1, current, dbs =>
    if current ≤ limit then (true, dbs)
    else
      match evictOneKeyWithSize o p n 0 dbs with
      | none => (false, dbs)
      | some (freed, dbs') => evictLoop o p limit n (current - freed) dbs'

/-- `freeMemoryIfNeeded`; no policy is `noeviction`. -/
def freeMemoryIfNeeded (o : Oracle) (limit : Int) (policy : Option Policy) (dbs : List Db) : Bool × List Db :=
  if limit ≤ 0 then (true, dbs)
  else
    match policy with
    | none => (usedMemory dbs ≤ limit, dbs)
    | some p => if usedMemory dbs ≤ limit then (true, dbs) else evictLoop o p limit maxEvictLoops (usedMemory dbs) dbs

def size (dbs : List Db) : Nat := (dbs.map fun db => db.data.length).sum

/-- A key of the eligible ones is removed from one of the databases. -/
def Evicts (p : Policy) (dbs : List Db) (freed : Int) (dbs' : List Db) : Prop :=
  ∃ pre db post key e, dbs = pre ++ db :: post ∧ dbs' = pre ++ db.remove key :: post ∧ db.data.lookup key = some e ∧
    key ∈ p.eligible db ∧ freed = estimateEntitySize (key, e)

theorem evictOneKeyWithSize_cases {o : Oracle} {p : Policy} {n i : Nat} {dbs dbs' : List Db} {freed : Int}
    (h : evictOneKeyWithSize o p n i dbs = some (freed, dbs')) : Evicts p dbs freed dbs' := by
  induction dbs generalizing i dbs' with
  | nil => cases h
  | cons db dbs ih =>
    have hskip : (evictOneKeyWithSize o p n (i + 1) dbs).map (fun r => (r.1, db :: r.2)) = some (freed, dbs') →
        Evicts p (db :: dbs) freed dbs' := by
      intro h
      obtain ⟨⟨freed', rest⟩, hr, heq⟩ := Option.map_eq_some_iff.1 h
      cases heq
      obtain ⟨pre, db', post, key, e, rfl, rfl, hrest⟩ := ih hr
      exact ⟨db :: pre, db', post, key, e, rfl, rfl, hrest⟩
    simp only [evictOneKeyWithSize] at h
    split at h
    · exact hskip h
    split at h
    · exact hskip h
    rename_i hb
    simp only [Bool.or_eq_true, decide_eq_true_eq, not_or] at hb
    have hkey := o.subset n i _ (evictionCandidates_mem hb.1 hb.2)
    obtain ⟨e, he⟩ := Option.isSome_iff_exists.1 (Object.isSome_lookup.2 (p.eligible_subset db hkey))
    rw [he] at h
    cases h
    exact ⟨[], db, dbs, _, e, rfl, rfl, he, hkey, rfl⟩

/-- Where no key is the empty string, eviction gives up only when none is left. -/
theorem evictOneKeyWithSize_none {o : Oracle} {p : Policy} {n i : Nat} {dbs : List Db}
    (hne : ∀ db ∈ dbs, ∀ e ∈ db.data, e.1 ≠ []) (h : evictOneKeyWithSize o p n i dbs = none) :
    ∀ db ∈ dbs, p.eligible db = [] := by
  induction dbs generalizing i with
  | nil => exact fun db hdb => absurd hdb not_mem_nil
  | cons db dbs ih =>
    obtain ⟨hdb, hdbs⟩ := forall_mem_cons.1 hne
    have hkeys : ∀ k ∈ p.eligible db, k ≠ [] := by
      intro k hk
      obtain ⟨e, he, rfl⟩ := mem_map.1 (p.eligible_subset db hk)
      exact hdb e he
    simp only [evictOneKeyWithSize] at h
    split at h
    · rename_i hnil
      exact forall_mem_cons.2 ⟨hnil, ih hdbs (Option.map_eq_none_iff.1 h)⟩
    rename_i hsome
    have hsample := o.nonempty n i _ hsome
    have hcand : evictionCandidates o n i p.kind db (o.sample n i (p.eligible db)) ≠ [] :=
      evictionCandidates_ne_nil hsample fun k hk => hkeys k (o.subset n i _ hk)
    rw [if_neg (by simp [hsample, hcand])] at h
    cases h

/-! ## What an eviction changes -/

theorem perm_removeField {es : List (Key × Entity)} (hnd : (es.map fst).Nodup) {key : Key} {e : Entity}
    (h : es.lookup key = some e) : es.Perm ((key, e) :: removeField key es) := by
  induction es with
  | nil => cases h
  | cons d es ih =>
    obtain ⟨k, v⟩ := d
    obtain ⟨hk, hnd⟩ := nodup_cons.1 hnd
    by_cases heq : key = k
    · subst heq
      rw [lookup_cons_self] at h
      cases h
      have hrest : removeField key ((key, e) :: es) = es := by
        rw [removeField, filter_cons_of_neg (by simp)]
        refine filter_eq_self.2 fun d hd => decide_eq_true fun heq => hk ?_
        exact mem_map.2 ⟨d, hd, heq⟩
      rw [hrest]
    · have hlook : es.lookup key = some e := by
        rwa [lookup_cons, beq_eq_false_iff_ne.2 heq] at h
      have hrest : removeField key ((k, v) :: es) = (k, v) :: removeField key es :=
        filter_cons_of_pos (decide_eq_true (Ne.symm heq))
      rw [hrest]
      exact ((ih hnd hlook).cons (k, v)).trans (List.Perm.swap ..)

section evicts

variable {p : Policy} {dbs dbs' : List Db} {freed : Int}

theorem Evicts.usedMemory (h : Evicts p dbs freed dbs') : usedMemory dbs' = usedMemory dbs - freed := by
  obtain ⟨pre, db, post, key, e, rfl, rfl, he, -, rfl⟩ := h
  have hsum := ((perm_removeField db.nodup he).map estimateEntitySize).sum_eq
  simp only [Evict.usedMemory, map_append, map_cons, sum_append, sum_cons, hsum, Db.remove]
  omega

theorem Evicts.size (h : Evicts p dbs freed dbs') : size dbs = size dbs' + 1 := by
  obtain ⟨pre, db, post, key, e, rfl, rfl, he, -, rfl⟩ := h
  have hlen := (perm_removeField db.nodup he).length_eq
  rw [length_cons] at hlen
  simp only [Evict.size, map_append, map_cons, sum_append, sum_cons, hlen, Db.remove]
  omega

def Db.Sub (db' db : Db) : Prop := db'.data.Sublist db.data ∧ db'.ttl.Sublist db.ttl

/-- Only keys that the policy may evict are gone. -/
def Db.Evicted (policy : Option Policy) (db' db : Db) : Prop :=
  db'.Sub db ∧ ∀ e ∈ db.data, e ∉ db'.data → ∃ p, policy = some p ∧ e.1 ∈ p.eligible db

theorem Db.Evicted.refl (policy : Option Policy) (db : Db) : db.Evicted policy db :=
  ⟨⟨List.Sublist.refl _, List.Sublist.refl _⟩, fun _ he hne => absurd he hne⟩

theorem Policy.eligible_mono {db db' : Db} (h : db'.Sub db) : p.eligible db' ⊆ p.eligible db := by
  rw [eligible, eligible]
  split
  · exact (h.2.map _).subset
  · exact (h.1.map _).subset

variable {policy : Option Policy}

theorem Db.Evicted.trans {a b c : Db} (hab : a.Evicted policy b) (hbc : b.Evicted policy c) : a.Evicted policy c := by
  refine ⟨⟨hab.1.1.trans hbc.1.1, hab.1.2.trans hbc.1.2⟩, fun e he hne => ?_⟩
  by_cases hb : e ∈ b.data
  · obtain ⟨p, hp, helig⟩ := hab.2 e hb hne
    exact ⟨p, hp, p.eligible_mono hbc.1 helig⟩
  · exact hbc.2 e he hb

theorem forall₂_evicted_refl (policy : Option Policy) (dbs : List Db) : List.Forall₂ (Db.Evicted policy) dbs dbs :=
  forall₂_same.2 fun db _ => Db.Evicted.refl policy db

theorem forall₂_evicted_trans {as bs cs : List Db} (hab : List.Forall₂ (Db.Evicted policy) as bs)
    (hbc : List.Forall₂ (Db.Evicted policy) bs cs) : List.Forall₂ (Db.Evicted policy) as cs := by
  induction hab generalizing cs with
  | nil => exact hbc
  | cons hd _ ih =>
    cases hbc with
    | cons hd' hrest => exact .cons (hd.trans hd') (ih hrest)

theorem Evicts.forall₂ (h : Evicts p dbs freed dbs') : List.Forall₂ (Db.Evicted (some p)) dbs' dbs := by
  obtain ⟨pre, db, post, key, e, rfl, rfl, he, helig, rfl⟩ := h
  refine rel_append (forall₂_evicted_refl _ pre) (.cons ⟨⟨filter_sublist, filter_sublist⟩, ?_⟩
    (forall₂_evicted_refl _ post))
  intro d hd hne
  have hkey : d.1 = key := by
    by_contra hk
    exact hne (mem_filter.2 ⟨hd, decide_eq_true hk⟩)
  exact ⟨p, rfl, hkey ▸ helig⟩

end evicts

/-! ## The loop -/

/-- What the loop returns: it has evicted eligible keys, at most one in each pass, and either the estimate is within the
limit, or no candidate was found, or the passes are used up. -/
structure Looped (o : Oracle) (p : Policy) (limit : Int) (n : Nat) (dbs : List Db) (r : Bool × List Db) : Prop where
  evicted : List.Forall₂ (Db.Evicted (some p)) r.2 dbs
  bound : size dbs ≤ size r.2 + n
  outcome : (r.1 = true ∧ usedMemory r.2 ≤ limit) ∨
    (r.1 = false ∧ limit < usedMemory r.2 ∧ ((∃ m, evictOneKeyWithSize o p m 0 r.2 = none) ∨ size dbs = size r.2 + n))

theorem looped_evictLoop (o : Oracle) (p : Policy) (limit : Int) (n : Nat) (dbs : List Db) :
    Looped o p limit n dbs (evictLoop o p limit n (usedMemory dbs) dbs) := by
  induction n generalizing dbs with
  | zero =>
    refine ⟨forall₂_evicted_refl _ dbs, le_rfl, ?_⟩
    by_cases hle : usedMemory dbs ≤ limit
    · exact .inl ⟨decide_eq_true hle, hle⟩
    · exact .inr ⟨decide_eq_false hle, by simpa [evictLoop] using hle, .inr rfl⟩
  | succ n ih =>
    rw [evictLoop]
    split
    · rename_i hle
      exact ⟨forall₂_evicted_refl _ dbs, Nat.le_add_right _ _, .inl ⟨rfl, hle⟩⟩
    rename_i hgt
    cases hone : evictOneKeyWithSize o p n 0 dbs with
    | none =>
      exact ⟨forall₂_evicted_refl _ dbs, Nat.le_add_right _ _, .inr ⟨rfl, by simpa using hgt, .inl ⟨n, hone⟩⟩⟩
    | some r =>
      obtain ⟨freed, dbs'⟩ := r
      have hev := evictOneKeyWithSize_cases hone
      have hrest := ih dbs'
      rw [hev.usedMemory] at hrest
      have hsize := hev.size
      refine ⟨forall₂_evicted_trans hrest.evicted hev.forall₂, ?_, ?_⟩
      · have := hrest.bound
        simp only at this ⊢
        omega
      · refine hrest.outcome.imp_right fun ⟨hfalse, hlt, hstop⟩ => ⟨hfalse, hlt, hstop.imp_right fun heq => ?_⟩
        simp only at heq ⊢
        omega

/-! ## The bound -/

/-- What `freeMemoryIfNeeded` is for. -/
structure Bounded (limit : Int) (policy : Option Policy) (dbs : List Db) (r : Bool × List Db) : Prop where
  within : r.1 = true → 0 < limit → payloadBytes r.2 ≤ limit
  givenUp : ∀ p, policy = some p → r.1 = false → ∀ db ∈ r.2, p.eligible db = []
  evicted : List.Forall₂ (Db.Evicted policy) r.2 dbs

def Covered (e : Key × Entity) : Prop := (payload e.2.value : Int) ≤ 56 + Cmd.valueSize e.2

/-- No estimate is too low, no key is the empty string, and there are not too many keys. -/
structure Small (dbs : List Db) : Prop where
  covered : ∀ db ∈ dbs, ∀ e ∈ db.data, Covered e
  named : ∀ db ∈ dbs, ∀ e ∈ db.data, e.1 ≠ []
  count : size dbs ≤ maxEvictLoops

theorem valueSize_nonneg (e : Entity) : 0 ≤ Cmd.valueSize e := by
  have hsum : ∀ {α : Type} (f : α → Int) (xs : List α), (∀ x, 0 ≤ f x) → 0 ≤ (xs.map f).sum := by
    intro α f xs hf
    refine sum_nonneg fun y hy => ?_
    obtain ⟨x, -, rfl⟩ := mem_map.1 hy
    exact hf x
  refine Int.add_nonneg (by split <;> decide) ?_
  split
  · decide
  · omega
  · exact hsum _ _ fun e => by
      dsimp only
      omega
  · exact hsum _ _ fun m => by omega
  · decide

section bounds

variable {dbs dbs' : List Db}

theorem payloadBytes_le (h : ∀ db ∈ dbs, ∀ e ∈ db.data, Covered e) : payloadBytes dbs ≤ usedMemory dbs := by
  refine sum_le_sum fun db hdb => sum_le_sum fun e he => ?_
  have hcov := h db hdb e he
  rw [Covered] at hcov
  rw [estimateEntitySize]
  omega

theorem size_le_usedMemory (dbs : List Db) : 56 * (size dbs : Int) ≤ usedMemory dbs := by
  have hdb : ∀ es : List (Key × Entity), 56 * (es.length : Int) ≤ (es.map estimateEntitySize).sum := by
    intro es
    induction es with
    | nil => exact le_rfl
    | cons e es ih =>
      have hnonneg := valueSize_nonneg e.2
      rw [map_cons, sum_cons, length_cons, estimateEntitySize]
      omega
  induction dbs with
  | nil => exact le_rfl
  | cons db dbs ih =>
    have hfirst := hdb db.data
    simp only [size, usedMemory, map_cons, sum_cons] at ih ⊢
    omega

theorem data_eq_nil (h : size dbs = 0) : ∀ db ∈ dbs, db.data = [] := by
  intro db hdb
  have hle := single_le_sum (fun _ _ => Nat.zero_le _) _ (mem_map_of_mem (f := fun db : Db => db.data.length) hdb)
  rw [size] at h
  exact length_eq_zero_iff.1 (by omega)

theorem usedMemory_eq_zero (h : size dbs = 0) : usedMemory dbs = 0 := by
  refine sum_eq_zero fun x hx => ?_
  obtain ⟨db, hdb, rfl⟩ := mem_map.1 hx
  rw [data_eq_nil h db hdb]
  rfl

theorem Small.mono (h : Small dbs) (hsub : List.Forall₂ Db.Sub dbs' dbs) : Small dbs' := by
  have hmem : ∀ db' ∈ dbs', ∀ e ∈ db'.data, ∃ db ∈ dbs, e ∈ db.data := by
    clear h
    induction hsub with
    | nil => exact fun _ hdb => absurd hdb not_mem_nil
    | cons hd _ ih =>
      intro db' hdb' e he
      rcases mem_cons.1 hdb' with rfl | hdb'
      · exact ⟨_, mem_cons_self, hd.1.subset he⟩
      · obtain ⟨db, hdb, hmem⟩ := ih db' hdb' e he
        exact ⟨db, mem_cons_of_mem _ hdb, hmem⟩
  have hsize : size dbs' ≤ size dbs := by
    clear h hmem
    induction hsub with
    | nil => exact le_rfl
    | cons hd _ ih =>
      have hlen := hd.1.length_le
      simp only [size, map_cons, sum_cons] at ih ⊢
      omega
  refine ⟨fun db' hdb' e he => ?_, fun db' hdb' e he => ?_, hsize.trans h.count⟩
  · obtain ⟨db, hdb, he'⟩ := hmem db' hdb' e he
    exact h.covered db hdb e he'
  · obtain ⟨db, hdb, he'⟩ := hmem db' hdb' e he
    exact h.named db hdb e he'

theorem Small.bounded (h : Small dbs) (o : Oracle) (limit : Int) (policy : Option Policy) :
    Bounded limit policy dbs (freeMemoryIfNeeded o limit policy dbs) := by
  have hpay := payloadBytes_le h.covered
  rw [freeMemoryIfNeeded.eq_def]
  split
  · rename_i hle
    exact ⟨fun _ hpos => (by omega), fun _ _ hfalse => (by cases hfalse), forall₂_evicted_refl _ dbs⟩
  rename_i hpos
  cases policy with
  | none =>
    refine ⟨fun htrue _ => hpay.trans (of_decide_eq_true htrue), ?_, forall₂_evicted_refl _ dbs⟩
    exact fun _ hp => by cases hp
  | some p =>
    simp only
    split
    · rename_i hle
      exact ⟨fun _ _ => hpay.trans hle, fun _ _ hfalse => (by cases hfalse), forall₂_evicted_refl _ dbs⟩
    have hloop := looped_evictLoop o p limit maxEvictLoops dbs
    have hsmall := h.mono (hloop.evicted.imp fun _ _ hev => hev.1)
    refine ⟨fun htrue _ => ?_, ?_, hloop.evicted⟩
    · rcases hloop.outcome with ⟨-, hle⟩ | ⟨hfalse, -⟩
      · exact (payloadBytes_le hsmall.covered).trans hle
      · rw [htrue] at hfalse
        cases hfalse
    · rintro _ ⟨⟩ hfalse
      rcases hloop.outcome with ⟨htrue, -⟩ | ⟨-, hlt, ⟨m, hnone⟩ | hsize⟩
      · rw [htrue] at hfalse
        cases hfalse
      · exact evictOneKeyWithSize_none hsmall.named hnone
      · -- all keys have been evicted, so nothing is used
        have hcount := h.count
        rw [usedMemory_eq_zero (by omega)] at hlt
        omega

/-! ## When it fails -/

def allKeys : Oracle where
  sample _ _ ks := ks
  counter _ _ _ := 0
  idle _ _ _ := 0
  subset _ _ _ := List.Subset.refl _
  nonempty _ _ _ h := h

/-- `allkeys-random`. -/
def allKeysRandom : Policy := ⟨false, .random⟩

theorem evictOneKeyWithSize_unnamed {n i : Nat} (h : ∀ db ∈ dbs, ∀ e ∈ db.data, e.1 = []) :
    evictOneKeyWithSize allKeys allKeysRandom n i dbs = none := by
  induction dbs generalizing i with
  | nil => rfl
  | cons db dbs ih =>
    obtain ⟨hdb, hdbs⟩ := forall_mem_cons.1 h
    have hcand : evictionCandidates allKeys n i .random db (db.data.map fst) = [] := by
      cases hd : db.data with
      | nil => rfl
      | cons e es => exact hdb e (by rw [hd]; exact mem_cons_self)
    have helig : allKeysRandom.eligible db = db.data.map fst := rfl
    have hsample : allKeys.sample n i (db.data.map fst) = db.data.map fst := rfl
    have hkind : allKeysRandom.kind = .random := rfl
    simp only [evictOneKeyWithSize, ih hdbs, Option.map_none, helig, hsample, hkind, hcand, decide_true, Bool.or_true,
      if_true, ite_self]

/-- A database with one key, and no TTL. -/
def Db.single (e : Key × Entity) : Db := ⟨[e], [], nodup_cons.2 ⟨not_mem_nil, nodup_nil⟩, fun _ h => absurd h not_mem_nil⟩

def Db.empty : Db := ⟨[], [], nodup_nil, fun _ h => absurd h not_mem_nil⟩

theorem exists_alone {db : Db} {e : Key × Entity} (hdb : db ∈ dbs) (he : e ∈ db.data) :
    ∃ dbs', List.Forall₂ Db.Sub dbs' dbs ∧ Db.single e ∈ dbs' ∧ (∀ db ∈ dbs', ∀ e' ∈ db.data, e' = e) ∧
      usedMemory dbs' = estimateEntitySize e ∧ payloadBytes dbs' = e.1.length + payload e.2.value := by
  have hempty : ∀ dbs : List Db, List.Forall₂ Db.Sub (dbs.map fun _ => Db.empty) dbs ∧
      usedMemory (dbs.map fun _ => Db.empty) = 0 ∧ payloadBytes (dbs.map fun _ => Db.empty) = 0 := by
    intro dbs
    induction dbs with
    | nil => exact ⟨.nil, rfl, rfl⟩
    | cons db dbs ih =>
      obtain ⟨hsub, hused, hpay⟩ := ih
      refine ⟨.cons ⟨nil_sublist _, nil_sublist _⟩ hsub, ?_, ?_⟩
      · rw [← hused, map_cons, usedMemory, map_cons, sum_cons]
        exact Int.zero_add _
      · rw [← hpay, map_cons, payloadBytes, map_cons, sum_cons]
        exact Int.zero_add _
  obtain ⟨pre, post, rfl⟩ := append_of_mem hdb
  refine ⟨(pre.map fun _ => Db.empty) ++ Db.single e :: post.map fun _ => Db.empty, ?_, by simp, ?_, ?_, ?_⟩
  · refine rel_append (hempty pre).1 (.cons ⟨singleton_sublist.2 he, nil_sublist _⟩ (hempty post).1)
  · intro db' hdb' e' he'
    simp only [mem_append, mem_map, mem_cons] at hdb'
    rcases hdb' with ⟨_, _, rfl⟩ | rfl | ⟨_, _, rfl⟩
    · cases he'
    · exact mem_singleton.1 he'
    · cases he'
  · have hpre := (hempty pre).2.1
    have hpost := (hempty post).2.1
    simp only [usedMemory, map_append, map_cons, sum_append, sum_cons, Db.single, map_nil, sum_nil] at hpre hpost ⊢
    omega
  · have hpre := (hempty pre).2.2
    have hpost := (hempty post).2.2
    simp only [payloadBytes, map_append, map_cons, sum_append, sum_cons, Db.single, map_nil, sum_nil] at hpre hpost ⊢
    omega

/-- Eviction keeps what is left of a dataset within the limit if and only if no estimate in it is too low, no key is
the empty string, and there are not too many keys. -/
theorem eviction_iff (dbs : List Db) : (∀ dbs', List.Forall₂ Db.Sub dbs' dbs → ∀ o limit policy,
      Bounded limit policy dbs' (freeMemoryIfNeeded o limit policy dbs')) ↔ Small dbs := by
  refine ⟨fun h => ⟨fun db hdb e he => ?_, fun db hdb e he hnil => ?_, ?_⟩,
    fun h dbs' hsub o limit policy => (h.mono hsub).bounded o limit policy⟩
  · -- the estimate is the limit
    obtain ⟨dbs', hsub, -, -, hused, hpay⟩ := exists_alone hdb he
    have hpos : 0 < estimateEntitySize e := by
      have := valueSize_nonneg e.2
      rw [estimateEntitySize]
      omega
    have hb := (h dbs' hsub allKeys (estimateEntitySize e) none).within
    rw [freeMemoryIfNeeded, if_neg (by omega), hused] at hb
    have hle := hb (decide_eq_true le_rfl) hpos
    rw [hpay, estimateEntitySize] at hle
    rw [Covered]
    omega
  · -- the only candidate is the empty string
    obtain ⟨dbs', hsub, hsingle, hall, hused, -⟩ := exists_alone hdb he
    have hgt : ¬ usedMemory dbs' ≤ 1 := by
      have := valueSize_nonneg e.2
      rw [hused, estimateEntitySize]
      omega
    have hnone : ∀ n, evictOneKeyWithSize allKeys allKeysRandom n 0 dbs' = none := fun n =>
      evictOneKeyWithSize_unnamed fun db hdb e' he' => (hall db hdb e' he').symm ▸ hnil
    have hb := (h dbs' hsub allKeys 1 (some allKeysRandom)).givenUp allKeysRandom rfl
    rw [freeMemoryIfNeeded, if_neg (by decide)] at hb
    simp only [if_neg hgt, maxEvictLoops, evictLoop, hnone] at hb
    exact absurd (hb trivial _ hsingle) (by simp [Policy.eligible, allKeysRandom, Db.single])
  · -- with a limit of 1 all keys must go
    have hrefl : List.Forall₂ Db.Sub dbs dbs := forall₂_same.2 fun _ _ => ⟨List.Sublist.refl _, List.Sublist.refl _⟩
    have hb := h dbs hrefl allKeys 1 (some allKeysRandom)
    have hused := size_le_usedMemory dbs
    rw [freeMemoryIfNeeded, if_neg (by decide)] at hb
    split at hb
    · omega
    have hloop := looped_evictLoop allKeys allKeysRandom 1 maxEvictLoops dbs
    generalize evictLoop allKeys allKeysRandom 1 maxEvictLoops (usedMemory dbs) dbs = r at hb hloop
    have hbound := hloop.bound
    have hleft := size_le_usedMemory r.2
    rcases hloop.outcome with ⟨-, hle⟩ | ⟨hfalse, -⟩
    · omega
    have hzero : size r.2 = 0 := by
      refine sum_eq_zero fun x hx => ?_
      obtain ⟨db, hdb, rfl⟩ := mem_map.1 hx
      have helig := hb.givenUp allKeysRandom rfl hfalse db hdb
      rw [length_eq_zero_iff]
      exact map_eq_nil_iff.1 helig
    omega

def bigHash : Key × Entity := ("h", ⟨true, .coll (.hash ⟨[("f", replicate 200 0)], true, []⟩)⟩)

/-- A hash of 202 bytes passes for 89, under a limit of 100. -/
theorem eviction_unbounded :
    freeMemoryIfNeeded allKeys 100 (some allKeysRandom) [Db.single bigHash] = (true, [Db.single bigHash]) ∧
      payloadBytes [Db.single bigHash] = 202 ∧
      ¬ Bounded 100 (some allKeysRandom) [Db.single bigHash] (true, [Db.single bigHash]) := by
  have hpay : payloadBytes [Db.single bigHash] = 202 := by decide +kernel
  refine ⟨rfl, hpay, fun h => ?_⟩
  have hle := h.within rfl (by decide)
  simp only [hpay] at hle
  omega

end bounds

end Hayakv.Keyspace.Evict
