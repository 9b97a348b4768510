import Hayakv.Dict.Invariant
import Hayakv.Lib.Machine
import Hayakv.Lib.Represents

/-!
# `RedisDict` is a finite map

What each method does to the entries (`Inv.put`, `Inv.putIfAbsent`, …), and from
that a simulation of the dict by a finite map: every call answers as the map
does, whatever calls came before (`redisDict_refines_map`).
-/

namespace Hayakv.Dict

open Chained List Finmap RedisDict

variable {V : Type*}

namespace RedisDict

/-! ## What the methods do to the entries -/

variable {d : RedisDict V} {key : Bytes}

theorem Inv.insertNew (h : d.Inv) (val : V) (hf : d.findEntry key = none) (hroom : d.count + 1 ≤ d.capacity) :
    (d.insertNew key val).Inv ∧ (d.insertNew key val).entries ~ (key, val) :: d.entries := by
  obtain ⟨hc, hins⟩ := (h.inv_tableOf key).insert (key, val)
  obtain ⟨rest, hold, hnew, hinv⟩ := h.modifyTable (f := (·.insert (key, val))) hc (d.count + 1)
  have hes : (d.insertNew key val).entries ~ (key, val) :: d.entries :=
    hnew.trans ((hins.append_right _).trans (hold.symm.cons _))
  refine ⟨hinv ?_ ?_ hroom, hes⟩
  · exact (hes.map _).nodup_iff.2 (nodup_cons.2 ⟨h.findEntry_eq_none.1 hf, h.nodup⟩)
  · change d.count + 1 = ((d.insertNew key val).entries.length : Int)
    rw [hes.length_eq, length_cons, h.count]
    push_cast
    ring

theorem Inv.setVal (h : d.Inv) {old : V} (val : V) (hf : d.findEntry key = some old) :
    (d.modifyTable key (·.setVal key val)).Inv ∧ ∃ rest, d.entries ~ (key, old) :: rest ∧
        (d.modifyTable key (·.setVal key val)).entries ~ (key, val) :: rest := by
  obtain ⟨trest, htab, hset, -, -⟩ := (h.inv_tableOf key).split hf
  obtain ⟨hnew, hc⟩ := hset val
  obtain ⟨rest, hold, hes, hinv⟩ := h.modifyTable (f := (·.setVal key val)) hc d.count
  have hd : { d.modifyTable key (·.setVal key val) with count := d.count } =
      d.modifyTable key (·.setVal key val) := by
    rw [RedisDict.modifyTable]
    split <;> rfl
  rw [hd] at hes hinv
  have hold' := hold.trans (htab.append_right rest)
  have hnew' := hes.trans (hnew.append_right rest)
  refine ⟨hinv ?_ ?_ h.room, _, hold', hnew'⟩
  · have hnd := (hold'.map Prod.fst).nodup_iff.1 h.nodup
    exact (hnew'.map _).nodup_iff.2 hnd
  · rw [hnew'.length_eq, h.count, hold'.length_eq]
    rfl

theorem Inv.unlink (h : d.Inv) {old : V} (hf : d.findEntry key = some old) :
    Inv { d.modifyTable key (·.unlink key) with count := d.count - 1 } ∧
      ∃ rest, d.entries ~ (key, old) :: rest ∧
        entries { d.modifyTable key (·.unlink key) with count := d.count - 1 } ~ rest := by
  obtain ⟨trest, htab, -, hnew, hc⟩ := (h.inv_tableOf key).split hf
  obtain ⟨rest, hold, hes, hinv⟩ := h.modifyTable (f := (·.unlink key)) hc (d.count - 1)
  have hold' := hold.trans (htab.append_right rest)
  have hnew' := hes.trans (hnew.append_right rest)
  refine ⟨hinv ?_ ?_ ?_, _, hold', hnew'⟩
  · have hnd := (hold'.map Prod.fst).nodup_iff.1 h.nodup
    exact (hnew'.map _).nodup_iff.2 (nodup_cons.1 hnd).2
  · rw [hnew'.length_eq, h.count, hold'.length_eq, cons_append, length_cons]
    push_cast
    ring
  · have := h.room
    omega

/-- `Remove` finds the key in the table of the key, although it looks in both. -/
theorem Inv.remove_eq (h : d.Inv) (key : Bytes) : d.remove key = match d.rehashStep.findEntry key with
      | some v => ({ d.rehashStep.modifyTable key (·.unlink key) with count := d.count - 1 }, some v, 1)
      | none => (d.rehashStep, none, 0) := by
  have hstep : (if d.isRehashing then d.rehashStep else d) = d.rehashStep := by
    by_cases hr : d.isRehashing <;> simp [hr, RedisDict.rehashStep]
  obtain ⟨hinv, -, -⟩ := h.rehashStep
  have hcount := rehashStep_count d
  rw [remove, hstep]
  generalize d.rehashStep = d' at hinv hcount ⊢
  rcases hinv.phase with hi | ⟨ht1, i, hr⟩
  · have hin := hi.inTable1 key
    have htab : d'.tableOf key = d'.table0 := by simp [tableOf, hin]
    simp only [findEntry, htab, hi.isRehashing]
    cases d'.table0.findEntry key with
    | none => rfl
    | some v => simp [RedisDict.modifyTable, hin, hcount]
  have hnd := hinv.nodup
  rw [hr.entries, Chained.keys, map_append] at hnd
  have hf0 : ∀ v, d'.table0.findEntry key = some v → (key, v) ∈ d'.table0.entries := fun v =>
    (hinv.inv0.findEntry_eq_some (hnd.sublist (sublist_append_left _ _))).1
  have hf1 : ∀ v, ht1.findEntry key = some v → (key, v) ∈ ht1.entries := fun v =>
    (hr.inv1.findEntry_eq_some (hnd.sublist (sublist_append_right _ _))).1
  have hin := hr.inTable1 key
  by_cases hlt : d'.table0.index key < i
  · have hnone : d'.table0.findEntry key = none := by
      rw [Option.eq_none_iff_forall_ne_some]
      intro v hv
      exact absurd hlt (Nat.not_lt.2 (hr.left _ (hf0 v hv)))
    have htab : d'.tableOf key = ht1 := by simp [tableOf, hin, hlt, hr.table1]
    simp only [findEntry, hnone, hr.isRehashing, if_true, hr.table1, htab]
    cases hv : ht1.findEntry key with
    | none => rfl
    | some v => simp [RedisDict.modifyTable, hin, hlt, hr.table1, hcount]
  · have htab : d'.tableOf key = d'.table0 := by simp [tableOf, hin, hlt]
    simp only [findEntry, htab]
    cases hv : d'.table0.findEntry key with
    | some v => simp [RedisDict.modifyTable, hin, hlt, hcount]
    | none =>
      have hnone : ht1.findEntry key = none := by
        rw [Option.eq_none_iff_forall_ne_some]
        intro v hv
        exact hlt (hr.moved _ (hf1 v hv))
      simp [hr.isRehashing, hr.table1, hnone]

end RedisDict

/-! ## The dict and the map as machines -/

/-- A call of the `Dict` interface. -/
inductive Op (V : Type*)
  | put (key : Bytes) (val : V)
  | putIfAbsent (key : Bytes) (val : V)
  | putIfExists (key : Bytes) (val : V)
  | remove (key : Bytes)
  | get (key : Bytes)
  | len
  | clear

inductive Resp (V : Type*)
  | result (n : Int)
  | value (val : Option V) (found : Bool)
  | removed (val : Option V) (n : Int)
  | done
deriving DecidableEq

/-- The calls on a `RedisDict`. -/
def redisMachine : Machine (RedisDict V) (Op V) (Resp V) where
  step d
    | .put key val => let (d, n) := d.put key val; (d, .result n)
    | .putIfAbsent key val => let (d, n) := d.putIfAbsent key val; (d, .result n)
    | .putIfExists key val => let (d, n) := d.putIfExists key val; (d, .result n)
    | .remove key => let (d, v, n) := d.remove key; (d, .removed v n)
    | .get key => let (v, found) := d.get key; (d, .value v found)
    | .len => (d, .result d.len)
    | .clear => (d.clear, .done)

/-- The same calls on a finite map. -/
def mapMachine : Machine (Finmap fun _ : Bytes => V) (Op V) (Resp V) where
  step m
    | .put key val => (m.insert key val, .result (if key ∈ m then 0 else 1))
    | .putIfAbsent key val => if key ∈ m then (m, .result 0) else (m.insert key val, .result 1)
    | .putIfExists key val => if key ∈ m then (m.insert key val, .result 1) else (m, .result 0)
    | .remove key => (m.erase key, .removed (m.lookup key) (if key ∈ m then 1 else 0))
    | .get key => (m, .value (m.lookup key) (decide (key ∈ m)))
    | .len => (m, .result m.keys.card)
    | .clear => (∅, .done)

/-- The dict is well formed and its entries are those of the map. -/
def Refines (d : RedisDict V) (m : Finmap fun _ : Bytes => V) : Prop := d.Inv ∧ Represents d.entries m

namespace Refines

variable {d : RedisDict V} {m : Finmap fun _ : Bytes => V}

theorem findEntry (h : Refines d m) (key : Bytes) : d.findEntry key = m.lookup key := by
  ext v
  rw [h.1.findEntry_eq_some, h.2.mem]

variable {key : Bytes}

section

variable (h : Refines d m)
include h

theorem mem_iff : key ∈ m ↔ (d.findEntry key).isSome := by
  rw [h.findEntry, lookup_isSome]

theorem prepare : Refines d.startRehashIfNeeded.rehashStep m := ⟨h.1.prepare.1, h.2.of_perm h.1.prepare.2.1⟩

theorem rehashStep : Refines d.rehashStep m := ⟨h.1.rehashStep.1, h.2.of_perm h.1.rehashStep.2.1⟩

theorem insertNew (val : V) (hf : d.findEntry key = none) (hroom : d.count + 1 ≤ d.capacity) :
    Refines (d.insertNew key val) (m.insert key val) := by
  obtain ⟨hinv, hes⟩ := h.1.insertNew val hf hroom
  have hk : key ∉ m := by simp [h.mem_iff, hf]
  exact ⟨hinv, (h.2.cons hk val).of_perm hes⟩

theorem setVal {old : V} (val : V) (hf : d.findEntry key = some old) :
    Refines (d.modifyTable key (·.setVal key val)) (m.insert key val) := by
  obtain ⟨hinv, rest, hold, hnew⟩ := h.1.setVal val hf
  exact ⟨hinv, ((h.2.of_perm hold.symm).replace val).of_perm hnew⟩

theorem put (key : Bytes) (val : V) : Refines (d.put key val).1 (m.insert key val) ∧
      (d.put key val).2 = if key ∈ m then 0 else 1 := by
  have h' := h.prepare
  have hroom := h.1.prepare.2.2
  simp only [RedisDict.put, h'.mem_iff]
  cases hf : d.startRehashIfNeeded.rehashStep.findEntry key with
  | some old => exact ⟨h'.setVal val hf, by simp⟩
  | none => exact ⟨h'.insertNew val hf (by simpa using hroom), by simp⟩

theorem putIfAbsent (key : Bytes) (val : V) :
    Refines (d.putIfAbsent key val).1 (if key ∈ m then m else m.insert key val) ∧
      (d.putIfAbsent key val).2 = if key ∈ m then 0 else 1 := by
  have h' := h.prepare
  have hroom := h.1.prepare.2.2
  simp only [RedisDict.putIfAbsent, h'.mem_iff]
  cases hf : d.startRehashIfNeeded.rehashStep.findEntry key with
  | some old => simpa using h'
  | none => simpa using h'.insertNew val hf (by simpa using hroom)

theorem putIfExists (key : Bytes) (val : V) :
    Refines (d.putIfExists key val).1 (if key ∈ m then m.insert key val else m) ∧
      (d.putIfExists key val).2 = if key ∈ m then 1 else 0 := by
  have h' := h.prepare
  simp only [RedisDict.putIfExists, h'.mem_iff]
  cases hf : d.startRehashIfNeeded.rehashStep.findEntry key with
  | some old => simpa using h'.setVal val hf
  | none => simpa using h'

theorem remove (key : Bytes) : Refines (d.remove key).1 (m.erase key) ∧
      (d.remove key).2 = (m.lookup key, if key ∈ m then 1 else 0) := by
  have h' := h.rehashStep
  simp only [h.1.remove_eq, h'.mem_iff, ← h'.findEntry]
  cases hf : d.rehashStep.findEntry key with
  | some old =>
    obtain ⟨hinv, rest, hold, hnew⟩ := h'.1.unlink hf
    rw [rehashStep_count] at hinv hnew
    exact ⟨⟨hinv, (h'.2.of_perm hold.symm).erase.of_perm hnew⟩, rfl⟩
  | none =>
    have hk : m.erase key = m := by
      apply ext_lookup
      intro k
      by_cases hkk : k = key
      · rw [hkk, lookup_erase, ← h'.findEntry, hf]
      · rw [lookup_erase_ne hkk]
    rw [hk]
    exact ⟨h', rfl⟩

theorem get (key : Bytes) : d.get key = (m.lookup key, decide (key ∈ m)) := by
  simp only [RedisDict.get, ← lookup_isSome, h.findEntry]
  cases m.lookup key <;> simp

theorem len : d.len = m.keys.card := by
  rw [RedisDict.len, h.1.count, h.2.length_eq]

end

theorem empty {d : RedisDict V} (hinv : d.Inv) (hes : d.entries = []) : Refines d ∅ := ⟨hinv, hes ▸ .nil⟩

theorem clear (d : RedisDict V) : Refines d.clear ∅ := .empty (inv_make le_rfl) rfl

end Refines

theorem redisMachine_simulates : Machine.Simulates (Refines (V := V)) redisMachine mapMachine := by
  intro d m op h
  cases op with
  | put key val => exact ⟨by simp [redisMachine, mapMachine, h.put], (h.put key val).1⟩
  | putIfAbsent key val =>
    obtain ⟨hr, hn⟩ := h.putIfAbsent key val
    simp only [redisMachine, mapMachine, hn]
    split at hr <;> rename_i hk <;> simp [hk, hr]
  | putIfExists key val =>
    obtain ⟨hr, hn⟩ := h.putIfExists key val
    simp only [redisMachine, mapMachine, hn]
    split at hr <;> rename_i hk <;> simp [hk, hr]
  | remove key => exact ⟨by simp [redisMachine, mapMachine, h.remove], (h.remove key).1⟩
  | get key => exact ⟨by simp [redisMachine, mapMachine, h.get], h⟩
  | len => exact ⟨by simp [redisMachine, mapMachine, h.len], h⟩
  | clear => exact ⟨rfl, .clear d⟩

theorem redisMachine_inv (d : RedisDict V) (op : Op V) (h : d.Inv) : (redisMachine.step d op).1.Inv := by
  obtain ⟨m, hm⟩ := Represents.exists_map h.nodup
  exact (redisMachine_simulates d m op ⟨h, hm⟩).2.1

/-! ## Traversal -/

theorem forEach_eq_foldl {σ : Type*} (d : RedisDict V) (f : σ → Bytes → V → σ) (s : σ) :
    d.forEach (fun s k v => (f s k v, true)) s = d.entries.foldl (fun s e => f s e.1 e.2) s := by
  rw [forEach]
  induction d.entries generalizing s with
  | nil => rfl
  | cons e es ih => exact ih _

theorem keys_eq (d : RedisDict V) : d.keys = d.entries.map Prod.fst := by
  rw [RedisDict.keys, forEach_eq_foldl d (fun ks key _ => ks ++ [key]), map_eq_flatMap, flatMap_eq_foldl]

theorem mem_keys_iff {d : RedisDict V} {key : Bytes} : key ∈ d.keys ↔ ∃ v, (key, v) ∈ d.entries := by
  simp [keys_eq]

/-- `RedisDict` refines a finite map. `MakeRedis` fails only for a size whose power of two
is no Go `int`. From any other dict it makes, whatever calls follow, every answer is the
map's; `Len` is then the number of keys, and `ForEach` and `Keys` go through one list of
entries that has every key of the map once, with its value in the map. -/
theorem redisDict_refines_map (n : Int64) (ops : List (Op V)) :
    match (RedisDict.makeRedis n : Option (RedisDict V)) with
    | none => 2 ^ 62 < n.toInt
    | some d => let (d', resps) := redisMachine.run d ops
      let (m, resps') := mapMachine.run ∅ ops
      resps = resps' ∧ d'.len = m.keys.card ∧
        ∃ visits : List (Bytes × V), (visits.map Prod.fst).Nodup ∧ (∀ k v, (k, v) ∈ visits ↔ m.lookup k = some v) ∧
          (∀ (σ : Type) (consumer : σ → Bytes → V → σ × Bool) (s : σ),
            d'.forEach consumer s = RedisDict.consume consumer visits s) ∧
          d'.keys = visits.map Prod.fst := by
  rcases RedisDict.makeRedis_spec (V := V) n with ⟨-, d, hmake, hinv, hes⟩ | ⟨hbig, hmake⟩
  · rw [hmake]
    obtain ⟨hresp, hr⟩ := Machine.run_simulates redisMachine_simulates (.empty hinv hes) ops
    exact ⟨hresp, hr.len, _, hr.2.nodup, hr.2.mem, fun _ _ _ => rfl, keys_eq _⟩
  · rw [hmake]
    exact hbig

end Hayakv.Dict
