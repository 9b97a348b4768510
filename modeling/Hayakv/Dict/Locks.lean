import Mathlib.Data.Prod.Lex
import Hayakv.Dict.Concurrent
import Hayakv.Lib.LockOrder

/-!
# The key locks

`RWLocks` and `RWUnLocks` of `ConcurrentDict`, and the commands that use them: `execNormalCommand` and
`ExecMulti` lock the keys of a command or of a transaction, some after the server-wide `memMu`, under which
`freeMemoryIfNeeded` may lock and unlock keys that it evicts. The clients run against each other in any
order.

The indices that are locked come from the keys alone, so that unlocking finds the same ones with the same
modes (`rwUnLocks_eq`). They are taken in ascending order; that is why no clients wait for each other in a
circle (`locks_safe`). But KEYS, SCAN and RANDOMKEY visit shards from the first on, and in a transaction they
do so under its key locks: it may then wait for itself (`keys_in_transaction`).
-/

namespace Hayakv.Dict

open LockOrder List

/-- The locks: `memMu`, and for each database those of its shards. -/
inductive Lock
  | memMu
  | shard (db index : Nat)
deriving DecidableEq

def Lock.rank : Lock → Nat ×ₗ Nat
  | .memMu => toLex (0, 0)
  | .shard db index => toLex (db + 1, index)

theorem Lock.rank_injective : Function.Injective Lock.rank := by
  intro l l' h
  cases l with
  | memMu =>
    cases l' with
    | memMu => rfl
    | shard db index => exact absurd (congrArg (fun p => (ofLex p).1) h) (Nat.succ_ne_zero db).symm
  | shard db index =>
    cases l' with
    | memMu => exact absurd (congrArg (fun p => (ofLex p).1) h) (Nat.succ_ne_zero db)
    | shard db' index' =>
      have hdb : db + 1 = db' + 1 := congrArg (fun p => (ofLex p).1) h
      have hindex : index = index' := congrArg (fun p => (ofLex p).2) h
      rw [Nat.succ.inj hdb, hindex]

instance Lock.linearOrder : LinearOrder Lock := LinearOrder.lift' Lock.rank Lock.rank_injective

theorem Lock.shard_lt_shard {db i j : Nat} (h : i < j) : Lock.shard db i < Lock.shard db j :=
  Prod.Lex.toLex_lt_toLex.2 (.inr ⟨rfl, h⟩)

theorem Lock.memMu_lt_shard (db i : Nat) : Lock.memMu < Lock.shard db i :=
  Prod.Lex.toLex_lt_toLex.2 (.inl (Nat.succ_pos db))

section Keys

variable (spread : Bytes → Nat)

/-- `toLockIndices`: the indices of the keys, each once, sorted. -/
def toLockIndices (keys : List Bytes) (reverse : Bool) : List Nat :=
  (keys.map spread).dedup.insertionSort fun i j => if reverse then j ≤ i else i ≤ j

/-- `writeIndexSet`. -/
def lockMode (writeKeys : List Bytes) (index : Nat) : Mode := if index ∈ writeKeys.map spread then .write else .read

def rwLocks (db : Nat) (writeKeys readKeys : List Bytes) : List (Action Lock) :=
  (toLockIndices spread (writeKeys ++ readKeys) false).map fun index =>
    .acquire (.shard db index) (lockMode spread writeKeys index)

def rwUnLocks (db : Nat) (writeKeys readKeys : List Bytes) : List (Action Lock) :=
  (toLockIndices spread (writeKeys ++ readKeys) true).map fun index =>
    .release (.shard db index) (lockMode spread writeKeys index)

theorem toLockIndices_ascending (keys : List Bytes) : (toLockIndices spread keys false).Pairwise (· < ·) := by
  have hsorted := (keys.map spread).dedup.pairwise_insertionSort (· ≤ ·)
  have hnodup := ((keys.map spread).dedup.perm_insertionSort (· ≤ ·)).nodup_iff.2 (nodup_dedup _)
  exact (hsorted.and hnodup).imp fun h => Nat.lt_of_le_of_ne h.1 h.2

theorem toLockIndices_reverse (keys : List Bytes) :
    toLockIndices spread keys true = (toLockIndices spread keys false).reverse := by
  have hdesc : (toLockIndices spread keys true).Pairwise (· ≥ ·) :=
    (keys.map spread).dedup.pairwise_insertionSort (· ≥ ·)
  have hasc : (toLockIndices spread keys false).reverse.Pairwise (· ≥ ·) :=
    pairwise_reverse.2 ((toLockIndices_ascending spread keys).imp Nat.le_of_lt)
  have hperm : (toLockIndices spread keys true).Perm (toLockIndices spread keys false).reverse :=
    (perm_insertionSort _ _).trans ((perm_insertionSort _ _).symm.trans (reverse_perm _).symm)
  exact hperm.eq_of_pairwise' hdesc hasc

variable (db : Nat) (writeKeys readKeys : List Bytes)

/-- The locks of a list of keys with their modes, in ascending order. -/
def lockPlan : List (Lock × Mode) :=
  (toLockIndices spread (writeKeys ++ readKeys) false).map fun index =>
    (.shard db index, lockMode spread writeKeys index)

theorem lockPlan_ascending : (lockPlan spread db writeKeys readKeys).Pairwise fun p q => p.1 < q.1 :=
  pairwise_map.2 ((toLockIndices_ascending spread _).imp Lock.shard_lt_shard)

theorem rwLocks_eq : rwLocks spread db writeKeys readKeys =
    (lockPlan spread db writeKeys readKeys).map fun p => .acquire p.1 p.2 := by
  rw [rwLocks, lockPlan, map_map]
  rfl

theorem rwUnLocks_eq : rwUnLocks spread db writeKeys readKeys =
    (lockPlan spread db writeKeys readKeys).reverse.map fun p => .release p.1 p.2 := by
  rw [rwUnLocks, lockPlan, toLockIndices_reverse, ← map_reverse, map_map]
  rfl

end Keys

/-! ## Commands -/

/-- A use of the key locks. Without keys it is what KEYS, SCAN, RANDOMKEY and `usedMemory` do by themselves. -/
structure Section where
  db : Nat
  writeKeys : List Bytes
  readKeys : List Bytes
  /-- The shards that are visited between `RWLocks` and `RWUnLocks` (`ForEach`, `RandomKey`, `DictScan`). -/
  visits : List Nat

structure Command where
  /-- It is executed under `memMu`. -/
  memMu : Bool
  sections : List Section

section Programs

variable (spread : Nat → Bytes → Nat)

/-- One shard after the other, each under its read lock. -/
def visit (db : Nat) (indices : List Nat) : List (Action Lock) :=
  indices.flatMap fun index => [.acquire (.shard db index) .read, .release (.shard db index) .read]

def Section.actions (s : Section) : List (Action Lock) :=
  rwLocks (spread s.db) s.db s.writeKeys s.readKeys ++ visit s.db s.visits ++
    rwUnLocks (spread s.db) s.db s.writeKeys s.readKeys

def Command.actions (cmd : Command) : List (Action Lock) :=
  if cmd.memMu then
    [.acquire .memMu .write] ++ cmd.sections.flatMap (·.actions spread) ++ [.release .memMu .write]
  else cmd.sections.flatMap (·.actions spread)

def program (cmds : List Command) : List (Action Lock) := cmds.flatMap (·.actions spread)

/-- Shards are visited only above those of the keys. -/
def Section.Ascends (s : Section) : Prop :=
  ∀ index ∈ s.visits, ∀ key ∈ s.writeKeys ++ s.readKeys, spread s.db key < index

def Command.Ascends (cmd : Command) : Prop := ∀ s ∈ cmd.sections, s.Ascends spread

variable {spread} {held : List (Lock × Mode)} {rest : List (Action Lock)}

theorem ordered_visit {db : Nat} {indices : List Nat} (hrest : Ordered held rest)
    (habove : ∀ h ∈ held, ∀ index ∈ indices, h.1 < .shard db index) : Ordered held (visit db indices ++ rest) := by
  induction indices with
  | nil => exact hrest
  | cons index indices ih =>
    refine Ordered.brackets [(.shard db index, .read)] [] (pairwise_singleton ..) (fun h hh p hp => ?_)
      (fun _ h => h) (ih fun h hh i hi => habove h hh i (mem_cons_of_mem _ hi))
    rw [mem_singleton.1 hp]
    exact habove h hh index mem_cons_self

theorem Section.ordered {s : Section} (hs : s.Ascends spread) (hheld : ∀ h ∈ held, h.1 = .memMu)
    (hrest : Ordered held rest) : Ordered held (s.actions spread ++ rest) := by
  have hbrackets := Ordered.brackets (lockPlan (spread s.db) s.db s.writeKeys s.readKeys) (visit s.db s.visits)
    (lockPlan_ascending ..) (fun h hh p hp => ?_) (fun _ hr => ordered_visit hr fun h hh index hi => ?_) hrest
  · rwa [← rwLocks_eq, ← rwUnLocks_eq] at hbrackets
  · obtain ⟨index, -, rfl⟩ := mem_map.1 hp
    rw [hheld h hh]
    exact Lock.memMu_lt_shard ..
  · rcases mem_append.1 hh with hh | hh
    · obtain ⟨index', hi', rfl⟩ := mem_map.1 (mem_reverse.1 hh)
      obtain ⟨key, hkey, rfl⟩ := mem_map.1 (mem_dedup.1 ((mem_insertionSort _).1 hi'))
      exact Lock.shard_lt_shard (hs index hi key hkey)
    · rw [hheld h hh]
      exact Lock.memMu_lt_shard ..

theorem ordered_sections {sections : List Section} (hs : ∀ s ∈ sections, s.Ascends spread)
    (hheld : ∀ h ∈ held, h.1 = .memMu) (hrest : Ordered held rest) :
    Ordered held (sections.flatMap (·.actions spread) ++ rest) := by
  induction sections with
  | nil => exact hrest
  | cons s sections ih =>
    rw [flatMap_cons, append_assoc]
    exact Section.ordered (hs s mem_cons_self) hheld (ih fun s hs' => hs s (mem_cons_of_mem _ hs'))

theorem Command.ordered {cmd : Command} (hc : cmd.Ascends spread) (hrest : Ordered [] rest) :
    Ordered [] (cmd.actions spread ++ rest) := by
  rw [Command.actions]
  split
  · exact Ordered.brackets [(.memMu, .write)] _ (pairwise_singleton ..) (fun _ h => absurd h not_mem_nil)
      (fun _ h => ordered_sections hc (fun p hp => by rw [mem_singleton.1 hp]) h) hrest
  · exact ordered_sections hc (fun _ h => absurd h not_mem_nil) hrest

theorem ordered_program {cmds : List Command} (hcmds : ∀ cmd ∈ cmds, cmd.Ascends spread) :
    Ordered [] (program spread cmds) := by
  induction cmds with
  | nil => rfl
  | cons cmd cmds ih => exact Command.ordered (hcmds cmd mem_cons_self) (ih fun c hc => hcmds c (mem_cons_of_mem _ hc))

end Programs

/-- **The key locks.** Any number of clients run any commands that visit only shards above those of their keys,
with any mapping of keys to shards, in any order. As long as one of them has not finished, one can move; who
unlocks a lock has it, in that mode; and in the end all locks are free. `RWUnLocks` releases exactly the locks
that `RWLocks` takes, each in its mode and each once. -/
theorem locks_safe (spread : Nat → Bytes → Nat) {n : Nat} (clients : Fin n → List Command)
    (hclients : ∀ c, ∀ cmd ∈ clients c, cmd.Ascends spread) (schedule : List (Fin n)) : let s := (System.start fun c => program spread (clients c)).run schedule
    ((∃ c, s.rest c ≠ []) → ∃ c, (s.step c).isSome) ∧
    (∀ c l mode as, s.rest c = .release l mode :: as → s.Holds c l mode) ∧
    ((∀ c, s.rest c = []) → ∀ l, s.locks l = {}) ∧
    ∀ db writeKeys readKeys, ∃ plan : List (Lock × Mode), (plan.map Prod.fst).Nodup ∧
      rwLocks (spread db) db writeKeys readKeys = plan.map (fun p => .acquire p.1 p.2) ∧
      rwUnLocks (spread db) db writeKeys readKeys = plan.reverse.map (fun p => .release p.1 p.2) := by
  intro s
  obtain ⟨held, h⟩ := (Inv.start fun c => ordered_program (hclients c)).run schedule
  refine ⟨fun ⟨c, hc⟩ => h.exists_step hc, fun c l mode as => h.holds_of_release, h.free_of_finished,
    fun db writeKeys readKeys => ⟨lockPlan (spread db) db writeKeys readKeys, ?_, rwLocks_eq .., rwUnLocks_eq ..⟩⟩
  exact List.pairwise_map.2 ((lockPlan_ascending (spread db) db writeKeys readKeys).imp ne_of_lt)

/-- Two clients write a key of the shard 1. The first also scans the shards from 2 on; the second adds up the
memory, evicts a key of the shard 2, and has to wait for the first. -/
theorem locks_safe_scan :
    let clients : Fin 2 → List Command := fun c => if c = 0 then [⟨false, [⟨0, [[97]], [], [2, 3]⟩]⟩]
      else [⟨true, [⟨0, [], [], [0, 1, 2, 3]⟩, ⟨0, [[98, 98]], [], []⟩, ⟨0, [[97]], [], []⟩]⟩]
    let s := (System.start fun c => program (fun _ => length) (clients c)).run [0, 0, 0, 1, 1, 1, 1, 1, 1]
    (s.step 1).isNone ∧ ∃ c, (s.step c).isSome := by
  intro clients s
  have hascends : ∀ c, ∀ cmd ∈ clients c, cmd.Ascends fun _ => length := by
    unfold Command.Ascends Section.Ascends
    decide
  exact ⟨by decide, (locks_safe (fun _ => length) clients hascends _).1 ⟨0, by decide⟩⟩

/-- `MULTI`, `SET a 1`, `KEYS *`, `EXEC`: the transaction waits for itself. -/
theorem keys_in_transaction : ¬∀ (spread : Nat → Bytes → Nat) (n : Nat) (clients : Fin n → List Command)
    (schedule : List (Fin n)), let s := (System.start fun c => program spread (clients c)).run schedule
    (∃ c, s.rest c ≠ []) → ∃ c, (s.step c).isSome := fun h =>
  absurd (h (fun _ => length) 1 (fun _ => [⟨false, [⟨0, [[97]], [], [0, 1, 2, 3]⟩]⟩]) (replicate 5 0)
    ⟨0, by decide⟩) (by decide)

end Hayakv.Dict
