import Hayakv.Frame.Collections
import Hayakv.Frame.Streams
import Hayakv.Frame.Strings

/-!
# How the commands of the table access keys

Every command of the table keeps to the discipline in a scope that fits it (`Fits`): one that has the
keys that the command declares as written, and those that it changes without declaring them.
-/

namespace Hayakv.Frame

open Engine Cmd Access Scope

variable {S : Scope} {known : Key → Prop} {apart : Prop} {env : Env} {run : CmdLine → Exec Reply}

/-- Every command of the table keeps to the discipline. -/
theorem rows_cmdTable (hdump : RunsDumps S known run) (httl : RunsExpiries S run) :
    ∀ c ∈ cmdTable, Row S known apart env run c := by
  simp only [cmdTable, List.forall_mem_append]
  exact ⟨⟨⟨⟨⟨⟨⟨⟨⟨⟨⟨⟨⟨rows_keyCommands, rows_stringCommands⟩, rows_bitfieldCommands⟩, rows_bitOpCommands⟩,
    rows_listCommands⟩, rows_hashCommands⟩, rows_hashTTLCommands⟩, rows_setCommands⟩,
    rows_sortedSetCommands⟩, rows_geoCommands⟩, rows_streamCommands⟩, rows_streamGroupCommands⟩,
    rows_hllCommands⟩, rows_serverCommands hdump httl⟩

/-! ## Commands inside of commands -/

theorem wp_catchExit_done {p : Exec Reply} {h : Exit → Option Reply} {g : Access}
    (hp : p.wp S.discipline (fun _ g => g.Done) g) : (p.catchExit h).wp S.discipline (fun _ g => g.Done) g := by
  induction p generalizing g with
  | pure a => exact hp
  | exit e =>
    unfold Prog.catchExit
    cases h e with
    | none => exact hp
    | some r => exact hp
  | op o k ih => exact ⟨hp.1, fun r hr => ih r (hp.2 r hr)⟩

variable {fuel : Nat}

/-- A command that another one runs by its name. -/
theorem wp_execWithLock {name : Bytes} {args : List Bytes} {g : Access} (hd : g.Done)
    (h : ∀ c fuel, findCommand (toLower name) = some c →
      (c.executor env (execWithLock env fuel) args).wp S.discipline (fun _ g => g.Done) g) :
    (execWithLock env fuel (name :: args)).wp S.discipline (fun _ g => g.Done) g := by
  cases fuel with
  | zero => exact hd
  | succ fuel =>
    rw [execWithLock]
    cases hc : findCommand (toLower name) with
    | none => exact hd
    | some c =>
      dsimp only
      split
      · exact wp_catchExit_done (h c fuel hc)
      · exact hd

theorem runsDumps : RunsDumps S known (execWithLock env fuel) := by
  intro name key rest hname hw
  refine wp_execWithLock start_done fun c fuel hc => ?_
  simp only [dumps, List.mem_cons, List.not_mem_nil, or_false] at hname
  rcases hname with h | h | h | h | h <;> rw [h] at hc <;> cases hc
  · exact keeps_execSet hw fun _ _ _ => Or.inl rfl
  · exact keeps_pushBy hw
  · exact keeps_execSAdd hw
  · exact keeps_execHMSet hw
  · exact keeps_execZAdd hw

theorem runsExpiries : RunsExpiries S (execWithLock env fuel) := by
  intro name key rest g hname hw hd
  refine wp_execWithLock hd fun c fuel hc => ?_
  simp only [expiries, List.mem_cons, List.not_mem_nil, or_false] at hname
  rcases hname with h | h <;> rw [h] at hc <;> cases hc
  · exact wp_execPersist hw hd
  · exact wp_expireBy hw hd

end Hayakv.Frame
