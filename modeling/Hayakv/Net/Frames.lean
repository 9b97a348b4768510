import Hayakv.Net.EventLoop

/-!
# What the parts of a step do

One lemma for each part of the event loop that later proofs rest on: an engine
call changes what the engine returns and the output of the clients it writes to
(`call_spec`); a waiting client stays as it is or is released and flushed
(`wakeOne_cases`); a command suspends its client or wakes others
(`runCmd_cases`).
-/

namespace Hayakv.Net

open Memory (Arr Slice Heap)
open Server
open Function

variable {E R : Type} (rt : Runtime E R)

namespace Server

variable (s : Server E) (k : Nat) (f : Client → Client)

@[simp] theorem clients_modify_self : (s.modify k f).clients k = f (s.clients k) := update_self ..

theorem clients_modify_of_ne {j : Nat} (h : j ≠ k) : (s.modify k f).clients j = s.clients j := update_of_ne h ..

theorem modify_modify (g : Client → Client) : (s.modify k f).modify k g = s.modify k fun c => g (f c) := by
  simp only [modify, update_self, update_idem]

variable {s k f} in
theorem modify_eq_self (h : f (s.clients k) = s.clients k) : s.modify k f = s := by
  simp only [modify, h, update_eq_self]

theorem modify_rel {r : Client → Client → Prop} (hrefl : ∀ c, r c c)
    (hf : r (s.clients k) (f (s.clients k))) (j : Nat) : r (s.clients j) ((s.modify k f).clients j) := by
  simp only [modify, update_apply]
  split
  · exact ‹j = k› ▸ hf
  · exact hrefl _

end Server

/-- The engine may have written to client `j`, and nothing else has changed in it. -/
def Pushed (j : Nat) (c c' : Client) : Prop := ∃ bs, c' = { c with out := c.out ++ tagged ⟨j, none⟩ bs }

theorem Pushed.refl (j : Nat) (c : Client) : Pushed j c c := ⟨[], by simp [tagged]⟩

theorem Pushed.trans {j : Nat} {c c' c'' : Client} (h1 : Pushed j c c') (h2 : Pushed j c' c'') : Pushed j c c'' := by
  obtain ⟨bs, rfl⟩ := h1
  obtain ⟨bs', rfl⟩ := h2
  exact ⟨bs ++ bs', by simp [tagged]⟩

theorem foldl_push (ps : List (Nat × Bytes)) (s : Server E) :
    ∃ clients, ps.foldl push s = { s with clients := clients } ∧ ∀ j, Pushed j (s.clients j) (clients j) := by
  induction ps generalizing s with
  | nil => exact ⟨s.clients, rfl, fun j => .refl j _⟩
  | cons p ps ih =>
    obtain ⟨clients, heq, hcl⟩ := ih (s.push p)
    refine ⟨clients, heq, fun j => .trans ?_ (hcl j)⟩
    simp only [push, Server.modify, update_apply]
    split
    · exact ⟨p.2, by rw [‹j = p.1›]⟩
    · exact .refl j _

theorem call_spec (s : Server E) (k : Nat) (cmdLine : CmdSlices) : ∃ clients, (call rt s k cmdLine).1 =
        { s with
          engine := (rt.exec s.engine k s.heap cmdLine).state
          heap := (rt.exec s.engine k s.heap cmdLine).heap
          quiet := s.quiet ∧ s.heap.Extends (rt.exec s.engine k s.heap cmdLine).heap
          clients := clients } ∧
      ∀ j, Pushed j (s.clients j) (clients j) :=
  foldl_push ..

theorem quiet_call (s : Server E) (k : Nat) (cmdLine : CmdSlices) : (call rt s k cmdLine).1.quiet ↔
    s.quiet ∧ s.heap.Extends (rt.exec s.engine k s.heap cmdLine).heap := by
  obtain ⟨clients, heq, -⟩ := call_spec rt s k cmdLine
  rw [heq]

/-! ## Waiting clients -/

theorem tryWake_spec (s : Server E) (k : Nat) : ∃ clients, (tryWake rt s k).1 = { s with
          engine := (tryWake rt s k).1.engine
          heap := (tryWake rt s k).1.heap
          quiet := (tryWake rt s k).1.quiet
          clients := clients } ∧
      ∀ j, Pushed j (s.clients j) (clients j) := by
  obtain ⟨clients, heq, hcl⟩ := call_spec rt
    { s with heap := (allocParts s.heap (wakeParts s.heap (s.clients k))).1 } k
    (allocParts s.heap (wakeParts s.heap (s.clients k))).2
  refine ⟨clients, ?_, hcl⟩
  rw [tryWake, heq]

theorem clients_release_self (s : Server E) (k : Nat) (bs : Bytes) : (release s k bs).clients k =
      ((s.clients k).answer k (s.clients k).blockNo bs).unblock :=
  update_self ..

theorem clients_release_of_ne (s : Server E) (bs : Bytes) {k j : Nat} (h : j ≠ k) :
    (release s k bs).clients j = s.clients j :=
  update_of_ne h ..

/-- A waiting client's command finds nothing, or the client gets its answer. -/
theorem wakeOne_cases (s : Server E) (k : Nat) (net : Nat → Outcome) : (wakeOne rt s k net = (tryWake rt s k).1 ∧
      ∀ reply, (tryWake rt s k).2 = some reply → rt.isNullReply reply = true) ∨
    ∃ reply, (tryWake rt s k).2 = some reply ∧ rt.isNullReply reply = false ∧ wakeOne rt s k net =
        flush rt (awaken (tryWake rt s k).1 k (rt.encode (tryWake rt s k).1.engine k reply)) k net := by
  rw [wakeOne]
  cases hr : (tryWake rt s k).2 with
  | none => exact .inl ⟨rfl, fun _ h => by cases h⟩
  | some reply =>
    dsimp only
    split
    · exact .inl ⟨rfl, fun reply' h => Option.some.inj h ▸ ‹_›⟩
    · exact .inr ⟨reply, rfl, Bool.eq_false_iff.2 ‹_›, rfl⟩

/-! ## Commands -/

/-- The command suspends its client, or it does not and may wake others. -/
theorem runCmd_cases (s : Server E) (k no : Nat) (now : Int) (net : Nat → Outcome)
    (cmdLine : CmdSlices) : let name := cmdName (cmdStrings s.heap cmdLine)
    let r := execute rt s k no cmdLine
    let line := cmdStrings r.1.heap cmdLine
    (runCmd rt s k no now net cmdLine = (wakeAfter rt r.1 name cmdLine net, false)) ∨
    (isBlockCommand name = true ∧ isNull rt r.2 = true ∧ blockKeysOf name line ≠ [] ∧
      runCmd rt s k no now net cmdLine =
        ((r.1.modify k fun c => c.block no (s.clients k).out.length name (blockKeysOf name line)
          (blockDeadlineOf rt now name line) cmdLine).register k (blockKeysOf name line), true)) := by
  intro name r line
  rw [runCmd]
  split
  · rename_i hb
    exact .inr ⟨hb.1, hb.2.1, hb.2.2.1, rfl⟩
  · exact .inl rfl

theorem heap_execute (s : Server E) (k no : Nat) (cmdLine : CmdSlices) :
    (execute rt s k no cmdLine).1.heap = (rt.exec s.engine k s.heap cmdLine).heap := by
  obtain ⟨clients, heq, -⟩ := call_spec rt s k cmdLine
  exact congrArg Server.heap heq

theorem engine_execute (s : Server E) (k no : Nat) (cmdLine : CmdSlices) :
    (execute rt s k no cmdLine).1.engine = (rt.exec s.engine k s.heap cmdLine).state := by
  obtain ⟨clients, heq, -⟩ := call_spec rt s k cmdLine
  exact congrArg Server.engine heq

theorem clients_execute_self (s : Server E) (k no : Nat) (cmdLine : CmdSlices) :
    ∃ c' bs, Pushed k (s.clients k) c' ∧ (execute rt s k no cmdLine).1.clients k =
      (c'.executed no (cmdBytes s.heap cmdLine)).answer k no bs := by
  obtain ⟨clients, heq, hcl⟩ := call_spec rt s k cmdLine
  refine ⟨clients k, encodeReply rt (call rt s k cmdLine).1 k (call rt s k cmdLine).2, hcl k, ?_⟩
  rw [execute]
  rw [clients_modify_self, heq]

end Hayakv.Net
