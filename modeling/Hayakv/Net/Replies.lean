import Hayakv.Net.Registry
import Hayakv.Net.SmallStore

/-!
# Replies in the order of the commands

Every byte written to a client is tagged with the command it answers. `Client.Answered`
says that what a client has received, with what still stands in its output buffer, are
the replies to its commands in their order, one each, except for the command it is
blocked in. This holds over runs in which a blocking command is the last of its read;
`replies_lost` is a run in which it is not.
-/

namespace Hayakv.Net

open Memory (Arr Slice Heap)
open Server
open Function
open List

variable {E R : Type} {rt : Runtime E R}

def replies (out : List (Tag × UInt8)) : List (Tag × UInt8) := out.filter fun p => p.1.command.isSome

/-- The answers to commands `0, 1, …` of client `k`, one after the other. -/
def ordered (k : Nat) (answers : List Bytes) : List (Tag × UInt8) :=
  answers.zipIdx.flatMap fun p => tagged ⟨k, some p.2⟩ p.1

@[simp] theorem replies_append (a b : List (Tag × UInt8)) :
    replies (a ++ b) = replies a ++ replies b := filter_append ..

@[simp] theorem replies_push (j : Nat) (bs : Bytes) : replies (tagged ⟨j, none⟩ bs) = [] := by
  simp [replies, tagged]

@[simp] theorem replies_reply (j no : Nat) (bs : Bytes) :
    replies (tagged ⟨j, some no⟩ bs) = tagged ⟨j, some no⟩ bs := by
  simp [replies, tagged]

theorem ordered_append (k : Nat) (answers : List Bytes) (bs : Bytes) :
    ordered k (answers ++ [bs]) = ordered k answers ++ tagged ⟨k, some answers.length⟩ bs := by
  simp [ordered, zipIdx_append]

namespace Client

/-- Every command taken from client `k` has one answer, in the order of the commands, and the answers
are what was written to it and what stands in its output buffer; the command it is blocked in has
none yet. -/
structure Answered (k : Nat) (c : Client) : Prop where
  count : c.answers.length + (if c.blockKeys = [] then 0 else 1) = c.count
  delivered : replies (c.received ++ c.out) = ordered k c.answers
  blockNo : c.blockKeys ≠ [] → c.blockNo = c.answers.length

variable {k no left : Nat} {c c' : Client}

theorem Answered.push (h : Answered k c) (hp : Pushed k c c') : Answered k c' := by
  obtain ⟨bs, rfl⟩ := hp
  refine ⟨h.count, ?_, h.blockNo⟩
  have := h.delivered
  simp_all

/-- A command of client `k` is run: `no` answers there are, and `left` commands without one. -/
structure Running (k no left : Nat) (c : Client) : Prop where
  length_answers : c.answers.length = no
  count : c.count = no + left
  delivered : replies (c.received ++ c.out) = ordered k c.answers

theorem Running.push (h : Running k no left c) (hp : Pushed k c c') : Running k no left c' := by
  obtain ⟨bs, rfl⟩ := hp
  refine ⟨h.length_answers, h.count, ?_⟩
  have := h.delivered
  simp_all

theorem Running.answer (h : Running k no (left + 1) c) (bs : Bytes) : Running k (no + 1) left (c.answer k no bs) := by
  refine ⟨?_, ?_, ?_⟩
  · rw [Client.answer, length_append, h.length_answers]
    rfl
  · show c.count = no + 1 + left
    rw [h.count, Nat.add_assoc, Nat.add_comm 1]
  · have hd := h.delivered
    rw [Client.answer, ordered_append, h.length_answers, ← hd]
    simp

theorem Answered.release (h : Answered k c) (hb : c.blockKeys ≠ []) (bs : Bytes) :
    Answered k (c.answer k c.blockNo bs).unblock := by
  have hcount := h.count
  rw [if_neg hb] at hcount
  refine ⟨?_, ?_, fun hb => absurd rfl hb⟩
  · rw [Client.unblock, Client.answer, length_append]
    exact hcount
  · have hd := h.delivered
    rw [Client.unblock, Client.answer, ordered_append, ← h.blockNo hb, ← hd]
    simp

/-- A command that blocks its client leaves no trace in the output buffer. -/
theorem Running.block (h : Running k no 1 c) (hp : Pushed k c c') {keys : List Bytes} (hkeys : keys ≠ [])
    (line : List (Option Bytes)) (bs name : Bytes) (deadline : Int) (cmdLine : CmdSlices) :
    Answered k (((c'.executed no line).answer k no bs).block no c.out.length name keys deadline cmdLine) := by
  obtain ⟨pushed, rfl⟩ := hp
  have hout : (c.out ++ tagged ⟨k, none⟩ pushed ++ tagged ⟨k, some no⟩ bs).take c.out.length = c.out := by
    rw [append_assoc, take_left]
  refine ⟨?_, ?_, fun _ => ?_⟩
  · show ((c.answers ++ [bs]).dropLast).length + (if keys = [] then 0 else 1) = c.count
    rw [dropLast_concat, if_neg hkeys, h.length_answers, h.count]
  · show replies (c.received ++ (c.out ++ tagged ⟨k, none⟩ pushed ++ tagged ⟨k, some no⟩ bs).take
      c.out.length) = ordered k (c.answers ++ [bs]).dropLast
    rw [hout, dropLast_concat, h.delivered]
  · show no = ((c.answers ++ [bs]).dropLast).length
    rw [dropLast_concat, h.length_answers]

theorem Answered.write (h : Answered k c) {w o : List (Tag × UInt8)} (hout : w ++ o = c.out) :
    Answered k ((c.setOut o).deliver w) := by
  refine ⟨h.count, ?_, h.blockNo⟩
  show replies (c.received ++ w ++ o) = ordered k c.answers
  rw [append_assoc, hout, h.delivered]

end Client

/-- The open clients other than those in `except` have their answers. -/
def AllAnswered (except : Nat → Prop) (s : Server E) : Prop := ∀ j, ¬ except j → Open s j → (s.clients j).Answered j

/-- The commands of client `k` are run, and the other clients have their answers. -/
structure RunningCmds (k no left : Nat) (s : Server E) : Prop where
  others : AllAnswered (· = k) s
  running : (s.clients k).Running k no left

section Obligations

variable {s t : Server E} {k no left : Nat} {net : Nat → Outcome} {except : Nat → Prop}

theorem AllAnswered.modify (h : AllAnswered except s) {f : Client → Client} (hfd : ∀ c, (f c).fd = c.fd)
    (hf : Open s k → (s.clients k).Answered k → (f (s.clients k)).Answered k) :
    AllAnswered except (s.modify k f) := by
  intro j hex hopen
  have hj := h j hex
  simp only [Open, Server.modify, update_apply] at hf hj hopen ⊢
  grind

theorem AllAnswered.congr (h : AllAnswered except s) (hfds : t.fds = s.fds)
    (hcl : ∀ j, Pushed j (s.clients j) (t.clients j)) : AllAnswered except t := by
  intro j hex hopen
  obtain ⟨bs, hj⟩ := hcl j
  rw [Open, hfds, hj] at hopen
  exact (h j hex hopen).push (hcl j)

variable (rt k) in
theorem AllAnswered.call (h : AllAnswered except s) (cmdLine : CmdSlices) :
    AllAnswered except (call rt s k cmdLine).1 := by
  obtain ⟨clients, heq, hcl⟩ := call_spec rt s k cmdLine
  rw [heq]
  exact h.congr rfl hcl

variable (rt k) in
theorem AllAnswered.tryWake (h : AllAnswered except s) : AllAnswered except (tryWake rt s k).1 := by
  obtain ⟨clients, heq, hcl⟩ := tryWake_spec rt s k
  rw [heq]
  exact h.congr rfl hcl

theorem AllAnswered.release (h : AllAnswered except s) (hb : Blocked s k) (bs : Bytes) :
    AllAnswered except (release s k bs) := by
  have hmod := AllAnswered.modify (f := fun c => (c.answer k c.blockNo bs).unblock) h
    (fun _ => rfl) fun _ hk => hk.release hb bs
  exact fun j => hmod j

theorem AllAnswered.close (h : AllAnswered except s) (f : Client → Client) :
    AllAnswered except (closeClient rt (s.modify k f) k) := by
  intro j hex hopen
  have hj := h j hex
  simp only [Open, closeClient, Server.modify, update_apply] at hj hopen ⊢
  grind

theorem AllAnswered.flush (h : AllAnswered except s) (hown : Owned s k) : AllAnswered except (flush rt s k net) := by
  obtain ⟨w, o, ⟨heq, hout⟩ | ⟨heq, -⟩⟩ := flush_spec rt net hown
  · rw [heq]
    exact h.modify (fun _ => rfl) fun _ hk => hk.write hout
  · rw [heq]
    exact h.close _

theorem RunningCmds.wakeOne (hread : Reading s k) {m : Nat} (hm : Blocked s m)
    (h : RunningCmds k no left s) : RunningCmds k no left (wakeOne rt s m net) := by
  have hne : k ≠ m := fun heq => hread.notBlocked (heq ▸ hm)
  have hcall := SameBlocks.tryWake rt s m
  have hrun : ((tryWake rt s m).1.clients k).Running k no left := by
    obtain ⟨clients, heq, hcl⟩ := tryWake_spec rt s m
    rw [heq]
    exact h.running.push (hcl k)
  obtain ⟨heq, -⟩ | ⟨reply, -, -, heq⟩ := wakeOne_cases rt s m net
  · rw [heq]
    exact ⟨h.others.tryWake rt m, hrun⟩
  · have hb : Blocked (tryWake rt s m).1 m := by
      rw [Blocked, hcall.blockKeys]
      exact hm
    have hown := (SameBlocks.awaken (tryWake rt s m).1 m
      (rt.encode (tryWake rt s m).1.engine m reply)).isOpen
      ((hcall.isOpen (hread.registered.isOpen m hm)).release _)
    have hrel := (h.others.tryWake rt m).release hb (rt.encode (tryWake rt s m).1.engine m reply)
    rw [heq]
    refine ⟨AllAnswered.flush (fun j => hrel j) hown.owned, ?_⟩
    rw [clients_flush_of_ne hown.owned hne]
    show ((release _ m _).clients k).Running k no left
    rw [clients_release_of_ne _ _ hne]
    exact hrun

theorem RunningCmds.wakeAfter (hread : Reading s k) (h : RunningCmds k no left s) (name : Bytes)
    (cmdLine : CmdSlices) : RunningCmds k no left (wakeAfter rt s name cmdLine net) := by
  have hwake : ∀ {s : Server E} (key : Bytes), Reading s k ∧ RunningCmds k no left s →
      Reading (wakeBlockedClients rt s key net) k ∧
        RunningCmds k no left (wakeBlockedClients rt s key net) := fun key h =>
    wake_run (P := fun _ s => Reading s k ∧ RunningCmds k no left s) (fun _ _ h => h.1.registered)
      (fun _ _ _ h hm => ⟨h.1.wakeOne hm, h.2.wakeOne h.1 hm⟩) key h
  rw [Net.wakeAfter]
  split <;> split
  · exact (hwake _ (hwake _ ⟨hread, h⟩)).2
  · exact (hwake _ ⟨hread, h⟩).2
  · exact (hwake _ ⟨hread, h⟩).2
  · exact h

variable (rt no) in
theorem AllAnswered.execute (h : AllAnswered (· = k) s) (cmdLine : CmdSlices) :
    AllAnswered (· = k) (execute rt s k no cmdLine).1 := by
  intro j hj hopen
  have hcall := h.call rt k cmdLine j hj
  rw [Net.execute] at hopen ⊢
  rw [Open, clients_modify_of_ne _ _ _ hj] at hopen
  rw [clients_modify_of_ne _ _ _ hj]
  exact hcall hopen

theorem RunningCmds.execute (h : RunningCmds k no (left + 1) s) (cmdLine : CmdSlices) :
    RunningCmds k (no + 1) left (execute rt s k no cmdLine).1 := by
  obtain ⟨c', bs, hp, heq⟩ := clients_execute_self rt s k no cmdLine
  refine ⟨h.others.execute rt no cmdLine, ?_⟩
  rw [heq]
  have hrun := h.running.push hp
  have hexec : (c'.executed no (cmdBytes s.heap cmdLine)).Running k no (left + 1) :=
    ⟨hrun.length_answers, hrun.count, hrun.delivered⟩
  exact hexec.answer bs

end Obligations

/-- The condition on a command: a blocking command has distinct keys, its client's connection outlives
the read, and it is the last complete command of the read. -/
def InOrder : CmdCond E := fun s k net cmdLine left =>
  RegOk s k net cmdLine ∧ (isBlockCommand (cmdName (cmdStrings s.heap cmdLine)) = true → left = 0)

instance (s : Server E) (k : Nat) (net : Nat → Outcome) (cmdLine : CmdSlices) (left : Nat) :
    Decidable (InOrder s k net cmdLine left) := inferInstanceAs (Decidable (_ ∧ (_ = true → _ = 0)))

theorem inOrder_inv : LoopInv rt InOrder (fun _ => True) (fun _ _ => True)
    (AllAnswered fun _ => False) (fun k no cmds => RunningCmds k no cmds.length) where
  accept {s fd} hs hX hfd := by
    intro j hex hopen
    rw [Open] at hopen
    rw [accept, hfd] at hopen ⊢
    dsimp only at hopen ⊢
    by_cases hj : j = s.next
    · subst hj
      rw [update_self]
      exact ⟨rfl, rfl, fun h => absurd rfl h⟩
    have hopen' := hX j hex
    grind [Open, update_apply]
  background _ hX _ := fun j => hX j
  gone _ hX _ := hX.modify (fun _ => rfl) fun _ h => ⟨h.count, h.delivered, h.blockNo⟩
  left _ hX := hX.close _
  readAll {s k} chunks _ hX := by
    have h := AllAnswered.modify (k := k) (f := fun c => c.read
        ((s.clients k).queryBuf.appendAll rt.grow s.heap chunks).2 chunks.flatten) hX
      (fun _ => rfl) fun _ h => ⟨h.count, h.delivered, h.blockNo⟩
    exact fun j => h j
  take {s k consumed cmds} hread hX _ := by
    have hk := hX k (fun h => h) hread.isOpen
    have hcount := hk.count
    rw [if_pos (not_not.1 hread.notBlocked), Nat.add_zero] at hcount
    refine ⟨fun j hj hopen => ?_, ?_⟩
    · rw [Open, takeCmds, clients_modify_of_ne _ _ _ hj] at hopen
      rw [takeCmds, clients_modify_of_ne _ _ _ hj]
      exact hX j (fun h => h) hopen
    · rw [takeCmds, clients_modify_self, length_map]
      exact ⟨hcount, rfl, hk.delivered⟩
  next {s k no now net cmdLine cmds} hread hY _ hr := by
    obtain heq | ⟨-, -, -, heq⟩ := runCmd_cases rt s k no now net cmdLine
    · rw [heq]
      exact (hY.execute cmdLine).wakeAfter (hread.congr (.execute ..)) ..
    · rw [heq] at hr
      cases hr
  block {s k no now net cmdLine cmds} hread hY hP hr := by
    obtain heq | ⟨hname, -, hkeys, heq⟩ := runCmd_cases rt s k no now net cmdLine
    · rw [heq] at hr
      cases hr
    · obtain rfl := eq_nil_of_length_eq_zero (hP.2 hname)
      obtain ⟨c', bs, hp, hc⟩ := clients_execute_self rt s k no cmdLine
      rw [heq]
      intro j _ hopen
      by_cases hj : j = k
      · subst hj
        rw [register, clients_modify_self, hc]
        exact hY.running.block hp hkeys ..
      · rw [Open, register, clients_modify_of_ne _ _ _ hj] at hopen
        rw [register, clients_modify_of_ne _ _ _ hj]
        exact hY.others.execute rt no cmdLine j hj hopen
  done {s k no} hread hY := by
    intro j _ hopen
    by_cases hj : j = k
    · subst hj
      refine ⟨?_, hY.running.delivered, fun hb => absurd hb hread.notBlocked⟩
      rw [if_pos (not_not.1 hread.notBlocked), hY.running.length_answers, hY.running.count]
      rfl
    · exact hY.others j hj hopen
  release _ hb hX := (hX.release hb _).modify (fun _ => rfl) fun _ h => ⟨h.count, h.delivered, h.blockNo⟩
  write hX hout := hX.modify (fun _ => rfl) fun _ h => h.write hout
  close _ _ _ hX := hX.close _

/-! ## Runs -/

/-- The events of a run: blocking commands stand last in a read, name no key twice, and their clients
are not closed as long as they wait. -/
def RunsInOrder (rt : Runtime E R) (e : E) (evs : List (Event E)) : Prop :=
  Guarded (step rt) (EventOk rt InOrder (fun _ => True) fun _ _ => True) (.start e) evs

instance (rt : Runtime E R) (e : E) (evs : List (Event E)) : Decidable (RunsInOrder rt e evs) :=
  inferInstanceAs (Decidable (Guarded ..))

/-- The stream holds `n` whole commands and no more. -/
def HasCommands (n : Nat) (sent : Bytes) : Prop := ∃ rest, afterCommands n sent = some rest ∧ frontCommand rest = none

theorem taken_of_quiet {e : E} {evs : List (Event E)} (hquiet : (run rt (.start e) evs).quiet) :
    (run rt (.start e) evs).crashed = true ∨ ∀ k, Open (run rt (.start e) evs) k →
      HasCommands ((run rt (.start e) evs).clients k).count ((run rt (.start e) evs).clients k).sent := by
  have hnone : ∀ k, ¬ k < (start e).next := fun k => Nat.not_lt_zero k
  have hstart : Emptied (fun _ => False) (start e) :=
    ⟨⟨fun k h => absurd h (hnone k), fun k h => absurd h (hnone k), fun k h => absurd h (hnone k)⟩,
      .inr fun k h => absurd h (hnone k)⟩
  obtain ⟨hfds, hempty⟩ := emptied_inv.run (fun _ => hstart) evs
  have hempty := hempty hquiet
  refine hempty.noCommand.imp_right fun hfront k hopen => ⟨_, hempty.stream k (hfds _ k hopen), ?_⟩
  exact hfront k (hfds _ k hopen) (fun h => h) hopen

/-- `PING` and `BLPOP` in one read, and a push by another client. -/
def wokenRun : List (Event Store) :=
  [.accept 5, .accept 6, Store.arrives 5 [["PING"], ["BLPOP", "k", "1"]] [], Store.arrives 6 [["LPUSH", "k", "v"]] []]

end Hayakv.Net
