import Hayakv.Lib.Guarded
import Hayakv.Net.Frames
import Hayakv.Net.Stream

/-!
# The query buffers in memory

Each client's query buffer is a prefix of an array of its own. `Buffers` says so, and
that the buffer holds what follows the commands taken from the client's stream; it needs
of the engine that it writes to no array that there is.
Most steps of the loop leave memory alone (`SameMem`).
-/

namespace Hayakv.Net

open Memory (Arr Slice Heap)
open Server
open Function

variable {E R : Type} {rt : Runtime E R}

/-! ## Parts of a step that leave memory alone -/

/-- The client has the same buffer and has run the same commands; it waits in the same command, or
no more. -/
structure Client.SameMem (c c' : Client) : Prop where
  fd : c'.fd = c.fd
  queryBuf : c'.queryBuf = c.queryBuf
  sent : c'.sent = c.sent
  count : c'.count = c.count
  seen : c'.seen = c.seen
  blocks : (c'.blockKeys = c.blockKeys ∧ c'.blockCmd = c.blockCmd ∧ c'.blockCmdLine = c.blockCmdLine) ∨
    c'.blockKeys = [] ∧ c'.blockCmd = []

theorem Client.SameMem.refl (c : Client) : c.SameMem c := ⟨rfl, rfl, rfl, rfl, rfl, .inl ⟨rfl, rfl, rfl⟩⟩

theorem Client.SameMem.trans {c c' c'' : Client} (h1 : c.SameMem c') (h2 : c'.SameMem c'') : c.SameMem c'' where
  fd := h2.fd.trans h1.fd
  queryBuf := h2.queryBuf.trans h1.queryBuf
  sent := h2.sent.trans h1.sent
  count := h2.count.trans h1.count
  seen := h2.seen.trans h1.seen
  blocks := by
    rcases h2.blocks with ⟨hk, hc, hl⟩ | hclear
    · rw [hk, hc, hl]
      exact h1.blocks
    · exact .inr hclear

theorem Pushed.sameMem {j : Nat} {c c' : Client} (h : Pushed j c c') : c.SameMem c' := by
  obtain ⟨bs, rfl⟩ := h
  exact ⟨rfl, rfl, rfl, rfl, rfl, .inl ⟨rfl, rfl, rfl⟩⟩

/-- Memory and what is known of it are the same; descriptors may have been closed. -/
structure SameMem (s t : Server E) : Prop where
  heap : t.heap = s.heap
  next : t.next = s.next
  kept : t.kept = s.kept
  quiet : t.quiet ↔ s.quiet
  crashed : s.crashed = true → t.crashed = true
  fds : ∀ fd k, t.fds fd = some k → s.fds fd = some k
  client : ∀ k, (s.clients k).SameMem (t.clients k)

namespace SameMem

variable {s t u : Server E}

theorem refl (s : Server E) : SameMem s s := ⟨rfl, rfl, rfl, .rfl, fun h => h, fun _ _ h => h, fun _ => .refl _⟩

theorem setEngine (s : Server E) (e : E) : SameMem s { s with engine := e } :=
  ⟨rfl, rfl, rfl, .rfl, fun h => h, fun _ _ h => h, fun _ => .refl _⟩

theorem trans (h1 : SameMem s t) (h2 : SameMem t u) : SameMem s u :=
  ⟨h2.heap.trans h1.heap, h2.next.trans h1.next, h2.kept.trans h1.kept, h2.quiet.trans h1.quiet,
    fun h => h2.crashed (h1.crashed h), fun fd k h => h1.fds fd k (h2.fds fd k h), fun k => (h1.client k).trans (h2.client k)⟩

theorem modify (s : Server E) (k : Nat) {f : Client → Client} (hf : ∀ c : Client, c.SameMem (f c)) :
    SameMem s (s.modify k f) :=
  ⟨rfl, rfl, rfl, .rfl, fun h => h, fun _ _ h => h, s.modify_rel k f .refl (hf _)⟩

theorem crash (s : Server E) : SameMem s s.crash :=
  ⟨rfl, rfl, rfl, .rfl, fun _ => rfl, fun _ _ h => h, fun _ => .refl _⟩

variable (rt) in
theorem closeClient (s : Server E) (k : Nat) : SameMem s (closeClient rt s k) where
  heap := rfl
  next := rfl
  kept := rfl
  quiet := .rfl
  crashed h := h
  fds fd j h := by
    simp only [Net.closeClient, update_apply] at h
    grind
  client _ := .refl _

variable (rt) in
theorem flush (s : Server E) (k : Nat) (net : Nat → Outcome) : SameMem s (flush rt s k net) := by
  have hout : ∀ (s : Server E) (k : Nat) out, SameMem s (s.modify k fun c => c.setOut out) :=
    fun s k out => .modify s k fun c => ⟨rfl, rfl, rfl, rfl, rfl, .inl ⟨rfl, rfl, rfl⟩⟩
  have hdel : ∀ (s : Server E) (k : Nat) bs, SameMem s (s.modify k fun c => c.deliver bs) :=
    fun s k bs => .modify s k fun c => ⟨rfl, rfl, rfl, rfl, rfl, .inl ⟨rfl, rfl, rfl⟩⟩
  rw [Net.flush]
  split
  · exact .refl s
  split
  · exact (hout _ _ _).trans (closeClient ..)
  · dsimp only
    split
    · exact ((hout _ _ _).trans (hdel _ _ _)).trans (closeClient ..)
    · exact (hout _ _ _).trans (hdel _ _ _)

theorem release (s : Server E) (k : Nat) (bs : Bytes) : SameMem s (release s k bs) :=
  have h : SameMem s (s.modify k fun c => (c.answer k c.blockNo bs).unblock) :=
    .modify s k fun _ => ⟨rfl, rfl, rfl, rfl, rfl, .inr ⟨rfl, rfl⟩⟩
  ⟨h.heap, h.next, h.kept, h.quiet, h.crashed, h.fds, h.client⟩

variable (rt) in
theorem wakeOne (s : Server E) (k : Nat) (net : Nat → Outcome) : SameMem (tryWake rt s k).1 (wakeOne rt s k net) := by
  obtain ⟨heq, -⟩ | ⟨reply, -, -, heq⟩ := wakeOne_cases rt s k net
  · rw [heq]
    exact .refl _
  · rw [heq]
    have hrel := release (tryWake rt s k).1 k (rt.encode (tryWake rt s k).1.engine k reply)
    have hawake : SameMem (tryWake rt s k).1
        (awaken (tryWake rt s k).1 k (rt.encode (tryWake rt s k).1.engine k reply)) :=
      ⟨hrel.heap, hrel.next, hrel.kept, hrel.quiet, hrel.crashed, hrel.fds, hrel.client⟩
    exact hawake.trans (flush ..)

variable (rt) in
theorem expireOne (s : Server E) (now : Int) (net : Nat → Outcome) (fd : Nat) :
    SameMem s (expireOne rt s now net fd) := by
  rw [Net.expireOne]
  split
  · exact .refl s
  rename_i k hfd
  dsimp only
  split
  · exact .refl s
  · have hclear : ∀ t : Server E, SameMem t (t.modify k fun c => c.clearDeadline) := fun t =>
      .modify t k fun c => ⟨rfl, rfl, rfl, rfl, rfl, .inl ⟨rfl, rfl, rfl⟩⟩
    exact ((release ..).trans (hclear _)).trans (flush ..)

end SameMem

/-! ## Parts that make new arrays -/

/-- The client has the same buffer and stream; it waits in the same command, or no more. -/
structure Client.SameBuf (c c' : Client) : Prop where
  fd : c'.fd = c.fd
  queryBuf : c'.queryBuf = c.queryBuf
  sent : c'.sent = c.sent
  count : c'.count = c.count
  blocks : (c'.blockKeys = c.blockKeys ∧ c'.blockCmd = c.blockCmd ∧ c'.blockCmdLine = c.blockCmdLine) ∨
    c'.blockKeys = [] ∧ c'.blockCmd = []

theorem Client.SameMem.sameBuf {c c' : Client} (h : c.SameMem c') : c.SameBuf c' :=
  ⟨h.fd, h.queryBuf, h.sent, h.count, h.blocks⟩

/-- There may be new arrays, and the clients have the buffers and the streams that they had. -/
structure Grown (s t : Server E) : Prop where
  heap : s.heap.Extends t.heap
  next : t.next = s.next
  crashed : s.crashed = true → t.crashed = true
  fds : ∀ fd k, t.fds fd = some k → s.fds fd = some k
  client : ∀ k, (s.clients k).SameBuf (t.clients k)

theorem extends_allocParts (h : Heap) (parts : List Part) : h.Extends (allocParts h parts).1 := by
  induction parts generalizing h with
  | nil => exact .refl h
  | cons part parts ih =>
    cases part with
    | inl arg => exact ih h
    | inr bs => exact (h.extends_alloc ..).trans (ih _)

namespace Grown

variable {s t : Server E} {k no : Nat} {cmdLine : CmdSlices}

theorem of_same (h : SameMem s t) : Grown s t :=
  ⟨by rw [h.heap]; exact .refl _, h.next, h.crashed, h.fds, fun k => (h.client k).sameBuf⟩

theorem call (hx : s.heap.Extends (rt.exec s.engine k s.heap cmdLine).heap) : Grown s (call rt s k cmdLine).1 := by
  obtain ⟨clients, heq, hcl⟩ := call_spec rt s k cmdLine
  rw [heq]
  exact ⟨hx, rfl, id, fun _ _ => id, fun j => (hcl j).sameMem.sameBuf⟩

theorem execute (hx : s.heap.Extends (rt.exec s.engine k s.heap cmdLine).heap) :
    Grown s (execute rt s k no cmdLine).1 := by
  have hcall : Grown s (Net.call rt s k cmdLine).1 := call hx
  refine ⟨hcall.heap, hcall.next, hcall.crashed, hcall.fds, fun j => ?_⟩
  exact modify_rel _ k (fun c => Client.answer (c.executed ..) ..)
    (r := fun c c' => ∀ c₀ : Client, c₀.SameBuf c → c₀.SameBuf c') (fun _ _ => id)
    (fun _ h => ⟨h.fd, h.queryBuf, h.sent, h.count, h.blocks⟩) j _ (hcall.client j)

theorem tryWake {m : Nat} (hx : let p := allocParts s.heap (wakeParts s.heap (s.clients m))
    p.1.Extends (rt.exec s.engine m p.1 p.2).heap) : Grown s (tryWake rt s m).1 := by
  have hcall : Grown { s with heap := (allocParts s.heap (wakeParts s.heap (s.clients m))).1 } (Net.tryWake rt s m).1 :=
    call hx
  exact ⟨(extends_allocParts ..).trans hcall.heap, hcall.next, hcall.crashed, hcall.fds, hcall.client⟩

end Grown

/-! ## The rule -/

def FdsOk (s : Server E) : Prop := ∀ fd k, s.fds fd = some k → k < s.next

theorem SameMem.fdsOk {s t : Server E} (h : SameMem s t) (hs : FdsOk s) : FdsOk t := fun fd k hk => by
  rw [h.next]
  exact hs fd k (h.fds fd k hk)

variable {s : Server E}

theorem FdsOk.call (hs : FdsOk s) (k : Nat) (cmdLine : CmdSlices) : FdsOk (call rt s k cmdLine).1 := by
  obtain ⟨clients, heq, -⟩ := call_spec rt s k cmdLine
  rw [heq]
  exact hs

theorem FdsOk.tryWake (hs : FdsOk s) (m : Nat) : FdsOk (tryWake rt s m).1 := by
  obtain ⟨clients, heq, -⟩ := tryWake_spec rt s m
  rw [heq]
  exact hs

theorem FdsOk.accept (hs : FdsOk s) (fd : Nat) : FdsOk (accept s fd) := by
  rw [Net.accept]
  split
  · exact hs
  intro fd' k hk
  have hlt := hs fd' k
  grind [update_apply]

/-- What is to be shown of an invariant `X` of memory. `Rd` is the condition on what is read from a
client; `W k` stands for `X` when bytes of client `k` have arrived and were not looked at, and
`Y k no cmds` while its commands `cmds` are still to be run, the first of them command `no`. -/
structure MemInv (rt : Runtime E R) (Rd : Server E → Nat → List Bytes → Bool → Prop)
    (X : Server E → Prop) (W : Nat → Server E → Prop)
    (Y : Nat → Nat → List CmdSlices → Server E → Prop) : Prop where
  same {s t : Server E} : SameMem s t → X s → X t
  accept {s : Server E} {fd : Nat} : FdsOk s → X s → s.fds fd = none → X (accept s fd)
  read {s : Server E} {k : Nat} {chunks : List Bytes} {fin : Bool} : X s → k < s.next →
    (s.clients k).blockKeys = [] → Rd s k chunks fin → W k (readAll rt s k chunks)
  sameRead {s t : Server E} {k : Nat} : SameMem s t → W k s → W k t
  close {s : Server E} {k : Nat} : W k s → X (closeClient rt s k)
  crash {s : Server E} {k : Nat} : W k s → X s.crash
  take {s : Server E} {k consumed : Nat} {chunks : List Bytes} {cmds : List Args} : X s → k < s.next →
    (s.clients k).blockKeys = [] → Rd s k chunks false →
    parseRequests ((readAll rt s k chunks).heap.read
      ((readAll rt s k chunks).clients k).queryBuf.slice) = .ok (cmds, consumed) →
    Y k (s.clients k).count (cmds.map (cmdSlices ((readAll rt s k chunks).clients k).queryBuf.arr))
      (takeCmds (readAll rt s k chunks) k cmds.length consumed)
  sameRun {s t : Server E} {k no : Nat} {cmds : List CmdSlices} : SameMem s t → Y k no cmds s → Y k no cmds t
  exec {s : Server E} {k no : Nat} {cmdLine : CmdSlices} {cmds : List CmdSlices} :
    Y k no (cmdLine :: cmds) s → Y k (no + 1) cmds (execute rt s k no cmdLine).1
  wake {s : Server E} {k no : Nat} {cmds : List CmdSlices} (m : Nat) : Y k no cmds s → Y k no cmds (tryWake rt s m).1
  block {s : Server E} {k no : Nat} {now : Int} {net : Nat → Outcome} {cmdLine : CmdSlices}
    {cmds : List CmdSlices} : Y k no (cmdLine :: cmds) s →
    (runCmd rt s k no now net cmdLine).2 = true → X (runCmd rt s k no now net cmdLine).1
  done {s : Server E} {k no : Nat} {cmds : List CmdSlices} : Y k no cmds s → X s
  background {s : Server E} (e : E) : X s → X { s with engine := e }

namespace MemInv

variable {Rd : Server E → Nat → List Bytes → Bool → Prop} {X : Server E → Prop}
  {W : Nat → Server E → Prop} {Y : Nat → Nat → List CmdSlices → Server E → Prop} {s : Server E} {k no : Nat}
  {net : Nat → Outcome}

variable {cmds : List CmdSlices}

theorem wakeBlockedClients (hinv : MemInv rt Rd X W Y) (key : Bytes) (h : FdsOk s ∧ Y k no cmds s) :
    FdsOk (wakeBlockedClients rt s key net) ∧ Y k no cmds (wakeBlockedClients rt s key net) := by
  refine foldl_invariant (P := fun s => FdsOk s ∧ Y k no cmds s) (fun s m h => ?_) h (s.waiters key)
  have hsame := SameMem.wakeOne rt s m net
  exact ⟨hsame.fdsOk (h.1.tryWake m), hinv.sameRun hsame (hinv.wake m h.2)⟩

theorem wakeAfter (hinv : MemInv rt Rd X W Y) (net : Nat → Outcome) (name : Bytes)
    (cmdLine : CmdSlices) (h : FdsOk s ∧ Y k no cmds s) :
    FdsOk (wakeAfter rt s name cmdLine net) ∧ Y k no cmds (wakeAfter rt s name cmdLine net) := by
  rw [Net.wakeAfter]
  split <;> split
  · exact hinv.wakeBlockedClients _ (hinv.wakeBlockedClients _ h)
  · exact hinv.wakeBlockedClients _ h
  · exact hinv.wakeBlockedClients _ h
  · exact h

variable (rt k no) in
theorem fdsOk_execute (hs : FdsOk s) (cmdLine : CmdSlices) : FdsOk (execute rt s k no cmdLine).1 := hs.call k cmdLine

theorem runCmds (hinv : MemInv rt Rd X W Y) (net : Nat → Outcome) (now : Int) (cmds : List CmdSlices)
    (s : Server E) (no : Nat) (hs : FdsOk s) (hY : Y k no cmds s) :
    FdsOk (runCmds rt s k no now net cmds) ∧ X (runCmds rt s k no now net cmds) := by
  induction cmds generalizing s no with
  | nil => exact ⟨hs, hinv.done hY⟩
  | cons cmdLine cmds ih =>
    cases cmdLine with
    | nil => exact ⟨hs, hinv.same (.crash s) (hinv.done hY)⟩
    | cons arg args =>
      rw [Net.runCmds]
      obtain heq | ⟨-, -, -, heq⟩ := runCmd_cases rt s k no now net (arg :: args)
      · rw [heq, if_neg (by simp)]
        have h := hinv.wakeAfter net (cmdName (cmdStrings s.heap (arg :: args))) (arg :: args)
          ⟨fdsOk_execute rt k no hs (arg :: args), hinv.exec hY⟩
        exact ih _ _ h.1 h.2
      · have hr : (runCmd rt s k no now net (arg :: args)).2 = true := by rw [heq]
        rw [if_pos hr]
        refine ⟨?_, hinv.block hY hr⟩
        rw [heq]
        exact fdsOk_execute rt k no hs (arg :: args)

theorem onReadable (hinv : MemInv rt Rd X W Y) {now : Int} {chunks : List Bytes} {fin : Bool}
    (hs : FdsOk s) (hX : X s) (hk : k < s.next) (hb : (s.clients k).blockKeys = []) (hok : Rd s k chunks fin) :
    FdsOk (onReadable rt s k chunks fin now net) ∧ X (onReadable rt s k chunks fin now net) := by
  have hread := hinv.read hX hk hb hok
  have hfds : FdsOk (readAll rt s k chunks) := hs
  rw [Net.onReadable]
  cases fin with
  | true =>
    have hgone : SameMem (readAll rt s k chunks) ((readAll rt s k chunks).modify k fun c => c.noteGone true) :=
      .modify _ k fun c => ⟨rfl, rfl, rfl, rfl, rfl, .inl ⟨rfl, rfl, rfl⟩⟩
    have hclose := hgone.trans (.closeClient rt _ k)
    exact ⟨hclose.fdsOk hfds, hinv.close (hinv.sameRead hgone hread)⟩
  | false =>
    rw [if_neg (by simp)]
    cases hparse : parseRequests ((readAll rt s k chunks).heap.read
        ((readAll rt s k chunks).clients k).queryBuf.slice) with
    | error e =>
      have hclose := SameMem.closeClient rt (readAll rt s k chunks) k
      cases e with
      | panic => exact ⟨hfds, hinv.crash hread⟩
      | incomplete => exact ⟨hclose.fdsOk hfds, hinv.close hread⟩
      | protocol => exact ⟨hclose.fdsOk hfds, hinv.close hread⟩
    | ok r =>
      obtain ⟨cmds, consumed⟩ := r
      have hrun := hinv.runCmds net now _ (takeCmds (readAll rt s k chunks) k cmds.length consumed)
        (s.clients k).count hfds (hinv.take hX hk hb hok hparse)
      dsimp only
      split
      · exact hrun
      · have hflush := SameMem.flush rt (Net.runCmds rt
          (takeCmds (readAll rt s k chunks) k cmds.length consumed) k (s.clients k).count now net
          (cmds.map (cmdSlices ((readAll rt s k chunks).clients k).queryBuf.arr))) k net
        exact ⟨hflush.fdsOk hrun.1, hinv.same hflush hrun.2⟩

end MemInv

/-- The condition `Rd` on the events: on what is read from clients that do not wait. -/
def ReadsOk (Rd : Server E → Nat → List Bytes → Bool → Prop) (s : Server E) : Event E → Prop
  | .ready fd reads _ _ _ => ∀ k ∈ s.fds fd, (s.clients k).blockKeys = [] → ∀ r ∈ reads, Rd s k r.1 r.2
  | .accept _ => True
  | .expire _ _ _ => True
  | .background _ => True

instance {Rd : Server E → Nat → List Bytes → Bool → Prop}
    [∀ s k chunks fin, Decidable (Rd s k chunks fin)] (s : Server E) : ∀ ev, Decidable (ReadsOk Rd s ev)
  | .accept _ => .isTrue trivial
  | .ready fd reads _ _ _ => inferInstanceAs (Decidable (∀ k ∈ s.fds fd, (s.clients k).blockKeys = [] →
      ∀ r ∈ reads, Rd s k r.1 r.2))
  | .expire _ _ _ => .isTrue trivial
  | .background _ => .isTrue trivial

theorem MemInv.step {Rd : Server E → Nat → List Bytes → Bool → Prop} {X : Server E → Prop}
    {W : Nat → Server E → Prop} {Y : Nat → Nat → List CmdSlices → Server E → Prop} (hinv : MemInv rt Rd X W Y)
    (s : Server E) (ev : Event E) (h : FdsOk s ∧ X s) (hok : ReadsOk Rd s ev) :
    FdsOk (step rt s ev) ∧ X (step rt s ev) := by
  obtain ⟨hs, hX⟩ := h
  rw [Net.step.eq_def]
  split
  · exact ⟨hs, hX⟩
  cases ev with
  | accept fd =>
    refine ⟨hs.accept fd, ?_⟩
    dsimp only
    cases hfd : s.fds fd with
    | none => exact hinv.accept hs hX hfd
    | some j =>
      rw [Net.accept, hfd]
      exact hX
  | background e => exact ⟨hs, hinv.background e hX⟩
  | expire order now net =>
    refine foldl_invariant (P := fun s => FdsOk s ∧ X s) (fun s fd h => ?_) ⟨hs, hX⟩ order
    have hsame := SameMem.expireOne rt s now net fd
    exact ⟨hsame.fdsOk h.1, hinv.same hsame h.2⟩
  | ready fd reads writable now net =>
    dsimp only
    cases hfd : s.fds fd with
    | none => exact ⟨hs, hX⟩
    | some k =>
      have hrun : FdsOk (onReport rt s k now net reads) ∧ X (onReport rt s k now net reads) := by
        cases reads with
        | none => exact ⟨hs, hX⟩
        | some r =>
          rw [onReport]
          split
          · exact hinv.onReadable hs hX (hs fd k hfd) ‹_› (hok k hfd ‹_› r rfl)
          · have hgone : SameMem s (s.modify k fun c => c.noteGone r.2) :=
              .modify _ k fun c => ⟨rfl, rfl, rfl, rfl, rfl, .inl ⟨rfl, rfl, rfl⟩⟩
            exact ⟨hgone.fdsOk hs, hinv.same hgone hX⟩
      dsimp only
      split
      · exact hrun
      · have hflush := SameMem.flush rt (onReport rt s k now net reads) k net
        exact ⟨hflush.fdsOk hrun.1, hinv.same hflush hrun.2⟩

/-! ## What the buffers hold -/

theorem arr_of_mem_cmdSlices {arr : Nat} {args : Args} {a : Option Slice} {sl : Slice}
    (ha : a ∈ cmdSlices arr args) (hsl : sl ∈ a) : sl.arr = arr := by
  obtain ⟨sp, -, rfl⟩ := List.mem_map.1 ha
  obtain ⟨-, -, rfl⟩ := Option.map_eq_some_iff.1 hsl
  rfl

/-- The buffer has grown by `data`: in its array, or in a new one. -/
structure Appended (h : Heap) (q : QueryBuf) (data : Bytes) (h' : Heap) (q' : QueryBuf) : Prop where
  bytes : h'.read q'.slice = h.read q.slice ++ data
  next_le : h.next ≤ h'.next
  arr_lt : q'.arr < h'.next
  arr_cases : q'.arr = q.arr ∨ h.next ≤ q'.arr
  others : ∀ i < h.next, i ≠ q.arr → h'.arr i = h.arr i

variable {q : QueryBuf}

theorem QueryBuf.append_spec (grow : Nat → Nat → Nat) {h : Heap} (hq : q.arr < h.next) (data : Bytes) :
    Appended h q data (q.append grow h data).1 (q.append grow h data).2 := by
  rw [QueryBuf.append]
  split
  · refine ⟨?_, le_refl _, hq, .inl rfl, fun i _ hi => Heap.arr_write_of_ne hi ..⟩
    have hself := h.read_write_self q.arr q.len data
    have hfront : (h.write q.arr q.len data).read ⟨q.arr, 0, q.len⟩ = h.read ⟨q.arr, 0, q.len⟩ :=
      Heap.read_write_of_disjoint (.inr (.inr (.inr (.inr (by dsimp only; omega)))))
    rw [QueryBuf.slice, Heap.read_add, hfront, zero_add, hself]
    rfl
  · refine ⟨?_, Nat.le_succ _, Nat.lt_succ_self _, .inr (le_refl _), fun i hi _ =>
      (Heap.extends_alloc h ..).arr_eq i hi⟩
    have hlen : (h.read q.slice ++ data).length = q.len + data.length := by
      rw [List.length_append, Heap.length_read]
      rfl
    have hself := h.read_alloc_self (max (q.len + data.length)
      (grow (h.arr q.arr).cap (q.len + data.length))) (h.read q.slice ++ data)
    rw [hlen] at hself
    exact hself

theorem QueryBuf.appendAll_spec (grow : Nat → Nat → Nat) {h : Heap} (hq : q.arr < h.next) (chunks : List Bytes) :
     Appended h q chunks.flatten (q.appendAll grow h chunks).1 (q.appendAll grow h chunks).2 := by
  induction chunks generalizing h q with
  | nil =>
    exact ⟨(List.append_nil _).symm, le_refl _, hq, .inl rfl, fun _ _ _ => rfl⟩
  | cons data chunks ih =>
    have h1 := q.append_spec grow hq data
    have h2 := ih h1.arr_lt
    refine ⟨?_, h1.next_le.trans h2.next_le, h2.arr_lt, ?_, fun i hi hne => ?_⟩
    · rw [QueryBuf.appendAll, h2.bytes, h1.bytes, List.append_assoc, List.flatten_cons]
    · rcases h2.arr_cases with heq | hle
      · rw [QueryBuf.appendAll, heq]
        exact h1.arr_cases
      · exact .inr (h1.next_le.trans hle)
    · have hne' : i ≠ (q.append grow h data).2.arr := by
        rcases h1.arr_cases with heq | hle
        · rw [heq]
          exact hne
        · exact Nat.ne_of_lt (Nat.lt_of_lt_of_le hi hle)
      exact (h2.others i (Nat.lt_of_lt_of_le hi h1.next_le) hne').trans (h1.others i hi hne)

theorem QueryBuf.compact_spec (h : Heap) {consumed : Nat} (hc : consumed ≤ q.len) :
    (q.compact h consumed).1.read (q.compact h consumed).2.slice = (h.read q.slice).drop consumed ∧
      (q.compact h consumed).2.arr = q.arr ∧ (q.compact h consumed).1.next = h.next ∧
      ∀ i ≠ q.arr, (q.compact h consumed).1.arr i = h.arr i := by
  rw [QueryBuf.compact]
  split
  · rename_i h0
    rw [h0]
    exact ⟨rfl, rfl, rfl, fun _ _ => rfl⟩
  refine ⟨?_, rfl, rfl, fun i hi => Heap.arr_write_of_ne hi ..⟩
  have hlen : (h.read ⟨q.arr, consumed, q.len - consumed⟩).length = q.len - consumed := Heap.length_read ..
  have hself := h.read_write_self q.arr 0 (h.read ⟨q.arr, consumed, q.len - consumed⟩)
  rw [hlen] at hself
  have hdrop := h.take_drop_read q.slice (i := consumed) (l := q.len - consumed)
    (by rw [QueryBuf.slice]; dsimp only; omega)
  rw [List.take_of_length_le (by rw [List.length_drop, Heap.length_read]; exact le_refl _)] at hdrop
  rw [QueryBuf.slice, hself, hdrop, QueryBuf.slice]
  rw [zero_add]

/-- Each client has a buffer of its own, and in it what follows the commands taken from its stream. -/
structure Buffers (s : Server E) : Prop where
  arr_lt : ∀ k < s.next, (s.clients k).queryBuf.arr < s.heap.next
  arr_ne : ∀ j < s.next, ∀ k < s.next, j ≠ k → (s.clients j).queryBuf.arr ≠ (s.clients k).queryBuf.arr
  stream : ∀ k < s.next, afterCommands (s.clients k).count (s.clients k).sent =
    some (s.heap.read (s.clients k).queryBuf.slice)

namespace Buffers

variable {s t : Server E} {k no : Nat}

section

variable (hs : Buffers s)
include hs

theorem extend (hx : s.heap.Extends t.heap) (hnext : t.next = s.next)
    (hcl : ∀ j, (t.clients j).queryBuf = (s.clients j).queryBuf ∧
      (t.clients j).sent = (s.clients j).sent ∧ (t.clients j).count = (s.clients j).count) : Buffers t where
  arr_lt j hj := by
    rw [hnext] at hj
    rw [(hcl j).1]
    exact lt_of_lt_of_le (hs.arr_lt j hj) hx.next_le
  arr_ne i hi j hj hij := by
    rw [hnext] at hi hj
    rw [(hcl i).1, (hcl j).1]
    exact hs.arr_ne i hi j hj hij
  stream j hj := by
    rw [hnext] at hj
    rw [(hcl j).1, (hcl j).2.1, (hcl j).2.2, hx.read (hs.arr_lt j hj)]
    exact hs.stream j hj

theorem grown (h : Grown s t) : Buffers t :=
  hs.extend h.heap h.next fun j => ⟨(h.client j).queryBuf, (h.client j).sent, (h.client j).count⟩

theorem block (preLen : Nat) (name : Bytes) (keys : List Bytes) (deadline : Int) (cmdLine : CmdSlices) :
    Buffers ((s.modify k fun c => c.block no preLen name keys deadline cmdLine).register k keys) :=
  hs.extend (.refl _) rfl fun j => s.modify_rel k (fun c => c.block no preLen name keys deadline cmdLine)
    (r := fun c c' => c'.queryBuf = c.queryBuf ∧ c'.sent = c.sent ∧ c'.count = c.count)
    (fun _ => ⟨rfl, rfl, rfl⟩) ⟨rfl, rfl, rfl⟩ j

theorem accept {fd : Nat} (hfd : s.fds fd = none) : Buffers (accept s fd) := by
  have hx := s.heap.extends_alloc 1024 []
  rw [Net.accept, hfd]
  refine ⟨fun j hj => ?_, fun i hi j hj hij => ?_, fun j hj => ?_⟩
  · have hlt := hs.arr_lt j
    grind [update_apply, Heap.alloc]
  · have hi' := hs.arr_lt i
    have hj' := hs.arr_lt j
    have hne := hs.arr_ne i
    grind [update_apply]
  · dsimp only at hj ⊢
    by_cases hn : j = s.next
    · rw [hn, update_self]
      rfl
    · rw [update_of_ne hn, hx.read (hs.arr_lt j (by omega))]
      exact hs.stream j (by omega)

theorem readAll (hk : k < s.next) (chunks : List Bytes) : Buffers (readAll rt s k chunks) := by
  have happ := (s.clients k).queryBuf.appendAll_spec rt.grow (hs.arr_lt k hk) chunks
  have hnew : ∀ j < s.next, j ≠ k → (s.clients j).queryBuf.arr ≠
      ((s.clients k).queryBuf.appendAll rt.grow s.heap chunks).2.arr := fun j hj hne => by
    rcases happ.arr_cases with heq | hle
    · rw [heq]
      exact hs.arr_ne j hj k hk hne
    · exact Nat.ne_of_lt (Nat.lt_of_lt_of_le (hs.arr_lt j hj) hle)
  rw [Net.readAll]
  refine ⟨fun j hj => ?_, fun i hi j hj hij => ?_, fun j hj => ?_⟩
  · have hlt := hs.arr_lt j hj
    simp only [Server.modify, update_apply]
    grind [happ.arr_lt, happ.next_le, Client.read]
  · have hne := hs.arr_ne i hi j hj hij
    simp only [Server.modify, update_apply]
    grind [Client.read, hnew i hi, hnew j hj]
  · by_cases hjk : j = k
    · rw [hjk, clients_modify_self]
      exact (afterCommands_append (hs.stream k hk) chunks.flatten).trans (congrArg some happ.bytes.symm)
    · rw [clients_modify_of_ne _ _ _ hjk]
      refine (hs.stream j hj).trans (congrArg some (Heap.read_congr ?_).symm)
      exact happ.others _ (hs.arr_lt j hj) (hs.arr_ne j hj k hk hjk)

theorem takeCmds (hk : k < s.next) {cmds : List Args} {consumed : Nat}
    (hparse : parseRequests (s.heap.read (s.clients k).queryBuf.slice) = .ok (cmds, consumed)) :
    Buffers (takeCmds s k cmds.length consumed) := by
  obtain ⟨hlen, hafter, -, -⟩ := parseRequests_spec hparse
  rw [Heap.length_read] at hlen
  obtain ⟨hbytes, harr, hnext, hothers⟩ := QueryBuf.compact_spec s.heap hlen
  have hkeep : ∀ j, ((Net.takeCmds s k cmds.length consumed).clients j).queryBuf.arr =
      (s.clients j).queryBuf.arr := fun j => by
    rw [Net.takeCmds]
    by_cases hjk : j = k
    · rw [hjk, clients_modify_self]
      exact harr
    · rw [clients_modify_of_ne _ _ _ hjk]
  refine ⟨fun j hj => ?_, fun i hi j hj hij => ?_, fun j hj => ?_⟩
  · rw [hkeep]
    exact lt_of_lt_of_eq (hs.arr_lt j hj) hnext.symm
  · rw [hkeep, hkeep]
    exact hs.arr_ne i hi j hj hij
  · rw [Net.takeCmds]
    by_cases hjk : j = k
    · rw [hjk, clients_modify_self]
      exact (afterCommands_add (hs.stream k hk)).trans (hafter.trans (congrArg some hbytes.symm))
    · rw [clients_modify_of_ne _ _ _ hjk]
      refine (hs.stream j hj).trans (congrArg some (Heap.read_congr ?_).symm)
      exact hothers _ (hs.arr_ne j hj k hk hjk)

end

end Buffers

/-- The buffers of the open clients hold no whole command, other than those of `except`. -/
def NoCommandLeft (except : Nat → Prop) (s : Server E) : Prop :=
  s.crashed = true ∨ ∀ k < s.next, ¬ except k → s.fds (s.clients k).fd = some k →
    frontCommand (s.heap.read (s.clients k).queryBuf.slice) = none

/-- The buffers are in order: `Buffers`, and no command waits in one. -/
structure Emptied (except : Nat → Prop) (s : Server E) : Prop extends Buffers s where
  noCommand : NoCommandLeft except s

namespace Emptied

variable {s t : Server E} {k no : Nat} {except except' : Nat → Prop}

section

variable (hs : Emptied except s)
include hs

theorem noCommand_of (hnext : t.next = s.next) (hcrash : s.crashed = true → t.crashed = true)
    (hcl : ∀ j < s.next, ¬ except' j → t.fds (t.clients j).fd = some j → ¬ except j ∧
      s.fds (s.clients j).fd = some j ∧ t.heap.read (t.clients j).queryBuf.slice =
        s.heap.read (s.clients j).queryBuf.slice) : NoCommandLeft except' t := by
  rcases hs.noCommand with hc | hfront
  · exact .inl (hcrash hc)
  refine .inr fun j hj hex hopen => ?_
  rw [hnext] at hj
  obtain ⟨hex', hopen', hread⟩ := hcl j hj hex hopen
  rw [hread]
  exact hfront j hj hex' hopen'

theorem grown (h : Grown s t) : Emptied except t where
  toBuffers := hs.toBuffers.grown h
  noCommand := hs.noCommand_of h.next h.crashed fun j hj hex hopen => by
    rw [(h.client j).fd] at hopen
    rw [(h.client j).queryBuf]
    exact ⟨hex, h.fds _ _ hopen, h.heap.read (hs.arr_lt j hj)⟩

theorem block (preLen : Nat) (name : Bytes) (keys : List Bytes)
    (deadline : Int) (cmdLine : CmdSlices) : Emptied except
      ((s.modify k fun c => c.block no preLen name keys deadline cmdLine).register k keys) where
  toBuffers := hs.toBuffers.block ..
  noCommand := hs.noCommand_of rfl (fun h => h) fun j _ hex hopen => by
    have hcl := s.modify_rel k (fun c => c.block no preLen name keys deadline cmdLine)
      (r := fun c c' => c'.fd = c.fd ∧ c'.queryBuf = c.queryBuf) (fun _ => ⟨rfl, rfl⟩) ⟨rfl, rfl⟩ j
    rw [register] at hopen ⊢
    dsimp only at hopen ⊢
    rw [hcl.1] at hopen
    rw [hcl.2]
    exact ⟨hex, hopen, rfl⟩

theorem accept {fd : Nat} (hfd : s.fds fd = none) : Emptied except (accept s fd) where
  toBuffers := hs.toBuffers.accept hfd
  noCommand := by
    have hx := s.heap.extends_alloc 1024 []
    rw [Net.accept, hfd]
    rcases hs.noCommand with hc | hfront
    · exact .inl hc
    refine .inr fun j hj hex hopen => ?_
    dsimp only at hj hopen ⊢
    by_cases hn : j = s.next
    · rw [hn, update_self]
      rfl
    rw [update_of_ne hn] at hopen ⊢
    rw [hx.read (hs.arr_lt j (by omega))]
    refine hfront j (by omega) hex ?_
    by_cases hf : (s.clients j).fd = fd
    · rw [hf, update_self] at hopen
      exact absurd (Option.some.inj hopen).symm hn
    · rwa [update_of_ne hf] at hopen

end

variable (rt) in
theorem readAll (hs : Emptied (fun _ => False) s) (hk : k < s.next) (chunks : List Bytes) :
    Emptied (· = k) (readAll rt s k chunks) where
  toBuffers := hs.toBuffers.readAll hk chunks
  noCommand := by
    have happ := (s.clients k).queryBuf.appendAll_spec rt.grow (hs.arr_lt k hk) chunks
    rw [Net.readAll]
    refine hs.noCommand_of rfl (fun h => h) fun j hj hne hopen => ?_
    rw [clients_modify_of_ne _ _ _ hne] at hopen ⊢
    exact ⟨fun h => h, hopen, Heap.read_congr (happ.others _ (hs.arr_lt j hj) (hs.arr_ne j hj k hk hne))⟩

theorem takeCmds (hs : Emptied (· = k) s) (hk : k < s.next) {cmds : List Args} {consumed : Nat}
    (hparse : parseRequests (s.heap.read (s.clients k).queryBuf.slice) = .ok (cmds, consumed)) :
    Emptied (fun _ => False) (takeCmds s k cmds.length consumed) where
  toBuffers := hs.toBuffers.takeCmds hk hparse
  noCommand := by
    obtain ⟨hlen, -, hnone, -⟩ := parseRequests_spec hparse
    rw [Heap.length_read] at hlen
    obtain ⟨hbytes, -, -, hothers⟩ := QueryBuf.compact_spec s.heap hlen
    rw [Net.takeCmds]
    rcases hs.noCommand with hc | hfront
    · exact .inl hc
    refine .inr fun j hj _ hopen => ?_
    by_cases hjk : j = k
    · rw [hjk, clients_modify_self]
      exact (congrArg frontCommand hbytes).trans hnone
    · rw [clients_modify_of_ne _ _ _ hjk] at hopen ⊢
      rw [← hfront j hj hjk hopen]
      exact congrArg frontCommand (Heap.read_congr (hothers _ (hs.arr_ne j hj k hk hjk)))

theorem closeClient (hs : Emptied (· = k) s) : Emptied (fun _ => False) (closeClient rt s k) where
  toBuffers := hs.toBuffers.grown (.of_same (.closeClient rt s k))
  noCommand := hs.noCommand_of rfl (fun h => h) fun j _ _ hopen => by
    rw [Net.closeClient] at hopen
    dsimp only at hopen
    have hfd : (s.clients j).fd ≠ (s.clients k).fd := fun heq => by
      rw [heq, update_self] at hopen
      cases hopen
    rw [update_of_ne hfd] at hopen
    exact ⟨fun heq => hfd (by rw [heq]), hopen, rfl⟩

end Emptied

/-- As long as the engine leaves the arrays alone, the buffer of every open client holds what follows
the commands taken from its stream, and no command is left in it. -/
theorem emptied_inv : MemInv rt (fun _ _ _ _ => True) (fun s : Server E => s.quiet → Emptied (fun _ => False) s)
    (fun k s => s.quiet → Emptied (· = k) s) fun _ _ _ s => s.quiet → Emptied (fun _ => False) s where
  same h hX hq := (hX (h.quiet.1 hq)).grown (.of_same h)
  accept _ hX hfd hq := by
    refine (hX ?_).accept hfd
    rwa [Net.accept, hfd] at hq
  read hX hk _ _ hq := (hX hq).readAll rt hk _
  sameRead h hW hq := (hW (h.quiet.1 hq)).grown (.of_same h)
  close hW hq := (hW hq).closeClient
  crash hW hq := ⟨(hW hq).toBuffers.grown (.of_same (.crash _)), .inl rfl⟩
  take {_ _ _ chunks _} hX hk _ _ hparse hq := ((hX hq).readAll rt hk chunks).takeCmds hk hparse
  sameRun h hY hq := (hY (h.quiet.1 hq)).grown (.of_same h)
  exec hY hq := by
    obtain ⟨hq, hx⟩ := (quiet_call ..).1 hq
    exact (hY hq).grown (.execute hx)
  wake _ hY hq := by
    obtain ⟨hq, hx⟩ := (quiet_call ..).1 hq
    exact (hY hq).grown (.tryWake hx)
  block {s k no now net cmdLine cmds} hY hr hq := by
    obtain heq | ⟨-, -, -, heq⟩ := runCmd_cases rt s k no now net cmdLine
    · rw [heq] at hr
      cases hr
    · rw [heq] at hq ⊢
      obtain ⟨hq, hx⟩ := (quiet_call ..).1 hq
      exact ((hY hq).grown (.execute hx)).block ..
  done hY := hY
  background e hX hq := (hX hq).grown (.of_same (.setEngine _ e))

/-- An engine that never writes to an array that there is. -/
def Still (rt : Runtime E R) : Prop := ∀ e k (h : Heap) cmdLine, h.Extends (rt.exec e k h cmdLine).heap

theorem quiet_inv (hstill : Still rt) : MemInv rt (fun _ _ _ _ => True) (fun s : Server E => s.quiet)
    (fun _ s => s.quiet) fun _ _ _ s => s.quiet where
  same h hX := h.quiet.2 hX
  accept _ hX hfd := by
    rwa [Net.accept, hfd]
  read hX _ _ _ := hX
  sameRead h hW := h.quiet.2 hW
  close hW := hW
  crash hW := hW
  take hX _ _ _ _ := hX
  sameRun h hY := h.quiet.2 hY
  exec hY := (quiet_call ..).2 ⟨hY, hstill ..⟩
  wake _ hY := (quiet_call ..).2 ⟨hY, hstill ..⟩
  block {s k no now net cmdLine cmds} hY hr := by
    obtain heq | ⟨-, -, -, heq⟩ := runCmd_cases rt s k no now net cmdLine
    · rw [heq] at hr
      cases hr
    · rw [heq]
      exact (quiet_call ..).2 ⟨hY, hstill ..⟩
  done hY := hY
  background _ hX := hX

theorem MemInv.run {X : Server E → Prop} {W : Nat → Server E → Prop}
    {Y : Nat → Nat → List CmdSlices → Server E → Prop} (hinv : MemInv rt (fun _ _ _ _ => True) X W Y)
    {e : E} (hstart : X (.start e)) (evs : List (Event E)) : FdsOk (run rt (.start e) evs) ∧ X (run rt (.start e) evs) := by
  refine foldl_invariant (fun s ev h => hinv.step s ev h ?_) ⟨fun _ _ h => absurd h (by simp [start]), hstart⟩ evs
  cases ev <;> simp [ReadsOk]

theorem Still.quiet (hstill : Still rt) (e : E) (evs : List (Event E)) : (run rt (.start e) evs).quiet :=
  ((quiet_inv hstill).run trivial evs).2

end Hayakv.Net
