import Hayakv.Net.Registry
import Hayakv.Net.SmallStore
import Hayakv.Net.Waiting

/-!
# Wake-ups

A client that waits for a list is tried again when `LPUSH` or `RPUSH` names one of its
keys, and only then. `Served` is what the loop keeps of this: no client waits for a list
that has elements, and whatever was found for a client reached it. While the clients of
a key are tried one after the other it holds of all but those still to be tried.
-/

namespace Hayakv.Net

open Memory (Arr Slice Heap)
open Server
open Function
open List

variable {E R : Type} {rt : Runtime E R}

/-! ## Engines with lists -/

/-- What the loop relies on. `ready e k key` says that client `k` would find an element in the list at
`key`, and `tame` is a class of commands: among these only `LPUSH` and `RPUSH` give another client
something to find, in the list they name first. -/
structure ListLaws (rt : Runtime E R) (ready : E → Nat → Bytes → Prop)
    (tame : E → Nat → List (Option Bytes) → Prop) : Prop where
  keepArgs : BlocksKeepArgs rt
  block : ∀ e k line, isBlockCommand (lineName line) = true → tame e k line
  heap : ∀ e k (h : Heap) cmdLine, tame e k (cmdBytes h cmdLine) → h.Extends (rt.exec e k h cmdLine).heap
  adds : ∀ e k h cmdLine, tame e k (cmdBytes h cmdLine) → ∀ j ≠ k, ∀ key,
    ready (rt.exec e k h cmdLine).state j key → ready e j key ∨
      isListPushCommand (cmdName (cmdStrings h cmdLine)) = true ∧ 2 ≤ cmdLine.length ∧
        (cmdStrings h cmdLine).getD 1 [] = key
  finds : ∀ e k h cmdLine, isBlockCommand (cmdName (cmdStrings h cmdLine)) = true →
    isStreamRead (cmdName (cmdStrings h cmdLine)) = false →
    (∀ reply, (rt.exec e k h cmdLine).reply = some reply → rt.isNullReply reply = true) →
    ∀ key ∈ extractBlockKeys (cmdStrings h cmdLine), ¬ ready (rt.exec e k h cmdLine).state k key
  closes : ∀ e k, ∀ j ≠ k, ∀ key, ready (rt.afterClientClose e k) j key → ready e j key

/-! ## The wake-up command of a list waiter -/

theorem cmdStrings_allocParts_inr (h : Heap) (line : List Bytes) :
    cmdStrings (allocParts h (line.map .inr)).1 (allocParts h (line.map .inr)).2 = line := by
  induction line generalizing h with
  | nil => rfl
  | cons bs line ih =>
    have hrest := extends_allocParts (h.alloc bs.length bs) (line.map .inr)
    have hhead : (allocParts (h.alloc bs.length bs) (line.map .inr)).1.read ⟨h.next, 0, bs.length⟩ = bs :=
      (hrest.read (Nat.lt_succ_self _)).trans (h.read_alloc_self ..)
    exact congr (congrArg cons hhead) (ih (h.alloc bs.length bs))

theorem wakeParts_list {h : Heap} {c : Client} (hc : isStreamRead c.blockCmd = false) :
    wakeParts h c = (c.blockCmd :: c.blockKeys ++ [str "0"]).map .inr := by
  rw [wakeParts, if_neg (by rw [hc]; simp), map_append, map_cons]
  rfl

theorem extractBlockKeys_wake (name : Bytes) {keys : List Bytes} (hkeys : keys ≠ []) (timeout : Bytes) :
    extractBlockKeys (name :: keys ++ [timeout]) = keys := by
  have hlen := length_pos_iff.2 hkeys
  rw [extractBlockKeys, if_neg (by simp only [length_append, length_cons, length_nil]; omega),
    cons_append, drop_one, tail_cons, dropLast_concat]

theorem not_isListPush_of_block {name : Bytes} (h : isBlockCommand name = true) :
    ¬ isListPushCommand name = true := by
  simp only [isBlockCommand, decide_eq_true_eq] at h
  rcases h with rfl | rfl | rfl | rfl <;> decide

/-! ## The invariant -/

/-- Of the clients that wait only those of `pending` may have something to find; none has left, and
what was found was found for clients that could receive it. -/
structure Served (ready : E → Nat → Bytes → Prop) (pending : List Nat) (s : Server E) : Prop
    extends Waiting s where
  present : ∀ k, Open s k → (s.clients k).gone = false
  woken : ∀ w ∈ s.woken, w.2 = true
  calm : ∀ k, k ∉ pending → isStreamRead (s.clients k).blockCmd = false →
    ∀ key ∈ (s.clients k).blockKeys, ¬ ready s.engine k key

/-- The client waits for the same as before, or no more. -/
structure Client.SameWait (c c' : Client) : Prop where
  fd : c'.fd = c.fd
  gone : c'.gone = c.gone
  blocks : (c'.blockKeys = c.blockKeys ∧ c'.blockCmd = c.blockCmd) ∨ c'.blockKeys = []

theorem Client.SameWait.refl (c : Client) : c.SameWait c := ⟨rfl, rfl, .inl ⟨rfl, rfl⟩⟩

theorem Client.SameWait.trans {c c' c'' : Client} (h1 : c.SameWait c') (h2 : c'.SameWait c'') : c.SameWait c'' where
  fd := h2.fd.trans h1.fd
  gone := h2.gone.trans h1.gone
  blocks := by
    rcases h2.blocks with ⟨hkeys, hcmd⟩ | hkeys
    · rw [hkeys, hcmd]
      exact h1.blocks
    · exact .inr hkeys

theorem Client.SameMem.sameWait {c c' : Client} (h : c.SameMem c') (hgone : c'.gone = c.gone) : c.SameWait c' :=
  ⟨h.fd, hgone, h.blocks.imp (fun h => ⟨h.1, h.2.1⟩) fun h => h.1⟩

theorem Pushed.sameWait {j : Nat} {c c' : Client} (h : Pushed j c c') : c.SameWait c' := by
  obtain ⟨bs, rfl⟩ := h
  exact ⟨rfl, rfl, .inl ⟨rfl, rfl⟩⟩

namespace Served

variable {ready : E → Nat → Bytes → Prop} {tame : E → Nat → List (Option Bytes) → Prop}
  {pending pending' : List Nat} {s t : Server E} {k no : Nat}

section

variable (hs : Served ready pending s)
include hs

/-- What a step may do: nobody waits for more than before, and of those that are not pending afterwards
none gets something to find. -/
theorem step (hw : Waiting t) (hwoken : t.woken = s.woken) (hfds : ∀ fd k, t.fds fd = some k → s.fds fd = some k)
    (hcl : ∀ j, (s.clients j).SameWait (t.clients j))
    (hready : ∀ j, j ∉ pending' → Blocked t j → isStreamRead (s.clients j).blockCmd = false →
      ∀ key ∈ (s.clients j).blockKeys, ready t.engine j key → j ∉ pending ∧ ready s.engine j key) :
    Served ready pending' t where
  toWaiting := hw
  present j hj := by
    rw [(hcl j).gone]
    rw [Open, (hcl j).fd] at hj
    exact hs.present j (hfds _ _ hj)
  woken w hw := hs.woken w (hwoken ▸ hw)
  calm j hj hstream key hkey hr := by
    rcases (hcl j).blocks with ⟨hkeys, hcmd⟩ | hkeys
    · have hb : Blocked t j := ne_nil_of_mem hkey
      rw [hcmd] at hstream
      rw [hkeys] at hkey
      obtain ⟨hnot, hr⟩ := hready j hj hb hstream key hkey hr
      exact hs.calm j hnot hstream key hkey hr
    · rw [hkeys] at hkey
      cases hkey

omit hs in
theorem weaken (hs : Served ready [] s) (pending : List Nat) : Served ready pending s :=
  hs.step hs.toWaiting rfl (fun _ _ h => h) (fun _ => .refl _) fun _ _ _ _ _ _ hr =>
    ⟨not_mem_nil, hr⟩

theorem same (h : SameMem s t) (hengine : t.engine = s.engine)
    (hwoken : t.woken = s.woken) (hgone : ∀ j, (t.clients j).gone = (s.clients j).gone) : Served ready pending t :=
  hs.step (hs.toWaiting.grown (.of_same h)) hwoken h.fds (fun j => (h.client j).sameWait (hgone j))
    fun _ hj _ _ _ _ hr => ⟨hj, hengine ▸ hr⟩

theorem modify {f : Client → Client} (hf : ∀ c : Client, c.SameMem (f c))
    (hgone : ∀ c, (f c).gone = c.gone) : Served ready pending (s.modify k f) :=
  hs.same (.modify s k hf) rfl rfl (s.modify_rel k f (r := fun c c' => c'.gone = c.gone) (fun _ => rfl) (hgone _))

theorem write (w o : List (Tag × UInt8)) : Served ready pending (s.modify k fun c => (c.setOut o).deliver w) :=
  hs.modify (fun _ => ⟨rfl, rfl, rfl, rfl, rfl, .inl ⟨rfl, rfl, rfl⟩⟩) fun _ => rfl

end

section

variable (hlaws : ListLaws rt ready tame)
include hlaws

theorem closeClient (hs : Served ready pending s)
    (hk : ¬ Blocked s k) : Served ready pending (closeClient rt s k) := by
  have hsame := SameMem.closeClient rt s k
  refine hs.step (hs.toWaiting.grown (.of_same hsame)) rfl hsame.fds (fun _ => .refl _) fun j hj hb _ key _ hr => ?_
  have hne : j ≠ k := fun heq => hk (heq ▸ hb)
  exact ⟨hj, hlaws.closes _ _ j hne key hr⟩

theorem leave (hs : Served ready pending s) (hk : ¬ Blocked s k) :
    Served ready pending (Net.closeClient rt (s.modify k fun c => c.noteGone true) k) := by
  have hgone : SameMem s (s.modify k fun c => c.noteGone true) :=
    .modify s k fun _ => ⟨rfl, rfl, rfl, rfl, rfl, .inl ⟨rfl, rfl, rfl⟩⟩
  have hclose := SameMem.closeClient rt (s.modify k fun c => c.noteGone true) k
  have hkeys := s.modify_rel k (fun c => c.noteGone true) (r := fun c c' =>
    c'.blockKeys = c.blockKeys ∧ c'.blockCmd = c.blockCmd) (fun _ => ⟨rfl, rfl⟩) ⟨rfl, rfl⟩
  refine ⟨hs.toWaiting.grown (.of_same (hgone.trans hclose)), fun j hopen => ?_, hs.woken,
    fun j hj hstream key hkey hr => ?_⟩
  · by_cases hjk : j = k
    · subst hjk
      exact absurd (hopen.symm.trans (update_self ..)) (by simp)
    · have hopen' := hgone.fds _ _ (hclose.fds _ _ hopen)
      rw [Net.closeClient] at hopen' ⊢
      rw [clients_modify_of_ne _ _ _ hjk] at hopen' ⊢
      exact hs.present j hopen'
  · rw [Net.closeClient] at hstream hkey
    rw [(hkeys j).1] at hkey
    rw [(hkeys j).2] at hstream
    have hne : j ≠ k := fun heq => hk (heq ▸ ne_nil_of_mem hkey)
    exact hs.calm j hj hstream key hkey (hlaws.closes _ _ j hne key hr)

theorem flush {net : Nat → Outcome} (hreg : Registered s)
    (hopen : Open s k) (hk : ¬ Blocked s k) (hs : Served ready pending s) :
    Served ready pending (flush rt s k net) := by
  refine hreg.flush_cases hopen.owned (fun _ => hk) (fun w o _ => hs.write w o) fun w o _ => ?_
  refine (hs.write w o).closeClient hlaws ?_
  rwa [Blocked, clients_modify_self]

end

variable {cmdLine : CmdSlices}

/-- A command of client `k`: those who wait for the list it has pushed to are pending. -/
theorem execute (hlaws : ListLaws rt ready tame) (hread : Reading s k) (hs : Served ready [] s)
    (htame : tame s.engine k (cmdBytes s.heap cmdLine)) : Served ready
      (if isListPushCommand (cmdName (cmdStrings s.heap cmdLine)) = true ∧ 2 ≤ cmdLine.length then
        s.waiters ((cmdStrings s.heap cmdLine).getD 1 []) else []) (execute rt s k no cmdLine).1 := by
  obtain ⟨clients, heq, hcl⟩ := call_spec rt s k cmdLine
  have hsame := SameBlocks.execute rt s k no cmdLine
  have hwoken : (Net.execute rt s k no cmdLine).1.woken = s.woken := by
    show (Net.call rt s k cmdLine).1.woken = s.woken
    rw [heq]
  have hclients : ∀ j, (s.clients j).SameWait ((Net.execute rt s k no cmdLine).1.clients j) := fun j => by
    have hcall : (s.clients j).SameWait ((Net.call rt s k cmdLine).1.clients j) := by
      rw [heq]
      exact (hcl j).sameWait
    exact hcall.trans (modify_rel _ k (fun c => Client.answer (c.executed ..) ..) .refl ⟨rfl, rfl, .inl ⟨rfl, rfl⟩⟩ j)
  refine hs.step (hs.toWaiting.grown (.execute (hlaws.heap _ _ _ _ htame))) hwoken
    (fun fd j h => by rwa [hsame.fds] at h) hclients fun j hj hb _ key hkey hr => ⟨not_mem_nil, ?_⟩
  rw [Blocked, hsame.blockKeys] at hb
  have hne : j ≠ k := fun heq => hread.notBlocked (heq ▸ hb)
  rw [engine_execute] at hr
  refine (hlaws.adds _ _ _ _ htame j hne key hr).resolve_right fun hpush => hj ?_
  -- who waits for the key is registered for it
  rw [if_pos ⟨hpush.1, hpush.2.1⟩, hpush.2.2]
  exact hread.registered.mem_waiters.2 hkey

/-! ## Wake-ups -/

variable {m : Nat} {rest : List Nat}

theorem isBlockCommand (hs : Served ready pending s) (hm : Blocked s m) :
    isBlockCommand (s.clients m).blockCmd = true :=
  (hs.waits m).blockCmd.resolve_left fun h => hm ((hs.waits m).blockCmd_nil.2 h)

/-- The command of client `m` is tried: for the others there is not more to find, and for `m` nothing
if the reply is null. -/
theorem tryWake (hlaws : ListLaws rt ready tame) (hm : Blocked s m) (hs : Served ready (m :: rest) s) :
    Served ready (m :: rest) (tryWake rt s m).1 ∧
      ((∀ reply, (Net.tryWake rt s m).2 = some reply → rt.isNullReply reply = true) →
        isStreamRead ((Net.tryWake rt s m).1.clients m).blockCmd = false →
        ∀ key ∈ ((Net.tryWake rt s m).1.clients m).blockKeys, ¬ ready (Net.tryWake rt s m).1.engine m key) := by
  have hname := hs.lineName_wake m
  have hblock := hs.isBlockCommand hm
  have htame := hlaws.block s.engine m _ (hname.symm ▸ hblock)
  have hex := hlaws.heap s.engine m _ _ htame
  obtain ⟨clients, heq, hcl⟩ := call_spec rt
    { s with heap := (allocParts s.heap (wakeParts s.heap (s.clients m))).1 } m
    (allocParts s.heap (wakeParts s.heap (s.clients m))).2
  have hengine : (Net.tryWake rt s m).1.engine = (rt.exec s.engine m
      (allocParts s.heap (wakeParts s.heap (s.clients m))).1
      (allocParts s.heap (wakeParts s.heap (s.clients m))).2).state := by
    rw [Net.tryWake, heq]
  rw [← cmdName_cmdStrings] at hname
  refine ⟨?_, fun hnull hstream key hkey => ?_⟩
  · refine hs.step (hs.toWaiting.grown (.tryWake hex)) (by rw [Net.tryWake, heq])
      (fun fd j h => by rwa [Net.tryWake, heq] at h)
      (fun j => by rw [Net.tryWake, heq]; exact (hcl j).sameWait) fun j hj _ _ key _ hr => ⟨hj, ?_⟩
    rw [hengine] at hr
    refine (hlaws.adds _ _ _ _ htame j (ne_of_not_mem_cons hj) key hr).resolve_right fun hpush => ?_
    rw [hname] at hpush
    exact not_isListPush_of_block hblock hpush.1
  · have hclient : ((Net.tryWake rt s m).1.clients m).blockKeys = (s.clients m).blockKeys ∧
        ((Net.tryWake rt s m).1.clients m).blockCmd = (s.clients m).blockCmd := by
      obtain ⟨bs, hc⟩ := hcl m
      rw [Net.tryWake, heq]
      dsimp only
      rw [hc]
      exact ⟨rfl, rfl⟩
    rw [hclient.2] at hstream
    rw [hclient.1] at hkey
    rw [hengine]
    refine hlaws.finds _ _ _ _ (by rw [hname]; exact hblock) (by rw [hname]; exact hstream) hnull key ?_
    rw [wakeParts_list hstream, cmdStrings_allocParts_inr, extractBlockKeys_wake _ hm]
    exact hkey

theorem awaken (hs : Served ready (m :: rest) s) (hreg : Registered s) (hm : Blocked s m) (bs : Bytes) :
    Served ready rest (awaken s m bs) := by
  have hsame := SameMem.release s m bs
  have hrel : Served ready rest (release s m bs) := by
    refine hs.step (hs.toWaiting.grown (.of_same hsame)) rfl hsame.fds (fun j => ?_) fun j hj hb _ key _ hr => ?_
    · exact s.modify_rel m (fun c => (c.answer m c.blockNo bs).unblock) .refl ⟨rfl, rfl, .inr rfl⟩ j
    · have hne : j ≠ m := fun heq => not_blocked_release s m bs (heq ▸ hb)
      exact ⟨not_mem_cons_of_ne_of_not_mem hne hj, hr⟩
  have hcan : canReceive s m = true := by
    rw [canReceive, decide_eq_true_eq]
    exact ⟨hreg.isOpen m hm, hm, hs.present m (hreg.isOpen m hm)⟩
  refine ⟨⟨⟨hrel.arr_lt, hrel.arr_ne, hrel.stream⟩, hrel.waits, hrel.waits_lt⟩, hrel.present, fun w hw => ?_,
    hrel.calm⟩
  rcases mem_append.1 hw with hw | hw
  · exact hs.woken w hw
  · rw [mem_singleton.1 hw]
    exact hcan

theorem wakeOne (hlaws : ListLaws rt ready tame) {net : Nat → Outcome} (hreg : Registered s)
    (hm : Blocked s m) (hs : Served ready (m :: rest) s) : Served ready rest (wakeOne rt s m net) := by
  have hsame := SameBlocks.tryWake rt s m
  have hregt := hreg.congr hsame
  have hmt : Blocked (Net.tryWake rt s m).1 m := by rwa [Blocked, hsame.blockKeys]
  obtain ⟨hst, hnothing⟩ := hs.tryWake hlaws hm
  obtain ⟨heq, hnull⟩ | ⟨reply, -, -, heq⟩ := wakeOne_cases rt s m net
  · rw [heq]
    refine ⟨hst.toWaiting, hst.present, hst.woken, fun j hj hstream key hkey => ?_⟩
    by_cases hjm : j = m
    · subst hjm
      exact hnothing hnull hstream key hkey
    · exact hst.calm j (not_mem_cons_of_ne_of_not_mem hjm hj) hstream key hkey
  · rw [heq]
    have hopen := (hregt.isOpen m hmt).release (rt.encode (Net.tryWake rt s m).1.engine m reply)
    have hawake := SameBlocks.awaken (Net.tryWake rt s m).1 m (rt.encode (Net.tryWake rt s m).1.engine m reply)
    refine (hst.awaken hregt hmt _).flush hlaws ((hregt.release _).congr hawake) (hawake.isOpen hopen) ?_
    exact not_blocked_release _ m _

theorem accept (hs : Served ready pending s) {fd : Nat} (hfd : s.fds fd = none) :
    Served ready pending (accept s fd) := by
  have hw := hs.toWaiting.accept hfd
  rw [Net.accept, hfd] at hw ⊢
  refine ⟨hw, fun j hopen => ?_, hs.woken, fun j hj hstream key hkey => ?_⟩
  · have hj := hs.present j
    grind [Open, update_apply]
  · have hcalm := hs.calm j hj
    grind [update_apply]

theorem block (hs : Served ready pending s) (hopen : Open s k) {preLen : Nat} {name : Bytes} {keys : List Bytes}
    {deadline : Int}
    (hw : Waiting ((s.modify k fun c => c.block no preLen name keys deadline cmdLine).register k keys))
    (hnothing : isStreamRead name = false → ∀ key ∈ keys, ¬ ready s.engine k key) : Served ready pending
      ((s.modify k fun c => c.block no preLen name keys deadline cmdLine).register k keys) := by
  refine ⟨hw, fun j hj => ?_, hs.woken, fun j hj hstream key hkey => ?_⟩
  · have hj' := hs.present j
    simp only [Open, register, Server.modify, update_apply] at hj hj' ⊢
    grind [hs.present k hopen, Client.block]
  · have hcalm := hs.calm j hj
    simp only [register, Server.modify, update_apply] at hstream hkey ⊢
    grind [Client.block]

end Served

/-! ## The commands of one read -/

/-- While the commands `cmds` of client `k` are run, their arguments stand in its buffer. -/
structure Serving (ready : E → Nat → Bytes → Prop) (k : Nat) (pending : List Nat)
    (cmds : List CmdSlices) (s : Server E) : Prop extends Served ready pending s where
  lt_next : k < s.next
  args : ∀ cmdLine ∈ cmds, ∀ a ∈ cmdLine, ∀ sl ∈ a, sl.arr = (s.clients k).queryBuf.arr

namespace Serving

variable {ready : E → Nat → Bytes → Prop} {tame : E → Nat → List (Option Bytes) → Prop}
  {pending : List Nat} {s t : Server E} {k no : Nat} {net : Nat → Outcome}
  {cmdLine : CmdSlices} {cmds : List CmdSlices}

section

variable (hlaws : ListLaws rt ready tame)
include hlaws

theorem wakeBlockedClients (hread : Reading s k) {key : Bytes} (h : Serving ready k (s.waiters key) cmds s) :
    Serving ready k [] cmds (wakeBlockedClients rt s key net) := by
  refine (wake_run (P := fun pending s => Reading s k ∧ Serving ready k pending cmds s)
    (fun _ _ h => h.1.registered) (fun m rest s h hm => ?_) key ⟨hread, h⟩).2
  obtain ⟨clients, heq, hcl⟩ := tryWake_spec rt s m
  have hsame := SameMem.wakeOne rt s m net
  have hnext : (wakeOne rt s m net).next = s.next := by
    rw [hsame.next, heq]
  have hbuf : ((wakeOne rt s m net).clients k).queryBuf = (s.clients k).queryBuf := by
    rw [(hsame.client k).queryBuf, heq]
    exact (hcl k).sameMem.queryBuf
  refine ⟨h.1.wakeOne hm, h.2.toServed.wakeOne hlaws h.1.registered hm, ?_, ?_⟩
  · rw [hnext]
    exact h.2.lt_next
  · rw [hbuf]
    exact h.2.args

theorem wakeAfter (hread : Reading s k) {name : Bytes} (h : Serving ready k
      (if isListPushCommand name = true ∧ 2 ≤ cmdLine.length then
        s.waiters ((cmdStrings s.heap cmdLine).getD 1 []) else []) cmds s) :
    Serving ready k [] cmds (wakeAfter rt s name cmdLine net) := by
  have hpush : Reading (if isListPushCommand name = true ∧ 2 ≤ cmdLine.length then
        Net.wakeBlockedClients rt s ((cmdStrings s.heap cmdLine).getD 1 []) net else s) k ∧
      Serving ready k [] cmds (if isListPushCommand name = true ∧ 2 ≤ cmdLine.length then
        Net.wakeBlockedClients rt s ((cmdStrings s.heap cmdLine).getD 1 []) net else s) := by
    split
    · rw [if_pos ‹_›] at h
      exact ⟨hread.wakeBlockedClients _, h.wakeBlockedClients hlaws hread⟩
    · rw [if_neg ‹_›] at h
      exact ⟨hread, h⟩
  rw [Net.wakeAfter]
  split
  · have hw := hpush.2
    exact wakeBlockedClients hlaws hpush.1 ⟨hw.toServed.weaken _, hw.lt_next, hw.args⟩
  · exact hpush.2

theorem cmdStrings_execute (no : Nat)
    (h : Serving ready k pending (cmdLine :: cmds) s) (htame : tame s.engine k (cmdBytes s.heap cmdLine)) :
    cmdStrings (execute rt s k no cmdLine).1.heap cmdLine = cmdStrings s.heap cmdLine := by
  rw [heap_execute]
  refine map_congr_left fun a ha => ?_
  cases a with
  | none => rfl
  | some sl =>
    refine (hlaws.heap _ _ _ _ htame).read ?_
    rw [h.args _ mem_cons_self _ ha sl rfl]
    exact h.arr_lt k h.lt_next

theorem execute (no : Nat) (hread : Reading s k)
    (h : Serving ready k [] (cmdLine :: cmds) s) (htame : tame s.engine k (cmdBytes s.heap cmdLine)) : Serving ready k
      (if isListPushCommand (cmdName (cmdStrings s.heap cmdLine)) = true ∧ 2 ≤ cmdLine.length then
        (execute rt s k no cmdLine).1.waiters
          ((cmdStrings (Net.execute rt s k no cmdLine).1.heap cmdLine).getD 1 []) else [])
      (cmdLine :: cmds) (Net.execute rt s k no cmdLine).1 := by
  have hsame := SameBlocks.execute rt s k no cmdLine
  rw [hsame.waiters, h.cmdStrings_execute hlaws no htame]
  refine ⟨h.toServed.execute hlaws hread htame, ?_, ?_⟩
  · rw [hsame.next]
    exact h.lt_next
  · obtain ⟨c', bs, ⟨pushed, rfl⟩, hc⟩ := clients_execute_self rt s k no cmdLine
    rw [hc]
    exact h.args

theorem next {now : Int} (hread : Reading s k)
    (h : Serving ready k [] (cmdLine :: cmds) s) (htame : tame s.engine k (cmdBytes s.heap cmdLine))
    (hr : (runCmd rt s k no now net cmdLine).2 = false) :
    Serving ready k [] cmds (runCmd rt s k no now net cmdLine).1 := by
  obtain heq | ⟨-, -, -, heq⟩ := runCmd_cases rt s k no now net cmdLine
  · have hex := h.execute hlaws no hread htame
    rw [heq]
    exact wakeAfter hlaws (hread.congr (.execute ..))
      ⟨hex.toServed, hex.lt_next, fun c hc => hex.args c (mem_cons_of_mem _ hc)⟩
  · rw [heq] at hr
    cases hr

theorem block {now : Int} (hread : Reading s k)
    (h : Serving ready k [] (cmdLine :: cmds) s) (htame : tame s.engine k (cmdBytes s.heap cmdLine))
    (hr : (runCmd rt s k no now net cmdLine).2 = true) : Served ready [] (runCmd rt s k no now net cmdLine).1 := by
  obtain heq | ⟨hname, hnull, hkeys, heq⟩ := runCmd_cases rt s k no now net cmdLine
  · rw [heq] at hr
    cases hr
  · have hex := h.execute hlaws no hread htame
    rw [if_neg fun hpush => not_isListPush_of_block hname hpush.1] at hex
    obtain ⟨a, rest, rfl⟩ := exists_cons_of_isBlockCommand hname
    have hline := h.cmdStrings_execute hlaws no htame
    obtain ⟨hhead, -⟩ := cons_eq_cons.1 hline
    have hopen := (SameBlocks.execute rt s k no (a :: rest)).isOpen hread.isOpen
    rw [hline] at hkeys heq
    rw [heq]
    refine hex.toServed.block hopen (hex.toWaiting.block hex.lt_next hkeys hname (congrArg toLower hhead)
      (hex.args _ mem_cons_self)) fun hstream key hkey => ?_
    rw [blockKeysOf, if_neg (by rw [hstream]; simp)] at hkey
    rw [engine_execute]
    refine hlaws.finds _ _ _ _ hname hstream (fun reply hreply => ?_) key hkey
    have hex : (Net.execute rt s k no (a :: rest)).2 = some reply := hreply
    rwa [hex] at hnull

end

end Serving

/-! ## Runs -/

section Runs

variable (ready : E → Nat → Bytes → Prop) (tame : E → Nat → List (Option Bytes) → Prop)

/-- A command of the class, which names no key twice if it is a blocking one. -/
def TameCmd : CmdCond E := fun s k net cmdLine _ =>
  RegOk s k net cmdLine ∧ tame s.engine k (cmdBytes s.heap cmdLine)

/-- The engine's own work gives waiting clients nothing to find. -/
def NothingAdded (s : Server E) (e : E) : Prop :=
  ∀ k < s.next, ∀ key ∈ (s.clients k).blockKeys, ready e k key → ready s.engine k key

/-- The events of a run: commands of the class, no client that leaves or is closed while it waits, and
nothing added from outside. -/
def RunsTame (rt : Runtime E R) (e : E) (evs : List (Event E)) : Prop :=
  Guarded (step rt) (EventOk rt (TameCmd tame) (· = false) (NothingAdded ready)) (.start e) evs

instance [∀ e k line, Decidable (tame e k line)] (s : Server E) (k : Nat) (net : Nat → Outcome)
    (cmdLine : CmdSlices) (left : Nat) : Decidable (TameCmd tame s k net cmdLine left) :=
  inferInstanceAs (Decidable (_ ∧ _))

instance [∀ e k key, Decidable (ready e k key)] (s : Server E) (e : E) :
    Decidable (NothingAdded ready s e) := inferInstanceAs (Decidable (∀ k < s.next, ∀ key ∈ _, _ → _))

instance [∀ e k key, Decidable (ready e k key)] [∀ e k line, Decidable (tame e k line)]
    (rt : Runtime E R) (e : E) (evs : List (Event E)) : Decidable (RunsTame ready tame rt e evs) :=
  inferInstanceAs (Decidable (Guarded ..))

variable {ready tame}

theorem served_inv (hlaws : ListLaws rt ready tame) :
    LoopInv rt (TameCmd tame) (· = false) (NothingAdded ready) (Served ready [])
      (fun k _ cmds => Serving ready k [] cmds) where
  accept _ hX hfd := hX.accept hfd
  background {s e} hs hX hB := by
    refine hX.step (hX.toWaiting.grown (.of_same (.setEngine s e))) rfl (fun _ _ h => h) (fun _ => .refl _)
      fun j hj hb _ key hkey hr => ⟨hj, hB j ?_ key hkey hr⟩
    exact hs.lt_next _ j (hs.isOpen j hb)
  gone _ hX hfin := by
    subst hfin
    exact hX.modify (fun _ => ⟨rfl, rfl, rfl, rfl, rfl, .inl ⟨rfl, rfl, rfl⟩⟩) fun _ => Bool.or_false _
  left {s k} hread hX := hX.leave hlaws hread.notBlocked
  readAll {s k} chunks hread hX := by
    have hk := hread.registered.lt_next _ k hread.isOpen
    refine hX.step (hX.toWaiting.readAll rt hk (not_not.1 hread.notBlocked) chunks) rfl (fun _ _ h => h)
      (fun j => ?_) fun _ hj _ _ _ _ hr => ⟨hj, hr⟩
    exact modify_rel _ k (fun c => c.read ..) .refl ⟨rfl, rfl, .inl ⟨rfl, rfl⟩⟩ j
  take {s k consumed cmds} hread hX hparse := by
    have hk := hread.registered.lt_next _ k hread.isOpen
    have hlen := (parseRequests_spec hparse).1
    rw [Heap.length_read] at hlen
    refine ⟨hX.step (hX.toWaiting.takeCmds hk (not_not.1 hread.notBlocked) hparse) rfl (fun _ _ h => h)
      (fun j => ?_) fun _ hj _ _ _ _ hr => ⟨hj, hr⟩, hk, fun cmdLine hcmd a ha sl hsl => ?_⟩
    · exact modify_rel _ k (fun c => c.took ..) .refl ⟨rfl, rfl, .inl ⟨rfl, rfl⟩⟩ j
    · obtain ⟨args, -, rfl⟩ := mem_map.1 hcmd
      rw [arr_of_mem_cmdSlices ha hsl, takeCmds, clients_modify_self]
      exact (QueryBuf.compact_spec s.heap hlen).2.1.symm
  next hread hY hP hr := hY.next hlaws hread hP.2 hr
  block hread hY hP hr := hY.block hlaws hread hP.2 hr
  done _ hY := hY.toServed
  release {s k bs} _ _ hX := by
    have hrel : Served ready [] (release s k bs) := hX.same (.release s k bs) rfl rfl
      (s.modify_rel k (fun c => (c.answer k c.blockNo bs).unblock) (r := fun c c' => c'.gone = c.gone)
        (fun _ => rfl) rfl)
    exact hrel.modify (fun _ => ⟨rfl, rfl, rfl, rfl, rfl, .inl ⟨rfl, rfl, rfl⟩⟩) fun _ => rfl
  write hX _ := hX.write _ _
  close {s k w o} _ _ hb hX := by
    refine (hX.write w o).closeClient hlaws ?_
    rwa [Blocked, clients_modify_self]

end Runs

/-- The registry is exact, nothing was found for a client that cannot receive it, and no client waits
for a list that has elements. -/
structure Attended (ready : E → Nat → Bytes → Prop) (s : Server E) : Prop where
  registry : ∀ k key, (s.waiters key).count k =
    if Open s k ∧ (s.clients k).gone = false ∧ key ∈ (s.clients k).blockKeys then 1 else 0
  received : ∀ w ∈ s.woken, w.2 = true
  noneLeft : ∀ k, isStreamRead (s.clients k).blockCmd = false → ∀ key ∈ (s.clients k).blockKeys,
    ¬ ready s.engine k key

theorem Served.attended {ready : E → Nat → Bytes → Prop} {s : Server E} (hs : Served ready [] s)
    (hreg : Registered s) : Attended ready s where
  registry k key := by
    rw [hreg.count]
    refine if_congr ⟨fun hkey => ?_, fun h => h.2.2⟩ rfl rfl
    have hopen := hreg.isOpen k (ne_nil_of_mem hkey)
    exact ⟨hopen, hs.present k hopen, hkey⟩
  received := hs.woken
  noneLeft k := hs.calm k not_mem_nil

theorem served_start (ready : E → Nat → Bytes → Prop) (e : E) : Served ready [] (start e) where
  arr_lt _ hk := absurd hk (Nat.not_lt_zero _)
  arr_ne _ hj := absurd hj (Nat.not_lt_zero _)
  stream _ hk := absurd hk (Nat.not_lt_zero _)
  waits _ := ⟨iff_of_true rfl rfl, .inl rfl, fun h => absurd h not_isStreamRead_nil,
    fun h => absurd h not_isStreamRead_nil⟩
  waits_lt _ h := absurd h not_isStreamRead_nil
  present _ _ := rfl
  woken _ hw := nomatch hw
  calm _ _ _ _ hkey := nomatch hkey

/-- Over every run of tame commands in which no client leaves while it waits, the waiters are
attended to. -/
theorem waiters_attended {ready : E → Nat → Bytes → Prop} {tame : E → Nat → List (Option Bytes) → Prop}
    (hlaws : ListLaws rt ready tame) (e : E) (evs : List (Event E)) (hok : RunsTame ready tame rt e evs) :
    (run rt (.start e) evs).crashed = true ∨ Attended ready (run rt (.start e) evs) := by
  have hrun := Guarded.run
    (fun s ev h hev => (served_inv hlaws).step hlaws.keepArgs (fun _ _ _ _ _ h => h.1) s ev h hev) hok
    (.inr ⟨registered_start e, served_start ready e⟩)
  exact hrun.imp_right fun h => h.2.attended h.1

namespace Store

def ready (st : Store) (_ : Nat) (key : Bytes) : Prop := st.lists key ≠ []

instance (st : Store) (k : Nat) (key : Bytes) : Decidable (st.ready k key) := inferInstanceAs (Decidable (_ ≠ _))

/-- The command is not `RPOPLPUSH`. -/
def tame (_ : Store) (_ : Nat) (line : List (Option Bytes)) : Prop := lineName line ≠ "rpoplpush"

instance (st : Store) (k : Nat) (line : List (Option Bytes)) : Decidable (st.tame k line) :=
  inferInstanceAs (Decidable (_ ≠ _))

variable {st : Store} {k : Nat}

variable {left : Bool} {cmdLine : CmdSlices}

theorem ready_pop {keys : List Bytes} {key : Bytes} (h : (st.pop left keys).1.ready k key) : st.ready k key := by
  induction keys with
  | nil => exact h
  | cons first keys ih =>
    rw [pop] at h
    split at h
    · exact ih h
    rename_i v vs hlist
    by_cases hkey : key = first
    · rw [hkey, ready, hlist]
      exact cons_ne_nil _ _
    · cases left <;>
      · simp only [ready, update_of_ne hkey, Bool.false_eq_true, if_false, if_true] at h
        exact h

theorem not_ready_of_pop_null {keys : List Bytes} (hnull : runtime.isNullReply (st.pop left keys).2 = true) :
    ∀ key ∈ keys, ¬ (st.pop left keys).1.ready k key := by
  induction keys with
  | nil => exact fun _ h => nomatch h
  | cons first keys ih =>
    rw [pop] at hnull ⊢
    cases hlist : st.lists first with
    | nil =>
      rw [hlist] at hnull
      intro key hkey hr
      rcases mem_cons.1 hkey with rfl | hkey
      · exact ready_pop hr hlist
      · exact ih hnull key hkey hr
    | cons v vs =>
      rw [hlist] at hnull
      cases left <;> cases hnull

theorem ready_push {key dest : Bytes} {values : List Bytes} (h : (st.push left dest values).1.ready k key) :
    st.ready k key ∨ dest = key ∧ values ≠ [] := by
  simp only [push, ready, update_apply] at h ⊢
  cases left <;> grind

theorem ready_command {h : Heap} {key : Bytes} (htame : cmdName (cmdStrings h cmdLine) ≠ "rpoplpush")
    (hr : (st.command h cmdLine).1.ready k key) :
    st.ready k key ∨ isListPushCommand (cmdName (cmdStrings h cmdLine)) = true ∧ 2 ≤ cmdLine.length ∧
      (cmdStrings h cmdLine).getD 1 [] = key := by
  -- a push with values has an argument for its key
  have hpush : ∀ left, (st.push left ((cmdStrings h cmdLine).getD 1 []) ((cmdStrings h cmdLine).drop 2)).1.ready
      k key → st.ready k key ∨ 2 ≤ cmdLine.length ∧ (cmdStrings h cmdLine).getD 1 [] = key := by
    intro left hr
    refine (ready_push hr).imp_right fun ⟨hkey, hvalues⟩ => ⟨?_, hkey⟩
    have hlen := length_pos_iff.2 hvalues
    rw [length_drop, cmdStrings, length_map] at hlen
    omega
  rw [command] at hr
  split_ifs at hr with hping hget hset hlpush hrpush hblpop hbrpop
  · exact .inl hr
  · split at hr <;> exact .inl hr
  · split at hr <;> exact .inl hr
  · exact (hpush true hr).imp_right fun hkey => ⟨by rw [hlpush]; rfl, hkey⟩
  · exact (hpush false hr).imp_right fun hkey => ⟨by rw [hrpush]; rfl, hkey⟩
  · exact .inl (ready_pop hr)
  · exact .inl (ready_pop hr)
  · exact .inl hr

theorem command_pop {h : Heap} (hname : isBlockCommand (cmdName (cmdStrings h cmdLine)) = true)
    (hstream : isStreamRead (cmdName (cmdStrings h cmdLine)) = false) (st : Store) : ∃ left, st.command h cmdLine =
      ((st.pop left (extractBlockKeys (cmdStrings h cmdLine))).1,
        (st.pop left (extractBlockKeys (cmdStrings h cmdLine))).2, []) := by
  rw [command]
  generalize cmdName (cmdStrings h cmdLine) = name at hname hstream ⊢
  simp only [isBlockCommand, decide_eq_true_eq] at hname
  rcases hname with rfl | rfl | rfl | rfl
  · exact ⟨true, rfl⟩
  · exact ⟨false, rfl⟩
  · exact absurd hstream (by decide)
  · exact absurd hstream (by decide)

theorem laws : ListLaws runtime ready tame where
  keepArgs _ _ _ _ _ := rfl
  block _ _ line hline hname := absurd (hname ▸ hline) (by decide)
  heap _ _ h _ _ := .refl h
  adds _ k h cmdLine htame j _ key hr := by
    rw [tame, ← cmdName_cmdStrings] at htame
    exact ready_command htame hr
  finds st k h cmdLine hname hstream hnull key hkey := by
    obtain ⟨left, heq⟩ := command_pop hname hstream st
    have hreply : (runtime.exec st k h cmdLine).reply =
        some (st.pop left (extractBlockKeys (cmdStrings h cmdLine))).2 :=
      congrArg (fun r : Store × Answer × List Nat => some r.2.1) heq
    have hstate : (runtime.exec st k h cmdLine).state =
        (st.pop left (extractBlockKeys (cmdStrings h cmdLine))).1 := congrArg Prod.fst heq
    rw [hstate]
    exact not_ready_of_pop_null (hnull _ hreply) key hkey
  closes _ _ _ _ _ hr := hr

end Store

/-- A client that leaves while it waits stays registered; what is found for it later is lost; and
`RPOPLPUSH` gives waiting clients something to find without waking them. -/
theorem waiters_neglected : (∃ evs : List (Event Store), (run Store.runtime (.start {}) evs).crashed = false ∧
      ¬ ∀ k key, ((run Store.runtime (.start {}) evs).waiters key).count k =
        if Open (run Store.runtime (.start {}) evs) k ∧ ((run Store.runtime (.start {}) evs).clients k).gone = false ∧
          key ∈ ((run Store.runtime (.start {}) evs).clients k).blockKeys then 1 else 0) ∧
    (∃ evs : List (Event Store), (run Store.runtime (.start {}) evs).crashed = false ∧
      ¬ ∀ w ∈ (run Store.runtime (.start {}) evs).woken, w.2 = true) ∧
    ∃ evs : List (Event Store), (run Store.runtime (.start {}) evs).crashed = false ∧
      ¬ ∀ k, isStreamRead ((run Store.runtime (.start {}) evs).clients k).blockCmd = false →
        ∀ key ∈ ((run Store.runtime (.start {}) evs).clients k).blockKeys,
          ¬ Store.ready (run Store.runtime (.start {}) evs).engine k key := by
  refine ⟨⟨[.accept 5, Store.arrives 5 [["BLPOP", "k", "1"]] [],
      .ready 5 (some ([], true)) false 0 Store.writeAll], by decide +kernel, fun h => ?_⟩,
    ⟨[.accept 5, .accept 6, Store.arrives 5 [["BLPOP", "k", "1"]] [],
      .ready 5 (some ([], true)) false 0 Store.writeAll,
      Store.arrives 6 [["LPUSH", "k", "v"]] []], by decide +kernel, fun h => ?_⟩,
    ⟨[.accept 5, .accept 6, Store.arrives 5 [["BLPOP", "k", "1"]] [],
      Store.arrives 6 [["LPUSH", "a", "v"], ["RPOPLPUSH", "a", "k"]] []],
      by decide +kernel, fun h => ?_⟩⟩
  · exact absurd (h 0 "k") (by decide +kernel)
  · exact absurd (h (0, false) (by decide +kernel)) (by decide)
  · exact absurd (h 0 (by decide +kernel) "k" (by decide +kernel)) (by decide +kernel)

/-- Two clients wait, and one gets what is pushed. -/
def attendedRun : List (Event Store) :=
  [.accept 5, .accept 6, .accept 7, Store.arrives 5 [["BLPOP", "a", "k", "1"]] [],
    Store.arrives 6 [["BRPOP", "k", "1"]] [], Store.arrives 7 [["RPUSH", "k", "v"]] []]

theorem waiters_attended_pushed : Attended Store.ready (run Store.runtime (.start {}) attendedRun) ∧
    (run Store.runtime (.start {}) attendedRun).woken = [(0, true)] ∧
    (run Store.runtime (.start {}) attendedRun).waiters "k" = [1] := by
  have hrun := (waiters_attended Store.laws {} attendedRun (by decide +kernel)).resolve_left (by decide +kernel)
  exact ⟨hrun, by decide +kernel, by decide +kernel⟩

end Hayakv.Net
