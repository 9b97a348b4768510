import Hayakv.Net.SmallStore

/-!
# The arguments that commands are run with

The arguments of a command are slices of the query buffer. Before the commands of a read
are run, the incomplete tail behind them is copied to the front of the buffer, and later
reads are appended behind it, in place as long as the array has room. `Faithful` says
that nonetheless every command was run with the bytes that were sent, and that what the
engine has kept of them is unchanged; `ReadApart` is the condition on a read under
which this remains so, as long as the commands of the run write to no array that there
is. `args_overwritten` shows what happens without it.
-/

namespace Hayakv.Net

open Memory (Arr Slice Heap)
open Server
open List

variable {E R : Type} {rt : Runtime E R}

/-! ## What a read overwrites -/

def QueryBuf.appended (grow : Nat → Nat → Nat) : Heap → QueryBuf → List Bytes → List Slice
  | _, _, [] => []
  | h, q, data :: chunks =>
    (if q.len + data.length ≤ (h.arr q.arr).cap then [⟨q.arr, q.len, data.length⟩] else []) ++
      appended grow (q.append grow h data).1 (q.append grow h data).2 chunks

def QueryBuf.moved (q : QueryBuf) (consumed : Nat) : Slice := ⟨q.arr, 0, if consumed = 0 then 0 else q.len - consumed⟩

variable {q : QueryBuf}

variable {sl : Slice}

theorem QueryBuf.read_append (grow : Nat → Nat → Nat) {h : Heap} {data : Bytes} (hsl : sl.arr < h.next)
    (hd : q.len + data.length ≤ (h.arr q.arr).cap → Slice.Disjoint ⟨q.arr, q.len, data.length⟩ sl) :
    (q.append grow h data).1.read sl = h.read sl := by
  rw [QueryBuf.append]
  split
  · exact Heap.read_write_of_disjoint (hd ‹_›)
  · exact (h.extends_alloc ..).read hsl

theorem QueryBuf.read_appendAll (grow : Nat → Nat → Nat) {h : Heap} (hq : q.arr < h.next) {chunks : List Bytes}
    (hsl : sl.arr < h.next) (hd : ∀ r ∈ q.appended grow h chunks, r.Disjoint sl) :
    (q.appendAll grow h chunks).1.read sl = h.read sl := by
  induction chunks generalizing h q with
  | nil => rfl
  | cons data chunks ih =>
    have happ := q.append_spec grow hq data
    have hrest := ih happ.arr_lt (lt_of_lt_of_le hsl happ.next_le) fun r hr => hd r (mem_append_right _ hr)
    rw [QueryBuf.appendAll, hrest]
    refine q.read_append grow hsl fun hfit => hd _ (mem_append_left _ ?_)
    rw [if_pos hfit]
    exact mem_singleton_self _

theorem QueryBuf.read_compact (h : Heap) {consumed : Nat} (hd : (q.moved consumed).Disjoint sl) :
    (q.compact h consumed).1.read sl = h.read sl := by
  rw [QueryBuf.compact]
  rw [QueryBuf.moved] at hd
  split
  · rfl
  · rename_i h0
    rw [if_neg h0] at hd
    exact Heap.read_write_of_disjoint (by rwa [Heap.length_read])

theorem cmdBytes_cmdSlices (h : Heap) (q : QueryBuf) {args : Args} {n : Nat} (hin : args.Within n)
    (hn : n ≤ q.len) : cmdBytes h (cmdSlices q.arr args) = Args.read (h.read q.slice) args := by
  rw [cmdBytes, cmdSlices, map_map, Args.read]
  refine map_congr_left fun arg harg => ?_
  cases arg with
  | none => rfl
  | some sp =>
    have hle : sp.start + sp.len ≤ q.slice.len := le_trans (hin _ harg sp rfl) hn
    have hpart := h.take_drop_read q.slice hle
    rw [QueryBuf.slice, zero_add] at hpart
    exact congrArg some hpart.symm

/-! ## What the engine sees and keeps -/

def SentArg (s : Server E) (bs : Bytes) : Prop :=
  ∃ k < s.next, ∃ no line, commandAt no (s.clients k).sent = some line ∧ some bs ∈ line

theorem SentArg.mono {s t : Server E} {bs : Bytes} (h : SentArg s bs) (hnext : s.next ≤ t.next)
    (hsent : ∀ k < s.next, ∃ more, (t.clients k).sent = (s.clients k).sent ++ more) : SentArg t bs := by
  obtain ⟨k, hk, no, line, hcmd, hmem⟩ := h
  obtain ⟨more, heq⟩ := hsent k hk
  exact ⟨k, lt_of_lt_of_le hk hnext, no, line, by rw [heq]; exact commandAt_append hcmd more, hmem⟩

theorem SentArg.congr {s t : Server E} {bs : Bytes} (h : SentArg s bs) (hnext : t.next = s.next)
    (hsent : ∀ k, (t.clients k).sent = (s.clients k).sent) : SentArg t bs :=
  h.mono (le_of_eq hnext.symm) fun k _ => ⟨[], by rw [hsent k, append_nil]⟩

/-- Every command was run with the arguments that stand in the stream of its client, and what the
engine keeps are such arguments, as they were. -/
structure Faithful (s : Server E) : Prop extends Buffers s where
  seen : ∀ k, ∀ p ∈ (s.clients k).seen, commandAt p.1 (s.clients k).sent = some p.2
  kept : ∀ p ∈ s.kept, p.1.arr < s.heap.next ∧ s.heap.read p.1 = p.2
  origin : ∀ p ∈ s.kept, SentArg s p.2

/-- The commands of client `k` that are still to be run are the next ones of its stream. -/
structure RunsFaithful (k no : Nat) (cmds : List CmdSlices) (s : Server E) : Prop extends Faithful s where
  lt_next : k < s.next
  cmds : ∀ i cmdLine, cmds[i]? = some cmdLine →
    commandAt (no + i) (s.clients k).sent = some (cmdBytes s.heap cmdLine) ∧
      ∀ a ∈ cmdLine, ∀ sl ∈ a, sl.arr = (s.clients k).queryBuf.arr

theorem mem_keptArgs {h : Heap} {cmdLine : CmdSlices} {keeps : List Nat} {p : Slice × Bytes}
    (hp : p ∈ keptArgs h cmdLine keeps) :
    some p.1 ∈ cmdLine ∧ h.read p.1 = p.2 ∧ some p.2 ∈ cmdBytes h cmdLine := by
  obtain ⟨i, -, hi⟩ := mem_filterMap.1 hp
  obtain ⟨sl, hsl, rfl⟩ := Option.map_eq_some_iff.1 hi
  have hmem := mem_of_getElem? (Option.join_eq_some_iff.1 hsl)
  exact ⟨hmem, rfl, mem_map_of_mem hmem⟩

theorem cmdBytes_congr {h h' : Heap} {cmdLine : CmdSlices}
    (hread : ∀ a ∈ cmdLine, ∀ sl ∈ a, h'.read sl = h.read sl) : cmdBytes h' cmdLine = cmdBytes h cmdLine :=
  map_congr_left fun a ha => Option.map_congr fun sl hsl => hread a ha sl hsl

namespace Faithful

variable {s t : Server E} {k no : Nat}

/-- What is new among the commands noted and among the arguments kept has to be as it was sent. -/
theorem grown (hs : Faithful s) (h : Grown s t) (hseen : ∀ j, ∀ p ∈ (t.clients j).seen,
      p ∈ (s.clients j).seen ∨ commandAt p.1 (s.clients j).sent = some p.2)
    (hkept : ∀ p ∈ t.kept, p ∈ s.kept ∨ (p.1.arr < s.heap.next ∧ s.heap.read p.1 = p.2) ∧ SentArg s p.2) :
    Faithful t where
  toBuffers := hs.toBuffers.grown h
  seen j p hp := by
    rw [(h.client j).sent]
    exact (hseen j p hp).elim (hs.seen j p) id
  kept p hp := by
    obtain ⟨hlt, hread⟩ := (hkept p hp).elim (hs.kept p) And.left
    exact ⟨lt_of_lt_of_le hlt h.heap.next_le, (h.heap.read hlt).trans hread⟩
  origin p hp := ((hkept p hp).elim (hs.origin p) And.right).congr h.next fun j => (h.client j).sent

theorem same (h : SameMem s t) (hs : Faithful s) : Faithful t :=
  hs.grown (.of_same h) (fun j p hp => .inl (by rwa [(h.client j).seen] at hp))
    fun p hp => .inl (by rwa [h.kept] at hp)

theorem accept (hs : Faithful s) {fd : Nat} (hfd : s.fds fd = none) : Faithful (accept s fd) := by
  have hx := s.heap.extends_alloc 1024 []
  have hbuf := hs.toBuffers.accept hfd
  rw [Net.accept, hfd] at hbuf ⊢
  refine ⟨hbuf, fun j p hp => ?_, fun p hp => ?_, fun p hp => ?_⟩
  · have hseen := hs.seen j p
    grind [Function.update_apply]
  · obtain ⟨hlt, hread⟩ := hs.kept p hp
    exact ⟨lt_of_lt_of_le hlt hx.next_le, (hx.read hlt).trans hread⟩
  · refine (hs.origin p hp).mono (Nat.le_succ _) fun j hj => ⟨[], ?_⟩
    dsimp only
    rw [Function.update_of_ne (Nat.ne_of_lt hj), append_nil]

variable (rt) in
theorem readAll (hs : Faithful s) (hk : k < s.next) {chunks : List Bytes}
    (hd : ∀ r ∈ (s.clients k).queryBuf.appended rt.grow s.heap chunks, ∀ p ∈ s.kept, r.Disjoint p.1) :
    Faithful (readAll rt s k chunks) := by
  have happ := (s.clients k).queryBuf.appendAll_spec rt.grow (hs.arr_lt k hk) chunks
  refine ⟨hs.toBuffers.readAll hk chunks, fun j p hp => ?_, fun p hp => ?_, fun p hp => ?_⟩
  · rw [Net.readAll] at hp ⊢
    by_cases hjk : j = k
    · rw [hjk, clients_modify_self] at hp ⊢
      exact commandAt_append (hs.seen k p hp) _
    · rw [clients_modify_of_ne _ _ _ hjk] at hp ⊢
      exact hs.seen j p hp
  · obtain ⟨hlt, hread⟩ := hs.kept p hp
    refine ⟨lt_of_lt_of_le hlt happ.next_le, ?_⟩
    exact (QueryBuf.read_appendAll rt.grow (hs.arr_lt k hk) hlt fun r hr => hd r hr p hp).trans hread
  · refine (hs.origin p hp).mono (le_refl _) fun j _ => ?_
    exact modify_rel _ k (fun c => c.read ..)
      (r := fun c c' => ∃ more, c'.sent = c.sent ++ more) (fun c => ⟨[], (append_nil _).symm⟩)
      ⟨_, rfl⟩ j

theorem takeCmds (hs : Faithful s) (hk : k < s.next) {cmds : List Args} {consumed : Nat}
    (hparse : parseRequests (s.heap.read (s.clients k).queryBuf.slice) = .ok (cmds, consumed))
    (hd : ∀ p ∈ s.kept, ((s.clients k).queryBuf.moved consumed).Disjoint p.1) :
    Faithful (takeCmds s k cmds.length consumed) := by
  have hlen := (parseRequests_spec hparse).1
  rw [Heap.length_read] at hlen
  obtain ⟨-, -, hnext, -⟩ := QueryBuf.compact_spec s.heap hlen
  have hcl := fun j => modify_rel
    { s with heap := ((s.clients k).queryBuf.compact s.heap consumed).1 } k
    (fun c => c.took ((s.clients k).queryBuf.compact s.heap consumed).2 cmds.length)
    (r := fun c c' => c'.sent = c.sent ∧ c'.seen = c.seen) (fun _ => ⟨rfl, rfl⟩) ⟨rfl, rfl⟩ j
  refine ⟨hs.toBuffers.takeCmds hk hparse, fun j p hp => ?_, fun p hp => ?_,
    fun p hp => (hs.origin p hp).congr rfl fun j => (hcl j).1⟩
  · rw [Net.takeCmds] at hp ⊢
    rw [(hcl j).2] at hp
    rw [(hcl j).1]
    exact hs.seen j p hp
  · obtain ⟨hlt, hread⟩ := hs.kept p hp
    exact ⟨lt_of_lt_of_eq hlt hnext.symm, (QueryBuf.read_compact s.heap (hd p hp)).trans hread⟩

theorem block (hs : Faithful s) {preLen : Nat} {name : Bytes} {keys : List Bytes} {deadline : Int}
    {cmdLine : CmdSlices} :
    Faithful ((s.modify k fun c => c.block no preLen name keys deadline cmdLine).register k keys) := by
  have hcl := fun j => s.modify_rel k (fun c => c.block no preLen name keys deadline cmdLine)
    (r := fun c c' => c'.sent = c.sent ∧ c'.seen = c.seen) (fun _ => ⟨rfl, rfl⟩) ⟨rfl, rfl⟩ j
  refine ⟨hs.toBuffers.block .., fun j p hp => ?_, hs.kept, fun p hp => (hs.origin p hp).congr rfl fun j => (hcl j).1⟩
  rw [register] at hp ⊢
  rw [(hcl j).2] at hp
  rw [(hcl j).1]
  exact hs.seen j p hp

end Faithful

namespace RunsFaithful

variable {s t : Server E} {k no : Nat} {cmds : List CmdSlices} {cmdLine : CmdSlices}

theorem grown (hY : RunsFaithful k no cmds s) (ht : Faithful t) (h : Grown s t) : RunsFaithful k no cmds t where
  toFaithful := ht
  lt_next := by rw [h.next]; exact hY.lt_next
  cmds i cmdLine hi := by
    obtain ⟨hcmd, harr⟩ := hY.cmds i cmdLine hi
    have hsame : cmdBytes t.heap cmdLine = cmdBytes s.heap cmdLine := cmdBytes_congr fun a ha sl hsl =>
      h.heap.read (by rw [harr a ha sl hsl]; exact hY.arr_lt k hY.lt_next)
    rw [hsame, (h.client k).sent, (h.client k).queryBuf]
    exact ⟨hcmd, harr⟩

theorem tail (hY : RunsFaithful k no (cmdLine :: cmds) s) : RunsFaithful k (no + 1) cmds s where
  toFaithful := hY.toFaithful
  lt_next := hY.lt_next
  cmds i c hi := by
    have := hY.cmds (i + 1) c hi
    rwa [← add_assoc, add_right_comm] at this

theorem execute (hx : s.heap.Extends (rt.exec s.engine k s.heap cmdLine).heap)
    (hY : RunsFaithful k no (cmdLine :: cmds) s) : RunsFaithful k (no + 1) cmds (execute rt s k no cmdLine).1 := by
  obtain ⟨hcmd, harr⟩ := hY.cmds 0 cmdLine rfl
  have hg : Grown s (Net.execute rt s k no cmdLine).1 := .execute hx
  obtain ⟨clients, heq, hcl⟩ := call_spec rt s k cmdLine
  refine hY.tail.grown (hY.toFaithful.grown hg (fun j p hp => ?_) fun p hp => ?_) hg
  · rw [Net.execute, heq] at hp
    have hseen : (clients j).seen = (s.clients j).seen := (hcl j).sameMem.seen
    simp only [Server.modify, Function.update_apply] at hp
    grind [Client.executed, Client.answer]
  · -- what is kept now are arguments of this command
    refine (mem_append.1 hp).imp_right fun hp => ?_
    obtain ⟨hmem, hread, hline⟩ := mem_keptArgs hp
    refine ⟨⟨?_, hread⟩, k, hY.lt_next, no, _, hcmd, hline⟩
    rw [harr _ hmem p.1 rfl]
    exact hY.arr_lt k hY.lt_next

theorem tryWake {m : Nat} (hx : let p := allocParts s.heap (wakeParts s.heap (s.clients m))
    p.1.Extends (rt.exec s.engine m p.1 p.2).heap) (hY : RunsFaithful k no cmds s) :
    RunsFaithful k no cmds (tryWake rt s m).1 := by
  have hg : Grown s (Net.tryWake rt s m).1 := .tryWake hx
  obtain ⟨clients, heq, hcl⟩ := tryWake_spec rt s m
  refine hY.grown (hY.toFaithful.grown hg (fun j p hp => .inl ?_) fun p hp => .inl ?_) hg
  · rw [heq] at hp
    exact (hcl j).sameMem.seen ▸ hp
  · rwa [heq] at hp

end RunsFaithful

/-- The commands that a read has completed, after the tail has been moved away from them. -/
theorem RunsFaithful.take {s : Server E} {k consumed : Nat} {cmds : List Args} (hs : Faithful s) (hk : k < s.next)
    (hparse : parseRequests (s.heap.read (s.clients k).queryBuf.slice) = .ok (cmds, consumed))
    (hkept : ∀ p ∈ s.kept, ((s.clients k).queryBuf.moved consumed).Disjoint p.1) (hcmds : ∀ args ∈ cmds,
      ∀ a ∈ cmdSlices (s.clients k).queryBuf.arr args, ∀ sl ∈ a,
        ((s.clients k).queryBuf.moved consumed).Disjoint sl) :
    RunsFaithful k (s.clients k).count (cmds.map (cmdSlices (s.clients k).queryBuf.arr))
      (Net.takeCmds s k cmds.length consumed) := by
  obtain ⟨hlen, -, -, hfound⟩ := parseRequests_spec hparse
  rw [Heap.length_read] at hlen
  refine ⟨hs.takeCmds hk hparse hkept, hk, fun i cmdLine hi => ?_⟩
  rw [getElem?_map, Option.map_eq_some_iff] at hi
  obtain ⟨args, hargs, rfl⟩ := hi
  obtain ⟨hcommand, hwithin⟩ := hfound i args hargs
  have hdisj := hcmds args (mem_of_getElem? hargs)
  -- the move leaves the arguments' bytes as the parser saw them
  have hbytes : cmdBytes (Net.takeCmds s k cmds.length consumed).heap
      (cmdSlices (s.clients k).queryBuf.arr args) =
      cmdBytes s.heap (cmdSlices (s.clients k).queryBuf.arr args) :=
    cmdBytes_congr fun a ha sl hsl => QueryBuf.read_compact s.heap (hdisj a ha sl hsl)
  rw [hbytes, Net.takeCmds, clients_modify_self]
  refine ⟨?_, fun a ha sl hsl => ?_⟩
  · rw [cmdBytes_cmdSlices s.heap _ hwithin hlen, ← hcommand]
    exact commandAt_add (hs.stream k hk)
  · rw [arr_of_mem_cmdSlices ha hsl]
    exact (QueryBuf.compact_spec s.heap hlen).2.1.symm

/-! ## Runs -/

section Runs

variable (rt)

/-- The condition on what arrives from client `k`: the bytes are not written over slices that the
engine has kept; and the tail behind the last whole command is moved neither over those nor over an
argument of the commands in front of it. -/
def ReadApart (s : Server E) (k : Nat) (chunks : List Bytes) (fin : Bool) : Prop :=
  let t := readAll rt s k chunks
  let q := (t.clients k).queryBuf
  (∀ r ∈ (s.clients k).queryBuf.appended rt.grow s.heap chunks, ∀ p ∈ s.kept, r.Disjoint p.1) ∧
    (fin = false → ∀ r ∈ (parseRequests (t.heap.read q.slice)).toOption,
      (∀ p ∈ s.kept, (q.moved r.2).Disjoint p.1) ∧
      ∀ args ∈ r.1, ∀ a ∈ cmdSlices q.arr args, ∀ sl ∈ a, (q.moved r.2).Disjoint sl)

instance (s : Server E) (k : Nat) (chunks : List Bytes) (fin : Bool) : Decidable (ReadApart rt s k chunks fin) :=
  inferInstanceAs (Decidable (_ ∧ (_ = _ → _)))

variable {rt}

theorem faithful_inv : MemInv rt (ReadApart rt) (fun s : Server E => s.quiet → Faithful s)
    (fun _ s => s.quiet → Faithful s) fun k no cmds s => s.quiet → RunsFaithful k no cmds s where
  same h hX hq := (hX (h.quiet.1 hq)).same h
  accept _ hX hfd hq := by
    refine (hX ?_).accept hfd
    rwa [Net.accept, hfd] at hq
  read hX hk _ hok hq := (hX hq).readAll rt hk hok.1
  sameRead h hW hq := (hW (h.quiet.1 hq)).same h
  close hW hq := (hW hq).same (.closeClient ..)
  crash hW hq := (hW hq).same (.crash _)
  take {s k consumed chunks cmds} hX hk _ hok hparse hq := by
    obtain ⟨hkept, hcmds⟩ := hok.2 rfl (cmds, consumed) (by rw [hparse]; rfl)
    have hcount : ((readAll rt s k chunks).clients k).count = (s.clients k).count := by
      rw [readAll, clients_modify_self]
      rfl
    rw [← hcount]
    exact .take ((hX hq).readAll rt hk hok.1) hk hparse hkept hcmds
  sameRun h hY hq :=
    let hY := hY (h.quiet.1 hq)
    hY.grown (hY.toFaithful.same h) (.of_same h)
  exec hY hq := by
    obtain ⟨hq, hx⟩ := (quiet_call ..).1 hq
    exact (hY hq).execute hx
  wake _ hY hq := by
    obtain ⟨hq, hx⟩ := (quiet_call ..).1 hq
    exact (hY hq).tryWake hx
  block {s k no now net cmdLine cmds} hY hr hq := by
    obtain heq | ⟨-, -, -, heq⟩ := runCmd_cases rt s k no now net cmdLine
    · rw [heq] at hr
      cases hr
    · rw [heq] at hq ⊢
      obtain ⟨hq, hx⟩ := (quiet_call ..).1 hq
      exact ((hY hq).execute hx).toFaithful.block
  done hY hq := (hY hq).toFaithful
  background e hX hq := (hX hq).same (.setEngine _ e)

theorem faithful_start (e : E) : Faithful (start e) where
  arr_lt _ hk := absurd hk (Nat.not_lt_zero _)
  arr_ne _ hj := absurd hj (Nat.not_lt_zero _)
  stream _ hk := absurd hk (Nat.not_lt_zero _)
  seen _ _ hp := nomatch hp
  kept _ hp := nomatch hp
  origin _ hp := nomatch hp

end Runs

/-- In a run whose commands write to no array that there was, the engine runs every command with the
arguments that stand at the command's place in the stream of its client, and what it keeps of them stays
as it was sent, as long as nothing is read or moved over arguments that are still in use. -/
theorem args_as_sent (e : E) (evs : List (Event E)) (hok : Guarded (step rt) (ReadsOk (ReadApart rt)) (.start e) evs)
    (hquiet : (run rt (.start e) evs).quiet) :
    (∀ k, ∀ p ∈ ((run rt (.start e) evs).clients k).seen,
      commandAt p.1 ((run rt (.start e) evs).clients k).sent = some p.2) ∧ ∀ p ∈ (run rt (.start e) evs).kept,
      SentArg (run rt (.start e) evs) p.2 ∧ (run rt (.start e) evs).heap.read p.1 = p.2 := by
  have hrun := Guarded.run (fun s ev h hev => faithful_inv.step s ev h hev) hok
    ⟨fun _ _ h => (nomatch h), fun _ => faithful_start e⟩
  obtain ⟨-, hseen, hkept, horigin⟩ := hrun.2 hquiet
  exact ⟨hseen, fun p hp => ⟨horigin p hp, (hkept p hp).2⟩⟩

/-- The tail of a read is moved over the command in front of it, which is run afterwards; and a value
that `SET` keeps is overwritten by the next read. -/
theorem args_overwritten :
    (¬ ∀ evs : List (Event Store), ∀ k, ∀ p ∈ ((run Store.runtime (.start {}) evs).clients k).seen,
      commandAt p.1 ((run Store.runtime (.start {}) evs).clients k).sent = some p.2) ∧
    ¬ ∀ evs : List (Event Store), ∀ p ∈ (run Store.runtime (.start {}) evs).kept,
      (run Store.runtime (.start {}) evs).heap.read p.1 = p.2 := by
  refine ⟨fun h => ?_, fun h => ?_⟩
  · exact absurd (h [.accept 5, Store.arrives 5 [["GET", "abc"]] "*2\r\n$3\r\nGET\r\n$3\r\nxy"]
      0 (0, [some "GET", some "xyc"]) (by decide +kernel)) (by decide +kernel)
  · exact absurd (h [.accept 5, Store.arrives 5 [["SET", "k", "v"]] [],
      Store.arrives 5 [["GET", "abc"], ["PING"]] []]
      (⟨0, 24, 1⟩, "v") (by decide +kernel)) (by decide +kernel)

/-- The first bytes of a command arrive behind `SET`, and the rest later. -/
def apartRun : List (Event Store) :=
  [.accept 5, .accept 6, Store.arrives 5 [["SET", "k", "v"]] "*1",
    Store.arrives 6 [["GET", "k"]] [], Store.arrives 5 [] "\r\n$4\r\nPING\r\n"]

theorem args_as_sent_apart : (∀ p ∈ ((run Store.runtime (.start {}) apartRun).clients 0).seen,
      commandAt p.1 ((run Store.runtime (.start {}) apartRun).clients 0).sent = some p.2) ∧
    ((run Store.runtime (.start {}) apartRun).clients 0).seen =
      [(0, [some (str "SET"), some (str "k"), some (str "v")]), (1, [some (str "PING")])] ∧
    (run Store.runtime (.start {}) apartRun).heap.read ⟨0, 24, 1⟩ = "v" := by
  have hrun := @args_as_sent _ _ Store.runtime {} apartRun (by decide +kernel) (Store.quiet_run apartRun)
  exact ⟨hrun.1 0, by decide +kernel, (hrun.2 (⟨0, 24, 1⟩, "v") (by decide +kernel)).2⟩

end Hayakv.Net
