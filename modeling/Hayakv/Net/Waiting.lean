import Hayakv.Net.Buffers

/-!
# The commands of the waiting clients

A client that waits in `BLPOP` or `BRPOP` is tried again with a command made of its
keys, and one that waits in a stream read with the command it has sent, whose
arguments are still slices of its query buffer. `Waiting` says that these slices hold
the command: the buffers of the clients are apart, the buffer of a waiting client is
not read into, and the engine's commands write to no array that there is.
-/

namespace Hayakv.Net

open Memory (Arr Slice Heap)
open Server
open List

variable {E R : Type} {rt : Runtime E R}

/-! ## The wake-up command -/

def lineName (line : List (Option Bytes)) : Bytes := toLower ((line.headD none).getD [])

theorem cmdName_cmdStrings (h : Heap) (cmdLine : CmdSlices) :
    cmdName (cmdStrings h cmdLine) = lineName (cmdBytes h cmdLine) := by
  cases cmdLine with
  | nil => rfl
  | cons a rest => cases a <;> rfl

variable {h : Heap}

variable {cmdLine : CmdSlices}

theorem exists_cons_of_isBlockCommand (hname : isBlockCommand (cmdName (cmdStrings h cmdLine)) = true) :
    ∃ a rest, cmdLine = a :: rest := by
  cases cmdLine with
  | nil => exact absurd hname (by decide : ¬ isBlockCommand (cmdName []) = true)
  | cons a rest => exact ⟨a, rest, rfl⟩

/-- The parts that are arguments of the original command are slices of arrays that there are. -/
def PartsIn (n : Nat) (parts : List Part) : Prop := ∀ p ∈ parts, ∀ arg, p = .inl arg → ∀ sl ∈ arg, sl.arr < n

theorem lineName_allocParts {part : Part} {parts : List Part} (hin : PartsIn h.next (part :: parts)) :
    lineName (cmdBytes (allocParts h (part :: parts)).1 (allocParts h (part :: parts)).2) =
      toLower (part.elim (argString h) id) := by
  have hx := extends_allocParts h (part :: parts)
  cases part with
  | inl a =>
    cases a with
    | none => rfl
    | some sl => exact congrArg toLower (hx.read (hin _ mem_cons_self _ rfl sl rfl))
  | inr bs =>
    have hrest := extends_allocParts (h.alloc bs.length bs) parts
    exact congrArg toLower ((hrest.read (Nat.lt_succ_self _)).trans (h.read_alloc_self ..))

theorem wakeOptions_mem (h : Heap) (args : CmdSlices) :
    (∀ a, Sum.inl a ∈ (wakeOptions h args).1 → a ∈ args) ∧ ∀ a ∈ (wakeOptions h args).2.2, a ∈ args := by
  induction args using wakeOptions.induct h with
  | case1 => simp [wakeOptions]
  | case2 arg hs => simp [wakeOptions, hs]
  | case3 arg hs hb | case4 arg hs hb => simp [wakeOptions, hs, hb]
  | case5 arg next rest hs => simp [wakeOptions, hs]
  | case6 arg next rest hs hb ih =>
    rw [wakeOptions, if_neg hs, if_pos hb]
    exact ⟨fun a ha => mem_cons_of_mem _ (mem_cons_of_mem _ (ih.1 a ha)),
      fun a ha => mem_cons_of_mem _ (mem_cons_of_mem _ (ih.2 a ha))⟩
  | case7 arg next rest hs hb ih =>
    rw [wakeOptions, if_neg hs, if_neg hb]
    refine ⟨fun a ha => ?_, fun a ha => mem_cons_of_mem _ (ih.2 a ha)⟩
    rcases mem_cons.1 ha with heq | ha
    · cases heq
      exact mem_cons_self
    · exact mem_cons_of_mem _ (ih.1 a ha)

/-- The command of a waiting client has the name of the command it waits in, and its other arguments
come from that command or are new. -/
structure Client.WaitsIn (h : Heap) (c : Client) : Prop where
  blockCmd_nil : c.blockKeys = [] ↔ c.blockCmd = []
  blockCmd : c.blockCmd = [] ∨ isBlockCommand c.blockCmd = true
  name : isStreamRead c.blockCmd = true → ∃ a rest, c.blockCmdLine = a :: rest ∧ toLower (argString h a) = c.blockCmd
  arr : isStreamRead c.blockCmd = true → ∀ a ∈ c.blockCmdLine, ∀ sl ∈ a, sl.arr = c.queryBuf.arr

theorem not_isStreamRead_nil : ¬ isStreamRead [] = true := by decide

theorem toLower_blockCmd {name : Bytes} (h : name = [] ∨ isBlockCommand name = true) : toLower name = name := by
  rcases h with rfl | h
  · rfl
  · simp only [isBlockCommand, decide_eq_true_eq] at h
    rcases h with rfl | rfl | rfl | rfl <;> decide

theorem wakeFallback_eq (c : Client) : ∃ parts, wakeFallback c = .inr c.blockCmd :: parts ∧
    ∀ a, Sum.inl a ∉ wakeFallback c := by
  refine ⟨_, rfl, fun a ha => ?_⟩
  rw [wakeFallback] at ha
  split at ha <;> simp at ha

theorem wakeParts_eq {c : Client} (hc : c.WaitsIn h) :
    ∃ part parts, wakeParts h c = part :: parts ∧ toLower (part.elim (argString h) id) = c.blockCmd ∧
      ∀ a, Sum.inl a ∈ wakeParts h c → isStreamRead c.blockCmd = true ∧ a ∈ c.blockCmdLine := by
  have hlower := toLower_blockCmd hc.blockCmd
  rw [wakeParts]
  by_cases hs : isStreamRead c.blockCmd = true
  · rw [if_pos hs]
    obtain ⟨name, rest, hline, hname⟩ := hc.name hs
    obtain ⟨parts, hfall, hnone⟩ := wakeFallback_eq c
    have hfallback : ∃ part parts, wakeFallback c = part :: parts ∧
        toLower (part.elim (argString h) id) = c.blockCmd ∧
        ∀ a, Sum.inl a ∈ wakeFallback c → isStreamRead c.blockCmd = true ∧ a ∈ c.blockCmdLine :=
      ⟨_, parts, hfall, hlower, fun a ha => absurd ha (hnone a)⟩
    rw [buildStreamWakeupCmd, hline]
    dsimp only
    split
    · rwa [hline] at hfallback
    rename_i word ids hstreams
    split
    · obtain ⟨hopt, htail⟩ := wakeOptions_mem h rest
      rw [hstreams] at htail
      refine ⟨_, _, rfl, hname, fun a ha => ⟨hs, ?_⟩⟩
      have hcount : ∀ b : Bool, Sum.inl a ∉ (if b then [] else [.inr "COUNT", .inr "1"] : List Part) := fun b => by
        cases b <;> simp
      simp only [mem_append, mem_cons, mem_map, mem_replicate, Sum.inl.injEq,
        hcount, reduceCtorEq, and_false, or_false, exists_eq_right] at ha
      rcases ha with (rfl | ha) | rfl | ha
      · exact mem_cons_self
      · exact mem_cons_of_mem _ (hopt a ha)
      · exact mem_cons_of_mem _ (htail _ mem_cons_self)
      · exact mem_cons_of_mem _ (htail _ (mem_cons_of_mem _ (mem_of_mem_take ha)))
    · rwa [hline] at hfallback
  · rw [if_neg hs]
    refine ⟨_, _, rfl, hlower, fun a ha => ?_⟩
    simp at ha

theorem Client.WaitsIn.congr {h h' : Heap} {c : Client} (hc : c.WaitsIn h)
    (harr : isStreamRead c.blockCmd = true → h'.arr c.queryBuf.arr = h.arr c.queryBuf.arr) : c.WaitsIn h' where
  blockCmd_nil := hc.blockCmd_nil
  blockCmd := hc.blockCmd
  name hs := by
    obtain ⟨a, rest, hline, hname⟩ := hc.name hs
    refine ⟨a, rest, hline, ?_⟩
    cases a with
    | none => exact hname
    | some sl =>
      have hsl : sl.arr = c.queryBuf.arr := hc.arr hs (some sl) (by rw [hline]; exact mem_cons_self) sl rfl
      have hread : h'.read sl = h.read sl := Heap.read_congr (by rw [hsl]; exact harr hs)
      rw [argString, hread]
      exact hname
  arr := hc.arr

theorem Client.WaitsIn.same {c c' : Client} (hc : c.WaitsIn h) (hsame : c.SameBuf c') : c'.WaitsIn h := by
  rcases hsame.blocks with ⟨hkeys, hcmd, hline⟩ | ⟨hkeys, hcmd⟩
  · exact ⟨by rw [hkeys, hcmd]; exact hc.blockCmd_nil, by rw [hcmd]; exact hc.blockCmd,
      by rw [hcmd, hline]; exact hc.name, by rw [hcmd, hline, hsame.queryBuf]; exact hc.arr⟩
  · have hno : isStreamRead c'.blockCmd = true → False := fun hs => by
      rw [hcmd] at hs
      exact not_isStreamRead_nil hs
    exact ⟨iff_of_true hkeys hcmd, .inl hcmd, fun hs => (hno hs).elim, fun hs => (hno hs).elim⟩

/-! ## Steps of the loop -/

/-- The waiting clients wait in the commands they sent. -/
structure Waiting (s : Server E) : Prop extends Buffers s where
  waits : ∀ k, (s.clients k).WaitsIn s.heap
  waits_lt : ∀ k, isStreamRead (s.clients k).blockCmd = true → k < s.next

namespace Waiting

variable {s t : Server E} {k no : Nat}

theorem grown (hs : Waiting s) (h : Grown s t) : Waiting t where
  toBuffers := hs.toBuffers.grown h
  waits j := ((hs.waits j).congr fun hj => h.heap.arr_eq _ (hs.arr_lt j (hs.waits_lt j hj))).same (h.client j)
  waits_lt j hj := by
    rw [h.next]
    rcases (h.client j).blocks with ⟨-, hcmd, -⟩ | ⟨-, hcmd⟩
    · rw [hcmd] at hj
      exact hs.waits_lt j hj
    · rw [hcmd] at hj
      exact absurd hj not_isStreamRead_nil

theorem accept (hs : Waiting s) {fd : Nat} (hfd : s.fds fd = none) : Waiting (accept s fd) := by
  have hx := s.heap.extends_alloc 1024 []
  have hbuf := hs.toBuffers.accept hfd
  rw [Net.accept, hfd] at hbuf ⊢
  refine ⟨hbuf, fun j => ?_, fun j hj => ?_⟩
  · dsimp only
    by_cases hn : j = s.next
    · rw [hn, Function.update_self]
      exact ⟨iff_of_true rfl rfl, .inl rfl, fun hs => absurd hs not_isStreamRead_nil,
        fun hs => absurd hs not_isStreamRead_nil⟩
    · rw [Function.update_of_ne hn]
      exact (hs.waits j).congr fun hj => hx.arr_eq _ (hs.arr_lt j (hs.waits_lt j hj))
  · have hlt := hs.waits_lt j
    grind [Function.update_apply]

theorem not_streamRead (hs : Waiting s) (hk : (s.clients k).blockKeys = []) :
    ¬ isStreamRead (s.clients k).blockCmd = true := by
  rw [(hs.waits k).blockCmd_nil.1 hk]
  exact not_isStreamRead_nil

theorem rebuffer (hs : Waiting s) (hk : k < s.next) (hb : (s.clients k).blockKeys = []) {h : Heap}
    {f : Client → Client} (hkeys : ∀ c, (f c).blockKeys = c.blockKeys) (hcmd : ∀ c, (f c).blockCmd = c.blockCmd)
    (hothers : ∀ i < s.heap.next, i ≠ (s.clients k).queryBuf.arr → h.arr i = s.heap.arr i)
    (hbuf : Buffers (modify { s with heap := h } k f)) :
    Waiting (modify { s with heap := h } k f) := by
  have hno := hs.not_streamRead hb
  refine ⟨hbuf, fun j => ?_, fun j hj => ?_⟩
  · by_cases hjk : j = k
    · rw [hjk, clients_modify_self]
      have hno : ¬ isStreamRead (f (s.clients k)).blockCmd = true := by rwa [hcmd]
      exact ⟨by rw [hkeys, hcmd]; exact (hs.waits k).blockCmd_nil,
        by rw [hcmd]; exact (hs.waits k).blockCmd, fun h => absurd h hno, fun h => absurd h hno⟩
    · rw [clients_modify_of_ne _ _ _ hjk]
      refine (hs.waits j).congr fun hj => ?_
      have hjn := hs.waits_lt j hj
      exact hothers _ (hs.arr_lt j hjn) (hs.arr_ne j hjn k hk hjk)
  · have hj' := modify_rel { s with heap := h } k f (r := fun c c' => c'.blockCmd = c.blockCmd)
      (fun _ => rfl) (hcmd _) j
    rw [hj'] at hj
    exact hs.waits_lt j hj

variable (rt) in
section

variable (hs : Waiting s)
include hs

theorem readAll (hk : k < s.next) (hb : (s.clients k).blockKeys = [])
    (chunks : List Bytes) : Waiting (readAll rt s k chunks) :=
  hs.rebuffer (f := fun c => c.read ..) hk hb (fun _ => rfl) (fun _ => rfl)
    ((s.clients k).queryBuf.appendAll_spec rt.grow (hs.arr_lt k hk) chunks).others
    (hs.toBuffers.readAll hk chunks)

theorem takeCmds (hk : k < s.next) (hb : (s.clients k).blockKeys = []) {cmds : List Args} {consumed : Nat}
    (hparse : parseRequests (s.heap.read (s.clients k).queryBuf.slice) = .ok (cmds, consumed)) :
    Waiting (takeCmds s k cmds.length consumed) := by
  have hlen := (parseRequests_spec hparse).1
  rw [Heap.length_read] at hlen
  have hspec := QueryBuf.compact_spec s.heap hlen
  exact hs.rebuffer (f := fun c => c.took ..) hk hb (fun _ => rfl) (fun _ => rfl) (fun i _ hi => hspec.2.2.2 i hi)
    (hs.toBuffers.takeCmds hk hparse)

theorem block (hk : k < s.next) {preLen : Nat} {name : Bytes} {keys : List Bytes}
    {deadline : Int} {a : Option Slice} {rest : CmdSlices} (hkeys : keys ≠ [])
    (hname : isBlockCommand name = true) (hline : toLower (argString s.heap a) = name)
    (harr : ∀ b ∈ a :: rest, ∀ sl ∈ b, sl.arr = (s.clients k).queryBuf.arr) :
    Waiting ((s.modify k fun c => c.block no preLen name keys deadline (a :: rest)).register k keys) := by
  have hne : name ≠ [] := fun h => absurd (h ▸ hname) (by decide)
  refine ⟨hs.toBuffers.block .., fun j => ?_, fun j hj => ?_⟩
  · rw [register]
    by_cases hjk : j = k
    · rw [hjk, clients_modify_self]
      exact ⟨iff_of_false hkeys hne, .inr hname, fun _ => ⟨a, rest, rfl, hline⟩, fun _ => harr⟩
    · rw [clients_modify_of_ne _ _ _ hjk]
      exact hs.waits j
  · by_cases hjk : j = k
    · exact hjk ▸ hk
    · rw [register, clients_modify_of_ne _ _ _ hjk] at hj
      exact hs.waits_lt j hj

theorem partsIn (m : Nat) : PartsIn s.heap.next (wakeParts s.heap (s.clients m)) := by
  obtain ⟨-, -, -, -, hinl⟩ := wakeParts_eq (hs.waits m)
  intro p hp a ha sl hsl
  subst ha
  obtain ⟨hstream, hmem⟩ := hinl a hp
  rw [(hs.waits m).arr hstream a hmem sl hsl]
  exact hs.arr_lt m (hs.waits_lt m hstream)

theorem lineName_wake (m : Nat) : lineName (cmdBytes (allocParts s.heap (wakeParts s.heap (s.clients m))).1
      (allocParts s.heap (wakeParts s.heap (s.clients m))).2) = (s.clients m).blockCmd := by
  have hin := hs.partsIn m
  obtain ⟨part, parts, hparts, hname, -⟩ := wakeParts_eq (hs.waits m)
  rw [hparts] at hin ⊢
  rw [lineName_allocParts hin, hname]

end

end Waiting

end Hayakv.Net
