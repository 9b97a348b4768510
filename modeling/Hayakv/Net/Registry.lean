import Mathlib.Data.List.Nodup
import Hayakv.Lib.Guarded
import Hayakv.Net.Frames

/-!
# The registry of blocked clients

`block` and `unblock` keep, for each key, the clients that wait for it. `Registered` says
that the lists are exact and that the clients in them are open. It holds over a run
as long as no blocking command names a key twice and no waiting client is closed.
`LoopInv.step` makes the facts of a `LoopInv` one about events.
-/

namespace Hayakv.Net

open Memory (Arr Slice Heap)
open Server
open Function
open List

variable {E R : Type} {rt : Runtime E R}

/-- The client's descriptor is its own. -/
def Open (s : Server E) (k : Nat) : Prop := s.fds (s.clients k).fd = some k

/-- The client waits. -/
def Blocked (s : Server E) (k : Nat) : Prop := (s.clients k).blockKeys ≠ []

def Owned (s : Server E) (k : Nat) : Prop := ∀ j, s.fds (s.clients k).fd = some j → j = k

instance (s : Server E) (k : Nat) : Decidable (Open s k) := inferInstanceAs (Decidable (_ = _))

instance (s : Server E) (k : Nat) : Decidable (Blocked s k) := inferInstanceAs (Decidable (_ ≠ _))

variable {s : Server E} {k : Nat} {net : Nat → Outcome}

theorem Open.owned (h : Open s k) : Owned s k := fun j hj => by
  rw [h] at hj
  exact (Option.some.inj hj).symm

/-- Nothing that the registry depends on has changed. -/
structure SameBlocks (s t : Server E) : Prop where
  waiters : t.waiters = s.waiters
  fds : t.fds = s.fds
  next : t.next = s.next
  fd : ∀ k, (t.clients k).fd = (s.clients k).fd
  blockKeys : ∀ k, (t.clients k).blockKeys = (s.clients k).blockKeys

namespace SameBlocks

variable {s t u : Server E}

theorem trans (h1 : SameBlocks s t) (h2 : SameBlocks t u) : SameBlocks s u :=
  ⟨h2.waiters.trans h1.waiters, h2.fds.trans h1.fds, h2.next.trans h1.next,
    fun k => (h2.fd k).trans (h1.fd k), fun k => (h2.blockKeys k).trans (h1.blockKeys k)⟩

theorem modify (s : Server E) (k : Nat) {f : Client → Client}
    (hfd : ∀ c, (f c).fd = c.fd) (hkeys : ∀ c, (f c).blockKeys = c.blockKeys) : SameBlocks s (s.modify k f) :=
  ⟨rfl, rfl, rfl, s.modify_rel k f (r := fun c c' => c'.fd = c.fd) (fun _ => rfl) (hfd _),
    s.modify_rel k f (r := fun c c' => c'.blockKeys = c.blockKeys) (fun _ => rfl) (hkeys _)⟩

variable (rt) in
theorem call (s : Server E) (k : Nat) (cmdLine : CmdSlices) : SameBlocks s (call rt s k cmdLine).1 := by
  obtain ⟨clients, heq, hcl⟩ := call_spec rt s k cmdLine
  rw [heq]
  refine ⟨rfl, rfl, rfl, fun j => ?_, fun j => ?_⟩ <;> obtain ⟨bs, hj⟩ := hcl j <;>
    simp only [hj]

theorem setHeap (s : Server E) (h : Heap) : SameBlocks s { s with heap := h } :=
  ⟨rfl, rfl, rfl, fun _ => rfl, fun _ => rfl⟩

variable (rt) in
theorem execute (s : Server E) (k no : Nat) (cmdLine : CmdSlices) : SameBlocks s (execute rt s k no cmdLine).1 := by
  have hkept : SameBlocks (Net.call rt s k cmdLine).1 { (Net.call rt s k cmdLine).1 with
      kept := s.kept ++ keptArgs s.heap cmdLine (rt.exec s.engine k s.heap cmdLine).keeps } :=
    ⟨rfl, rfl, rfl, fun _ => rfl, fun _ => rfl⟩
  exact ((call rt s k cmdLine).trans hkept).trans (modify _ k (f := fun c => Client.answer (c.executed ..) ..)
    (fun _ => rfl) fun _ => rfl)

variable (rt) in
theorem readAll (s : Server E) (k : Nat) (chunks : List Bytes) : SameBlocks s (readAll rt s k chunks) :=
  (setHeap s _).trans (modify _ k (f := fun c => c.read ..) (fun _ => rfl) fun _ => rfl)

theorem takeCmds (s : Server E) (k commands consumed : Nat) : SameBlocks s (takeCmds s k commands consumed) :=
  (setHeap s _).trans (modify _ k (f := fun c => c.took ..) (fun _ => rfl) fun _ => rfl)

variable (rt) in
theorem tryWake (s : Server E) (k : Nat) : SameBlocks s (tryWake rt s k).1 := (setHeap s _).trans (call ..)

theorem owned {s t : Server E} (h : SameBlocks s t) {k : Nat} (hown : Owned s k) : Owned t k := by
  intro j hj
  rw [h.fds, h.fd] at hj
  exact hown j hj

theorem isOpen {s t : Server E} (h : SameBlocks s t) {k : Nat} (hopen : Open s k) : Open t k := by
  rw [Open, h.fds, h.fd]
  exact hopen

end SameBlocks

/-! ## The registry -/

/-- `flush` to the client's own descriptor: the front of the output buffer is written, and what is
not stays, unless the client is closed. -/
theorem flush_spec (rt : Runtime E R) (net : Nat → Outcome) (hown : Owned s k) :
    ∃ w o, (flush rt s k net = (s.modify k fun c => (c.setOut o).deliver w) ∧ w ++ o = (s.clients k).out) ∨
      (flush rt s k net = closeClient rt (s.modify k fun c => (c.setOut o).deliver w) k ∧
        ((net k).closes = true ∨ s.fds (s.clients k).fd = none)) := by
  rw [flush]
  split
  · refine ⟨[], (s.clients k).out, .inl ⟨(Server.modify_eq_self ?_).symm, rfl⟩⟩
    simp only [Client.setOut, Client.deliver, append_nil]
  split
  · rename_i hfd
    refine ⟨[], [], .inr ⟨?_, .inr hfd⟩⟩
    simp only [Client.setOut, Client.deliver, append_nil]
  rename_i j hfd
  obtain rfl := hown j hfd
  dsimp only
  rw [modify_modify]
  refine ⟨(s.clients j).out.take (net j).written, (net j).left (s.clients j).out, ?_⟩
  cases hnet : net j with
  | wrote n =>
    refine .inl ⟨?_, take_append_drop ..⟩
    rw [Outcome.closes, if_neg (by simp)]
  | failed n | refused n => exact .inr ⟨if_pos rfl, .inl rfl⟩

theorem clients_flush_of_ne {k j : Nat} (hown : Owned s k) (hj : j ≠ k) :
    (flush rt s k net).clients j = s.clients j := by
  obtain ⟨w, o, ⟨heq, -⟩ | ⟨heq, -⟩⟩ := flush_spec rt net hown
  · rw [heq, clients_modify_of_ne _ _ _ hj]
  · rw [heq, closeClient]
    exact update_of_ne hj ..

theorem Open.flush {k j : Nat} (hown : Owned s k) (hopen : Open s j) (hj : j ≠ k) : Open (flush rt s k net) j := by
  have hne : (s.clients j).fd ≠ (s.clients k).fd := fun heq => by
    rw [Open, heq] at hopen
    exact hj (hown j hopen)
  rw [Open, clients_flush_of_ne hown hj]
  obtain ⟨w, o, ⟨heq, -⟩ | ⟨heq, -⟩⟩ := flush_spec rt net hown
  · rw [heq]
    exact hopen
  · rw [heq, closeClient, clients_modify_self]
    exact (update_of_ne hne ..).trans hopen

theorem fds_closeClient {k fd j : Nat} (h : (closeClient rt s k).fds fd = some j) :
    fd ≠ (s.clients k).fd ∧ s.fds fd = some j := by
  simp only [closeClient, update_apply] at h
  split at h
  · cases h
  · exact ⟨‹_›, h⟩

theorem owned_closeClient (s : Server E) (k : Nat) : Owned (closeClient rt s k) k := fun _ hj =>
  absurd rfl (fds_closeClient hj).1

theorem Owned.flush (hown : Owned s k) : Owned (flush rt s k net) k := by
  obtain ⟨w, o, ⟨heq, -⟩ | ⟨heq, -⟩⟩ := flush_spec rt net hown <;>
    have hsame : SameBlocks s (s.modify k fun c => (c.setOut o).deliver w) := .modify s k (fun _ => rfl) fun _ => rfl
  · rw [heq]
    exact hsame.owned hown
  · rw [heq]
    exact owned_closeClient _ _

theorem blockKeys_flush (hown : Owned s k) (j : Nat) :
    ((flush rt s k net).clients j).blockKeys = (s.clients j).blockKeys := by
  obtain ⟨w, o, ⟨heq, -⟩ | ⟨heq, -⟩⟩ := flush_spec rt net hown <;>
    rw [heq] <;>
    exact s.modify_rel k (fun c => (c.setOut o).deliver w)
      (r := fun c c' => c'.blockKeys = c.blockKeys) (fun _ => rfl) rfl j

/-- A client stands in the list of a key once if it waits for the key and not otherwise; the
clients that wait are open. -/
structure Registered (s : Server E) : Prop where
  count : ∀ k key, (s.waiters key).count k = if key ∈ (s.clients k).blockKeys then 1 else 0
  isOpen : ∀ k, Blocked s k → Open s k
  fd_eq : ∀ fd k, s.fds fd = some k → (s.clients k).fd = fd
  lt_next : ∀ fd k, s.fds fd = some k → k < s.next

namespace Registered

variable {s t : Server E} {k : Nat} {net : Nat → Outcome}

section

variable (hs : Registered s)
include hs

theorem congr (h : SameBlocks s t) : Registered t where
  count j key := by rw [h.waiters, h.blockKeys, hs.count]
  isOpen j hj := by
    rw [Open, h.fds, h.fd]
    rw [Blocked, h.blockKeys] at hj
    exact hs.isOpen j hj
  fd_eq fd j hj := by
    rw [h.fds] at hj
    rw [h.fd, hs.fd_eq fd j hj]
  lt_next fd j hj := by
    rw [h.fds] at hj
    rw [h.next]
    exact hs.lt_next fd j hj

theorem nodup_waiters (key : Bytes) : (s.waiters key).Nodup := by
  refine nodup_iff_count_le_one.2 fun j => (hs.count j key).le.trans ?_
  split <;> omega

theorem mem_waiters {key : Bytes} : k ∈ s.waiters key ↔ key ∈ (s.clients k).blockKeys := by
  rw [← count_pos_iff, hs.count]
  split <;> simp_all

theorem blocked_of_mem {key : Bytes} (h : k ∈ s.waiters key) : Blocked s k := ne_nil_of_mem (hs.mem_waiters.1 h)

theorem closeClient (hk : ¬ Blocked s k) (hown : Owned s k) : Registered (closeClient rt s k) where
  count := hs.count
  isOpen j hj := by
    have hopen := hs.isOpen j hj
    have hne : (s.clients j).fd ≠ (s.clients k).fd := fun heq => by
      rw [Open, heq] at hopen
      have hjk := hown j hopen
      subst hjk
      exact hk hj
    exact (update_of_ne hne ..).trans hopen
  fd_eq fd j hj := hs.fd_eq fd j (fds_closeClient hj).2
  lt_next fd j hj := hs.lt_next fd j (fds_closeClient hj).2

theorem flush_cases {X : Server E → Prop} (hown : Owned s k) (hcl : (net k).closes = true → ¬ Blocked s k)
    (hwrite : ∀ w o, w ++ o = (s.clients k).out → X (s.modify k fun c => (c.setOut o).deliver w))
    (hclose : ∀ w o, ¬ Blocked s k → X (Net.closeClient rt (s.modify k fun c => (c.setOut o).deliver w) k)) :
    X (Net.flush rt s k net) := by
  obtain ⟨w, o, ⟨heq, hout⟩ | ⟨heq, hclosed⟩⟩ := flush_spec rt net hown
  · rw [heq]
    exact hwrite w o hout
  · rw [heq]
    refine hclose w o fun hb => ?_
    rcases hclosed with hc | hnone
    · exact hcl hc hb
    · have hopen := hs.isOpen k hb
      rw [Open, hnone] at hopen
      cases hopen

theorem flush (hown : Owned s k) (hcl : (net k).closes = true → ¬ Blocked s k) : Registered (flush rt s k net) := by
  have hsame : ∀ w o, SameBlocks s (s.modify k fun c => (c.setOut o).deliver w) := fun w o =>
    .modify s k (fun _ => rfl) fun _ => rfl
  refine hs.flush_cases hown hcl (fun w o _ => hs.congr (hsame w o)) fun w o hb => ?_
  refine (hs.congr (hsame w o)).closeClient ?_ ((hsame w o).owned hown)
  rwa [Blocked, (hsame w o).blockKeys]

theorem unregister {f : Client → Client} (hfd : ∀ c, (f c).fd = c.fd)
    (hkeys : ∀ c, (f c).blockKeys = []) : Registered ((s.modify k f).unregister k) where
  count j key := by
    show ((s.waiters key).erase k).count j = _
    by_cases hj : j = k
    · subst hj
      have hold := hs.count j key
      rw [count_erase_self, hold, unregister]
      simp only [clients_modify_self, hkeys, not_mem_nil, if_false]
      split <;> rfl
    · rw [count_erase_of_ne hj, hs.count, Server.unregister]
      simp only [Server.clients_modify_of_ne s k f hj]
  isOpen j hj := by
    by_cases hjk : j = k
    · subst hjk
      exact absurd (by rw [unregister, clients_modify_self, hkeys]) hj
    have hcl : ((s.modify k f).unregister k).clients j = s.clients j := clients_modify_of_ne s k f hjk
    rw [Blocked, hcl] at hj
    rw [Open, hcl]
    exact hs.isOpen j hj
  fd_eq fd j hj := by
    have hsame := s.modify_rel k f (r := fun c c' => c'.fd = c.fd) (fun _ => rfl) (hfd _) j
    exact hsame.trans (hs.fd_eq fd j hj)
  lt_next := hs.lt_next

theorem register {f : Client → Client} {keys : List Bytes}
    (hk : ¬ Blocked s k) (hopen : Open s k) (hnodup : keys.Nodup) (hfd : ∀ c, (f c).fd = c.fd)
    (hkeys : ∀ c, (f c).blockKeys = keys) : Registered ((s.modify k f).register k keys) where
  count j key := by
    show (s.waiters key ++ replicate (keys.count key) k).count j = _
    rw [count_append, count_replicate, hs.count]
    by_cases hj : j = k
    · subst hj
      rw [register]
      simp only [clients_modify_self, hkeys, not_not.1 hk, not_mem_nil, if_false,
        beq_self_eq_true, if_true, Nat.zero_add]
      split
      · exact count_eq_one_of_mem hnodup ‹_›
      · exact count_eq_zero_of_not_mem ‹_›
    · rw [Server.register]
      simp only [Server.clients_modify_of_ne s k f hj]
      simp [Ne.symm hj]
  isOpen j hj := by
    have hsame := s.modify_rel k f (r := fun c c' => c'.fd = c.fd) (fun _ => rfl) (hfd _) j
    have hcl : (((s.modify k f).register k keys).clients j).fd = (s.clients j).fd := hsame
    rw [Open, hcl]
    by_cases hjk : j = k
    · rw [hjk]
      exact hopen
    · refine hs.isOpen j ?_
      rw [Blocked, Server.register, Server.clients_modify_of_ne s k f hjk] at hj
      exact hj
  fd_eq fd j hj := by
    have hsame := s.modify_rel k f (r := fun c c' => c'.fd = c.fd) (fun _ => rfl) (hfd _) j
    exact hsame.trans (hs.fd_eq fd j hj)
  lt_next := hs.lt_next

theorem accept (fd : Nat) : Registered (accept s fd) := by
  rw [Net.accept]
  split
  · exact hs
  rename_i hfd
  have hnew : (s.clients s.next).blockKeys = [] := by
    by_contra hb
    exact Nat.lt_irrefl _ (hs.lt_next _ _ (hs.isOpen _ hb))
  refine ⟨fun j key => ?_, fun j hj => ?_, fun fd' j hj => ?_, fun fd' j hj => ?_⟩
  · have hcount := hs.count j key
    grind [update_apply]
  · have hopen := hs.isOpen j
    grind [Blocked, Open, update_apply]
  · have hlt := hs.lt_next fd' j
    grind [update_apply, hs.fd_eq fd' j]
  · have hlt := hs.lt_next fd' j
    grind [update_apply]

end

end Registered

/-! ## Waking the clients of a key -/

section Wake

variable {s : Server E} {k : Nat} {net : Nat → Outcome}

theorem not_blocked_release (s : Server E) (k : Nat) (bs : Bytes) : ¬ Blocked (release s k bs) k := by
  rw [Blocked, clients_release_self]
  exact not_not.2 rfl

theorem SameBlocks.awaken (s : Server E) (k : Nat) (bs : Bytes) : SameBlocks (release s k bs) (awaken s k bs) :=
  ⟨rfl, rfl, rfl, fun _ => rfl, fun _ => rfl⟩

theorem Open.release (h : Open s k) (bs : Bytes) : Open (release s k bs) k := by
  rw [Open, clients_release_self]
  exact h

theorem Registered.release (hs : Registered s) (bs : Bytes) : Registered (release s k bs) :=
  hs.unregister (fun _ => rfl) fun _ => rfl

theorem wakeOne_spec (rt : Runtime E R) (net : Nat → Outcome) (hs : Registered s) (hk : Blocked s k) :
    ∃ t, (wakeOne rt s k net = t ∨ wakeOne rt s k net = flush rt t k net ∧ ¬ Blocked t k) ∧ Registered t ∧ Owned t k ∧
      ∀ j ≠ k, (t.clients j).blockKeys = (s.clients j).blockKeys ∧ (Open s j → Open t j) := by
  have hcall := SameBlocks.tryWake rt s k
  have hs' := hs.congr hcall
  have hopen := hcall.isOpen (hs.isOpen k hk)
  obtain ⟨heq, -⟩ | ⟨reply, -, -, heq⟩ := wakeOne_cases rt s k net
  · exact ⟨_, .inl heq, hs', hopen.owned, fun j _ => ⟨hcall.blockKeys j, hcall.isOpen⟩⟩
  · have hawake := SameBlocks.awaken (tryWake rt s k).1 k (rt.encode (tryWake rt s k).1.engine k reply)
    refine ⟨_, .inr ⟨heq, not_blocked_release _ _ _⟩, (hs'.release _).congr hawake,
      (hawake.isOpen (hopen.release _)).owned, fun j hj => ⟨?_, fun hj' => hawake.isOpen ?_⟩⟩
    · rw [hawake.blockKeys, clients_release_of_ne _ _ hj, hcall.blockKeys]
    · rw [Open, clients_release_of_ne _ _ hj]
      exact hcall.isOpen hj'

theorem Registered.wakeOne (hs : Registered s) (hk : Blocked s k) : Registered (wakeOne rt s k net) := by
  obtain ⟨t, heq | ⟨heq, hb⟩, ht, hown, -⟩ := wakeOne_spec rt net hs hk
  · rwa [heq]
  · rw [heq]
    exact ht.flush hown fun _ => hb

theorem blockKeys_wakeOne_of_ne (hs : Registered s) (hk : Blocked s k) {j : Nat} (hj : j ≠ k) :
    ((wakeOne rt s k net).clients j).blockKeys = (s.clients j).blockKeys := by
  obtain ⟨t, heq | ⟨heq, -⟩, -, hown, hrest⟩ := wakeOne_spec rt net hs hk
  · rw [heq, (hrest j hj).1]
  · rw [heq, clients_flush_of_ne hown hj, (hrest j hj).1]

/-- The loop of `wakeBlockedClients`: `P` speaks of those still to be tried. Each of them waits when
its turn comes. -/
theorem wake_run {P : List Nat → Server E → Prop} (hreg : ∀ rest s, P rest s → Registered s)
    (hstep : ∀ m rest s, P (m :: rest) s → Blocked s m → P rest (wakeOne rt s m net))
    (key : Bytes) (h : P (s.waiters key) s) : P [] (wakeBlockedClients rt s key net) := by
  have hrun : ∀ (pending : List Nat) (s : Server E), pending.Nodup →
      (∀ m ∈ pending, Blocked s m) → P pending s →
      P [] (pending.foldl (fun s m => wakeOne rt s m net) s) := by
    intro pending
    induction pending with
    | nil => exact fun s _ _ h => h
    | cons m rest ih =>
      intro s hnodup hblocked hP
      have hm := hblocked m mem_cons_self
      rw [nodup_cons] at hnodup
      refine ih _ hnodup.2 (fun j hj => ?_) (hstep m rest s hP hm)
      have hne : j ≠ m := fun heq => hnodup.1 (heq ▸ hj)
      rw [Blocked, blockKeys_wakeOne_of_ne (hreg _ _ hP) hm hne]
      exact hblocked j (mem_cons_of_mem m hj)
  have hs := hreg _ _ h
  exact hrun _ s (hs.nodup_waiters key) (fun m hm => hs.blocked_of_mem hm) h

theorem Open.wakeOne (hs : Registered s) (hk : Blocked s k) {j : Nat} (hj : j ≠ k)
    (hopen : Open s j) : Open (wakeOne rt s k net) j := by
  obtain ⟨t, heq | ⟨heq, -⟩, -, hown, hrest⟩ := wakeOne_spec rt net hs hk
  · rw [heq]
    exact (hrest j hj).2 hopen
  · rw [heq]
    exact ((hrest j hj).2 hopen).flush hown hj

end Wake

/-! ## The commands of one read -/

/-- The commands of client `k` are being run. -/
structure Reading (s : Server E) (k : Nat) : Prop where
  registered : Registered s
  isOpen : Open s k
  notBlocked : ¬ Blocked s k

namespace Reading

variable {s t : Server E} {k : Nat} {net : Nat → Outcome}

theorem congr (h : Reading s k) (hsame : SameBlocks s t) : Reading t k where
  registered := h.registered.congr hsame
  isOpen := hsame.isOpen h.isOpen
  notBlocked := by
    rw [Blocked, hsame.blockKeys]
    exact h.notBlocked

theorem wakeOne (h : Reading s k) {m : Nat} (hm : Blocked s m) : Reading (wakeOne rt s m net) k := by
  have hne : k ≠ m := fun heq => h.notBlocked (heq ▸ hm)
  refine ⟨h.registered.wakeOne hm, h.isOpen.wakeOne h.registered hm hne, ?_⟩
  rw [Blocked, blockKeys_wakeOne_of_ne h.registered hm hne]
  exact h.notBlocked

theorem wakeBlockedClients (h : Reading s k) (key : Bytes) : Reading (wakeBlockedClients rt s key net) k :=
  wake_run (P := fun _ s => Reading s k) (fun _ _ h => h.registered) (fun _ _ _ h hm => h.wakeOne hm) key h

theorem wakeAfter (h : Reading s k) (name : Bytes) (cmdLine : CmdSlices) :
    Reading (wakeAfter rt s name cmdLine net) k := by
  rw [Net.wakeAfter]
  split <;> split
  · exact (h.wakeBlockedClients _).wakeBlockedClients _
  · exact h.wakeBlockedClients _
  · exact h.wakeBlockedClients _
  · exact h

end Reading

/-- A blocking command leaves its own arguments as they are. -/
def BlocksKeepArgs (rt : Runtime E R) : Prop :=
  ∀ e k h cmdLine, isBlockCommand (cmdName (cmdStrings h cmdLine)) = true →
    cmdStrings (rt.exec e k h cmdLine).heap cmdLine = cmdStrings h cmdLine

/-- What the registry asks of a blocking command: its keys are distinct, and the connection outlives
the read. -/
def RegOk (s : Server E) (k : Nat) (net : Nat → Outcome) (cmdLine : CmdSlices) : Prop :=
  let line := cmdStrings s.heap cmdLine
  isBlockCommand (cmdName line) = true → (blockKeysOf (cmdName line) line).Nodup ∧ (net k).closes = false

namespace Reading

variable {s : Server E} {k no : Nat} {now : Int} {net : Nat → Outcome}
  {cmdLine : CmdSlices}

theorem runCmd_next (h : Reading s k) (hr : (runCmd rt s k no now net cmdLine).2 = false) :
    Reading (runCmd rt s k no now net cmdLine).1 k := by
  obtain heq | ⟨-, -, -, heq⟩ := runCmd_cases rt s k no now net cmdLine
  · rw [heq]
    exact (h.congr (.execute ..)).wakeAfter ..
  · rw [heq] at hr
    cases hr

theorem runCmd_block (hkeep : BlocksKeepArgs rt) (h : Reading s k) (hok : RegOk s k net cmdLine)
    (hr : (runCmd rt s k no now net cmdLine).2 = true) : Registered (runCmd rt s k no now net cmdLine).1 ∧
      Open (runCmd rt s k no now net cmdLine).1 k ∧ (net k).closes = false := by
  obtain heq | ⟨hname, -, -, heq⟩ := runCmd_cases rt s k no now net cmdLine
  · rw [heq] at hr
    cases hr
  · have hline : cmdStrings (execute rt s k no cmdLine).1.heap cmdLine = cmdStrings s.heap cmdLine := by
      rw [heap_execute, hkeep _ _ _ _ hname]
    obtain ⟨hnodup, hcl⟩ := hok hname
    rw [hline] at heq
    rw [heq]
    have hex := h.congr (.execute rt s k no cmdLine)
    refine ⟨hex.registered.register hex.notBlocked hex.isOpen hnodup (fun _ => rfl) fun _ => rfl, ?_, hcl⟩
    rw [Open, register, clients_modify_self]
    exact hex.isOpen

end Reading

/-! ## Conditions on a run -/

/-- A condition on a command of client `k`, where its turn comes, with so many commands behind it in
the same read. -/
abbrev CmdCond (E : Type) := Server E → Nat → (Nat → Outcome) → CmdSlices → Nat → Prop

section Conditions

variable (rt) (P : CmdCond E)

/-- The commands that are executed of those parsed meet the condition. -/
def CmdsOk (s : Server E) (k no : Nat) (now : Int) (net : Nat → Outcome) : List CmdSlices → Prop
  | [] => True
  | cmdLine :: cmds =>
    P s k net cmdLine cmds.length ∧
      ((runCmd rt s k no now net cmdLine).2 = false →
        CmdsOk (runCmd rt s k no now net cmdLine).1 k (no + 1) now net cmds)

def ParsedOk (f : List Args → Nat → Prop) : Except Stop (List Args × Nat) → Prop
  | .error _ => True
  | .ok r => f r.1 r.2

/-- The commands that a read completes meet the condition. -/
def ReadOk (s : Server E) (k : Nat) (chunks : List Bytes) (now : Int) (net : Nat → Outcome) : Prop :=
  let s' := readAll rt s k chunks
  let q := (s'.clients k).queryBuf
  ParsedOk (fun cmds consumed =>
      CmdsOk rt P (takeCmds s' k cmds.length consumed) k (s.clients k).count now net (cmds.map (cmdSlices q.arr)))
    (parseRequests (s'.heap.read q.slice))

/-- The condition on an event: no blocked client is closed, its socket reports only what meets `G`;
the commands meet `P`, and the engine's own work meets `B`. -/
def EventOk (G : Bool → Prop) (B : Server E → E → Prop) (s : Server E) : Event E → Prop
  | .accept _ => True
  | .ready fd reads _ now net => ∀ k ∈ s.fds fd, (Blocked s k → (net k).closes = false) ∧
      ∀ r ∈ reads, if Blocked s k then G r.2 else r.2 = false → ReadOk rt P s k r.1 now net
  | .expire _ _ _ => True
  | .background engine => B s engine

variable {P}

instance decidableCmdsOk [∀ s k net cmdLine left, Decidable (P s k net cmdLine left)] (k : Nat)
    (now : Int) (net : Nat → Outcome) : ∀ (cmds : List CmdSlices) (s : Server E) (no : Nat),
      Decidable (CmdsOk rt P s k no now net cmds)
  | [], _, _ => .isTrue trivial
  | cmdLine :: cmds, s, no =>
    have := decidableCmdsOk k now net cmds (runCmd rt s k no now net cmdLine).1 (no + 1)
    inferInstanceAs (Decidable (_ ∧ _))

instance decidableParsedOk {f : List Args → Nat → Prop} [∀ cmds consumed, Decidable (f cmds consumed)] :
    ∀ r, Decidable (ParsedOk f r)
  | .error _ => .isTrue trivial
  | .ok r => inferInstanceAs (Decidable (f r.1 r.2))

instance decidableReadOk [∀ s k net cmdLine left, Decidable (P s k net cmdLine left)] (s : Server E)
    (k : Nat) (chunks : List Bytes) (now : Int) (net : Nat → Outcome) : Decidable (ReadOk rt P s k chunks now net) :=
  decidableParsedOk (f := fun cmds consumed =>
    CmdsOk rt P (takeCmds (readAll rt s k chunks) k cmds.length consumed) k (s.clients k).count now net
      (cmds.map (cmdSlices ((readAll rt s k chunks).clients k).queryBuf.arr))) _

instance decidableEventOk [∀ s k net cmdLine left, Decidable (P s k net cmdLine left)]
    {G : Bool → Prop} [∀ fin, Decidable (G fin)] {B : Server E → E → Prop} [∀ s e, Decidable (B s e)]
    (s : Server E) : ∀ ev, Decidable (EventOk rt P G B s ev)
  | .accept _ => .isTrue trivial
  | .ready fd reads _ now net => inferInstanceAs (Decidable (∀ k ∈ s.fds fd,
      (Blocked s k → (net k).closes = false) ∧
        ∀ r ∈ reads, if Blocked s k then G r.2 else r.2 = false → ReadOk rt P s k r.1 now net))
  | .expire _ _ _ => .isTrue trivial
  | .background e => inferInstanceAs (Decidable (B s e))

end Conditions

instance (s : Server E) (k : Nat) (net : Nat → Outcome) (cmdLine : CmdSlices) :
    Decidable (RegOk s k net cmdLine) := inferInstanceAs (Decidable (_ = true → _ ∧ _))

/-- What is to be shown of an invariant `X` that the loop keeps beside `Registered`: one fact for each
thing the loop does. `Y k no cmds` stands for `X` while the commands of client `k` are run: `cmds` are
left, and the next is number `no`. -/
structure LoopInv (rt : Runtime E R) (P : CmdCond E) (G : Bool → Prop) (B : Server E → E → Prop)
    (X : Server E → Prop) (Y : Nat → Nat → List CmdSlices → Server E → Prop) : Prop where
  accept {s : Server E} {fd : Nat} : Registered s → X s → s.fds fd = none → X (accept s fd)
  background {s : Server E} {e : E} : Registered s → X s → B s e → X { s with engine := e }
  gone {s : Server E} {k : Nat} {fin : Bool} : Registered s → X s → G fin → X (s.modify k fun c => c.noteGone fin)
  left {s : Server E} {k : Nat} : Reading s k → X s → X (closeClient rt (s.modify k fun c => c.noteGone true) k)
  readAll {s : Server E} {k : Nat} (chunks : List Bytes) : Reading s k → X s → X (readAll rt s k chunks)
  take {s : Server E} {k consumed : Nat} {cmds : List Args} : Reading s k → X s →
    parseRequests (s.heap.read (s.clients k).queryBuf.slice) = .ok (cmds, consumed) →
    Y k (s.clients k).count (cmds.map (cmdSlices (s.clients k).queryBuf.arr)) (takeCmds s k cmds.length consumed)
  next {s : Server E} {k no : Nat} {now : Int} {net : Nat → Outcome} {cmdLine : CmdSlices}
    {cmds : List CmdSlices} : Reading s k → Y k no (cmdLine :: cmds) s →
    P s k net cmdLine cmds.length → (runCmd rt s k no now net cmdLine).2 = false →
    Y k (no + 1) cmds (runCmd rt s k no now net cmdLine).1
  block {s : Server E} {k no : Nat} {now : Int} {net : Nat → Outcome} {cmdLine : CmdSlices}
    {cmds : List CmdSlices} : Reading s k → Y k no (cmdLine :: cmds) s →
    P s k net cmdLine cmds.length → (runCmd rt s k no now net cmdLine).2 = true →
    X (runCmd rt s k no now net cmdLine).1
  done {s : Server E} {k no : Nat} : Reading s k → Y k no [] s → X s
  release {s : Server E} {k : Nat} {bs : Bytes} : Registered s → Blocked s k → X s →
    X ((release s k bs).modify k fun c => c.clearDeadline)
  write {s : Server E} {k : Nat} {w o : List (Tag × UInt8)} : X s → w ++ o = (s.clients k).out →
    X (s.modify k fun c => (c.setOut o).deliver w)
  close {s : Server E} {k : Nat} {w o : List (Tag × UInt8)} : Registered s → Owned s k →
    ¬ Blocked s k → X s → X (closeClient rt (s.modify k fun c => (c.setOut o).deliver w) k)

namespace LoopInv

variable {P : CmdCond E} {G : Bool → Prop} {B : Server E → E → Prop} {X : Server E → Prop}
  {Y : Nat → Nat → List CmdSlices → Server E → Prop} {s : Server E} {k : Nat}
  {net : Nat → Outcome}

theorem flush (hinv : LoopInv rt P G B X Y) (hs : Registered s) (hown : Owned s k)
    (hcl : (net k).closes = true → ¬ Blocked s k) (hX : X s) : X (flush rt s k net) :=
  hs.flush_cases hown hcl (fun _ _ hout => hinv.write hX hout) fun _ _ hb => hinv.close hs hown hb hX

theorem closeClient (hinv : LoopInv rt P G B X Y) (hs : Registered s) (hown : Owned s k)
    (hk : ¬ Blocked s k) (hX : X s) : X (closeClient rt s k) := by
  have heq : (s.modify k fun c => (c.setOut (s.clients k).out).deliver []) = s :=
    modify_eq_self (by simp only [Client.setOut, Client.deliver, append_nil])
  have h := hinv.close (w := []) (o := (s.clients k).out) hs hown hk hX
  rwa [heq] at h

/-- What holds when the commands of a read have been run. -/
structure Ran (X : Server E → Prop) (net : Nat → Outcome) (k : Nat) (t : Server E) : Prop where
  registered : Registered t
  holds : X t
  owned : Owned t k
  notClosed : Blocked t k → (net k).closes = false

section

variable (hinv : LoopInv rt P G B X Y)
include hinv

theorem runCmds (hkeep : BlocksKeepArgs rt)
    (hreg : ∀ s k net cmdLine left, P s k net cmdLine left → RegOk s k net cmdLine) (now : Int)
    (cmds : List CmdSlices) (s : Server E) (no : Nat) (h : Reading s k)
    (hY : Y k no cmds s) (hok : CmdsOk rt P s k no now net cmds) : (runCmds rt s k no now net cmds).crashed = true ∨
      Ran X net k (runCmds rt s k no now net cmds) := by
  induction cmds generalizing s no with
  | nil =>
    exact .inr ⟨h.registered, hinv.done h hY, h.isOpen.owned, fun hb => absurd hb h.notBlocked⟩
  | cons cmdLine cmds ih =>
    obtain ⟨hP, hrest⟩ := hok
    cases cmdLine with
    | nil => exact .inl rfl
    | cons arg args =>
      rw [Net.runCmds]
      cases hr : (runCmd rt s k no now net (arg :: args)).2 with
      | false =>
        exact ih _ _ (h.runCmd_next hr) (hinv.next h hY hP hr) (hrest hr)
      | true =>
        obtain ⟨hs, hopen, hcl⟩ := h.runCmd_block hkeep (hreg _ _ _ _ _ hP) hr
        exact .inr ⟨hs, hinv.block h hY hP hr, hopen.owned, fun _ => hcl⟩

theorem Ran.flush (h : Ran X net k s) : Ran X net k (Net.flush rt s k net) := by
  have hcl : (net k).closes = true → ¬ Blocked s k := fun hc hb => by
    rw [h.notClosed hb] at hc
    cases hc
  refine ⟨h.registered.flush h.owned hcl, hinv.flush h.registered h.owned hcl h.holds, h.owned.flush,
    fun hb => h.notClosed ?_⟩
  rwa [Blocked, blockKeys_flush h.owned] at hb

omit hinv in
theorem Ran.closeClient (h : Reading s k) (hX : X (Net.closeClient rt s k)) : Ran X net k (Net.closeClient rt s k) :=
  ⟨h.registered.closeClient h.notBlocked h.isOpen.owned, hX, owned_closeClient _ _, fun hb => absurd hb h.notBlocked⟩

theorem onReadable (hkeep : BlocksKeepArgs rt)
    (hreg : ∀ s k net cmdLine left, P s k net cmdLine left → RegOk s k net cmdLine) {now : Int}
    {chunks : List Bytes} {fin : Bool} (h : Reading s k) (hX : X s)
    (hok : fin = false → ReadOk rt P s k chunks now net) : (onReadable rt s k chunks fin now net).crashed = true ∨
      Ran X net k (onReadable rt s k chunks fin now net) := by
  have hread := h.congr (.readAll rt s k chunks)
  have hXr := hinv.readAll chunks h hX
  rw [Net.onReadable]
  split
  · have hgone : SameBlocks (Net.readAll rt s k chunks)
        ((Net.readAll rt s k chunks).modify k fun c => c.noteGone true) :=
      .modify _ k (fun _ => rfl) fun _ => rfl
    exact .inr (.closeClient (hread.congr hgone) (hinv.left hread hXr))
  rename_i hfin
  have hok := hok (Bool.eq_false_iff.2 hfin)
  rw [ReadOk] at hok
  split
  · exact .inl rfl
  · exact .inr (.closeClient hread (hinv.closeClient hread.registered hread.isOpen.owned hread.notBlocked hXr))
  · rename_i cmds consumed hparse
    rw [hparse] at hok
    have hcount : ((Net.readAll rt s k chunks).clients k).count = (s.clients k).count := by
      rw [Net.readAll, clients_modify_self]
      rfl
    have hY := hinv.take hread hXr hparse
    rw [hcount] at hY
    have hran := hinv.runCmds hkeep hreg now _ _ _ (hread.congr (.takeCmds _ k cmds.length consumed)) hY hok
    dsimp only
    split
    · exact .inl ‹_›
    · exact .inr (Ran.flush hinv (hran.resolve_left ‹_›))

theorem expireOne {now : Int} {fd : Nat} (hs : Registered s) (hX : X s) :
    Registered (expireOne rt s now net fd) ∧ X (expireOne rt s now net fd) := by
  rw [Net.expireOne]
  cases hfd : s.fds fd with
  | none => exact ⟨hs, hX⟩
  | some k =>
  dsimp only
  by_cases hwait : (s.clients k).blockKeys = [] ∨ (s.clients k).blockDeadline = 0 ∨ now < (s.clients k).blockDeadline
  · rw [if_pos hwait]
    exact ⟨hs, hX⟩
  rw [if_neg hwait]
  have hdue := not_or.1 hwait
  have hopen := hs.isOpen k hdue.1
  have hclear : ∀ t : Server E, SameBlocks t (t.modify k fun c => c.clearDeadline) := fun t =>
    .modify t k (fun _ => rfl) fun _ => rfl
  have hrel := (hs.release (k := k) (rt.encode s.engine k rt.nullMultiBulk)).congr (hclear _)
  have hown := (hclear _).owned (hopen.release (rt.encode s.engine k rt.nullMultiBulk)).owned
  have hnot : ¬ Blocked
      ((Net.release s k (rt.encode s.engine k rt.nullMultiBulk)).modify k fun c => c.clearDeadline) k := by
    rw [Blocked, (hclear _).blockKeys]
    exact not_blocked_release s k _
  exact ⟨hrel.flush hown fun _ => hnot, hinv.flush hrel hown (fun _ => hnot) (hinv.release hs hdue.1 hX)⟩

/-- The registry and the invariant hold after an event that meets the conditions, or the process has
ended. -/
theorem step (hkeep : BlocksKeepArgs rt)
    (hreg : ∀ s k net cmdLine left, P s k net cmdLine left → RegOk s k net cmdLine) (s : Server E)
    (ev : Event E) (h : s.crashed = true ∨ Registered s ∧ X s) (hok : EventOk rt P G B s ev) :
    (step rt s ev).crashed = true ∨ Registered (step rt s ev) ∧ X (step rt s ev) := by
  rw [Net.step.eq_def]
  split
  · exact .inl ‹_›
  rename_i hcrash
  obtain ⟨hs, hX⟩ := h.resolve_left hcrash
  cases ev with
  | accept fd =>
    refine .inr ⟨hs.accept fd, ?_⟩
    dsimp only
    cases hfd : s.fds fd with
    | none => exact hinv.accept hs hX hfd
    | some j =>
      rw [Net.accept, hfd]
      exact hX
  | background e =>
    exact .inr ⟨hs.congr ⟨rfl, rfl, rfl, fun _ => rfl, fun _ => rfl⟩, hinv.background hs hX hok⟩
  | expire order now net =>
    refine .inr ?_
    exact foldl_invariant (P := fun s => Registered s ∧ X s) (fun s fd h => hinv.expireOne h.1 h.2) ⟨hs, hX⟩ order
  | ready fd reads writable now net =>
    dsimp only
    cases hfd : s.fds fd with
    | none => exact .inr ⟨hs, hX⟩
    | some k =>
      obtain ⟨hcl, hreads⟩ := hok k hfd
      have hopen : Open s k := by rw [Open, hs.fd_eq fd k hfd, hfd]
      have hrun : (onReport rt s k now net reads).crashed = true ∨ Ran X net k (onReport rt s k now net reads) := by
        cases reads with
        | none => exact .inr ⟨hs, hX, hopen.owned, hcl⟩
        | some r =>
          have hr := hreads r rfl
          rw [onReport]
          by_cases hb : Blocked s k
          · rw [if_pos hb] at hr
            rw [if_neg hb]
            have hgone : SameBlocks s (s.modify k fun c => c.noteGone r.2) := .modify _ k (fun _ => rfl) fun _ => rfl
            exact .inr ⟨hs.congr hgone, hinv.gone hs hX hr, hgone.owned hopen.owned, fun _ => hcl hb⟩
          · rw [if_neg hb] at hr
            rw [if_pos (not_not.1 hb)]
            exact hinv.onReadable hkeep hreg ⟨hs, hopen, hb⟩ hX hr
      dsimp only
      split
      · rename_i hstop
        rcases hrun with hc | hran
        · exact .inl hc
        · exact .inr ⟨hran.registered, hran.holds⟩
      · rename_i hgo
        rw [not_or] at hgo
        have hran := Ran.flush hinv (hrun.resolve_left hgo.1)
        exact .inr ⟨hran.registered, hran.holds⟩

end

end LoopInv

theorem registered_start (e : E) : Registered (start e) :=
  ⟨fun _ _ => rfl, fun _ h => absurd rfl h, fun _ _ h => (nomatch h), fun _ _ h => nomatch h⟩

end Hayakv.Net
