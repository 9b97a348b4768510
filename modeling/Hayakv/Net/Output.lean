import Hayakv.Lib.GoText
import Hayakv.Lib.Guarded

/-!
# The output of a client of the event loop

`bufconn.go`, `flush` of `server.go` and the poller of Linux. Replies are appended to a buffer; `flush` writes it to the
socket, and asks for write events if the socket is full. `epoll` refuses to add a descriptor that it has, and to modify
one that it has not.

No byte is lost or written twice. But `flush` goes back to read events by `addRead`, which `epoll` refuses: as soon as
the rest of a reply is written that the socket did not take at once, the client is closed (`output_run_iff`).
-/

namespace Hayakv.Net

open List

inductive Interest
  | read
  | readWrite
deriving DecidableEq

/-- A client and its socket, which is registered until it is closed: `wire` is what the socket has taken, `replies` all
that was to be sent. -/
structure Output where
  out : Bytes := []
  wantWrite : Bool := false
  registered : Option Interest := some .read
  wire : Bytes := []
  replies : Bytes := []

namespace Output

/-- `EPOLL_CTL_ADD`; `none` is an error. -/
def addRead (o : Output) : Option Output :=
  if o.registered.isSome then none else some { o with registered := some .read }

/-- `EPOLL_CTL_MOD`. -/
def modReadWrite (o : Output) : Option Output :=
  if o.registered.isSome then some { o with registered := some .readWrite } else none

def closeClient (o : Output) : Output := { o with registered := none }

def write (o : Output) (b : Bytes) : Output := { o with out := o.out ++ b, replies := o.replies ++ b }

/-- The loop of `flush`: each write takes some bytes, until nothing is left or, at the end of the list, the socket answers
`EAGAIN`. What is taken, and what is left. -/
def writeLoop : List Nat → Bytes → Bytes × Bytes
  | _, [] => ([], [])
  | [], out => ([], out)
  | n :: ns, out => (out.take n ++ (writeLoop ns (out.drop n)).1, (writeLoop ns (out.drop n)).2)

def flush (o : Output) (ns : List Nat) : Output :=
  if o.out = [] then o
  else
    let (taken, left) := writeLoop ns o.out
    let o := { o with wire := o.wire ++ taken, out := left }
    if left ≠ [] then
      if o.wantWrite then o
      else
        match o.modReadWrite with
        | none => o.closeClient
        | some o => { o with wantWrite := true }
    else if o.wantWrite then
      match o.addRead with
      | none => o.closeClient
      | some o => { o with wantWrite := false }
    else o

inductive Event
  | answer (b : Bytes) (ns : List Nat)
  /-- Another client's command sends it a message. -/
  | push (b : Bytes)
  | writable (ns : List Nat)

def step (o : Output) : Event → Output
  | .answer b ns => if o.registered.isSome then (o.write b).flush ns else o
  | .push b => if o.registered.isSome then o.write b else o
  | .writable ns => if o.registered = some .readWrite then o.flush ns else o

def run (es : List Event) : Output := es.foldl step {}

/-- All output has been written or waits for a write event, and the client has not been closed. -/
structure Good (o : Output) : Prop where
  exact : o.wire ++ o.out = o.replies
  interest : o.out ≠ [] → o.registered = some .readWrite
  isOpen : o.registered ≠ none

/-- A flush does not write the rest of what the socket did not take at once, and nothing is pushed to a client that has
no output waiting. -/
def Meets (o : Output) : Event → Prop
  | .answer b ns => o.wantWrite = true → (writeLoop ns (o.out ++ b)).2 ≠ []
  | .push b => o.wantWrite = true ∨ b = []
  | .writable ns => o.wantWrite = true → (writeLoop ns o.out).2 ≠ []

theorem writeLoop_append (ns : List Nat) (out : Bytes) : (writeLoop ns out).1 ++ (writeLoop ns out).2 = out := by
  fun_induction writeLoop ns out with
  | case1 => rfl
  | case2 => rfl
  | case3 n ns out _ ih => rw [append_assoc, ih, take_append_drop]

theorem length_writeLoop (ns : List Nat) (out : Bytes) : (writeLoop ns out).2.length ≤ out.length - ns.headD 0 := by
  have hle (ns : List Nat) (out : Bytes) : (writeLoop ns out).2.length ≤ out.length := by
    rw [← congrArg length (writeLoop_append ns out), length_append]
    exact Nat.le_add_left _ _
  fun_cases writeLoop ns out with
  | case1 => exact Nat.zero_le _
  | case2 => exact Nat.le_refl _
  | case3 n ns out => exact (hle ns _).trans_eq length_drop

variable {o : Output} {ns : List Nat}

/-- Before a flush: no output is lost, and write events are asked for only while there is output. -/
structure Pending (o : Output) : Prop where
  exact : o.wire ++ o.out = o.replies
  registered : o.registered = some (if o.wantWrite then .readWrite else .read)
  want : o.wantWrite = true → o.out ≠ []

/-- Between the steps they are asked for as long as there is output. -/
structure Inv (o : Output) : Prop extends Pending o where
  waiting : o.out ≠ [] → o.wantWrite = true

theorem Inv.good (h : o.Inv) : o.Good :=
  ⟨h.exact, fun hout => by rw [h.registered, h.waiting hout]; rfl, by simp [h.registered]⟩

section

variable (h : o.Pending)
include h

theorem Pending.write (b : Bytes) : (o.write b).Pending :=
  ⟨by rw [Output.write, ← append_assoc, h.exact], h.registered, fun hw => append_ne_nil_of_left_ne_nil (h.want hw) b⟩

theorem Pending.flush_eq (ns : List Nat) : o.flush ns = let r := writeLoop ns o.out
      let o' := { o with wire := o.wire ++ r.1, out := r.2 }
      if r.2 ≠ [] then { o' with wantWrite := true, registered := some .readWrite }
      else if o.wantWrite then o'.closeClient else o' := by
  obtain ⟨out, want, registered, wire, replies⟩ := o
  obtain rfl : registered = some (if want then .readWrite else .read) := h.registered
  have hwant := h.want
  by_cases hout : out = []
  · cases want <;> simp_all [Output.flush, writeLoop]
  · cases want <;> simp_all [Output.flush, modReadWrite, addRead]

theorem Pending.flush_inv (hok : o.wantWrite = true → (writeLoop ns o.out).2 ≠ []) :
    (o.flush ns).Inv ∧ (o.flush ns).out = (writeLoop ns o.out).2 ∧ (o.flush ns).replies = o.replies := by
  have hexact : o.wire ++ (writeLoop ns o.out).1 ++ (writeLoop ns o.out).2 = o.replies := by
    rw [append_assoc, writeLoop_append, h.exact]
  rw [h.flush_eq ns]
  dsimp only
  split
  · rename_i hleft
    exact ⟨⟨⟨hexact, rfl, fun _ => hleft⟩, fun _ => rfl⟩, rfl, rfl⟩
  · rename_i hleft
    have hwant : ¬ o.wantWrite = true := fun hw => hleft (hok hw)
    rw [if_neg hwant]
    exact ⟨⟨⟨hexact, h.registered, fun hw => absurd hw hwant⟩, fun hne => absurd hne hleft⟩, rfl, rfl⟩

theorem Pending.flush_closes (hwant : o.wantWrite = true) (hleft : (writeLoop ns o.out).2 = []) :
    (o.flush ns).wire = o.replies ∧ (o.flush ns).registered = none := by
  have happ := writeLoop_append ns o.out
  rw [hleft, append_nil] at happ
  simp [h.flush_eq ns, hleft, hwant, happ, h.exact, closeClient]

theorem Pending.good_flush_iff : (o.flush ns).Good ↔ (o.wantWrite = true → (writeLoop ns o.out).2 ≠ []) :=
  ⟨fun hgood hwant hleft => hgood.isOpen (h.flush_closes hwant hleft).2, fun hok => (h.flush_inv hok).1.good⟩

end

theorem Inv.step_writable (h : o.Inv) (ns : List Nat) : o.step (.writable ns) = o.flush ns := by
  by_cases hout : o.out = []
  · have hwant : o.wantWrite = false := by simpa [hout] using h.want
    rw [step, h.registered, hwant, if_neg (by decide), Output.flush, if_pos hout]
  · rw [step, if_pos (by rw [h.registered, h.waiting hout]; rfl)]

theorem Inv.step (h : o.Inv) {e : Event} (he : o.Meets e) : (o.step e).Inv := by
  have hopen : o.registered.isSome := by simp [h.registered]
  cases e with
  | answer b ns =>
    rw [Output.step, if_pos hopen]
    exact ((h.write b).flush_inv he).1
  | push b =>
    rw [Output.step, if_pos hopen]
    refine ⟨h.write b, fun hne => he.elim id fun hb => h.waiting ?_⟩
    rwa [Output.write, hb, append_nil] at hne
  | writable ns =>
    rw [h.step_writable]
    exact (h.flush_inv he).1

theorem Inv.good_step_iff (h : o.Inv) (e : Event) : (o.step e).Good ↔ o.Meets e := by
  refine ⟨fun hgood => ?_, fun he => (h.step he).good⟩
  have hopen : o.registered.isSome := by simp [h.registered]
  cases e with
  | answer b ns =>
    rw [Output.step, if_pos hopen] at hgood
    exact (h.write b).good_flush_iff.1 hgood
  | push b =>
    rw [Output.step, if_pos hopen] at hgood
    by_contra hnot
    obtain ⟨hwant, hb⟩ := not_or.1 hnot
    have hreg := hgood.interest (append_ne_nil_of_right_ne_nil _ hb)
    cases hreg.symm.trans (h.registered.trans (by rw [if_neg hwant]))
  | writable ns =>
    rw [h.step_writable] at hgood
    exact h.good_flush_iff.1 hgood

theorem Inv.delivers (h : o.Inv) {nss : List (List Nat)} (hpos : ∀ ns ∈ nss, 0 < ns.headD 0)
    (hlen : o.out.length ≤ nss.length) : ((nss.map .writable).foldl Output.step o).wire = o.replies := by
  induction nss generalizing o with
  | nil =>
    rw [← h.exact, length_eq_zero_iff.1 (Nat.le_zero.1 hlen), append_nil]
    rfl
  | cons ns nss ih =>
    obtain ⟨hns, hpos⟩ := forall_mem_cons.1 hpos
    rw [map_cons, foldl_cons, h.step_writable]
    by_cases hlast : o.wantWrite = true ∧ (writeLoop ns o.out).2 = []
    · -- the last bytes are written, and no event comes any more
      obtain ⟨hwire, hreg⟩ := h.flush_closes hlast.1 hlast.2
      rw [← hwire]
      refine congrArg wire (foldlRecOn (motive := (· = o.flush ns)) _ _ rfl ?_)
      rintro _ rfl e he
      obtain ⟨ns', -, rfl⟩ := mem_map.1 he
      rw [Output.step, if_neg (by simp [hreg])]
    · obtain ⟨hinv, hout, hreplies⟩ := h.flush_inv fun hwant hnil => hlast ⟨hwant, hnil⟩
      rw [← hreplies]
      refine ih hinv hpos (hout ▸ (length_writeLoop ns o.out).trans ?_)
      rw [length_cons] at hlen
      omega

/-- In every run: all output is written or waits for a write event and the client is not closed, and a socket that goes on
taking bytes gets all of them, if and only if no flush writes the rest of a reply and nothing is pushed. -/
theorem output_run_iff (es : List Event) :
    Guarded step (fun o e => (o.step e).Good) {} es ∧ (∀ nss : List (List Nat), (∀ ns ∈ nss, 0 < ns.headD 0) →
      (run es).out.length ≤ nss.length → (run (es ++ nss.map .writable)).wire = (run es).replies) ↔
    Guarded step Meets {} es := by
  have hinv : ({} : Output).Inv := ⟨⟨rfl, rfl, by decide⟩, fun h => absurd rfl h⟩
  rw [guarded_congr (fun _ e h => h.good_step_iff e) (fun _ _ h he => h.step he) hinv]
  refine and_iff_left_of_imp fun h nss hpos hlen => ?_
  rw [run, List.foldl_append]
  exact (h.run (fun _ _ h he => h.step he) hinv).delivers hpos hlen

/-- A reply of two bytes that the socket takes one by one. -/
theorem closed_by_flush : ¬ ∀ es, Guarded step (fun o e => (o.step e).Good) {} es := by
  intro h
  exact (h [.answer [49, 50] [1], .writable [1]]).2.1.isOpen (by decide)

end Output

end Hayakv.Net
