import Hayakv.Repl.Backlog

/-!
# Partial resynchronisation

`masterTryPartialSyncWithSlave`, `promoteToMaster` and the handshake of a replica
(`replication_master.go`, `replication_failover.go`, `replication_slave.go`), over
any history of role changes. A server has its own stream and backlog, and as a
replica it applies the stream of another server, whose id and offset it counts in
`slaveStatus`. Ghosts record what was applied of that stream, and what was applied
and streamed at the last promotion.

The id of a promoted server names its own stream; `replid2` names the old master's
stream up to the promotion, continued by what the server streams since
(`streamOf`). A request under the current id is answered from the right position.
One under `replid2` is looked up in the server's own numbering, and answered
rightly only if the two streams agree there (`psync_continues_iff`).
-/

namespace Hayakv.Repl

open List

/-- A server: `masterStatus`, `slaveStatus`, and what they mean. -/
structure Node where
  master : Master
  replId : Bytes
  replid2 : Bytes
  secondReplOffset : Int
  /-- `slaveStatus.replId` and `slaveStatus.replOffset`. -/
  slaveReplId : Bytes
  slaveReplOffset : Int
  /-- Whether a handshake has set them since the server was last a master. -/
  linked : Bool
  /-- What the server has applied of the stream `slaveReplId`. -/
  applied : Bytes
  /-- What it had applied when it was promoted, and how long its own stream was then. -/
  frozen : Bytes
  promotedAt : Nat
deriving DecidableEq, Repr

/-- `initMasterStatus` and `initReplSlaveStatus`. -/
def Node.init (limit : Int) (replId : Bytes) : Node where
  master := .init limit
  replId := replId
  replid2 := "0000000000000000000000000000000000000000"
  secondReplOffset := -1
  slaveReplId := []
  slaveReplOffset := 0
  linked := false
  applied := []
  frozen := []
  promotedAt := 0

inductive NodeEvent
  /-- What happens to the server's own stream, in either role. -/
  | own (e : MasterEvent)
  /-- The master answered FULLRESYNC: the server now has what `stream` made of the data. -/
  | fullResync (replId stream : Bytes)
  | resume (replId : Bytes)
  /-- A command of the master's stream was applied. -/
  | receive (bin : Bytes)
  /-- `slaveOfNone`, with the id that `promoteToMaster` draws. -/
  | slaveOfNone (newId : Bytes)
deriving DecidableEq, Repr

namespace Node

def step (s : Node) : NodeEvent → Node
  | .own e => { s with master := s.master.step e }
  | .fullResync replId stream =>
    { s with slaveReplId := replId, slaveReplOffset := stream.length, linked := true, applied := stream }
  | .resume replId => if s.linked then { s with slaveReplId := replId } else s
  | .receive bin =>
    if s.linked then
      { s with slaveReplOffset := s.slaveReplOffset + bin.length, applied := s.applied ++ bin }
    else s
  | .slaveOfNone newId =>
    { s with
      slaveReplId := [], slaveReplOffset := -1, linked := false, applied := []
      -- promoteToMaster
      replid2 := s.slaveReplId, secondReplOffset := s.slaveReplOffset, replId := newId
      frozen := s.applied, promotedAt := s.master.stream.length }

end Node

inductive PartialSync
  | cannot
  | panic
  | continue (replId backlog : Bytes) (sendOffset : Int)
deriving DecidableEq, Repr

/-- `masterTryPartialSyncWithSlave`. -/
def Node.tryPartialSync (s : Node) (replId : Bytes) (slaveOffset : Int) : PartialSync :=
  let matchingReplid2 := decide (replId ≠ s.replId ∧ replId = s.replid2 ∧ 0 < s.secondReplOffset)
  if replId ≠ s.replId ∧ ¬matchingReplid2 then .cannot
  else if matchingReplid2 ∧ s.secondReplOffset < slaveOffset then .cannot
  else if !s.master.backlog.isValidOffset slaveOffset then .cannot
  else
    match s.master.backlog.getSnapshotAfter slaveOffset with
    | none => .panic
    | some (backlog, currentOffset) => .continue s.replId backlog currentOffset

/-- The stream that an id names: the server's own, or the old master's up to the promotion and the
server's own since. -/
def Node.streamOf (s : Node) (replId : Bytes) : Bytes :=
  if replId = s.replId then s.master.stream else s.frozen ++ s.master.stream.drop s.promotedAt

/-- The condition on one event: a backlog that is swapped in is aligned. -/
def Node.SwapAligned (s : Node) : NodeEvent → Prop
  | .own e => s.master.SwapAligned e
  | _ => True

instance (s : Node) (e : NodeEvent) : Decidable (s.SwapAligned e) := by
  cases e <;> unfold Node.SwapAligned <;> infer_instance

/-- The condition on a request: it names the current id; or the two streams have the same byte at each
position from its offset on, up to where the server was promoted. -/
def Node.Agrees (s : Node) (replId : Bytes) (offset : Int) : Prop :=
  replId = s.replId ∨
    offset ≤ s.promotedAt ∧ ∀ i ≥ offset.toNat, (s.master.stream.take s.promotedAt)[i]? = s.frozen[i]?

namespace Node

/-- What holds after every run whose swaps are aligned. -/
structure Inv (s : Node) : Prop where
  master : s.master.Inv
  applied : s.linked = true → s.slaveReplOffset = s.applied.length
  unlinked : s.linked = false → s.slaveReplOffset ≤ 0
  frozen : 0 < s.secondReplOffset → s.secondReplOffset = s.frozen.length
  promotedAt : s.promotedAt ≤ s.master.stream.length

theorem inv_init (limit : Int) (replId : Bytes) : (init limit replId).Inv where
  master := Master.inv_init limit
  applied h := by cases h
  unlinked _ := Int.le_refl 0
  frozen h := absurd h (show ¬(0 : Int) < -1 by decide)
  promotedAt := Nat.le_refl 0

theorem Inv.step {s : Node} (h : s.Inv) (e : NodeEvent) (hok : s.SwapAligned e) : (s.step e).Inv := by
  cases e with
  | own e =>
    have hinv := h.master.step e hok
    have hmono := h.master.currentOffset_le e hok
    have hcur := h.master.window.current
    have hcur' := hinv.window.current
    have hat := h.promotedAt
    exact ⟨hinv, h.applied, h.unlinked, h.frozen, by dsimp only [Node.step]; omega⟩
  | fullResync replId stream =>
    exact ⟨h.master, fun _ => rfl, fun hc => (by cases hc), h.frozen, h.promotedAt⟩
  | resume replId =>
    rw [Node.step]
    split
    · exact ⟨h.master, h.applied, h.unlinked, h.frozen, h.promotedAt⟩
    · exact h
  | receive bin =>
    rw [Node.step]
    split
    · rename_i hlinked
      refine ⟨h.master, fun _ => ?_, fun hc => ?_, h.frozen, h.promotedAt⟩
      · have := h.applied hlinked
        simp only [length_append]
        omega
      · exact absurd (hlinked.symm.trans hc) (by decide)
    · exact h
  | slaveOfNone newId =>
    refine ⟨h.master, fun hc => (by cases hc), fun _ => show (-1 : Int) ≤ 0 by decide, fun hpos => ?_, Nat.le_refl _⟩
    cases hlinked : s.linked with
    | true => exact h.applied hlinked
    | false => exact absurd (h.unlinked hlinked) (by simpa [Node.step] using hpos)

end Node

theorem drop_eq_drop {xs ys : Bytes} {o : Nat} : xs.drop o = ys.drop o ↔ ∀ i ≥ o, xs[i]? = ys[i]? := by
  rw [List.ext_getElem?_iff]
  simp only [getElem?_drop]
  exact ⟨fun h i hi => by simpa [Nat.add_sub_cancel' hi] using h (i - o), fun h i => h (o + i) (Nat.le_add_right ..)⟩

/-- The own stream, from the offset `o` of another one that ends where the own one was `k` long. -/
theorem drop_eq_iff {own old : Bytes} {o k : Nat} (ho : o ≤ old.length) (hk : k ≤ own.length)
    (hlen : o ≤ own.length) : own.drop o = (old ++ own.drop k).drop o ↔ o ≤ k ∧ ∀ i ≥ o, (own.take k)[i]? = old[i]? := by
  rw [drop_append_of_le_length ho, ← drop_eq_drop]
  have hsplit (hle : o ≤ k) : own.drop o = (own.take k).drop o ++ own.drop k := by
    nth_rewrite 1 [← take_append_drop k own]
    rw [drop_append_of_le_length (by rw [length_take]; omega)]
  constructor
  · intro h
    have hl := congrArg length h
    simp only [length_drop, length_append] at hl
    have hle : o ≤ k := by omega
    rw [hsplit hle] at h
    exact ⟨hle, append_cancel_right h⟩
  · rintro ⟨hle, h⟩
    rw [hsplit hle, h]

/-- After any history whose swaps are aligned, a request that is answered with CONTINUE gets the
bytes that follow its offset in the stream it names exactly if the two streams agree there. -/
theorem psync_continues_iff (limit : Int) (id : Bytes) (es : List NodeEvent)
    (h : Guarded Node.step Node.SwapAligned (.init limit id) es) (replId : Bytes) (offset : Int)
    (header backlog : Bytes) (sendOffset : Int)
    (hc : (es.foldl Node.step (.init limit id)).tryPartialSync replId offset = .continue header backlog sendOffset) :
    backlog = ((es.foldl Node.step (.init limit id)).streamOf replId).drop offset.toNat ↔
      (es.foldl Node.step (.init limit id)).Agrees replId offset := by
  have hinv : (es.foldl Node.step (.init limit id)).Inv :=
    h.run (fun _ e hs hok => hs.step e hok) (Node.inv_init limit id)
  generalize es.foldl Node.step (.init limit id) = s at hinv hc ⊢
  rw [Node.tryPartialSync] at hc
  split at hc
  · cases hc
  rename_i hmatch
  split at hc
  · cases hc
  rename_i hsecond
  split at hc
  · cases hc
  rename_i hvalid
  have hvalid' : s.master.backlog.isValidOffset offset = true := by simpa using hvalid
  rw [hinv.master.window.getSnapshotAfter hvalid'] at hc
  injection hc with _ hbytes _
  subst hbytes
  rw [Node.streamOf, Node.Agrees]
  by_cases hid : replId = s.replId
  · rw [if_pos hid]
    exact ⟨fun _ => .inl hid, fun _ => rfl⟩
  -- the request names the old master's stream, up to the promotion
  obtain ⟨hid2, hpos⟩ : replId = s.replid2 ∧ 0 < s.secondReplOffset := by
    by_contra hn
    exact hmatch ⟨hid, by simpa [hid] using hn⟩
  have hle : offset ≤ s.secondReplOffset := by
    by_contra hn
    exact hsecond ⟨decide_eq_true ⟨hid, hid2, hpos⟩, by omega⟩
  have hfrozen := hinv.frozen hpos
  have hcur := hinv.master.window.current
  have hvalid'' := hvalid'
  rw [ReplBacklog.isValidOffset, Bool.and_eq_true, decide_eq_true_eq, decide_eq_true_eq] at hvalid''
  rw [if_neg hid, drop_eq_iff (by omega) hinv.promotedAt (by omega)]
  have hoff : offset.toNat ≤ s.promotedAt ↔ offset ≤ s.promotedAt := by omega
  rw [hoff]
  exact ⟨.inr, fun h => h.resolve_left hid⟩

theorem psync_continues_own :
    let es : List NodeEvent := [.own .save, .fullResync "r" "0123456789", .slaveOfNone "b", .own .ping]
    let s := es.foldl Node.step (.init 0 "a")
    Guarded Node.step Node.SwapAligned (.init 0 "a") es ∧
      s.tryPartialSync "b" 4 = .continue "b" (pingBytes.drop 4) 14 ∧ pingBytes.drop 4 = (s.streamOf "b").drop 4 := by
  intro es s
  have haligned : Guarded Node.step Node.SwapAligned (.init 0 "a") es := by decide
  have hsync : s.tryPartialSync "b" 4 = .continue "b" (pingBytes.drop 4) 14 := by decide
  exact ⟨haligned, hsync, (psync_continues_iff 0 "a" es haligned "b" 4 _ _ _ hsync).2 (.inl (by decide))⟩

/-- A replica that had applied ten bytes of the stream `r` is promoted and streams a ping; to the
request for `r` from the fifth byte on it sends the ping from its fifth byte on. -/
theorem psync_continues_elsewhere : ¬∀ (limit : Int) (id : Bytes) (es : List NodeEvent) (replId : Bytes)
    (offset : Int) (header backlog : Bytes) (sendOffset : Int),
    (es.foldl Node.step (.init limit id)).tryPartialSync replId offset = .continue header backlog sendOffset →
      backlog = ((es.foldl Node.step (.init limit id)).streamOf replId).drop offset.toNat := fun h =>
  absurd (h 0 "a" [.own .save, .fullResync "r" "0123456789", .slaveOfNone "b",
    .own .ping] "r" 5 "b" (pingBytes.drop 5) 14 (by decide)) (by decide)

end Hayakv.Repl
