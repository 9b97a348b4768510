import Hayakv.Streams.Order
import Hayakv.Streams.Pending

/-!
# The delivery of new entries

XADD, XREADGROUP with `>`, XACK and XGROUP CREATECONSUMER on a stream and one of its groups.
A read is exact if it returns the entries after the last delivered one, as many as asked
for, and the last of them becomes the last delivered one; then what is delivered ascends.

Two steps of the source are not always exact. `ReadNew` starts to read at the sequence number
after that of the last delivered ID, which wraps around at the greatest one. CREATECONSUMER
makes the consumer with a read of 0 entries, and 0 means all.

The commands take the steps of `Feed` (`Takes`).
-/

namespace Hayakv.Streams

open Engine Cmd List Prog Exec StreamObj

/-! ## Where a read starts -/

theorem inRange_max (st : StreamObj) (start : StreamID) :
    st.inRange start .max = st.entries.filter fun e => !start.greater e.id := by
  refine filter_congr fun e _ => ?_
  by_cases hs : start = .zero
  · have hle : start.greater e.id = false := by
      rw [greater_eq_false, hs]
      exact Nat.zero_le _
    simp [hle]
  · simp [hs]

/-- The greatest sequence number. -/
def maxSeq : UInt64 := 0xFFFFFFFFFFFFFFFF

/-- No entry that has been delivered, or was passed by, is read again. -/
def Fresh (st : StreamObj) (g : Group) : Prop :=
  g.lastDelivered.seq = maxSeq → ∀ e ∈ st.entries, e.id.ms ≠ g.lastDelivered.ms

theorem rank_zero : rank .zero = 0 := rfl

theorem rank_readStart (g : Group) : rank (readStart g) = if g.lastDelivered = .zero then 0
    else if g.lastDelivered.seq = maxSeq then g.lastDelivered.ms.toNat * 2 ^ 64 else rank g.lastDelivered + 1 := by
  rw [readStart]
  split
  · rfl
  have hseq : g.lastDelivered.seq = maxSeq ↔ g.lastDelivered.seq.toNat = 2 ^ 64 - 1 := by
    rw [← UInt64.toNat_inj]
    exact Iff.rfl
  have hlt := g.lastDelivered.seq.toNat_lt
  simp only [rank, UInt64.toNat_add, UInt64.toNat_one, hseq]
  split <;> omega

/-- From where a read starts on, there are only entries that come after the last delivered one. -/
theorem fresh_iff {st : StreamObj} {g : Group} (hzero : ∀ e ∈ st.entries, e.id ≠ .zero) :
    Fresh st g ↔ ∀ e ∈ st.entries, (readStart g).greater e.id = false → e.id.greater g.lastDelivered = true := by
  have hmax : maxSeq.toNat = 2 ^ 64 - 1 := rfl
  constructor
  · intro hf e he hstart
    rw [greater_eq_false, rank_readStart] at hstart
    rw [greater_iff]
    split at hstart
    · rename_i hlast
      rw [hlast, rank_zero]
      exact Nat.pos_of_ne_zero fun h0 => hzero e he (rank_injective h0)
    split at hstart
    · rename_i hseq
      have hms : e.id.ms.toNat ≠ g.lastDelivered.ms.toNat := fun h => hf hseq e he (UInt64.toNat_inj.1 h)
      have hlt := e.id.seq.toNat_lt
      rw [rank, hseq, hmax]
      rw [rank] at hstart ⊢
      omega
    · exact hstart
  · intro h hseq e he hms
    have hlast : g.lastDelivered ≠ .zero := by
      intro h0
      rw [h0] at hseq
      exact absurd hseq (by decide)
    have hlt := e.id.seq.toNat_lt
    have hgt := h e he
    rw [greater_eq_false, rank_readStart, if_neg hlast, if_pos hseq, greater_iff] at hgt
    rw [rank, rank, hseq, hmax, hms] at hgt
    omega

/-! ## Reading -/

def undelivered (st : StreamObj) (g : Group) : List Entry := st.entries.filter fun e => e.id.greater g.lastDelivered

section read

variable {st : StreamObj} {g : Group} {consumer : Bytes} {count now : Int}

theorem readNew_snd (g : Group) (st : StreamObj) (consumer : Bytes) (count now : Int) :
    (g.readNew st consumer count now).2 = limit count (st.inRange (readStart g) .max) := by
  rw [readNew_eq]
  split
  · rename_i hnil
    exact hnil.symm
  · rfl

variable {es : List Entry}

theorem mem_limit {e : Entry} (h : e ∈ limit count es) : e ∈ es := by
  rw [limit] at h
  split at h
  · exact mem_of_mem_take h
  · exact h

theorem limit_sublist (count : Int) (es : List Entry) : (limit count es).Sublist es := by
  rw [limit]
  split
  · exact take_sublist _ _
  · exact List.Sublist.refl es

theorem head?_limit (count : Int) (es : List Entry) : (limit count es).head? = es.head? := by
  rw [limit]
  split
  · rename_i hpos
    cases es with
    | nil => simp
    | cons e es =>
      obtain ⟨k, hk⟩ : ∃ k, count.toNat = k + 1 := ⟨count.toNat - 1, by omega⟩
      rw [hk]
      rfl
  · rfl

theorem inRange_eq_undelivered (hzero : ∀ e ∈ st.entries, e.id ≠ .zero) (hf : Fresh st g) :
    st.inRange (readStart g) .max = undelivered st g := by
  rw [inRange_max, undelivered]
  refine filter_congr fun e he => ?_
  -- what comes after the last delivered ID comes after the start of the read
  have hle : e.id.greater g.lastDelivered = true → (readStart g).greater e.id = false := by
    intro hgt
    rw [greater_iff] at hgt
    rw [greater_eq_false, rank_readStart]
    split
    · exact Nat.zero_le _
    · split
      · rw [rank] at hgt
        omega
      · exact hgt
  have hgt := (fresh_iff hzero).1 hf e he
  rw [Bool.eq_iff_iff, Bool.not_eq_true']
  exact ⟨hgt, hle⟩

/-- The reads are the same only if none goes back. -/
theorem fresh_of_limit_eq (hord : Ordered st) (hzero : ∀ e ∈ st.entries, e.id ≠ .zero)
    (h : limit count (st.inRange (readStart g) .max) = limit count (undelivered st g)) : Fresh st g := by
  refine (fresh_iff hzero).2 fun e he hstart => ?_
  have hmem : e ∈ st.inRange (readStart g) .max := by
    rw [inRange_max, mem_filter, hstart]
    exact ⟨he, rfl⟩
  have hhead : (st.inRange (readStart g) .max).head? = (undelivered st g).head? := by
    rw [← head?_limit count, h, head?_limit]
  cases hr : st.inRange (readStart g) .max with
  | nil =>
    rw [hr] at hmem
    cases hmem
  | cons f fs =>
    -- the first entry of the read comes after the last delivered one, and `e` is not before it
    rw [hr, head?_cons] at hhead
    have hf : f ∈ undelivered st g := mem_of_head? hhead.symm
    have hfgt := greater_iff.1 (mem_filter.1 hf).2
    have hsorted : (f :: fs).Pairwise fun a b => b.id.greater a.id = true := by
      rw [← hr]
      exact hord.increasing.sublist filter_sublist
    rw [hr] at hmem
    rw [greater_iff]
    rcases mem_cons.1 hmem with rfl | hmem
    · exact hfgt
    · exact hfgt.trans (greater_iff.1 ((pairwise_cons.1 hsorted).1 e hmem))

theorem inRange_eq_nil_iff (hzero : ∀ e ∈ st.entries, e.id ≠ .zero) :
    st.inRange (readStart g) .max = [] ↔ Fresh st g ∧ undelivered st g = [] := by
  constructor
  · intro hnil
    have hf : Fresh st g := by
      refine (fresh_iff hzero).2 fun e he hstart => ?_
      rw [inRange_max, filter_eq_nil_iff] at hnil
      exact absurd (by rw [hstart]; rfl) (hnil e he)
    exact ⟨hf, by rw [← inRange_eq_undelivered hzero hf, hnil]⟩
  · rintro ⟨hf, hnil⟩
    rw [inRange_eq_undelivered hzero hf, hnil]

def lastOf (id : StreamID) (es : List Entry) : StreamID := (es.getLast?.map Entry.id).getD id

theorem lastDelivered_readNew (g : Group) (st : StreamObj) (consumer : Bytes) (count now : Int) :
    (g.readNew st consumer count now).1.lastDelivered =
      maxID g.lastDelivered (g.readNew st consumer count now).2 := by
  have hfold : ∀ (g : Group) (es : List Entry),
      (es.foldl (deliver consumer now) g).lastDelivered = maxID g.lastDelivered es := by
    intro g es
    induction es generalizing g with
    | nil => rfl
    | cons e es ih => exact ih _
  rw [readNew_eq]
  split
  · rfl
  · refine (hfold _ _).trans ?_
    rw [Group.getOrCreateConsumer]
    split <;> rfl

theorem maxID_eq_lastOf {id : StreamID} (hgt : ∀ e ∈ es, e.id.greater id = true)
    (hsorted : es.Pairwise fun a b => b.id.greater a.id = true) : maxID id es = lastOf id es := by
  induction es generalizing id with
  | nil => rfl
  | cons e es ih =>
    obtain ⟨hfirst, hrest⟩ := pairwise_cons.1 hsorted
    have hstep : maxID id (e :: es) = maxID e.id es := by
      rw [maxID, foldl_cons, if_pos (hgt e mem_cons_self)]
      rfl
    rw [hstep, ih hfirst hrest, lastOf, lastOf, getLast?_cons]
    cases es.getLast? <;> rfl

theorem le_maxID (id : StreamID) (es : List Entry) :
    rank id ≤ rank (maxID id es) ∧ ∀ e ∈ es, rank e.id ≤ rank (maxID id es) := by
  induction es generalizing id with
  | nil => exact ⟨le_rfl, fun e he => absurd he not_mem_nil⟩
  | cons e es ih =>
    obtain ⟨hle, hes⟩ := ih (if e.id.greater id then e.id else id)
    have hfirst : rank id ≤ rank (if e.id.greater id then e.id else id) ∧
        rank e.id ≤ rank (if e.id.greater id then e.id else id) := by
      split
      · rename_i hgt
        exact ⟨(greater_iff.1 hgt).le, le_rfl⟩
      · rename_i hgt
        exact ⟨le_rfl, greater_eq_false.1 (Bool.eq_false_iff.2 hgt)⟩
    exact ⟨hfirst.1.trans hle, forall_mem_cons.2 ⟨hfirst.2.trans hle, hes⟩⟩

theorem maxID_mem (id : StreamID) (es : List Entry) : maxID id es = id ∨ ∃ e ∈ es, maxID id es = e.id := by
  induction es generalizing id with
  | nil => exact .inl rfl
  | cons e es ih =>
    have hstep : maxID id (e :: es) = maxID (if e.id.greater id then e.id else id) es := rfl
    rw [hstep]
    rcases ih (if e.id.greater id then e.id else id) with h | ⟨f, hf, h⟩
    · rw [h]
      split
      · exact .inr ⟨e, mem_cons_self, rfl⟩
      · exact .inl rfl
    · exact .inr ⟨f, mem_cons_of_mem e hf, h⟩

/-- Of entries in order, a limited read passes no one by. -/
theorem mem_limit_of_le {id : StreamID} (hsorted : es.Pairwise fun a b => b.id.greater a.id = true) {e : Entry}
    (he : e ∈ es) (hgt : rank id < rank e.id) (hle : rank e.id ≤ rank (maxID id (limit count es))) :
    e ∈ limit count es := by
  rw [limit] at hle ⊢
  split at hle
  · rename_i hpos
    rw [if_pos hpos]
    rw [← take_append_drop count.toNat es] at hsorted he
    refine (mem_append.1 he).resolve_right fun hdrop => ?_
    rcases maxID_mem id (es.take count.toNat) with h | ⟨f, hf, h⟩
    · rw [h] at hle
      omega
    · have hlt := greater_iff.1 ((pairwise_append.1 hsorted).2.2 f hf e hdrop)
      rw [h] at hle
      omega
  · rename_i hneg
    rw [if_neg hneg]
    exact he

end read

/-! ## The feed of a group -/

/-- A stream, and the IDs that the reads for one of its groups have returned. -/
structure Feed where
  stream : StreamObj
  delivered : List StreamID

/-- What XADD adds, and how it trims then. -/
structure Addition where
  id : StreamID
  fields : List (Bytes × Bytes)
  trim : TrimOpts

def Addition.apply (st : StreamObj) (a : Addition) : StreamObj :=
  match st.add a.id a.fields with
  | .ok st' => applyStreamTrim st' a.trim
  | .error _ => st

section addition

variable {st : StreamObj}

theorem applyStreamTrim_frame (st : StreamObj) (o : TrimOpts) :
    (applyStreamTrim st o).entries.Sublist st.entries ∧ (applyStreamTrim st o).lastID = st.lastID ∧
      (applyStreamTrim st o).groups = st.groups := by
  refine applyStreamTrim_keeps (P := fun st' => st'.entries.Sublist st.entries ∧ st'.lastID = st.lastID ∧
    st'.groups = st.groups) (fun st' n approx h => ?_) (fun st' id approx h => ?_) ⟨.refl _, rfl, rfl⟩ o
  · simp only [trimMaxLen]
    split
    · exact h
    · split
      · exact h
      · exact ⟨(drop_sublist _ _).trans h.1, h.2⟩
  · simp only [trimMinID]
    split
    · exact h
    · exact ⟨filter_sublist.trans h.1, h.2⟩

/-- XADD leaves the groups; an entry that was not there has an ID above the last one. -/
theorem Addition.apply_frame (st : StreamObj) (a : Addition) :
    (a.apply st).groups = st.groups ∧ rank st.lastID ≤ rank (a.apply st).lastID ∧
      ∀ e ∈ (a.apply st).entries, e ∈ st.entries ∨ rank st.lastID < rank e.id := by
  rw [Addition.apply]
  cases hadd : st.add a.id a.fields with
  | error msg => exact ⟨rfl, le_rfl, fun e he => .inl he⟩
  | ok st' =>
    obtain ⟨hgt, rfl⟩ := add_eq_ok hadd
    rw [greater_iff] at hgt
    obtain ⟨hsub, hlast, hgroups⟩ := applyStreamTrim_frame { st with
        entries := st.entries ++ [⟨a.id, a.fields⟩]
        lastID := a.id
        entriesAdded := st.entriesAdded + 1
        length := st.length + 1 } a.trim
    refine ⟨hgroups, ?_, fun e he => ?_⟩
    · simp only [hlast]
      exact hgt.le
    · refine (mem_append.1 (hsub.subset he)).imp_right fun hnew => ?_
      rw [mem_singleton.1 hnew]
      exact hgt

theorem Addition.ordered_apply (h : Ordered st) (a : Addition) : Ordered (a.apply st) := by
  rw [Addition.apply]
  cases hadd : st.add a.id a.fields with
  | error msg => exact h
  | ok st' => exact (h.add hadd).applyStreamTrim a.trim

theorem Addition.nonzero_apply (h : ∀ e ∈ st.entries, e.id ≠ .zero) (a : Addition) :
    ∀ e ∈ (a.apply st).entries, e.id ≠ .zero := by
  intro e he
  rcases (a.apply_frame st).2.2 e he with hold | hnew
  · exact h e hold
  · rintro h0
    rw [h0, rank_zero] at hnew
    omega

end addition

inductive Action where
  | xadd (a : Addition)
  | read (consumer : Bytes) (count now : Int)
  | ack (ids : List StreamID)
  | createConsumer (consumer : Bytes) (now : Int)

namespace Feed

/-- A command on the group, which may be missing. -/
def onGroup (name : Bytes) (f : Feed) (action : Group → Group × List Entry) : Feed :=
  match f.stream.getGroup name with
  | none => f
  | some g => ⟨f.stream.setGroup name (action g).1, f.delivered ++ (action g).2.map Entry.id⟩

/-- CREATECONSUMER on a group: it replies with no entries, whatever it has read. -/
def createConsumer (st : StreamObj) (consumer : Bytes) (now : Int) (g : Group) : Group :=
  if (g.consumers.lookup consumer).isSome then g else (g.readNew st consumer 0 now).1

def step (name : Bytes) (f : Feed) : Action → Feed
  | .xadd a => { f with stream := a.apply f.stream }
  | .read consumer count now => f.onGroup name fun g => g.readNew f.stream consumer count now
  | .ack ids => f.onGroup name fun g => ((g.ack ids).1, [])
  | .createConsumer consumer now => f.onGroup name fun g => (createConsumer f.stream consumer now g, [])

/-- The group has the same entries pending, and the same last delivered ID. -/
structure Untouched (g g' : Group) : Prop where
  lastDelivered : g'.lastDelivered = g.lastDelivered
  pending : g'.pending = g.pending
  pendingFor : pendingFor g' = pendingFor g

/-- A read returns what comes after the last delivered ID, and CREATECONSUMER takes nothing. -/
def Exact (name : Bytes) (f : Feed) : Action → Prop
  | .read consumer count now => ∀ g, f.stream.getGroup name = some g →
      (g.readNew f.stream consumer count now).2 = StreamObj.limit count (undelivered f.stream g) ∧
        (g.readNew f.stream consumer count now).1.lastDelivered =
          lastOf g.lastDelivered (StreamObj.limit count (undelivered f.stream g))
  | .createConsumer consumer now => ∀ g, f.stream.getGroup name = some g →
      Untouched g (createConsumer f.stream consumer now g)
  | _ => True

def Sound (name : Bytes) (f : Feed) : Action → Prop
  | .read _ _ _ => ∀ g, f.stream.getGroup name = some g → Fresh f.stream g
  | .createConsumer consumer _ => ∀ g, f.stream.getGroup name = some g →
      (g.consumers.lookup consumer).isSome ∨ Fresh f.stream g ∧ undelivered f.stream g = []
  | _ => True

/-- The reads have returned, in order, the entries between where the group starts and the last delivered ID. -/
structure InTurn (startID : StreamID) (f : Feed) (g : Group) : Prop where
  ascending : f.delivered.Pairwise fun a b => b.greater a = true
  upTo : ∀ id ∈ f.delivered, id.greater startID = true ∧ id.greater g.lastDelivered = false
  complete : ∀ e ∈ f.stream.entries, e.id.greater startID = true → e.id.greater g.lastDelivered = false →
    e.id ∈ f.delivered

structure Inv (name : Bytes) (startID : StreamID) (f : Feed) (g : Group) : Prop extends InTurn startID f g where
  group : f.stream.getGroup name = some g
  ordered : Ordered f.stream
  nonzero : ∀ e ∈ f.stream.entries, e.id ≠ .zero
  started : rank startID ≤ rank g.lastDelivered
  reached : g.lastDelivered = startID ∨ rank g.lastDelivered ≤ rank f.stream.lastID

variable {name consumer : Bytes} {startID : StreamID} {f : Feed} {st : StreamObj} {g g' : Group} {count now : Int}

theorem Untouched.refl (g : Group) : Untouched g g := ⟨rfl, rfl, rfl⟩

section

variable (hzero : ∀ e ∈ st.entries, e.id ≠ .zero)
include hzero

theorem createConsumer_eq (h : (g.consumers.lookup consumer).isSome ∨ Fresh st g ∧ undelivered st g = []) :
    createConsumer st consumer now g = g := by
  rw [createConsumer]
  split
  · rfl
  · rename_i hnone
    have hnil := (inRange_eq_nil_iff hzero).2 (h.resolve_left hnone)
    have hrange : st.range (readStart g) .max 0 = [] := hnil
    rw [readNew_eq, if_pos hrange]

theorem untouched_iff : Untouched g (createConsumer st consumer now g) ↔
      (g.consumers.lookup consumer).isSome ∨ Fresh st g ∧ undelivered st g = [] := by
  constructor
  · intro hu
    by_cases hsome : (g.consumers.lookup consumer).isSome
    · exact .inl hsome
    refine .inr ((inRange_eq_nil_iff hzero).1 ?_)
    by_contra hne
    obtain ⟨e, he⟩ := exists_mem_of_ne_nil _ hne
    -- an entry that is there becomes pending for the consumer, who did not exist
    have hnone : pendingFor g consumer e.id = none := by
      rw [pendingFor, Option.not_isSome_iff_eq_none.1 hsome]
      rfl
    have htaken : (pendingFor (createConsumer st consumer now g) consumer e.id).isSome := by
      rw [createConsumer, if_neg hsome, readNew_eq, if_neg (show st.range (readStart g) .max 0 ≠ [] from hne)]
      exact isSome_pendingFor_foldl_deliver (isSome_getOrCreateConsumer g consumer) (.inr ⟨e, he, rfl⟩)
    rw [hu.pendingFor, hnone] at htaken
    cases htaken
  · intro h
    rw [createConsumer_eq hzero h]
    exact Untouched.refl g

theorem readNew_eq_limit (hf : Fresh st g) (consumer : Bytes) (count now : Int) :
    (g.readNew st consumer count now).2 = limit count (undelivered st g) := by
  rw [readNew_snd, inRange_eq_undelivered hzero hf]

end

theorem undelivered_ascending (h : Ordered st) (g : Group) :
    (undelivered st g).Pairwise fun a b => b.id.greater a.id = true :=
  h.increasing.sublist filter_sublist

theorem Inv.exact_iff (h : Inv name startID f g) (a : Action) : Exact name f a ↔ Sound name f a := by
  have hone : ∀ {P : Group → Prop}, (∀ g', f.stream.getGroup name = some g' → P g') ↔ P g := by
    intro P
    rw [h.group]
    exact ⟨fun hp => hp g rfl, by rintro hp _ ⟨⟩; exact hp⟩
  cases a with
  | xadd a => exact Iff.rfl
  | ack ids => exact Iff.rfl
  | createConsumer consumer now =>
    simp only [Exact, Sound, hone]
    exact untouched_iff h.nonzero
  | read consumer count now =>
    simp only [Exact, Sound, hone]
    constructor
    · rintro ⟨hread, -⟩
      rw [readNew_snd] at hread
      exact fresh_of_limit_eq h.ordered h.nonzero hread
    · intro hf
      have hread := readNew_eq_limit h.nonzero hf consumer count now
      refine ⟨hread, ?_⟩
      rw [lastDelivered_readNew, hread]
      refine maxID_eq_lastOf (fun e he => ?_) ((undelivered_ascending h.ordered g).sublist (limit_sublist count _))
      exact (mem_filter.1 (mem_limit he)).2

/-! ## Steps -/

theorem getGroup_setGroup (st : StreamObj) (name : Bytes) (g : Group) : (st.setGroup name g).getGroup name = some g := by
  rw [getGroup, setGroup, lookup_putField, if_pos rfl]

theorem onGroup_eq (hg : f.stream.getGroup name = some g) (action : Group → Group × List Entry) :
    f.onGroup name action = ⟨f.stream.setGroup name (action g).1, f.delivered ++ (action g).2.map Entry.id⟩ := by
  rw [onGroup, hg]

section

variable (h : Inv name startID f g)
include h

theorem Inv.xadd (a : Addition) : Inv name startID { f with stream := a.apply f.stream } g := by
  obtain ⟨hgroups, hlast, hentries⟩ := a.apply_frame f.stream
  refine ⟨⟨h.ascending, h.upTo, fun e he hstart hle => ?_⟩, ?_, a.ordered_apply h.ordered, a.nonzero_apply h.nonzero,
    h.started, h.reached.imp_right fun hr => hr.trans hlast⟩
  · rcases hentries e he with hold | hnew
    · exact h.complete e hold hstart hle
    -- a new entry is above the last ID, so it is not between the two
    rw [greater_iff] at hstart
    rw [greater_eq_false] at hle
    rcases h.reached with heq | hr
    · rw [heq] at hle
      omega
    · omega
  · rw [getGroup, hgroups]
    exact h.group

theorem Inv.setGroup (hlast : g'.lastDelivered = g.lastDelivered) :
    Inv name startID ⟨f.stream.setGroup name g', f.delivered ++ []⟩ g' := by
  rw [append_nil]
  refine ⟨⟨h.ascending, ?_, ?_⟩, getGroup_setGroup _ _ _, ?_, h.nonzero, ?_, ?_⟩
  · rw [hlast]
    exact h.upTo
  · rw [hlast]
    exact h.complete
  · exact Ordered.mk' h.ordered.increasing h.ordered.bounded h.ordered.length
  · rw [hlast]
    exact h.started
  · rw [hlast]
    exact h.reached

theorem Inv.read (hf : Fresh f.stream g) (consumer : Bytes) (count now : Int) :
    Inv name startID (f.onGroup name fun g => g.readNew f.stream consumer count now)
      (g.readNew f.stream consumer count now).1 := by
  have hlast := lastDelivered_readNew g f.stream consumer count now
  have hread := readNew_eq_limit h.nonzero hf consumer count now
  rw [onGroup_eq h.group]
  set r := g.readNew f.stream consumer count now
  have hsorted : r.2.Pairwise fun a b => b.id.greater a.id = true := by
    rw [hread]
    exact (undelivered_ascending h.ordered g).sublist (limit_sublist count _)
  have hmem : ∀ e ∈ r.2, e ∈ f.stream.entries ∧ rank g.lastDelivered < rank e.id := by
    intro e he
    rw [hread] at he
    obtain ⟨he, hgt⟩ := mem_filter.1 (mem_limit he)
    exact ⟨he, greater_iff.1 hgt⟩
  obtain ⟨hle, hall⟩ := le_maxID g.lastDelivered r.2
  rw [← hlast] at hle hall
  refine ⟨⟨?_, fun id hid => ?_, fun e he hstart hend => ?_⟩, getGroup_setGroup _ _ _, ?_, h.nonzero,
    h.started.trans hle, ?_⟩
  · refine pairwise_append.2 ⟨h.ascending, pairwise_map.2 hsorted, fun id hid id' hid' => ?_⟩
    obtain ⟨e, he, rfl⟩ := mem_map.1 hid'
    have hold := greater_eq_false.1 (h.upTo id hid).2
    exact greater_iff.2 (hold.trans_lt (hmem e he).2)
  · rw [greater_iff, greater_eq_false]
    rcases mem_append.1 hid with hid | hid
    · have hold := h.upTo id hid
      rw [greater_iff, greater_eq_false] at hold
      exact ⟨hold.1, hold.2.trans hle⟩
    · obtain ⟨e, he, rfl⟩ := mem_map.1 hid
      exact ⟨h.started.trans_lt (hmem e he).2, hall e he⟩
  · rw [greater_eq_false] at hend
    refine mem_append.2 ?_
    cases hold : e.id.greater g.lastDelivered with
    | false => exact .inl (h.complete e he hstart hold)
    | true =>
      refine .inr (mem_map.2 ⟨e, ?_, rfl⟩)
      rw [hlast, hread] at hend
      rw [hread]
      exact mem_limit_of_le (undelivered_ascending h.ordered g) (mem_filter.2 ⟨he, hold⟩) (greater_iff.1 hold) hend
  · exact Ordered.mk' h.ordered.increasing h.ordered.bounded h.ordered.length
  · rw [hlast]
    rcases maxID_mem g.lastDelivered r.2 with heq | ⟨e, he, heq⟩
    · rw [heq]
      exact h.reached
    · rw [heq]
      exact .inr (greater_eq_false.1 (h.ordered.bounded e (hmem e he).1))

omit h in
theorem lastDelivered_ack (g : Group) (ids : List StreamID) : (g.ack ids).1.lastDelivered = g.lastDelivered := by
  rw [ack_fst]
  refine foldl_invariant (P := fun g' : Group => g'.lastDelivered = g.lastDelivered) (fun g' id hg' => ?_) rfl ids
  rw [ackOne]
  split
  · exact hg'
  · exact hg'

theorem Inv.step {a : Action} (ha : Sound name f a) : ∃ g', Inv name startID (f.step name a) g' := by
  cases a with
  | xadd a => exact ⟨g, h.xadd a⟩
  | read consumer count now => exact ⟨_, h.read (ha g h.group) consumer count now⟩
  | ack ids =>
    refine ⟨(g.ack ids).1, ?_⟩
    rw [Feed.step, onGroup_eq h.group]
    exact h.setGroup (lastDelivered_ack g ids)
  | createConsumer consumer now =>
    refine ⟨g, ?_⟩
    rw [Feed.step, onGroup_eq h.group, createConsumer_eq h.nonzero (ha g h.group)]
    exact h.setGroup rfl

end

/-! ## Runs -/

def start (name : Bytes) (startID : StreamID) (adds : List Addition) : Feed :=
  ⟨(adds.foldl Addition.apply .new).setGroup name (.new startID), []⟩

theorem inv_start (name : Bytes) (startID : StreamID) (adds : List Addition) :
    Inv name startID (start name startID adds) (.new startID) := by
  have hst := foldl_invariant (P := fun st : StreamObj => Ordered st ∧ ∀ e ∈ st.entries, e.id ≠ .zero)
    (fun st a h => ⟨a.ordered_apply h.1, a.nonzero_apply h.2⟩)
    ⟨ordered_new, fun e he => absurd he not_mem_nil⟩ adds
  refine ⟨⟨List.Pairwise.nil, fun id hid => absurd hid not_mem_nil, fun e _ hgt hle => ?_⟩,
    getGroup_setGroup _ _ _, ?_, hst.2, le_rfl, .inl rfl⟩
  · have hle : e.id.greater startID = false := hle
    rw [hle] at hgt
    cases hgt
  · exact Ordered.mk' hst.1.increasing hst.1.bounded hst.1.length

/-- Every step of a run is exact, and the reads return the entries in order and exactly once, if and only if every
step meets the condition. -/
theorem delivery_run (name : Bytes) (startID : StreamID) (adds : List Addition) (acts : List Action) :
    (Guarded (step name) (Exact name) (start name startID adds) acts ∧
      ∀ pre, pre <+: acts → ∃ g, (pre.foldl (step name) (start name startID adds)).stream.getGroup name = some g ∧
        InTurn startID (pre.foldl (step name) (start name startID adds)) g) ↔
      Guarded (step name) (Sound name) (start name startID adds) acts := by
  have hinv : ∃ g, Inv name startID (start name startID adds) g := ⟨_, inv_start name startID adds⟩
  have hstep : ∀ f a, (∃ g, Inv name startID f g) → Sound name f a → ∃ g, Inv name startID (step name f a) g := by
    rintro f a ⟨g, hg⟩ ha
    exact hg.step ha
  have hexact : Guarded (step name) (Exact name) (start name startID adds) acts ↔
      Guarded (step name) (Sound name) (start name startID adds) acts := by
    refine guarded_congr ?_ hstep hinv
    rintro f a ⟨g, hg⟩
    exact hg.exact_iff a
  rw [hexact, and_iff_left_iff_imp]
  rintro hsound pre ⟨post, rfl⟩
  obtain ⟨g, hg⟩ := (guarded_append.1 hsound).1.run hstep hinv
  exact ⟨g, hg.group, hg.toInTurn⟩

/-! ## Two runs that are not exact -/

/-- An entry with the greatest sequence number. -/
def topEntry : Addition := ⟨⟨1, maxSeq⟩, [], ⟨none, none, false⟩⟩

/-- The entry is added and read for `a`, and the group is read for `b`. -/
def readAgain : List Action := [.xadd topEntry, .read "a" 0 0, .read "b" 0 0]

def lowEntry : Addition := ⟨⟨1, 0⟩, [], ⟨none, none, false⟩⟩

/-- An entry is added, the consumer `a` is made, and the group is read for `b`. -/
def readNothing : List Action := [.xadd lowEntry, .createConsumer "a" 0, .read "b" 0 0]

/-- The feed of a group that starts from nothing. -/
def feedAfter (acts : List Action) : Feed := acts.foldl (step "g") (start "g" .zero [])

/-- An entry is delivered twice, to two consumers; another to none, for it is pending for the one that was made. -/
theorem delivers_twice_and_skips : (feedAfter readAgain).delivered = [⟨1, maxSeq⟩, ⟨1, maxSeq⟩] ∧
      (feedAfter readNothing).delivered = [] ∧
      ((feedAfter readNothing).stream.getGroup "g").map (fun g => (g.lastDelivered, g.pending.map Prod.fst)) =
        some (⟨1, 0⟩, [⟨1, 0⟩]) ∧
      ¬ ∀ acts, Guarded (step "g") (Exact "g") (start "g" .zero []) acts ∧
        ∀ pre, pre <+: acts → ∃ g, (pre.foldl (step "g") (start "g" .zero [])).stream.getGroup "g" = some g ∧
          InTurn .zero (pre.foldl (step "g") (start "g" .zero [])) g := by
  have htwice : (feedAfter readAgain).delivered = [⟨1, maxSeq⟩, ⟨1, maxSeq⟩] := by decide +kernel
  refine ⟨htwice, by decide +kernel, by decide +kernel, fun h => ?_⟩
  obtain ⟨g, -, hg⟩ := (h readAgain).2 readAgain (List.prefix_refl _)
  have hpair : (feedAfter readAgain).delivered.Pairwise fun a b => b.greater a = true := hg.ascending
  revert hpair
  decide

end Feed

/-! ## The commands -/

variable {env : Env} {key : Key} {name : Bytes}

/-- From any state in which the key holds a live stream, the command ends with the reply, the error or the panic that
is given for this stream, and leaves the one that is given. -/
def Takes (env : Env) (key : Key) (p : Exec Reply) (next : StreamObj → Except Exit Reply × StreamObj) : Prop :=
  ∀ s st, streamOf s key = some st → s.expired env.now key = false →
    (p.run (handle env) s).1 = (next st).1 ∧ streamOf (p.run (handle env) s).2 key = some (next st).2

theorem takes_of_wp {p : Exec Reply} {next : StreamObj → Except Exit Reply × StreamObj}
    (h : ∀ st gone, ¬ gone → p.wp (View.discipline key gone fun v e => next st = (.error e, st) ∧ v.value = some st)
      (fun r v => ∃ st', next st = (.ok r, st') ∧ v.value = some st') ⟨some st, false, false⟩) :
    Takes env key p next := by
  intro s st hst hlive
  have hwp := h st (s.expired env.now key = true) (by simp [hlive])
  rw [← hst] at hwp
  obtain ⟨v, hv, hends⟩ := View.run env s hwp
  rw [hv]
  revert hends
  generalize (run _ _ _).1 = r
  cases r with
  | ok reply =>
    rintro ⟨st', hnext, hkept⟩
    exact ⟨(congrArg Prod.fst hnext).symm, by rw [hnext, hkept]⟩
  | error e =>
    rintro ⟨hnext, hkept⟩
    exact ⟨(congrArg Prod.fst hnext).symm, by rw [hnext, hkept, hst]⟩

theorem add_of_greater {st : StreamObj} {id : StreamID} (h : id.greater st.lastID = true)
    (fields : List (Bytes × Bytes)) : ∃ st', st.add id fields = .ok st' := by
  have hid : id ≠ .zero := by
    rintro rfl
    exact absurd (greater_iff.1 h) (Nat.not_lt_zero _)
  simp [StreamObj.add, hid, h]

/-- XADD adds the fields that it is given with the ID that it is given or assigns, trims then, and replies the ID.
It ends early exactly if its arguments are not understood or the ID is not above the last one. -/
theorem takes_execXAdd (a b : Bytes) (args : List Bytes) : Takes env key (execXAdd env (key :: a :: b :: args)) fun st =>
    match parseXAdd (a :: b :: args) with
    | .error r => (.error (.reply r), st)
    | .ok o =>
      let added : Addition := ⟨xaddID env o st, o.fields, o.trim⟩
      if added.id.greater st.lastID then (.ok (.bulk (some added.id.text)), added.apply st)
      else (.error (.reply (.err (if added.id = .zero then "ERR The ID specified in XADD must be greater than 0-0"
        else "ERR The ID specified in XADD is equal or smaller than the target stream top item"))), st) := by
  refine takes_of_wp fun st gone hgone => ?_
  simp only [execXAdd, wp_bind, wp_check, wp_orReply, arg_zero_bind]
  refine ⟨by simp, fun _ => ⟨fun r hr => ⟨by rw [show parseXAdd (a :: b :: args) = _ from hr], rfl⟩,
    fun o ho => View.wp_getAsStream_some hgone ?_⟩⟩
  simp only [wp_bind, wp_check, wp_when, wp_orReply, View.wp_store, View.wp_addAof, wp_pure, true_and, Option.getD_some,
    show parseXAdd (a :: b :: args) = .ok o from ho]
  refine ⟨by simp, fun _ => ⟨by simp, fun _ => ?_⟩⟩
  by_cases hgt : (xaddID env o st).greater st.lastID
  · obtain ⟨st', hadd⟩ := add_of_greater hgt o.fields
    rw [hadd]
    refine ⟨fun r hr => (by cases hr), fun st'' hst => ⟨_, ?_, rfl⟩⟩
    cases hst
    rw [if_pos hgt, Addition.apply, hadd]
  · rw [StreamObj.add, if_neg hgt, Bool.eq_false_iff.2 hgt]
    split
    all_goals
      refine ⟨fun r hr => ⟨?_, rfl⟩, fun st' hst => by cases hst⟩
      cases hr
      rfl

/-- XACK acknowledges the IDs that it is given. -/
theorem takes_execXAck (id : Bytes) (args : List Bytes) : Takes env key (execXAck (key :: name :: id :: args)) fun st =>
    match parseStreamIDs (id :: args), st.getGroup name with
    | .error r, _ => (.error (.reply r), st)
    | .ok _, none => (.error (.reply noGroup), st)
    | .ok ids, some g => (.ok (.int (g.ack ids).2), (Feed.step name ⟨st, []⟩ (.ack ids)).stream) := by
  refine takes_of_wp fun st gone hgone => ?_
  simp only [execXAck, wp_bind, wp_check, wp_orReply, arg_zero_bind, arg_one_bind]
  refine ⟨by simp, fun _ => ⟨fun r hr => ⟨by rw [show parseStreamIDs (id :: args) = _ from hr], rfl⟩,
    fun ids hids => View.wp_getAsStream_some hgone ?_⟩⟩
  simp only [wp_bind, require_some, wp_require, View.wp_store, View.wp_addAof, wp_pure, true_and,
    show parseStreamIDs (id :: args) = .ok ids from hids]
  refine ⟨fun hg => ⟨by rw [hg], rfl⟩, fun g hg => ⟨_, ?_, rfl⟩⟩
  simp only [hg, Feed.step, Feed.onGroup]

/-- CREATECONSUMER makes the consumer if the group is there and the consumer is not. -/
theorem takes_execXGroupCreateConsumer (consumer : Bytes) (args : List Bytes) :
    Takes env key (execXGroupCreateConsumer env (key :: name :: consumer :: args)) fun st =>
      match st.getGroup name with
      | none => (.error (.reply noGroup), st)
      | some g =>
        if (g.consumers.lookup consumer).isSome then (.error (.reply (.int 0)), st)
        else (.ok (.int 1), (Feed.step name ⟨st, []⟩ (.createConsumer consumer env.nowMs)).stream) := by
  refine takes_of_wp fun st gone hgone => ?_
  simp only [execXGroupCreateConsumer, wp_bind, wp_check, arg_zero_bind, arg_one_bind, arg_two_bind]
  refine ⟨by simp, fun _ => View.wp_getAsStream_some hgone ?_⟩
  simp only [wp_bind, require_some, wp_require, wp_check, View.wp_store, View.wp_addAof, wp_pure, true_and]
  refine ⟨fun hg => ⟨by rw [hg], rfl⟩, fun g hg => ⟨fun hsome => ⟨by simp only [hg, hsome, if_true], rfl⟩,
    fun hsome => ⟨_, ?_, rfl⟩⟩⟩
  simp only [hg, Feed.step, Feed.onGroup, Feed.createConsumer, hsome, Bool.false_eq_true, if_false]

/-- The arguments of XREADGROUP with `>` on one stream, of which none is empty and that do not block. -/
structure ReadNew (key : Key) where
  args : List Bytes
  length : 2 ≤ args.length
  opts : XReadGroupOpts
  parse : parseXReadGroup ⟨[], [], 0, false, -1⟩ args = .ok (opts, [key, ">"])
  group : opts.group ≠ []
  consumer : opts.consumer ≠ []
  blockMs : opts.blockMs ≠ 0

example : ReadNew "s" := ⟨["GROUP", "g", "c", "STREAMS", "s", ">"], by decide, _, rfl, by decide, by decide, by decide⟩

/-- The reply of XREADGROUP: an entry without fields gets those that the stream has for its ID. -/
def readReply (key : Key) (st : StreamObj) (es : List Entry) : Reply :=
  if es = [] then .nullBulk
  else .array [.array [.bulk (some key), .array (es.map fun e =>
    flatEntry (if e.fields = [] then { e with fields := fieldsOf st e.id } else e))]]

/-- XREADGROUP takes the step of a read, and replies the entries that it delivers. -/
theorem takes_execXReadGroup (r : ReadNew key) : Takes env key (execXReadGroup env r.args) fun st =>
    match st.getGroup r.opts.group with
    | none => (.error (.reply (.err ("NOGROUP No such consumer group '" ++ r.opts.group ++ "' in key '" ++ key ++ "'"))), st)
    | some g =>
      (.ok (readReply key st (g.readNew st r.opts.consumer r.opts.count env.nowMs).2),
        (Feed.step r.opts.group ⟨st, []⟩ (.read r.opts.consumer r.opts.count env.nowMs)).stream) := by
  refine takes_of_wp fun st gone hgone => ?_
  simp only [execXReadGroup, wp_bind, wp_check, r.parse, orExit, wp_pure]
  refine ⟨fun h => absurd (of_decide_eq_true h) r.length.not_gt, fun _ => ⟨by simp [r.group, r.consumer],
    fun _ => ⟨by simp, fun _ => ⟨by simp [r.blockMs], fun _ => ?_⟩⟩⟩⟩
  rw [show splitStreams [key, str ">"] = [(key, str ">")] by simp [splitStreams], fold_cons, wp_bind, wp_bind]
  refine View.wp_getAsStream_some hgone ?_
  simp only [wp_bind, wp_require]
  refine ⟨fun hg => ⟨by rw [hg], rfl⟩, fun g hg => ?_⟩
  simp only [readGroup, if_true, orReply, wp_bind, wp_pure, wp_when, decide_true, Bool.true_or, forall_const,
    View.wp_store, true_and, fold_nil]
  refine ⟨⟨_, ?_, rfl⟩, by simp⟩
  simp only [hg, Feed.step, Feed.onGroup, readReply, map_eq_nil_iff, map_map]
  split <;> rfl

end Hayakv.Streams
