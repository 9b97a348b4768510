import Hayakv.Lib.Guarded
import Hayakv.Streams.View

/-!
# The order of a stream

The entries of a stream are in ascending order of their IDs, none is above the last ID,
and the recorded length is their number (`Ordered`). XADD, XDEL and XTRIM keep this, with
whatever arguments. XSETID keeps it if and only if the new last ID is not below an entry
that is there, which the source does not check.
-/

namespace Hayakv.Streams

open Engine Cmd List Prog Exec StreamObj

/-! ## IDs -/

def rank (id : StreamID) : Nat := id.ms.toNat * 2 ^ 64 + id.seq.toNat

variable {a b : StreamID} {id : StreamID}

theorem greater_iff : a.greater b = true ↔ rank b < rank a := by
  have ha := a.seq.toNat_lt
  have hb := b.seq.toNat_lt
  simp only [StreamID.greater, rank, Bool.or_eq_true, Bool.and_eq_true, decide_eq_true_eq, beq_iff_eq,
    UInt64.lt_iff_toNat_lt, ← UInt64.toNat_inj]
  omega

theorem rank_injective (h : rank a = rank b) : a = b := by
  have ha := a.seq.toNat_lt
  have hb := b.seq.toNat_lt
  have hms : a.ms.toNat = b.ms.toNat := by
    simp only [rank] at h
    omega
  have hseq : a.seq.toNat = b.seq.toNat := by
    simp only [rank] at h
    omega
  cases a
  cases b
  simp only [StreamID.mk.injEq]
  exact ⟨UInt64.toNat_inj.1 hms, UInt64.toNat_inj.1 hseq⟩

/-! ## Streams -/

structure Ordered (st : StreamObj) : Prop where
  increasing : st.entries.Pairwise fun a b => b.id.greater a.id = true
  bounded : ∀ e ∈ st.entries, e.id.greater st.lastID = false
  length : st.length = UInt64.ofNat st.entries.length
  /-- Whatever is added next comes after every entry. -/
  after : ∀ id fields st', st.add id fields = .ok st' → ∀ e ∈ st.entries, id.greater e.id = true

theorem greater_eq_false : a.greater b = false ↔ rank a ≤ rank b := by
  rw [← Bool.not_eq_true, greater_iff, Nat.not_lt]

variable {fields : List (Bytes × Bytes)}

theorem add_eq_ok {st st' : StreamObj} (h : st.add id fields = .ok st') : id.greater st.lastID = true ∧
      st' = { st with
        entries := st.entries ++ [⟨id, fields⟩]
        lastID := id
        entriesAdded := st.entriesAdded + 1
        length := st.length + 1 } := by
  simp only [add] at h
  split at h
  · cases h
  split at h
  · cases h
  · rename_i hgt
    cases h
    exact ⟨by simpa using hgt, rfl⟩

theorem Ordered.mk' {st : StreamObj} (increasing : st.entries.Pairwise fun a b => b.id.greater a.id = true)
    (bounded : ∀ e ∈ st.entries, e.id.greater st.lastID = false)
    (length : st.length = UInt64.ofNat st.entries.length) : Ordered st := by
  refine ⟨increasing, bounded, length, fun id fields st' hadd e he => ?_⟩
  have hlast := greater_iff.1 (add_eq_ok hadd).1
  have hle := greater_eq_false.1 (bounded e he)
  exact greater_iff.2 (hle.trans_lt hlast)

theorem ordered_new : Ordered .new := Ordered.mk' .nil (by simp [new]) rfl

variable {st : StreamObj}

section

variable (h : Ordered st)
include h

theorem Ordered.add {st' : StreamObj} (hadd : st.add id fields = .ok st') : Ordered st' := by
  have hafter := h.after id fields st' hadd
  obtain ⟨-, rfl⟩ := add_eq_ok hadd
  refine Ordered.mk' ?_ ?_ ?_
  · refine pairwise_append.2 ⟨h.increasing, pairwise_singleton _ _, fun a ha b hb => ?_⟩
    rw [mem_singleton.1 hb]
    exact hafter a ha
  · intro e he
    rcases mem_append.1 he with he | he
    · exact greater_eq_false.2 (greater_iff.1 (hafter e he)).le
    · rw [mem_singleton.1 he]
      exact greater_eq_false.2 le_rfl
  · simp only [h.length, length_append, length_singleton, UInt64.ofNat_add]
    rfl

theorem Ordered.remove {es : List Entry} (hsub : es.Sublist st.entries) {n : Nat}
    (hn : es.length + n = st.entries.length) (m : StreamID) :
    Ordered { st with entries := es, length := st.length - UInt64.ofNat n, maxDeletedID := m } := by
  refine Ordered.mk' (h.increasing.sublist hsub) (fun e he => h.bounded e (hsub.subset he)) ?_
  simp only [h.length, ← hn, UInt64.ofNat_add, UInt64.add_sub_cancel]

theorem Ordered.delete (ids : List StreamID) : Ordered (st.delete ids).1 := by
  refine h.remove filter_sublist ?_ _
  have hsplit := st.entries.length_eq_length_filter_add (·.id ∈ ids)
  simp only [decide_not] at *
  omega

theorem Ordered.trimMaxLen (maxLen : Int) (approx : Bool) : Ordered (st.trimMaxLen maxLen approx).1 := by
  simp only [StreamObj.trimMaxLen]
  split
  · exact h
  split
  · exact h
  · refine h.remove (drop_sublist _ _) ?_ _
    rw [length_drop]
    split <;> omega

theorem Ordered.setMaxDeleted (m : StreamID) : Ordered { st with maxDeletedID := m } :=
  Ordered.mk' h.increasing h.bounded h.length

theorem Ordered.trimMinID (minID : StreamID) (approx : Bool) : Ordered (st.trimMinID minID approx).1 := by
  simp only [StreamObj.trimMinID]
  split
  · exact h.setMaxDeleted _
  · refine h.remove filter_sublist ?_ _
    have hsplit := st.entries.length_eq_length_filter_add fun e => e.id.greater minID || decide (e.id = minID)
    omega

/-- XSETID: the new last ID must not be below an entry. -/
theorem Ordered.setID_iff (id : StreamID) (n : UInt64) (m : StreamID) :
    Ordered (st.setID id n m) ↔ ∀ e ∈ st.entries, e.id.greater id = false := by
  refine ⟨fun hs => hs.bounded, fun hle => ?_⟩
  exact Ordered.mk' h.increasing hle h.length

omit h in
theorem applyStreamTrim_keeps {P : StreamObj → Prop} (hmax : ∀ st n approx, P st → P (st.trimMaxLen n approx).1)
    (hmin : ∀ st id approx, P st → P (st.trimMinID id approx).1) (h : P st) (o : TrimOpts) :
    P (Cmd.applyStreamTrim st o) := by
  have hfirst : P ((o.maxLen.map fun n => (st.trimMaxLen n o.approx).1).getD st) := by
    cases o.maxLen with
    | none => exact h
    | some n => exact hmax st n o.approx h
  simp only [Cmd.applyStreamTrim]
  cases o.minID with
  | none => exact hfirst
  | some id => exact hmin _ id o.approx hfirst

theorem Ordered.applyStreamTrim (o : TrimOpts) : Ordered (Cmd.applyStreamTrim st o) :=
  applyStreamTrim_keeps (fun _ n approx h => h.trimMaxLen n approx) (fun _ id approx h => h.trimMinID id approx) h o

theorem Ordered.trimStream {args : List Bytes} {p : StreamObj × Nat}
    (hp : Cmd.trimStream st args = .ok p) : Ordered p.1 := by
  cases args with
  | nil => cases hp
  | cons opt args =>
    simp only [Cmd.trimStream] at hp
    split at hp
    · split at hp
      · cases hp
      rename_i approx v rest _
      cases hn : parseMaxLen v with
      | error r =>
        rw [hn] at hp
        cases hp
      | ok n =>
        rw [hn] at hp
        cases hp
        exact h.trimMaxLen n approx
    · split at hp
      · split at hp
        · cases hp
        rename_i approx v rest _
        cases hn : parseStreamID v with
        | error r =>
          rw [hn] at hp
          cases hp
        | ok id =>
          rw [hn] at hp
          cases hp
          exact h.trimMinID id approx
      · cases hp

end

/-! ## Commands -/

inductive StreamCommand where
  | xadd
  | xdel
  | xtrim
  | xsetid
deriving DecidableEq

def StreamCommand.command : StreamCommand → Command
  | .xadd => ⟨"xadd", fun env _ => execXAdd env, writeFirstKey, -5, .write⟩
  | .xdel => ⟨"xdel", fun _ _ => execXDel, writeFirstKey, -3, .write⟩
  | .xtrim => ⟨"xtrim", fun _ _ => execXTrim, writeFirstKey, -2, .write⟩
  | .xsetid => ⟨"xsetid", fun _ _ => execXSetID, writeFirstKey, -3, .write⟩

structure Call where
  env : Env
  cmd : StreamCommand
  args : List Bytes

def step (key : Key) (s : State) (c : Call) : State := (Cmd.exec c.env c.cmd.command (key :: c.args) s).2

def InOrder (key : Key) (s : State) : Prop := ∀ st, streamOf s key = some st → Ordered st

def Call.setsID (c : Call) : Option StreamID :=
  match c.cmd, c.args with
  | .xsetid, text :: opts =>
    match parseStreamID text, parseXSetID (0, .zero) opts with
    | .ok id, .ok _ => some id
    | _, _ => none
  | _, _ => none

/-- XSETID sets no ID below an entry. -/
def Call.NotBelow (key : Key) (s : State) (c : Call) : Prop :=
  ∀ id st, c.setsID = some id → s.expired c.env.now key = false → streamOf s key = some st →
    ∀ e ∈ st.entries, e.id.greater id = false

namespace View

def InOrder (v : View) : Prop := ∀ st, v.value = some st → Ordered st

theorem inOrder_none {looked held : Bool} : InOrder ⟨none, looked, held⟩ := fun _ h => by cases h

theorem inOrder_some (h : Ordered st) {looked held : Bool} : InOrder ⟨some st, looked, held⟩ := by
  rintro _ ⟨⟩
  exact h

section

variable {key : Key} {env : Env} {gone : Prop} {args : List Bytes} {v : View} {α : Type}

def Keeps (key : Key) (gone : Prop) (p : Exec α) (v : View) : Prop :=
  p.wp (discipline key gone fun v _ => v.InOrder) (fun _ v => v.InOrder) v

theorem keeps_execXAdd (h : v.InOrder) : Keeps key gone (execXAdd env (key :: args)) v := by
  -- where there is a stream, found or made
  have hadd : ∀ (st : StreamObj) (id : StreamID) (o : XAddOpts), Ordered st →
      Keeps key gone (do
        let s ← orReply ((st.add id o.fields).mapError .err)
        store key (.stream (Cmd.applyStreamTrim s o.trim))
        Exec.addAof ("xadd" :: buildXAddAofArgs key id o.fields)
        return Reply.bulk (some id.text)) ⟨some st, true, true⟩ := by
    intro st id o hst
    simp only [Keeps, wp_bind, wp_orReply]
    refine ⟨fun _ _ => inOrder_some hst, fun st' hst' => ?_⟩
    have hok : st.add id o.fields = .ok st' := by
      cases hres : st.add id o.fields with
      | ok x =>
        rw [hres] at hst'
        cases hst'
        rfl
      | error e =>
        rw [hres] at hst'
        cases hst'
    simp only [wp_bind, wp_store, wp_addAof, wp_pure, true_and]
    exact inOrder_some ((hst.add hok).applyStreamTrim o.trim)
  simp only [Keeps, execXAdd, wp_bind, wp_check, wp_orReply, arg_zero_bind]
  refine ⟨fun _ => h, fun _ => ⟨fun _ _ => h, fun o _ => ?_⟩⟩
  refine wp_getAsStream (fun _ => ?_) (fun st _ hst => ?_) fun _ => inOrder_none
  · simp only [wp_bind, wp_check, wp_when, wp_putColl]
    exact ⟨fun _ => inOrder_none, fun _ => ⟨fun _ => (wp_bind _ _).1 (hadd _ _ o ordered_new), fun hf => by cases hf⟩⟩
  · simp only [wp_bind, wp_check, wp_when]
    exact ⟨fun _ => inOrder_some (h st hst), fun _ => ⟨fun hf => (by cases hf),
      fun _ => (wp_bind _ _).1 (hadd _ _ o (h st hst))⟩⟩

theorem keeps_execXDel (h : v.InOrder) : Keeps key gone (execXDel (key :: args)) v := by
  simp only [Keeps, execXDel, wp_bind, wp_check, arg_zero_bind]
  refine ⟨fun _ => h, fun _ => wp_getAsStream (fun _ => ?_) (fun st _ hst => ?_) fun _ => inOrder_none⟩
  · exact inOrder_none
  · have hord := h st hst
    simp only [require, wp_bind, wp_pure, wp_orReply, wp_store, wp_addAof, true_and]
    exact ⟨fun _ _ => inOrder_some hord, fun ids _ => inOrder_some (hord.delete ids)⟩

theorem keeps_execXTrim (h : v.InOrder) : Keeps key gone (execXTrim (key :: args)) v := by
  simp only [Keeps, execXTrim, wp_bind, wp_check, arg_zero_bind]
  refine ⟨fun _ => h, fun _ => wp_getAsStream (fun _ => ?_) (fun st _ hst => ?_) fun _ => inOrder_none⟩
  · exact inOrder_none
  · have hord := h st hst
    simp only [require, wp_bind, wp_pure, wp_orReply, wp_store, wp_addAof, true_and]
    exact ⟨fun _ _ => inOrder_some hord, fun p hp => inOrder_some (hord.trimStream hp)⟩

theorem wp_execXSetID {text : Bytes} {id : StreamID} {n : UInt64} {m : StreamID} (hid : parseStreamID text = .ok id)
    (hopts : parseXSetID (0, .zero) args = .ok (n, m)) {leave : View → Exit → Prop} {Q : Reply → View → Prop}
    (hnone : (v.looked = false → v.value = none ∨ gone) → Q .ok ⟨some (new.setID id n m), true, true⟩)
    (hsome : ∀ st, (v.looked = false → ¬ gone) → v.value = some st → Q .ok ⟨some (st.setID id n m), true, true⟩)
    (hwrong : v.value = none → leave ⟨none, true, false⟩ (.reply .wrongType)) :
    (execXSetID (key :: text :: args)).wp (discipline key gone leave) Q v := by
  simp only [execXSetID, getOrInitStream, wp_bind, wp_check, arg_zero_bind]
  refine ⟨fun hlen => absurd (of_decide_eq_true hlen) (by simp), fun _ => ?_⟩
  simp only [wp_arg, getElem?_cons_succ, getElem?_cons_zero, drop_succ_cons, drop_zero]
  refine ⟨fun ht => (by cases ht), fun t ht => ?_⟩
  cases ht
  simp only [hid, hopts, orReply, wp_bind, wp_pure]
  refine wp_getAsStream (fun hv => ?_) (fun st hgone hst => ?_) hwrong
  · simp only [wp_bind, wp_when, wp_putColl, wp_pure, wp_store, wp_addAof, true_and]
    exact ⟨fun _ => hnone hv, fun hf => by cases hf⟩
  · simp only [wp_bind, wp_when, wp_pure, wp_store, wp_addAof, true_and]
    exact ⟨fun hf => (by cases hf), fun _ => hsome st hgone hst⟩

theorem keeps_execXSetID (hargs : Call.setsID ⟨env, .xsetid, args⟩ = none) (h : v.InOrder) :
    Keeps key gone (execXSetID (key :: args)) v := by
  simp only [Keeps, execXSetID, wp_bind, wp_check, arg_zero_bind]
  refine ⟨fun _ => h, fun hlen => ?_⟩
  cases args with
  | nil => simp at hlen
  | cons text opts =>
    simp only [wp_arg, getElem?_cons_succ, getElem?_cons_zero, drop_succ_cons, drop_zero]
    refine ⟨fun ht => (by cases ht), fun t ht => ?_⟩
    cases ht
    simp only [Call.setsID] at hargs
    simp only [wp_bind, wp_orReply]
    refine ⟨fun _ _ => h, fun id hid => ⟨fun _ _ => h, fun o hopts => ?_⟩⟩
    rw [hid, hopts] at hargs
    cases hargs

end

end View

variable {key : Key} {s : State}

theorem Call.setsID_eq_some {c : Call} (h : c.setsID = some id) :
    c.cmd = .xsetid ∧ ∃ text opts n m, c.args = text :: opts ∧ parseStreamID text = .ok id ∧
      parseXSetID (0, .zero) opts = .ok (n, m) := by
  obtain ⟨env, cmd, args⟩ := c
  simp only [Call.setsID] at h
  split at h
  · rename_i text opts
    split at h
    · rename_i id' o hid hopts
      cases h
      exact ⟨rfl, text, opts, o.1, o.2, rfl, hid, hopts⟩
    · cases h
  · cases h

theorem InOrder.of_keeps (h : InOrder key s) {c : Call} {p : Exec Reply}
    (hp : c.cmd.command.executor c.env (execWithLock c.env (lineFuel (c.cmd.command.name :: key :: c.args)))
      (key :: c.args) = p) (hkeeps : ∀ v : View, v.InOrder → View.Keeps key (s.expired c.env.now key = true) p v) :
    InOrder key (step key s c) := by
  subst hp
  obtain ⟨v, hv, hends⟩ := View.run c.env { s with bound := [], work := none }
    (hkeeps ⟨streamOf s key, false, false⟩ h)
  intro st hst
  have hord : v.InOrder := by
    revert hends
    generalize (run _ _ _).1 = r
    cases r <;> exact id
  exact hord st (hv.symm.trans hst)

/-- A command keeps the stream of its key in order if and only if it sets no last ID below an entry. -/
theorem InOrder.step_iff (h : InOrder key s) (c : Call) : InOrder key (step key s c) ↔ c.NotBelow key s := by
  cases hid : c.setsID with
  | none =>
    refine ⟨fun _ id st hsets => (by rw [hid] at hsets; cases hsets), fun _ => ?_⟩
    obtain ⟨env, cmd, args⟩ := c
    cases cmd with
    | xadd => exact h.of_keeps rfl fun v hv => View.keeps_execXAdd hv
    | xdel => exact h.of_keeps rfl fun v hv => View.keeps_execXDel hv
    | xtrim => exact h.of_keeps rfl fun v hv => View.keeps_execXTrim hv
    | xsetid => exact h.of_keeps rfl fun v hv => View.keeps_execXSetID hid hv
  | some id =>
    obtain ⟨env, cmd, args⟩ := c
    obtain ⟨rfl, text, opts, n, m, rfl, htext, hopts⟩ := Call.setsID_eq_some hid
    -- the key is gone or holds no stream, or its stream gets the last ID
    have hp : (execXSetID (key :: text :: opts)).wp
        (View.discipline key (s.expired env.now key = true) fun v _ => streamOf s key = none ∧ v.value = none)
        (fun _ v => ((streamOf s key = none ∨ s.expired env.now key = true) ∧ v.value = some (new.setID id n m)) ∨
          ∃ st, s.expired env.now key = false ∧ streamOf s key = some st ∧ v.value = some (st.setID id n m))
        ⟨streamOf s key, false, false⟩ :=
      View.wp_execXSetID htext hopts (fun hv => .inl ⟨hv rfl, rfl⟩)
        (fun st hgone hst => .inr ⟨st, Bool.eq_false_iff.2 (hgone rfl), hst, rfl⟩) fun hst => ⟨hst, rfl⟩
    obtain ⟨v, hv, hends⟩ := View.run env { s with bound := [], work := none } hp
    replace hv : streamOf (step key s ⟨env, .xsetid, text :: opts⟩) key = v.value := hv
    have hnew : Ordered (new.setID id n m) := (ordered_new.setID_iff id n m).2 fun e he => by cases he
    have hcases : (streamOf s key = none ∧ v.value = none) ∨
        ((streamOf s key = none ∨ s.expired env.now key = true) ∧ v.value = some (new.setID id n m)) ∨
        ∃ st, s.expired env.now key = false ∧ streamOf s key = some st ∧ v.value = some (st.setID id n m) := by
      revert hends
      generalize (run _ _ _).1 = r
      cases r with
      | ok a => exact .inr
      | error e => exact .inl
    obtain ⟨hnone, hval⟩ | ⟨hgone, hval⟩ | ⟨st, hlive, hst, hval⟩ := hcases
    · rw [hval] at hv
      refine ⟨fun _ id' st _ _ hst => (by rw [hnone] at hst; cases hst), fun _ st hst => ?_⟩
      rw [hv] at hst
      cases hst
    · rw [hval] at hv
      refine ⟨fun _ id' st _ hlive hst => ?_, fun _ st hst => ?_⟩
      · rcases hgone with hnone | hexp
        · rw [hnone] at hst
          cases hst
        · rw [hexp] at hlive
          cases hlive
      · rw [hv] at hst
        cases hst
        exact hnew
    · rw [hval] at hv
      have hord := h st hst
      constructor
      · intro hstep id' st' hsets _ hst'
        rw [hid] at hsets
        rw [hst] at hst'
        cases hsets
        cases hst'
        exact (hord.setID_iff id n m).1 (hstep _ hv)
      · intro hok st' hst'
        rw [hv] at hst'
        cases hst'
        exact (hord.setID_iff id n m).2 (hok id st hid hlive hst)

/-- All along a run of stream commands on a key, its stream is in order, if and only if no XSETID sets a last ID
below an entry. -/
theorem ordered_run (h : InOrder key s) (calls : List Call) :
    (∀ pre, pre <+: calls → InOrder key (pre.foldl (step key) s)) ↔
      Guarded (step key) (fun s c => c.NotBelow key s) s calls :=
  forall_prefix_iff_guarded (fun _ c hs _ => hs.step_iff c) (guarded_of_forall (fun _ _ => trivial) s calls) h

/-! ## A last ID below an entry -/

instance (key : Key) (s : State) (c : Call) : Decidable (c.NotBelow key s) :=
  decidable_of_iff ((c.setsID.toList.all fun id => s.expired c.env.now key ||
      (streamOf s key).toList.all fun st => st.entries.all fun e => !e.id.greater id) = true) (by
    simp only [Call.NotBelow, List.all_eq_true, Option.mem_toList, Bool.or_eq_true, Bool.not_eq_true']
    constructor
    · intro h id st hid hlive hst
      exact (h id hid).resolve_left (by simp [hlive]) st hst
    · intro h id hid
      cases hexp : s.expired c.env.now key with
      | true => exact .inl rfl
      | false => exact .inr fun st hst => h id st hid hexp hst)

/-- A stream command on the key `k`. -/
def callOn (cmd : StreamCommand) (args : List String) : Call := ⟨Env.plain 0, cmd, args.map str⟩

/-- An entry, a last ID above it, and an entry above that. -/
def ascending : List Call := [callOn .xadd ["5-0", "f", "v"], callOn .xsetid ["7-0"], callOn .xadd ["8-0", "f", "v"]]

theorem ordered_run_ascending :
    InOrder "k" .empty ∧ Guarded (step "k") (fun s c => c.NotBelow "k" s) .empty ascending ∧
      ∀ pre, pre <+: ascending → InOrder "k" (pre.foldl (step "k") .empty) := by
  have hstart : InOrder "k" .empty := fun st hst => by cases hst
  have hok : Guarded (step "k") (fun s c => c.NotBelow "k" s) .empty ascending := by decide +kernel
  exact ⟨hstart, hok, (ordered_run hstart ascending).2 hok⟩

/-- XSETID sets the last ID below an entry, and the next entry comes below it too. -/
def descending : List Call := [callOn .xadd ["5-0", "f", "v"], callOn .xsetid ["1-0"], callOn .xadd ["2-0", "f", "v"]]

theorem descending_disorders : (streamOf (descending.foldl (step "k") .empty) "k").map
        (fun st => (st.entries.map Entry.id, st.lastID)) = some ([⟨5, 0⟩, ⟨2, 0⟩], ⟨2, 0⟩) ∧
      ¬ InOrder "k" (descending.foldl (step "k") .empty) := by
  have hids : (streamOf (descending.foldl (step "k") .empty) "k").map
      (fun st => (st.entries.map Entry.id, st.lastID)) = some ([⟨5, 0⟩, ⟨2, 0⟩], ⟨2, 0⟩) := by decide +kernel
  refine ⟨hids, fun h => ?_⟩
  obtain ⟨st, hst, heq⟩ := Option.map_eq_some_iff.1 hids
  have hinc : (st.entries.map Entry.id).Pairwise fun a b => b.greater a = true :=
    List.pairwise_map.2 (h st hst).increasing
  rw [(Prod.mk.inj heq).1] at hinc
  revert hinc
  decide

end Hayakv.Streams
