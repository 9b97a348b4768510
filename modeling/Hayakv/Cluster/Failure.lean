import Hayakv.Cluster.Commands

/-!
# Failure detection

`failure.go` with the times of the reports, and what a node has heard: who has reported whom, and which nodes have
answered since they were last reported. A ping round is `markPFail` for the nodes, and then `markNodeFail` for those
that are PFAIL.

Reports are never dropped (`cleanup` has no caller), and nothing but FAIL takes PFAIL away. `fresh_run`: where all
reports of a node are recent when it is to be marked, and no node answers that is PFAIL, a node is marked FAIL on
fresh reports of a majority only, and who has answered is not PFAIL.
-/

namespace Hayakv.Cluster

structure Report where
  time : Int64
  node : Bytes
  reporter : Bytes
deriving DecidableEq

/-- A node, the times in its `failureReports`, and what it has heard. -/
structure Detector where
  state : ClusterState
  times : Bytes → Bytes → Int64 := fun _ _ => 0
  heard : List Report := []
  answered : Bytes → Bool := fun _ => false

inductive Beat
  | message (m : Message)
  | markPFail (id : Bytes) (now timeout : Int64)
  | markNodeFail (id : Bytes) (now timeout : Int64)

namespace ClusterState

def hasFlag (s : ClusterState) (id : Bytes) (f : NodeFlag) : Bool := (s.nodes.get id).any (·.flags.has f)

/-- An entry of a gossip section that makes the node record a report. -/
def records (s : ClusterState) (e : GossipEntry) : Bool :=
  e.id ≠ [] && e.id ≠ s.self && !e.flags.has .fail && e.flags.has .pfail &&
    (s.nodes.get e.id).any fun n => !n.flags.has .fail

/-- The node has not heard of another one in time. -/
def timedOut (s : ClusterState) (id : Bytes) (now timeout : Int64) : Bool :=
  (s.nodes.get id).any fun n => id ≠ s.self ∧ n.flags.has .fail = false ∧ 0 < n.pongRecv ∧ timeout < now - n.pongRecv

end ClusterState

namespace Detector

variable (d : Detector)

def record (r : Report) : Detector :=
  { d with times := Function.update d.times r.node (Function.update (d.times r.node) r.reporter r.time) }

def hear (r : Report) : Detector :=
  { d with heard := r :: d.heard, answered := Function.update d.answered r.node false }

def mergeEntry (m : Message) (d : Detector) (e : GossipEntry) : Detector :=
  let r := ⟨m.now, e.id, m.header.senderID⟩
  { if d.state.records e then (d.hear r).record r else if e.flags.has .pfail then d.hear r else d with
    state := d.state.mergeEntry m.header.senderID e }

def step : Beat → Detector
  | .message m => m.entries.foldl (mergeEntry m)
      { d with
        state := d.state.mergeFromMessage { m with entries := [] }
        answered :=
          if m.header.msgType = .pong then Function.update d.answered m.header.senderID true else d.answered }
  | .markPFail id now timeout =>
    let r := ⟨now, id, d.state.self⟩
    { if d.state.timedOut id now timeout then (d.hear r).record r else d with
      state := d.state.markPFail id now timeout }
  | .markNodeFail id _ _ => { d with state := d.state.markNodeFail id }

/-- A majority of the masters known has reported the node in the last two node timeouts. -/
def FreshMajority (id : Bytes) (now timeout : Int64) : Prop :=
  ∃ rs : List Bytes, rs.Nodup ∧ d.state.masterCount / 2 + 1 ≤ rs.length ∧ ∀ r ∈ rs, d.state.hasFlag r .master = true ∧
    ∃ t, ⟨t, id, r⟩ ∈ d.heard ∧ now.toInt - 2 * timeout.toInt ≤ t.toInt

/-- FAIL comes on a fresh majority, and who has answered is not PFAIL. -/
def Sound (b : Beat) : Prop :=
  (∀ id now timeout, b = .markNodeFail id now timeout → d.state.hasFlag id .pfail = true →
    d.state.hasFlag id .fail = false → (d.step b).state.hasFlag id .fail = true → d.FreshMajority id now timeout) ∧
  ∀ x, (d.step b).answered x = true → (d.step b).state.hasFlag x .pfail = false

/-- A node that answers is not PFAIL, and the reports of a node that is to be marked are recent. -/
def Meets : Beat → Prop
  | .message m => m.header.msgType = .pong → d.state.hasFlag m.header.senderID .pfail = false
  | .markPFail _ _ _ => True
  | .markNodeFail id now timeout => ∀ r ∈ d.state.failureReports id, d.state.hasFlag r .master = true →
    now.toInt - 2 * timeout.toInt ≤ (d.times id r).toInt

end Detector

/-! ## What a step does to flags and reports -/

namespace ClusterState

variable {s : ClusterState} {id r x y : Bytes}

def setPFail (s : ClusterState) (id reporterID : Bytes) : ClusterState :=
  (s.modifyNode id fun n => { n with flags := n.flags.set .pfail }).addReport id reporterID

theorem mem_setPFail : y ∈ (s.setPFail id r).failureReports x ↔ y ∈ s.failureReports x ∨ x = id ∧ y = r := by
  simp only [setPFail, addReport, modifyNode, Function.update_apply]
  grind

theorem nodup_setPFail (h : ∀ x, (s.failureReports x).Nodup) (x : Bytes) : ((s.setPFail id r).failureReports x).Nodup := by
  simp only [setPFail, addReport, modifyNode, Function.update_apply]
  grind

theorem mergeEntry_of_records {e : GossipEntry} (h : s.records e = true) (senderID : Bytes) :
    e.flags.has .pfail = true ∧ s.mergeEntry senderID e = s.setPFail e.id senderID := by
  simp only [records, Option.any_eq_true, Bool.and_eq_true, decide_eq_true_eq, Bool.not_eq_true'] at h
  obtain ⟨⟨⟨⟨hne, hself⟩, hfail⟩, hpfail⟩, n, hn, hnfail⟩ := h
  simp [mergeEntry, hne, hself, hfail, hpfail, hn, hnfail, setPFail]

theorem markPFail_eq (s : ClusterState) (id : Bytes) (now timeout : Int64) :
    s.markPFail id now timeout = if s.timedOut id now timeout then s.setPFail id s.self else s := by
  rw [markPFail, timedOut]
  cases s.nodes.get id <;> simp [setPFail]

end ClusterState

open ClusterState

/-- The reports stay, and only nodes that meet `p` become PFAIL. -/
structure Quiet (p : Bytes → Prop) (s s' : ClusterState) : Prop where
  reports : s'.failureReports = s.failureReports
  pfail : ∀ x, s'.hasFlag x .pfail = true → s.hasFlag x .pfail = true ∨ p x

namespace Quiet

variable {p : Bytes → Prop} {s s' s'' : ClusterState}

theorem refl (s : ClusterState) : Quiet p s s := ⟨rfl, fun _ => .inl⟩

theorem trans (h : Quiet p s s') (h' : Quiet p s' s'') : Quiet p s s'' :=
  ⟨h'.reports.trans h.reports, fun x hx => (h'.pfail x hx).elim (h.pfail x) .inr⟩

theorem set {id : Bytes} {n : ClusterNode} (hn : n.flags.has .pfail = true → p id) :
    Quiet p s { s with nodes := s.nodes.set id n } := by
  refine ⟨rfl, fun x => ?_⟩
  rw [hasFlag, GoMap.get_set]
  split
  · rename_i hx
    exact fun h => .inr (hx ▸ hn h)
  · exact .inl

theorem modifyNode {id : Bytes} {f : ClusterNode → ClusterNode}
    (hf : ∀ n, (f n).flags.has .pfail = true → n.flags.has .pfail = true) : Quiet p s (s.modifyNode id f) := by
  refine ⟨rfl, fun x => ?_⟩
  rw [hasFlag, ClusterState.modifyNode, GoMap.get_modify, Option.any_map]
  refine fun h => .inl ?_
  obtain ⟨n, hn, hp⟩ := (Option.any_eq_true _ _).1 h
  refine (Option.any_eq_true _ _).2 ⟨n, hn, ?_⟩
  by_cases hx : x = id
  · exact hf n (by simpa [hx] using hp)
  · simpa [hx] using hp

theorem of_slotsOnly (h : SlotsOnly s s') : Quiet p s s' := by
  refine ⟨congrArg (·.failureReports) h.rest, fun x hx => .inl ?_⟩
  have hflag := congrArg (Option.any (fun b => b)) (h.map (g := (·.flags.has .pfail)) (fun _ => rfl) x)
  rw [Option.any_map, Option.any_map] at hflag
  exact hflag.symm.trans hx

theorem setFail (s : ClusterState) (id : Bytes) :
    Quiet p s (s.modifyNode id fun n => { n with flags := (n.flags.clear .pfail).set .fail }) :=
  modifyNode fun n => by simp

theorem mergeHeader (s : ClusterState) (m : Message) : Quiet p s (s.mergeFromMessage { m with entries := [] }) := by
  have hmeet (s : ClusterState) : Quiet p s (s.meetSender m.header.senderID) := by
    rw [meetSender]
    split
    · exact set fun h => absurd h (show ¬(Flags.set 0 .master).has .pfail = true by decide)
    · exact refl s
  have hheader (s : ClusterState) : Quiet p s (s.mergeHeader { m with entries := [] }) := by
    rw [ClusterState.mergeHeader]
    split
    · exact (hmeet s).trans ((modifyNode (f := updateSender m) fun _ => id).trans
        (of_slotsOnly (.foldl (.adoptSlot m.header) _ _)))
    · exact hmeet s
  rw [mergeFromMessage]
  split
  · exact ⟨(hheader _).reports, (hheader _).pfail⟩
  · exact hheader s

theorem mergeEntry {e : GossipEntry} (h : s.records e = false) (senderID : Bytes) :
    Quiet (fun x => x = e.id ∧ e.flags.has .pfail = true) s (s.mergeEntry senderID e) := by
  rw [ClusterState.mergeEntry]
  split
  · exact refl s
  cases hn : s.nodes.get e.id with
  | none => exact set fun hp => ⟨rfl, hp⟩
  | some n =>
    dsimp only
    split
    · exact setFail s e.id
    · split
      · simp_all [records]
      · exact refl s

theorem markNodeFail (s : ClusterState) (id : Bytes) : Quiet p s (s.markNodeFail id) := by
  rw [ClusterState.markNodeFail]
  split
  · exact refl s
  · split
    · exact setFail s id
    · exact refl s

end Quiet

namespace Detector

variable {d d' : Detector}

/-- The reports are those heard last of each reporter, and who has answered is not PFAIL. -/
structure Inv (d : Detector) : Prop where
  nodup : ∀ id, (d.state.failureReports id).Nodup
  heard : ∀ id, ∀ r ∈ d.state.failureReports id, ⟨d.times id r, id, r⟩ ∈ d.heard
  answered : ∀ x, d.answered x = true → d.state.hasFlag x .pfail = false

theorem Inv.quiet {p : Bytes → Prop} (h : d.Inv) (hq : Quiet p d.state d'.state) (htimes : d'.times = d.times)
    (hheard : d.heard ⊆ d'.heard) (hanswered : ∀ x, d'.answered x = true → d.state.hasFlag x .pfail = false ∧ ¬p x) :
    d'.Inv where
  nodup id := hq.reports ▸ h.nodup id
  heard id r hr := by
    rw [hq.reports] at hr
    exact htimes ▸ hheard (h.heard id r hr)
  answered x hx := by
    obtain ⟨hpfail, hp⟩ := hanswered x hx
    exact Bool.eq_false_iff.2 fun hx' => (hq.pfail x hx').elim (by simp [hpfail]) hp

theorem Inv.report (h : d.Inv) (r : Report) :
    Inv { (d.hear r).record r with state := d.state.setPFail r.node r.reporter } where
  nodup := nodup_setPFail h.nodup
  heard id x hx := by
    by_cases hnew : id = r.node ∧ x = r.reporter
    · simp [record, hear, hnew]
    have hx := h.heard id x ((mem_setPFail.1 hx).resolve_right hnew)
    have htimes : ((d.hear r).record r).times id x = d.times id x := by
      simp only [record, hear, Function.update_apply]
      grind
    exact List.mem_cons_of_mem r (htimes ▸ hx)
  answered x hx := by
    obtain ⟨hne, hx⟩ : x ≠ r.node ∧ d.answered x = true := by
      by_cases hne : x = r.node <;> simp_all [record, hear]
    simpa [hasFlag, setPFail, addReport, modifyNode, GoMap.get_modify_of_ne hne] using h.answered x hx

theorem Inv.mergeEntry (h : d.Inv) (m : Message) (e : GossipEntry) : (d.mergeEntry m e).Inv := by
  cases hrec : d.state.records e with
  | true =>
    obtain ⟨hpfail, hmerge⟩ := mergeEntry_of_records hrec m.header.senderID
    simpa [Detector.mergeEntry, hrec, hpfail, hmerge] using h.report ⟨m.now, e.id, m.header.senderID⟩
  | false =>
    have hq := Quiet.mergeEntry hrec m.header.senderID
    rw [Detector.mergeEntry, if_neg (by simp [hrec])]
    split
    · refine h.quiet hq rfl (List.subset_cons_self _ _) fun x hx => ?_
      by_cases hne : x = e.id <;> simp_all [hear, h.answered x]
    · exact h.quiet hq rfl (List.Subset.refl _) fun x hx => ⟨h.answered x hx, fun hp => ‹¬_› hp.2⟩

theorem Inv.step {b : Beat} (h : d.Inv) (hb : d.Meets b) : (d.step b).Inv := by
  cases b with
  | message m =>
    refine foldl_invariant (fun _ e h => h.mergeEntry m e) ?_ m.entries
    refine h.quiet (Quiet.mergeHeader d.state m) rfl (List.Subset.refl _) fun x hx => ⟨?_, id⟩
    split at hx
    · by_cases hne : x = m.header.senderID
      · exact hne ▸ hb ‹_›
      · exact h.answered x (by simpa [hne] using hx)
    · exact h.answered x hx
  | markPFail id now timeout =>
    cases htimed : d.state.timedOut id now timeout with
    | true => simpa [Detector.step, htimed, markPFail_eq] using h.report ⟨now, id, d.state.self⟩
    | false => simpa [Detector.step, htimed, markPFail_eq] using h
  | markNodeFail id _ _ =>
    exact h.quiet (Quiet.markNodeFail d.state id) rfl (List.Subset.refl _) fun x hx => ⟨h.answered x hx, False.elim⟩

/-- Who is marked FAIL has a quorum of reports, and these are recent. -/
theorem Inv.sound {b : Beat} (h : d.Inv) (hb : d.Meets b) : d.Sound b := by
  refine ⟨?_, (h.step hb).answered⟩
  rintro id now timeout rfl - hfail hmarked
  have hquorum : d.state.hasQuorum id = true := by
    by_contra hq
    have hkept : d.state.markNodeFail id = d.state := by
      rw [markNodeFail]
      split <;> simp [hq]
    rw [Detector.step, hkept, hfail] at hmarked
    cases hmarked
  refine ⟨_, (h.nodup id).filter _, of_decide_eq_true hquorum, fun r hr => ?_⟩
  obtain ⟨hr, hmaster⟩ := List.mem_filter.1 hr
  have hmaster := (of_decide_eq_true hmaster).2
  exact ⟨hmaster, _, h.heard id r hr, hb r hr hmaster⟩

/-- In every run in which the reports of a node that is to be marked are recent, and no node answers that is
PFAIL. -/
theorem fresh_run {id ip : Bytes} {port : Int64} {startEpoch : UInt64} {bs : List Beat}
    (h : Guarded step Meets { state := newClusterState id ip port startEpoch } bs) :
    Guarded step Sound { state := newClusterState id ip port startEpoch } bs := by
  have hstart : Inv { state := newClusterState id ip port startEpoch } :=
    ⟨fun _ => List.nodup_nil, fun _ _ hr => (by cases hr), fun _ hx => (by cases hx)⟩
  exact h.imp_of_run (fun _ _ hd hb => hd.step hb) (fun _ _ hd hb => hd.sound hb) hstart

instance (d : Detector) : DecidablePred d.Meets
  | .message _ => inferInstanceAs (Decidable (_ → _))
  | .markPFail _ _ _ => .isTrue trivial
  | .markNodeFail _ _ _ => inferInstanceAs (Decidable (∀ r ∈ _, _))

/-- The node `n`, and a message of another one at a time, with what it says about nodes. -/
def lone : Detector := { state := newClusterState "n" [] 0 1 }

def bus (msgType : MsgType) (sender : Bytes) (now : Int64) (entries : List GossipEntry) : Beat :=
  .message ⟨⟨msgType, 0, 0, 0, 0, Flags.set 0 .master, sender, 0⟩, entries, [], now⟩

/-- `x` answers and goes silent, and `a` reports it at a time; in the end `n` counts the reports. -/
def reported (time : Int64) : List Beat :=
  [bus .pong "x" 1 [], bus .ping "a" time [{ id := "x", flags := Flags.set 0 .pfail }],
    .markPFail "x" 1000000 1000, .markNodeFail "x" 1000000 1000]

theorem fresh_run_fails : Guarded step Meets lone (reported 999000) ∧ Guarded step Sound lone (reported 999000) ∧
    ((reported 999000).foldl step lone).state.hasFlag "x" .fail = true := by
  have hrun : Guarded step Meets lone (reported 999000) ∧
      ((reported 999000).foldl step lone).state.hasFlag "x" .fail = true := by
    decide +kernel
  exact ⟨hrun.1, fresh_run hrun.1, hrun.2⟩

/-- A report of long ago makes the majority. -/
theorem stale_fails : ¬Guarded step Sound lone (reported 1) := by
  intro h
  obtain ⟨-, -, -, ⟨h, -⟩, -⟩ := h
  have hrun : let d := ((reported 1).take 3).foldl step lone
      d.heard = [⟨1000000, "x", "n"⟩, ⟨1, "x", "a"⟩] ∧ d.state.masterCount = 3 ∧
      d.state.hasFlag "x" .pfail = true ∧ d.state.hasFlag "x" .fail = false ∧
      (d.step (.markNodeFail "x" 1000000 1000)).state.hasFlag "x" .fail = true := by
    decide +kernel
  obtain ⟨hheard, hcount, hpfail, hfail, hmarked⟩ := hrun
  obtain ⟨rs, hnodup, hlen, hrs⟩ := h _ _ _ rfl hpfail hfail hmarked
  have hsub : rs ⊆ ["n"] := by
    intro r hr
    obtain ⟨-, t, ht, hfresh⟩ := hrs r hr
    rcases List.mem_pair.1 (hheard ▸ ht : _ ∈ [_, _]) with ht | ht <;> cases ht
    · exact List.mem_singleton_self _
    · exact absurd hfresh (by decide)
  have hle : rs.length ≤ 1 := (hnodup.subperm hsub).length_le
  have hlen : 3 / 2 + 1 ≤ rs.length := hcount ▸ hlen
  omega

end Detector

end Hayakv.Cluster
