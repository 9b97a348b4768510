import Hayakv.Cluster.State

/-!
# `nodes.conf`

`save` writes a line for each node, in the order of a loop over the node map, and a
last line of variables. `load` reads them into the state of a process that starts.

The loop over the words of the last line goes in steps of two from the word `vars` on,
and so reads neither of the two epochs (`loadLine_varsLine`): a state is restored if and
only if the process that starts happens to have its epochs (`load_save_iff`).
-/

namespace Hayakv.Cluster.ClusterState

open ClusterNode List GoMap

def varsLine (s : ClusterState) : Bytes :=
  unwords [str "vars", str "currentEpoch", itoa s.epoch.toNat, str "lastVoteEpoch", itoa s.lastVoteEpoch.toNat]

/-- The file that `save` writes, with the nodes in the order of the loop. -/
def save (s : ClusterState) (order : List Bytes) : Bytes :=
  unlines (order.filterMap (fun id => (s.nodes.get id).map nodesLine) ++ [s.varsLine])

/-- What `load` has read so far. -/
structure Loading where
  nodes : GoMap Bytes ClusterNode
  self : Option Bytes
  slots : Nat → Option Bytes
  epoch : UInt64
  lastVoteEpoch : UInt64

/-- The loop over the words of a line of variables. -/
def loadVars (st : Loading) : List Bytes → Loading
  | name :: value :: rest =>
    let st := if name = str "currentEpoch" then { st with epoch := atou value } else st
    let st := if name = str "lastVoteEpoch" then { st with lastVoteEpoch := atou value } else st
    loadVars st rest
  | _ => st

/-- A line is read. The result is `none` if the index of a slot is out of range, which panics, and for a
second line of a node: the first one's object would then own slots without being in the map. -/
def loadLine (st : Loading) (line : Bytes) : Option Loading :=
  let line := trimSpace line
  if line = [] then some st
  else if (str "vars ").isPrefixOf line then some (loadVars st (fields line))
  else match parseNodeLine line with
    | none => some st
    | some (n, slots, isSelf) =>
      if slots.any (slotCount ≤ ·) ∨ (st.nodes.get n.id).isSome then none
      else some { st with
        nodes := st.nodes.set n.id (slots.foldl ClusterNode.addSlot n)
        self := if isSelf then some n.id else st.self
        slots := slots.foldl (fun f slot => Function.update f slot (some n.id)) st.slots }

/-- The process that starts with the state `s` reads a file. Without a line of its own the node would
not be in its map: `none`. -/
def load (s : ClusterState) (text : Bytes) : Option ClusterState := do
  let st ← (lines text).foldlM loadLine ⟨∅, none, fun _ => none, s.epoch, s.lastVoteEpoch⟩
  let self ← st.self
  return { s with self, nodes := st.nodes, slots := st.slots, epoch := st.epoch, lastVoteEpoch := st.lastVoteEpoch }

/-! ## Lines -/

theorem word_varsLine (s : ClusterState) : ∀ w ∈ [str "vars", str "currentEpoch", itoa s.epoch.toNat,
    str "lastVoteEpoch", itoa s.lastVoteEpoch.toNat], Word w := by
  intro w hw
  simp only [mem_cons, not_mem_nil, or_false] at hw
  rcases hw with rfl | rfl | rfl | rfl | rfl
  · decide
  · decide
  · exact word_itoa _
  · decide
  · exact word_itoa _

theorem loadLine_varsLine (s : ClusterState) (st : Loading) : loadLine st s.varsLine = some st := by
  have hword := word_varsLine s
  -- a number is not the name of a variable
  have hnumber : ∀ v : Bytes, (∃ b ∈ v, isDigit b = false) → itoa s.epoch.toNat ≠ v := by
    rintro v ⟨b, hb, hdigit⟩ rfl
    simp [isDigit_of_mem_itoa hb] at hdigit
  have htrim : trimSpace s.varsLine = s.varsLine := trimSpace_unwords hword
  have hvars : s.varsLine = str "vars " ++ unwords [str "currentEpoch", itoa s.epoch.toNat, str "lastVoteEpoch",
      itoa s.lastVoteEpoch.toNat] := by
    rfl
  have hprefix : (str "vars ").isPrefixOf s.varsLine = true := by
    rw [hvars, isPrefixOf_iff_prefix]
    exact prefix_append _ _
  have hne : s.varsLine ≠ [] := by
    exact append_ne_nil_of_left_ne_nil (by decide) _
  rw [loadLine, htrim, if_neg hne, if_pos hprefix, varsLine, fields_unwords hword]
  simp only [loadVars, if_neg (show str "vars" ≠ str "currentEpoch" by decide),
    if_neg (show str "vars" ≠ str "lastVoteEpoch" by decide),
    if_neg (hnumber (str "currentEpoch") ⟨99, by decide, by decide⟩),
    if_neg (hnumber (str "lastVoteEpoch") ⟨108, by decide, by decide⟩)]

theorem not_isPrefixOf_nodesLine {n : ClusterNode} (h : n.Plain) (hvars : n.id ≠ str "vars") :
    (str "vars ").isPrefixOf n.nodesLine = false := by
  have hspace : (32 : UInt8) ∉ n.id := fun hmem => absurd (h.id 32 hmem) (by decide)
  have hcut : ∃ rest, cut 32 n.nodesLine = some (n.id, rest) :=
    ⟨_, by rw [nodesLine, words, cons_append, cons_append, unwords_cons, cut_append hspace]⟩
  obtain ⟨rest, hcut⟩ := hcut
  rw [Bool.eq_false_iff, ne_eq, isPrefixOf_iff_prefix]
  rintro ⟨t, ht⟩
  have hcut' : cut 32 n.nodesLine = some (str "vars", t) := by
    rw [← ht]
    exact cut_append (x := str "vars") (by decide)
  exact hvars (Prod.ext_iff.1 (Option.some.inj (hcut.symm.trans hcut'))).1

/-- A node with its slots is added to what has been read. -/
def Loading.withNode (st : Loading) (n : ClusterNode) : Loading :=
  { st with
    nodes := st.nodes.set n.id n.reloaded
    self := if n.flags.has .myself then some n.id else st.self
    slots := fun slot => if n.hasSlot slot then some n.id else st.slots slot }

theorem loadLine_nodesLine {n : ClusterNode} (h : n.Plain) (hvars : n.id ≠ str "vars") {st : Loading}
    (hnew : st.nodes.get n.id = none) : loadLine st n.nodesLine = some (st.withNode n) := by
  have htrim : trimSpace n.nodesLine = n.nodesLine := trimSpace_unwords h.words
  have hne : n.nodesLine ≠ [] := fun hnil => by
    have hfields := fields_unwords h.words
    rw [← nodesLine, hnil] at hfields
    simp [words, fields] at hfields
  have hrange : ¬((allSlots.filter n.hasSlot).any (slotCount ≤ ·) = true ∨ (st.nodes.get n.parsed.id).isSome) := by
    rw [show n.parsed.id = n.id from rfl, hnew]
    simp only [any_filter, any_eq_true, mem_allSlots, Bool.and_eq_true, decide_eq_true_eq,
      Option.isSome_none, Bool.false_eq_true, or_false, not_exists, not_and, not_le]
    exact fun slot hslot _ => hslot
  have hslots : ∀ (l : List Nat) (f : Nat → Option Bytes) (slot : Nat),
      l.foldl (fun f slot => Function.update f slot (some n.id)) f slot = if slot ∈ l then some n.id else f slot := by
    intro l
    induction l with
    | nil => simp
    | cons a l ih =>
      intro f slot
      rw [foldl_cons, ih]
      by_cases hs : slot = a
      · simp [hs]
      · simp [hs]
  have howners : (allSlots.filter n.hasSlot).foldl
      (fun f slot => Function.update f slot (some n.parsed.id)) st.slots =
        fun slot => if n.hasSlot slot then some n.id else st.slots slot := by
    funext slot
    refine (hslots _ _ slot).trans (if_congr ?_ rfl rfl)
    rw [mem_filter, mem_allSlots]
    exact and_iff_right_of_imp hasSlot_lt
  rw [loadLine, htrim, if_neg hne, if_neg (by simp [not_isPrefixOf_nodesLine h hvars]), parseNodeLine_nodesLine h]
  dsimp only
  rw [if_neg hrange, foldl_addSlot_filter n rfl, howners]
  rfl

/-! ## Files -/

/-- The nodes are listed under their ids, and their texts are words that do not look like variables. -/
structure Readable (s : ClusterState) : Prop where
  id : ∀ {id n}, s.nodes.get id = some n → n.id = id
  plain : ∀ {id n}, s.nodes.get id = some n → n.Plain
  vars : ∀ {id n}, s.nodes.get id = some n → id ≠ str "vars"

/-- A slot is owned by a node exactly when the bitmap of the node has it. -/
def Consistent (s : ClusterState) : Prop :=
  ∀ slot id, s.slots slot = some id ↔ ∃ n, s.nodes.get id = some n ∧ n.hasSlot slot = true

def isMyself (s : ClusterState) (id : Bytes) : Bool := (s.nodes.get id).any (·.flags.has .myself)

variable {s : ClusterState} {order : List Bytes}

theorem foldlM_loadLine (h : s.Readable) (hc : s.Consistent) (ids : List Bytes) (hnd : ids.Nodup)
    (hmem : ∀ id ∈ ids, (s.nodes.get id).isSome) (st : Loading) (hnew : ∀ id ∈ ids, st.nodes.get id = none) :
    ∃ nodes, (∀ id, nodes.get id = if id ∈ ids then (s.nodes.get id).map reloaded else st.nodes.get id) ∧
      (ids.filterMap fun id => (s.nodes.get id).map nodesLine).foldlM loadLine st = some { st with
        nodes
        self := (ids.filter s.isMyself).getLast?.or st.self
        slots := fun slot => ((s.slots slot).filter (· ∈ ids)).or (st.slots slot) } := by
  induction ids generalizing st with
  | nil => exact ⟨st.nodes, by simp, by simp⟩
  | cons id ids ih =>
    obtain ⟨hid, hnd'⟩ := nodup_cons.1 hnd
    obtain ⟨n, hn⟩ := Option.isSome_iff_exists.1 (hmem id mem_cons_self)
    obtain rfl := h.id hn
    have hline := loadLine_nodesLine (h.plain hn) (h.vars hn) (hnew n.id mem_cons_self)
    have hnew' : ∀ x ∈ ids, (st.withNode n).nodes.get x = none := fun x hx => by
      have hne : x ≠ n.id := fun hxn => hid (hxn ▸ hx)
      exact (get_set_of_ne hne).trans (hnew x (mem_cons_of_mem _ hx))
    obtain ⟨nodes, hnodes, hrest⟩ := ih hnd' (fun x hx => hmem x (mem_cons_of_mem _ hx)) (st.withNode n) hnew'
    refine ⟨nodes, fun x => ?_, ?_⟩
    · rw [hnodes, Loading.withNode, get_set]
      by_cases hx : x = n.id
      · simp [hx, hid, hn]
      · simp [hx]
    · have hself : ((n.id :: ids).filter s.isMyself).getLast?.or st.self =
          (ids.filter s.isMyself).getLast?.or (st.withNode n).self := by
        have hmyself : s.isMyself n.id = n.flags.has .myself := by rw [isMyself, hn]; rfl
        rw [filter_cons, hmyself, Loading.withNode]
        by_cases hflag : n.flags.has .myself = true
        · rw [if_pos hflag, getLast?_cons]
          cases (ids.filter s.isMyself).getLast? <;> simp [hflag]
        · simp [hflag]
      have hslots : (fun slot => ((s.slots slot).filter (· ∈ n.id :: ids)).or (st.slots slot)) =
          fun slot => ((s.slots slot).filter (· ∈ ids)).or ((st.withNode n).slots slot) := by
        funext slot
        have howner : s.slots slot = some n.id ↔ n.hasSlot slot = true := by
          rw [hc]
          simp [hn]
        rw [Loading.withNode]
        by_cases hslot : n.hasSlot slot = true
        · simp [Option.filter, howner.2 hslot, hslot, hid]
        cases hown : s.slots slot with
        | none => simp [hslot]
        | some x =>
          have hx : x ≠ n.id := fun hxn => hslot (howner.1 (hxn ▸ hown))
          simp [Option.filter, hslot, hx]
      rw [filterMap_cons_some (by rw [hn]; rfl), foldlM_cons, hline, hself, hslots]
      exact hrest

theorem lines_save (h : s.Readable) : lines (s.save order) =
    order.filterMap (fun id => (s.nodes.get id).map nodesLine) ++ [s.varsLine] := by
  refine lines_unlines fun l hl => ?_
  rcases mem_append.1 hl with hl | hl
  · obtain ⟨id, -, hline⟩ := mem_filterMap.1 hl
    obtain ⟨n, hn, rfl⟩ := Option.map_eq_some_iff.1 hline
    have hwords := (h.plain hn).words
    exact ⟨not_mem_unwords hwords rfl (by decide), not_mem_unwords hwords rfl (by decide)⟩
  · obtain rfl := mem_singleton.1 hl
    have hwords := word_varsLine s
    exact ⟨not_mem_unwords hwords rfl (by decide), not_mem_unwords hwords rfl (by decide)⟩

/-- A file of plain words is read back: the nodes as their lines tell, the slots, and as self the last
node that is marked so. The epochs are those of the process that starts. -/
theorem load_save (fresh : ClusterState) (h : s.Readable) (hc : s.Consistent) (ho : Ranges order s.nodes.get) :
    ∃ nodes : GoMap Bytes ClusterNode, (∀ id, nodes.get id = (s.nodes.get id).map reloaded) ∧
      fresh.load (s.save order) = (order.filter s.isMyself).getLast?.map fun self =>
        { fresh with self, nodes, slots := s.slots } := by
  obtain ⟨nodes, hnodes, hfold⟩ := foldlM_loadLine h hc order ho.1 (fun id hid => (ho.2 id).1 hid)
    ⟨∅, none, fun _ => none, fresh.epoch, fresh.lastVoteEpoch⟩ fun _ _ => get_empty
  have hget : ∀ id, nodes.get id = (s.nodes.get id).map reloaded := by
    intro id
    rw [hnodes]
    split
    · rfl
    · rename_i hid
      rw [Option.not_isSome_iff_eq_none.1 (mt (ho.2 id).2 hid)]
      exact get_empty
  have hslots : (fun slot => (s.slots slot).filter (· ∈ order)) = s.slots := by
    funext slot
    cases hown : s.slots slot with
    | none => rfl
    | some id =>
      obtain ⟨n, hn, -⟩ := (hc slot id).1 hown
      simp [Option.filter, (ho.2 id).2 (hn ▸ rfl)]
  refine ⟨nodes, hget, ?_⟩
  rw [load, lines_save h, foldlM_append, hfold]
  simp only [Option.bind_eq_bind, Option.bind_some, foldlM_cons, foldlM_nil, loadLine_varsLine,
    Option.pure_def, Option.or_none, hslots]
  cases (order.filter s.isMyself).getLast? <;> rfl

/-! ## What is restored -/

/-- Nothing is lost in the file but the epochs: the texts can be read back exactly, only self is marked as
myself, and the slot map agrees with the bitmaps. -/
structure Legible (s : ClusterState) : Prop extends s.Readable where
  exact : ∀ {id n}, s.nodes.get id = some n → n.Exact
  known : (s.nodes.get s.self).isSome
  myself : ∀ {id n}, s.nodes.get id = some n → (n.flags.has .myself = true ↔ id = s.self)
  consistent : s.Consistent

/-- The process that starts has after `load` the nodes, the slot map and the epochs of the state that was
saved. -/
def Restores (fresh s : ClusterState) (order : List Bytes) : Prop :=
  ∃ s', fresh.load (s.save order) = some s' ∧ s'.self = s.self ∧ s'.nodes = s.nodes ∧ s'.slots = s.slots ∧
    s'.epoch = s.epoch ∧ s'.lastVoteEpoch = s.lastVoteEpoch

theorem load_save_legible (fresh : ClusterState) (h : s.Legible) (ho : Ranges order s.nodes.get) :
    fresh.load (s.save order) = some { fresh with self := s.self, nodes := s.nodes, slots := s.slots } := by
  obtain ⟨nodes, hnodes, hload⟩ := load_save fresh h.toReadable h.consistent ho
  have hsame : nodes = s.nodes := ext fun id => by
    rw [hnodes]
    cases hn : s.nodes.get id with
    | none => rfl
    | some n => exact congrArg some (reloaded_eq (h.exact hn))
  have hmyself : order.filter s.isMyself = [s.self] := by
    have hfilter : order.filter s.isMyself = order.filter (· == s.self) := filter_congr fun id hid => by
      obtain ⟨n, hn⟩ := Option.isSome_iff_exists.1 ((ho.2 id).1 hid)
      rw [isMyself, hn, Option.any_some, Bool.eq_iff_iff, h.myself hn, beq_iff_eq]
    rw [hfilter, filter_beq, count_eq_one_of_mem ho.1 ((ho.2 s.self).2 h.known)]
    rfl
  rw [hload, hmyself, hsame]
  rfl

/-- A state is restored if and only if its epochs are those of the process that starts. -/
theorem load_save_iff (fresh : ClusterState) (h : s.Legible) (ho : Ranges order s.nodes.get) :
    Restores fresh s order ↔ s.epoch = fresh.epoch ∧ s.lastVoteEpoch = fresh.lastVoteEpoch := by
  have hload := load_save_legible fresh h ho
  constructor
  · rintro ⟨s', hs', -, -, -, hepoch, hvote⟩
    rw [hload, Option.some.injEq] at hs'
    subst hs'
    exact ⟨hepoch.symm, hvote.symm⟩
  · rintro ⟨hepoch, hvote⟩
    exact ⟨_, hload, rfl, rfl, rfl, hepoch.symm, hvote.symm⟩

/-! ## A master that votes twice -/

/-- A master with a slot, a failed master and two replicas of the failed one. -/
def voterNodes : List ClusterNode :=
  [ClusterNode.addSlot { id := [97], flags := (Flags.set 0 .master).set .myself, linkUp := true } 5,
    { id := [98], flags := (Flags.set 0 .master).set .fail },
    { id := [99], flags := Flags.set 0 .slave, masterID := [98], linkUp := true },
    { id := [100], flags := Flags.set 0 .slave, masterID := [98], linkUp := true }]

def voterIDs : List Bytes := [[97], [98], [99], [100]]

def voter (epoch lastVoteEpoch : UInt64) : ClusterState where
  self := [97]
  nodes := ofList ClusterNode.id voterNodes
  slots slot := if slot = 5 then some [97] else none
  epoch := epoch
  lastVoteEpoch := lastVoteEpoch
  failureReports _ := []
  failoverState := none

theorem hasSlot_voterNodes {n : ClusterNode} (hn : n ∈ voterNodes) (slot : Nat) :
    n.hasSlot slot = true ↔ n.id = [97] ∧ slot = 5 := by
  simp only [voterNodes, List.mem_cons, List.not_mem_nil, or_false] at hn
  rcases hn with rfl | rfl | rfl | rfl
  · rw [ClusterNode.hasSlot_addSlot]
    simp [ClusterNode.hasSlot, ClusterNode.addSlot, show 5 < slotCount by decide]
  all_goals simp [ClusterNode.hasSlot]

theorem legible_voter (epoch lastVoteEpoch : UInt64) : (voter epoch lastVoteEpoch).Legible := by
  have hall : ∀ n ∈ voterNodes, n.Plain ∧ n.id ≠ str "vars" ∧ n.Exact ∧
      (n.flags.has .myself = true ↔ n.id = [97]) := by decide
  have hget : ∀ {id n}, (voter epoch lastVoteEpoch).nodes.get id = some n → n ∈ voterNodes ∧ n.id = id := get_ofList
  have hself : ((ofList ClusterNode.id voterNodes).get [97]).isSome := by decide
  refine ⟨⟨fun h => (hget h).2, fun h => (hall _ (hget h).1).1, fun h => (hget h).2 ▸ (hall _ (hget h).1).2.1⟩,
    fun h => (hall _ (hget h).1).2.2.1, hself, fun h => (hget h).2 ▸ (hall _ (hget h).1).2.2.2, fun slot id => ?_⟩
  constructor
  · intro h
    obtain ⟨rfl, rfl⟩ : slot = 5 ∧ [97] = id := by simpa [voter] using h
    obtain ⟨n, hn⟩ := Option.isSome_iff_exists.1 hself
    exact ⟨n, hn, (hasSlot_voterNodes (hget hn).1 5).2 ⟨(hget hn).2, rfl⟩⟩
  · rintro ⟨n, hn, hslot⟩
    obtain ⟨hmem, rfl⟩ := hget hn
    obtain ⟨hid, rfl⟩ := (hasSlot_voterNodes hmem slot).1 hslot
    simp [voter, hid]

theorem ranges_voter (epoch lastVoteEpoch : UInt64) : Ranges voterIDs (voter epoch lastVoteEpoch).nodes.get := by
  refine ⟨by decide, fun id => ⟨fun hid => ?_, fun hid => ?_⟩⟩
  · have hall : ∀ id ∈ voterIDs, ((ofList ClusterNode.id voterNodes).get id).isSome := by decide
    exact hall id hid
  · obtain ⟨n, hn⟩ := Option.isSome_iff_exists.1 hid
    obtain ⟨hmem, rfl⟩ := get_ofList hn
    have hall : ∀ n ∈ voterNodes, n.id ∈ voterIDs := by decide
    exact hall n hmem

/-- A process that starts in the epoch of the file, and has not voted, restores a state without votes. -/
theorem load_save_iff_voter : (voter 7 0).Legible ∧ Ranges voterIDs (voter 7 0).nodes.get ∧
      Restores (newClusterState [120] [] 7000 7) (voter 7 0) voterIDs :=
  ⟨legible_voter 7 0, ranges_voter 7 0,
    (load_save_iff (newClusterState [120] [] 7000 7) (legible_voter 7 0) (ranges_voter 7 0)).2 ⟨rfl, rfl⟩⟩

/-- The master votes in epoch 7, saves and starts again. It has forgotten the vote, and votes for the other
replica in the same epoch. -/
theorem votes_again : (voter 7 0).grantVote [99] [98] 7 = (voter 7 7, true) ∧ (voter 7 7).Legible ∧
      Ranges voterIDs (voter 7 7).nodes.get ∧
      ¬Restores (newClusterState [120] [] 7000 7) (voter 7 7) voterIDs ∧
      ∃ s, (newClusterState [120] [] 7000 7).load ((voter 7 7).save voterIDs) = some s ∧
        (s.grantVote [100] [98] 7).2 = true := by
  have hload := load_save_legible (newClusterState [120] [] 7000 7) (legible_voter 7 7) (ranges_voter 7 7)
  refine ⟨?_, legible_voter 7 7, ranges_voter 7 7, ?_, _, hload, ?_⟩
  · have hgrants : (voter 7 0).grants [99] [98] 7 = true := by decide
    rfl
  · rintro ⟨s, hs, -, -, -, -, hvote⟩
    rw [hload, Option.some.injEq] at hs
    subst hs
    exact absurd hvote (by decide)
  · have hgrants : grants { newClusterState [120] [] 7000 7 with
        self := (voter 7 7).self, nodes := (voter 7 7).nodes, slots := (voter 7 7).slots } [100] [98] 7 = true := by
      decide
    rw [grantVote, if_pos hgrants]

end Hayakv.Cluster.ClusterState
