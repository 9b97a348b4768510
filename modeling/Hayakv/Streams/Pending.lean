import Hayakv.Cmd.StreamGroups
import Hayakv.Lib.Chained
import Hayakv.Lib.Guarded
import Hayakv.Object.SimpleDict

/-!
# The pending entries of a consumer group

That an entry is pending is stored twice, in the table of the group and in that of a
consumer. `Linked`: the two tables hold the same pointers, each with the consumer that its
entry records. The methods of a group keep this, except that `ReadNew` and
`RestorePending` give an entry to a consumer without taking it from the one that has it.
-/

namespace Hayakv.Streams

open Engine List Group
open Option (bind_some isSome_iff_exists some)

variable {g : Group} {name n : Bytes} {id k : StreamID}

/-- The pointer under which an entry is pending for a consumer. -/
def pendingFor (g : Group) (name : Bytes) (id : StreamID) : Option Nat :=
  (g.consumers.lookup name).bind fun c => c.pending.lookup id

structure Linked (g : Group) : Prop where
  names : (g.consumers.map Prod.fst).Nodup
  ids : (g.pending.map Prod.fst).Nodup
  consumerIds : ∀ name c, g.consumers.lookup name = some c → (c.pending.map Prod.fst).Nodup
  valid : ∀ id p, g.pending.lookup id = some p → p < g.pendingEntries.length
  injective : ∀ id id' p, g.pending.lookup id = some p → g.pending.lookup id' = some p → id = id'
  /-- An entry is pending for the consumer that it records. -/
  owned : ∀ id p pe, g.pending.lookup id = some p → g.pendingEntries[p]? = some pe →
    pendingFor g pe.consumer id = some p
  /-- What is pending for a consumer is pending in the group, and records the consumer. -/
  recorded : ∀ name id p, pendingFor g name id = some p →
    g.pending.lookup id = some p ∧ ∃ pe, g.pendingEntries[p]? = some pe ∧ pe.consumer = name

/-! ## The tables after a change -/

theorem lookup_modifyConsumer (g : Group) (name n : Bytes) (f : Consumer → Consumer) :
    (g.modifyConsumer name f).consumers.lookup n =
      if n = name then (g.consumers.lookup n).map f else g.consumers.lookup n := by
  simp only [modifyConsumer]
  induction g.consumers with
  | nil => simp
  | cons e es ih =>
    grind

theorem names_modifyConsumer (g : Group) (name : Bytes) (f : Consumer → Consumer) :
    (g.modifyConsumer name f).consumers.map Prod.fst = g.consumers.map Prod.fst := by
  simp only [modifyConsumer, map_map]
  refine map_congr_left fun e _ => ?_
  simp only [Function.comp]
  split <;> rfl

theorem pendingFor_modifyConsumer (g : Group) (name n : Bytes) (f : Consumer → Consumer) (k : StreamID) :
    pendingFor (g.modifyConsumer name f) n k =
      if n = name then (g.consumers.lookup n).bind fun c => (f c).pending.lookup k else pendingFor g n k := by
  rw [pendingFor, lookup_modifyConsumer]
  split
  · rw [Option.bind_map]
    rfl
  · rfl

structure Tidy (consumers : List (Bytes × Consumer)) : Prop where
  names : (consumers.map Prod.fst).Nodup
  ids : ∀ name c, consumers.lookup name = some c → (c.pending.map Prod.fst).Nodup

theorem Linked.tidy (h : Linked g) : Tidy g.consumers := ⟨h.names, h.consumerIds⟩

variable {f : Consumer → Consumer}

theorem Tidy.modifyConsumer (h : Tidy g.consumers) (name : Bytes)
    (hf : ∀ c, (c.pending.map Prod.fst).Nodup → ((f c).pending.map Prod.fst).Nodup) :
    Tidy (g.modifyConsumer name f).consumers := by
  refine ⟨by rw [names_modifyConsumer]; exact h.names, fun n c hc => ?_⟩
  rw [lookup_modifyConsumer] at hc
  split at hc
  · obtain ⟨c', hc', rfl⟩ := Option.map_eq_some_iff.1 hc
    exact hf c' (h.ids n c' hc')
  · exact h.ids n c hc

theorem Linked.congr (h : Linked g) {g' : Group} (ht : Tidy g'.consumers) (hentries : g'.pendingEntries = g.pendingEntries)
    (hpending : g'.pending = g.pending) (hfor : ∀ n k, pendingFor g' n k = pendingFor g n k) : Linked g' := by
  refine ⟨ht.names, hpending ▸ h.ids, ht.ids, ?_, ?_, ?_, ?_⟩
  · rw [hpending, hentries]
    exact h.valid
  · rw [hpending]
    exact h.injective
  · simp only [hpending, hentries, hfor]
    exact h.owned
  · simp only [hpending, hentries, hfor]
    exact h.recorded

theorem Linked.modifyConsumer (h : Linked g) (name : Bytes) (hf : ∀ c, (f c).pending = c.pending) :
    Linked (g.modifyConsumer name f) := by
  refine h.congr (h.tidy.modifyConsumer name fun c hc => by rwa [hf]) rfl rfl fun n k => ?_
  rw [pendingFor_modifyConsumer]
  split
  · simp only [hf]
    rfl
  · rfl

theorem lookup_append_of_none {α : Type} {es : List (Bytes × α)} {a : α} (h : es.lookup name = none) :
    (es ++ [(name, a)]).lookup n = if n = name then some a else es.lookup n := by
  rw [lookup_append]
  by_cases hn : n = name
  · simp [hn, h]
  · simp [lookup_cons, beq_eq_false_iff_ne.2 hn, hn]

theorem pendingFor_getOrCreateConsumer (g : Group) (name n : Bytes) (k : StreamID) :
    pendingFor (g.getOrCreateConsumer name) n k = pendingFor g n k := by
  simp only [getOrCreateConsumer]
  split
  · rfl
  rename_i hnone
  rw [pendingFor, pendingFor, lookup_append_of_none hnone]
  split
  · rename_i hn
    rw [hn, hnone]
    rfl
  · rfl

theorem isSome_getOrCreateConsumer (g : Group) (name : Bytes) :
    ((g.getOrCreateConsumer name).consumers.lookup name).isSome := by
  simp only [getOrCreateConsumer]
  split
  · rename_i hc
    rw [hc]
    rfl
  · rename_i hnone
    rw [lookup_append_of_none hnone, if_pos rfl]
    rfl

theorem pending_getOrCreateConsumer (g : Group) (name : Bytes) : (g.getOrCreateConsumer name).pending = g.pending ∧
      (g.getOrCreateConsumer name).pendingEntries = g.pendingEntries := by
  simp only [getOrCreateConsumer]
  split <;> exact ⟨rfl, rfl⟩

theorem Linked.getOrCreateConsumer (h : Linked g) (name : Bytes) : Linked (g.getOrCreateConsumer name) := by
  obtain ⟨hpending, hentries⟩ := pending_getOrCreateConsumer g name
  refine h.congr ?_ hentries hpending (pendingFor_getOrCreateConsumer g name)
  cases hc : g.consumers.lookup name with
  | some c =>
    rw [Group.getOrCreateConsumer, hc]
    exact h.tidy
  | none =>
    rw [Group.getOrCreateConsumer, hc]
    refine ⟨?_, fun n c hn => ?_⟩
    · rw [← Object.putField_of_notMem (by rw [← Object.isSome_lookup, hc]; simp)]
      exact Object.nodup_putField h.names
    · rw [lookup_append_of_none hc] at hn
      split at hn
      · cases hn
        exact nodup_nil
      · exact h.consumerIds n c hn

/-! ## Giving an entry to a consumer -/

theorem pendingEntry_eq_some {p : Nat} {pe : PendingEntry} :
    g.pendingEntry id = some (p, pe) ↔ g.pending.lookup id = some p ∧ g.pendingEntries[p]? = some pe := by
  simp only [pendingEntry, Option.bind_eq_some_iff, Option.map_eq_some_iff, Prod.mk.injEq]
  constructor
  · rintro ⟨q, hq, pe', hpe, rfl, rfl⟩
    exact ⟨hq, hpe⟩
  · rintro ⟨hp, hpe⟩
    exact ⟨p, hp, pe, hpe, rfl, rfl⟩

theorem Linked.entry (h : Linked g) {p : Nat} (hp : g.pending.lookup id = some p) :
    ∃ pe, g.pendingEntry id = some (p, pe) :=
  ⟨g.pendingEntries.get ⟨p, h.valid id p hp⟩, pendingEntry_eq_some.2 ⟨hp, getElem?_eq_getElem (h.valid id p hp)⟩⟩

section addPending

variable {pe : PendingEntry}

theorem lookup_addPending : (g.addPending id pe).pending.lookup k =
    if k = id then some g.pendingEntries.length else g.pending.lookup k := lookup_putField ..

theorem pendingFor_addPending (hname : (g.consumers.lookup pe.consumer).isSome) :
    pendingFor (g.addPending id pe) n k =
      if n = pe.consumer ∧ k = id then some g.pendingEntries.length else pendingFor g n k := by
  obtain ⟨c, hc⟩ := isSome_iff_exists.1 hname
  rw [addPending, pendingFor_modifyConsumer]
  by_cases hn : n = pe.consumer
  · subst hn
    simp only [hc, bind_some, lookup_putField, pendingFor, true_and, if_true]
  · simp only [hn, false_and, if_false]
    rfl

/-- The entry is given to the consumer that has it, or to any if none has it. -/
def Free (g : Group) (name : Bytes) (id : StreamID) : Prop :=
  ∀ p pe, g.pendingEntry id = some (p, pe) → pe.consumer = name

theorem Linked.free_of_pendingFor (h : Linked g) {p : Nat} (hp : pendingFor g name id = some p) : Free g name id := by
  intro q pe hq
  obtain ⟨hlook, pe', hpe', hname⟩ := h.recorded name id p hp
  obtain ⟨hlook', hpe⟩ := pendingEntry_eq_some.1 hq
  rw [hlook] at hlook'
  cases hlook'
  rw [hpe'] at hpe
  cases hpe
  exact hname

theorem Linked.addPending (h : Linked g) (hname : (g.consumers.lookup pe.consumer).isSome)
    (hfree : Free g pe.consumer id) : Linked (g.addPending id pe) := by
  have hentries : (g.addPending id pe).pendingEntries = g.pendingEntries ++ [pe] := rfl
  have hold : ∀ {p}, p < g.pendingEntries.length → (g.addPending id pe).pendingEntries[p]? = g.pendingEntries[p]? :=
    fun hp => getElem?_append_left hp
  have hnew : (g.addPending id pe).pendingEntries[g.pendingEntries.length]? = some pe := by
    rw [hentries, getElem?_concat_length]
  have htidy : Tidy (g.addPending id pe).consumers := by
    refine .modifyConsumer ?_ _ fun _ => Object.nodup_putField
    exact h.tidy
  refine ⟨htidy.names, Object.nodup_putField h.ids, htidy.ids, ?_, ?_, ?_, ?_⟩
  · intro k p
    rw [hentries, length_append, length_singleton, lookup_addPending]
    have hvalid := h.valid k p
    grind
  · intro k k' p
    rw [lookup_addPending, lookup_addPending]
    grind [h.injective k k' p, h.valid k p, h.valid k' p]
  · intro k p pe'
    rw [lookup_addPending, pendingFor_addPending hname]
    grind [h.valid k p, h.owned k p pe']
  · intro n k p hp
    rw [pendingFor_addPending hname] at hp
    rw [lookup_addPending]
    split at hp
    · rename_i hand
      cases hp
      rw [if_pos hand.2]
      exact ⟨rfl, pe, hnew, hand.1.symm⟩
    rename_i hand
    obtain ⟨hlook, pe', hpe', hcons⟩ := h.recorded n k p hp
    -- an entry that another consumer has is not the one that is given
    have hk : k ≠ id := by
      rintro rfl
      have := hfree p pe' (pendingEntry_eq_some.2 ⟨hlook, hpe'⟩)
      exact hand ⟨hcons.symm.trans this, rfl⟩
    rw [if_neg hk, hold (h.valid k p hlook)]
    exact ⟨hlook, pe', hpe', hcons⟩

end addPending

/-! ## Acknowledging -/

/-- `Ack` of one ID. -/
def ackOne (g : Group) (id : StreamID) : Group :=
  match g.pendingEntry id with
  | none => g
  | some (_, pe) =>
    ({ g with pending := removeField id g.pending }).modifyConsumer pe.consumer fun c =>
      { c with pending := removeField id c.pending }

theorem ack_fst (g : Group) (ids : List StreamID) : (g.ack ids).1 = ids.foldl ackOne g := by
  refine (foldl_hom Prod.fst fun p id => ?_).symm
  simp only [ackOne]
  cases p.1.pendingEntry id <;> rfl

section

variable (h : Linked g)
include h

theorem Linked.lookup_of_not_pending (he : g.pendingEntry id = none) :
    g.pending.lookup id = none ∧ ∀ n, pendingFor g n id = none := by
  have hnone : g.pending.lookup id = none := by
    rw [Option.eq_none_iff_forall_ne_some]
    intro p hp
    obtain ⟨pe, hpe⟩ := h.entry hp
    rw [he] at hpe
    cases hpe
  refine ⟨hnone, fun n => Option.eq_none_iff_forall_ne_some.2 fun p hp => ?_⟩
  rw [(h.recorded n id p hp).1] at hnone
  cases hnone

theorem Linked.lookup_ackOne : (ackOne g id).pending.lookup k = if k = id then none else g.pending.lookup k := by
  rw [ackOne]
  cases he : g.pendingEntry id with
  | some e => exact lookup_removeField ..
  | none =>
    by_cases hk : k = id
    · rw [if_pos hk, hk]
      exact (h.lookup_of_not_pending he).1
    · rw [if_neg hk]

theorem Linked.pendingFor_release {p : Nat} {pe : PendingEntry} (hp : g.pendingEntry id = some (p, pe)) :
    pendingFor (g.modifyConsumer pe.consumer fun c => { c with pending := removeField id c.pending }) n k =
      if k = id then none else pendingFor g n k := by
  rw [pendingFor_modifyConsumer]
  by_cases hn : n = pe.consumer
  · simp only [hn, if_true, lookup_removeField, pendingFor]
    cases g.consumers.lookup pe.consumer with
    | none => split <;> rfl
    | some c => rfl
  · rw [if_neg hn]
    split
    · rename_i hk
      -- it is pending for no other consumer
      rw [hk, Option.eq_none_iff_forall_ne_some]
      exact fun q hq => hn ((h.free_of_pendingFor hq) p pe hp).symm
    · rfl

theorem Linked.pendingFor_ackOne : pendingFor (ackOne g id) n k = if k = id then none else pendingFor g n k := by
  rw [ackOne]
  cases he : g.pendingEntry id with
  | none =>
    by_cases hk : k = id
    · rw [if_pos hk, hk]
      exact (h.lookup_of_not_pending he).2 n
    · rw [if_neg hk]
  | some e => exact h.pendingFor_release he

omit h in
theorem entries_ackOne (g : Group) (id : StreamID) : (ackOne g id).pendingEntries = g.pendingEntries := by
  rw [ackOne]
  split <;> rfl

theorem Linked.ackOne (id : StreamID) : Linked (ackOne g id) := by
  have hnodup : ((Streams.ackOne g id).pending.map Prod.fst).Nodup ∧ Tidy (Streams.ackOne g id).consumers := by
    rw [Streams.ackOne]
    split
    · exact ⟨h.ids, h.tidy⟩
    · refine ⟨Object.nodup_removeField h.ids, .modifyConsumer ?_ _ fun _ => Object.nodup_removeField⟩
      exact h.tidy
  refine ⟨hnodup.2.names, hnodup.1, hnodup.2.ids, ?_, ?_, ?_, ?_⟩
  · intro k p
    rw [h.lookup_ackOne, entries_ackOne]
    split
    · exact nofun
    · exact h.valid k p
  · intro k k' p
    rw [h.lookup_ackOne, h.lookup_ackOne]
    grind [h.injective k k' p]
  · intro k p pe
    rw [h.lookup_ackOne, entries_ackOne, h.pendingFor_ackOne]
    grind [h.owned k p pe]
  · intro n k p
    rw [h.pendingFor_ackOne, entries_ackOne, h.lookup_ackOne]
    grind [h.recorded n k p]

theorem Linked.ack (ids : List StreamID) :
    Linked (g.ack ids).1 ∧ (∀ k, (g.ack ids).1.pending.lookup k = if k ∈ ids then none else g.pending.lookup k) ∧
      ∀ n k, pendingFor (g.ack ids).1 n k = if k ∈ ids then none else pendingFor g n k := by
  rw [ack_fst]
  induction ids generalizing g with
  | nil => exact ⟨h, fun k => by simp, fun n k => by simp⟩
  | cons id ids ih =>
    obtain ⟨hl, hlook, hfor⟩ := ih (h.ackOne id)
    refine ⟨hl, fun k => ?_, fun n k => ?_⟩
    · rw [foldl_cons, hlook, h.lookup_ackOne]
      by_cases hk : k = id <;> by_cases hmem : k ∈ ids <;> simp [hk, hmem]
    · rw [foldl_cons, hfor, h.pendingFor_ackOne]
      by_cases hk : k = id <;> by_cases hmem : k ∈ ids <;> simp [hk, hmem]

end

/-! ## Claiming -/

section claim

variable {newConsumer : Bytes} {p : Nat} {pe pe' : PendingEntry}

/-- An entry that is pending goes to another consumer, with its pointer. -/
def transfer (g : Group) (id : StreamID) (p : Nat) (from_ : Bytes) (pe : PendingEntry) : Group :=
  ({ g.modifyConsumer from_ fun c => { c with pending := removeField id c.pending } with
      pendingEntries := g.pendingEntries.set p pe }).modifyConsumer pe.consumer fun c =>
    { c with pending := putField id p c.pending }

theorem Linked.pendingFor_transfer (h : Linked g) (hp : g.pendingEntry id = some (p, pe))
    (hname : (g.consumers.lookup pe'.consumer).isSome) : pendingFor (transfer g id p pe.consumer pe') n k =
      if k = id then if n = pe'.consumer then some p else none else pendingFor g n k := by
  obtain ⟨c, hc⟩ := isSome_iff_exists.1 hname
  have hremoved := h.pendingFor_release hp (n := n) (k := k)
  rw [transfer, pendingFor_modifyConsumer]
  by_cases hn : n = pe'.consumer
  · subst hn
    simp only [if_true, lookup_putField]
    have hc' : ∃ c', (g.modifyConsumer pe.consumer fun c => { c with pending := removeField id c.pending }).consumers.lookup
        pe'.consumer = some c' := by
      rw [lookup_modifyConsumer, hc]
      split
      · exact ⟨_, rfl⟩
      · exact ⟨_, rfl⟩
    obtain ⟨c', hc'⟩ := hc'
    simp only [pendingFor, hc', bind_some] at hremoved ⊢
    split
    · rfl
    · rename_i hk
      rw [if_neg hk] at hremoved
      exact hremoved
  · simp only [hn, if_false]
    exact hremoved

theorem Linked.transfer (h : Linked g) (hp : g.pendingEntry id = some (p, pe)) (pe' : PendingEntry)
    (hname : (g.consumers.lookup pe'.consumer).isSome) : Linked (transfer g id p pe.consumer pe') := by
  obtain ⟨hlook, hpe⟩ := pendingEntry_eq_some.1 hp
  have hlt := h.valid id p hlook
  have hself : (Streams.transfer g id p pe.consumer pe').pendingEntries[p]? = some pe' := getElem?_set_self hlt
  have hother : ∀ {k q}, g.pending.lookup k = some q → k ≠ id →
      (Streams.transfer g id p pe.consumer pe').pendingEntries[q]? = g.pendingEntries[q]? := by
    intro k q hq hk
    refine getElem?_set_ne ?_
    rintro rfl
    exact hk (h.injective k id p hq hlook)
  have htidy : Tidy (Streams.transfer g id p pe.consumer pe').consumers := by
    refine .modifyConsumer ?_ _ fun _ => Object.nodup_putField
    dsimp only
    exact h.tidy.modifyConsumer _ fun _ => Object.nodup_removeField
  refine ⟨htidy.names, h.ids, htidy.ids, fun k q hq => ?_, h.injective, ?_, ?_⟩
  · have := h.valid k q hq
    simpa [Streams.transfer, Group.modifyConsumer] using this
  · intro k q pe₀ (hq : g.pending.lookup k = some q) hpe₀
    rw [h.pendingFor_transfer hp hname]
    grind [h.owned k q pe₀]
  · intro n k q hq
    rw [h.pendingFor_transfer hp hname] at hq
    by_cases hk : k = id
    · subst hk
      rw [if_pos rfl] at hq
      split at hq
      · rename_i hn
        cases hq
        exact ⟨hlook, pe', hself, hn.symm⟩
      · cases hq
    · rw [if_neg hk] at hq
      obtain ⟨hq', pe₀, hpe₀, hcons⟩ := h.recorded n k q hq
      exact ⟨hq', pe₀, (hother hq' hk).trans hpe₀, hcons⟩

theorem isSome_modifyConsumer (g : Group) (name n : Bytes) (f : Consumer → Consumer) :
    ((g.modifyConsumer name f).consumers.lookup n).isSome = (g.consumers.lookup n).isSome := by
  rw [lookup_modifyConsumer]
  split
  · rw [Option.isSome_map]
  · rfl

theorem Linked.claim (h : Linked g) (newConsumer : Bytes) (minIdleTime : Int) (ids : List StreamID) (force : Bool)
    (now : Int) : Linked (g.claim newConsumer minIdleTime ids force now).1 := by
  have hstart : Linked (g.getOrCreateConsumer newConsumer) ∧
      ((g.getOrCreateConsumer newConsumer).consumers.lookup newConsumer).isSome :=
    ⟨h.getOrCreateConsumer newConsumer, isSome_getOrCreateConsumer g newConsumer⟩
  refine (foldl_invariant (P := fun a : Group × List StreamID => Linked a.1 ∧ (a.1.consumers.lookup newConsumer).isSome)
    (fun a id hg => ?_) hstart ids).1
  obtain ⟨g, claimed⟩ := a
  obtain ⟨h, hname⟩ := hg
  dsimp only at h hname ⊢
  cases he : g.pendingEntry id with
  | none =>
    dsimp only
    split
    · dsimp only
      refine ⟨(h.addPending hname fun p pe hpe => ?_).modifyConsumer newConsumer fun _ => rfl, ?_⟩
      · rw [he] at hpe
        cases hpe
      · rw [isSome_modifyConsumer, Group.addPending, isSome_modifyConsumer]
        exact hname
    · exact ⟨h, hname⟩
  | some e =>
    obtain ⟨p, pe⟩ := e
    dsimp only
    split
    · exact ⟨h, hname⟩
    · dsimp only
      refine ⟨(h.transfer he ⟨newConsumer, now, pe.deliveryCount + 1⟩ hname).modifyConsumer newConsumer fun _ => rfl, ?_⟩
      rw [isSome_modifyConsumer, isSome_modifyConsumer]
      have hsome := isSome_modifyConsumer g pe.consumer newConsumer fun c => { c with pending := removeField id c.pending }
      exact hsome.trans hname

end claim

/-! ## Deleting a consumer -/

/-- XGROUP DELCONSUMER on a group: what the consumer has is acknowledged, and it is removed. -/
def delConsumer (g : Group) (name : Bytes) : Group :=
  match g.consumers.lookup name with
  | none => g
  | some c =>
    let acked := (g.ack (c.pending.map Prod.fst)).1
    { acked with consumers := removeField name acked.consumers }

theorem Linked.delConsumer (h : Linked g) (name : Bytes) : Linked (delConsumer g name) := by
  rw [Streams.delConsumer]
  cases hc : g.consumers.lookup name with
  | none => exact h
  | some c =>
    obtain ⟨hl, -, hfor⟩ := h.ack (c.pending.map Prod.fst)
    set acked := (g.ack (c.pending.map Prod.fst)).1
    have hnone : ∀ k, pendingFor acked name k = none := by
      intro k
      rw [hfor, pendingFor, hc, bind_some]
      split
      · rfl
      · rename_i hk
        rw [← Object.isSome_lookup, Option.not_isSome_iff_eq_none] at hk
        exact hk
    have hremove : ∀ n k, pendingFor { acked with consumers := removeField name acked.consumers } n k =
        if n = name then none else pendingFor acked n k := by
      intro n k
      rw [pendingFor, lookup_removeField]
      split <;> rfl
    refine ⟨Object.nodup_removeField hl.names, hl.ids, fun n c' hc' => ?_, hl.valid, hl.injective, ?_, ?_⟩
    · rw [lookup_removeField] at hc'
      grind [hl.consumerIds n c']
    · intro k p pe hp hpe
      rw [hremove]
      grind [hl.owned k p pe hp hpe]
    · intro n k p
      rw [hremove]
      grind [hl.recorded n k p]

/-! ## Reading -/

/-- Where `ReadNew` starts to read. -/
def readStart (g : Group) : StreamID :=
  if g.lastDelivered = .zero then .zero else ⟨g.lastDelivered.ms, g.lastDelivered.seq + 1⟩

/-- The delivery of one entry in `ReadNew`. -/
def deliver (consumer : Bytes) (now : Int) (g : Group) (e : Entry) : Group :=
  let g := (g.addPending e.id ⟨consumer, now, 1⟩).modifyConsumer consumer fun c => { c with activeTime := now }
  { g with lastDelivered := if e.id.greater g.lastDelivered then e.id else g.lastDelivered }

theorem readNew_eq (g : Group) (s : StreamObj) (consumer : Bytes) (count now : Int) : g.readNew s consumer count now =
      if s.range (readStart g) .max count = [] then (g, []) else
        ({ (s.range (readStart g) .max count).foldl (deliver consumer now) (g.getOrCreateConsumer consumer) with
            entriesRead := ((s.range (readStart g) .max count).foldl (deliver consumer now)
              (g.getOrCreateConsumer consumer)).entriesRead + UInt64.ofNat (s.range (readStart g) .max count).length },
          s.range (readStart g) .max count) := rfl

section deliver

variable {consumer : Bytes} {now : Int} {e : Entry}

section

variable (hname : (g.consumers.lookup consumer).isSome)
include hname

theorem isSome_deliver : ((deliver consumer now g e).consumers.lookup consumer).isSome := by
  have hadd : ((g.addPending e.id ⟨consumer, now, 1⟩).consumers.lookup consumer).isSome := by
    rw [addPending, isSome_modifyConsumer]
    exact hname
  exact (isSome_modifyConsumer _ consumer consumer fun c => { c with activeTime := now }).trans hadd

theorem pendingFor_deliver : pendingFor (deliver consumer now g e) n k =
      if n = consumer ∧ k = e.id then some g.pendingEntries.length else pendingFor g n k := by
  have hactive : pendingFor (deliver consumer now g e) n k = pendingFor (g.addPending e.id ⟨consumer, now, 1⟩) n k := by
    refine (pendingFor_modifyConsumer _ consumer n (fun c => { c with activeTime := now }) k).trans ?_
    split <;> rfl
  exact hactive.trans (pendingFor_addPending hname)

omit hname in
theorem Linked.deliver (h : Linked g) (hname : (g.consumers.lookup consumer).isSome) (hfree : Free g consumer e.id) :
    Linked (deliver consumer now g e) := by
  have hadd : Linked (g.addPending e.id ⟨consumer, now, 1⟩) := h.addPending hname hfree
  have hactive := hadd.modifyConsumer consumer (f := fun c => { c with activeTime := now }) fun _ => rfl
  exact hactive.congr hactive.tidy rfl rfl fun _ _ => rfl

omit hname in
/-- What may be given to the consumer still may be after it has been given an entry. -/
theorem Linked.free_deliver (h : Linked g) (hfree : Free g consumer k) : Free (Streams.deliver consumer now g e) consumer k := by
  intro p pe hp
  obtain ⟨hlook, hpe⟩ := pendingEntry_eq_some.1 hp
  replace hlook : (g.addPending e.id ⟨consumer, now, 1⟩).pending.lookup k = some p := hlook
  replace hpe : (g.pendingEntries ++ [⟨consumer, now, 1⟩])[p]? = some pe := hpe
  rw [lookup_addPending] at hlook
  split at hlook
  · cases hlook
    rw [getElem?_concat_length] at hpe
    cases hpe
    rfl
  · rw [getElem?_append_left (h.valid k p hlook)] at hpe
    exact hfree p pe (pendingEntry_eq_some.2 ⟨hlook, hpe⟩)

omit hname in
theorem Linked.foldl_deliver (h : Linked g) (hname : (g.consumers.lookup consumer).isSome) (now : Int)
    {es : List Entry} (hfree : ∀ e ∈ es, Free g consumer e.id) : Linked (es.foldl (Streams.deliver consumer now) g) := by
  induction es generalizing g with
  | nil => exact h
  | cons e es ih =>
    obtain ⟨he, hes⟩ := forall_mem_cons.1 hfree
    exact ih (h.deliver hname he) (isSome_deliver hname) fun e' he' => h.free_deliver (hes e' he')

theorem pendingFor_foldl_deliver_of_ne (hn : n ≠ consumer)
    (es : List Entry) : pendingFor (es.foldl (Streams.deliver consumer now) g) n k = pendingFor g n k := by
  induction es generalizing g with
  | nil => rfl
  | cons e es ih =>
    rw [foldl_cons, ih (isSome_deliver hname), pendingFor_deliver hname, if_neg fun hand => hn hand.1]

theorem isSome_pendingFor_foldl_deliver {es : List Entry}
    (hk : (pendingFor g consumer k).isSome ∨ ∃ e ∈ es, e.id = k) :
    (pendingFor (es.foldl (Streams.deliver consumer now) g) consumer k).isSome := by
  induction es generalizing g with
  | nil => exact hk.resolve_right fun ⟨e, he, _⟩ => not_mem_nil he
  | cons e es ih =>
    refine ih (isSome_deliver hname) ?_
    rw [pendingFor_deliver hname]
    by_cases hke : k = e.id
    · exact .inl (by simp [hke])
    refine hk.imp (fun hsome => ?_) ?_
    · rw [if_neg fun hand => hke hand.2]
      exact hsome
    · rintro ⟨e', he', rfl⟩
      exact ⟨e', (mem_cons.1 he').resolve_left fun heq => hke (heq ▸ rfl), rfl⟩

end

end deliver

theorem free_getOrCreateConsumer (g : Group) (consumer name : Bytes) (id : StreamID) :
    Free (g.getOrCreateConsumer consumer) name id ↔ Free g name id := by
  obtain ⟨hpending, hentries⟩ := pending_getOrCreateConsumer g consumer
  simp only [Free, pendingEntry_eq_some, hpending, hentries]

/-- Two consumers cannot have an entry where the tables agree. -/
theorem Linked.eq_of_pendingFor (h : Linked g) {m : Bytes} (hn : (pendingFor g n id).isSome)
    (hm : (pendingFor g m id).isSome) : n = m := by
  obtain ⟨p, hp⟩ := isSome_iff_exists.1 hn
  obtain ⟨q, hq⟩ := isSome_iff_exists.1 hm
  obtain ⟨pe, hpe⟩ := h.entry (h.recorded n id p hp).1
  rw [← h.free_of_pendingFor hp p pe hpe, ← h.free_of_pendingFor hq p pe hpe]

/-- `ReadNew`: the entries that are read may be given to the consumer. -/
theorem Linked.readNew_iff (h : Linked g) {s : StreamObj} {consumer : Bytes} {count now : Int} :
    Linked (g.readNew s consumer count now).1 ↔ ∀ e ∈ s.range (readStart g) .max count, Free g consumer e.id := by
  rw [readNew_eq]
  split
  · rename_i hnil
    rw [hnil]
    exact ⟨fun _ e he => absurd he not_mem_nil, fun _ => h⟩
  have hcreate := h.getOrCreateConsumer consumer
  have hname := isSome_getOrCreateConsumer g consumer
  constructor
  · intro hl e he p pe hp
    have hl' : Linked ((s.range (readStart g) .max count).foldl (Streams.deliver consumer now)
        (g.getOrCreateConsumer consumer)) := hl.congr hl.tidy rfl rfl fun _ _ => rfl
    by_contra hne
    -- both the consumer and the one that had the entry have it now
    obtain ⟨hlook, hpe⟩ := pendingEntry_eq_some.1 hp
    have hold := h.owned e.id p pe hlook hpe
    rw [← pendingFor_getOrCreateConsumer g consumer, ← pendingFor_foldl_deliver_of_ne hname hne] at hold
    exact hne (hl'.eq_of_pendingFor (Option.isSome_of_eq_some hold)
      (isSome_pendingFor_foldl_deliver hname (.inr ⟨e, he, rfl⟩)))
  · intro hfree
    have hl := hcreate.foldl_deliver hname now fun e he =>
      (free_getOrCreateConsumer g consumer consumer e.id).2 (hfree e he)
    exact hl.congr hl.tidy rfl rfl fun _ _ => rfl

theorem Linked.restorePending_iff (h : Linked g) {consumer : Bytes} {time : Int} {count : UInt64} :
    Linked (g.restorePending id consumer time count) ↔ Free g consumer id := by
  have hname := isSome_getOrCreateConsumer g consumer
  constructor
  · intro hl p pe hp
    by_contra hne
    obtain ⟨hlook, hpe⟩ := pendingEntry_eq_some.1 hp
    have hold := h.owned id p pe hlook hpe
    set g' := (g.getOrCreateConsumer consumer).addPending id ⟨consumer, time, count⟩
    have hother : (pendingFor g' pe.consumer id).isSome := by
      rw [pendingFor_addPending hname, if_neg fun hand => hne hand.1, pendingFor_getOrCreateConsumer, hold]
      rfl
    have hself : (pendingFor g' consumer id).isSome := by
      rw [pendingFor_addPending hname, if_pos ⟨rfl, rfl⟩]
      rfl
    exact hne (hl.eq_of_pendingFor hother hself)
  · intro hfree
    exact (h.getOrCreateConsumer consumer).addPending hname ((free_getOrCreateConsumer g consumer consumer id).2 hfree)

/-! ## What follows -/

theorem Linked.mem_consumers (h : Linked g) {c : Consumer} : (n, c) ∈ g.consumers ↔ g.consumers.lookup n = some c :=
  (Chained.lookup_eq_some_iff_mem h.names).symm

/-- The table of the group is the disjoint union of those of the consumers. -/
theorem Linked.union (h : Linked g) :
    (g.consumers.flatMap fun e => e.2.pending.map Prod.fst).Perm (g.pending.map Prod.fst) := by
  have hmem : ∀ {name c id}, (name, c) ∈ g.consumers → (id ∈ c.pending.map Prod.fst ↔ (pendingFor g name id).isSome) := by
    intro name c id hc
    rw [pendingFor, h.mem_consumers.1 hc, bind_some, Object.isSome_lookup]
  have hnodup : (g.consumers.flatMap fun e => e.2.pending.map Prod.fst).Nodup := by
    refine nodup_flatMap.2 ⟨fun e he => h.consumerIds e.1 e.2 (h.mem_consumers.1 he), ?_⟩
    refine List.Pairwise.imp_of_mem (fun {a b} ha hb hne id hida hidb => ?_) (pairwise_map.1 h.names)
    exact hne (h.eq_of_pendingFor ((hmem ha).1 hida) ((hmem hb).1 hidb))
  refine (perm_ext_iff_of_nodup hnodup h.ids).2 fun id => ?_
  rw [mem_flatMap, ← Object.isSome_lookup]
  constructor
  · rintro ⟨⟨name, c⟩, hc, hid⟩
    obtain ⟨p, hp⟩ := isSome_iff_exists.1 ((hmem hc).1 hid)
    rw [(h.recorded name id p hp).1]
    rfl
  · intro hid
    obtain ⟨p, hp⟩ := isSome_iff_exists.1 hid
    obtain ⟨pe, hpe⟩ := h.entry hp
    have howned := h.owned id p pe hp (pendingEntry_eq_some.1 hpe).2
    obtain ⟨c, hc, -⟩ := Option.bind_eq_some_iff.1 howned
    refine ⟨(pe.consumer, c), h.mem_consumers.2 hc, (hmem (h.mem_consumers.2 hc)).2 ?_⟩
    rw [howned]
    rfl

structure Consistent (g : Group) : Prop where
  linked : Linked g
  union : (g.consumers.flatMap fun e => e.2.pending.map Prod.fst).Perm (g.pending.map Prod.fst)
  counts : (g.consumers.map fun e => e.2.pending.length).sum = g.pending.length
  summary : g.pending ≠ [] → ∃ lo hi, ∃ rows : List (Bytes × Consumer), (rows.map (·.2.pending.length)).sum =
    g.pending.length ∧ Cmd.xpendingSummary g = .array [.int g.pending.length, lo, hi,
      .array (rows.flatMap fun e => [.bulk (some e.1), .int e.2.pending.length])]
  acked : ∀ ids, ∀ id ∈ ids, (g.ack ids).1.pending.lookup id = none ∧ ∀ name, pendingFor (g.ack ids).1 name id = none

theorem Linked.counts (h : Linked g) : (g.consumers.map fun e => e.2.pending.length).sum = g.pending.length := by
  have hlen := h.union.length_eq
  simpa [length_flatMap] using hlen

theorem sum_filter_pending (es : List (Bytes × Consumer)) :
    ((es.filter (·.2.pending ≠ [])).map (·.2.pending.length)).sum = (es.map (·.2.pending.length)).sum := by
  induction es with
  | nil => rfl
  | cons e es ih => by_cases he : e.2.pending = [] <;> simpa [he] using ih

theorem Linked.consistent (h : Linked g) : Consistent g where
  linked := h
  union := h.union
  counts := h.counts
  summary hne := ⟨_, _, _, (sum_filter_pending _).trans h.counts, if_neg hne⟩
  acked ids id hid := by
    obtain ⟨-, hlook, hfor⟩ := h.ack ids
    exact ⟨by rw [hlook, if_pos hid], fun name => by rw [hfor, if_pos hid]⟩

/-! ## Runs -/

/-- The methods of a group. The stream that `ReadNew` reads may be another each time. -/
inductive GroupOp where
  | readNew (s : StreamObj) (consumer : Bytes) (count now : Int)
  | readPending (consumer : Bytes) (start stop : StreamID) (count : Int)
  | ack (ids : List StreamID)
  | claim (newConsumer : Bytes) (minIdleTime : Int) (ids : List StreamID) (force : Bool) (now : Int)
  | delConsumer (name : Bytes)
  | setID (id : StreamID)
  | restorePending (id : StreamID) (consumer : Bytes) (deliveryTime : Int) (deliveryCount : UInt64)

def GroupOp.apply (g : Group) : GroupOp → Group
  | .readNew s consumer count now => (g.readNew s consumer count now).1
  | .readPending _ _ _ _ => g
  | .ack ids => (g.ack ids).1
  | .claim newConsumer minIdleTime ids force now => (g.claim newConsumer minIdleTime ids force now).1
  | .delConsumer name => Streams.delConsumer g name
  | .setID id => { g with lastDelivered := id }
  | .restorePending id consumer deliveryTime deliveryCount => g.restorePending id consumer deliveryTime deliveryCount

/-- No entry is given to a second consumer. -/
def GroupOp.GivesFree (g : Group) : GroupOp → Prop
  | .readNew s consumer count _ => ∀ e ∈ s.range (readStart g) .max count, Free g consumer e.id
  | .restorePending id consumer _ _ => Free g consumer id
  | _ => True

theorem Linked.apply_iff (h : Linked g) (o : GroupOp) : Linked (o.apply g) ↔ o.GivesFree g := by
  cases o with
  | readNew s consumer count now => exact h.readNew_iff
  | readPending => exact ⟨fun _ => trivial, fun _ => h⟩
  | ack ids => exact ⟨fun _ => trivial, fun _ => (h.ack ids).1⟩
  | claim newConsumer minIdleTime ids force now =>
    exact ⟨fun _ => trivial, fun _ => h.claim newConsumer minIdleTime ids force now⟩
  | delConsumer name => exact ⟨fun _ => trivial, fun _ => h.delConsumer name⟩
  | setID id => exact ⟨fun _ => trivial, fun _ => h.congr h.tidy rfl rfl fun _ _ => rfl⟩
  | restorePending id consumer time count => exact h.restorePending_iff

theorem linked_new (startID : StreamID) : Linked (.new startID) where
  names := nodup_nil
  ids := nodup_nil
  consumerIds _ _ hc := by cases hc
  valid _ _ hp := by cases hp
  injective _ _ _ hp := by cases hp
  owned _ _ _ hp := by cases hp
  recorded _ _ _ hp := by cases hp

/-- The pending lists of a group are consistent all along a run, if and only if no entry is given to a second
consumer. -/
theorem pending_run (startID : StreamID) (ops : List GroupOp) :
    (∀ pre, pre <+: ops → Consistent (pre.foldl GroupOp.apply (.new startID))) ↔
      Guarded GroupOp.apply GroupOp.GivesFree (.new startID) ops := by
  have hrun := forall_prefix_iff_guarded (fun g o (h : Linked g) _ => h.apply_iff o)
    (guarded_of_forall (fun _ _ => trivial) (.new startID) ops) (linked_new startID)
  rw [← hrun]
  exact ⟨fun h pre hpre => (h pre hpre).linked, fun h pre hpre => (h pre hpre).consistent⟩

/-! ## An entry that is given to a second consumer -/

def oneEntry : StreamObj := { StreamObj.new with entries := [⟨⟨1, 0⟩, []⟩], lastID := ⟨1, 0⟩, length := 1 }

/-- The entry is read for `a`, the group is set back, and the entry is read for `b`. -/
def setBack : List GroupOp := [.readNew oneEntry "a" 0 0, .setID .zero, .readNew oneEntry "b" 0 0]

def afterSetBack : Group := setBack.foldl GroupOp.apply (.new .zero)

theorem setBack_inconsistent :
    afterSetBack.pending.length = 1 ∧ (afterSetBack.consumers.map fun e => e.2.pending.length).sum = 2 ∧
      (pendingFor (afterSetBack.ack [⟨1, 0⟩]).1 "a" ⟨1, 0⟩).isSome ∧ ¬ Consistent afterSetBack := by
  have hcount : (afterSetBack.consumers.map fun e => e.2.pending.length).sum = 2 := by decide
  refine ⟨by decide, hcount, by decide, fun h => ?_⟩
  have hsum := h.counts
  revert hsum
  decide

end Hayakv.Streams
