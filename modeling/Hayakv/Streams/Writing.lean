import Hayakv.Streams.Delivery

/-!
# The IDs that XADD assigns, and what trimming removes

The source departs from both where a value has a second meaning: a sequence number past the greatest is 0,
the time 0 is the clock, MAXLEN 0 is no limit, and an approximate MINID records what it then keeps.
-/

namespace Hayakv.Streams

open Engine Cmd List StreamObj

variable {st : StreamObj} {ms : UInt64} {env : Env} {o : XAddOpts} {id : StreamID}

/-! ## IDs -/

theorem toNat_eq_max {seq : UInt64} : seq = maxSeq ↔ seq.toNat = 2 ^ 64 - 1 := UInt64.toNat_inj.symm

theorem greater_autoID : (st.autoID ms).greater st.lastID = true ↔ ¬(ms ≤ st.lastID.ms ∧ st.lastID.seq = maxSeq) := by
  have hlt := st.lastID.seq.toNat_lt
  rw [autoID, toNat_eq_max, greater_iff]
  split
  · rename_i hms
    simp only [rank, hms, true_and, UInt64.toNat_add, UInt64.toNat_one]
    omega
  · rename_i hms
    rw [UInt64.le_iff_toNat_le] at hms ⊢
    simp only [rank, UInt64.toNat_zero]
    omega

/-- XADD adds its entry with the ID `id`. -/
def Assigns (env : Env) (o : XAddOpts) (st : StreamObj) (id : StreamID) : Prop :=
  ∃ st', st.add (xaddID env o st) o.fields = .ok st' ∧ st'.entries = st.entries ++ [⟨id, o.fields⟩]

theorem assigns_iff : Assigns env o st id ↔ id = xaddID env o st ∧ id.greater st.lastID = true := by
  constructor
  · rintro ⟨st', hadd, hentries⟩
    obtain ⟨hgt, rfl⟩ := add_eq_ok hadd
    simp only [append_cancel_left_eq, cons.injEq, Entry.mk.injEq, and_true] at hentries
    exact ⟨hentries.symm, hentries ▸ hgt⟩
  · rintro ⟨rfl, hgt⟩
    have hzero : xaddID env o st ≠ .zero := fun hzero => by
      rw [hzero, greater_iff] at hgt
      exact absurd hgt (Nat.not_lt_zero _)
    rw [Assigns, StreamObj.add, if_neg hzero, if_neg (by rw [hgt]; decide)]
    exact ⟨_, rfl, rfl⟩

/-- The time that an ID is assigned from: the clock for the time 0. -/
def timeOf (env : Env) (o : XAddOpts) : UInt64 := if o.id.ms = 0 then UInt64.ofInt env.nowMs else o.id.ms

/-- There is an ID of the time above the last one. -/
def Above (st : StreamObj) (ms : UInt64) : Prop := ∃ id : StreamID, id.ms = ms ∧ id.greater st.lastID = true

theorem above_iff : Above st ms ↔ st.lastID.ms < ms ∨ st.lastID.ms = ms ∧ st.lastID.seq ≠ maxSeq := by
  have hlt := st.lastID.seq.toNat_lt
  rw [Ne, toNat_eq_max, UInt64.lt_iff_toNat_lt, ← UInt64.toNat_inj]
  constructor
  · rintro ⟨id, rfl, hgt⟩
    have hid := id.seq.toNat_lt
    rw [greater_iff, rank, rank] at hgt
    omega
  · intro h
    refine ⟨⟨ms, maxSeq⟩, rfl, greater_iff.2 ?_⟩
    have hmax : maxSeq.toNat = 2 ^ 64 - 1 := rfl
    simp only [rank, hmax]
    omega

/-- `*` gives an ID above the last one, unless that has the greatest sequence number and the clock is not ahead of
it. `ms-*` gives one of that time, if there is one and only then, unless the time is 0 or before the last ID.
XADD adds its entry at this ID (`takes_execXAdd`). -/
theorem auto_ids (hauto : o.autoAssign = true) :
    (o.id.ms = 0 → ((∃ id, Assigns env o st id ∧ id.greater st.lastID = true) ↔
      ¬(UInt64.ofInt env.nowMs ≤ st.lastID.ms ∧ st.lastID.seq = maxSeq))) ∧
    ((Above st o.id.ms → ∃ id, Assigns env o st id ∧ id.ms = o.id.ms ∧ id.greater st.lastID = true) ∧
      (¬Above st o.id.ms → ∀ id, ¬Assigns env o st id) ↔
      timeOf env o = o.id.ms ∧ st.lastID.ms ≤ o.id.ms ∨ timeOf env o ≤ st.lastID.ms ∧ st.lastID.seq = maxSeq) := by
  have hid : xaddID env o st = st.autoID (timeOf env o) := if_pos hauto
  have hassigns : ∀ P : StreamID → Prop, (∃ id, Assigns env o st id ∧ P id) ↔
      ¬(timeOf env o ≤ st.lastID.ms ∧ st.lastID.seq = maxSeq) ∧ P (st.autoID (timeOf env o)) := by
    intro P
    simp only [assigns_iff, hid, ← greater_autoID]
    exact ⟨fun ⟨_, ⟨rfl, hgt⟩, hP⟩ => ⟨hgt, hP⟩, fun ⟨hgt, hP⟩ => ⟨_, ⟨rfl, hgt⟩, hP⟩⟩
  have hrefused : (∀ id, ¬Assigns env o st id) ↔ timeOf env o ≤ st.lastID.ms ∧ st.lastID.seq = maxSeq := by
    have h := hassigns fun _ => True
    simp only [and_true] at h
    rw [← not_exists, h, not_not]
  constructor
  · intro hzero
    rw [hassigns, greater_autoID, and_self, timeOf, if_pos hzero]
  · have htime : o.id.ms.toNat = 0 ∨ (timeOf env o).toNat = o.id.ms.toNat := by
      by_cases hzero : o.id.ms = 0
      · exact .inl (by rw [hzero]; rfl)
      · exact .inr (by rw [timeOf, if_neg hzero])
    have hms : (st.autoID (timeOf env o)).ms.toNat = max (timeOf env o).toNat st.lastID.ms.toNat := by
      rw [autoID]
      split <;> rename_i hle <;> rw [UInt64.le_iff_toNat_le] at hle <;> dsimp only <;> omega
    rw [hassigns, hrefused, above_iff, greater_autoID, Ne, toNat_eq_max]
    simp only [UInt64.lt_iff_toNat_lt, UInt64.le_iff_toNat_le, ← UInt64.toNat_inj, hms]
    omega

/-- A stream with a last ID of the time 5. -/
def lastIs (seq : UInt64) : StreamObj := { new with lastID := ⟨5, seq⟩ }

/-- XADD with an ID to be assigned. -/
def assignAt (ms : UInt64) : XAddOpts := ⟨false, ⟨none, none, false⟩, ⟨ms, 0⟩, true, [("f", "v")]⟩

theorem auto_ids_assignAt : (assignAt 7).autoAssign = true ∧
    ∃ id, Assigns (Env.plain 0) (assignAt 7) (lastIs 0) id ∧ id.ms = 7 ∧ id.greater (lastIs 0).lastID = true :=
  ⟨rfl, ((auto_ids rfl).2.2 (.inl ⟨rfl, by decide⟩)).1 ⟨⟨7, 0⟩, rfl, rfl⟩⟩

/-- `*` is refused after the last ID of the time 5 while the clock is not past it, and `3-*` after `5-0` gives `5-1`. -/
theorem auto_ids_fail : (lastIs maxSeq).lastID ≠ .max ∧
    (∀ id, ¬Assigns (Env.plain 0) (assignAt 0) (lastIs maxSeq) id) ∧
    ¬Above (lastIs 0) 3 ∧ Assigns (Env.plain 0) (assignAt 3) (lastIs 0) ⟨5, 1⟩ := by
  refine ⟨by decide, fun id h => ?_, by rw [above_iff]; decide, assigns_iff.2 ⟨rfl, rfl⟩⟩
  obtain ⟨rfl, hgt⟩ := assigns_iff.1 h
  revert hgt
  decide

/-! ## Trimming -/

/-- The entries `gone` were removed, and `kept` are left. -/
def removed (st : StreamObj) (gone kept : List Entry) : StreamObj × Nat :=
  ({ st with
      entries := kept
      length := st.length - UInt64.ofNat gone.length
      maxDeletedID := maxID st.maxDeletedID gone }, gone.length)

/-- A trim is to remove the entries `gone` and to keep `keep`. An approximate one removes entries at the start, and
none of those to keep. -/
def Leaves (st : StreamObj) (gone keep : List Entry) (approx : Bool) (r : StreamObj × Nat) : Prop :=
  if approx then r = removed st (st.entries.take r.2) (st.entries.drop r.2) ∧ keep ⊆ st.entries.drop r.2
  else r = removed st gone keep

/-- None of the entries has an ID above that of the last of them, unless it was deleted before. -/
def LastGreatest (m : StreamID) (es : List Entry) : Prop := maxID m es = maxID m es.getLast?.toList

/-- How many entries there are beyond the newest `n`. -/
def excess (st : StreamObj) (n : Int) : Nat := st.entries.length - n.toNat

def below (st : StreamObj) (id : StreamID) : List Entry := st.entries.filter fun e => id.greater e.id

def notBelow (st : StreamObj) (id : StreamID) : List Entry := st.entries.filter fun e => !id.greater e.id

variable {es : List Entry} {m : StreamID} {k : Nat}

theorem removed_nil : removed st [] st.entries = (st, 0) := by
  simp [removed, maxID]

theorem maxID_eq_self : maxID m es = m ↔ ∀ e ∈ es, e.id.greater m = false := by
  refine ⟨fun h e he => ?_, fun h => ?_⟩
  · have hle := (le_maxID m es).2 e he
    rw [h] at hle
    exact greater_eq_false.2 hle
  · obtain hm | ⟨e, he, hid⟩ := maxID_mem m es
    · exact hm
    · refine rank_injective (Nat.le_antisymm ?_ (le_maxID m es).1)
      rw [hid]
      exact greater_eq_false.1 (h e he)

/-- `TrimMaxLen` only looks at the last entry that it removes. -/
theorem trimmed_eq_iff (hk : k ≤ st.entries.length) : ({ st with
        entries := st.entries.drop k
        length := st.length - UInt64.ofNat k
        maxDeletedID := match (st.entries.take k).getLast? with
          | some e => if e.id.greater st.maxDeletedID then e.id else st.maxDeletedID
          | none => st.maxDeletedID }, k) = removed st (st.entries.take k) (st.entries.drop k) ↔
      LastGreatest st.maxDeletedID (st.entries.take k) := by
  rw [removed, LastGreatest, length_take_of_le hk]
  have hlast : (match (st.entries.take k).getLast? with
      | some e => if e.id.greater st.maxDeletedID then e.id else st.maxDeletedID
      | none => st.maxDeletedID) = maxID st.maxDeletedID (st.entries.take k).getLast?.toList := by
    cases (st.entries.take k).getLast? <;> rfl
  rw [hlast]
  refine ⟨fun h => (congrArg (·.1.maxDeletedID) h).symm, fun h => by rw [h]⟩

theorem greater_or_eq (a b : StreamID) : (a.greater b || decide (a = b)) = !b.greater a := by
  rw [Bool.eq_iff_iff, Bool.or_eq_true, decide_eq_true_eq, Bool.not_eq_true', greater_iff, greater_eq_false]
  exact ⟨fun h => h.elim le_of_lt fun h => h ▸ le_rfl, fun h => h.lt_or_eq.imp_right fun h => (rank_injective h).symm⟩

theorem filter_suffix {p : Entry → Bool} (h : (es.filter fun e => !p e) <:+ es) :
    es.take (es.filter p).length = es.filter p ∧ es.drop (es.filter p).length = es.filter fun e => !p e := by
  obtain ⟨t, ht⟩ := h
  have hgone : es.filter p = t.filter p := by
    rw [← congrArg (filter p) ht]
    simp
  have hlen : (es.filter p).length = t.length := by
    have hsplit := es.length_eq_length_filter_add p
    have hsum := congrArg List.length ht
    rw [length_append] at hsum
    omega
  rw [hgone, filter_sublist.eq_of_length (hgone ▸ hlen)]
  exact ⟨(congrArg (take _) ht).symm.trans take_left, (congrArg (drop _) ht).symm.trans drop_left⟩

/-- Trimming removes what it should and keeps account of it, except that an exact MAXLEN 0 removes nothing; that of
entries out of order, MAXLEN only records the last; and that an approximate MINID records what it then keeps, or
removes from the middle of entries out of order. -/
theorem trims_exact : (∀ n : Int, 0 ≤ n →
      (Leaves st (st.entries.take (excess st n)) (st.entries.drop (excess st n)) false (st.trimMaxLen n false) ↔
        (0 < n ∨ st.entries = []) ∧ LastGreatest st.maxDeletedID (st.entries.take (excess st n))) ∧
      (Leaves st (st.entries.take (excess st n)) (st.entries.drop (excess st n)) true (st.trimMaxLen n true) ↔
        (0 < n → 100 < excess st n →
          LastGreatest st.maxDeletedID (st.entries.take (excess st n - excess st n % 100))))) ∧
    ∀ id, Leaves st (below st id) (notBelow st id) false (st.trimMinID id false) ∧
      (Leaves st (below st id) (notBelow st id) true (st.trimMinID id true) ↔
        if (below st id).length < 100 then ∀ e ∈ below st id, e.id.greater st.maxDeletedID = false
        else notBelow st id <:+ st.entries) := by
  unfold below notBelow
  simp only [excess, trimMaxLen, trimMinID, greater_or_eq, Bool.not_not, Leaves, Bool.true_and, Bool.false_and,
    Bool.false_eq_true, if_true, if_false, decide_eq_true_eq]
  refine ⟨fun n hn => ?_, fun id => ⟨rfl, ?_⟩⟩
  · generalize hd : st.entries.length - n.toNat = d
    split
    · rename_i hkeep
      refine ⟨?_, iff_of_true ⟨removed_nil.symm, drop_subset ..⟩ fun hpos hlt => by omega⟩
      obtain rfl | hpos := Nat.eq_zero_or_pos d
      · rw [take_zero, drop_zero, removed_nil]
        refine iff_of_true rfl ⟨?_, rfl⟩
        rw [← length_eq_zero_iff]
        omega
      · refine iff_of_false (fun h => ?_) fun h => ?_
        · have hzero : 0 = (st.entries.take d).length := congrArg (·.2) h
          rw [length_take] at hzero
          omega
        · rw [← length_eq_zero_iff] at h
          omega
    · rename_i hcut
      refine ⟨(trimmed_eq_iff (by omega)).trans (iff_and_self.2 fun _ => .inl (by omega)), ?_⟩
      split
      · exact iff_of_true ⟨removed_nil.symm, drop_subset ..⟩ fun _ hlt => by omega
      · refine (and_iff_left (drop_subset_drop_left _ (Nat.sub_le ..))).trans ((trimmed_eq_iff (by omega)).trans ?_)
        exact ⟨fun h _ _ => h, fun h => h (by omega) (by omega)⟩
  · by_cases hfew : (st.entries.filter fun e => id.greater e.id).length < 100
    · simp only [if_pos hfew]
      rw [take_zero, drop_zero, removed_nil, and_iff_left (filter_subset_self _), ← maxID_eq_self]
      exact ⟨fun h => congrArg (·.1.maxDeletedID) h, fun h => by rw [h]⟩
    simp only [if_neg hfew]
    refine ⟨fun h => ?_, fun h => ?_⟩
    · rw [show st.entries.filter _ = _ from congrArg (·.1.entries) h.1]
      exact drop_suffix ..
    · obtain ⟨htake, hdrop⟩ := filter_suffix h
      rw [htake, hdrop]
      exact ⟨rfl, Subset.refl _⟩

/-- Of three entries MAXLEN 2 removes the first. -/
theorem trims_exact_three :
    let es : List Entry := [⟨⟨1, 0⟩, []⟩, ⟨⟨2, 0⟩, []⟩, ⟨⟨3, 0⟩, []⟩]
    let st : StreamObj := { oneEntry with entries := es, lastID := ⟨3, 0⟩, length := 3 }
    Leaves st (es.take 1) (es.drop 1) false (st.trimMaxLen 2 false) :=
  (trims_exact.1 2 (by decide)).1.2 ⟨.inl (by decide), rfl⟩

/-- MAXLEN 0 leaves the entry, and MINID `~` leaves it too but records that it was deleted. -/
theorem trims_fail : ¬Leaves oneEntry oneEntry.entries [] false (oneEntry.trimMaxLen 0 false) ∧
    oneEntry.trimMinID ⟨2, 0⟩ true = ({ oneEntry with maxDeletedID := ⟨1, 0⟩ }, 0) := by
  refine ⟨fun h => ?_, rfl⟩
  cases congrArg (·.2) h

end Hayakv.Streams
