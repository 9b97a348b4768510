import Hayakv.Cmd.Sets
import Hayakv.Engine.Rules
import Hayakv.Object.Set

/-!
# The algebra of sets

SINTER counts how often the members of all sets come up, SUNION and SDIFF fill a new set. Each answers
the set it is named after, whatever the encodings of its sets are and the new one goes through.
-/

namespace Hayakv.Cmd

open Engine Engine.Exec List Prog

/-- A set that an `object.Set` represents, with these members. -/
def IsSet (o : SetObj) (P : Bytes → Prop) : Prop := (∃ S : Object.Set, S.Represents o) ∧ ∀ m, m ∈ o.members ↔ P m

section members

variable {t : EncodingThresholds} {o : SetObj} {P : Bytes → Prop} {ms : List Bytes} {sets : List SetObj} {keys : List Key}
  {A : Key → Bytes → Prop}

theorem IsSet.congr {Q : Bytes → Prop} (h : IsSet o P) (hPQ : ∀ m, P m ↔ Q m) : IsSet o Q :=
  ⟨h.1, fun m => (h.2 m).trans (hPQ m)⟩

theorem IsSet.length_lt (h : IsSet o P) : ∀ m ∈ o.members, m.length < 2 ^ 63 := h.1.elim fun _ hS => hS.lengths

theorem isSet_new : IsSet .new fun _ => False := ⟨⟨_, .new⟩, fun _ => mem_nil_iff _⟩

theorem IsSet.addAll (h : IsSet o P) (hms : ∀ m ∈ ms, m.length < 2 ^ 63) :
    IsSet (o.addAll t ms).1 fun m => P m ∨ m ∈ ms := by
  unfold SetObj.addAll
  generalize 0 = n
  induction ms generalizing o P n with
  | nil => simpa using h
  | cons x ms ih =>
    obtain ⟨⟨S, hS⟩, hP⟩ := h
    obtain ⟨hx, hms⟩ := forall_mem_cons.1 hms
    have hadd : IsSet (o.add t x).1 fun m => m = x ∨ P m :=
      ⟨⟨_, (hS.add hx).2⟩, fun m => by rw [(Object.add_spec t o x).2, hP]⟩
    refine (ih hadd hms _).congr fun m => ?_
    rw [mem_cons, or_comm (a := m = x), or_assoc]

theorem isSet_ofList (hms : ∀ m ∈ ms, m.length < 2 ^ 63) : IsSet (SetObj.new.addAll t ms).1 (· ∈ ms) :=
  (isSet_new.addAll hms).congr fun _ => by rw [false_or]

theorem IsSet.removeMembers (h : IsSet o P) : IsSet (removeMembers o ms).1 fun m => P m ∧ m ∉ ms := by
  induction ms generalizing o P with
  | nil => simpa [Cmd.removeMembers] using h
  | cons x ms ih =>
    obtain ⟨⟨S, hS⟩, hP⟩ := h
    have hrem : IsSet (o.remove x).1 fun m => m ≠ x ∧ P m :=
      ⟨⟨_, (hS.remove x).2⟩, fun m => by rw [(Object.remove_spec o x).2, hP]⟩
    refine (ih hrem).congr fun m => ?_
    rw [mem_cons, not_or, and_comm (a := m ≠ x), and_assoc]

section

variable (h : Forall₂ (fun k o => IsSet o (A k)) keys sets)
include h

theorem mem_visits (m : Bytes) : m ∈ sets.flatMap SetObj.members ↔ ∃ k ∈ keys, A k m := by
  induction h with
  | nil => simp
  | cons ho _ ih => rw [flatMap_cons, mem_append, exists_mem_cons_iff, ho.2, ih]

theorem length_of_visit : ∀ m ∈ sets.flatMap SetObj.members, m.length < 2 ^ 63 := by
  induction h with
  | nil => simp
  | cons ho _ ih =>
    rw [flatMap_cons, forall_mem_append]
    exact ⟨ho.length_lt, ih⟩

/-- A set comes up with each member once, so at most as many times as there are sets, and that often where it
is in each. -/
theorem count_visits (m : Bytes) : (sets.flatMap SetObj.members).count m ≤ sets.length ∧
    ((sets.flatMap SetObj.members).count m = sets.length ↔ ∀ k ∈ keys, A k m) := by
  induction h with
  | nil => simp
  | @cons k o keys sets ho _ ih =>
    obtain ⟨⟨S, hS⟩, hA⟩ := ho
    rw [flatMap_cons, count_append, hS.nodup.count, forall_mem_cons, length_cons, ← ih.2, ← hA m]
    have hle := ih.1
    by_cases hm : m ∈ o.members
    · simp only [hm, if_true, true_and]
      omega
    · simp only [hm, if_false, false_and, iff_false]
      omega

theorem isSet_objectIntersect (hne : keys ≠ []) : IsSet (objectIntersect t sets) fun m => ∀ k ∈ keys, A k m := by
  refine (isSet_ofList fun m hm => length_of_visit h m (mem_dedup.1 (mem_of_mem_filter hm))).congr fun m => ?_
  rw [mem_filter, mem_dedup, decide_eq_true_eq, (count_visits h m).2, mem_visits h, and_iff_right_iff_imp]
  obtain ⟨k, hk⟩ := exists_mem_of_ne_nil keys hne
  exact fun hall => ⟨k, hk, hall k hk⟩

theorem isSet_objectUnion : IsSet (objectUnion t sets) fun m => ∃ k ∈ keys, A k m :=
  (isSet_ofList (length_of_visit h)).congr (mem_visits h)

theorem isSet_objectDiff (ho : IsSet o P) : IsSet (objectDiff t (o :: sets)) fun m => P m ∧ ¬∃ k ∈ keys, A k m := by
  have hcopy : IsSet (SetObj.new.addAll t o.members).1 P := (isSet_ofList ho.length_lt).congr ho.2
  rw [objectDiff]
  generalize (SetObj.new.addAll t o.members).1 = r at hcopy
  clear ho
  induction h generalizing r P with
  | nil => simpa using hcopy
  | cons hs _ ih =>
    refine (ih _ hcopy.removeMembers).congr fun m => ?_
    rw [exists_mem_cons_iff, not_or, hs.2, and_assoc]

end

end members

/-! ## Commands that only look keys up -/

/-- Each key shows what it did. -/
def Same (now : Int) (s₀ s : State) : Prop := s.heap = s₀.heap ∧ ∀ k, (s.getEntity now k).1 = (s₀.getEntity now k).1

theorem fst_getEntity (s : State) (now : Int) (k : Key) : (s.getEntity now k).1 =
    if s.expired now k then none else (s.data.lookup k).bind fun r => s.heap.entity r := by
  unfold State.getEntity Heap.entity
  split
  · simp [*]
  · split
    · simp [*]
    · split <;> simp [*]

theorem Same.getEntity {now : Int} {s₀ s : State} (h : Same now s₀ s) (key : Key) :
    Same now s₀ (s.getEntity now key).2 := by
  have hstep : Same now s (s.getEntity now key).2 := by
    simp only [Same, fst_getEntity]
    unfold State.getEntity
    split
    · exact ⟨rfl, fun _ => rfl⟩
    split
    · rename_i hexp
      refine ⟨rfl, fun k => ?_⟩
      by_cases hk : k = key
      · simp [hk, hexp, State.remove, lookup_removeField]
      · simp [hk, State.remove, State.expired, lookup_removeField]
        rfl
    · split <;> exact ⟨rfl, fun _ => rfl⟩
  exact ⟨hstep.1.trans h.1, fun k => (hstep.2 k).trans (h.2 k)⟩

/-- Keys are looked up in a database that shows what it did at first. -/
def lookups (now : Int) (s₀ : State) (good : Reply → Prop) : Discipline Op Op.Ret Exit Unit where
  ok
    | _, .getEntity _ => True
    | _, _ => False
  ans
    | _, .getEntity k, found => found = (s₀.getEntity now k).1
    | _, _, _ => True
  next _ _ _ := ()
  leave _ e := ∃ r, e = .reply r ∧ good r

/-- A reply that lists these members, each once. -/
def Lists (P : Bytes → Prop) (r : Reply) : Prop := ∃ ms, r = .multiBulk ms ∧ ms.Nodup ∧ ∀ m, m ∈ ms ↔ P m

/-- A command replies with these members, and no key shows anything else after it. -/
def Answers (env : Env) (s : State) (p : Exec Reply) (P : Bytes → Prop) : Prop :=
  let (r, s') := p.run (handle env) s
  (∃ list, (r = .ok list ∨ r = .error (.reply list)) ∧ Lists P list) ∧ Same env.now s s'

variable {env : Env} {s : State} {k : Key} {keys : List Key}

theorem answers_of_lookups {p : Exec Reply} {P : Bytes → Prop}
    (hp : p.wp (lookups env.now s (Lists P)) (fun r _ => Lists P r) ()) : Answers env s p P := by
  obtain ⟨g, hsame, hends⟩ := run_inv (h := handle env) (I := fun _ => Same env.now s) (fun _ o s' hok hs => by
    cases o with
    | getEntity k => exact ⟨hs.2 k, hs.getEntity k⟩
    | _ => exact hok.elim) hp ⟨rfl, fun _ => rfl⟩
  refine ⟨?_, hsame⟩
  cases hr : (p.run (handle env) s).1 with
  | ok r => exact ⟨r, .inl rfl, by simpa [hr, Ends] using hends⟩
  | error e =>
    rw [hr] at hends
    obtain ⟨r, rfl, hgood⟩ := hends
    exact ⟨r, .inr rfl, hgood⟩

/-- What a key shows is a set with these members, in one of the encodings; a missing key has none. -/
def ShowsSet (now : Int) (s : State) (k : Key) (P : Bytes → Prop) : Prop :=
  match (s.getEntity now k).1 with
  | none => ∀ m, ¬P m
  | some e => ∃ o, e.value = .coll (.set o) ∧ IsSet o P

section

variable {good : Reply → Prop}

theorem wp_getAsSet {P : Bytes → Prop} {Q : Option (SetObj × Bool) → Unit → Prop} (h : ShowsSet env.now s k P)
    (hQ : ∀ found, IsSet ((found.map Prod.fst).getD .new) P → Q found ()) :
    (getAsSet env k).wp (lookups env.now s good) Q () := by
  refine ⟨trivial, ?_⟩
  rintro _ rfl
  unfold ShowsSet at h
  split at h
  · rename_i he
    rw [he]
    exact hQ none (isSet_new.congr fun m => iff_of_false id (h m))
  rename_i e he
  obtain ⟨robj, value⟩ := e
  obtain ⟨o, rfl : value = _, ho⟩ := h
  rw [he]
  cases robj with
  | true => exact hQ (some (o, true)) ho
  | false => exact hQ (some (_, false)) ((isSet_ofList ho.length_lt).congr ho.2)

theorem wp_getSets_lookups {A : Key → Bytes → Prop} {stop : Option Reply} (h : ∀ k ∈ keys, ShowsSet env.now s k (A k))
    (hstop : ∀ r ∈ stop, ∀ k ∈ keys, (∀ m, ¬A k m) → good r) : (getSets env stop keys).wp (lookups env.now s good)
      (fun sets _ => Forall₂ (fun k o => IsSet o (A k)) keys sets) () := by
  refine wp_fold (fun ks sets _ => ∃ done, keys = done ++ ks ∧ Forall₂ (fun k o => IsSet o (A k)) done sets)
    ⟨[], rfl, .nil⟩ (fun k ks sets _ hI => ?_) fun sets _ hI => ?_
  · obtain ⟨done, rfl, hsets⟩ := hI
    have hk : k ∈ done ++ k :: ks := by simp
    refine (wp_bind _ _).2 (wp_getAsSet (h k hk) fun found hfound => ?_)
    simp only [wp_bind, wp_whenSome, wp_pure]
    refine ⟨fun _ => ⟨done ++ [k], by simp, rel_append hsets (.cons hfound .nil)⟩, fun r hr => ?_⟩
    obtain ⟨hr, hlen⟩ := Option.filter_eq_some_iff.1 hr
    refine ⟨r, rfl, hstop r hr k hk fun m hm => ?_⟩
    simpa [length_eq_zero_iff.1 (of_decide_eq_true hlen)] using (hfound.2 m).2 hm
  · obtain ⟨done, rfl, hsets⟩ := hI
    simpa using hsets

end

theorem lists_members {o : SetObj} {P : Bytes → Prop} (h : IsSet o P) : Lists P (.multiBulk o.members) := by
  obtain ⟨⟨S, hS⟩, hP⟩ := h
  exact ⟨_, rfl, hS.nodup, hP⟩

/-- SINTER, SUNION and SDIFF on any mixture of encodings and missing keys. -/
theorem set_algebra (env : Env) (s : State) (A : Key → Bytes → Prop) (k : Key) (keys : List Key)
    (h : ∀ j ∈ k :: keys, ShowsSet env.now s j (A j)) :
    Answers env s (execSInter env (k :: keys)) (fun m => ∀ j ∈ k :: keys, A j m) ∧
    Answers env s (execSUnion env (k :: keys)) (fun m => ∃ j ∈ k :: keys, A j m) ∧
    Answers env s (execSDiff env (k :: keys)) fun m => A k m ∧ ¬∃ j ∈ keys, A j m := by
  refine ⟨answers_of_lookups ?_, answers_of_lookups ?_, answers_of_lookups ?_⟩
  · refine wp_seq (wp_getSets_lookups h fun r hr j hj hnil => ?_) fun sets _ hsets => ?_
    · -- an empty set among them
      obtain rfl := Option.some.inj hr
      exact ⟨[], rfl, nodup_nil, fun m => iff_of_false not_mem_nil fun hall => hnil m (hall j hj)⟩
    · exact lists_members (isSet_objectIntersect hsets (cons_ne_nil k keys))
  · exact wp_seq (wp_getSets_lookups h (by simp)) fun sets _ hsets => lists_members (isSet_objectUnion hsets)
  · refine wp_seq (wp_getSets_lookups h (by simp)) ?_
    rintro _ _ (_ | ⟨hset, hsets⟩)
    exact lists_members (isSet_objectDiff hsets hset)

/-- A listpack, an intset and a missing key. -/
theorem set_algebra_mixed :
    let one := (SetObj.new.add defaultEncodingThresholds "1").1
    let two := (one.add defaultEncodingThresholds "a").1
    let s := (State.empty.putNew [1] (.coll true (.set two))).putNew [2] (.coll true (.set one))
    let A : Key → Bytes → Prop := fun j m => j = [1] ∧ (m = "a" ∨ m = "1") ∨ j = [2] ∧ m = "1"
    Answers (.plain 0) s (execSDiff (.plain 0) [[1], [2], [3]]) fun m => A [1] m ∧ ¬∃ j ∈ [[2], [3]], A j m := by
  intro one two s A
  refine (set_algebra (.plain 0) s A [1] [[2], [3]] (forall_mem_cons.2 ⟨?_, forall_mem_cons.2 ⟨?_, ?_⟩⟩)).2.2
  · refine ⟨two, rfl, ⟨_, ((Object.Set.Represents.new.add (by decide)).2.add (by decide)).2⟩, ?_⟩
    simp [A, one, two, Object.add_spec, SetObj.new]
  · refine ⟨one, rfl, ⟨_, (Object.Set.Represents.new.add (by decide)).2⟩, ?_⟩
    simp [A, one, Object.add_spec, SetObj.new]
  · exact forall_mem_singleton.2 fun m hm => absurd hm (by simp [A])

end Hayakv.Cmd
