import Hayakv.Cmd.Sets
import Hayakv.Dict.Scan
import Mathlib.Data.List.Sort

/-!
# Whole runs of HSCAN and SSCAN

A cursor is a position in the sorted list of the keys that are there at the call. Keys that go away before
it move the rest down: a run returns every key that stays if no key before the cursor goes away between two
calls, and may pass over some otherwise. When nothing is added, it ends.
-/

namespace Hayakv.Cmd

open Engine List

/-! ## Positions in the sorted list -/

theorem bytesLt_iff {s t : Bytes} : bytesLt s t ↔ s < t := by
  induction s generalizing t with
  | nil => cases t <;> simp [bytesLt]
  | cons a s ih =>
    cases t with
    | nil => simp [bytesLt]
    | cons b t => simp [bytesLt, cons_lt_cons_iff, ih]

theorem sortBy_bytesLt (l : List Bytes) : sortBy bytesLt l = l.insertionSort (· ≤ ·) := by
  have hins (x : Bytes) (ys : List Bytes) : sortBy.ins bytesLt x ys = ys.orderedInsert (· ≤ ·) x := by
    induction ys with
    | nil => rfl
    | cons y ys ih => simp [sortBy.ins, bytesLt_iff, ih, ← List.not_lt]
  induction l with
  | nil => rfl
  | cons x l ih =>
    rw [sortBy, hins, ih]
    rfl

theorem perm_sorted (l : List Bytes) : (sortBy bytesLt l).Perm l := by
  rw [sortBy_bytesLt]
  exact perm_insertionSort _ l

theorem pairwise_sorted (l : List Bytes) : (sortBy bytesLt l).Pairwise (· ≤ ·) := by
  rw [sortBy_bytesLt]
  exact pairwise_insertionSort _ l

/-- A key keeps its place behind a position when the keys before that stay. -/
theorem mem_drop_sorted {l l' : List Bytes} {k : Bytes} {c : Nat} (h : l.Nodup)
    (hkept : ∀ x ∈ (sortBy bytesLt l).take c, x ∈ l') (hk : k ∈ (sortBy bytesLt l).drop c) (hk' : k ∈ l') :
    k ∈ (sortBy bytesLt l').drop c := by
  have hs := pairwise_sorted l
  have hs' := pairwise_sorted l'
  have hnd := (perm_sorted l).nodup_iff.2 h
  rw [← take_append_drop c (sortBy bytesLt l)] at hs hnd
  rw [← take_append_drop c (sortBy bytesLt l')] at hs'
  obtain ⟨hnd, -, hne⟩ := nodup_append.1 hnd
  have hsplit (x : Bytes) (hx : x ∈ l') : x ∈ (sortBy bytesLt l').take c ∨ x ∈ (sortBy bytesLt l').drop c := by
    rwa [← mem_append, take_append_drop, (perm_sorted l').mem_iff]
  by_contra hn
  -- otherwise it and the keys before the position are all before the position
  have hsub : k :: (sortBy bytesLt l).take c ⊆ (sortBy bytesLt l').take c := by
    have hk' := (hsplit k hk').resolve_right hn
    refine cons_subset.2 ⟨hk', fun x hx => (hsplit x (hkept x hx)).resolve_right fun hx' => ?_⟩
    exact hne x hx k hk (List.le_antisymm ((pairwise_append.1 hs).2.2 x hx k hk) ((pairwise_append.1 hs').2.2 k hk' x hx'))
  have hlen := ((nodup_cons.2 ⟨fun hx => hne k hx k hk rfl, hnd⟩).subperm hsub).length_le
  have hc : c < (sortBy bytesLt l).length := by
    simpa using length_pos_of_mem hk
  simp only [length_cons, length_take] at hlen
  omega

/-! ## Runs -/

/-- One of the commands, on objects of a type, with a count and a pattern. -/
structure Scanner (σ : Type) where
  keys : σ → List Bytes
  scan : σ → Int → Option (List Reply × Int)
  names : List Reply → List Reply

namespace Scanner

variable {σ : Type} (S : Scanner σ)

def sorted (s : σ) : List Bytes := sortBy bytesLt (S.keys s)

/-- The calls of a run, on the object as it is at each call: the keys returned, and the last cursor. -/
def run : Int → σ → List σ → Option (List Reply × Int)
  | cursor, s, [] => (S.scan s cursor).map fun (found, next) => (S.names found, next)
  | cursor, s, t :: later => do
    let (found, next) ← S.scan s cursor
    if next ≤ 0 then none
    else
      let (more, last) ← run next t later
      return (S.names found ++ more, last)

/-- Between two calls no key before the cursor goes away. -/
def Kept : Int → σ → List σ → Prop
  | _, _, [] => True
  | cursor, s, t :: later => ∀ r ∈ S.scan s cursor,
    (∀ k ∈ (S.sorted s).take r.2.toNat, k ∈ S.keys t) ∧ Kept r.2 t later

/-- What a call does with the keys from the cursor on that match: it returns them or leaves them to the next
call. It takes one key at least. -/
def Pages (Match : Bytes → Prop) : Prop :=
  ∀ s (c : Nat), ∃ found next, S.scan s c = some (found, next) ∧
    (next ≤ 0 ∨ c < next ∧ next < (S.keys s).length) ∧
    (next = -1 ∨ ∀ k ∈ (S.sorted s).drop c, Match k →
      .bulk (some k) ∈ S.names found ∨ 0 < next ∧ k ∈ (S.sorted s).drop next.toNat)

variable {S} {Match : Bytes → Prop}

theorem Pages.returns (h : S.Pages Match) {s : σ} {later : List σ} {c : Nat} {found : List Reply} {k : Bytes}
    (hnodup : ∀ t ∈ s :: later, (S.keys t).Nodup) (hkept : S.Kept c s later)
    (hrun : S.run c s later = some (found, 0)) (hk : ∀ t ∈ s :: later, k ∈ S.keys t) (hm : Match k)
    (hpos : k ∈ (S.sorted s).drop c) : .bulk (some k) ∈ found := by
  obtain ⟨page, next, hscan, -, hpage⟩ := h s c
  induction later generalizing s c found page next with
  | nil =>
    simp only [run, hscan, Option.map_some, Option.some.injEq, Prod.mk.injEq] at hrun
    obtain ⟨rfl, rfl⟩ := hrun
    exact ((hpage.resolve_left (by decide)) k hpos hm).resolve_right fun h => absurd h.1 (by decide)
  | cons t later ih =>
    obtain ⟨hstay, hkept⟩ := hkept _ hscan
    rw [forall_mem_cons] at hnodup hk
    simp only [run, hscan, Option.bind_eq_bind, Option.bind_some] at hrun
    split at hrun
    · cases hrun
    obtain ⟨⟨more, last⟩, hrest, heq⟩ := Option.bind_eq_some_iff.1 hrun
    cases heq
    rcases hpage.resolve_left (by omega) k hpos hm with hret | ⟨-, hdrop⟩
    · exact mem_append_left _ hret
    · obtain ⟨c', rfl⟩ := Int.eq_ofNat_of_zero_le (show 0 ≤ next by omega)
      obtain ⟨page', next', hscan', -, hpage'⟩ := h t c'
      refine mem_append_right _ (ih hnodup.2 hkept hrest hk.2 ?_ page' next' hscan' hpage')
      exact mem_drop_sorted hnodup.1 hstay hdrop (hk.2 t mem_cons_self)

theorem Pages.ends (h : S.Pages Match) {bound left : Nat} {objs : Nat → σ}
    (hlen : ∀ n, (S.keys (objs n)).length ≤ bound) {c : Nat} (hleft : bound ≤ c + left) :
    ∃ n found last, S.run c (objs 0) ((range n).map fun i => objs (i + 1)) = some (found, last) ∧ last ≤ 0 := by
  induction left generalizing objs c with
  | zero =>
    obtain ⟨page, next, hscan, hnext, -⟩ := h (objs 0) c
    have := hlen 0
    exact ⟨0, S.names page, next, congrArg (Option.map _) hscan, by omega⟩
  | succ left ih =>
    obtain ⟨page, next, hscan, hend | ⟨hlt, -⟩, -⟩ := h (objs 0) c
    · exact ⟨0, S.names page, next, congrArg (Option.map _) hscan, hend⟩
    · obtain ⟨c', rfl⟩ := Int.eq_ofNat_of_zero_le (show 0 ≤ next by omega)
      obtain ⟨n, found, last, hrun, hlast⟩ := ih (fun n => hlen (n + 1)) (show bound ≤ c' + left by omega)
      refine ⟨n + 1, S.names page ++ found, last, ?_, hlast⟩
      rw [range_succ_eq_map, map_cons, map_map, run, hscan]
      simp only [Option.bind_eq_bind, Option.bind_some, if_neg (show ¬(c' : Int) ≤ 0 by omega)]
      exact Option.bind_eq_some_iff.2 ⟨_, hrun, rfl⟩

/-- The guarantee: a run to the cursor 0 returns every key that matches and is there at all its calls if no key
before the cursor goes away between the calls, and every run ends if nothing is added. -/
def Complete (S : Scanner σ) (Match : Bytes → Prop) : Prop :=
  (∀ s later found, (∀ t ∈ s :: later, (S.keys t).Nodup) → S.Kept 0 s later → S.run 0 s later = some (found, 0) →
    ∀ k, (∀ t ∈ s :: later, k ∈ S.keys t) → Match k → .bulk (some k) ∈ found) ∧
  ∀ objs : Nat → σ, (∀ n, (S.keys (objs n)).Nodup) → (∀ n, S.keys (objs (n + 1)) ⊆ S.keys (objs n)) →
    ∃ n found last, S.run 0 (objs 0) ((range n).map fun i => objs (i + 1)) = some (found, last) ∧ last ≤ 0

theorem Pages.complete (h : S.Pages Match) : S.Complete Match := by
  refine ⟨fun s later found hnodup hkept hrun k hk hm => ?_, fun objs hnodup hsub => ?_⟩
  · exact h.returns hnodup hkept hrun hk hm ((perm_sorted _).mem_iff.2 (hk s mem_cons_self))
  · have hlen (n : Nat) : (S.keys (objs n)).length ≤ (S.keys (objs 0)).length := by
      induction n with
      | zero => exact le_rfl
      | succ n ih => exact ((hnodup (n + 1)).subperm (hsub n)).length_le.trans ih
    exact h.ends hlen (Nat.le_add_left _ 0)

end Scanner

/-! ## Calls -/

section calls

variable {pattern : Bytes} {emit : Bytes → List Reply} {most : Int}

theorem scanFrom_spec (isMatch : Bytes → Bool) (ks : List Bytes) (i : Nat) (found : List Reply) :
    ∃ n ≤ ks.length, scanFrom pattern emit most isMatch ks i found =
        (found ++ ((ks.take n).filter fun k => pattern = "*" || isMatch k).flatMap emit, ↑(i + n)) ∧
      (found.length < most → 0 < ks.length → 0 < n) := by
  induction ks generalizing i found with
  | nil => exact ⟨0, le_rfl, by simp [scanFrom], fun _ h => h⟩
  | cons k ks ih =>
    rw [scanFrom]
    split
    · exact ⟨0, Nat.zero_le _, by simp, fun h => by omega⟩
    split
    all_goals
      rename_i hmatch
      obtain ⟨n, hn, heq, -⟩ := ih (i + 1) _
      refine ⟨n + 1, Nat.succ_le_succ hn, ?_, fun _ _ => Nat.succ_pos n⟩
      rw [heq, take_succ_cons, filter_cons, show i + 1 + n = i + (n + 1) by ring]
      simp [hmatch]

theorem pages {σ : Type} {S : Scanner σ} {emit : σ → Bytes → List Reply} (hmost : 0 < most) {env : Env}
    (hscan : ∀ s (c : Nat), S.scan s c = scanSorted env (S.keys s) (emit s) most c pattern)
    (hnames : ∀ s (l : List Bytes), S.names (l.flatMap (emit s)) = l.map fun k => .bulk (some k)) :
    S.Pages (Dict.Matches env.compilePattern pattern) := by
  intro s c
  rw [hscan, scanSorted, ← (perm_sorted (S.keys s)).length_eq, ← Scanner.sorted]
  generalize S.sorted s = all
  by_cases hall : all = []
  · exact ⟨[], 0, if_pos hall, .inl le_rfl, .inr (by simp [hall])⟩
  cases hc : env.compilePattern pattern with
  | none => exact ⟨[], -1, if_neg hall, .inl (by decide), .inl rfl⟩
  | some isMatch =>
    obtain ⟨n, hn, heq, hpos⟩ := @scanFrom_spec pattern (emit s) most isMatch (all.drop c) c []
    rw [length_drop] at hn hpos
    simp only [Int.toNat_natCast, heq, if_neg hall, if_neg (Int.natCast_nonneg c).not_gt]
    refine ⟨_, _, rfl, ?_, .inr fun k hk hm => ?_⟩
    · split
      · exact .inl le_rfl
      · have := hpos hmost (by omega)
        exact .inr ⟨by omega, by omega⟩
    · rw [← take_append_drop n (all.drop c), mem_append, drop_drop] at hk
      rcases hk with hk | hk
      · rw [nil_append, hnames]
        refine .inl (mem_map.2 ⟨k, mem_filter.2 ⟨hk, ?_⟩, rfl⟩)
        rcases hm with rfl | ⟨m, hm, hmk⟩
        · rfl
        · cases hc.symm.trans hm
          simp [hmk]
      · have hlt := length_pos_of_mem hk
        rw [length_drop] at hlt
        have := hpos hmost (by omega)
        rw [if_neg (by omega)]
        exact .inr ⟨by omega, hk⟩

end calls

def everySecond : List Reply → List Reply
  | field :: _ :: rest => field :: everySecond rest
  | _ => []

section commands

variable (env : Env) (count : Int) (pattern : Bytes)

def hscan : Scanner HashObj :=
  ⟨fun h => h.fields.map Prod.fst, fun h cursor => scanHash env h cursor count pattern, everySecond⟩

def sscan : Scanner SetObj := ⟨SetObj.members, fun s cursor => scanSet env s cursor count pattern, id⟩

variable {count}

/-- HSCAN and SSCAN keep the guarantee; the count of HSCAN must not wrap when it is doubled. -/
theorem scans_complete (hcount : 1 ≤ count) :
    (count < 2 ^ 62 → (hscan env count pattern).Complete (Dict.Matches env.compilePattern pattern)) ∧
      (sscan env count pattern).Complete (Dict.Matches env.compilePattern pattern) := by
  refine ⟨fun h => (pages ?_ (fun _ _ => rfl) fun s l => ?_).complete,
    (pages hcount (fun _ _ => rfl) fun s l => ?_).complete⟩
  · unfold wrap64
    omega
  · induction l with
    | nil => rfl
    | cons k l ih => exact congrArg (_ :: ·) ih
  · exact flatMap_pure_eq_map _ l

end commands

def anyPattern : Env := { Env.plain 0 with compilePattern := fun _ => some fun _ => true }

/-- Three calls of SSCAN with count 1: after the first `d` goes and `c` comes, both behind the cursor. The keys
`a` and `b`, which stay, are returned. -/
theorem scans_complete_three :
    let S := sscan anyPattern 1 "*"
    let s : SetObj := ⟨["d", "b", "a"], .listpack⟩
    let t : SetObj := ⟨["c", "b", "a"], .listpack⟩
    let found : List Reply := ["a", "b", "c"].map fun k => .bulk (some (str k))
    S.Kept 0 s [t, t] ∧ S.run 0 s [t, t] = some (found, 0) ∧
      ∀ k, (∀ u ∈ [s, t, t], k ∈ S.keys u) → .bulk (some k) ∈ found := by
  intro S s t found
  have hkept : S.Kept 0 s [t, t] := by
    rintro _ ⟨⟩
    refine ⟨by decide, ?_⟩
    rintro _ ⟨⟩
    exact ⟨by decide, trivial⟩
  have hrun : S.run 0 s [t, t] = some (found, 0) := rfl
  refine ⟨hkept, hrun, fun k hk => ?_⟩
  exact (scans_complete anyPattern "*" le_rfl).2.1 s [t, t] found (by decide) hkept hrun k hk (.inl rfl)

/-- SSCAN with count 1 on `a`, `b` and `c` returns `a` and the cursor 1. After SREM of `a` that is the position
of `c`. -/
theorem scan_passes_over :
    let S := sscan anyPattern 1 "*"
    ¬∀ s later found, (∀ t ∈ s :: later, (S.keys t).Nodup) → S.run 0 s later = some (found, 0) →
      ∀ k, (∀ t ∈ s :: later, k ∈ S.keys t) → .bulk (some k) ∈ found := by
  intro S h
  let s : SetObj := ⟨["a", "b", "c"], .listpack⟩
  have hb := h s [(s.remove "a").1] [.bulk (some "a"), .bulk (some "c")] (by decide) rfl "b" (by decide)
  have hb : str "b" = str "a" ∨ str "b" = str "c" := by simpa using hb
  exact absurd hb (by decide)

end Hayakv.Cmd
