import Hayakv.Cmd.SortedSets

/-!
# LPOS

LPOS answers the positions of an element in a list, from either end. What it counts backwards is taken from the
front (`lpos_symmetric`).
-/

namespace Hayakv.Cmd

open Engine Exec List

def hits (element : Bytes) (xs : List Bytes) : List Nat := (range xs.length).filter (xs[·]? = some element)

/-- The first elements of a list, all for 0. -/
def upTo {α : Type} (n : Nat) (xs : List α) : List α := if n = 0 then xs else xs.take n

def LPosOpts.answer (opts : LPosOpts) (element : Bytes) (l : ListObj) : List Nat := (lposMatches opts element l).getD []

section

variable {l : ListObj} {element : Bytes} {r c m : Nat}

theorem filter_eq_hits (l : ListObj) (element : Bytes) (m : Nat) :
    (range (min m l.len)).filter (fun i => l.get i = some element) = hits element (l.elems.take m) := by
  rw [hits, length_take]
  refine filter_congr fun i hi => ?_
  rw [mem_range] at hi
  rw [ListObj.get, getElem?_take_of_lt (by omega)]

theorem pairwise_hits (element : Bytes) (xs : List Bytes) : (hits element xs).Pairwise (· < ·) :=
  pairwise_lt_range.filter _

theorem answer_pos (hr : 1 ≤ r) :
    LPosOpts.answer ⟨r, c, m⟩ element l = upTo c ((hits element (l.elems.take m)).drop (r - 1)) := by
  simp [LPosOpts.answer, lposMatches, filter_eq_hits, upTo, show 0 < r from hr]

/-- Backwards, up to `r` of the matches among the first elements, unless the sum wraps. -/
theorem answer_neg (hr : 1 ≤ r) (hc : c < 2 ^ 63) (hlen : l.len < 2 ^ 63) :
    let hs := hits element (l.elems.take m)
    LPosOpts.answer ⟨-r, c, m⟩ element l = (hs.drop (hs.length - r)).take
      (if hs.length < r ∨ 2 ^ 63 ≤ hs.length - r + c then 0 else min c r) := by
  intro hs
  have hle : hs.length ≤ l.len := by
    refine (length_filter_le _ _).trans ?_
    simp [ListObj.len]
  simp only [LPosOpts.answer, lposMatches, Int.natCast_nonneg, if_true, Int.toNat_natCast, filter_eq_hits,
    show ¬0 < -(r : Int) by omega, if_false, show ¬(c : Int) < 0 by omega]
  rw [show hits element (l.elems.take m) = hs from rfl]
  by_cases hfew : hs.length < r
  · rw [if_pos (by omega), if_pos (.inl hfew)]
    simp
  · rw [if_neg (by omega), Option.getD_some, show ((hs.length : Int) + -(r : Int)).toNat = hs.length - r by omega]
    congr 1
    rw [wrap64]
    split <;> omega

theorem length_upTo {α : Type} (xs : List α) : (upTo c xs).length = if c = 0 then xs.length else min c xs.length := by
  rw [upTo]
  split <;> simp

theorem upTo_drop_eq_nil {α : Type} {xs : List α} (hr : 1 ≤ r) : upTo c (xs.drop (r - 1)) = [] ↔ xs.length < r := by
  rw [← length_eq_zero_iff, length_upTo, length_drop]
  split <;> omega

/-- When backwards is forwards on the reversed list, given the matches among the first elements and, in descending
order, those among the last: neither gives one, or both give the same one. -/
def Turns (front back : List Nat) (r c : Nat) : Prop :=
  if c = 0 ∨ front.length < r ∨ 2 ^ 63 ≤ front.length - r + c then back.length < r
  else r ≤ back.length ∧ (c = 1 ∨ r = 1 ∧ back.length = 1) ∧ front[front.length - r]? = back[r - 1]?

theorem turns_iff {front back : List Nat} (hr : 1 ≤ r) (hasc : front.Pairwise (· < ·)) (hdesc : back.Pairwise (· > ·)) :
    (front.drop (front.length - r)).take (if front.length < r ∨ 2 ^ 63 ≤ front.length - r + c then 0 else min c r) =
      upTo c (back.drop (r - 1)) ↔ Turns front back r c := by
  rw [Turns]
  by_cases hnone : c = 0 ∨ front.length < r ∨ 2 ^ 63 ≤ front.length - r + c
  · have hzero : (if front.length < r ∨ 2 ^ 63 ≤ front.length - r + c then 0 else min c r) = 0 := by
      split <;> omega
    rw [if_pos hnone, hzero, take_zero, eq_comm, upTo_drop_eq_nil hr]
  have hc : c ≠ 0 := fun h => hnone (.inl h)
  have hk := not_or.1 (not_or.1 hnone).2
  rw [if_neg hnone, if_neg (not_or.2 hk), upTo, if_neg hc]
  have hl : ((front.drop (front.length - r)).take (min c r)).length = min c r := by
    rw [length_take, length_drop]
    omega
  have hr' : ((back.drop (r - 1)).take c).length = min c (back.length - (r - 1)) := by
    rw [length_take, length_drop]
  have hhead : ((front.drop (front.length - r)).take (min c r))[0]? = front[front.length - r]? := by
    rw [getElem?_take_of_lt (by omega), getElem?_drop, Nat.add_zero]
  have hhead' : ((back.drop (r - 1)).take c)[0]? = back[r - 1]? := by
    rw [getElem?_take_of_lt (by omega), getElem?_drop, Nat.add_zero]
  constructor
  · intro heq
    -- what ascends and descends has at most one element
    have hone : min c r ≤ 1 := by
      have h1 := (hasc.drop (i := front.length - r)).take (i := min c r)
      have h2 := heq ▸ (hdesc.drop (i := r - 1)).take (i := c)
      rw [← hl]
      match (front.drop (front.length - r)).take (min c r), h1, h2 with
      | [], _, _ => simp
      | [_], _, _ => simp
      | a :: b :: _, h1, h2 =>
        have hlt := rel_of_pairwise_cons h1 mem_cons_self
        have hgt := rel_of_pairwise_cons h2 mem_cons_self
        omega
    rw [heq, hr'] at hl
    rw [heq, hhead'] at hhead
    exact ⟨by omega, by omega, hhead.symm⟩
  · rintro ⟨hle, hone, heq⟩
    refine ext_getElem? fun i => ?_
    cases i with
    | zero => rw [hhead, hhead', heq]
    | succ i => rw [getElem?_eq_none (by omega), getElem?_eq_none (by omega)]

theorem lpos_symmetric (l : ListObj) (element : Bytes) (m : Nat) (hr : 1 ≤ r) (hc : c < 2 ^ 63) (hlen : l.len < 2 ^ 63) :
    (LPosOpts.answer ⟨r, c, m⟩ element l = upTo c ((hits element (upTo m l.elems)).drop (r - 1)) ↔
      (m = 0 → (hits element l.elems).length < r)) ∧
    (LPosOpts.answer ⟨-r, c, m⟩ element l =
        (LPosOpts.answer ⟨r, c, m⟩ element { l with elems := l.elems.reverse }).map (l.len - 1 - ·) ↔
      Turns (hits element (l.elems.take m)) ((hits element (l.elems.reverse.take m)).map (l.len - 1 - ·)) r c) := by
  rw [answer_neg hr hc hlen, answer_pos hr, answer_pos hr]
  constructor
  · by_cases hm : m = 0
    · have hnil : upTo c ((hits element (l.elems.take 0)).drop (r - 1)) = [] := (upTo_drop_eq_nil hr).2 hr
      rw [hm, hnil, eq_comm, upTo_drop_eq_nil hr]
      simp [upTo]
    · simp [hm, upTo]
  · have hmap : ∀ xs : List Nat, (upTo c xs).map (l.len - 1 - ·) = upTo c (xs.map (l.len - 1 - ·)) := fun xs => by
      simp only [upTo]
      split <;> simp
    rw [hmap, map_drop]
    refine turns_iff hr (pairwise_hits _ _) (pairwise_map.2 ?_)
    refine (pairwise_hits _ _).imp_of_mem fun {i j} _ hj hij => ?_
    have hlt := mem_range.1 (mem_of_mem_filter hj)
    rw [length_take, length_reverse] at hlt
    rw [ListObj.len]
    omega

/-- The second of three matches, from either end. -/
theorem lpos_symmetric_second :
    let l : ListObj := ⟨[[7], [8], [7], [9], [7]], true⟩
    LPosOpts.answer ⟨2, 1, 5⟩ [7] l = upTo 1 ((hits [7] (upTo 5 l.elems)).drop 1) ∧
      LPosOpts.answer ⟨-2, 1, 5⟩ [7] l =
        (LPosOpts.answer ⟨2, 1, 5⟩ [7] { l with elems := l.elems.reverse }).map (5 - 1 - ·) := by
  intro l
  have htwo := @lpos_symmetric 2 1 l [7] 5 (by decide) (by decide) (by decide)
  exact ⟨htwo.1.2 (by decide), htwo.2.2 (by unfold Turns; decide)⟩

/-- Without a limit backwards, there is no match. -/
theorem lpos_count_zero : ¬∀ (l : ListObj) (element : Bytes) (r c m : Nat), 1 ≤ r → c < 2 ^ 63 → l.len < 2 ^ 63 →
    LPosOpts.answer ⟨-r, c, m⟩ element l =
      (LPosOpts.answer ⟨r, c, m⟩ element { l with elems := l.elems.reverse }).map (l.len - 1 - ·) := fun h =>
  absurd (h ⟨[[7]], true⟩ [7] 1 0 5 (by decide) (by decide) (by decide)) (by decide)

end

end Hayakv.Cmd
