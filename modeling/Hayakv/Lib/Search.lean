import Mathlib.Data.List.Nodup
import Mathlib.Order.Lattice

/-!
# Binary search

Go's `sort.Search(n, f)`: the least index below `n` at which `f` holds, for an `f` that holds from
some index on. In an ascending list, `position` finds where a value is or belongs.
-/

namespace Hayakv

open List

/-- The loop of `sort.Search` on `[i, j)`. -/
def searchFrom (f : Nat → Bool) : Nat → Nat → Nat → Nat
  | 0, i, _ => i
  | fuel + 1, i, j =>
    if i < j then
      if f ((i + j) / 2) then searchFrom f fuel i ((i + j) / 2) else searchFrom f fuel ((i + j) / 2 + 1) j
    else i

/-- `sort.Search`. Every step makes the range shorter, so `n` of them are enough. -/
def search (n : Nat) (f : Nat → Bool) : Nat := searchFrom f n 0 n

variable {f : Nat → Bool} {n : Nat}

theorem searchFrom_spec (hmono : ∀ i j, i ≤ j → j < n → f i = true → f j = true) {fuel i j : Nat}
    (hfuel : j - i ≤ fuel) (hij : i ≤ j) (hj : j ≤ n) (hlo : ∀ k < i, f k = false)
    (hhi : ∀ k, j ≤ k → k < n → f k = true) : searchFrom f fuel i j ≤ n ∧ (∀ k < searchFrom f fuel i j, f k = false) ∧
      ∀ k, searchFrom f fuel i j ≤ k → k < n → f k = true := by
  induction fuel generalizing i j with
  | zero =>
    obtain rfl : i = j := by omega
    exact ⟨hj, hlo, hhi⟩
  | succ fuel ih =>
    rw [searchFrom]
    split
    · split
      · rename_i hf
        exact ih (by omega) (by omega) (by omega) hlo fun k hk hkn => hmono _ k hk hkn hf
      rename_i hf
      refine ih (by omega) (by omega) hj (fun k hk => ?_) hhi
      -- at or below an index at which `f` does not hold
      by_contra hfk
      exact hf (hmono k _ (by omega) (by omega) (by simpa using hfk))
    · obtain rfl : i = j := by omega
      exact ⟨hj, hlo, hhi⟩

theorem search_spec (hmono : ∀ i j, i ≤ j → j < n → f i = true → f j = true) :
    search n f ≤ n ∧ (∀ k < search n f, f k = false) ∧ ∀ k, search n f ≤ k → k < n → f k = true :=
  searchFrom_spec hmono (by omega) (by omega) le_rfl (by simp) fun k hk hkn => absurd hkn (by omega)

/-! ## Ascending lists -/

section Ascending

variable {α : Type*} [LinearOrder α] {l : List α} {d x : α}

/-- The index of the first element that is not below `x`; `d` stands for what is beyond the list. -/
def position (l : List α) (d x : α) : Nat := search l.length fun i => x ≤ l.getD i d

section

variable (h : l.Pairwise (· < ·))
include h

theorem position_spec (d x : α) : position l d x ≤ l.length ∧
    (∀ y ∈ l.take (position l d x), y < x) ∧ ∀ y ∈ l.drop (position l d x), x ≤ y := by
  have hmono : ∀ i j, i ≤ j → j < l.length → decide (x ≤ l.getD i d) = true → decide (x ≤ l.getD j d) = true := by
    intro i j hij hj hi
    rcases Nat.eq_or_lt_of_le hij with rfl | hlt
    · exact hi
    · have hlt' := pairwise_iff_getElem.1 h i j (by omega) hj hlt
      simp only [getD_eq_getElem?_getD, getElem?_eq_getElem hj,
        getElem?_eq_getElem (hlt.trans hj), Option.getD_some, decide_eq_true_eq] at hi ⊢
      exact hi.trans hlt'.le
  obtain ⟨hle, hlo, hhi⟩ := search_spec hmono
  refine ⟨hle, fun y hy => ?_, fun y hy => ?_⟩
  · obtain ⟨i, hi, rfl⟩ := getElem_of_mem hy
    rw [length_take] at hi
    have := hlo i (lt_of_lt_of_le hi (Nat.min_le_left _ _))
    simpa [getD_eq_getElem?_getD, getElem?_eq_getElem (lt_of_lt_of_le hi (Nat.min_le_right _ _))] using this
  · obtain ⟨i, hi, rfl⟩ := getElem_of_mem hy
    rw [length_drop] at hi
    have := hhi (position l d x + i) (Nat.le_add_right _ _) (by omega)
    simpa [getD_eq_getElem?_getD, getElem?_eq_getElem (show position l d x + i < l.length by omega)] using this

theorem getElem?_position (d : α) : l[position l d x]? = some x ↔ x ∈ l := by
  obtain ⟨-, hlo, hhi⟩ := position_spec h d x
  refine ⟨mem_of_getElem?, fun hx => ?_⟩
  rw [← take_append_drop (position l d x) l, mem_append] at hx
  have hdrop : x ∈ l.drop (position l d x) := hx.resolve_left fun hmem => absurd (hlo x hmem) (lt_irrefl x)
  -- the first element that is not less than `x` is `x`
  cases hd : l.drop (position l d x) with
  | nil => simp [hd] at hdrop
  | cons y ys =>
    have hsorted := (pairwise_append.1 (take_append_drop (position l d x) l ▸ h)).2.1
    rw [hd] at hsorted hdrop hhi
    have hy : y = x := by
      rcases mem_cons.1 hdrop with rfl | hmem
      · rfl
      · have h1 := (pairwise_cons.1 hsorted).1 x hmem
        have h2 := hhi y mem_cons_self
        exact absurd (h1.trans_le h2) (lt_irrefl y)
    rw [← Nat.add_zero (position l d x), ← getElem?_drop, hd, hy]
    rfl

theorem pairwise_insert_position (d : α) (hx : x ∉ l) :
    (l.take (position l d x) ++ x :: l.drop (position l d x)).Pairwise (· < ·) := by
  obtain ⟨-, hlo, hhi⟩ := position_spec h d x
  have hsplit := pairwise_append.1 (take_append_drop (position l d x) l ▸ h)
  have hgt : ∀ y ∈ l.drop (position l d x), x < y := fun y hy =>
    lt_of_le_of_ne (hhi y hy) fun heq => hx (heq ▸ mem_of_mem_drop hy)
  refine pairwise_append.2 ⟨hsplit.1, pairwise_cons.2 ⟨hgt, hsplit.2.1⟩, fun y hy z hz => ?_⟩
  rcases mem_cons.1 hz with rfl | hz
  · exact hlo y hy
  · exact (hlo y hy).trans (hgt z hz)

theorem eraseIdx_position (d : α) (hx : x ∈ l) : l.eraseIdx (position l d x) = l.filter (· ≠ x) := by
  obtain ⟨hlt, hval⟩ := List.getElem?_eq_some_iff.1 ((getElem?_position h d).2 hx)
  have hnd : l.Nodup := h.imp fun hab => ne_of_lt hab
  calc l.eraseIdx (position l d x) = l.erase x := by rw [← hnd.erase_getElem _ hlt, hval]
    _ = l.filter (· != x) := hnd.erase_eq_filter x
    _ = l.filter (· ≠ x) := filter_congr fun y _ => by by_cases hy : y = x <;> simp [hy]

theorem ascending_ext {l' : List α} (h' : l'.Pairwise (· < ·)) (hmem : ∀ x, x ∈ l ↔ x ∈ l') : l = l' :=
  List.Perm.eq_of_pairwise (fun a _ _ _ hab hba => absurd (hab.trans hba) (lt_irrefl a)) h h'
    ((perm_ext_iff_of_nodup (h.imp ne_of_lt) (h'.imp ne_of_lt)).2 hmem)

end

end Ascending

end Hayakv
