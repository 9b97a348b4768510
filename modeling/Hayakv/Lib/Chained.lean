import Mathlib.Data.List.Perm.Basic
import Mathlib.Data.List.Nodup
import Mathlib.Data.List.Flatten
import Mathlib.Data.List.GetD

/-!
# Tables of chains

A table is a list of chains, and a chain a list of entries `(k, v)`. An index
function `ix` says which chain a key belongs to; a table is `Placed` when every
entry stands in the chain of its key. The entries of a table are its chains
joined.
-/

namespace Hayakv.Chained

open List

variable {K V : Type*}

abbrev keys (es : List (K × V)) : List K := es.map Prod.fst

/-- Every entry stands in the chain that `ix` gives its key. -/
def Placed (ix : K → Nat) (bs : List (List (K × V))) : Prop := ∀ b, ∀ e ∈ bs.getD b [], ix e.1 = b

theorem placed_replicate (ix : K → Nat) (n : Nat) : Placed ix (replicate n ([] : List (K × V))) := by
  intro b e he
  simp at he

variable {bs : List (List (K × V))} {i : Nat}

theorem mem_flatten_getD {e : K × V} : e ∈ bs.flatten ↔ ∃ b, e ∈ bs.getD b [] := by
  rw [mem_flatten]
  constructor
  · rintro ⟨l, hl, he⟩
    obtain ⟨b, hb, rfl⟩ := mem_iff_getElem.1 hl
    exact ⟨b, by rwa [getD_eq_getElem _ _ hb]⟩
  · rintro ⟨b, he⟩
    rcases Nat.lt_or_ge b bs.length with hb | hb
    · rw [getD_eq_getElem _ _ hb] at he
      exact ⟨_, getElem_mem hb, he⟩
    · rw [getD_eq_default _ _ hb] at he
      cases he

/-- In a placed table, an entry is among the entries iff it is in its own chain. -/
theorem mem_flatten_iff {ix : K → Nat} (h : Placed ix bs) {e : K × V} : e ∈ bs.flatten ↔ e ∈ bs.getD (ix e.1) [] := by
  rw [mem_flatten_getD]
  constructor
  · rintro ⟨b, he⟩
    rwa [h b e he]
  · exact fun he => ⟨_, he⟩

theorem getD_modify (bs : List (List (K × V))) (i j : Nat) (f : List (K × V) → List (K × V)) :
    (bs.modify i f).getD j [] = if i = j ∧ j < bs.length then f (bs.getD j []) else bs.getD j [] := by
  rw [getD_eq_getElem?_getD, getElem?_modify, getD_eq_getElem?_getD]
  rcases Nat.lt_or_ge j bs.length with hj | hj
  · rw [getElem?_eq_getElem hj]
    by_cases hij : i = j <;> simp [hij, hj]
  · simp [Nat.not_lt.2 hj]

/-- Changing one chain keeps a table placed when the entries it gains belong there. -/
theorem Placed.modify {ix : K → Nat} (h : Placed ix bs) {f : List (K × V) → List (K × V)}
    (hf : ∀ e ∈ f (bs.getD i []), e ∈ bs.getD i [] ∨ ix e.1 = i) : Placed ix (bs.modify i f) := by
  intro b e he
  rw [getD_modify] at he
  split at he
  · rename_i hb
    obtain ⟨rfl, -⟩ := hb
    exact (hf e he).elim (h i e) id
  · exact h b e he

theorem flatten_eraseIdx (hi : i < bs.length) : bs.flatten ~ bs.getD i [] ++ (bs.eraseIdx i).flatten := by
  rw [getD_eq_getElem _ _ hi]
  exact (getElem_cons_eraseIdx_perm hi).symm.flatten

/-- The entries after one chain is changed: the new chain, and all that was not in
the old one. -/
theorem flatten_modify (hi : i < bs.length) (f : List (K × V) → List (K × V)) :
    (bs.modify i f).flatten ~ f (bs.getD i []) ++ (bs.eraseIdx i).flatten := by
  have h : (bs.modify i f).flatten ~ (bs.modify i f).getD i [] ++ ((bs.modify i f).eraseIdx i).flatten :=
    flatten_eraseIdx (by rwa [length_modify])
  rwa [getD_modify, if_pos ⟨rfl, hi⟩, eraseIdx_modify_of_eq] at h

theorem flatten_modify_cons (hi : i < bs.length) (e : K × V) : (bs.modify i (e :: ·)).flatten ~ e :: bs.flatten := by
  calc (bs.modify i (e :: ·)).flatten
      _ ~ e :: (bs.getD i [] ++ (bs.eraseIdx i).flatten) := flatten_modify hi _
      _ ~ e :: bs.flatten := (flatten_eraseIdx hi).symm.cons e

section Chain

variable [BEq K] [LawfulBEq K]

theorem lookup_eq_some_iff_mem {es : List (K × V)} (h : (keys es).Nodup) {k : K} {v : V} :
    es.lookup k = some v ↔ (k, v) ∈ es := by
  induction es with
  | nil => simp
  | cons e es ih =>
    rw [keys, map_cons, nodup_cons] at h
    obtain ⟨he, hes⟩ := h
    rw [lookup_cons]
    by_cases hk : k = e.1
    · have hn : (k, v) ∉ es := fun hm => he (hk ▸ mem_map_of_mem hm)
      simp [hk, Prod.ext_iff, eq_comm, hk ▸ hn]
    · simp [beq_eq_false_iff_ne.2 hk, ih hes, Prod.ext_iff, hk]

/-- Overwrite the value of the first entry of `k`. -/
def assign (k : K) (v : V) : List (K × V) → List (K × V)
  | [] => []
  | e :: es => if e.1 == k then (k, v) :: es else e :: assign k v es

def unlink (k : K) (es : List (K × V)) : List (K × V) := es.eraseP (·.1 == k)

/-- A present entry can be split off: overwriting replaces it, unlinking drops it. -/
theorem exists_split {es : List (K × V)} {k : K} {v : V} (h : es.lookup k = some v) :
    ∃ rest, es ~ (k, v) :: rest ∧ (∀ v', assign k v' es ~ (k, v') :: rest) ∧ unlink k es = rest := by
  induction es with
  | nil => cases h
  | cons e es ih =>
    rw [lookup_cons] at h
    by_cases hk : e.1 = k
    · obtain ⟨k', w⟩ := e
      obtain rfl : k' = k := hk
      obtain rfl : w = v := by simpa using h
      exact ⟨es, .rfl, fun v' => by simp [assign], by simp [unlink]⟩
    · rw [beq_eq_false_iff_ne.2 (Ne.symm hk)] at h
      obtain ⟨rest, hes, hassign, hunlink⟩ := ih h
      refine ⟨e :: rest, (hes.cons e).trans (.swap _ _ _), fun v' => ?_, ?_⟩
      · rw [assign, if_neg (by simpa using hk)]
        exact ((hassign v').cons e).trans (.swap _ _ _)
      · rw [unlink, eraseP_cons_of_neg (by simpa using hk), ← unlink, hunlink]

end Chain

end Hayakv.Chained
