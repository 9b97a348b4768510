import Mathlib.Data.Finmap

/-!
# Go maps

A Go map with finitely many keys is a `Finmap`. A loop over a map comes to its keys
in some order, each once (`Ranges`).
-/

namespace Hayakv

open Finmap Multiset

/-- A loop over a map goes through its keys in the order `order`. -/
def Ranges {κ ν : Type} (order : List κ) (m : κ → Option ν) : Prop := order.Nodup ∧ ∀ k, k ∈ order ↔ (m k).isSome

abbrev GoMap (κ ν : Type) := Finmap fun _ : κ => ν

namespace GoMap

variable {κ ν : Type} [DecidableEq κ]

/-- The value of a key, as a function that is not dependent. -/
def get (m : GoMap κ ν) (k : κ) : Option ν := Finmap.lookup k m

def set (m : GoMap κ ν) (k : κ) (v : ν) : GoMap κ ν := Finmap.insert k v m

def delete (m : GoMap κ ν) (k : κ) : GoMap κ ν := Finmap.erase k m

def modify (m : GoMap κ ν) (k : κ) (f : ν → ν) : GoMap κ ν :=
  match m.get k with
  | none => m
  | some v => m.set k (f v)

variable {m : GoMap κ ν} {k x : κ} {v : ν} {f : ν → ν}

@[ext] theorem ext {m' : GoMap κ ν} (h : ∀ k, m.get k = m'.get k) : m = m' := ext_lookup h

@[simp] theorem get_empty : get (∅ : GoMap κ ν) k = none := lookup_empty k

theorem get_set : (m.set k v).get x = if x = k then some v else m.get x := by
  by_cases h : x = k
  · subst h
    rw [if_pos rfl]
    exact lookup_insert m
  · rw [if_neg h]
    exact lookup_insert_of_ne m h

@[simp] theorem get_set_self : (m.set k v).get k = some v := by rw [get_set, if_pos rfl]

theorem get_set_of_ne (h : x ≠ k) : (m.set k v).get x = m.get x := by rw [get_set, if_neg h]

theorem get_set_eq_some {y : ν} (h : (m.set k v).get x = some y) : x = k ∧ y = v ∨ m.get x = some y := by
  rw [get_set] at h
  split at h
  · exact .inl ⟨‹_›, (Option.some.inj h).symm⟩
  · exact .inr h

theorem get_delete : (m.delete k).get x = if x = k then none else m.get x := by
  by_cases h : x = k
  · subst h
    rw [if_pos rfl]
    exact lookup_erase x m
  · rw [if_neg h]
    exact lookup_erase_ne h

theorem get_modify : (m.modify k f).get x = (m.get x).map fun v => if x = k then f v else v := by
  rw [modify]
  cases hk : m.get k with
  | none => cases hx : m.get x with
    | none => rfl
    | some v =>
      have hne : x ≠ k := fun h => by simp [h, hk] at hx
      simp [hne]
  | some v =>
    rw [get_set]
    by_cases h : x = k
    · simp [h, hk]
    · simp [h]

@[simp] theorem get_modify_self : (m.modify k f).get k = (m.get k).map f := by simp [get_modify]

theorem get_modify_of_ne (h : x ≠ k) : (m.modify k f).get x = m.get x := by simp [get_modify, h]

theorem map_get_modify {β : Type*} {g : ν → β} (hg : ∀ v, g (f v) = g v) :
    ((m.modify k f).get x).map g = (m.get x).map g := by
  rw [get_modify, Option.map_map]
  refine Option.map_congr fun v _ => ?_
  by_cases h : x = k <;> simp [h, hg]

/-- A choice of the order in which a loop over a map goes through its keys. -/
structure Order (κ ν : Type) [DecidableEq κ] where
  keys : GoMap κ ν → List κ
  ranges : ∀ m, Ranges (keys m) m.get

noncomputable instance : Inhabited (Order κ ν) where
  default :=
    { keys := fun m => m.keys.toList
      ranges := fun m => ⟨Finset.nodup_toList _, fun k => by
        rw [Finset.mem_toList, Finmap.mem_keys, get, Finmap.lookup_isSome]⟩ }

noncomputable def Order.ofList (l : List κ) (hl : l.Nodup) : Order κ ν where
  keys m := if m.keys = l.toFinset then l else m.keys.toList
  ranges m := by
    split
    · rename_i hkeys
      refine ⟨hl, fun k => ?_⟩
      rw [get, Finmap.lookup_isSome, ← Finmap.mem_keys, hkeys, List.mem_toFinset]
    · exact (default : Order κ ν).ranges m

theorem keys_ofList {l : List κ} {hl : l.Nodup} (h : m.keys = l.toFinset) : (Order.ofList l hl).keys m = l := if_pos h

/-- The values of a list under their keys; of several values of one key the last. -/
def ofList (key : ν → κ) (l : List ν) : GoMap κ ν := l.foldl (fun m v => m.set (key v) v) ∅

theorem get_ofList {key : ν → κ} {l : List ν} (h : (ofList key l).get k = some v) : v ∈ l ∧ key v = k := by
  refine List.foldlRecOn (motive := fun m : GoMap κ ν => m.get k = some v → v ∈ l ∧ key v = k) l _ (by simp) (fun m hm a ha h => ?_) h
  rcases get_set_eq_some h with ⟨rfl, rfl⟩ | h
  · exact ⟨ha, rfl⟩
  · exact hm h

/-- The number of entries whose value meets a condition. -/
def count (m : GoMap κ ν) (p : ν → Bool) : Nat := (m.entries.filter fun e => p e.2).card

theorem count_eq_card {p : ν → Bool} {S : Finset κ} (h : ∀ k, k ∈ S ↔ ∃ v, m.get k = some v ∧ p v = true) :
    m.count p = S.card := by
  have hnodup : ((m.entries.filter fun e => p e.2).map Sigma.fst).Nodup :=
    nodup_of_le (map_le_map (filter_le _ _)) (nodup_keys.2 m.nodupKeys)
  have hS : S = ⟨(m.entries.filter fun e => p e.2).map Sigma.fst, hnodup⟩ := by
    ext k
    rw [h, Finset.mem_mk, mem_map]
    constructor
    · rintro ⟨v, hv, hp⟩
      exact ⟨⟨k, v⟩, mem_filter.2 ⟨lookup_eq_some_iff.1 hv, hp⟩, rfl⟩
    · rintro ⟨e, he, rfl⟩
      obtain ⟨hmem, hp⟩ := mem_filter.1 he
      exact ⟨e.2, lookup_eq_some_iff.2 hmem, hp⟩
  rw [hS, Finset.card_mk, card_map, count]

end GoMap

end Hayakv
