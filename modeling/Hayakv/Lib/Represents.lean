import Mathlib.Data.Finmap

/-!
# Lists of entries that represent a finite map

`Represents es m`: the keys of `es` are distinct, and its entries are those of the
finite map `m`. Adding, replacing and dropping one entry of the list is inserting
and erasing a key of the map; the order of the list does not matter.
-/

namespace Hayakv

open List Finmap

variable {K V : Type*} [DecidableEq K]

/-- The entries of a finite map, in some order. -/
structure Represents (es : List (K × V)) (m : Finmap fun _ : K => V) : Prop where
  nodup : (es.map Prod.fst).Nodup
  mem : ∀ k v, (k, v) ∈ es ↔ m.lookup k = some v

namespace Represents

variable {es es' rest : List (K × V)} {m : Finmap fun _ : K => V} {k : K} {v old : V}

theorem nil : Represents ([] : List (K × V)) ∅ := ⟨nodup_nil, by simp⟩

section

variable (h : Represents es m)
include h

theorem of_perm (hp : es' ~ es) : Represents es' m :=
  ⟨(hp.map _).nodup_iff.2 h.nodup, fun k v => by rw [hp.mem_iff, h.mem]⟩

theorem mem_keys : k ∈ es.map Prod.fst ↔ k ∈ m := by
  rw [← lookup_isSome, Option.isSome_iff_exists]
  simp [← h.mem]

/-- There is one entry for each key. -/
theorem length_eq : es.length = m.keys.card := by
  have : (es.map Prod.fst).toFinset = m.keys := by
    ext k
    rw [mem_toFinset, h.mem_keys, Finmap.mem_keys]
  rw [← this, toFinset_card_of_nodup h.nodup, length_map]

/-- A new key is put. -/
theorem cons (hk : k ∉ m) (v : V) : Represents ((k, v) :: es) (m.insert k v) := by
  refine ⟨?_, fun k' v' => ?_⟩
  · rw [map_cons, nodup_cons, h.mem_keys]
    exact ⟨hk, h.nodup⟩
  · rw [mem_cons, Prod.mk.injEq, h.mem]
    by_cases hkk : k' = k
    · subst hkk
      have : m.lookup k' = none := lookup_eq_none.2 hk
      simp [this, eq_comm]
    · simp [hkk, lookup_insert_of_ne _ hkk]

end

theorem erase (h : Represents ((k, old) :: rest) m) : Represents rest (m.erase k) := by
  obtain ⟨hk, hnd⟩ := nodup_cons.1 h.nodup
  refine ⟨hnd, fun k' v' => ?_⟩
  by_cases hkk : k' = k
  · subst hkk
    rw [lookup_erase]
    simp only [reduceCtorEq, iff_false]
    exact fun hm => hk (mem_map.2 ⟨_, hm, rfl⟩)
  · rw [lookup_erase_ne hkk, ← h.mem]
    simp [hkk]

/-- Lists with distinct keys are maps. -/
theorem exists_map {es : List (K × V)} (h : (es.map Prod.fst).Nodup) : ∃ m, Represents es m := by
  induction es with
  | nil => exact ⟨∅, nil⟩
  | cons e es ih =>
    obtain ⟨hk, hnd⟩ := nodup_cons.1 h
    obtain ⟨m, hm⟩ := ih hnd
    exact ⟨_, hm.cons (fun hc => hk (hm.mem_keys.2 hc)) e.2⟩

theorem replace (h : Represents ((k, old) :: rest) m) (v : V) : Represents ((k, v) :: rest) (m.insert k v) := by
  have hk : k ∉ m.erase k := by rw [← lookup_eq_none, lookup_erase]
  have hins : (m.erase k).insert k v = m.insert k v := by
    apply ext_lookup
    intro k'
    by_cases hkk : k' = k
    · subst hkk
      rw [lookup_insert, lookup_insert]
    · rw [lookup_insert_of_ne _ hkk, lookup_erase_ne hkk, lookup_insert_of_ne _ hkk]
  rw [← hins]
  exact h.erase.cons hk v

end Represents

end Hayakv
