import Mathlib.Data.Fintype.Basic

/-!
# Locks that threads hold

Threads hold locks to read and to write. A lock that one thread holds to write is held
by no other thread (`Exclusive`); a thread may take locks that are compatible with what
the others hold (`Available`), and then this stays so.
-/

namespace Hayakv

open Function

structure Held (L : Type) where
  write : List L := []
  read : List L := []

namespace Held

variable {ι L : Type} [DecidableEq L]

/-- No lock is held by both, unless both read. -/
def Compatible (a b : Held L) : Prop := (∀ l ∈ a.write, l ∉ b.write ∧ l ∉ b.read) ∧ ∀ l ∈ b.write, l ∉ a.read

instance (a b : Held L) : Decidable (a.Compatible b) :=
  decidable_of_iff ((a.write.all fun l => l ∉ b.write ∧ l ∉ b.read) ∧ b.write.all fun l => l ∉ a.read)
    (by simp [Compatible])

omit [DecidableEq L] in
theorem Compatible.symm {a b : Held L} (h : a.Compatible b) : b.Compatible a :=
  ⟨fun l hl => ⟨fun ha => (h.1 l ha).1 hl, h.2 l hl⟩, fun l hl => (h.1 l hl).2⟩

omit [DecidableEq L] in
theorem compatible_nothing (a : Held L) : a.Compatible {} := by simp [Compatible]

/-- Thread `i` may take these locks. -/
def Available (held : ι → Held L) (i : ι) (h : Held L) : Prop := ∀ j, j ≠ i → (held j).Compatible h

instance [Fintype ι] [DecidableEq ι] (held : ι → Held L) (i : ι) (h : Held L) : Decidable (Available held i h) :=
  Fintype.decidableForallFintype

def Exclusive (held : ι → Held L) : Prop := ∀ i j, i ≠ j → (held i).Compatible (held j)

omit [DecidableEq L] in
theorem Exclusive.available {held : ι → Held L} (he : Exclusive held) (i : ι) : Available held i (held i) :=
  fun j hj => he j i hj

omit [DecidableEq L] in
theorem available_nothing (held : ι → Held L) (i : ι) : Available held i {} := fun j _ => compatible_nothing (held j)

omit [DecidableEq L] in
theorem Exclusive.take [DecidableEq ι] {held : ι → Held L} {i : ι} {h : Held L} (he : Exclusive held)
    (ha : Available held i h) : Exclusive (update held i h) := by
  intro j k hjk
  by_cases hj : j = i
  · subst hj
    rw [update_self, update_of_ne (Ne.symm hjk)]
    exact (ha k (Ne.symm hjk)).symm
  rw [update_of_ne hj]
  by_cases hk : k = i
  · subst hk
    rw [update_self]
    exact ha j hj
  · rw [update_of_ne hk]
    exact he j k hjk

end Held

end Hayakv
