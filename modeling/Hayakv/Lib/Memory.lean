import Mathlib.Data.List.Basic
import Hayakv.Lib.GoText

/-!
# Byte arrays that slices share

A Go slice is a view of an array: two slices of one array see each other's
writes, and `append` writes in place as long as the capacity lasts. Here a
`Heap` numbers the arrays, and a `Slice` names an array and a range of it.

A slice keeps its bytes through a write to a range that is disjoint from it
(`Heap.read_write_of_disjoint`), and through anything that only makes new arrays
(`Heap.Extends.read`).
-/

namespace Hayakv.Memory

open List

/-- An array of `cap` bytes. -/
structure Arr where
  cap : Nat
  get : Nat → UInt8

/-- The array with `bs` copied in from `start` on. -/
def Arr.write (a : Arr) (start : Nat) (bs : Bytes) : Arr where
  cap := a.cap
  get j := if start ≤ j ∧ j < start + bs.length then bs.getD (j - start) 0 else a.get j

/-- The range of `len` bytes from `start` on of an array. -/
structure Slice where
  arr : Nat
  start : Nat
  len : Nat
deriving DecidableEq, Repr

/-- No byte belongs to both slices. -/
def Slice.Disjoint (s t : Slice) : Prop :=
  s.arr ≠ t.arr ∨ s.len = 0 ∨ t.len = 0 ∨ s.start + s.len ≤ t.start ∨ t.start + t.len ≤ s.start

instance (s t : Slice) : Decidable (s.Disjoint t) := inferInstanceAs (Decidable (_ ∨ _))

/-- The arrays there are: those below `next`. -/
structure Heap where
  next : Nat
  arr : Nat → Arr

namespace Heap

def read (h : Heap) (s : Slice) : Bytes := (List.range s.len).map fun i => (h.arr s.arr).get (s.start + i)

/-- `copy` into array `i`, from `start` on. -/
def write (h : Heap) (i start : Nat) (bs : Bytes) : Heap :=
  { h with arr := Function.update h.arr i ((h.arr i).write start bs) }

/-- A new array that starts with `bs`. -/
def alloc (h : Heap) (cap : Nat) (bs : Bytes) : Heap :=
  { next := h.next + 1, arr := Function.update h.arr h.next ⟨cap, fun j => bs.getD j 0⟩ }

variable {h h' h'' : Heap}

theorem arr_write_self (h : Heap) (i start : Nat) (bs : Bytes) :
    (h.write i start bs).arr i = (h.arr i).write start bs := Function.update_self ..

theorem arr_write_of_ne {i j : Nat} (hne : j ≠ i) (start : Nat) (bs : Bytes) :
    (h.write i start bs).arr j = h.arr j := Function.update_of_ne hne ..

@[simp] theorem length_read (h : Heap) (s : Slice) : (h.read s).length = s.len := by simp [read]

theorem read_congr {s : Slice} (harr : h'.arr s.arr = h.arr s.arr) : h'.read s = h.read s := by
  simp only [read, harr]

theorem read_add (h : Heap) (a start n m : Nat) :
    h.read ⟨a, start, n + m⟩ = h.read ⟨a, start, n⟩ ++ h.read ⟨a, start + n, m⟩ := by
  simp [read, range_add, Nat.add_assoc]

theorem take_drop_read (h : Heap) (s : Slice) {i l : Nat} (hl : i + l ≤ s.len) :
    ((h.read s).drop i).take l = h.read ⟨s.arr, s.start + i, l⟩ := by
  obtain ⟨r, hr⟩ := Nat.exists_eq_add_of_le hl
  have hi : (h.read ⟨s.arr, s.start, i⟩).length = i := length_read ..
  have hlen : (h.read ⟨s.arr, s.start + i, l⟩).length = l := length_read ..
  have hs : h.read s = h.read ⟨s.arr, s.start, i⟩ ++
      (h.read ⟨s.arr, s.start + i, l⟩ ++ h.read ⟨s.arr, s.start + (i + l), r⟩) := by
    rw [← append_assoc, ← read_add, ← read_add, ← hr]
  rw [hs, drop_append_of_le_length hi.ge, drop_eq_nil_of_le hi.le, nil_append,
    take_append_of_le_length hlen.ge, take_of_length_le hlen.le]

theorem read_write_of_disjoint {i start : Nat} {bs : Bytes} {s : Slice}
    (hd : Slice.Disjoint ⟨i, start, bs.length⟩ s) : (h.write i start bs).read s = h.read s := by
  refine map_congr_left fun j hj => ?_
  rw [mem_range] at hj
  by_cases hi : s.arr = i
  · have hout : ¬ (start ≤ s.start + j ∧ s.start + j < start + bs.length) := by
      rcases hd with hd | hd
      · exact absurd hi.symm hd
      · dsimp only at hd
        omega
    rw [hi, arr_write_self]
    exact if_neg hout
  · rw [arr_write_of_ne hi]

theorem read_write_self (h : Heap) (i start : Nat) (bs : Bytes) :
    (h.write i start bs).read ⟨i, start, bs.length⟩ = bs := by
  refine ext_getElem (by simp) fun j h1 h2 => ?_
  simp [read, arr_write_self, Arr.write, getD_eq_getElem?_getD, h2]

theorem read_alloc_self (h : Heap) (cap : Nat) (bs : Bytes) : (h.alloc cap bs).read ⟨h.next, 0, bs.length⟩ = bs := by
  refine ext_getElem (by simp) fun j h1 h2 => ?_
  simp [read, alloc, getD_eq_getElem?_getD, h2]

/-- The arrays of `h` are as they were in `h'`, which may have more. -/
structure Extends (h h' : Heap) : Prop where
  next_le : h.next ≤ h'.next
  arr_eq : ∀ i < h.next, h'.arr i = h.arr i

theorem Extends.refl (h : Heap) : Extends h h := ⟨Nat.le_refl _, fun _ _ => rfl⟩

theorem Extends.trans (h1 : Extends h h') (h2 : Extends h' h'') : Extends h h'' :=
  ⟨h1.next_le.trans h2.next_le, fun i hi =>
    (h2.arr_eq i (Nat.lt_of_lt_of_le hi h1.next_le)).trans (h1.arr_eq i hi)⟩

theorem Extends.read (hx : Extends h h') {s : Slice} (hs : s.arr < h.next) :
    h'.read s = h.read s := read_congr (hx.arr_eq s.arr hs)

theorem extends_alloc (h : Heap) (cap : Nat) (bs : Bytes) : Extends h (h.alloc cap bs) :=
  ⟨Nat.le_succ _, fun i hi => by rw [alloc]; exact Function.update_of_ne (Nat.ne_of_lt hi) _ _⟩

end Heap

end Hayakv.Memory
