import Mathlib.Data.List.Basic

/-!
# Going through a list with a consumer

Go's iterators call a function on one element after another until it answers false. The function
keeps a state.
-/

namespace Hayakv

variable {σ α β : Type*}

/-- The state after the consumer has seen the elements up to the first that it stops at. -/
def visit (fn : σ → α → σ × Bool) : σ → List α → σ
  | s, [] => s
  | s, a :: as => if (fn s a).2 then visit fn (fn s a).1 as else (fn s a).1

theorem visit_map (fn : σ → β → σ × Bool) (f : α → β) (s : σ) (as : List α) :
    visit fn s (as.map f) = visit (fun s a => fn s (f a)) s as := by
  induction as generalizing s with
  | nil => rfl
  | cons a as ih => simp only [List.map_cons, visit, ih]

theorem visit_zipIdx (fn : σ → α → σ × Bool) (s : σ) (as : List α) (i : Nat) :
    visit (fun s (p : α × Nat) => fn s p.1) s (as.zipIdx i) = visit fn s as := by
  rw [← visit_map fn Prod.fst, List.zipIdx_map_fst]

theorem visit_all (f : σ → α → σ) (s : σ) (as : List α) : visit (fun s a => (f s a, true)) s as = as.foldl f s := by
  induction as generalizing s with
  | nil => rfl
  | cons a as ih => simp [visit, ih]

theorem visit_find (p : α → Bool) (as : List α) :
    visit (fun found a => if p a then (true, false) else (found, true)) false as = as.any p := by
  induction as with
  | nil => rfl
  | cons a as ih =>
    by_cases h : p a
    · simp [visit, h]
    · simp [visit, h, ih]

variable {fn : σ → α → σ × Bool}

theorem visit_congr (fn' : σ → α → σ × Bool) {as : List α} (h : ∀ s, ∀ a ∈ as, fn s a = fn' s a) (s : σ) :
    visit fn s as = visit fn' s as := by
  induction as generalizing s with
  | nil => rfl
  | cons a as ih =>
    simp only [visit, h s a List.mem_cons_self]
    rw [ih fun s b hb => h s b (List.mem_cons_of_mem a hb)]

theorem visit_eq_foldl {f : σ → α → σ} {as : List α} (h : ∀ s, ∀ a ∈ as, fn s a = (f s a, true)) (s : σ) :
    visit fn s as = as.foldl f s :=
  (visit_congr _ h s).trans (visit_all f s as)

theorem visit_proj {τ : Type*} (π : σ → τ) (fn' : τ → α → τ × Bool)
    (h : ∀ s a, π (fn s a).1 = (fn' (π s) a).1 ∧ (fn s a).2 = (fn' (π s) a).2) (s : σ) (as : List α) :
    π (visit fn s as) = visit fn' (π s) as := by
  induction as generalizing s with
  | nil => rfl
  | cons a as ih =>
    obtain ⟨h₁, h₂⟩ := h s a
    simp only [visit, ← h₁, ← h₂]
    split
    · exact ih _
    · rfl

end Hayakv
