import Mathlib.Data.List.Basic

/-!
# Runs whose steps meet a condition

A run is a fold of a step function over a list of events. `Guarded step ok s es`
says that each event of `es` meets `ok` in the state it is taken in. What a step
that meets the condition keeps, a guarded run keeps (`Guarded.run`); the parts of
a guarded run are guarded (`guarded_append`).
-/

namespace Hayakv

open List

variable {σ ι : Type*}

/-- Every event of a run meets the condition `ok` in the state it is taken in. -/
def Guarded (step : σ → ι → σ) (ok : σ → ι → Prop) : σ → List ι → Prop
  | _, [] => True
  | s, e :: es => ok s e ∧ Guarded step ok (step s e) es

variable {step : σ → ι → σ} {ok : σ → ι → Prop}

instance Guarded.decidable [∀ s e, Decidable (ok s e)] : ∀ (s : σ) (es : List ι), Decidable (Guarded step ok s es)
  | _, [] => .isTrue trivial
  | s, e :: es => @instDecidableAnd _ _ _ (Guarded.decidable (step s e) es)

variable {s : σ} {es : List ι} {P : σ → Prop}

theorem guarded_cons {e : ι} : Guarded step ok s (e :: es) ↔ ok s e ∧ Guarded step ok (step s e) es := Iff.rfl

theorem guarded_append {es fs : List ι} : Guarded step ok s (es ++ fs) ↔
      Guarded step ok s es ∧ Guarded step ok (es.foldl step s) fs := by
  induction es generalizing s with
  | nil => exact ⟨fun h => ⟨trivial, h⟩, fun h => h.2⟩
  | cons e es ih => rw [cons_append, guarded_cons, guarded_cons, ih, and_assoc]; rfl

/-- What every step that meets the condition keeps, a guarded run keeps. -/
theorem Guarded.run (hstep : ∀ s e, P s → ok s e → P (step s e)) (h : Guarded step ok s es) (hs : P s) :
    P (es.foldl step s) := by
  induction es generalizing s with
  | nil => exact hs
  | cons e es ih => exact ih h.2 (hstep s e hs h.1)

variable {ok' : σ → ι → Prop}

theorem Guarded.imp_of_run (h : Guarded step ok s es) (hstep : ∀ s e, P s → ok s e → P (step s e))
    (himp : ∀ s e, P s → ok s e → ok' s e) (hs : P s) : Guarded step ok' s es := by
  induction es generalizing s with
  | nil => trivial
  | cons e es ih => exact ⟨himp s e hs h.1, ih h.2 (hstep s e hs h.1)⟩

theorem Guarded.imp (himp : ∀ s e, ok s e → ok' s e) (h : Guarded step ok s es) : Guarded step ok' s es :=
  h.imp_of_run (P := fun _ => True) (fun _ _ _ _ => trivial) (fun s e _ => himp s e) trivial

theorem guarded_of_forall (h : ∀ s e, ok s e) (s : σ) (es : List ι) : Guarded step ok s es := by
  induction es generalizing s with
  | nil => trivial
  | cons e es ih => exact ⟨h s e, ih (step s e)⟩

/-- Two conditions that agree where an invariant holds, which the one keeps. -/
theorem guarded_congr (hiff : ∀ s e, P s → (ok s e ↔ ok' s e)) (hstep : ∀ s e, P s → ok' s e → P (step s e))
    (hs : P s) : Guarded step ok s es ↔ Guarded step ok' s es := by
  induction es generalizing s with
  | nil => exact Iff.rfl
  | cons e es ih =>
    rw [guarded_cons, guarded_cons, hiff s e hs]
    exact and_congr_right fun hok => ih (hstep s e hs hok)

/-- A run may be taken with another step function where the two agree. -/
theorem Guarded.congr {step' : σ → ι → σ} (heq : ∀ s e, ok s e → step s e = step' s e)
    (h : Guarded step' ok s es) : es.foldl step s = es.foldl step' s ∧ Guarded step ok s es := by
  induction es generalizing s with
  | nil => exact ⟨rfl, trivial⟩
  | cons e es ih =>
    obtain ⟨hrun, hg⟩ := ih h.2
    rw [← heq s e h.1] at hrun hg
    rw [foldl_cons, foldl_cons, ← heq s e h.1]
    exact ⟨hrun, h.1, hg⟩

theorem foldl_invariant (hstep : ∀ s e, P s → P (step s e)) (hs : P s) (es : List ι) : P (es.foldl step s) := by
  induction es generalizing s with
  | nil => exact hs
  | cons e es ih => exact ih (hstep s e hs)

theorem guarded_iff_forall_prefix : Guarded step ok s es ↔ ∀ pre e, pre ++ [e] <+: es → ok (pre.foldl step s) e := by
  induction es generalizing s with
  | nil => exact ⟨fun _ pre e h => by simp at h, fun _ => trivial⟩
  | cons e es ih =>
    rw [guarded_cons, ih]
    constructor
    · rintro ⟨hok, h⟩ pre e' hpre
      cases pre with
      | nil =>
        obtain ⟨rfl, -⟩ := cons_prefix_cons.1 hpre
        exact hok
      | cons a pre =>
        obtain ⟨rfl, hrest⟩ := cons_prefix_cons.1 hpre
        exact h pre e' hrest
    · intro h
      refine ⟨h [] e (prefix_append [e] es), fun pre e' hpre => ?_⟩
      exact h (e :: pre) e' (cons_prefix_cons.2 ⟨rfl, hpre⟩)

/-- Where the steps that keep `P` are those that meet the condition, `P` holds all along a run if and
only if the run is guarded. -/
theorem forall_prefix_iff_guarded {dom : σ → ι → Prop} (hstep : ∀ s e, P s → dom s e → (P (step s e) ↔ ok s e))
    (hdom : Guarded step dom s es) (hs : P s) :
    (∀ pre, pre <+: es → P (pre.foldl step s)) ↔ Guarded step ok s es := by
  induction es generalizing s with
  | nil =>
    refine ⟨fun _ => trivial, fun _ pre hpre => ?_⟩
    rw [prefix_nil.1 hpre]
    exact hs
  | cons e es ih =>
    constructor
    · intro h
      have he : P (step s e) := h [e] (prefix_append [e] es)
      refine ⟨(hstep s e hs hdom.1).1 he, (ih hdom.2 he).1 fun pre hpre => ?_⟩
      exact h (e :: pre) (cons_prefix_cons.2 ⟨rfl, hpre⟩)
    · rintro ⟨hok, h⟩ pre hpre
      cases pre with
      | nil => exact hs
      | cons e' pre =>
        obtain ⟨rfl, hrest⟩ := cons_prefix_cons.1 hpre
        exact (ih hdom.2 ((hstep s e' hs hdom.1).2 hok)).2 h pre hrest

end Hayakv
