import Mathlib.Data.List.Basic

/-!
# Machines with outputs, and simulation between them

A machine takes one input at a time and answers it. `Machine.run` answers a
whole list of inputs. Two facts are used by every development below:

* `Machine.run_invariant`: what each step keeps, a run keeps;
* `Machine.run_simulates`: two machines whose steps answer alike from related
  states, and end in related states, answer every list of inputs alike.
-/

namespace Hayakv

/-- A machine with states `σ`, inputs `ι` and outputs `ο`. -/
structure Machine (σ ι ο : Type*) where
  step : σ → ι → σ × ο

namespace Machine

variable {σ τ ι ο : Type*}

/-- The state after a list of inputs, and the outputs in order. -/
def run (M : Machine σ ι ο) (s : σ) : List ι → σ × List ο
  | [] => (s, [])
  | i :: is =>
    let (s₁, o) := M.step s i
    let (s₂, os) := M.run s₁ is
    (s₂, o :: os)

theorem run_cons (M : Machine σ ι ο) (s : σ) (i : ι) (is : List ι) : M.run s (i :: is) =
      ((M.run (M.step s i).1 is).1, (M.step s i).2 :: (M.run (M.step s i).1 is).2) := rfl

theorem run_invariant (M : Machine σ ι ο) {P : σ → Prop}
    (hstep : ∀ s i, P s → P (M.step s i).1) {s : σ} (hs : P s) (is : List ι) : P (M.run s is).1 := by
  induction is generalizing s with
  | nil => exact hs
  | cons i is ih =>
    exact ih (hstep s i hs)

/-- `R` is a simulation: from related states the two machines give the same
answer and move to related states. -/
def Simulates (R : σ → τ → Prop) (M : Machine σ ι ο) (N : Machine τ ι ο) : Prop :=
  ∀ s t i, R s t → (M.step s i).2 = (N.step t i).2 ∧ R (M.step s i).1 (N.step t i).1

/-- Related states give the same answers to every list of inputs. -/
theorem run_simulates {R : σ → τ → Prop} {M : Machine σ ι ο} {N : Machine τ ι ο}
    (h : Simulates R M N) {s : σ} {t : τ} (hst : R s t) (is : List ι) :
    (M.run s is).2 = (N.run t is).2 ∧ R (M.run s is).1 (N.run t is).1 := by
  induction is generalizing s t with
  | nil => exact ⟨rfl, hst⟩
  | cons i is ih =>
    obtain ⟨ho, hr⟩ := h s t i hst
    obtain ⟨hos, hrs⟩ := ih hr
    simp only [run_cons]
    exact ⟨by rw [ho, hos], hrs⟩

end Machine

end Hayakv
