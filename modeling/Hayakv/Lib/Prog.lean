import Mathlib.Data.List.Basic

/-!
# Programs over operations

A program returns a value, exits early, or performs an operation and goes on with the answer. A `Handler`
gives the operations a meaning on a state, and `run` the program.

A `Discipline` says which operations a program may perform and what it may expect of their answers,
in dependence of a ghost state that the operations advance: a set of keys already looked up, whether
anything was logged. `wp` computes what a program needs of the ghost state so as to keep to the
discipline: one equation for each way to build a program, and one rule for loops. What a discipline is
good for is proved for one operation at a time, and carried over to programs by `run_inv` (one run) and
`run_rel` (two runs, on related states).
-/

namespace Hayakv

/-- A program over the operations `Op`, where `o` answers a `Ret o`. -/
inductive Prog (Op : Type) (Ret : Op → Type) (E α : Type) : Type
  | pure (a : α)
  | exit (e : E)
  | op (o : Op) (k : Ret o → Prog Op Ret E α)

namespace Prog

variable {Op : Type} {Ret : Op → Type} {E α β σ τ G : Type}

/-- Run `p`, then `f` on its result; an early exit of `p` is one of the whole. -/
protected def bind : Prog Op Ret E α → (α → Prog Op Ret E β) → Prog Op Ret E β
  | pure a, f => f a
  | exit e, _ => exit e
  | op o k, f => op o fun r => (k r).bind f

instance : Monad (Prog Op Ret E) where
  pure := Prog.pure
  bind := Prog.bind

/-- The operation `o` by itself. -/
def perform (o : Op) : Prog Op Ret E (Ret o) := op o pure

/-- Run `f` on each element in order, with an accumulator. -/
def fold : List β → α → (α → β → Prog Op Ret E α) → Prog Op Ret E α
  | [], a, _ => pure a
  | x :: xs, a, f => f a x >>= fun a => fold xs a f

@[simp] theorem fold_nil (a : α) (f : α → β → Prog Op Ret E α) : fold [] a f = Pure.pure a := rfl

@[simp] theorem fold_cons (x : β) (xs : List β) (a : α) (f : α → β → Prog Op Ret E α) :
    fold (x :: xs) a f = f a x >>= fun a => fold xs a f := rfl

/-- Go on after an early exit for which `h` has a result. -/
def catchExit (h : E → Option α) : Prog Op Ret E α → Prog Op Ret E α
  | pure a => pure a
  | exit e => match h e with
    | some a => pure a
    | none => exit e
  | op o k => op o fun r => (k r).catchExit h

abbrev Handler (Op : Type) (Ret : Op → Type) (σ : Type) := (o : Op) → σ → Ret o × σ

def run (h : Handler Op Ret σ) : Prog Op Ret E α → σ → Except E α × σ
  | pure a, s => (.ok a, s)
  | exit e, s => (.error e, s)
  | op o k, s => (k (h o s).1).run h (h o s).2

/-! ## Disciplines -/

/-- Which operations may be performed, what they may answer, how they advance the ghost state, and
what has to hold where a program exits. -/
structure Discipline (Op : Type) (Ret : Op → Type) (E G : Type) where
  ok : G → Op → Prop
  ans : G → (o : Op) → Ret o → Prop
  next : G → (o : Op) → Ret o → G
  leave : G → E → Prop

/-- What `p` needs of the ghost state to keep to the discipline and end in `Q`. -/
def wp (d : Discipline Op Ret E G) : Prog Op Ret E α → (α → G → Prop) → G → Prop
  | pure a, Q, g => Q a g
  | exit e, _, g => d.leave g e
  | op o k, Q, g => d.ok g o ∧ ∀ r, d.ans g o r → (k r).wp d Q (d.next g o r)

section wp

variable {d : Discipline Op Ret E G} {Q Q' : α → G → Prop} {g : G}

@[simp] theorem wp_pure (a : α) : (Pure.pure a : Prog Op Ret E α).wp d Q g ↔ Q a g := Iff.rfl

@[simp] theorem wp_exit (e : E) : (exit e : Prog Op Ret E α).wp d Q g ↔ d.leave g e := Iff.rfl

@[simp] theorem wp_perform (o : Op) {Q : Ret o → G → Prop} :
    (perform o : Prog Op Ret E (Ret o)).wp d Q g ↔ d.ok g o ∧ ∀ r, d.ans g o r → Q r (d.next g o r) :=
  Iff.rfl

@[simp] theorem wp_bind (p : Prog Op Ret E α) (f : α → Prog Op Ret E β) {Q : β → G → Prop} :
    (p >>= f).wp d Q g ↔ p.wp d (fun a => (f a).wp d Q) g := by
  induction p generalizing g with
  | pure a => rfl
  | exit e => rfl
  | op o k ih => exact and_congr Iff.rfl (forall_congr' fun r => imp_congr_right fun _ => ih r)

@[simp] theorem wp_ite {c : Prop} [Decidable c] (p q : Prog Op Ret E α) :
    (if c then p else q).wp d Q g ↔ (c → p.wp d Q g) ∧ (¬c → q.wp d Q g) := by
  split <;> simp [*]

theorem wp_mono {p : Prog Op Ret E α} (hQ : ∀ a g, Q a g → Q' a g) (h : p.wp d Q g) : p.wp d Q' g := by
  induction p generalizing g with
  | pure a => exact hQ a g h
  | exit e => exact h
  | op o k ih => exact ⟨h.1, fun r hr => ih r (h.2 r hr)⟩

theorem wp_seq {p : Prog Op Ret E α} {f : α → Prog Op Ret E β} {R : α → G → Prop} {Q : β → G → Prop}
    (hp : p.wp d R g) (hf : ∀ a g, R a g → (f a).wp d Q g) : (p >>= f).wp d Q g :=
  (wp_bind p f).2 (wp_mono hf hp)

/-- A loop: an invariant of the elements still to come, which every turn keeps. -/
theorem wp_fold {xs : List β} {a : α} {f : α → β → Prog Op Ret E α} (I : List β → α → G → Prop) (hI : I xs a g)
    (hstep : ∀ x xs a g, I (x :: xs) a g → (f a x).wp d (I xs) g)
    (hend : ∀ a g, I [] a g → Q a g) : (fold xs a f).wp d Q g := by
  induction xs generalizing a g with
  | nil => exact hend a g hI
  | cons x xs ih => exact (wp_bind _ _).2 (wp_mono (fun _ _ hg => ih hg) (hstep x xs a g hI))

end wp

def Ends (d : Discipline Op Ret E G) (Q : α → G → Prop) (g : G) : Except E α → Prop
  | .ok a => Q a g
  | .error e => d.leave g e

variable {d : Discipline Op Ret E G}

/-- Two runs on related states: if each permitted operation answers the same, and as expected, and
keeps the states related, the two runs end the same. -/
theorem run_rel {h₁ : Handler Op Ret σ} {h₂ : Handler Op Ret τ} {R : G → σ → τ → Prop}
    (hstep : ∀ g o s t, d.ok g o → R g s t → (h₂ o t).1 = (h₁ o s).1 ∧ d.ans g o (h₁ o s).1 ∧
        R (d.next g o (h₁ o s).1) (h₁ o s).2 (h₂ o t).2) {p : Prog Op Ret E α} {Q : α → G → Prop} {g : G}
    (hp : p.wp d Q g) {s : σ} {t : τ} (hR : R g s t) : (p.run h₂ t).1 = (p.run h₁ s).1 ∧
      ∃ g', R g' (p.run h₁ s).2 (p.run h₂ t).2 ∧ Ends d Q g' (p.run h₁ s).1 := by
  induction p generalizing g s t with
  | pure a | exit e => exact ⟨rfl, g, hR, hp⟩
  | op o k ih =>
    obtain ⟨hsame, hans, hR'⟩ := hstep g o s t hp.1 hR
    simp only [run, hsame]
    exact ih _ (hp.2 _ hans) hR'

/-- One run: an invariant that each permitted operation keeps holds at the end. -/
theorem run_inv {h : Handler Op Ret σ} {I : G → σ → Prop} (hstep : ∀ g o s, d.ok g o → I g s →
      d.ans g o (h o s).1 ∧ I (d.next g o (h o s).1) (h o s).2) {p : Prog Op Ret E α} {Q : α → G → Prop} {g : G}
    (hp : p.wp d Q g) {s : σ} (hI : I g s) : ∃ g', I g' (p.run h s).2 ∧ Ends d Q g' (p.run h s).1 := by
  obtain ⟨-, g', hI', hQ⟩ := run_rel
    (fun g o s t hok (hR : t = s ∧ I g s) => by
      obtain ⟨rfl, hI⟩ := hR
      obtain ⟨hans, hI'⟩ := hstep g o t hok hI
      exact ⟨(rfl : (h o t).1 = _), hans, rfl, hI'⟩) hp ⟨rfl, hI⟩
  exact ⟨g', hI'.2, hQ⟩

end Prog

end Hayakv
