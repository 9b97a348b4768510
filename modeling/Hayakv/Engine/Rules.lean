import Hayakv.Engine.State

/-!
# Rules for commands

`Prog.wp` of the building blocks of commands, one rewrite rule each, for any discipline. With them
`simp` turns a command into what it needs of the ghost state.
-/

namespace Hayakv.Engine.Exec

variable {α β G : Type} {d : Prog.Discipline Op Op.Ret Exit G} {g : G}

section control

variable {Q : α → G → Prop}

@[simp] theorem wp_reply (r : Reply) : (reply r : Exec α).wp d Q g ↔ d.leave g (.reply r) := Iff.rfl

@[simp] theorem wp_panic : (panic : Exec α).wp d Q g ↔ d.leave g .panic := Iff.rfl

/-- The command ends with the reply if the condition holds. -/
@[simp] theorem wp_check (c : Bool) (r : Reply) {Q : Unit → G → Prop} :
    (check c r).wp d Q g ↔ (c = true → d.leave g (.reply r)) ∧ (c = false → Q () g) := by
  cases c <;> simp [check]

@[simp] theorem wp_when (c : Bool) (p : Exec Unit) {Q : Unit → G → Prop} :
    (when c p).wp d Q g ↔ (c = true → p.wp d Q g) ∧ (c = false → Q () g) := by
  cases c <;> simp [when]

/-- Without a value the command ends with the reply. -/
@[simp] theorem wp_require (o : Option α) (r : Reply) :
    (require o r).wp d Q g ↔ (o = none → d.leave g (.reply r)) ∧ ∀ a, o = some a → Q a g := by
  cases o <;> simp [require]

@[simp] theorem wp_orReply (e : Except Reply α) :
    (orReply e).wp d Q g ↔ (∀ r, e = .error r → d.leave g (.reply r)) ∧ ∀ a, e = .ok a → Q a g := by
  cases e <;> simp [orReply]

@[simp] theorem wp_orExit (e : Except Exit α) :
    (orExit e).wp d Q g ↔ (∀ x, e = .error x → d.leave g x) ∧ ∀ a, e = .ok a → Q a g := by
  cases e <;> simp [orExit]

@[simp] theorem wp_whenSome (o : Option β) (f : β → Exec Unit) {Q : Unit → G → Prop} :
    (whenSome o f).wp d Q g ↔ (o = none → Q () g) ∧ ∀ b, o = some b → (f b).wp d Q g := by
  cases o <;> simp [whenSome]

@[simp] theorem wp_orPanic (o : Option α) :
    (orPanic o).wp d Q g ↔ (o = none → d.leave g .panic) ∧ ∀ a, o = some a → Q a g := by
  cases o <;> simp [orPanic]

/-- An argument that is not there is a panic. -/
@[simp] theorem wp_arg (args : List Bytes) (i : Nat) {Q : Bytes → G → Prop} :
    (arg args i).wp d Q g ↔ (args[i]? = none → d.leave g .panic) ∧ ∀ a, args[i]? = some a → Q a g :=
  wp_orPanic _

/-- An argument that is there. -/
theorem arg_zero_bind (a : Bytes) (args : List Bytes) (f : Bytes → Exec α) : (arg (a :: args) 0 >>= f) = f a := rfl

theorem arg_one_bind (a b : Bytes) (args : List Bytes) (f : Bytes → Exec α) : (arg (a :: b :: args) 1 >>= f) = f b := rfl

theorem arg_two_bind (a b c : Bytes) (args : List Bytes) (f : Bytes → Exec α) :
    (arg (a :: b :: c :: args) 2 >>= f) = f c := rfl

theorem require_some (a : α) (r : Reply) : require (some a) r = pure a := rfl

end control

end Hayakv.Engine.Exec
