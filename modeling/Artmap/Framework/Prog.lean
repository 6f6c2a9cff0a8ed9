import Mathlib.Data.Nat.Notation
import Mathlib.Logic.Function.Basic

/-!
# Programs over an effect signature

A concurrent algorithm is written as a value of `Prog A α`: a tree of atomic actions drawn
from a signature `A : Type → Type` (an action of type `A β` answers with a `β`), closed
under sequencing and unbounded iteration.  Between two consecutive actions of one program
any other program may run, so what counts as one action is exactly what is atomic.

Iteration is a constructor (`Prog.loop`) rather than a recursion, so that a retry loop needs
no fuel: unfolding a loop is a silent step of its own.

`Prog.runFor` is the sequential reading: the program alone against a memory, for a given
number of steps.  It is structurally recursive in the number of steps, so closed runs
evaluate.
-/

namespace Artmap

/-- A program that performs actions of `A` and answers with an `α`. -/
inductive Prog (A : Type → Type) : Type → Type 1 where
  /-- Answer `a` and stop. -/
  | ret {α : Type} (a : α) : Prog A α
  /-- Perform one atomic action, then continue with its answer. -/
  | act {α β : Type} (a : A β) (k : β → Prog A α) : Prog A α
  /-- Iterate `body` from `s` until it answers `inr`, then continue. -/
  | loop {σ β α : Type} (body : σ → Prog A (σ ⊕ β)) (s : σ) (k : β → Prog A α) : Prog A α

namespace Prog

variable {A : Type → Type} {α β γ σ : Type}

/-- Sequencing: run `p`, then `f` on its answer. -/
def bind : {α : Type} → Prog A α → (α → Prog A β) → Prog A β
  | _, ret a, f => f a
  | _, act a k, f => act a fun b => (k b).bind f
  | _, loop body s k, f => loop body s fun b => (k b).bind f

instance : Monad (Prog A) where
  pure := ret
  bind := bind

/-- One atomic action as a program. -/
def perform (a : A β) : Prog A β :=
  act a ret

/-- Iterate `body` from `s` until it answers `inr`. -/
def iter (body : σ → Prog A (σ ⊕ β)) (s : σ) : Prog A β :=
  loop body s ret

/-- The continuation of one unfolding of a loop. -/
def again (body : σ → Prog A (σ ⊕ β)) (k : β → Prog A α) : σ ⊕ β → Prog A α
  | .inl s => loop body s k
  | .inr b => k b

/-- One unfolding of a loop. -/
def unfold (body : σ → Prog A (σ ⊕ β)) (s : σ) (k : β → Prog A α) : Prog A α :=
  (body s).bind (again body k)

@[simp] lemma pure_eq_ret (a : α) : (pure a : Prog A α) = ret a := rfl

@[simp] lemma bind_eq_bind (p : Prog A α) (f : α → Prog A β) : (p >>= f) = p.bind f := rfl

@[simp] lemma ret_bind (a : α) (f : α → Prog A β) : (ret a : Prog A α).bind f = f a := rfl

@[simp] lemma act_bind (a : A γ) (k : γ → Prog A α) (f : α → Prog A β) :
    (act a k).bind f = act a fun c => (k c).bind f := rfl

@[simp] lemma loop_bind (body : σ → Prog A (σ ⊕ γ)) (s : σ) (k : γ → Prog A α)
    (f : α → Prog A β) :
    (loop body s k).bind f = loop body s fun c => (k c).bind f := rfl

lemma bind_assoc (p : Prog A α) (f : α → Prog A β) (g : β → Prog A γ) :
    (p.bind f).bind g = p.bind fun a => (f a).bind g := by
  induction p with
  | ret a => rfl
  | act a k ih => simp only [act_bind, ih]
  | loop body s k _ ih => simp only [loop_bind, ih]

lemma unfold_bind (body : σ → Prog A (σ ⊕ γ)) (s : σ) (k : γ → Prog A α) (f : α → Prog A β) :
    (unfold body s k).bind f = unfold body s (fun b => (k b).bind f) := by
  simp only [unfold, bind_assoc]
  congr 1
  funext r
  cases r <;> rfl

/-! ## Sequential runs -/

variable {M : Type}

/-- Run a program alone for at most `n` steps from memory `m`: an action or a loop unfolding
is one step.  `none` when the program has not answered by then. -/
def runFor (exec : {β : Type} → A β → M → β × M) : ℕ → {α : Type} → Prog A α → M → Option (α × M)
  | _, _, ret a, m => some (a, m)
  | 0, _, act _ _, _ => none
  | 0, _, loop _ _ _, _ => none
  | n + 1, _, act a k, m => runFor exec n (k (exec a m).1) (exec a m).2
  | n + 1, _, loop body s k, m => runFor exec n (unfold body s k) m

variable {exec : {β : Type} → A β → M → β × M} {n : ℕ} {m : M} {r : α × M}

/-- A run that answers and starts with an action. -/
lemma runFor_act {a : A β} {k : β → Prog A α} (h : runFor exec n (act a k) m = some r) :
    ∃ n' < n, runFor exec n' (k (exec a m).1) (exec a m).2 = some r := by
  cases n with
  | zero => simp [runFor] at h
  | succ n => exact ⟨n, Nat.lt_succ_self n, h⟩

/-- A run that answers and starts with a loop. -/
lemma runFor_loop {body : σ → Prog A (σ ⊕ β)} {s : σ} {k : β → Prog A α}
    (h : runFor exec n (loop body s k) m = some r) :
    ∃ n' < n, runFor exec n' (unfold body s k) m = some r := by
  cases n with
  | zero => simp [runFor] at h
  | succ n => exact ⟨n, Nat.lt_succ_self n, h⟩

lemma runFor_ret {a : α} (h : runFor exec n (ret a) m = some r) : r = (a, m) := by
  cases n <;> exact (Option.some.inj h).symm

end Prog

end Artmap
