import Artmap.Framework.Prog
import Mathlib.Logic.Relation

/-!
# Interleaved runs of a concurrent object

An `Object` is a memory with atomic actions, together with operations written as programs
over those actions.  Any number of threads call operations on it; a configuration holds the
memory, the unfinished program of every thread, and the history of invocations and
responses.  One step of a configuration is an invocation, one atomic action (or one loop
unfolding) of one thread, or a response, so the reachable configurations are exactly those
of every sequentially consistent interleaving.

The identifier of a call is the length of the history at its invocation: histories only
grow, so identifiers are never reused and "before" can be read off the history.
-/

namespace Artmap

/-- A shared memory, its atomic actions, and the operations offered over them.  `start t op`
says what an invocation of `op` by thread `t` does to the memory before its program runs (for
instance, that the objects it is given are newly allocated). -/
structure Object (A : Type → Type) where
  /-- Shared memory. -/
  Mem : Type
  /-- The effect of an action of thread `t`. -/
  exec : ℕ → {β : Type} → A β → Mem → β × Mem
  /-- Operations, with their arguments. -/
  Op : Type
  /-- Results. -/
  Ret : Type
  /-- The program of an operation. -/
  code : Op → Prog A Ret
  /-- The invocation of an operation. -/
  start : ℕ → Op → Mem → Mem → Prop

/-- An entry of a history. -/
inductive Event (Op Ret : Type) where
  /-- Call `id` of operation `op` is invoked. -/
  | inv (id : ℕ) (op : Op)
  /-- Call `id` answers `r`. -/
  | res (id : ℕ) (r : Ret)
  deriving DecidableEq

namespace Object

variable {A : Type → Type} (O : Object A)

/-- A call in progress: its identifier, its operation and what is left of its program. -/
structure Call where
  id : ℕ
  op : O.Op
  prog : Prog A O.Ret

/-- The memory, the call each thread is running, and the history so far. -/
structure Config where
  mem : O.Mem
  running : ℕ → Option O.Call
  hist : List (Event O.Op O.Ret)

variable {O}

/-- One step of a configuration. -/
inductive Step : O.Config → O.Config → Prop where
  /-- An idle thread invokes an operation. -/
  | invoke {c : O.Config} (t : ℕ) (op : O.Op) (m : O.Mem) (idle : c.running t = none)
      (hstart : O.start t op c.mem m) :
      Step c
        { mem := m
          running := Function.update c.running t (some ⟨c.hist.length, op, O.code op⟩)
          hist := c.hist ++ [.inv c.hist.length op] }
  /-- A thread performs the next atomic action of its program. -/
  | act {c : O.Config} (t id : ℕ) (op : O.Op) {β : Type} (a : A β) (k : β → Prog A O.Ret)
      (hrun : c.running t = some ⟨id, op, .act a k⟩) :
      Step c
        { mem := (O.exec t a c.mem).2
          running := Function.update c.running t (some ⟨id, op, k (O.exec t a c.mem).1⟩)
          hist := c.hist }
  /-- A thread unfolds a loop of its program. -/
  | unfold {c : O.Config} (t id : ℕ) (op : O.Op) {σ β : Type} (body : σ → Prog A (σ ⊕ β))
      (s : σ) (k : β → Prog A O.Ret) (hrun : c.running t = some ⟨id, op, .loop body s k⟩) :
      Step c
        { mem := c.mem
          running := Function.update c.running t (some ⟨id, op, Prog.unfold body s k⟩)
          hist := c.hist }
  /-- A thread whose program has answered responds and becomes idle. -/
  | respond {c : O.Config} (t id : ℕ) (op : O.Op) (r : O.Ret)
      (hrun : c.running t = some ⟨id, op, .ret r⟩) :
      Step c
        { mem := c.mem
          running := Function.update c.running t none
          hist := c.hist ++ [.res id r] }

/-- Call `id` performs the next action of its program. -/
def Acts (id : ℕ) (c c' : O.Config) : Prop :=
  ∃ (t : ℕ) (op : O.Op) (β : Type) (a : A β) (k : β → Prog A O.Ret),
    c.running t = some ⟨id, op, .act a k⟩ ∧
    c' = { mem := (O.exec t a c.mem).2
           running := Function.update c.running t (some ⟨id, op, k (O.exec t a c.mem).1⟩)
           hist := c.hist }

/-- The configuration before any invocation. -/
def initial (m : O.Mem) : O.Config where
  mem := m
  running := fun _ => none
  hist := []

/-- Configurations of the interleaved runs that start from memory `m`. -/
def Reachable (m : O.Mem) (c : O.Config) : Prop :=
  Relation.ReflTransGen Step (initial m) c

/-- Thread `t` invokes `op`, which leaves memory `m`. -/
def Config.invoke (c : O.Config) (t : ℕ) (op : O.Op) (m : O.Mem) : O.Config where
  mem := m
  running := Function.update c.running t (some ⟨c.hist.length, op, O.code op⟩)
  hist := c.hist ++ [.inv c.hist.length op]

/-- The next step of thread `t`, if it is running a call. -/
def Config.advance (t : ℕ) (c : O.Config) : O.Config :=
  match c.running t with
  | none => c
  | some ⟨id, _, .ret r⟩ =>
    { mem := c.mem
      running := Function.update c.running t none
      hist := c.hist ++ [.res id r] }
  | some ⟨id, op, .act a k⟩ =>
    { mem := (O.exec t a c.mem).2
      running := Function.update c.running t (some ⟨id, op, k (O.exec t a c.mem).1⟩)
      hist := c.hist }
  | some ⟨id, op, .loop body s k⟩ =>
    { mem := c.mem
      running := Function.update c.running t (some ⟨id, op, Prog.unfold body s k⟩)
      hist := c.hist }

/-- The steps of the given threads, in this order. -/
def Config.schedule (c : O.Config) (ts : List ℕ) : O.Config :=
  ts.foldl (fun c t => c.advance t) c

lemma Reachable.invoke {m : O.Mem} {c : O.Config} (h : Reachable m c) (t : ℕ) (op : O.Op)
    (m' : O.Mem) (idle : c.running t = none) (hstart : O.start t op c.mem m') :
    Reachable m (c.invoke t op m') :=
  h.tail (.invoke t op m' idle hstart)

lemma Config.step_advance (c : O.Config) (t : ℕ) : c.advance t = c ∨ Step c (c.advance t) := by
  unfold Config.advance
  split
  · exact .inl rfl
  · rename_i hrun
    exact .inr (.respond t _ _ _ hrun)
  · rename_i hrun
    exact .inr (.act t _ _ _ _ hrun)
  · rename_i hrun
    exact .inr (.unfold t _ _ _ _ _ hrun)

lemma Config.steps_advance (c : O.Config) (t : ℕ) :
    Relation.ReflTransGen Step c (c.advance t) := by
  rcases c.step_advance t with h | h
  · rw [h]
  · exact .single h

/-- The other threads go on with what they are running. -/
lemma Config.advance_other (c : O.Config) {t t' : ℕ} (h : t' ≠ t) :
    (c.advance t).running t' = c.running t' := by
  unfold Config.advance
  split
  · rfl
  all_goals exact Function.update_of_ne h _ _

lemma Config.schedule_other (n : ℕ) (c : O.Config) {t t' : ℕ} (h : t' ≠ t) :
    (c.schedule (List.replicate n t)).running t' = c.running t' := by
  induction n generalizing c with
  | zero => rfl
  | succ n ih => exact (ih (c.advance t)).trans (c.advance_other h)

lemma Config.steps_schedule (c : O.Config) (ts : List ℕ) :
    Relation.ReflTransGen Step c (c.schedule ts) := by
  induction ts generalizing c with
  | nil => exact .refl
  | cons t ts ih => exact (c.steps_advance t).trans (ih (c.advance t))

lemma Reachable.schedule {m : O.Mem} {c : O.Config} (h : Reachable m c) (ts : List ℕ) :
    Reachable m (c.schedule ts) :=
  h.trans (c.steps_schedule ts)

/-- The identifier of a call is the position of its invocation. -/
lemma Reachable.inv_at {m : O.Mem} {c : O.Config} (h : Reachable m c) {i : ℕ} {op : O.Op}
    (hi : .inv i op ∈ c.hist) : c.hist[i]? = some (.inv i op) := by
  induction h generalizing i op with
  | refl => simp [initial] at hi
  | @tail c c' _ hstep ih =>
    have hlt : ∀ {j o}, .inv j o ∈ c.hist → j < c.hist.length := fun hj =>
      (List.getElem?_eq_some_iff.mp (ih hj)).1
    have happ : ∀ {ev}, .inv i op ∈ c.hist → (c.hist ++ [ev])[i]? = some (.inv i op) := by
      intro ev hold
      rw [List.getElem?_append_left (hlt hold)]
      exact ih hold
    cases hstep with
    | invoke t op' m idle hstart =>
      rcases List.mem_append.mp hi with hold | hnew
      · exact happ hold
      · obtain ⟨rfl, rfl⟩ : i = c.hist.length ∧ op = op' := by simpa using hnew
        simp
    | act t id op' a k hrun => exact ih hi
    | unfold t id op' body s k hrun => exact ih hi
    | respond t id op' r hrun =>
      exact happ (by simpa using hi)

lemma Reachable.inv_unique {m : O.Mem} {c : O.Config} (h : Reachable m c) {i : ℕ} {op op' : O.Op}
    (hi : .inv i op ∈ c.hist) (hi' : .inv i op' ∈ c.hist) : op = op' := by
  have heq := (h.inv_at hi).symm.trans (h.inv_at hi')
  simpa using heq

/-- No call is in progress. -/
def Config.Quiescent (c : O.Config) : Prop :=
  ∀ t, c.running t = none

end Object

end Artmap
