import Artmap.Framework.Interleave

/-!
# A call seen from its own thread

Between two actions of a call the other threads may do anything; the call sees of it no more than
the answers to its own actions.  Some facts about a call (how often it allocates, say) do not
depend on what those answers are, or only on a few things that they are known to respect.

An `Observer` keeps a record of the call's actions and says which answers the record allows.
`Observer.wp` reasons about one program under all allowed answers, without a memory and without
other threads, and `Observer.sound` carries the result over to every interleaved run: `During`
is a run seen from one of its threads.
-/

namespace Artmap

/-- An action, and its answer. -/
structure Prog.Event (A : Type → Type) where
  {β : Type}
  act : A β
  ans : β

variable {A : Type → Type} {α β γ ρ σ : Type}

/-! ## Programs that only perform actions of one kind -/

/-- All actions of a program are of the kind `P`. -/
inductive Prog.All (P : (β : Type) → A β → Prop) : {α : Type} → Prog A α → Prop where
  | ret {α : Type} (a : α) : All P (.ret a)
  | act {α β : Type} {a : A β} {k : β → Prog A α} (h : P β a) (hk : ∀ b, All P (k b)) :
      All P (.act a k)
  | loop {ρ β α : Type} {body : ρ → Prog A (ρ ⊕ β)} {s : ρ} {k : β → Prog A α}
      (h : ∀ s, All P (body s)) (hk : ∀ b, All P (k b)) : All P (.loop body s k)

namespace Prog.All

variable {P : (β : Type) → A β → Prop}

lemma bind {p : Prog A α} {f : α → Prog A β} (h : All P p) (hf : ∀ a, All P (f a)) :
    All P (p.bind f) := by
  induction h with
  | ret a => exact hf a
  | act h _ ih => exact .act h fun b => ih b hf
  | loop h _ _ ih => exact .loop h fun b => ih b hf

lemma perform {a : A β} (h : P β a) : All P (.perform a) :=
  .act h fun b => .ret b

lemma iter {body : ρ → Prog A (ρ ⊕ β)} (h : ∀ s, All P (body s)) (s : ρ) :
    All P (.iter body s) :=
  .loop h fun b => .ret b

end Prog.All

/-! ## Runs seen from one thread -/

namespace Object

variable {O : Object A}

/-- From `c` a run leads on, in which thread `t` performs the actions `tr`, all of the call that it
is running. -/
inductive During (t : ℕ) (c : O.Config) : List (Prog.Event A) → O.Config → Prop where
  | refl : During t c [] c
  /-- The thread performs an action. -/
  | act {tr : List (Prog.Event A)} {c' : O.Config} {id : ℕ} {op : O.Op} {β : Type}
      {a : A β} {k : β → Prog A O.Ret} (h : During t c tr c')
    (hrun : c'.running t = some ⟨id, op, .act a k⟩) :
      During t c (tr ++ [⟨a, (O.exec t a c'.mem).1⟩]) (c'.advance t)
  /-- The thread unfolds a loop. -/
  | unfold {tr : List (Prog.Event A)} {c' : O.Config} {id : ℕ} {op : O.Op} {β ρ : Type}
      {body : ρ → Prog A (ρ ⊕ β)} {s : ρ} {k : β → Prog A O.Ret} (h : During t c tr c')
      (hrun : c'.running t = some ⟨id, op, .loop body s k⟩) : During t c tr (c'.advance t)
  /-- Another thread takes a step. -/
  | other {tr : List (Prog.Event A)} {c' c'' : O.Config} (h : During t c tr c')
      (hs : Step c' c'') (hsame : c''.running t = c'.running t) : During t c tr c''

namespace During

variable {t n id : ℕ} {op : O.Op} {c c' c'' : O.Config} {tr tr' : List (Prog.Event A)}

lemma trans (h : During t c tr c') (h' : During t c' tr' c'') : During t c (tr ++ tr') c'' := by
  induction h' with
  | refl => simpa using h
  | act _ hrun ih =>
    rw [← List.append_assoc]
    exact ih.act hrun
  | unfold _ hrun ih => exact ih.unfold hrun
  | other _ hs hsame ih => exact ih.other hs hsame

/-- A call that runs alone. -/
lemma of_runFor {p : Prog A O.Ret} {r : O.Ret × O.Mem} (hrun : c.running t = some ⟨id, op, p⟩)
    (h : Prog.runFor (fun {β} => O.exec t (β := β)) n p c.mem = some r) :
    ∃ tr c', During t c tr c' ∧ c'.running t = some ⟨id, op, .ret r.1⟩ := by
  induction n using Nat.strongRecOn generalizing c p with
  | _ n ih =>
    cases p with
    | ret a =>
      obtain rfl := Prog.runFor_ret h
      exact ⟨[], c, .refl, hrun⟩
    | act a k =>
      obtain ⟨n', hn, h⟩ := Prog.runFor_act h
      have hadv : (c.advance t).mem = (O.exec t a c.mem).2 ∧
          (c.advance t).running t = some ⟨id, op, k (O.exec t a c.mem).1⟩ := by
        simp [Config.advance, hrun]
      obtain ⟨tr, c', h1, h2⟩ := ih n' hn hadv.2 (by rw [hadv.1]; exact h)
      exact ⟨_, c', (During.refl.act hrun).trans h1, h2⟩
    | loop body s k =>
      obtain ⟨n', hn, h⟩ := Prog.runFor_loop h
      have hadv : (c.advance t).mem = c.mem ∧
          (c.advance t).running t = some ⟨id, op, Prog.unfold body s k⟩ := by
        simp [Config.advance, hrun]
      obtain ⟨tr, c', h1, h2⟩ := ih n' hn hadv.2 (by rw [hadv.1]; exact h)
      exact ⟨_, c', (During.refl.unfold hrun).trans h1, h2⟩

end During

end Object

/-! ## Observers -/

/-- A record of what a call has done, and the answers that it allows. -/
structure Observer (A : Type → Type) (σ : Type) where
  /-- An action may be answered so. -/
  Allows : {β : Type} → A β → β → σ → Prop
  /-- The record after an action and its answer. -/
  note : {β : Type} → A β → β → σ → σ

namespace Observer

variable (V : Observer A σ) (I : σ → Prop)

/-- The record after some actions. -/
def noted (s : σ) (tr : List (Prog.Event A)) : σ :=
  tr.foldl (fun s e => V.note e.act e.ans s) s

/-- `p` can take `n` steps, keeping `I`, whatever allowed answers it gets, and meets `Q` if it
answers within them. -/
def Safe : ℕ → {α : Type} → Prog A α → (α → σ → Prop) → σ → Prop
  | 0, _, _, _, _ => True
  | _ + 1, _, .ret a, Q, s => Q a s
  | n + 1, _, .act a k, Q, s =>
      ∀ b, V.Allows a b s → I (V.note a b s) ∧ Safe n (k b) Q (V.note a b s)
  | n + 1, _, .loop body s₀ k, Q, s => Safe n (Prog.unfold body s₀ k) Q s

/-- `p` keeps `I`, whatever allowed answers it gets, and meets `Q` if it answers. -/
def wp (p : Prog A α) (Q : α → σ → Prop) (s : σ) : Prop :=
  I s → ∀ n, V.Safe I n p (fun a s => I s → Q a s) s

/-- An action that leaves no trace in the record. -/
def Plain (β : Type) (a : A β) : Prop :=
  ∀ b s, V.note a b s = s

variable {V I} {s : σ}

lemma Safe.mono {Q Q' : α → σ → Prop} (hQ : ∀ a s, Q a s → Q' a s) (n : ℕ) (p : Prog A α) (s : σ)
    (h : V.Safe I n p Q s) : V.Safe I n p Q' s := by
  induction n generalizing α s with
  | zero => trivial
  | succ n ih =>
    cases p with
    | ret a => exact hQ a s h
    | act a k => exact fun b hb => ⟨(h b hb).1, ih hQ _ _ (h b hb).2⟩
    | loop body s₀ k => exact ih hQ _ s h

lemma Safe.bind {Q : β → σ → Prop} (f : α → Prog A β) (n : ℕ) (p : Prog A α) (s : σ) (hs : I s)
    (h : V.Safe I n p (fun a s => I s → ∀ m ≤ n, V.Safe I m (f a) Q s) s) :
    V.Safe I n (p.bind f) Q s := by
  induction n generalizing α s with
  | zero => trivial
  | succ n ih =>
    cases p with
    | ret a => exact h hs (n + 1) (Nat.le_refl _)
    | act a k =>
      intro b hb
      obtain ⟨h1, h2⟩ := h b hb
      exact ⟨h1, ih f _ _ h1 (Safe.mono (fun _ _ h hi m hm => h hi m (by omega)) n _ _ h2)⟩
    | loop body s₀ k =>
      have := ih f _ s hs (Safe.mono (fun _ _ h hi m hm => h hi m (by omega)) n _ s h)
      rwa [Prog.unfold_bind] at this

/-! ## Rules -/

lemma wp_ret {Q : α → σ → Prop} {a : α} (h : Q a s) : V.wp I (.ret a) Q s := by
  intro _ n
  cases n with
  | zero => trivial
  | succ n => exact fun _ => h

lemma wp_intro {Q : α → σ → Prop} {p : Prog A α} (h : I s → V.wp I p Q s) : V.wp I p Q s :=
  fun hs => h hs hs

lemma wp_mono {Q Q' : α → σ → Prop} {p : Prog A α} (h : V.wp I p Q s)
    (hQ : ∀ a s, I s → Q a s → Q' a s) : V.wp I p Q' s :=
  fun hs n => Safe.mono (fun a s h hi => hQ a s hi (h hi)) n p s (h hs n)

lemma wp_seq {K : α → σ → Prop} {Q : β → σ → Prop} {p : Prog A α} {f : α → Prog A β}
    (h : V.wp I p K s) (hf : ∀ a s, I s → K a s → V.wp I (f a) Q s) : V.wp I (p.bind f) Q s :=
  fun hs n => Safe.bind f n p s hs
    (Safe.mono (fun a s hK hi m _ => hf a s hi (hK hi) hi m) n p s (h hs n))

lemma wp_act {Q : α → σ → Prop} {a : A β} {k : β → Prog A α}
    (h : ∀ b, V.Allows a b s → I (V.note a b s) ∧ V.wp I (k b) Q (V.note a b s)) :
    V.wp I (.act a k) Q s := by
  intro _ n
  cases n with
  | zero => trivial
  | succ n => exact fun b hb => ⟨(h b hb).1, (h b hb).2 (h b hb).1 n⟩

/-- An action that leaves no trace. -/
lemma wp_plain_act {Q : α → σ → Prop} {a : A β} {k : β → Prog A α} (ha : V.Plain β a)
    (h : ∀ b, V.Allows a b s → V.wp I (k b) Q s) : V.wp I (.act a k) Q s :=
  wp_intro fun hs => wp_act fun b hb => by
    rw [ha b s]
    exact ⟨hs, h b hb⟩

/-- A loop keeps what each of its rounds keeps. -/
lemma wp_iter {Q : β → σ → Prop} {body : ρ → Prog A (ρ ⊕ β)} (J : ρ → σ → Prop)
    (hbody : ∀ r s, J r s → V.wp I (body r) (fun x s => Sum.elim (J · s) (Q · s) x) s)
    {r : ρ} (h : J r s) : V.wp I (Prog.iter body r) Q s := by
  intro hs n
  -- By induction on the steps that are left.
  induction n using Nat.strongRecOn generalizing r s with
  | _ n ih =>
    cases n with
    | zero => trivial
    | succ n =>
      refine Safe.bind _ n _ s hs (Safe.mono ?_ n _ s (hbody r s h hs n))
      intro x s' hx hs' m hm
      cases x with
      | inl r' => exact ih m (by omega) (hx hs') hs'
      | inr b =>
        cases m with
        | zero => trivial
        | succ m => exact fun _ => hx hs'

/-- A program of plain actions leaves no trace. -/
lemma wp_plain {p : Prog A α} (h : Prog.All V.Plain p) : V.wp I p (fun _ s' => s' = s) s := by
  intro hs n
  induction n generalizing α with
  | zero => trivial
  | succ n ih =>
    cases h with
    | ret a => exact fun _ => rfl
    | act h hk =>
      intro b _
      rw [h b s]
      exact ⟨hs, ih (hk b)⟩
    | loop h hk =>
      refine ih ((h _).bind fun x => ?_)
      cases x with
      | inl r => exact .loop h hk
      | inr b => exact hk b

/-- A program of plain actions, before something else. -/
lemma wp_plain_seq {Q : β → σ → Prop} {p : Prog A α} {f : α → Prog A β} (h : Prog.All V.Plain p)
    (hf : ∀ a, V.wp I (f a) Q s) : V.wp I (p.bind f) Q s :=
  wp_seq (wp_plain h) fun a _ _ hs => hs ▸ hf a

/-! ## Soundness -/

variable {O : Object A} {t : ℕ} {c c' : O.Config} {tr : List (Prog.Event A)}

/-- What a record has to do with the memory: the answers to the actions of thread `t` are allowed,
and no other thread's action makes the record wrong. -/
structure Follows (V : Observer A σ) (O : Object A) (t : ℕ) (R : O.Mem → σ → Prop) : Prop where
  own : ∀ {β : Type} (a : A β) m s, R m s →
    V.Allows a (O.exec t a m).1 s ∧ R (O.exec t a m).2 (V.note a (O.exec t a m).1 s)
  other : ∀ t' {β : Type} (a : A β) m s, R m s → R (O.exec t' a m).2 s
  start : ∀ t' op m m' s, R m s → O.start t' op m m' → R m' s

lemma Follows.step {R : O.Mem → σ → Prop} (hR : V.Follows O t R) (hs : Object.Step c c')
    (h : R c.mem s) : R c'.mem s := by
  cases hs with
  | invoke t' op m idle hstart => exact hR.start t' op _ m s h hstart
  | act t' id op a k hrun => exact hR.other t' a _ s h
  | unfold t' id op body s₀ k hrun => exact h
  | respond t' id op r hrun => exact h

/-- **Soundness.**  What holds of a program under all allowed answers holds of the call in every
run. -/
theorem sound {R : O.Mem → σ → Prop} (hR : V.Follows O t R) {p : Prog A O.Ret}
    {Q : O.Ret → σ → Prop} (hp : V.wp I p Q s) (hs : I s) {id : ℕ} {op : O.Op}
    (hrun : c.running t = some ⟨id, op, p⟩) (hmem : R c.mem s) (h : Object.During t c tr c') :
    I (V.noted s tr) ∧ ∀ r, c'.running t = some ⟨id, op, .ret r⟩ → Q r (V.noted s tr) := by
  suffices key : ∃ q, c'.running t = some ⟨id, op, q⟩ ∧ R c'.mem (V.noted s tr) ∧
      I (V.noted s tr) ∧ ∀ n, V.Safe I n q (fun a s => I s → Q a s) (V.noted s tr) by
    obtain ⟨q, h1, -, h2, h3⟩ := key
    refine ⟨h2, fun r hr => ?_⟩
    obtain rfl : q = .ret r := by simpa using h1.symm.trans hr
    exact h3 1 h2
  induction h with
  | refl => exact ⟨p, hrun, hmem, hs, hp hs⟩
  | @act tr c' id' op' β a k _ hrun' ih =>
    obtain ⟨q, h1, h2, h3, h4⟩ := ih
    obtain ⟨rfl, rfl, rfl⟩ : id' = id ∧ op' = op ∧ Prog.act a k = q := by
      simpa using hrun'.symm.trans h1
    obtain ⟨hallow, hmem'⟩ := hR.own a _ _ h2
    have hadv : (c'.advance t).mem = (O.exec t a c'.mem).2 ∧
        (c'.advance t).running t = some ⟨id', op', k (O.exec t a c'.mem).1⟩ := by
      simp [Object.Config.advance, hrun']
    have hnote : V.noted s (tr ++ [⟨a, (O.exec t a c'.mem).1⟩]) =
        V.note a (O.exec t a c'.mem).1 (V.noted s tr) := by
      simp [noted]
    rw [hnote, hadv.1]
    exact ⟨_, hadv.2, hmem', (h4 1 _ hallow).1, fun n => (h4 (n + 1) _ hallow).2⟩
  | @unfold tr c' id' op' β ρ body s₀ k _ hrun' ih =>
    obtain ⟨q, h1, h2, h3, h4⟩ := ih
    obtain ⟨rfl, rfl, rfl⟩ : id' = id ∧ op' = op ∧ Prog.loop body s₀ k = q := by
      simpa using hrun'.symm.trans h1
    have hadv : (c'.advance t).mem = c'.mem ∧
        (c'.advance t).running t = some ⟨id', op', Prog.unfold body s₀ k⟩ := by
      simp [Object.Config.advance, hrun']
    exact ⟨_, hadv.2, hadv.1 ▸ h2, h3, fun n => h4 (n + 1)⟩
  | other _ hstep hsame ih =>
    obtain ⟨q, h1, h2, h3, h4⟩ := ih
    exact ⟨q, hsame.trans h1, hR.step hstep h2, h3, h4⟩

end Observer

end Artmap
