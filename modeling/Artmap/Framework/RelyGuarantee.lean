import Artmap.Framework.Interleave
import Mathlib.Order.WellFounded

/-!
# Rely-guarantee reasoning for interleaved programs

A proof about a concurrent object fixes a ghost state, an invariant of memory, history and
ghost state, and for every thread `t` a preorder `Rely t`: what the steps of the *other*
threads may change; it may also fix conditions under which alone an action is performed.
`RG.wp live t p Q x` says that thread `t` can run `p` from world `x` so
that after each of its actions, for some choice of the new ghost state, the invariant holds
again and every other thread's rely allows the change, and so that `Q` holds of its answer;
the other threads may take any number of steps, within `Rely t`, after each action.

The flag `live` asks for more from a program that runs alone.  With `live = true` no other
thread has a call in progress, nothing interferes, and `p` has to answer after finitely many
steps.  The rules are the same for both values, so one proof of an operation gives its safety
in every interleaving and its termination when it runs alone; a loop needs an invariant, and a
measure that decreases in case `live = true` (`RG.wp_iter`).

`RG.sound` turns the obligations of the single operations into a statement about every
reachable configuration, and `RG.answers` into one about calls that run alone.

The ghost state exists only in proofs: it is chosen anew after each step, and programs do
not mention it.
-/

namespace Artmap

/-- Memory, history and ghost state. -/
structure World {A : Type → Type} (O : Object A) (G : Type) where
  mem : O.Mem
  hist : List (Event O.Op O.Ret)
  ghost : G

/-- A rely-guarantee assignment for an object. -/
structure RG {A : Type → Type} (O : Object A) where
  /-- Ghost state. -/
  Ghost : Type
  /-- The invariant. -/
  Inv : World O Ghost → Prop
  /-- What the other threads may do to thread `t`. -/
  Rely : ℕ → World O Ghost → World O Ghost → Prop
  refl : ∀ t x, Rely t x x
  trans : ∀ {t x y z}, Rely t x y → Rely t y z → Rely t x z
  /-- The call that thread `t` is running. -/
  tag : Ghost → ℕ → Option (ℕ × O.Op)
  tag_rely : ∀ {t x y}, Rely t x y → tag y.ghost t = tag x.ghost t
  /-- What holds whenever thread `t` is about to perform an action. -/
  Allowed : ℕ → {β : Type} → A β → World O Ghost → Prop
  /-- What holds of every step of thread `t`, from the one world to the other: of its actions,
  and of the invocations and responses of its calls. -/
  Own : ℕ → World O Ghost → World O Ghost → Prop := fun _ _ _ => True

namespace RG

variable {A : Type → Type} {O : Object A} (R : RG O) {live : Bool} {t : ℕ} {α β γ σ : Type}

/-- What thread `t` owes to the others at each of its own steps. -/
structure Guar (t : ℕ) (x y : World O R.Ghost) : Prop where
  rely : ∀ t', t' ≠ t → R.Rely t' x y
  tag : R.tag y.ghost t = R.tag x.ghost t
  own : R.Own t x y

/-- In case `live = true`, no other thread has a call in progress. -/
def Calm (live : Bool) (t : ℕ) (x : World O R.Ghost) : Prop :=
  live = true → ∀ t', t' ≠ t → R.tag x.ghost t' = none

/-- What holds between any two actions of thread `t`, which is running a call. -/
structure Ok (live : Bool) (t : ℕ) (x : World O R.Ghost) : Prop where
  inv : R.Inv x
  calm : R.Calm live t x
  running : R.tag x.ghost t ≠ none

/-- What the other threads do between two actions of thread `t`. -/
def Interfere (live : Bool) (t : ℕ) (x y : World O R.Ghost) : Prop :=
  R.Rely t x y ∧ (live = true → y = x)

/-- `p` can take `n` steps from `x` and, if it answers within them, meets `Q`. -/
def Safe (t : ℕ) :
    ℕ → {α : Type} → Prog A α → (α → World O R.Ghost → Prop) → World O R.Ghost → Prop
  | 0, _, _, _, _ => True
  | _ + 1, _, .ret a, Q, x => Q a x
  | n + 1, _, .act a k, Q, x =>
      R.Allowed t a x ∧ ∃ g, R.Guar t x ⟨(O.exec t a x.mem).2, x.hist, g⟩ ∧
        R.Inv ⟨(O.exec t a x.mem).2, x.hist, g⟩ ∧
        ∀ y, R.Rely t ⟨(O.exec t a x.mem).2, x.hist, g⟩ y → R.Inv y →
          Safe t n (k (O.exec t a x.mem).1) Q y
  | n + 1, _, .loop body s k, Q, x => Safe t n (Prog.unfold body s k) Q x

/-- Alone from `x`, `p` answers within `n` steps and meets `Q`. -/
def Answers (t : ℕ) :
    ℕ → {α : Type} → Prog A α → (α → World O R.Ghost → Prop) → World O R.Ghost → Prop
  | _, _, .ret a, Q, x => Q a x
  | 0, _, .act _ _, _, _ => False
  | 0, _, .loop _ _ _, _, _ => False
  | n + 1, _, .act a k, Q, x =>
      ∃ g, R.Guar t x ⟨(O.exec t a x.mem).2, x.hist, g⟩ ∧
        R.Inv ⟨(O.exec t a x.mem).2, x.hist, g⟩ ∧
        Answers t n (k (O.exec t a x.mem).1) Q ⟨(O.exec t a x.mem).2, x.hist, g⟩
  | n + 1, _, .loop body s k, Q, x => Answers t n (Prog.unfold body s k) Q x

/-- `p` runs safely from `x` and meets `Q` if it answers; alone, it does answer. -/
def wp (live : Bool) (t : ℕ) (p : Prog A α) (Q : α → World O R.Ghost → Prop)
    (x : World O R.Ghost) : Prop :=
  R.Ok live t x → match live with
    | false => ∀ n, R.Safe t n p (fun a y => R.Ok false t y → Q a y) x
    | true => ∃ n, R.Answers t n p (fun a y => R.Ok true t y → Q a y) x

variable {R}

lemma Guar.calm {x y : World O R.Ghost} (hg : R.Guar t x y) (hx : R.Calm live t x) :
    R.Calm live t y := by
  intro hl t' ht'
  rw [R.tag_rely (hg.rely t' ht')]
  exact hx hl t' ht'

lemma Interfere.calm {x y : World O R.Ghost} (hy : R.Interfere live t x y)
    (hx : R.Calm live t x) : R.Calm live t y := by
  intro hl
  rw [hy.2 hl]
  exact hx hl

/-- An own step, and then others' steps. -/
lemma Ok.step {x y z : World O R.Ghost} (hx : R.Ok live t x) (hg : R.Guar t x y)
    (hz : R.Interfere live t y z) (hi : R.Inv z) : R.Ok live t z where
  inv := hi
  calm := hz.calm (hg.calm hx.calm)
  running := by
    rw [R.tag_rely hz.1, hg.tag]
    exact hx.running

lemma Safe.mono {Q Q' : α → World O R.Ghost → Prop} (hQ : ∀ a x, Q a x → Q' a x) (n : ℕ)
    (p : Prog A α) (x : World O R.Ghost) (h : R.Safe t n p Q x) : R.Safe t n p Q' x := by
  induction n generalizing α x with
  | zero => trivial
  | succ n ih =>
    cases p with
    | ret a => exact hQ a x h
    | act a k =>
      obtain ⟨ha, g, hg, hi, hk⟩ := h
      exact ⟨ha, g, hg, hi, fun y hy hiy => ih hQ _ y (hk y hy hiy)⟩
    | loop body s k => exact ih hQ _ x h

lemma Safe.of_succ {Q : α → World O R.Ghost → Prop} {n : ℕ} {p : Prog A α}
    {x : World O R.Ghost} (h : R.Safe t (n + 1) p Q x) : R.Safe t n p Q x := by
  induction n generalizing α x with
  | zero => trivial
  | succ n ih =>
    cases p with
    | ret a => exact h
    | act a k =>
      obtain ⟨ha, g, hg, hi, hk⟩ := h
      exact ⟨ha, g, hg, hi, fun y hy hiy => ih (hk y hy hiy)⟩
    | loop body s k => exact ih h

lemma Answers.mono {Q Q' : α → World O R.Ghost → Prop} (hQ : ∀ a x, Q a x → Q' a x) (n : ℕ)
    (p : Prog A α) (x : World O R.Ghost) (h : R.Answers t n p Q x) :
    R.Answers t n p Q' x := by
  induction n generalizing α x with
  | zero =>
    cases p with
    | ret a => exact hQ a x h
    | act a k => exact h
    | loop body s k => exact h
  | succ n ih =>
    cases p with
    | ret a => exact hQ a x h
    | act a k =>
      obtain ⟨g, hg, hi, hk⟩ := h
      exact ⟨g, hg, hi, ih hQ _ _ hk⟩
    | loop body s k => exact ih hQ _ x h

lemma Interfere.of_rely {x y : World O R.Ghost} (h : R.Rely t x y) :
    R.Interfere false t x y :=
  ⟨h, fun hl => by simp at hl⟩

lemma Safe.bind {Q : β → World O R.Ghost → Prop} (f : α → Prog A β) (n : ℕ) (p : Prog A α)
    (x : World O R.Ghost) (hx : R.Ok false t x)
    (h : R.Safe t n p (fun a y => R.Ok false t y → ∀ m ≤ n, R.Safe t m (f a) Q y) x) :
    R.Safe t n (p.bind f) Q x := by
  induction n generalizing α x with
  | zero => trivial
  | succ n ih =>
    cases p with
    | ret a => exact h hx (n + 1) le_rfl
    | act a k =>
      obtain ⟨ha, g, hg, hi, hk⟩ := h
      refine ⟨ha, g, hg, hi, fun y hy hiy => ih f _ y (hx.step hg (.of_rely hy) hiy) ?_⟩
      exact Safe.mono (fun b z hz hiz m hm => hz hiz m (by omega)) n _ y (hk y hy hiy)
    | loop body s k =>
      have hs := ih f _ x hx
        (Safe.mono (fun b z hz hiz m hm => hz hiz m (by omega)) n _ x h)
      rw [Prog.unfold_bind] at hs
      exact hs

lemma Answers.bind {Q : β → World O R.Ghost → Prop} (f : α → Prog A β) (n : ℕ) (p : Prog A α)
    (x : World O R.Ghost) (hx : R.Ok true t x)
    (h : R.Answers t n p (fun a y => R.Ok true t y → ∃ m, R.Answers t m (f a) Q y) x) :
    ∃ m, R.Answers t m (p.bind f) Q x := by
  induction n generalizing α x with
  | zero =>
    cases p with
    | ret a => exact h hx
    | act a k => exact h.elim
    | loop body s k => exact h.elim
  | succ n ih =>
    cases p with
    | ret a => exact h hx
    | act a k =>
      obtain ⟨g, hg, hi, hk⟩ := h
      obtain ⟨m, hm⟩ := ih f _ _ (hx.step hg ⟨R.refl t _, fun _ => rfl⟩ hi) hk
      exact ⟨m + 1, g, hg, hi, hm⟩
    | loop body s k =>
      obtain ⟨m, hm⟩ := ih f _ x hx h
      rw [Prog.unfold_bind] at hm
      exact ⟨m + 1, hm⟩

/-! ## Rules -/

lemma wp_intro {Q : α → World O R.Ghost → Prop} {p : Prog A α} {x : World O R.Ghost}
    (h : R.Ok live t x → R.wp live t p Q x) : R.wp live t p Q x :=
  fun hx => h hx hx

lemma wp_ret {Q : α → World O R.Ghost → Prop} {a : α} {x : World O R.Ghost} (h : Q a x) :
    R.wp live t (.ret a) Q x := by
  intro hx
  cases live with
  | false =>
    intro n
    cases n with
    | zero => trivial
    | succ n => exact fun _ => h
  | true => exact ⟨0, fun _ => h⟩

lemma wp_mono {Q Q' : α → World O R.Ghost → Prop} {p : Prog A α} {x : World O R.Ghost}
    (h : R.wp live t p Q x) (hQ : ∀ a y, R.Ok live t y → Q a y → Q' a y) :
    R.wp live t p Q' x := by
  intro hx
  cases live with
  | false => exact fun n => Safe.mono (fun a y hq hy => hQ a y hy (hq hy)) n p x (h hx n)
  | true =>
    obtain ⟨n, hn⟩ := h hx
    exact ⟨n, Answers.mono (fun a y hq hy => hQ a y hy (hq hy)) n p x hn⟩

lemma wp_bind {Q : β → World O R.Ghost → Prop} {p : Prog A α} {f : α → Prog A β}
    {x : World O R.Ghost} (h : R.wp live t p (fun a y => R.wp live t (f a) Q y) x) :
    R.wp live t (p.bind f) Q x := by
  intro hx
  cases live with
  | false =>
    intro n
    refine Safe.bind f n p x hx (Safe.mono ?_ n p x (h hx n))
    exact fun a y hq hy m _ => hq hy hy m
  | true =>
    obtain ⟨n, hn⟩ := h hx
    exact Answers.bind f n p x hx (Answers.mono (fun a y hq hy => hq hy hy) n p x hn)

lemma wp_seq {Q : β → World O R.Ghost → Prop} {K : α → World O R.Ghost → Prop} {p : Prog A α}
    {f : α → Prog A β} {x : World O R.Ghost} (h : R.wp live t p K x)
    (hf : ∀ a y, R.Ok live t y → K a y → R.wp live t (f a) Q y) :
    R.wp live t (p.bind f) Q x :=
  wp_bind (wp_mono h hf)

/-- One action: choose the ghost state after it, re-establish the invariant, and continue
from whatever the other threads make of the result. -/
lemma wp_act {Q : α → World O R.Ghost → Prop} {a : A β} {k : β → Prog A α}
    {x : World O R.Ghost} (ha : R.Allowed t a x) (g : R.Ghost)
    (hg : R.Guar t x ⟨(O.exec t a x.mem).2, x.hist, g⟩)
    (hi : R.Inv ⟨(O.exec t a x.mem).2, x.hist, g⟩)
    (hk : ∀ y, R.Interfere live t ⟨(O.exec t a x.mem).2, x.hist, g⟩ y → R.Ok live t y →
      R.wp live t (k (O.exec t a x.mem).1) Q y) :
    R.wp live t (.act a k) Q x := by
  intro hx
  cases live with
  | false =>
    intro n
    cases n with
    | zero => trivial
    | succ n =>
      refine ⟨ha, g, hg, hi, fun y hy hiy => ?_⟩
      have hok := hx.step hg (.of_rely hy) hiy
      exact hk y (.of_rely hy) hok hok n
  | true =>
    have hok : R.Ok true t ⟨(O.exec t a x.mem).2, x.hist, g⟩ :=
      hx.step hg ⟨R.refl t _, fun _ => rfl⟩ hi
    obtain ⟨n, hn⟩ := hk _ ⟨R.refl t _, fun _ => rfl⟩ hok hok
    exact ⟨n + 1, g, hg, hi, hn⟩

lemma wp_perform {Q : β → World O R.Ghost → Prop} {a : A β} {x : World O R.Ghost}
    (ha : R.Allowed t a x) (g : R.Ghost)
    (hg : R.Guar t x ⟨(O.exec t a x.mem).2, x.hist, g⟩)
    (hi : R.Inv ⟨(O.exec t a x.mem).2, x.hist, g⟩)
    (hk : ∀ y, R.Interfere live t ⟨(O.exec t a x.mem).2, x.hist, g⟩ y → R.Ok live t y →
      Q (O.exec t a x.mem).1 y) :
    R.wp live t (Prog.perform a) Q x :=
  wp_act ha g hg hi fun y hy hiy => wp_ret (hk y hy hiy)

/-- A loop that the body of a safe loop continues with has fewer steps left. -/
lemma Safe.iter {Q : β → World O R.Ghost → Prop} {body : σ → Prog A (σ ⊕ β)}
    {I : σ → World O R.Ghost → Prop} {n : ℕ}
    (ih : ∀ m ≤ n, ∀ {s x}, R.Ok false t x → I s x → R.Safe t m (Prog.iter body s) Q x)
    (p : Prog A (σ ⊕ β)) (z : World O R.Ghost) (hz : R.Ok false t z)
    (h : R.Safe t n p
      (fun r y => R.Ok false t y → Sum.elim (fun s' => I s' y) (fun b => Q b y) r) z) :
    R.Safe t n (p.bind (Prog.again body .ret)) Q z := by
  refine Safe.bind _ n p z hz (Safe.mono ?_ n p z h)
  intro r y hr hy m hm
  cases r with
  | inl s' => exact ih m hm hy (hr hy)
  | inr b =>
    cases m with
    | zero => trivial
    | succ m => exact hr hy

/-- A loop is safe when its body keeps an invariant `I` of the loop state; it answers when it
runs alone if, then, every further round makes the measure smaller. -/
lemma wp_iter {Q : β → World O R.Ghost → Prop} {body : σ → Prog A (σ ⊕ β)}
    {δ : Type} [Preorder δ] [WellFoundedLT δ]
    (I : σ → World O R.Ghost → Prop) (μ : σ → World O R.Ghost → δ)
    (hbody : ∀ s x, I s x → R.wp live t (body s)
      (fun r y => Sum.elim (fun s' => I s' y ∧ (live = true → μ s' y < μ s x))
        (fun b => Q b y) r) x)
    {s : σ} {x : World O R.Ghost} (h : I s x) : R.wp live t (Prog.iter body s) Q x := by
  intro hx
  cases live with
  | false =>
    intro n
    have key : ∀ n, ∀ {s x}, R.Ok false t x → I s x →
        R.Safe t n (Prog.iter body s) (fun a y => R.Ok false t y → Q a y) x := by
      intro n
      induction n using Nat.strongRecOn with
      | _ n ih =>
        intro s x hx hs
        cases n with
        | zero => trivial
        | succ n =>
          refine Safe.iter (I := I) (fun m hm => ih m (by omega)) (body s) x hx ?_
          refine Safe.mono ?_ n _ x (hbody s x hs hx n)
          intro r y hr hy
          have hr' := hr hy
          cases r with
          | inl s' => exact hr'.1
          | inr b => exact fun _ => hr'
    exact key n hx h
  | true =>
    -- By induction on the measure at the start of a round.
    induction hm : μ s x using WellFoundedLT.induction generalizing s x with
    | _ d ih =>
      obtain ⟨n, hn⟩ := hbody s x h hx
      have hb : ∃ m, R.Answers t m ((body s).bind (Prog.again body .ret))
          (fun a y => R.Ok true t y → Q a y) x := by
        refine Answers.bind _ n (body s) x hx (Answers.mono ?_ n _ x hn)
        intro r y hr hy
        have hr' := hr hy
        cases r with
        | inl s' => exact ih (μ s' y) (hm ▸ hr'.2 rfl) hr'.1 hy rfl
        | inr b => exact ⟨0, fun _ => hr'⟩
      obtain ⟨m, hm'⟩ := hb
      exact ⟨m + 1, hm'⟩

/-! ## Soundness -/

/-- The world of a configuration with ghost state `g`. -/
def worldOf (c : O.Config) (g : R.Ghost) : World O R.Ghost :=
  ⟨c.mem, c.hist, g⟩

/-- Obligations on the operations of an object: what is established by an invocation (`Pre`),
what a program must establish before it answers (`Post`), and that responding keeps the
invariant. -/
structure Verified (R : RG O) where
  /-- What holds when a call starts. -/
  Pre : ℕ → ℕ → O.Op → World O R.Ghost → Prop
  /-- What a call has established when it answers. -/
  Post : ℕ → ℕ → O.Op → O.Ret → World O R.Ghost → Prop
  pre_stable : ∀ {t id op x y}, R.Rely t x y → Pre t id op x → Pre t id op y
  code_ok : ∀ {live t id op x}, Pre t id op x → R.wp live t (O.code op) (Post t id op) x
  invoke_ok : ∀ {t op m x}, R.Inv x → R.tag x.ghost t = none → O.start t op x.mem m →
    ∃ g, R.Inv ⟨m, x.hist ++ [.inv x.hist.length op], g⟩ ∧
      Pre t x.hist.length op ⟨m, x.hist ++ [.inv x.hist.length op], g⟩ ∧
      R.tag g t = some (x.hist.length, op) ∧
      (∀ t', t' ≠ t → R.Rely t' x ⟨m, x.hist ++ [.inv x.hist.length op], g⟩) ∧
      R.Own t x ⟨m, x.hist ++ [.inv x.hist.length op], g⟩
  respond_ok : ∀ {t id op r x}, R.Inv x → R.tag x.ghost t = some (id, op) →
    Post t id op r x →
    ∃ g, R.Inv ⟨x.mem, x.hist ++ [.res id r], g⟩ ∧ R.tag g t = none ∧
      (∀ t', t' ≠ t → R.Rely t' x ⟨x.mem, x.hist ++ [.res id r], g⟩) ∧
      R.Own t x ⟨x.mem, x.hist ++ [.res id r], g⟩

/-- The ghost state of a configuration satisfies the invariant and knows which calls are
running. -/
def Matches (c : O.Config) (g : R.Ghost) : Prop :=
  R.Inv (worldOf c g) ∧
  ∀ t, R.tag g t = (c.running t).map fun call => (call.id, call.op)

/-- What is kept along every run, for `N` further steps: the ghost state matches the
configuration and makes every unfinished program safe. -/
def Kept (V : Verified R) (N : ℕ) (c : O.Config) (g : R.Ghost) : Prop :=
  Matches c g ∧
  ∀ t call, c.running t = some call → ∀ y, R.Rely t (worldOf c g) y → R.Inv y →
    R.Safe t N call.prog (fun r z => R.Ok false t z → V.Post t call.id call.op r z) y

lemma Matches.ok {c : O.Config} {g : R.Ghost} (h : Matches c g) {call : O.Call}
    (hrun : c.running t = some call) : R.Ok false t (worldOf c g) where
  inv := h.1
  calm hl := by simp at hl
  running := by
    show R.tag g t ≠ none
    rw [h.2 t, hrun]
    simp

/-- A step of thread `t` keeps the other threads' part of `Kept`. -/
lemma kept_of_step (V : Verified R) {N : ℕ} {c c' : O.Config} {g g' : R.Ghost} {t : ℕ}
    (hk : Kept V (N + 1) c g) (hother : ∀ t', t' ≠ t → c'.running t' = c.running t')
    (hinv : R.Inv (worldOf c' g'))
    (hrely : ∀ t', t' ≠ t → R.Rely t' (worldOf c g) (worldOf c' g'))
    (htag : R.tag g' t = (c'.running t).map fun call => (call.id, call.op))
    (hsafe : ∀ call, c'.running t = some call → ∀ y, R.Rely t (worldOf c' g') y → R.Inv y →
      R.Safe t N call.prog (fun r z => R.Ok false t z → V.Post t call.id call.op r z) y) :
    Kept V N c' g' := by
  refine ⟨⟨hinv, fun t' => ?_⟩, fun t' call hcall y hy hiy => ?_⟩
  · by_cases h : t' = t
    · rw [h]
      exact htag
    · have hrel : R.tag g' t' = R.tag g t' := R.tag_rely (hrely t' h)
      rw [hrel, hother t' h]
      exact hk.1.2 t'
  · by_cases h : t' = t
    · subst h
      exact hsafe call hcall y hy hiy
    · rw [hother t' h] at hcall
      exact (hk.2 t' call hcall y (R.trans (hrely t' h) hy) hiy).of_succ

/-- How the step of one thread moves the ghost state: it keeps its guarantee, and a call starts
with what is established by its invocation. -/
structure Moves (V : Verified R) (t : ℕ) (c c' : O.Config) (g g' : R.Ghost) : Prop where
  rely : ∀ t', t' ≠ t → R.Rely t' (worldOf c g) (worldOf c' g')
  own : R.Own t (worldOf c g) (worldOf c' g') ∨ worldOf c' g' = worldOf c g
  /-- Within a call, only actions change the world. -/
  acts : ∀ call call', c.running t = some call → c'.running t = some call' →
    call'.id = call.id ∧ (Object.Acts call.id c c' ∨ worldOf c' g' = worldOf c g)
  starts : ∀ call, c.running t = none → c'.running t = some call →
    V.Pre t call.id call.op (worldOf c' g')

/-- A step keeps `Kept`, for one step less. -/
lemma kept_step (V : Verified R) {N : ℕ} {c c' : O.Config} {g : R.Ghost}
    (hk : Kept V (N + 1) c g) (hs : O.Step c c') :
    ∃ t g', Kept V N c' g' ∧ Moves V t c c' g g' ∧
      ∀ t', t' ≠ t → c'.running t' = c.running t' := by
  cases hs with
  | invoke t op m idle hstart =>
    have htag : R.tag g t = none := by rw [hk.1.2 t, idle]; rfl
    obtain ⟨g', hi, hpre, ht, hr, hown⟩ := V.invoke_ok (x := worldOf c g) hk.1.1 htag hstart
    refine ⟨t, g', kept_of_step V (t := t) hk (fun t' h => by simp [h]) hi hr ?_ ?_,
      ⟨hr, .inl hown, fun call _ hcall => by simp [idle] at hcall, fun call _ hcall => ?_⟩,
      fun t' h => by simp [h]⟩
    · simpa [worldOf] using ht
    · intro call hcall y hy hiy
      simp only [Function.update_self, Option.some.injEq] at hcall
      subst hcall
      have hwp : R.wp false t (O.code op) (V.Post t c.hist.length op) y :=
        V.code_ok (V.pre_stable hy hpre)
      refine hwp ⟨hiy, fun hl => by simp at hl, ?_⟩ N
      have hty : R.tag y.ghost t = R.tag g' t := R.tag_rely hy
      rw [hty, ht]
      simp
    · simp only [Function.update_self, Option.some.injEq] at hcall
      subst hcall
      exact hpre
  | act t id op a k hrun =>
    obtain ⟨-, g', hg, hi, hn⟩ := hk.2 t _ hrun (worldOf c g) (R.refl t _) hk.1.1
    refine ⟨t, g', kept_of_step V (t := t) hk (fun t' h => by simp [h]) hi hg.rely ?_ ?_,
      ⟨hg.rely, .inl hg.own, fun call call' hcall hcall' => ?_,
        fun call hcall => by simp [hrun] at hcall⟩, fun t' h => by simp [h]⟩
    · simp only [Function.update_self, Option.map_some]
      have h1 := hk.1.2 t
      rw [hrun] at h1
      exact hg.tag.trans h1
    · intro call hcall y hy hiy
      simp only [Function.update_self, Option.some.injEq] at hcall
      subst hcall
      exact hn y hy hiy
    · obtain rfl : _ = call := by simpa [hrun] using hcall
      obtain rfl : _ = call' := by simpa using hcall'
      exact ⟨rfl, .inl ⟨t, op, _, a, k, hrun, rfl⟩⟩
  | unfold t id op body s k hrun =>
    refine ⟨t, g, kept_of_step V (t := t) hk (fun t' h => by simp [h]) hk.1.1
      (fun t' _ => R.refl t' _) ?_ ?_, ⟨fun t' _ => R.refl t' _, .inr rfl,
        fun call call' hcall hcall' => ?_, fun call hcall => by simp [hrun] at hcall⟩,
      fun t' h => by simp [h]⟩
    · have h1 := hk.1.2 t
      rw [hrun] at h1
      simpa using h1
    · intro call hcall y hy hiy
      simp only [Function.update_self, Option.some.injEq] at hcall
      subst hcall
      exact hk.2 t _ hrun y hy hiy
    · obtain rfl : _ = call := by simpa [hrun] using hcall
      obtain rfl : _ = call' := by simpa using hcall'
      exact ⟨rfl, .inr rfl⟩
  | respond t id op r hrun =>
    have htag : R.tag g t = some (id, op) := by rw [hk.1.2 t, hrun]; rfl
    have hpost : V.Post t id op r (worldOf c g) :=
      hk.2 t _ hrun (worldOf c g) (R.refl t _) hk.1.1 (hk.1.ok hrun)
    obtain ⟨g', hi, ht, hr, hown⟩ := V.respond_ok (x := worldOf c g) hk.1.1 htag hpost
    refine ⟨t, g', kept_of_step V (t := t) hk (fun t' h => by simp [h]) hi hr ?_ ?_,
      ⟨hr, .inl hown, fun _ _ _ hcall => by simp at hcall, fun call _ hcall => by simp at hcall⟩,
      fun t' h => by simp [h]⟩
    · simpa using ht
    · intro call hcall
      simp at hcall

lemma Kept.of_succ {V : Verified R} {N : ℕ} {c : O.Config} {g : R.Ghost}
    (hk : Kept V (N + 1) c g) : Kept V N c g :=
  ⟨hk.1, fun t call hcall y hy hiy => (hk.2 t call hcall y hy hiy).of_succ⟩

/-- Along a run, the threads that take no step see what they can rely on. -/
lemma kept_run (V : Verified R) {c c' : O.Config} (hg : ∀ N, ∃ g, Kept V N c g)
    (hs : Relation.ReflTransGen Object.Step c c') (N : ℕ) :
    ∃ g g', Kept V N c g ∧ Kept V N c' g' ∧
      ∃ ts : List ℕ, ∀ t, t ∉ ts → R.Rely t (worldOf c g) (worldOf c' g') := by
  -- The number of steps the programs are known to be safe for shrinks along the run.
  induction hs generalizing N with
  | refl =>
    obtain ⟨g, hk⟩ := hg N
    exact ⟨g, g, hk, hk, [], fun t _ => R.refl t _⟩
  | tail _ hstep ih =>
    obtain ⟨g, g', hk, hk', ts, hts⟩ := ih (N + 1)
    obtain ⟨t, g'', hk'', hr, -⟩ := kept_step V hk' hstep
    refine ⟨g, g'', hk.of_succ, hk'', t :: ts, fun t' ht' => ?_⟩
    obtain ⟨h1, h2⟩ := not_or.mp (mt List.mem_cons.mpr ht')
    exact R.trans (hts t' h2) (hr.rely t' h1)

lemma kept_of_reachable (V : Verified R) {m : O.Mem} {g₀ : R.Ghost}
    (h₀ : R.Inv ⟨m, [], g₀⟩) (htag : ∀ t, R.tag g₀ t = none)
    {c : O.Config} (hc : Object.Reachable m c) (N : ℕ) : ∃ g, Kept V N c g := by
  have hinit : ∀ N, ∃ g, Kept V N (Object.initial m) g := fun N =>
    ⟨g₀, ⟨h₀, fun t => by simp [htag t, Object.initial]⟩, fun t call hcall => by
      simp [Object.initial] at hcall⟩
  obtain ⟨-, g, -, hk, -⟩ := kept_run V hinit hc N
  exact ⟨g, hk⟩

/-- Every action that is about to be performed is allowed, and every call that has answered has
established what it must. -/
lemma Kept.now {V : Verified R} {c : O.Config} {g : R.Ghost} (hk : Kept V 1 c g) :
    (∀ t id op {β : Type} (a : A β) (k : β → Prog A O.Ret),
      c.running t = some ⟨id, op, .act a k⟩ → R.Allowed t a (worldOf c g)) ∧
    ∀ t id op r, c.running t = some ⟨id, op, .ret r⟩ → V.Post t id op r (worldOf c g) := by
  refine ⟨fun t id op β a k hrun => ?_, fun t id op r hrun => ?_⟩
  · exact (hk.2 t _ hrun (worldOf c g) (R.refl t _) hk.1.1).1
  · exact hk.2 t _ hrun (worldOf c g) (R.refl t _) hk.1.1 (hk.1.ok hrun)

/-- **Soundness.**  If the operations are verified and the invariant holds initially, then in
every reachable configuration some ghost state satisfies the invariant and knows which calls
are running, and every action that is about to be performed is allowed. -/
theorem sound (V : Verified R) {m : O.Mem} {g₀ : R.Ghost}
    (h₀ : R.Inv ⟨m, [], g₀⟩) (htag : ∀ t, R.tag g₀ t = none)
    {c : O.Config} (hc : Object.Reachable m c) :
    ∃ g : R.Ghost, Matches c g ∧ ∀ t id op {β : Type} (a : A β) (k : β → Prog A O.Ret),
      c.running t = some ⟨id, op, .act a k⟩ → R.Allowed t a (worldOf c g) := by
  obtain ⟨g, hg⟩ := kept_of_reachable V h₀ htag hc 1
  exact ⟨g, hg.1, hg.now.1⟩

/-- A program that answers does so within its steps, each of which keeps the guarantee. -/
lemma Answers.runFor {Q : α → World O R.Ghost → Prop} {n : ℕ} {p : Prog A α}
    {x : World O R.Ghost} (h : R.Answers t n p Q x) (hx : R.Ok true t x) :
    ∃ a y, Prog.runFor (fun {β} => O.exec t (β := β)) n p x.mem = some (a, y.mem) ∧
      Relation.ReflTransGen (R.Guar t) x y ∧ R.Ok true t y ∧ Q a y := by
  induction n generalizing α x with
  | zero =>
    cases p with
    | ret a => exact ⟨a, x, rfl, .refl, hx, h⟩
    | act a k => exact h.elim
    | loop body s k => exact h.elim
  | succ n ih =>
    cases p with
    | ret a => exact ⟨a, x, rfl, .refl, hx, h⟩
    | act a k =>
      obtain ⟨g, hg, hi, hk⟩ := h
      obtain ⟨b, y, hrun, hs, hy, hQ⟩ := ih hk (hx.step hg ⟨R.refl t _, fun _ => rfl⟩ hi)
      exact ⟨b, y, hrun, .head hg hs, hy, hQ⟩
    | loop body s k => exact ih h hx

/-- A program that runs alone answers, and meets its assertion. -/
lemma alone {Q : α → World O R.Ghost → Prop} {p : Prog A α} {x : World O R.Ghost}
    (h : R.wp true t p Q x) (hx : R.Ok true t x) :
    ∃ n a y, Prog.runFor (fun {β} => O.exec t (β := β)) n p x.mem = some (a, y.mem) ∧
      Relation.ReflTransGen (R.Guar t) x y ∧ R.Ok true t y ∧ Q a y := by
  obtain ⟨n, hn⟩ := h hx
  obtain ⟨a, y, hrun, hs, hy, hQ⟩ := hn.runFor hx
  exact ⟨n, a, y, hrun, hs, hy, hQ hy⟩

/-- **Progress.**  An operation that starts when no call is in progress, and runs alone,
answers. -/
theorem answers (V : Verified R) {c : O.Config} {g : R.Ghost} (hm : Matches c g)
    (hq : c.Quiescent) (t : ℕ) {op : O.Op} {m : O.Mem} (hstart : O.start t op c.mem m) :
    ∃ n r, Prog.runFor (fun {β} => O.exec t (β := β)) n (O.code op) m = some r := by
  have htag : ∀ t, R.tag g t = none := fun t => by rw [hm.2 t, hq t]; rfl
  obtain ⟨g', hi, hpre, ht, hr, -⟩ := V.invoke_ok (x := worldOf c g) hm.1 (htag t) hstart
  have hcalm : R.Calm true t ⟨m, c.hist ++ [.inv c.hist.length op], g'⟩ := by
    intro _ t' ht'
    have h1 : R.tag g' t' = R.tag g t' := R.tag_rely (hr t' ht')
    exact h1.trans (htag t')
  have hrun : R.tag g' t ≠ none := by
    rw [ht]
    simp
  have hwp : R.wp true t (O.code op) (V.Post t c.hist.length op) _ := V.code_ok hpre
  obtain ⟨n, a, y, hrun, -⟩ := alone hwp ⟨hi, hcalm, hrun⟩
  exact ⟨n, _, hrun⟩

end RG

end Artmap
