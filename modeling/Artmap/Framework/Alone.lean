import Artmap.Framework.Prog

/-!
# Programs alone

What a program does when no other program runs: `Prog.Alone` says what it answers and what memory
it leaves.  A program is followed by these rules, one for each of its constructors and one for
sequencing, without counting steps.
-/

namespace Artmap

namespace Prog

variable {A : Type → Type} {M α β σ : Type} {exec : {β : Type} → A β → M → β × M}
  {p : Prog A α} {m m₁ m' : M} {a : α} {b : β}

/-- The program `p`, alone from memory `m`, answers `a` and leaves `m'`. -/
def Alone (exec : {β : Type} → A β → M → β × M) (p : Prog A α) (m : M) (a : α) (m' : M) : Prop :=
  ∃ n, runFor exec n p m = some (a, m')

namespace Alone

lemma ret (a : α) (m : M) : Alone exec (ret a : Prog A α) m a m :=
  ⟨0, rfl⟩

lemma act {act : A β} {k : β → Prog A α} (h : Alone exec (k (exec act m).1) (exec act m).2 a m') :
    Alone exec (.act act k) m a m' := by
  obtain ⟨n, hn⟩ := h
  exact ⟨n + 1, hn⟩

lemma perform (act : A β) (m : M) : Alone exec (perform act) m (exec act m).1 (exec act m).2 :=
  Alone.act (.ret _ _)

lemma loop {body : σ → Prog A (σ ⊕ β)} {s : σ} {k : β → Prog A α}
    (h : Alone exec (unfold body s k) m a m') : Alone exec (.loop body s k) m a m' := by
  obtain ⟨n, hn⟩ := h
  exact ⟨n + 1, hn⟩

/-- One program after another. -/
lemma bind {p : Prog A β} {f : β → Prog A α} (hp : Alone exec p m b m₁)
    (hf : Alone exec (f b) m₁ a m') : Alone exec (p.bind f) m a m' := by
  obtain ⟨n, hn⟩ := hp
  -- By induction on the steps of the first.
  induction n generalizing p m with
  | zero =>
    cases p with
    | ret c =>
      obtain ⟨rfl, rfl⟩ : c = b ∧ m = m₁ := by simpa [runFor] using hn
      exact hf
    | act => simp [runFor] at hn
    | loop => simp [runFor] at hn
  | succ n ih =>
    cases p with
    | ret c =>
      obtain ⟨rfl, rfl⟩ : c = b ∧ m = m₁ := by simpa [runFor] using hn
      exact hf
    | act act k => exact Alone.act (ih hn)
    | loop body s k =>
      refine Alone.loop ?_
      rw [← unfold_bind]
      exact ih hn

/-- One program after another, and what is said of the answer. -/
lemma bind_of {p : Prog A β} {f : β → Prog A α} {Q : α → Prop} (hp : Alone exec p m b m₁)
    (hf : ∃ a, Alone exec (f b) m₁ a m' ∧ Q a) : ∃ a, Alone exec (p.bind f) m a m' ∧ Q a := by
  obtain ⟨a, ha, hQ⟩ := hf
  exact ⟨a, .bind hp ha, hQ⟩

/-- It answers one thing. -/
lemma unique {a' : α} (h : Alone exec p m a m') (h' : Alone exec p m a' m₁) : a = a' ∧ m' = m₁ := by
  obtain ⟨n, hn⟩ := h
  obtain ⟨n', hn'⟩ := h'
  -- By induction on the steps of the first run.
  induction n generalizing p m n' with
  | zero =>
    cases p with
    | ret c => cases n' <;> simp_all [runFor]
    | act => simp [runFor] at hn
    | loop => simp [runFor] at hn
  | succ n ih =>
    cases p with
    | ret c => cases n' <;> simp_all [runFor]
    | act act k =>
      cases n' with
      | zero => simp [runFor] at hn'
      | succ n' => exact ih hn n' hn'
    | loop body s k =>
      cases n' with
      | zero => simp [runFor] at hn'
      | succ n' => exact ih hn n' hn'

section Iter

variable {body : σ → Prog A (σ ⊕ β)} {s s' : σ}

/-- A round after which the loop goes on. -/
lemma again (hb : Alone exec (body s) m (.inl s') m₁) (h : Alone exec (iter body s') m₁ b m') :
    Alone exec (iter body s) m b m' :=
  .loop (.bind hb h)

/-- The last round. -/
lemma done (hb : Alone exec (body s) m (.inr b) m') : Alone exec (iter body s) m b m' :=
  .loop (.bind hb (.ret b m'))

end Iter

end Alone

end Prog

end Artmap
