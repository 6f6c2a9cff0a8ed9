import Artmap.Framework.Interleave
import Mathlib.Data.List.Nodup
import Mathlib.Tactic

/-!
# Linearizability, and logs with resets

`Linearization S h L` is the usual definition: `L` has the completed calls of the history `h`, and
some of the pending ones, in one order that agrees with the specification `S` and never
contradicts real time.

A proof builds that order step by step.  For an object with an operation that resets it to
its initial state, calls that are still working on the old contents when the reset takes
effect have to be ordered *before* it, after the fact.  A `Log` therefore keeps one list per
*epoch*, the stretch between two resets, and a call may be appended to the list of a past
epoch as long as it was invoked no later than the end of that epoch.  `Log.Ok` is the
invariant of such logs and `Log.Ok.linearization` its consequence.
-/

namespace Artmap

open scoped List

/-- A deterministic sequential specification. -/
structure Spec (Op Ret : Type) where
  State : Type
  init : State
  step : State → Op → State × Ret

/-- A call in a linearization: its identifier, operation and result. -/
structure Entry (Op Ret : Type) where
  id : ℕ
  op : Op
  ret : Ret

variable {Op Ret : Type}

namespace Spec

variable (S : Spec Op Ret)

/-- The state after a list of calls. -/
def after (s : S.State) (L : List (Entry Op Ret)) : S.State :=
  L.foldl (fun s a => (S.step s a.op).1) s

/-- Every call of `L` answers what the specification answers. -/
def Legal : S.State → List (Entry Op Ret) → Prop
  | _, [] => True
  | s, a :: L => (S.step s a.op).2 = a.ret ∧ Legal (S.step s a.op).1 L

@[simp] lemma after_nil (s : S.State) : S.after s [] = s := rfl

@[simp] lemma after_append (s : S.State) (L L' : List (Entry Op Ret)) :
    S.after s (L ++ L') = S.after (S.after s L) L' := by
  simp [after]

lemma legal_append (s : S.State) (L L' : List (Entry Op Ret)) :
    S.Legal s (L ++ L') ↔ S.Legal s L ∧ S.Legal (S.after s L) L' := by
  induction L generalizing s with
  | nil => simp [Legal]
  | cons a L ih =>
    simp only [List.cons_append, Legal, ih, and_assoc]
    rfl

end Spec

/-- Call `i` responded before call `j` was invoked. -/
def Before (h : List (Event Op Ret)) (i j : ℕ) : Prop :=
  ∃ r op, [.res i r, .inv j op] <+ h

/-- The calls of `L`, in this order, explain the history `h`: all that have responded, and some
that have not, answer as `S` says, in an order that agrees with real time. -/
structure Linearization (S : Spec Op Ret) (h : List (Event Op Ret)) (L : List (Entry Op Ret)) :
    Prop where
  nodup : (L.map Entry.id).Nodup
  invoked : ∀ a ∈ L, .inv a.id a.op ∈ h
  responded : ∀ i r, .res i r ∈ h → ∃ op, ⟨i, op, r⟩ ∈ L
  legal : S.Legal S.init L
  order : ∀ a ∈ L, ∀ b ∈ L, Before h a.id b.id → [a, b] <+ L

/-! ## Pairs in lists -/

lemma pair_sublist_concat {α : Type} {u v x : α} {l : List α} :
    [u, v] <+ l ++ [x] ↔ [u, v] <+ l ∨ (u ∈ l ∧ v = x) := by
  constructor
  · intro h
    obtain ⟨l₁, l₂, e, h₁, h₂⟩ := List.sublist_append_iff.mp h
    match l₁, e with
    | [], e =>
      have hlen := h₂.length_le
      simp only [List.nil_append] at e
      simp [← e] at hlen
    | [a], e =>
      simp only [List.cons_append, List.nil_append, List.cons.injEq] at e
      obtain ⟨rfl, rfl⟩ := e
      exact .inr ⟨by simpa using h₁, by simpa using h₂⟩
    | [a, b], e =>
      simp only [List.cons_append, List.nil_append, List.cons.injEq] at e
      obtain ⟨rfl, rfl, -⟩ := e
      exact .inl h₁
    | a :: b :: c :: l, e => simp at e
  · rintro (h | ⟨hu, rfl⟩)
    · exact h.trans (List.sublist_append_left _ _)
    · have hu' : [u] <+ l := by simpa using hu
      simpa using hu'.append (List.Sublist.refl [v])

lemma before_concat_inv {h : List (Event Op Ret)} {i j id : ℕ} {op : Op} :
    Before (h ++ [.inv id op]) i j ↔ Before h i j ∨ ((∃ r, .res i r ∈ h) ∧ j = id) := by
  constructor
  · rintro ⟨r, op', hs⟩
    rcases pair_sublist_concat.mp hs with hs | ⟨hm, he⟩
    · exact .inl ⟨r, op', hs⟩
    · injection he with he
      exact .inr ⟨⟨r, hm⟩, he⟩
  · rintro (⟨r, op', hs⟩ | ⟨⟨r, hm⟩, rfl⟩)
    · exact ⟨r, op', pair_sublist_concat.mpr (.inl hs)⟩
    · exact ⟨r, op, pair_sublist_concat.mpr (.inr ⟨hm, rfl⟩)⟩

lemma before_concat_res {h : List (Event Op Ret)} {i j id : ℕ} {r : Ret} :
    Before (h ++ [.res id r]) i j ↔ Before h i j := by
  constructor
  · rintro ⟨r', op', hs⟩
    rcases pair_sublist_concat.mp hs with hs | ⟨hm, he⟩
    · exact ⟨r', op', hs⟩
    · cases he
  · rintro ⟨r', op', hs⟩
    exact ⟨r', op', pair_sublist_concat.mpr (.inl hs)⟩

lemma Before.res_mem {h : List (Event Op Ret)} {i j : ℕ} (hb : Before h i j) :
    ∃ r, .res i r ∈ h := by
  obtain ⟨r, op, hs⟩ := hb
  exact ⟨r, hs.subset (by simp)⟩

lemma Before.inv_mem {h : List (Event Op Ret)} {i j : ℕ} (hb : Before h i j) :
    ∃ op, .inv j op ∈ h := by
  obtain ⟨r, op, hs⟩ := hb
  exact ⟨op, hs.subset (by simp)⟩

/-! ## Logs -/

/-- The calls ordered so far: those of epoch `e` that work on its contents, and the reset
that ended it. -/
structure Log (Op Ret : Type) where
  /-- The current epoch. -/
  cur : ℕ
  /-- The calls of an epoch. -/
  body : ℕ → List (Entry Op Ret)
  /-- The reset that ended an epoch. -/
  last : ℕ → List (Entry Op Ret)
  /-- The epoch at the invocation of a call. -/
  since : ℕ → ℕ

namespace Log

variable (l : Log Op Ret)

/-- Everything ordered in epoch `e`. -/
def chunk (e : ℕ) : List (Entry Op Ret) :=
  l.body e ++ l.last e

/-- The first `n` epochs, in order. -/
def upTo : ℕ → List (Entry Op Ret)
  | 0 => []
  | n + 1 => upTo n ++ l.chunk n

/-- `a` is ordered before `b`. -/
def Prec (a b : Entry Op Ret) : Prop :=
  (∃ e e', e < e' ∧ a ∈ l.chunk e ∧ b ∈ l.chunk e') ∨ ∃ e, [a, b] <+ l.chunk e

/-- Call `id` has been ordered. -/
def Has (id : ℕ) : Prop :=
  ∃ e, ∃ a ∈ l.chunk e, a.id = id

variable {l}

lemma mem_upTo {n : ℕ} {a : Entry Op Ret} : a ∈ l.upTo n ↔ ∃ e < n, a ∈ l.chunk e := by
  induction n with
  | zero => simp [upTo]
  | succ n ih =>
    simp only [upTo, List.mem_append, ih]
    constructor
    · rintro (⟨e, he, ha⟩ | ha)
      · exact ⟨e, by omega, ha⟩
      · exact ⟨n, by omega, ha⟩
    · rintro ⟨e, he, ha⟩
      rcases Nat.lt_succ_iff_lt_or_eq.mp he with h | rfl
      · exact .inl ⟨e, h, ha⟩
      · exact .inr ha

lemma chunk_sublist_upTo {e n : ℕ} (he : e < n) : l.chunk e <+ l.upTo n := by
  induction n with
  | zero => omega
  | succ n ih =>
    rcases Nat.lt_succ_iff_lt_or_eq.mp he with h | rfl
    · exact (ih h).trans (List.sublist_append_left _ _)
    · exact List.sublist_append_right _ _

lemma pair_sublist_upTo {e e' n : ℕ} {a b : Entry Op Ret} (h : e < e') (hn : e' < n)
    (ha : a ∈ l.chunk e) (hb : b ∈ l.chunk e') : [a, b] <+ l.upTo n := by
  induction n with
  | zero => omega
  | succ n ih =>
    rcases Nat.lt_succ_iff_lt_or_eq.mp hn with h' | rfl
    · exact (ih h').trans (List.sublist_append_left _ _)
    · have ha' : [a] <+ l.upTo e' := by simpa using mem_upTo.mpr ⟨e, h, ha⟩
      have hb' : [b] <+ l.chunk e' := by simpa using hb
      simpa [upTo] using ha'.append hb'

/-- The invariant of logs, for a history `h` of calls below `N`; `state e` is the state that the
calls of epoch `e` lead to. -/
structure Ok (S : Spec Op Ret) (N : ℕ) (h : List (Event Op Ret)) (state : ℕ → S.State)
    (l : Log Op Ret) : Prop where
  inv_lt : ∀ i op, .inv i op ∈ h → i < N
  res_lt : ∀ i r, .res i r ∈ h → i < N
  /-- Nothing is ordered in the future. -/
  future : ∀ e, l.cur < e → l.chunk e = []
  open_last : l.last l.cur = []
  /-- No call is ordered twice. -/
  nodup : ∀ e, ((l.chunk e).map Entry.id).Nodup
  disjoint : ∀ e e' a a', e ≠ e' → a ∈ l.chunk e → a' ∈ l.chunk e' → a.id ≠ a'.id
  invoked : ∀ e, ∀ a ∈ l.chunk e, .inv a.id a.op ∈ h
  responded : ∀ i r, .res i r ∈ h → ∃ e op, ⟨i, op, r⟩ ∈ l.chunk e
  legal : ∀ e, S.Legal S.init (l.body e)
  state_eq : ∀ e, S.after S.init (l.body e) = state e
  /-- An epoch ends with a reset. -/
  reset : ∀ e, e < l.cur → ∃ a, l.last e = [a] ∧ ∀ s, S.step s a.op = (S.init, a.ret)
  order : ∀ e e' a b, a ∈ l.chunk e → b ∈ l.chunk e' → Before h a.id b.id → l.Prec a b
  since_le : ∀ i op, .inv i op ∈ h → l.since i ≤ l.cur
  /-- A call that responded before another was invoked is ordered in an earlier epoch, or in
  the one at that invocation. -/
  since_body : ∀ e, ∀ a ∈ l.body e, ∀ j, Before h a.id j → e ≤ l.since j
  since_last : ∀ e, ∀ a ∈ l.last e, ∀ j, Before h a.id j → e < l.since j

namespace Ok

variable {S : Spec Op Ret} {N : ℕ} {h : List (Event Op Ret)} {state : ℕ → S.State}

lemma cur_of_mem (hl : l.Ok S N h state) {e : ℕ} {a : Entry Op Ret} (ha : a ∈ l.chunk e) :
    e ≤ l.cur := by
  by_contra hlt
  rw [hl.future e (by omega)] at ha
  simp at ha

lemma upTo_legal (hl : l.Ok S N h state) {n : ℕ} (hn : n ≤ l.cur) :
    S.Legal S.init (l.upTo n) ∧ S.after S.init (l.upTo n) = S.init := by
  induction n with
  | zero => exact ⟨trivial, rfl⟩
  | succ n ih =>
    obtain ⟨h1, h2⟩ := ih (by omega)
    obtain ⟨a, ha, hstep⟩ := hl.reset n (by omega)
    simp only [upTo, chunk, ha, S.legal_append, S.after_append, h2]
    refine ⟨⟨h1, hl.legal n, ?_, trivial⟩, ?_⟩
    · rw [hstep]
    · simp [Spec.after, hstep]

lemma upTo_nodup (hl : l.Ok S N h state) (n : ℕ) : ((l.upTo n).map Entry.id).Nodup := by
  induction n with
  | zero => simp [upTo]
  | succ n ih =>
    simp only [upTo, List.map_append]
    refine List.nodup_append.mpr ⟨ih, hl.nodup n, ?_⟩
    intro i hi j hj hij
    obtain ⟨a, ha, rfl⟩ := List.mem_map.mp hi
    obtain ⟨b, hb, rfl⟩ := List.mem_map.mp hj
    obtain ⟨e, he, ha⟩ := mem_upTo.mp ha
    exact hl.disjoint e n a b (by omega) ha hb hij

/-- A log orders the calls of its history. -/
theorem linearization (hl : l.Ok S N h state) : Linearization S h (l.upTo (l.cur + 1)) where
  nodup := hl.upTo_nodup _
  invoked a ha := by
    obtain ⟨e, -, ha⟩ := mem_upTo.mp ha
    exact hl.invoked e a ha
  responded i r hr := by
    obtain ⟨e, op, ha⟩ := hl.responded i r hr
    exact ⟨op, mem_upTo.mpr ⟨e, by have := hl.cur_of_mem ha; omega, ha⟩⟩
  legal := by
    obtain ⟨h1, h2⟩ := hl.upTo_legal le_rfl
    simp only [upTo, chunk, hl.open_last, List.append_nil, S.legal_append, h2]
    exact ⟨h1, hl.legal _⟩
  order a ha b hb hab := by
    obtain ⟨e, he, ha⟩ := mem_upTo.mp ha
    obtain ⟨e', he', hb⟩ := mem_upTo.mp hb
    rcases hl.order e e' a b ha hb hab with ⟨f, f', hf, ha', hb'⟩ | ⟨f, hs⟩
    · have := hl.cur_of_mem hb'
      exact pair_sublist_upTo hf (by omega) ha' hb'
    · have hf : f ≤ l.cur := hl.cur_of_mem (hs.subset (by simp : a ∈ [a, b]))
      exact hs.trans (chunk_sublist_upTo (by omega))

/-- The calls of a log lead to the state of its current epoch. -/
lemma after_upTo (hl : l.Ok S N h state) :
    S.after S.init (l.upTo (l.cur + 1)) = state l.cur := by
  simp only [upTo, chunk, hl.open_last, List.append_nil, S.after_append,
    (hl.upTo_legal le_rfl).2]
  exact hl.state_eq l.cur

/-! ### What a run does to a log -/

lemma mono (hl : l.Ok S N h state) {N' : ℕ} (hN : N ≤ N') : l.Ok S N' h state :=
  { hl with
    inv_lt := fun i op hi => (hl.inv_lt i op hi).trans_le hN
    res_lt := fun i r hi => (hl.res_lt i r hi).trans_le hN }

/-- A call is invoked. -/
lemma invoke (hl : l.Ok S N h state) (op : Op) :
    Log.Ok S (N + 1) (h ++ [.inv N op]) state
      { l with since := Function.update l.since N l.cur } := by
  have hold : ∀ {e a}, a ∈ l.chunk e → a.id ≠ N := fun {e a} ha =>
    Nat.ne_of_lt (hl.inv_lt _ _ (hl.invoked e a ha))
  have hres : ∀ {i r}, .res i r ∈ h ++ [.inv N op] → .res i r ∈ h := by
    intro i r hm
    simpa using hm
  refine
    { inv_lt := ?_, res_lt := ?_, future := hl.future, open_last := hl.open_last,
      nodup := hl.nodup, disjoint := hl.disjoint, invoked := ?_, responded := ?_,
      legal := hl.legal, state_eq := hl.state_eq, reset := hl.reset, order := ?_,
      since_le := ?_, since_body := ?_, since_last := ?_ }
  · intro i op' hm
    simp only [List.mem_append, List.mem_singleton, Event.inv.injEq] at hm
    rcases hm with hm | ⟨rfl, -⟩
    · have := hl.inv_lt _ _ hm
      omega
    · omega
  · intro i r hm
    have := hl.res_lt _ _ (hres hm)
    omega
  · intro e a ha
    exact List.mem_append_left _ (hl.invoked e a ha)
  · intro i r hm
    exact hl.responded i r (hres hm)
  · intro e e' a b ha hb hab
    rcases before_concat_inv.mp hab with hab | ⟨-, hb'⟩
    · exact hl.order e e' a b ha hb hab
    · exact absurd hb' (hold hb)
  · intro i op' hm
    simp only [List.mem_append, List.mem_singleton, Event.inv.injEq] at hm
    by_cases hi : i = N
    · simp [hi]
    · simp only [Function.update_of_ne hi]
      rcases hm with hm | ⟨rfl, -⟩
      · exact hl.since_le i op' hm
      · exact absurd rfl hi
  · intro e a ha j hj
    rcases before_concat_inv.mp hj with hj | ⟨-, rfl⟩
    · obtain ⟨op', hop⟩ := hj.inv_mem
      simp only [Function.update_of_ne (Nat.ne_of_lt (hl.inv_lt _ _ hop))]
      exact hl.since_body e a ha j hj
    · simpa using hl.cur_of_mem (List.mem_append_left _ ha)
  · intro e a ha j hj
    rcases before_concat_inv.mp hj with hj | ⟨-, rfl⟩
    · obtain ⟨op', hop⟩ := hj.inv_mem
      simp only [Function.update_of_ne (Nat.ne_of_lt (hl.inv_lt _ _ hop))]
      exact hl.since_last e a ha j hj
    · have hle := hl.cur_of_mem (List.mem_append_right (l.body e) ha)
      have hne : e ≠ l.cur := by
        rintro rfl
        rw [hl.open_last] at ha
        simp at ha
      simp only [Function.update_self]
      omega

/-- A call responds with the result it was ordered with. -/
lemma respond (hl : l.Ok S N h state) {e id : ℕ} {op : Op} {r : Ret}
    (ha : ⟨id, op, r⟩ ∈ l.chunk e) : l.Ok S N (h ++ [.res id r]) state := by
  have hinv : ∀ {i op'}, .inv i op' ∈ h ++ [.res id r] → .inv i op' ∈ h := by
    intro i op' hm
    simpa using hm
  refine
    { inv_lt := ?_, res_lt := ?_, future := hl.future, open_last := hl.open_last,
      nodup := hl.nodup, disjoint := hl.disjoint, invoked := ?_, responded := ?_,
      legal := hl.legal, state_eq := hl.state_eq, reset := hl.reset, order := ?_,
      since_le := fun i op' hm => hl.since_le i op' (hinv hm), since_body := ?_,
      since_last := ?_ }
  · exact fun i op' hm => hl.inv_lt i op' (hinv hm)
  · intro i r' hm
    simp only [List.mem_append, List.mem_singleton, Event.res.injEq] at hm
    rcases hm with hm | ⟨rfl, -⟩
    · exact hl.res_lt _ _ hm
    · exact hl.inv_lt _ _ (hl.invoked e _ ha)
  · intro e a ha
    exact List.mem_append_left _ (hl.invoked e a ha)
  · intro i r' hm
    simp only [List.mem_append, List.mem_singleton, Event.res.injEq] at hm
    rcases hm with hm | ⟨rfl, rfl⟩
    · exact hl.responded i r' hm
    · exact ⟨e, op, ha⟩
  · intro f f' a b hfa hfb hab
    exact hl.order f f' a b hfa hfb (before_concat_res.mp hab)
  · intro f a hfa j hj
    exact hl.since_body f a hfa j (before_concat_res.mp hj)
  · intro f a hfa j hj
    exact hl.since_last f a hfa j (before_concat_res.mp hj)

/-- A call takes effect in epoch `e`, no earlier than the one it was invoked in. -/
lemma commit (hl : l.Ok S N h state) {e : ℕ} {a : Entry Op Ret} (he : e ≤ l.cur)
    (hsince : l.since a.id ≤ e) (hinv : .inv a.id a.op ∈ h) (hnew : ¬ l.Has a.id)
    (hpend : ∀ r, .res a.id r ∉ h) (hret : (S.step (state e) a.op).2 = a.ret) :
    Log.Ok S N h (Function.update state e (S.step (state e) a.op).1)
      { l with body := Function.update l.body e (l.body e ++ [a]) } := by
  set l' : Log Op Ret := { l with body := Function.update l.body e (l.body e ++ [a]) } with hl'
  have hbody : ∀ {f b}, b ∈ l'.body f → b ∈ l.body f ∨ (f = e ∧ b = a) := by
    intro f b hb
    by_cases hf : f = e
    · subst hf
      simpa [hl'] using hb
    · exact .inl (by simpa [hl', hf] using hb)
  have hmem : ∀ {f b}, b ∈ l'.chunk f → b ∈ l.chunk f ∨ (f = e ∧ b = a) := by
    intro f b hb
    rcases List.mem_append.mp hb with hb | hb
    · exact (hbody hb).imp_left (List.mem_append_left _)
    · exact .inl (List.mem_append_right _ hb)
  have hsub : ∀ f, l.chunk f <+ l'.chunk f := by
    intro f
    by_cases hf : f = e
    · subst hf
      simp [hl', chunk]
    · simp [hl', chunk, hf]
  have hprec : ∀ {x y}, l.Prec x y → l'.Prec x y := by
    rintro x y (⟨f, f', hff, hx, hy⟩ | ⟨f, hs⟩)
    · exact .inl ⟨f, f', hff, (hsub f).subset hx, (hsub f').subset hy⟩
    · exact .inr ⟨f, hs.trans (hsub f)⟩
  have hae : a ∈ l'.body e := by simp [hl']
  have hnb : ∀ {f b}, b ∈ l.chunk f → b.id ≠ a.id := fun {f b} hb hba => hnew ⟨f, b, hb, hba⟩
  refine
    { inv_lt := hl.inv_lt, res_lt := hl.res_lt, future := ?_, open_last := hl.open_last,
      nodup := ?_, disjoint := ?_, invoked := ?_, responded := ?_, legal := ?_,
      state_eq := ?_, reset := hl.reset, order := ?_, since_le := hl.since_le,
      since_body := ?_, since_last := hl.since_last }
  · intro f hf
    have hfe : f ≠ e := by
      simp only [hl'] at hf
      omega
    simpa [hl', chunk, hfe] using hl.future f hf
  · intro f
    by_cases hf : f = e
    · subst hf
      have hperm : (l'.chunk f).Perm (a :: l.chunk f) := by
        simp only [hl', chunk, Function.update_self, List.append_assoc, List.singleton_append]
        exact List.perm_middle
      refine (hperm.map Entry.id).nodup_iff.mpr ?_
      simp only [List.map_cons, List.nodup_cons, List.mem_map, not_exists, not_and]
      exact ⟨fun b hb => hnb hb, hl.nodup f⟩
    · simpa [hl', chunk, hf] using hl.nodup f
  · intro f f' x y hff hx hy
    rcases hmem hx with hx' | ⟨hf, hxa⟩ <;> rcases hmem hy with hy' | ⟨hf', hya⟩
    · exact hl.disjoint f f' x y hff hx' hy'
    · rw [hya]
      exact hnb hx'
    · rw [hxa]
      exact (hnb hy').symm
    · exact absurd (hf.trans hf'.symm) hff
  · intro f b hb
    rcases hmem hb with hb | ⟨-, rfl⟩
    · exact hl.invoked f b hb
    · exact hinv
  · intro i r hr
    obtain ⟨f, op, hf⟩ := hl.responded i r hr
    exact ⟨f, op, (hsub f).subset hf⟩
  · intro f
    by_cases hf : f = e
    · subst hf
      simp only [hl', Function.update_self, S.legal_append]
      exact ⟨hl.legal f, by rw [hl.state_eq]; exact ⟨hret, trivial⟩⟩
    · simpa [hl', hf] using hl.legal f
  · intro f
    by_cases hf : f = e
    · subst hf
      simp only [hl', Function.update_self, S.after_append, hl.state_eq]
      rfl
    · simpa [hl', hf] using hl.state_eq f
  · intro f f' x y hx hy hxy
    rcases hmem hx with hx' | ⟨hf, hxa⟩
    · rcases hmem hy with hy' | ⟨hf', hya⟩
      · exact hprec (hl.order f f' x y hx' hy' hxy)
      · -- `y` is the new entry: `x` is in an earlier epoch, or earlier in this one.
        rw [hya] at hxy ⊢
        rcases List.mem_append.mp hx' with hxb | hxl
        · have hle : f ≤ e := (hl.since_body f x hxb _ hxy).trans hsince
          rcases Nat.lt_or_eq_of_le hle with hlt | heq
          · exact .inl ⟨f, e, hlt, (hsub f).subset hx', List.mem_append_left _ hae⟩
          · refine .inr ⟨e, ?_⟩
            rw [heq] at hxb
            have hpair : [x, a] <+ l'.body e := by
              simp only [hl', Function.update_self]
              exact pair_sublist_concat.mpr (.inr ⟨hxb, rfl⟩)
            exact hpair.trans (List.sublist_append_left _ _)
        · have hlt : f < e := lt_of_lt_of_le (hl.since_last f x hxl _ hxy) hsince
          exact .inl ⟨f, e, hlt, (hsub f).subset hx', List.mem_append_left _ hae⟩
    · rw [hxa] at hxy
      obtain ⟨r, hr⟩ := hxy.res_mem
      exact absurd hr (hpend r)
  · intro f b hb j hj
    rcases hbody hb with hb | ⟨-, rfl⟩
    · exact hl.since_body f b hb j hj
    · obtain ⟨r, hr⟩ := hj.res_mem
      exact absurd hr (hpend r)

/-- A call resets the object and opens a new epoch. -/
lemma resets (hl : l.Ok S N h state) {a : Entry Op Ret} (hinv : .inv a.id a.op ∈ h)
    (hnew : ¬ l.Has a.id) (hpend : ∀ r, .res a.id r ∉ h)
    (hret : ∀ s, S.step s a.op = (S.init, a.ret)) :
    Log.Ok S N h state
      { l with last := Function.update l.last l.cur [a], cur := l.cur + 1 } := by
  set l' : Log Op Ret :=
    { l with last := Function.update l.last l.cur [a], cur := l.cur + 1 } with hl'
  have hlast : ∀ {f b}, b ∈ l'.last f → b ∈ l.last f ∨ (f = l.cur ∧ b = a) := by
    intro f b hb
    by_cases hf : f = l.cur
    · subst hf
      exact .inr ⟨rfl, by simpa [hl'] using hb⟩
    · exact .inl (by simpa [hl', hf] using hb)
  have hmem : ∀ {f b}, b ∈ l'.chunk f → b ∈ l.chunk f ∨ (f = l.cur ∧ b = a) := by
    intro f b hb
    rcases List.mem_append.mp hb with hb | hb
    · exact .inl (List.mem_append_left _ hb)
    · exact (hlast hb).imp_left (List.mem_append_right _)
  have hsub : ∀ f, l.chunk f <+ l'.chunk f := by
    intro f
    by_cases hf : f = l.cur
    · subst hf
      simp [hl', chunk, hl.open_last]
    · simp [hl', chunk, hf]
  have hprec : ∀ {x y}, l.Prec x y → l'.Prec x y := by
    rintro x y (⟨f, f', hff, hx, hy⟩ | ⟨f, hs⟩)
    · exact .inl ⟨f, f', hff, (hsub f).subset hx, (hsub f').subset hy⟩
    · exact .inr ⟨f, hs.trans (hsub f)⟩
  have hac : a ∈ l'.chunk l.cur := by simp [hl', chunk]
  have hnb : ∀ {f b}, b ∈ l.chunk f → b.id ≠ a.id := fun {f b} hb hba => hnew ⟨f, b, hb, hba⟩
  have hnext : l.chunk (l.cur + 1) = [] := hl.future _ (by omega)
  refine
    { inv_lt := hl.inv_lt, res_lt := hl.res_lt, future := ?_, open_last := ?_,
      nodup := ?_, disjoint := ?_, invoked := ?_, responded := ?_, legal := hl.legal,
      state_eq := hl.state_eq, reset := ?_, order := ?_,
      since_le := fun i op hm => (hl.since_le i op hm).trans (Nat.le_succ _),
      since_body := hl.since_body, since_last := ?_ }
  · intro f hf
    simp only [hl'] at hf
    have hfc : f ≠ l.cur := by omega
    simpa [hl', chunk, hfc] using hl.future f (by omega)
  · have hlast1 : l.last (l.cur + 1) = [] := (List.append_eq_nil_iff.mp hnext).2
    simpa [hl'] using hlast1
  · intro f
    by_cases hf : f = l.cur
    · subst hf
      have hc : l'.chunk l.cur = l.chunk l.cur ++ [a] := by simp [hl', chunk, hl.open_last]
      rw [hc, List.map_append, List.nodup_append]
      refine ⟨hl.nodup _, by simp, ?_⟩
      intro i hi j hj
      obtain ⟨b, hb, rfl⟩ := List.mem_map.mp hi
      simp only [List.map_cons, List.map_nil, List.mem_singleton] at hj
      rw [hj]
      exact hnb hb
    · simpa [hl', chunk, hf] using hl.nodup f
  · intro f f' x y hff hx hy
    rcases hmem hx with hx' | ⟨hf, hxa⟩ <;> rcases hmem hy with hy' | ⟨hf', hya⟩
    · exact hl.disjoint f f' x y hff hx' hy'
    · rw [hya]
      exact hnb hx'
    · rw [hxa]
      exact (hnb hy').symm
    · exact absurd (hf.trans hf'.symm) hff
  · intro f b hb
    rcases hmem hb with hb | ⟨-, rfl⟩
    · exact hl.invoked f b hb
    · exact hinv
  · intro i r hr
    obtain ⟨f, op, hf⟩ := hl.responded i r hr
    exact ⟨f, op, (hsub f).subset hf⟩
  · intro f hf
    by_cases hfc : f = l.cur
    · subst hfc
      exact ⟨a, by simp [hl'], hret⟩
    · simp only [hl'] at hf
      simpa [hl', hfc] using hl.reset f (by omega)
  · intro f f' x y hx hy hxy
    rcases hmem hx with hx' | ⟨hf, hxa⟩
    · rcases hmem hy with hy' | ⟨hf', hya⟩
      · exact hprec (hl.order f f' x y hx' hy' hxy)
      · rw [hya]
        rcases Nat.lt_or_eq_of_le (hl.cur_of_mem hx') with hlt | heq
        · exact .inl ⟨f, l.cur, hlt, (hsub f).subset hx', hac⟩
        · refine .inr ⟨l.cur, ?_⟩
          rw [heq] at hx'
          have hc : l'.chunk l.cur = l.chunk l.cur ++ [a] := by simp [hl', chunk, hl.open_last]
          rw [hc]
          exact pair_sublist_concat.mpr (.inr ⟨hx', rfl⟩)
    · rw [hxa] at hxy
      obtain ⟨r, hr⟩ := hxy.res_mem
      exact absurd hr (hpend r)
  · intro f b hb j hj
    rcases hlast hb with hb | ⟨-, rfl⟩
    · exact hl.since_last f b hb j hj
    · obtain ⟨r, hr⟩ := hj.res_mem
      exact absurd hr (hpend r)

end Ok

end Log

end Artmap
