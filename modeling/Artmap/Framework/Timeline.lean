import Artmap.Framework.Linearize

/-!
# Linearizability of calls that find their place afterwards

A call that takes no latch and changes nothing may answer from a state that is no longer the
present one: it has to be ordered before changes that were made while it ran, and which changes
these are is known only when it answers.  A `Timeline` keeps, for every state the object has
been in, the call that led to it and the calls that saw it.  A call may be placed at any state
since its invocation, in hindsight (`Timeline.Ok.place`); a new state begins with
`Timeline.Ok.tick`.

The specification is a relation, a `Behaviour`: what an operation may answer in a state, and
the state it then leaves.
-/

namespace Artmap

open scoped List

/-- A sequential specification: what an operation may answer, and what it leaves. -/
structure Behaviour (Op Ret : Type) where
  State : Type
  init : State
  step : State → Op → Ret → State → Prop

variable {Op Ret : Type}

namespace Behaviour

variable (S : Behaviour Op Ret)

/-- The calls of a list, made one after the other, lead from one state to another. -/
inductive Runs : S.State → List (Entry Op Ret) → S.State → Prop where
  | nil (s : S.State) : Runs s [] s
  | cons {s s' s'' : S.State} {a : Entry Op Ret} {L : List (Entry Op Ret)}
      (h : S.step s a.op a.ret s') (rest : Runs s' L s'') : Runs s (a :: L) s''

variable {S}

lemma Runs.append {s s' s'' : S.State} {L L' : List (Entry Op Ret)} (h : S.Runs s L s')
    (h' : S.Runs s' L' s'') : S.Runs s (L ++ L') s'' := by
  induction h with
  | nil s => exact h'
  | cons hstep _ ih => exact .cons hstep (ih h')

lemma Runs.concat {s s' s'' : S.State} {L : List (Entry Op Ret)} {a : Entry Op Ret}
    (h : S.Runs s L s') (ha : S.step s' a.op a.ret s'') : S.Runs s (L ++ [a]) s'' :=
  h.append (.cons ha (.nil s''))

variable (S)

/-- The calls of `L`, in this order, explain the history `h`: all that have responded, and some
that have not, behave as `S` says, in an order that agrees with real time. -/
structure Explains (h : List (Event Op Ret)) (L : List (Entry Op Ret)) : Prop where
  nodup : (L.map Entry.id).Nodup
  invoked : ∀ a ∈ L, .inv a.id a.op ∈ h
  responded : ∀ i r, .res i r ∈ h → ∃ op, ⟨i, op, r⟩ ∈ L
  legal : ∃ s, S.Runs S.init L s
  order : ∀ a ∈ L, ∀ b ∈ L, Before h a.id b.id → [a, b] <+ L

/-- The history `h` is linearizable with respect to `S`. -/
def Linearizable (h : List (Event Op Ret)) : Prop :=
  ∃ L, S.Explains h L

end Behaviour

/-! ## Timelines -/

/-- The states an object has been in, by number.  `group i` are the call that led to state `i`
and the calls that saw it. -/
structure Timeline (Op Ret : Type) where
  /-- The present state. -/
  now : ℕ
  group : ℕ → List (Entry Op Ret)
  /-- The state at the invocation of a call. -/
  since : ℕ → ℕ

namespace Timeline

variable (T : Timeline Op Ret)

/-- The calls of the first `n` states, in order. -/
def upTo (n : ℕ) : List (Entry Op Ret) :=
  (List.range n).flatMap T.group

/-- Call `id` has been placed. -/
def Has (id : ℕ) : Prop :=
  ∃ i, ∃ a ∈ T.group i, a.id = id

/-- A further call sees state `i`. -/
def place (i : ℕ) (a : Entry Op Ret) : Timeline Op Ret :=
  { T with group := Function.update T.group i (T.group i ++ [a]) }

/-- A new state begins. -/
def tick : Timeline Op Ret :=
  { T with now := T.now + 1 }

variable {T} {n i j : ℕ} {a b : Entry Op Ret}

lemma upTo_succ : T.upTo (n + 1) = T.upTo n ++ T.group n := by
  simp [upTo, List.range_succ]

lemma mem_upTo : a ∈ T.upTo n ↔ ∃ i < n, a ∈ T.group i := by
  simp [upTo]

lemma group_sublist_upTo (h : i < n) : T.group i <+ T.upTo n := by
  induction n with
  | zero => omega
  | succ n ih =>
    rw [upTo_succ]
    rcases Nat.lt_succ_iff_lt_or_eq.mp h with h | rfl
    · exact (ih h).trans (List.sublist_append_left _ _)
    · exact List.sublist_append_right _ _

lemma pair_sublist_upTo (hij : i < j) (hj : j < n) (ha : a ∈ T.group i) (hb : b ∈ T.group j) :
    [a, b] <+ T.upTo n := by
  induction n with
  | zero => omega
  | succ n ih =>
    rw [upTo_succ]
    rcases Nat.lt_succ_iff_lt_or_eq.mp hj with h | rfl
    · exact (ih h).trans (List.sublist_append_left _ _)
    · have ha' : [a] <+ T.upTo j := by simpa using mem_upTo.mpr ⟨i, hij, ha⟩
      have hb' : [b] <+ T.group j := by simpa using hb
      simpa using ha'.append hb'

lemma mem_place : b ∈ (T.place i a).group j ↔ b ∈ T.group j ∨ j = i ∧ b = a := by
  unfold place
  by_cases hj : j = i
  · subst hj
    simp
  · simp [hj]

lemma group_sublist_place : T.group j <+ (T.place i a).group j := by
  unfold place
  by_cases hj : j = i
  · subst hj
    simp
  · simp [hj]

lemma upTo_place_of_le (h : n ≤ i) : (T.place i a).upTo n = T.upTo n := by
  refine List.flatMap_congr fun j hj => ?_
  have hne : j ≠ i := by
    have := List.mem_range.mp hj
    omega
  simp [place, hne]

lemma upTo_place (h : i < n) : (T.place i a).upTo n ~ a :: T.upTo n := by
  induction n with
  | zero => omega
  | succ n ih =>
    rw [upTo_succ, upTo_succ]
    rcases Nat.lt_succ_iff_lt_or_eq.mp h with h | rfl
    · have hg : (T.place i a).group n = T.group n :=
        Function.update_of_ne (Nat.ne_of_gt h) _ _
      rw [hg]
      exact (ih h).append_right _
    · rw [upTo_place_of_le le_rfl]
      simp only [place, Function.update_self]
      rw [← List.append_assoc]
      exact List.perm_append_singleton _ _

/-- The invariant of timelines, for a history `h`; `state i` is the state of number `i`. -/
structure Ok (S : Behaviour Op Ret) (h : List (Event Op Ret)) (state : ℕ → S.State)
    (T : Timeline Op Ret) : Prop where
  inv_lt : ∀ i op, .inv i op ∈ h → i < h.length
  res_inv : ∀ i r, .res i r ∈ h → ∃ op, .inv i op ∈ h
  /-- Nothing is placed in the future. -/
  future : ∀ i, T.now < i → T.group i = []
  nodup : ((T.upTo (T.now + 1)).map Entry.id).Nodup
  invoked : ∀ i, ∀ a ∈ T.group i, .inv a.id a.op ∈ h
  responded : ∀ i r, .res i r ∈ h → ∃ e op, ⟨i, op, r⟩ ∈ T.group e
  first : S.Runs S.init (T.group 0) (state 0)
  next : ∀ i < T.now, S.Runs (state i) (T.group (i + 1)) (state (i + 1))
  order : ∀ i j a b, a ∈ T.group i → b ∈ T.group j → Before h a.id b.id →
    i < j ∨ i = j ∧ [a, b] <+ T.group i
  since_le : ∀ i op, .inv i op ∈ h → T.since i ≤ T.now
  /-- What responded before a call was invoked is placed no later than that. -/
  since_group : ∀ i, ∀ a ∈ T.group i, ∀ j, Before h a.id j → i ≤ T.since j

namespace Ok

variable {S : Behaviour Op Ret} {h : List (Event Op Ret)} {state : ℕ → S.State}

lemma le_now (hT : T.Ok S h state) (ha : a ∈ T.group i) : i ≤ T.now := by
  by_contra hlt
  rw [hT.future i (by omega)] at ha
  simp at ha

lemma runs (hT : T.Ok S h state) (hn : n ≤ T.now) :
    S.Runs S.init (T.upTo (n + 1)) (state n) := by
  induction n with
  | zero => simpa [upTo] using hT.first
  | succ n ih =>
    rw [upTo_succ]
    exact (ih (by omega)).append (hT.next n (by omega))

/-- The calls of a timeline explain its history. -/
theorem explains (hT : T.Ok S h state) : S.Explains h (T.upTo (T.now + 1)) where
  nodup := hT.nodup
  invoked a ha := by
    obtain ⟨i, -, ha⟩ := mem_upTo.mp ha
    exact hT.invoked i a ha
  responded i r hr := by
    obtain ⟨e, op, ha⟩ := hT.responded i r hr
    exact ⟨op, mem_upTo.mpr ⟨e, Nat.lt_succ_of_le (hT.le_now ha), ha⟩⟩
  legal := ⟨_, hT.runs le_rfl⟩
  order a ha b hb hab := by
    obtain ⟨i, hi, ha⟩ := mem_upTo.mp ha
    obtain ⟨j, hj, hb⟩ := mem_upTo.mp hb
    rcases hT.order i j a b ha hb hab with hij | ⟨rfl, hs⟩
    · exact pair_sublist_upTo hij hj ha hb
    · exact hs.trans (group_sublist_upTo hi)

lemma linearizable (hT : T.Ok S h state) : S.Linearizable h :=
  ⟨_, hT.explains⟩

/-- The empty timeline. -/
lemma empty {state : ℕ → S.State} (h0 : state 0 = S.init) :
    (⟨0, fun _ => [], fun _ => 0⟩ : Timeline Op Ret).Ok S [] state where
  inv_lt i op hi := by simp at hi
  res_inv i r hr := by simp at hr
  future i _ := rfl
  nodup := by simp [upTo]
  invoked i a ha := by simp at ha
  responded i r hr := by simp at hr
  first := h0 ▸ .nil _
  next i hi := absurd hi (Nat.not_lt_zero i)
  order i j a b ha := by simp at ha
  since_le i op hi := by simp at hi
  since_group i a ha := by simp at ha

/-! ### What a run does to a timeline -/

/-- A call is invoked. -/
lemma invoke (hT : T.Ok S h state) (op : Op) :
    Ok S (h ++ [.inv h.length op]) state
      { T with since := Function.update T.since h.length T.now } := by
  have hold : ∀ {i a}, a ∈ T.group i → a.id ≠ h.length := fun {i a} ha =>
    Nat.ne_of_lt (hT.inv_lt _ _ (hT.invoked i a ha))
  have hinv : ∀ {i op'}, .inv i op' ∈ h ++ [.inv h.length op] →
      .inv i op' ∈ h ∨ i = h.length := by
    intro i op' hm
    simp only [List.mem_append, List.mem_singleton, Event.inv.injEq] at hm
    exact hm.imp_right And.left
  have hres : ∀ {i r}, .res i r ∈ h ++ [.inv h.length op] → .res i r ∈ h := by
    intro i r hm
    simpa using hm
  refine
    { inv_lt := fun i op' hm => ?_, res_inv := fun i r hm => ?_, future := hT.future,
      nodup := hT.nodup, invoked := fun i a ha => List.mem_append_left _ (hT.invoked i a ha),
      responded := fun i r hm => hT.responded i r (hres hm), first := hT.first,
      next := hT.next, order := fun i j a b ha hb hab => ?_, since_le := fun i op' hm => ?_,
      since_group := fun i a ha j hj => ?_ }
  · rw [List.length_append, List.length_singleton]
    rcases hinv hm with hm | rfl
    · exact (hT.inv_lt i op' hm).trans (Nat.lt_succ_self _)
    · exact Nat.lt_succ_self _
  · obtain ⟨op', hop⟩ := hT.res_inv i r (hres hm)
    exact ⟨op', List.mem_append_left _ hop⟩
  · rcases before_concat_inv.mp hab with hab | ⟨-, hb'⟩
    · exact hT.order i j a b ha hb hab
    · exact absurd hb' (hold hb)
  · by_cases hi : i = h.length
    · simp [hi]
    · simp only [Function.update_of_ne hi]
      exact (hinv hm).elim (hT.since_le i op') fun h => absurd h hi
  · rcases before_concat_inv.mp hj with hj | ⟨-, rfl⟩
    · obtain ⟨op', hop⟩ := hj.inv_mem
      simp only [Function.update_of_ne (Nat.ne_of_lt (hT.inv_lt _ _ hop))]
      exact hT.since_group i a ha j hj
    · simpa using hT.le_now ha

/-- A call responds with the result it was placed with. -/
lemma respond (hT : T.Ok S h state) {e id : ℕ} {op : Op} {r : Ret}
    (ha : ⟨id, op, r⟩ ∈ T.group e) : T.Ok S (h ++ [.res id r]) state := by
  have hinv : ∀ {i op'}, .inv i op' ∈ h ++ [.res id r] → .inv i op' ∈ h := by
    intro i op' hm
    simpa using hm
  have hres : ∀ {i r'}, .res i r' ∈ h ++ [.res id r] → .res i r' ∈ h ∨ i = id ∧ r' = r := by
    intro i r' hm
    simpa using hm
  refine
    { inv_lt := fun i op' hm => ?_, res_inv := fun i r' hm => ?_, future := hT.future,
      nodup := hT.nodup, invoked := fun i a ha => List.mem_append_left _ (hT.invoked i a ha),
      responded := fun i r' hm => ?_, first := hT.first, next := hT.next,
      order := fun i j a b ha hb hab => hT.order i j a b ha hb (before_concat_res.mp hab),
      since_le := fun i op' hm => hT.since_le i op' (hinv hm),
      since_group := fun i a ha j hj => hT.since_group i a ha j (before_concat_res.mp hj) }
  · rw [List.length_append]
    exact (hT.inv_lt i op' (hinv hm)).trans_le (Nat.le_add_right _ _)
  · rcases hres hm with hm | ⟨rfl, -⟩
    · obtain ⟨op', hop⟩ := hT.res_inv i r' hm
      exact ⟨op', List.mem_append_left _ hop⟩
    · exact ⟨op, List.mem_append_left _ (hT.invoked e _ ha)⟩
  · rcases hres hm with hm | ⟨rfl, rfl⟩
    · exact hT.responded i r' hm
    · exact ⟨e, op, ha⟩

/-- A new state, so far the same as the last one. -/
lemma tick (hT : T.Ok S h state) (hs : state (T.now + 1) = state T.now) :
    T.tick.Ok S h state := by
  have hnew : T.group (T.now + 1) = [] := hT.future _ (Nat.lt_succ_self _)
  refine
    { hT with
      future := fun i hi => hT.future i (Nat.lt_of_succ_lt hi), nodup := ?_,
      next := fun i hi => ?_,
      since_le := fun i op hm => (hT.since_le i op hm).trans (Nat.le_succ _) }
  · show ((T.upTo (T.now + 1 + 1)).map Entry.id).Nodup
    rw [upTo_succ, hnew, List.append_nil]
    exact hT.nodup
  · rcases Nat.lt_succ_iff_lt_or_eq.mp hi with hi | rfl
    · exact hT.next i hi
    · show S.Runs (state T.now) (T.group (T.now + 1)) (state (T.now + 1))
      rw [hnew, hs]
      exact .nil _

/-- A call is placed at state `i`, no earlier than the one at its invocation.  It may change the
present state only. -/
lemma place (hT : T.Ok S h state) (hi : i ≤ T.now) (hsince : T.since a.id ≤ i)
    (hinv : .inv a.id a.op ∈ h) (hnew : ¬ T.Has a.id) (hpend : ∀ r, .res a.id r ∉ h)
    {s : S.State} (hstep : S.step (state i) a.op a.ret s) (hs : i < T.now → s = state i) :
    (T.place i a).Ok S h (Function.update state i s) := by
  have hstart : ∀ j < T.now, Function.update state i s j = state j := by
    intro j hj
    by_cases hji : j = i
    · subst hji
      simpa using hs hj
    · simp [hji]
  -- The group of state `i` has one more call, that of any other state is what it was.
  have hgroup : ∀ {j s'}, S.Runs s' (T.group j) (state j) →
      S.Runs s' ((T.place i a).group j) (Function.update state i s j) := by
    intro j s' hr
    by_cases hji : j = i
    · subst hji
      simpa [Timeline.place] using hr.concat hstep
    · simpa [Timeline.place, hji] using hr
  have hpos : i < T.now + 1 := Nat.lt_succ_of_le hi
  refine
    { inv_lt := hT.inv_lt, res_inv := hT.res_inv, future := fun j hj => ?_, nodup := ?_,
      invoked := fun j b hb => ?_, responded := fun j r hr => ?_, first := hgroup hT.first,
      next := fun j hj => ?_, order := fun j k b c hb hc hbc => ?_, since_le := hT.since_le,
      since_group := fun j b hb k hk => ?_ }
  · have hji : j ≠ i := Nat.ne_of_gt (hi.trans_lt hj)
    simpa [Timeline.place, hji] using hT.future j hj
  · refine ((upTo_place hpos).map Entry.id).nodup_iff.mpr ?_
    refine List.nodup_cons.mpr ⟨fun hm => ?_, hT.nodup⟩
    obtain ⟨b, hb, hid⟩ := List.mem_map.mp hm
    obtain ⟨j, -, hb⟩ := mem_upTo.mp hb
    exact hnew ⟨j, b, hb, hid⟩
  · rcases mem_place.mp hb with hb | ⟨-, rfl⟩
    · exact hT.invoked j b hb
    · exact hinv
  · obtain ⟨e, op, he⟩ := hT.responded j r hr
    exact ⟨e, op, group_sublist_place.subset he⟩
  · rw [hstart j hj]
    exact hgroup (hT.next j hj)
  · rcases mem_place.mp hb with hb' | ⟨-, rfl⟩
    · rcases mem_place.mp hc with hc' | ⟨rfl, rfl⟩
      · exact (hT.order j k b c hb' hc' hbc).imp_right
          (And.imp_right fun hs => hs.trans group_sublist_place)
      · have hle : j ≤ k := (hT.since_group j b hb' _ hbc).trans hsince
        rcases Nat.lt_or_eq_of_le hle with hlt | rfl
        · exact .inl hlt
        · refine .inr ⟨rfl, ?_⟩
          simp only [Timeline.place, Function.update_self]
          exact pair_sublist_concat.mpr (.inr ⟨hb', rfl⟩)
    · obtain ⟨r, hr⟩ := hbc.res_mem
      exact absurd hr (hpend r)
  · rcases mem_place.mp hb with hb | ⟨-, rfl⟩
    · exact hT.since_group j b hb k hk
    · obtain ⟨r, hr⟩ := hk.res_mem
      exact absurd hr (hpend r)

/-- Only the states so far matter. -/
lemma congr (hT : T.Ok S h state) {state' : ℕ → S.State} (he : ∀ i ≤ T.now, state' i = state i) :
    T.Ok S h state' :=
  { hT with
    first := by
      rw [he 0 (Nat.zero_le _)]
      exact hT.first
    next := fun i hi => by
      rw [he i hi.le, he (i + 1) hi]
      exact hT.next i hi }

/-- A call leads to a new state. -/
lemma change (hT : T.Ok S h state) (hsince : T.since a.id ≤ T.now) (hinv : .inv a.id a.op ∈ h)
    (hnew : ¬ T.Has a.id) (hpend : ∀ r, .res a.id r ∉ h) {state' : ℕ → S.State}
    (he : ∀ i ≤ T.now, state' i = state i)
    (hstep : S.step (state T.now) a.op a.ret (state' (T.now + 1))) :
    (T.tick.place (T.now + 1) a).Ok S h state' := by
  set held := Function.update state (T.now + 1) (state T.now) with hheld
  have hold : ∀ i ≤ T.now, held i = state i := fun i hi =>
    Function.update_of_ne (Nat.ne_of_lt (Nat.lt_succ_of_le hi)) _ _
  have hnow : held (T.now + 1) = state T.now := Function.update_self ..
  have htick : T.tick.Ok S h held :=
    (hT.congr hold).tick (hnow.trans (hold T.now le_rfl).symm)
  have hplace := htick.place (i := T.now + 1) (a := a) le_rfl (hsince.trans (Nat.le_succ _)) hinv
    hnew hpend (by rw [hnow]; exact hstep) (fun hlt => absurd hlt (lt_irrefl _))
  refine hplace.congr fun i hi => ?_
  have hi' : i ≤ T.now + 1 := hi
  rcases Nat.lt_or_eq_of_le hi' with hlt | rfl
  · rw [Function.update_of_ne (Nat.ne_of_lt hlt), hold i (Nat.le_of_lt_succ hlt)]
    exact he i (Nat.le_of_lt_succ hlt)
  · rw [Function.update_self]

end Ok

/-! ## Calls in progress -/

/-- A call in progress, and the answer that it has been placed with. -/
structure Pending (Op Ret : Type) where
  id : ℕ
  op : Op
  placed : Option Ret

/-- The calls in progress of every thread, on a timeline. -/
structure Calls (S : Behaviour Op Ret) (h : List (Event Op Ret)) (state : ℕ → S.State)
    (T : Timeline Op Ret) (run : ℕ → Option (Pending Op Ret)) : Prop where
  time : T.Ok S h state
  invoked : ∀ t r, run t = some r → .inv r.id r.op ∈ h
  pending : ∀ t r, run t = some r → ∀ a, .res r.id a ∉ h
  placed : ∀ t r a, run t = some r → r.placed = some a → ∃ i, ⟨r.id, r.op, a⟩ ∈ T.group i
  unplaced : ∀ t r, run t = some r → r.placed = none → ¬ T.Has r.id
  once : ∀ t t' r r', run t = some r → run t' = some r' → r.id = r'.id → t = t'

namespace Calls

variable {S : Behaviour Op Ret} {h : List (Event Op Ret)} {state state' : ℕ → S.State}
  {run : ℕ → Option (Pending Op Ret)} {t id : ℕ} {op : Op} {ans : Ret}

/-- No call is in progress yet. -/
lemma empty (h0 : state 0 = S.init) :
    Calls S [] state (⟨0, fun _ => [], fun _ => 0⟩ : Timeline Op Ret) fun _ => none where
  time := .empty h0
  invoked t r hr := by simp at hr
  pending t r hr := by simp at hr
  placed t r a hr := by simp at hr
  unplaced t r hr := by simp at hr
  once t t' r r' hr := by simp at hr

lemma invoke (hc : Calls S h state T run) (op : Op) (t : ℕ) :
    Calls S (h ++ [.inv h.length op]) state
      { T with since := Function.update T.since h.length T.now }
      (Function.update run t (some ⟨h.length, op, none⟩)) := by
  have hlt : ∀ {t r}, run t = some r → r.id < h.length := fun hr =>
    hc.time.inv_lt _ _ (hc.invoked _ _ hr)
  have hcases : ∀ {t' r}, Function.update run t (some ⟨h.length, op, none⟩) t' = some r →
      (t' = t ∧ r = ⟨h.length, op, none⟩) ∨ run t' = some r := by
    intro t' r hr
    by_cases ht : t' = t
    · subst ht
      exact .inl ⟨rfl, by simpa [eq_comm] using hr⟩
    · exact .inr (by simpa [ht] using hr)
  have hnot : ¬ T.Has h.length := by
    rintro ⟨i, a, ha, hid⟩
    have := hc.time.inv_lt _ _ (hc.time.invoked i a ha)
    omega
  refine
    { time := hc.time.invoke op, invoked := fun t' r hr => ?_, pending := fun t' r hr a => ?_,
      placed := fun t' r a hr hp => ?_, unplaced := fun t' r hr hp => ?_,
      once := fun t₁ t₂ r₁ r₂ h1 h2 he => ?_ }
  · rcases hcases hr with ⟨-, rfl⟩ | hr
    · simp
    · exact List.mem_append_left _ (hc.invoked t' r hr)
  · rcases hcases hr with ⟨-, rfl⟩ | hr
    · intro hm
      have hm' : .res h.length a ∈ h := by simpa using hm
      obtain ⟨op', hop⟩ := hc.time.res_inv _ _ hm'
      exact absurd (hc.time.inv_lt _ _ hop) (lt_irrefl _)
    · intro hm
      exact hc.pending t' r hr a (by simpa using hm)
  · rcases hcases hr with ⟨-, rfl⟩ | hr
    · simp at hp
    · exact hc.placed t' r a hr hp
  · rcases hcases hr with ⟨-, rfl⟩ | hr
    · exact hnot
    · exact hc.unplaced t' r hr hp
  · rcases hcases h1 with ⟨e1, rfl⟩ | h1' <;> rcases hcases h2 with ⟨e2, rfl⟩ | h2'
    · exact e1.trans e2.symm
    · exact absurd (hlt h2') (by rw [← he]; exact lt_irrefl _)
    · exact absurd (hlt h1') (by rw [he]; exact lt_irrefl _)
    · exact hc.once t₁ t₂ r₁ r₂ h1' h2' he

lemma respond (hc : Calls S h state T run) (hr : run t = some ⟨id, op, some ans⟩) :
    Calls S (h ++ [.res id ans]) state T (Function.update run t none) := by
  have hcases : ∀ {t' r}, Function.update run t none t' = some r → t' ≠ t ∧ run t' = some r := by
    intro t' r hr'
    by_cases ht : t' = t
    · subst ht
      simp at hr'
    · exact ⟨ht, by simpa [ht] using hr'⟩
  obtain ⟨i, hi⟩ := hc.placed t _ ans hr rfl
  refine
    { time := hc.time.respond hi, invoked := fun t' r hr' => ?_,
      pending := fun t' r hr' a => ?_, placed := fun t' r a hr' => hc.placed t' r a (hcases hr').2,
      unplaced := fun t' r hr' => hc.unplaced t' r (hcases hr').2,
      once := fun t₁ t₂ r₁ r₂ h1 h2 => hc.once t₁ t₂ r₁ r₂ (hcases h1).2 (hcases h2).2 }
  · exact List.mem_append_left _ (hc.invoked t' r (hcases hr').2)
  · obtain ⟨hne, hr'⟩ := hcases hr'
    intro hm
    rcases List.mem_append.mp hm with hm | hm
    · exact hc.pending t' r hr' a hm
    · have hid : r.id = id := by
        have := List.mem_singleton.mp hm
        injection this
      exact hne (hc.once t' t r _ hr' hr hid)

/-- The calls in progress, once the call of thread `t` has been placed. -/
lemma of_place {T' : Timeline Op Ret} (hc : Calls S h state T run)
    (hr : run t = some ⟨id, op, none⟩) (hT : T'.Ok S h state')
    (hmem : ∀ j b, b ∈ T'.group j ↔ b ∈ T.group j ∨ j = i ∧ b = ⟨id, op, ans⟩) :
    Calls S h state' T' (Function.update run t (some ⟨id, op, some ans⟩)) := by
  have hcases : ∀ {t' r}, Function.update run t (some ⟨id, op, some ans⟩) t' = some r →
      (t' = t ∧ r = ⟨id, op, some ans⟩) ∨ t' ≠ t ∧ run t' = some r := by
    intro t' r hr'
    by_cases ht : t' = t
    · subst ht
      exact .inl ⟨rfl, by simpa [eq_comm] using hr'⟩
    · exact .inr ⟨ht, by simpa [ht] using hr'⟩
  refine
    { time := hT, invoked := fun t' r hr' => ?_, pending := fun t' r hr' => ?_,
      placed := fun t' r a hr' hp => ?_, unplaced := fun t' r hr' hp => ?_,
      once := fun t₁ t₂ r₁ r₂ h1 h2 he => ?_ }
  · rcases hcases hr' with ⟨-, rfl⟩ | ⟨-, hr'⟩
    · exact hc.invoked t ⟨id, op, none⟩ hr
    · exact hc.invoked t' r hr'
  · rcases hcases hr' with ⟨-, rfl⟩ | ⟨-, hr'⟩
    · exact hc.pending t ⟨id, op, none⟩ hr
    · exact hc.pending t' r hr'
  · rcases hcases hr' with ⟨-, rfl⟩ | ⟨-, hr'⟩
    · obtain rfl : ans = a := by simpa using hp
      exact ⟨i, (hmem i _).mpr (.inr ⟨rfl, rfl⟩)⟩
    · obtain ⟨j, hj⟩ := hc.placed t' r a hr' hp
      exact ⟨j, (hmem j _).mpr (.inl hj)⟩
  · rcases hcases hr' with ⟨-, rfl⟩ | ⟨hne, hr'⟩
    · simp at hp
    · rintro ⟨j, b, hb, hid⟩
      rcases (hmem j b).mp hb with hb | ⟨-, rfl⟩
      · exact hc.unplaced t' r hr' hp ⟨j, b, hb, hid⟩
      · exact hne (hc.once t' t r _ hr' hr hid.symm)
  · have hid : ∀ {t' r}, Function.update run t (some ⟨id, op, some ans⟩) t' = some r →
        ∃ r', run t' = some r' ∧ r'.id = r.id := by
      intro t' r hr'
      rcases hcases hr' with ⟨rfl, rfl⟩ | ⟨-, hr'⟩
      · exact ⟨_, hr, rfl⟩
      · exact ⟨r, hr', rfl⟩
    obtain ⟨s₁, h1, e1⟩ := hid h1
    obtain ⟨s₂, h2, e2⟩ := hid h2
    exact hc.once t₁ t₂ s₁ s₂ h1 h2 (e1.trans (he.trans e2.symm))

/-- A call sees a state since its invocation, and leaves it as it was. -/
lemma see (hc : Calls S h state T run) (hr : run t = some ⟨id, op, none⟩) (hi : i ≤ T.now)
    (hsince : T.since id ≤ i) (hstep : S.step (state i) op ans (state i)) :
    Calls S h state (T.place i ⟨id, op, ans⟩)
      (Function.update run t (some ⟨id, op, some ans⟩)) := by
  have hT := hc.time.place (a := ⟨id, op, ans⟩) hi hsince (hc.invoked t _ hr)
    (hc.unplaced t _ hr rfl) (hc.pending t _ hr) hstep fun _ => rfl
  rw [Function.update_eq_self] at hT
  exact hc.of_place hr hT fun _ _ => mem_place

/-- A call leads to a new state. -/
lemma change (hc : Calls S h state T run) (hr : run t = some ⟨id, op, none⟩)
    (he : ∀ i ≤ T.now, state' i = state i)
    (hstep : S.step (state T.now) op ans (state' (T.now + 1))) :
    Calls S h state' (T.tick.place (T.now + 1) ⟨id, op, ans⟩)
      (Function.update run t (some ⟨id, op, some ans⟩)) :=
  hc.of_place hr
    (hc.time.change (a := ⟨id, op, ans⟩) (hc.time.since_le _ _ (hc.invoked t _ hr))
      (hc.invoked t _ hr) (hc.unplaced t _ hr rfl) (hc.pending t _ hr) he hstep)
    fun _ _ => mem_place

end Calls

end Timeline

end Artmap
