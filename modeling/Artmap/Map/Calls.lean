import Artmap.Map.Steps

/-!
# Invocations and responses

A call starts with the leaf that it was given, and ends when it has taken effect and has dealt
with that leaf and with every leaf that it took out; only a call that has failed hands its leaf
back.  With that, a map whose operations run safely from the one state to the other is verified
(`verified`).
-/

namespace Artmap

namespace Log

/-- Nothing has been ordered yet. -/
def empty (Op Ret : Type) : Log Op Ret where
  cur := 0
  body := fun _ => []
  last := fun _ => []
  since := fun _ => 0

lemma empty_ok {Op Ret : Type} (S : Spec Op Ret) :
    (empty Op Ret).Ok S 0 [] fun _ => S.init where
  inv_lt := by simp
  res_lt := by simp
  future _ _ := rfl
  open_last := rfl
  nodup _ := List.nodup_nil
  disjoint _ _ _ _ _ h := by simp [empty, chunk] at h
  invoked _ _ h := by simp [empty, chunk] at h
  responded _ _ h := by simp at h
  legal _ := trivial
  state_eq _ := rfl
  reset _ h := absurd h (Nat.not_lt_zero _)
  order _ _ _ _ h := by simp [empty, chunk] at h
  since_le _ _ h := by simp at h
  since_body _ _ h := by simp [empty] at h
  since_last _ _ h := by simp [empty] at h

end Log

namespace Interface

variable {M : Interface} {t t' id lo e : ℕ} {op : M.Op} {a : M.Ret} {l : Leaf} {x y : M.MapScene}
  {h : List (Event M.Op M.Ret)} {v : View} {g : M.Ghost} {m m' : LeafMem}

/-- The leaves that a call starts with. -/
def given (M : Interface) (t : ℕ) (op : M.Op) (l : Leaf) : Option LeafState :=
  if M.builds op = some l then some (.held t) else none

/-- A call has taken effect and has nothing left in its hands; or it has failed, and hands the
leaf back that it was given. -/
def Finished (t id : ℕ) (op : M.Op) (a : M.Ret) (x : M.MapScene) : Prop :=
  ∃ res lo mine, Holds t ⟨id, op, res⟩ lo 0 mine none x ∧
    (res = some a ∨ M.fails a = true) ∧
    ∀ l s, mine l = some s → s = .held t ∧ M.fails a = true

/-- `Finished` as an assertion. -/
def finished (t id : ℕ) (op : M.Op) (a : M.Ret) : M.client.Assertion t where
  holds := Finished t id op a
  stable hr := fun ⟨res, lo, mine, h1, h2⟩ => ⟨res, lo, mine, h1.stable hr, h2⟩

/-! ## Invocations -/

/-- A call is invoked. -/
def Ghost.invoke (g : M.Ghost) (t id : ℕ) (op : M.Op) : M.Ghost :=
  { g with
    log := { g.log with since := Function.update g.log.since id g.log.cur }
    run := Function.update g.run t (some ⟨id, op, none⟩)
    st := fun l => if M.builds op = some l then .held t else g.st l }

lemma LogInv.invoke (hi : LogInv h v g) (t : ℕ) (op : M.Op) :
    LogInv (h ++ [.inv h.length op]) v (g.invoke t h.length op) := by
  have hlt : ∀ {t' r}, g.run t' = some r → r.id < h.length := fun hr =>
    hi.log.inv_lt _ _ (inv_mem_told.mpr (hi.runs _ _ hr).inv)
  refine ⟨?_, hi.cur, fun t' r hr => ?_, fun t₁ t₂ r₁ r₂ h₁ h₂ heq => ?_, fun i b hb => ?_⟩
  · rw [told_append, told_inv, List.length_append]
    exact hi.log.invoke op
  · by_cases ht : t' = t
    · subst ht
      obtain rfl : _ = r := by simpa [Ghost.invoke] using hr
      refine ⟨by simp, fun b hb => ?_, fun _ => ?_, by simp⟩
      · have hmem : .res h.length b ∈ h := by simpa using hb
        exact lt_irrefl _ (hi.res_lt _ _ hmem)
      · rintro ⟨f, b, hb, hbid⟩
        have := hi.log.inv_lt _ _ (hi.log.invoked f b hb)
        simp [hbid] at this
    · have hr' : g.run t' = some r := by simpa [Ghost.invoke, ht] using hr
      have hold := hi.runs t' r hr'
      exact ⟨by simp [hold.inv], fun b hb => hold.pending b (by simpa using hb), hold.todo,
        hold.done⟩
  · by_cases ht₁ : t₁ = t <;> by_cases ht₂ : t₂ = t
    · rw [ht₁, ht₂]
    · subst ht₁
      obtain rfl : _ = r₁ := by simpa [Ghost.invoke] using h₁
      have := @hlt t₂ r₂ (by simpa [Ghost.invoke, ht₂] using h₂)
      simp [← heq] at this
    · subst ht₂
      obtain rfl : _ = r₂ := by simpa [Ghost.invoke] using h₂
      have := @hlt t₁ r₁ (by simpa [Ghost.invoke, ht₁] using h₁)
      simp [heq] at this
    · exact hi.run_inj t₁ t₂ r₁ r₂ (by simpa [Ghost.invoke, ht₁] using h₁)
        (by simpa [Ghost.invoke, ht₂] using h₂) heq
  · have := hi.res_lt i b (by simpa using hb)
    simp only [List.length_append, List.length_singleton]
    omega

/-- The states of some leaves change, none of which is linked or removed. -/
lemma LeafInv.rename (m' : LeafMem) (st : Leaf → LeafState) (hi : LeafInv m v g)
    (hst : ∀ l, st l = g.st l ∨
      (g.st l ≠ .linked ∧ st l ≠ .linked ∧ ¬ (g.st l).Removed ∧ ¬ (st l).Removed))
    (hbuilt : ∀ l, m'.built l = true ↔ st l ≠ .blank) (hremoved : m'.removed = m.removed)
    (hret : m'.retired = m.retired) : LeafInv m' v { g with st := st } := by
  have hlinked : ∀ l, st l = .linked ↔ g.st l = .linked := by
    intro l
    rcases hst l with h | ⟨h1, h2, -⟩
    · rw [h]
    · exact ⟨fun h => absurd h h2, fun h => absurd h h1⟩
  have hrem : ∀ l, (st l).Removed ↔ (g.st l).Removed := by
    intro l
    rcases hst l with h | ⟨-, -, h1, h2⟩
    · rw [h]
    · exact ⟨fun h => absurd h h2, fun h => absurd h h1⟩
  have hsame : ∀ l, (g.st l).Removed ∨ (st l).Removed → st l = g.st l := by
    intro l hl
    rcases hst l with h | ⟨-, -, h1, h2⟩
    · exact h
    · exact (hl.elim h1 h2).elim
  refine
    { keyed := hi.keyed, mapped := fun f k l hl => ?_, marker := fun f k l t' hl hm => ?_
      linked := fun l hl => hi.linked l ((hlinked l).mp hl), once := hi.once
      live := fun f k => ?_, past := hi.past, sweep_lt := hi.sweep_lt, built := hbuilt
      removed := fun l => ?_, retired := fun l => ?_, retired_nodup := ?_ }
  · rw [hlinked, hrem]
    exact hi.mapped f k l hl
  · have hm' : st l = .marked t' := hm
    exact hi.marker f k l t' hl (by rw [← hsame l (.inr (by rw [hm']; trivial)), hm'])
  · simp only [hlinked]
    exact hi.live f k
  · rw [hremoved, hrem]
    exact hi.removed l
  · rw [hret, hi.retired l]
    show _ ↔ st l = _
    constructor
    · intro h
      rw [hsame l (.inl (by rw [h]; trivial)), h]
    · intro h
      rw [← hsame l (.inr (by rw [h]; trivial)), h]
  · rw [hret]
    exact hi.retired_nodup

/-- A call starts with a new leaf, or with the leaves as they are. -/
lemma start_cases (hstart : M.client.start t op m m') :
    M.builds op = none ∧ m' = m ∨
      ∃ l, M.builds op = some l ∧ m.built l = false ∧
        m' = { m with built := Function.update m.built l true } := by
  cases hb : M.builds op with
  | none => exact .inl ⟨rfl, by simpa only [client, hb] using hstart⟩
  | some l => exact .inr ⟨l, rfl, by simpa only [client, hb] using hstart⟩

/-- What an invocation does to the leaves. -/
lemma LeafInv.invoke (hi : LeafInv m v g) (hstart : M.client.start t op m m') :
    (∀ l, M.builds op = some l → g.st l = .blank) ∧ m'.stripes = m.stripes ∧
      LeafInv m' v (g.invoke t id op) := by
  have key : (∀ l, M.builds op = some l → g.st l = .blank) ∧ m'.stripes = m.stripes ∧
      m'.removed = m.removed ∧ m'.retired = m.retired ∧
      ∀ l, m'.built l = true ↔ M.builds op = some l ∨ m.built l = true := by
    rcases start_cases hstart with ⟨hb, rfl⟩ | ⟨l, hb, h1, rfl⟩
    · simp [hb]
    · rw [hb]
      refine ⟨fun l' hl' => ?_, rfl, rfl, rfl, fun l' => ?_⟩
      · obtain rfl : l = l' := by simpa using hl'
        have := (hi.built l).not
        simpa [h1] using this
      · by_cases hll : l' = l
        · subst hll
          simp
        · simp [hll, Ne.symm hll]
  obtain ⟨h1, h2, h3, h4, h5⟩ := key
  refine ⟨h1, h2, ?_⟩
  have := hi.rename m' (fun l => if M.builds op = some l then .held t else g.st l)
    (fun l => ?_) (fun l => ?_) h3 h4
  · exact ⟨this.keyed, this.mapped, this.marker, this.linked, this.once, this.live, this.past,
      this.sweep_lt, this.built, this.removed, this.retired, this.retired_nodup⟩
  · by_cases hb : M.builds op = some l
    · exact .inr (by simp [hb, h1 l hb, LeafState.Removed])
    · exact .inl (if_neg hb)
  · rw [h5 l]
    by_cases hb : M.builds op = some l
    · simp [hb]
    · simp [hb, hi.built l]

/-- The other threads see nothing of an invocation. -/
lemma Inv.invoke_rely {h : List (Event M.Op M.Ret)} (hi : Inv x)
    (hblank : ∀ l, M.builds op = some l → x.ghost.st l = .blank) (ht' : t' ≠ t) :
    Rely t' x ⟨m, h, x.view, x.ghost.invoke t x.hist.length op⟩ := by
  refine
    { run := Function.update_of_ne ht' _ _, since := fun r hr => Function.update_of_ne ?_ _ _
      part := fun l => ?_, removed := fun l hl => ?_, published := fun l hl => ?_, debt := rfl
      sweep := fun _ => Iff.rfl, cur := le_rfl, frozen := fun _ _ hk => ⟨hk, rfl⟩
      swept := fun f _ k l hl => ?_, roomy := rfl }
  · exact Nat.ne_of_lt (hi.log.log.inv_lt _ _ (inv_mem_told.mpr (hi.log.runs t' r hr).inv))
  · by_cases hb : M.builds op = some l
    · simp [Ghost.invoke, hb, hblank l hb, LeafState.part, LeafState.owner, ht'.symm]
    · simp [Ghost.invoke, hb]
  · have hb : M.builds op ≠ some l := fun hb => by
      simp [hblank l hb, LeafState.Removed] at hl
    simpa [Ghost.invoke, hb] using hl
  · have hb : M.builds op ≠ some l := fun hb => by
      simp [hblank l hb, LeafState.Published] at hl
    simpa [Ghost.invoke, hb] using hl
  · refine .inr ⟨hl, ?_⟩
    have hb : M.builds op ≠ some l := fun hb => by
      rcases hi.leaf.mapped f k l hl with h | ⟨-, -, h⟩ <;>
        simp [hblank l hb, LeafState.Removed] at h
    simp [Ghost.invoke, hb]

lemma UnusedInv.invoke (hu : UnusedInv m g) (hblank : ∀ l, M.builds op = some l → g.st l = .blank)
    (hstart : M.client.start t op m m') : UnusedInv m' (g.invoke t id op) := by
  refine hu.mono ?_ fun l => ?_
  · rcases start_cases hstart with ⟨-, h⟩ | ⟨l, -, -, h⟩ <;> rw [h]
  · by_cases hb : M.builds op = some l
    · exact .inr (by simp [Ghost.invoke, hb, hblank l hb, LeafState.Unused])
    · exact .inl (if_neg hb)

/-- **Invocations** keep the invariant. -/
lemma invoke_ok (hi : Inv x) (hidle : x.ghost.run t = none)
    (hstart : M.client.start t op x.leafs m) :
    Inv ⟨m, x.hist ++ [.inv x.hist.length op], x.view, x.ghost.invoke t x.hist.length op⟩ ∧
      Holds t ⟨x.hist.length, op, none⟩ x.view.cur 0 (M.given t op) none
        ⟨m, x.hist ++ [.inv x.hist.length op], x.view, x.ghost.invoke t x.hist.length op⟩ ∧
      ∀ t', t' ≠ t → Rely t' x
        ⟨m, x.hist ++ [.inv x.hist.length op], x.view, x.ghost.invoke t x.hist.length op⟩ := by
  obtain ⟨hblank, hstripes, hleaf⟩ := hi.leaf.invoke hstart
  obtain ⟨hd, hpart, hsw⟩ := hi.idle t hidle
  have hrely : ∀ t', t' ≠ t → Rely t' x ⟨m, x.hist ++ [.inv x.hist.length op], x.view,
      x.ghost.invoke t x.hist.length op⟩ := fun t' ht' => hi.invoke_rely hblank ht'
  refine ⟨⟨hi.log.invoke t op, hleaf, hi.unused.invoke hblank hstart, ⟨?_, hi.len.debt⟩,
    hi.put.step (fun _ _ h => .inl h) fun l hl => (hrely (t + 1) (by omega)).published l hl,
    fun t' ht' => ?_, hi.roomy, hi.cache.mono ?cache fun _ _ _ _ h => h, hi.still,
    fun e t' he => ?sweeping⟩, ?_, hrely⟩
  case sweeping =>
    obtain ⟨r, hr, hop⟩ := hi.sweeping e t' he
    have hne : t' ≠ t := by
      rintro rfl
      simp [hidle] at hr
    exact ⟨r, (Function.update_of_ne hne _ _).trans hr, hop⟩
  case cache =>
    rcases start_cases hstart with ⟨-, rfl⟩ | ⟨l, -, -, rfl⟩ <;> rfl
  · have : m.len = x.leafs.len := by
      unfold LeafMem.len
      rw [hstripes]
    exact this.trans hi.len.len
  · have hne : t' ≠ t := by
      rintro rfl
      simp [Ghost.invoke] at ht'
    have hr := hrely t' hne
    exact hr.idle (hi.idle t' (hr.run.symm.trans ht'))
  · refine ⟨by simp [Ghost.invoke], ?_, hd, fun l => ?_, fun f => ?_, hi.roomy⟩
    · simp [Ghost.invoke, hi.log.cur]
    · by_cases hb : M.builds op = some l
      · simp [Ghost.invoke, given, hb, LeafState.part, LeafState.owner]
      · simpa [Ghost.invoke, given, hb] using hpart l
    · simpa [Ghost.invoke] using hsw f

/-! ## Responses -/

/-- A call responds.  A leaf that it was given and has kept goes back to the caller. -/
def Ghost.respond (g : M.Ghost) (t : ℕ) : M.Ghost :=
  { g with
    run := Function.update g.run t none
    st := fun l => if g.st l = .held t then .dropped else g.st l }

lemma Ghost.respond_cases (g : M.Ghost) (t : ℕ) (l : Leaf) :
    (g.respond t).st l = g.st l ∨ g.st l = .held t ∧ (g.respond t).st l = .dropped := by
  by_cases hl : g.st l = .held t
  · exact .inr ⟨hl, if_pos hl⟩
  · exact .inl (if_neg hl)

lemma Ghost.respond_published (h : (g.st l).Published) : ((g.respond t).st l).Published := by
  rcases g.respond_cases t l with heq | ⟨hheld, -⟩
  · rwa [heq]
  · simp [hheld, LeafState.Published] at h

/-- The calls that are left are those of the other threads. -/
lemma Ghost.respond_run {r : Running M.Op M.Ret} (h : (g.respond t).run t' = some r) :
    t' ≠ t ∧ g.run t' = some r := by
  have hne : t' ≠ t := by
    rintro rfl
    simp [respond] at h
  exact ⟨hne, by simpa [respond, hne] using h⟩

lemma LogInv.respond {res : Option M.Ret} (hi : LogInv h v g) (hrun : g.run t = some ⟨id, op, res⟩)
    (hres : res = some a ∨ M.fails a = true) : LogInv (h ++ [.res id a]) v (g.respond t) := by
  have hok := hi.runs t _ hrun
  have hlen : h.length ≤ (h ++ [Event.res id a]).length := by simp
  have hlog : g.log.Ok M.spec (h ++ [Event.res id a]).length (M.told (h ++ [Event.res id a]))
      v.map := by
    rw [told_append]
    cases hf : M.fails a with
    | true =>
      rw [told_fail hf, List.append_nil]
      exact hi.log.mono hlen
    | false =>
      obtain rfl : res = some a := hres.resolve_right (by simp [hf])
      obtain ⟨e, he⟩ := hok.done a rfl
      rw [told_res hf]
      exact (hi.log.respond he).mono hlen
  refine ⟨hlog, hi.cur, fun t' r hr => ?_, fun t₁ t₂ r₁ r₂ h₁ h₂ heq => ?_, fun i b hb => ?_⟩
  · obtain ⟨hne, hr'⟩ := Ghost.respond_run hr
    have hold := hi.runs t' r hr'
    refine ⟨by simp [hold.inv], fun b hb => ?_, hold.todo, hold.done⟩
    simp only [List.mem_append, List.mem_singleton, Event.res.injEq] at hb
    rcases hb with hb | ⟨hid, -⟩
    · exact hold.pending b hb
    · exact hne (hi.run_inj t' t r _ hr' hrun hid)
  · exact hi.run_inj t₁ t₂ r₁ r₂ (Ghost.respond_run h₁).2 (Ghost.respond_run h₂).2 heq
  · refine lt_of_lt_of_le ?_ hlen
    simp only [List.mem_append, List.mem_singleton, Event.res.injEq] at hb
    rcases hb with hb | ⟨rfl, -⟩
    · exact hi.res_lt i b hb
    · exact hi.log.inv_lt _ _ (inv_mem_told.mpr hok.inv)

lemma LeafInv.respond (hi : LeafInv m v g) : LeafInv m v (g.respond t) := by
  have h := hi.rename m (g.respond t).st (fun l => ?_) (fun l => ?_) rfl rfl
  · exact ⟨h.keyed, h.mapped, h.marker, h.linked, h.once, h.live, h.past, h.sweep_lt, h.built,
      h.removed, h.retired, h.retired_nodup⟩
  · rcases g.respond_cases t l with heq | ⟨hheld, hdropped⟩
    · exact .inl heq
    · exact .inr (by simp [hheld, hdropped, LeafState.Removed])
  · rw [hi.built l]
    rcases g.respond_cases t l with heq | ⟨hheld, hdropped⟩
    · rw [heq]
    · simp [hheld, hdropped]

/-- Only a call that has failed has a leaf to hand back. -/
lemma UnusedInv.respond (hu : UnusedInv m g)
    (hfails : ∀ l, g.st l = .held t → M.fails a = true) : UnusedInv m (g.respond t) := by
  refine ⟨fun l => ?_, hu.freed_nodup, fun l hl => ?_⟩
  · rw [hu.freed l]
    rcases g.respond_cases t l with heq | ⟨hheld, hdropped⟩
    · rw [heq]
    · simp [hheld, hdropped]
  · rcases g.respond_cases t l with heq | ⟨hheld, -⟩
    · exact hu.dropped l (heq.symm.trans hl)
    · exact ⟨a, hfails l hheld⟩

/-- The other threads see nothing of a response. -/
lemma LeafInv.respond_rely {h' : List (Event M.Op M.Ret)} (hi : LeafInv m v g) (ht' : t' ≠ t) :
    Rely t' ⟨m, h, v, g⟩ ⟨m, h', v, g.respond t⟩ := by
  refine
    { run := Function.update_of_ne ht' _ _, since := fun _ _ => rfl, part := fun l => ?_
      removed := fun l hl => ?_, published := fun l hl => Ghost.respond_published hl, debt := rfl
      sweep := fun _ => Iff.rfl, cur := le_rfl, frozen := fun _ _ hk => ⟨hk, rfl⟩
      swept := fun f _ k l hl => .inr ⟨hl, ?_⟩, roomy := rfl }
  · show LeafState.part t' ((g.respond t).st l) = _
    rcases g.respond_cases t l with heq | ⟨hheld, hdropped⟩
    · rw [heq]
    · rw [hheld, hdropped]
      simp [LeafState.part, LeafState.owner, ht'.symm]
  · show LeafState.Removed ((g.respond t).st l)
    rcases g.respond_cases t l with heq | ⟨hheld, -⟩
    · rwa [heq]
    · simp [hheld, LeafState.Removed] at hl
  · rcases g.respond_cases t l with heq | ⟨hheld, -⟩
    · exact heq
    · rcases hi.mapped f k l hl with hlinked | ⟨-, -, hremoved⟩
      · simp [hheld] at hlinked
      · simp [hheld, LeafState.Removed] at hremoved

/-- A thread that has responded has nothing to do. -/
lemma Finished.idle (hx : Finished t id op a x) : Idle (x.ghost.respond t) t := by
  obtain ⟨res, lo, mine, hh, -, hmine⟩ := hx
  refine ⟨hh.debt, fun l => ?_, fun f hf => ?_⟩
  · rcases x.ghost.respond_cases t l with heq | ⟨-, hdropped⟩
    · rw [heq, LeafState.part_eq_none]
      intro ho
      have hm := (hh.part l).symm.trans (LeafState.part_eq_some.mpr ⟨rfl, ho⟩)
      have hheld : x.ghost.st l = .held t := (hmine l _ hm).1
      rw [show (x.ghost.respond t).st l = .dropped from if_pos hheld, hheld] at heq
      cases heq
    · rw [hdropped]
      rfl
  · simpa using (hh.sweep f).mp hf

/-- **Responses** keep the invariant. -/
lemma respond_ok (hi : Inv x) (hx : Finished t id op a x) :
    Inv ⟨x.leafs, x.hist ++ [.res id a], x.view, x.ghost.respond t⟩ ∧
      ∀ t', t' ≠ t → Rely t' x ⟨x.leafs, x.hist ++ [.res id a], x.view, x.ghost.respond t⟩ := by
  have hidle := hx.idle
  obtain ⟨res, lo, mine, hh, hres, hmine⟩ := hx
  have hrely : ∀ t', t' ≠ t →
      Rely t' x ⟨x.leafs, x.hist ++ [.res id a], x.view, x.ghost.respond t⟩ :=
    fun t' ht' => hi.leaf.respond_rely ht'
  have hfails : ∀ l, x.ghost.st l = .held t → M.fails a = true := by
    intro l hl
    have hpart : (x.ghost.st l).part t = some (.held t) := by
      rw [hl]
      exact LeafState.part_eq_some.mpr ⟨rfl, rfl⟩
    exact (hmine l _ ((hh.part l).symm.trans hpart)).2
  refine ⟨⟨hi.log.respond hh.run hres, hi.leaf.respond, hi.unused.respond hfails,
    ⟨hi.len.len, hi.len.debt⟩, hi.put.step (fun _ _ h => .inl h) fun l => Ghost.respond_published,
    fun t' ht' => ?_, hi.roomy, hi.cache, hi.still, fun e t' he => ?_⟩, hrely⟩
  · by_cases hne : t' = t
    · exact hne ▸ hidle
    · have hr := hrely t' hne
      exact hr.idle (hi.idle t' (hr.run.symm.trans ht'))
  · have hne : t' ≠ t := by
      rintro rfl
      simpa using (hh.sweep e).mp he
    obtain ⟨r, hr, hop⟩ := hi.sweeping e t' he
    exact ⟨r, (Function.update_of_ne hne _ _).trans hr, hop⟩

/-! ## Leaves that are freed -/

/-- A leaf that was not published is freed. -/
lemma can_free {r : Running M.Op M.Ret} {d : ℤ} {mine : Leaf → Option LeafState} {sw : Option ℕ}
    (hi : Inv x) (hx : Holds t r lo d mine sw x) (hl : mine l = some (.held t)) :
    Client.Upd (C := M.client) t x (execLeaf t (.freeLeaf l) x.leafs).2 x.view
      (Holds t r lo d (Function.update mine l none) sw) := by
  have hst := (LeafState.part_eq_some.mp ((hx.part l).trans hl)).1
  have hleaf : LeafInv (execLeaf t (.freeLeaf l) x.leafs).2 x.view
      { x.ghost with st := Function.update x.ghost.st l .freed } := by
    refine hi.leaf.rename _ _ (fun l' => ?_) (fun l' => ?_) rfl rfl
    · by_cases hll : l' = l
      · subst hll
        exact .inr (by simp [hst, LeafState.Removed])
      · exact .inl (Function.update_of_ne hll _ _)
    · show x.leafs.built l' = true ↔ _
      rw [hi.leaf.built l']
      by_cases hll : l' = l
      · subst hll
        simp [hst]
      · simp [hll]
  have hunused : UnusedInv (execLeaf t (.freeLeaf l) x.leafs).2
      { x.ghost with st := Function.update x.ghost.st l .freed } := by
    refine ⟨fun l' => ?_, ?_, fun l' hl' => ?_⟩
    · by_cases hll : l' = l
      · subst hll
        simp [execLeaf]
      · simpa [execLeaf, hll] using hi.unused.freed l'
    · refine List.Nodup.append hi.unused.freed_nodup (by simp) ?_
      simp [hi.unused.freed l, hst]
    · have hll : l' ≠ l := by
        rintro rfl
        simp at hl'
      exact hi.unused.dropped l' (by simpa [hll] using hl')
  have hrely : ∀ t', t' ≠ t → Rely t' x ⟨(execLeaf t (.freeLeaf l) x.leafs).2, x.hist, x.view,
      { x.ghost with st := Function.update x.ghost.st l .freed }⟩ := by
    intro t' ht'
    refine Rely.restate ?_ (fun h => ?_) (fun h => ?_) fun e k _ hek => ?_
    · simp [hst, LeafState.part, LeafState.owner, ht'.symm]
    · simp [hst, LeafState.Removed] at h
    · simp [hst, LeafState.Published] at h
    · rcases hi.leaf.mapped e k _ hek with h | ⟨-, -, h⟩ <;>
        simp [hst, LeafState.Removed] at h
  exact upd_of (g := { x.ghost with st := Function.update x.ghost.st l .freed }) hi
    ⟨hi.log.log, hi.log.cur, hi.log.runs, hi.log.run_inj, hi.log.res_lt⟩ hleaf
    ⟨hi.len.len, hi.len.debt⟩
    (hi.put.step (fun _ _ h => .inl h) (hrely (t + 1) (by omega)).published)
    hrely hx.run_ne rfl (hx.restate (s := .freed)) rfl (fun _ _ _ _ h => h) (.inl rfl) hunused

/-! ## Verified maps -/

section Verified

open Client (tree shadow scene)

variable {live : Bool} {Γ Δ : Know} {w : M.client.W}

/-- How a call of thread `t` starts. -/
structure Starts (t id : ℕ) (op : M.Op) (w : M.client.W) : Prop where
  holds : Holds t ⟨id, op, none⟩ (shadow w).cur 0 (M.given t op) none (scene w)
  clean : (shadow w).Clean t

/-- How it ends. -/
structure Ends (t id : ℕ) (op : M.Op) (a : M.Ret) (w : M.client.W) : Prop where
  finished : Finished t id op a (scene w)
  clean : (shadow w).Clean t

lemma Starts.at (h : Starts t id op w) (live : Bool) :
    M.client.At live t (Know.start (tree w) (shadow w))
      (Interface.holds t ⟨id, op, none⟩ (shadow w).cur 0 (M.given t op) none) w :=
  ⟨.start h.clean, h.holds⟩

/-- A thread that holds and owes nothing, and has finished, may respond. -/
lemma ends_of (hx : M.client.At live t Δ (Interface.finished t id op a) w)
    (hh : ∀ l, Δ.held l = none) (hp : ∀ n, Δ.priv n = none) (hf : Δ.follow = none)
    (hc : Δ.clear = none) (hd : ∀ n, ¬ Δ.due n) : Ends t id op a w :=
  ⟨hx.client, hx.knows.clean hh hp hf hc hd⟩

/-- A map is verified when its operations run safely from start to end. -/
def verified (M : Interface) (hcode : ∀ live t id op (w : M.client.W), Starts t id op w →
    M.client.rg.wp live t (M.code op) (Ends t id op) w) : RG.Verified M.client.rg where
  Pre := Starts
  Post := Ends
  pre_stable := by
    intro t id op w w' hr h
    have hh : Holds t _ _ _ _ _ (scene w') := h.holds.stable hr.2
    exact ⟨{ hh with since := hh.since.trans hr.1.cur_mono }, hr.1.clean h.clean⟩
  code_ok := fun h => hcode _ _ _ _ _ h
  invoke_ok := by
    intro t op m w hi htag hstart
    obtain ⟨htree, hstart⟩ := hstart
    have hidle : w.ghost.2.run t = none := Option.map_eq_none_iff.mp htag
    obtain ⟨h1, h2, h3⟩ := Interface.invoke_ok (x := scene w) hi.client hidle hstart
    have hclean := hi.idle t htag
    have htag' : M.client.tag (w.ghost.2.invoke t w.hist.length op) t =
        some (w.hist.length, op) := by
      show ((w.ghost.2.invoke t w.hist.length op).run t).map _ = _
      simp [Ghost.invoke]
    obtain ⟨hinv, hrel, hown⟩ := Client.WInv.move hi htree hclean h1 h3
    refine ⟨(w.ghost.1, w.ghost.2.invoke t w.hist.length op), hinv, ⟨?_, hclean⟩, htag', hrel,
      hown⟩
    show Holds _ _ _ _ _ _ ⟨_, _, Client.viewOf (Mem.tree m) (shadow w), _⟩
    rw [show Mem.tree m = tree w from htree]
    exact h2
  respond_ok := by
    intro t id op a w hi htag hpost
    obtain ⟨h1, h2⟩ := Interface.respond_ok (x := scene w) hi.client hpost.finished
    have htag' : M.client.tag (w.ghost.2.respond t) t = none := by
      show ((w.ghost.2.respond t).run t).map _ = _
      simp [Ghost.respond]
    obtain ⟨hinv, hrel, hown⟩ := Client.WInv.move (m := w.mem) hi rfl hpost.clean h1 h2
    exact ⟨(w.ghost.1, w.ghost.2.respond t), hinv, htag', hrel, hown⟩

/-- The ghost state of an empty map. -/
def Ghost.empty (M : Interface) : M.Ghost where
  log := Log.empty M.Op M.Ret
  run := fun _ => none
  st := fun _ => .blank
  live := fun _ => ∅
  debt := 0
  sweep := fun _ => none

/-- The memory of an empty map, where the attempts `full` to allocate a node fail. -/
def start (full : ℕ → Bool) : Mem :=
  ⟨{ TreeMem.empty with full := full }, LeafMem.empty⟩

lemma empty_map (e : ℕ) (k : Key) {l : Leaf} : Shadow.empty.forest.map e k ≠ some l := by
  simp [Shadow.empty, Forest.empty]

lemma start_inv (full : ℕ → Bool) (hfull : M.roomy → ∀ i, full i = false) :
    M.client.WInv ⟨start full, [], (Shadow.empty, Ghost.empty M)⟩ where
  tree := Shadow.empty_inv full
  client :=
    { log :=
        { log := Log.empty_ok M.spec, cur := rfl
          runs := fun _ _ hr => by simp [scene, Ghost.empty] at hr
          run_inj := fun _ _ _ _ hr => by simp [scene, Ghost.empty] at hr
          res_lt := fun _ _ hr => by simp [scene] at hr }
      leaf :=
        { keyed := fun e k _ hl => absurd hl (empty_map e k)
          mapped := fun e k _ hl => absurd hl (empty_map e k)
          marker := fun e k _ _ hl => absurd hl (empty_map e k)
          linked := fun _ hl => by simp [scene, Ghost.empty] at hl
          once := fun e _ k _ _ hl => absurd hl (empty_map e k)
          live := fun e k => ⟨fun hk => by simp [scene, Ghost.empty] at hk,
            fun ⟨_, hl, _⟩ => absurd hl (empty_map e k)⟩
          past := fun _ he => absurd he (Nat.not_lt_zero _)
          sweep_lt := fun _ he => absurd rfl he
          built := fun _ => by simp [scene, Ghost.empty, start, LeafMem.empty]
          removed := fun _ => by
            simp [scene, Ghost.empty, start, LeafMem.empty, LeafState.Removed]
          retired := fun _ => by simp [scene, Ghost.empty, start, LeafMem.empty]
          retired_nodup := List.nodup_nil }
      unused :=
        { freed := fun _ => by simp [scene, Ghost.empty, start, LeafMem.empty]
          freed_nodup := List.nodup_nil
          dropped := fun _ hl => by simp [scene, Ghost.empty] at hl }
      len :=
        ⟨by simp [scene, Ghost.empty, start, LeafMem.empty, LeafMem.len, total], fun _ => le_rfl⟩
      put := fun _ _ hb => by simp [scene, Ghost.empty, Log.empty, Log.chunk] at hb
      idle := fun _ _ => ⟨rfl, fun _ => rfl, fun _ h => by simp [scene, Ghost.empty] at h⟩
      roomy := hfull
      cache := fun _ _ h => by simp [scene, start, LeafMem.empty, InserterCache.new] at h
      still := fun _ => rfl
      sweeping := fun _ _ h => by simp [scene, Ghost.empty] at h }
  idle t _ := Shadow.empty_clean t
  taking _ _ _ h := by simp [shadow, Shadow.empty] at h
  clearing _ _ h := by simp [shadow, Shadow.empty] at h

end Verified

end Interface

end Artmap
