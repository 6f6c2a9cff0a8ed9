import Artmap.Map.Ledger
import Artmap.Ops.Clear
import Artmap.Ops.Remove
import Artmap.Ops.Shrink

/-!
# The steps of a map

Where an operation of the tree takes effect, or changes the memory around the tree, the map
takes a step of its ledger.  `Holds` says where a call stands: whether it has taken effect, what
it has counted, and which leaves are in its hands; each lemma of this file is one step from one
such state to the next, in the form in which the operations of the tree ask for it.
-/

namespace Artmap

namespace Log

variable {Op Ret : Type} {l : Log Op Ret} {a b : Entry Op Ret} {e f : ℕ}

lemma mem_chunk_body : b ∈ chunk { l with body := Function.update l.body e (l.body e ++ [a]) } f ↔
    b ∈ l.chunk f ∨ f = e ∧ b = a := by
  unfold chunk
  by_cases hf : f = e
  · subst hf
    simp only [Function.update_self, List.mem_append, List.mem_singleton, true_and]
    tauto
  · simp [hf]

lemma mem_chunk_last (h : l.last l.cur = []) :
    b ∈ chunk { l with last := Function.update l.last l.cur [a], cur := l.cur + 1 } f ↔
      b ∈ l.chunk f ∨ f = l.cur ∧ b = a := by
  unfold chunk
  by_cases hf : f = l.cur
  · subst hf
    simp [h]
  · simp [hf]

end Log

namespace View

variable {v : View} {e f : ℕ} {k key : Key} {o : Option Leaf}

lemma set_ne (h : ¬ (f = e ∧ k = key)) : (v.set e key o).map f k = v.map f k := by
  unfold set
  by_cases hf : f = e
  · subst hf
    have hk : k ≠ key := fun hk => h ⟨rfl, hk⟩
    simp [hk]
  · simp [hf]

end View

namespace Interface

variable {M : Interface} {t t' id lo e : ℕ} {op : M.Op} {a : M.Ret} {d c : ℤ} {key : Key}
  {l : Leaf} {old new : Option Leaf} {sw : Option ℕ} {x y : M.MapScene}
  {mine : Leaf → Option LeafState} {r : Running M.Op M.Ret} {h : List (Event M.Op M.Ret)}
  {v : View} {g : M.Ghost} {m : LeafMem}

/-- Where a call of thread `t` stands: it runs `r`, which was invoked in epoch `lo` or earlier,
has counted `d` too much, has the leaves `mine` to deal with, and clears epoch `sw`. -/
structure Holds (t : ℕ) (r : Running M.Op M.Ret) (lo : ℕ) (d : ℤ)
    (mine : Leaf → Option LeafState) (sw : Option ℕ) (x : M.MapScene) : Prop where
  run : x.ghost.run t = some r
  since : x.ghost.log.since r.id ≤ lo
  debt : x.ghost.debt t = d
  part : ∀ l, (x.ghost.st l).part t = mine l
  sweep : ∀ e, x.ghost.sweep e = some t ↔ sw = some e
  roomy : M.roomy → x.view.roomy

lemma Holds.stable (hr : Rely t x y) (hx : Holds t r lo d mine sw x) :
    Holds t r lo d mine sw y where
  run := hr.run.trans hx.run
  since := (hr.since r hx.run).trans_le hx.since
  debt := hr.debt.trans hx.debt
  part l := (hr.part l).trans (hx.part l)
  sweep e := (hr.sweep e).trans (hx.sweep e)
  roomy hm := hr.roomy.mpr (hx.roomy hm)

/-- `Holds` as an assertion. -/
def holds (t : ℕ) (r : Running M.Op M.Ret) (lo : ℕ) (d : ℤ) (mine : Leaf → Option LeafState)
    (sw : Option ℕ) : M.client.Assertion t where
  holds := Holds t r lo d mine sw
  stable := Holds.stable

/-! ## Taking effect -/

/-- A call takes effect in epoch `e`. -/
def Ghost.commit (g : M.Ghost) (t id : ℕ) (op : M.Op) (a : M.Ret) (e : ℕ) : M.Ghost :=
  { g with
    log := { g.log with body := Function.update g.log.body e (g.log.body e ++ [⟨id, op, a⟩]) }
    run := Function.update g.run t (some ⟨id, op, some a⟩) }

/-- A call ends the current epoch. -/
def Ghost.reset (g : M.Ghost) (t id : ℕ) (op : M.Op) (a : M.Ret) : M.Ghost :=
  { g with
    log := { g.log with
      last := Function.update g.log.last g.log.cur [⟨id, op, a⟩], cur := g.log.cur + 1 }
    run := Function.update g.run t (some ⟨id, op, some a⟩) }

lemma RunOk.pending_told {L : Log M.Op M.Ret} (hr : RunOk h L r) (a : M.Ret) :
    .res r.id a ∉ M.told h :=
  fun ha => hr.pending a (res_mem_told.mp ha).1

/-- A call that has taken effect. -/
lemma LogInv.runs_done (hi : LogInv h v g) (hr : g.run t = some ⟨id, op, none⟩)
    {l' : Log M.Op M.Ret} (hmem : ∀ f b, b ∈ l'.chunk f ↔ b ∈ g.log.chunk f ∨
      f = e ∧ b = ⟨id, op, a⟩) :
    (∀ t' r, Function.update g.run t (some ⟨id, op, some a⟩) t' = some r → RunOk h l' r) ∧
      ∀ t₁ t₂ r₁ r₂, Function.update g.run t (some ⟨id, op, some a⟩) t₁ = some r₁ →
        Function.update g.run t (some ⟨id, op, some a⟩) t₂ = some r₂ → r₁.id = r₂.id →
        t₁ = t₂ := by
  have hmine := hi.runs t _ hr
  have hid : ∀ t' r, Function.update g.run t (some ⟨id, op, some a⟩) t' = some r →
      ∃ r', g.run t' = some r' ∧ r'.id = r.id := by
    intro t' r hr'
    by_cases ht : t' = t
    · subst ht
      simp only [Function.update_self, Option.some.injEq] at hr'
      exact ⟨_, hr, hr' ▸ rfl⟩
    · exact ⟨r, by simpa [ht] using hr', rfl⟩
  refine ⟨fun t' r hr' => ?_, fun t₁ t₂ r₁ r₂ h₁ h₂ heq => ?_⟩
  · by_cases ht : t' = t
    · subst ht
      simp only [Function.update_self, Option.some.injEq] at hr'
      subst hr'
      refine ⟨hmine.inv, hmine.pending, by simp, fun b hb => ⟨e, (hmem e _).mpr (.inr ?_)⟩⟩
      obtain rfl : a = b := by simpa using hb
      exact ⟨rfl, rfl⟩
    · rw [Function.update_of_ne ht] at hr'
      have hold := hi.runs t' r hr'
      refine ⟨hold.inv, hold.pending, fun hn => ?_, fun b hb => ?_⟩
      · rintro ⟨f, b, hb, hbid⟩
        rcases (hmem f b).mp hb with hb | ⟨-, rfl⟩
        · exact hold.todo hn ⟨f, b, hb, hbid⟩
        · exact ht (hi.run_inj t' t r _ hr' hr hbid.symm)
      · obtain ⟨f, hf⟩ := hold.done b hb
        exact ⟨f, (hmem f _).mpr (.inl hf)⟩
  · obtain ⟨r₁', h3, h4⟩ := hid t₁ r₁ h₁
    obtain ⟨r₂', h5, h6⟩ := hid t₂ r₂ h₂
    exact hi.run_inj t₁ t₂ r₁' r₂' h3 h5 (h4.trans (heq.trans h6.symm))

lemma LogInv.commit (hi : LogInv h v g) (hr : g.run t = some ⟨id, op, none⟩)
    (hlo : g.log.since id ≤ e) (he : e ≤ v.cur) {s : Key → Option Leaf}
    (hstep : M.step (v.map e) op = (s, a)) :
    LogInv h { v with map := Function.update v.map e s } (g.commit t id op a e) := by
  have hmine := hi.runs t _ hr
  obtain ⟨h1, h2⟩ := hi.runs_done (e := e) (a := a) hr (fun f b => Log.mem_chunk_body)
  refine ⟨?_, hi.cur, h1, h2, hi.res_lt⟩
  have := hi.log.commit (a := ⟨id, op, a⟩) (he.trans hi.cur.symm.le) hlo
    (inv_mem_told.mpr hmine.inv) (hmine.todo rfl) hmine.pending_told (by simp [hstep])
  simp only [hstep] at this
  exact this

lemma LogInv.reset (hi : LogInv h v g) (hr : g.run t = some ⟨id, op, none⟩)
    (hstep : ∀ s, M.step s op = (fun _ => none, a)) :
    LogInv h v.detach (g.reset t id op a) := by
  have hmine := hi.runs t _ hr
  obtain ⟨h1, h2⟩ := hi.runs_done (e := g.log.cur) (a := a) hr
    (fun f b => Log.mem_chunk_last hi.log.open_last)
  refine ⟨?_, by show g.log.cur + 1 = v.cur + 1; rw [hi.cur], h1, h2, hi.res_lt⟩
  exact hi.log.resets (a := ⟨id, op, a⟩) (inv_mem_told.mpr hmine.inv) (hmine.todo rfl)
    hmine.pending_told hstep

/-! ## Counting -/

lemma total_debt (live : ℕ → Finset Key) (debt : ℕ →₀ ℤ) (cur t : ℕ) (d : ℤ) :
    total live (debt + Finsupp.single t d) cur = total live debt cur + d := by
  unfold total
  rw [Finsupp.sum_add_index' (fun _ => rfl) (fun _ _ _ => rfl), Finsupp.sum_single_index rfl,
    add_assoc]

lemma total_live (live : ℕ → Finset Key) (debt : ℕ →₀ ℤ) {cur e : ℕ} (he : e ≤ cur)
    (s : Finset Key) :
    total (Function.update live e s) debt cur =
      total live debt cur + s.card - (live e).card := by
  have hmem : e ∈ Finset.range (cur + 1) := by simpa using Nat.lt_succ_of_le he
  have hsum : ∑ f ∈ Finset.range (cur + 1), ((Function.update live e s f).card : ℤ) =
      ∑ f ∈ Finset.range (cur + 1), ((live f).card : ℤ) + s.card - (live e).card := by
    rw [← Finset.add_sum_erase _ _ hmem, ← Finset.add_sum_erase (Finset.range (cur + 1))
      (fun f => ((live f).card : ℤ)) hmem, Function.update_self,
      Finset.sum_congr rfl fun f hf => by rw [Function.update_of_ne (Finset.ne_of_mem_erase hf)]]
    ring
  unfold total
  rw [hsum]
  ring

lemma total_succ (live : ℕ → Finset Key) (debt : ℕ →₀ ℤ) {cur : ℕ} (hlive : live (cur + 1) = ∅) :
    total live debt (cur + 1) = total live debt cur := by
  unfold total
  rw [Finset.sum_range_succ _ (cur + 1), hlive]
  simp

lemma len_add (m : LeafMem) (t : ℕ) (d : ℤ) :
    (execLeaf t (.lenAdd d) m).2.len = m.len + d := by
  unfold LeafMem.len
  simp only [execLeaf]
  rw [← Finset.add_sum_erase _ _ (Finset.mem_univ (stripe t)), Function.update_self,
    ← Finset.add_sum_erase Finset.univ m.stripes (Finset.mem_univ (stripe t)),
    Finset.sum_congr rfl fun i hi => by rw [Function.update_of_ne (Finset.ne_of_mem_erase hi)]]
  ring

/-! ## Steps -/

/-- What has been published stays so. -/
lemma PutInv.step {g' : M.Ghost} (hp : PutInv g)
    (hlog : ∀ f b, b ∈ g'.log.chunk f → b ∈ g.log.chunk f ∨
      ∀ l, M.puts b.op b.ret = some l → (g'.st l).Published)
    (hst : ∀ l, (g.st l).Published → (g'.st l).Published) : PutInv g' := by
  intro f b hb l hl
  rcases hlog f b hb with hb | h
  · exact hst l (hp f b hb l hl)
  · exact h l hl

lemma PutInv.commit {g' : M.Ghost} (hp : PutInv g) (hlog : g'.log = g.log)
    (hnew : ∀ l, M.puts op a = some l → (g'.st l).Published)
    (hst : ∀ l, (g.st l).Published → (g'.st l).Published) : PutInv (g'.commit t id op a e) := by
  refine hp.step (fun f b hb => ?_) hst
  rcases Log.mem_chunk_body.mp hb with hb | ⟨-, rfl⟩
  · exact .inl (hlog ▸ hb)
  · exact .inr hnew

lemma PutInv.reset (hp : PutInv g) (hlast : g.log.last g.log.cur = [])
    (hputs : M.puts op a = none) : PutInv (g.reset t id op a) := by
  refine hp.step (fun f b hb => ?_) fun _ h => h
  rcases (Log.mem_chunk_last hlast).mp hb with hb | ⟨-, rfl⟩
  · exact .inl hb
  · exact .inr (by simp [hputs])

/-- A step of a running call. -/
lemma upd_of {Q : M.MapScene → Prop} (hi : Inv x) (hlog : LogInv x.hist v g)
    (hleaf : LeafInv m v g) (hlen : LenInv m v g) (hput : PutInv g)
    (hrely : ∀ t', t' ≠ t → Rely t' x ⟨m, x.hist, v, g⟩) (hrun : x.ghost.run t ≠ none)
    (htag : M.client.tag g t = M.client.tag x.ghost t) (hQ : Q ⟨m, x.hist, v, g⟩)
    (hcaches : m.caches = x.leafs.caches := by rfl)
    (hhinted : ∀ n w e p, x.view.hinted n w e p → v.hinted n w e p := by
      exact fun _ _ _ _ h => h)
    (hcur : v.cur = x.view.cur ∨ ∃ op, M.clears op := by exact .inl rfl)
    (hunused : UnusedInv m g := by exact hi.unused.mono rfl fun _ => .inl rfl)
    (hsweep : ∀ e, g.sweep e = some t → x.ghost.sweep e = some t ∨
      ∃ r, x.ghost.run t = some r ∧ M.clears r.op := by exact fun _ h => .inl h) :
    Client.Upd (C := M.client) t x m v Q := by
  have hother := hrely (t + 1) (by omega)
  refine ⟨g, ⟨hlog, hleaf, hunused, hlen, hput, fun t' ht' => ?_,
    fun hm => hother.roomy.mpr (hi.roomy hm), hi.cache.mono hcaches hhinted, fun hop => ?still,
    fun e t' he => ?sweeping⟩, hrely, htag, hQ⟩
  case still =>
    rcases hcur with hcur | ⟨op, ho⟩
    · exact hcur.trans (hi.still hop)
    · exact absurd ho (hop op)
  case sweeping =>
    by_cases ht : t' = t
    · subst ht
      obtain ⟨r, hr, hop⟩ : ∃ r, x.ghost.run t' = some r ∧ M.clears r.op :=
        (hsweep e he).elim (hi.sweeping e t') id
      have htag' : Option.map _ (g.run t') = Option.map _ (x.ghost.run t') := htag
      rw [hr] at htag'
      obtain ⟨r', hr', heq⟩ := Option.map_eq_some_iff.mp htag'
      exact ⟨r', hr', (Prod.mk.inj heq).2 ▸ hop⟩
    · obtain ⟨r, hr, hop⟩ := hi.sweeping e t' (((hrely t' ht).sweep e).mp he)
      exact ⟨r, (hrely t' ht).run.trans hr, hop⟩
  have hne : t' ≠ t := by
    rintro rfl
    have : M.client.tag g t' = none := by
      show Option.map _ _ = none
      rw [ht']
      rfl
    rw [htag] at this
    exact hrun (Option.map_eq_none_iff.mp this)
  have hr := hrely t' hne
  exact hr.idle (hi.idle t' (hr.run.symm.trans ht'))

lemma Holds.run_ne (hx : Holds t r lo d mine sw x) : x.ghost.run t ≠ none := by
  rw [hx.run]
  simp

lemma tag_done (hr : x.ghost.run t = some ⟨id, op, none⟩)
    (hg : g.run = Function.update x.ghost.run t (some ⟨id, op, some a⟩)) :
    M.client.tag g t = M.client.tag x.ghost t := by
  show Option.map _ _ = Option.map _ _
  rw [hg, hr, Function.update_self]
  rfl

/-- A call takes effect without a change of the map. -/
lemma can_answer (hi : Inv x) (hx : Holds t ⟨id, op, none⟩ lo d mine sw x)
    (hlo : x.ghost.log.since id ≤ e) (he : e ≤ x.view.cur)
    (hstep : M.step (x.view.map e) op = (x.view.map e, a)) (hputs : M.puts op a = none) :
    Client.Upd t x x.leafs x.view (holds t ⟨id, op, some a⟩ lo d mine sw) := by
  have hlog := hi.log.commit hx.run hlo he hstep
  rw [Function.update_eq_self] at hlog
  refine upd_of hi hlog
    ⟨hi.leaf.keyed, hi.leaf.mapped, hi.leaf.marker, hi.leaf.linked, hi.leaf.once, hi.leaf.live,
      hi.leaf.past, hi.leaf.sweep_lt, hi.leaf.built, hi.leaf.removed, hi.leaf.retired,
      hi.leaf.retired_nodup⟩
    ⟨hi.len.len, hi.len.debt⟩ (hi.put.commit rfl (by simp [hputs]) fun _ h => h)
    (fun t' ht' => ?_) hx.run_ne (tag_done hx.run rfl)
    ⟨Function.update_self _ _ _, hx.since, hx.debt, hx.part, hx.sweep, hx.roomy⟩
  exact { Rely.refl t' x with run := Function.update_of_ne ht' _ _, since := fun _ _ => rfl }

/-- A call that has not taken effect may do so in the current epoch. -/
lemma Inv.since_le (hi : Inv x) (hx : Holds t ⟨id, op, none⟩ lo d mine sw x) :
    x.ghost.log.since id ≤ x.view.cur :=
  (hi.log.log.since_le id op (inv_mem_told.mpr (hi.log.runs t _ hx.run).inv)).trans
    hi.log.cur.le

/-- How many entries a slot is. -/
def count (o : Option Leaf) : ℤ :=
  if o = none then 0 else 1

/-- The states of the leaves after `new` has taken the place of `old`. -/
def LeafState.replace {α : Type} (out cut : α) (old new : Option Leaf) (f : Leaf → α) (l : Leaf) :
    α :=
  if new = some l then out else if old = some l then cut else f l

/-- The map changes at one key. -/
noncomputable def Ghost.set (g : M.Ghost) (t e : ℕ) (key : Key) (old new : Option Leaf) : M.Ghost :=
  { g with
    st := LeafState.replace .linked (.cut t) old new g.st
    live := Function.update g.live e
      (if new = none then (g.live e).erase key else Insert.insert key (g.live e))
    debt := g.debt + Finsupp.single t (count old - count new) }

section Set

variable (hi : LeafInv m v g) (hold : v.map e key = old) (hfr : ¬ v.frozen e key)
  (hnew : ∀ l, new = some l → l.key = key ∧ g.st l = .held t)
include hi hold hfr

/-- What is mapped to under a key that is not frozen is linked. -/
lemma LeafInv.linked_of : ∀ l, old = some l → l.key = key ∧ g.st l = .linked := by
  rintro l rfl
  refine ⟨hi.keyed e key l hold, ?_⟩
  rcases hi.mapped e key l hold with h1 | ⟨-, h2, -⟩
  · exact h1
  · exact absurd h2 hfr

include hnew

/-- Elsewhere in the map nothing changes. -/
lemma LeafInv.replace_of_map {f : ℕ} {k : Key} (hne : ¬ (f = e ∧ k = key))
    (hl : v.map f k = some l) :
    LeafState.replace .linked (.cut t) old new g.st l = g.st l := by
  unfold LeafState.replace
  split_ifs with h1 h2
  · rcases hi.mapped f k l hl with h3 | ⟨-, -, h3⟩ <;> rw [(hnew l h1).2] at h3
    · cases h3
    · exact h3.elim
  · refine absurd ⟨hi.once f e k key l hl (hold.trans h2), ?_⟩ hne
    exact (hi.keyed f k l hl).symm.trans (hi.linked_of hold hfr l h2).1
  · rfl

lemma LeafInv.replace_cases (l : Leaf) :
    LeafState.replace .linked (.cut t) old new g.st l = g.st l ∨
      (g.st l = .held t ∨ g.st l = .linked) ∧
        (LeafState.replace .linked (.cut t) old new g.st l = .linked ∨
          LeafState.replace .linked (.cut t) old new g.st l = .cut t) := by
  unfold LeafState.replace
  split_ifs with h1 h2
  · exact .inr ⟨.inl (hnew l h1).2, .inl rfl⟩
  · exact .inr ⟨.inr (hi.linked_of hold hfr l h2).2, .inr rfl⟩
  · exact .inl rfl

lemma LeafInv.set : LeafInv m (v.set e key new) (g.set t e key old new) where
  keyed f k l hl := by
    by_cases hk : f = e ∧ k = key
    · obtain ⟨rfl, rfl⟩ := hk
      exact (hnew l (by simpa [View.set] using hl)).1
    · exact hi.keyed f k l (by rwa [View.set_ne hk] at hl)
  mapped f k l hl := by
    by_cases hk : f = e ∧ k = key
    · obtain ⟨rfl, rfl⟩ := hk
      have : new = some l := by simpa [View.set] using hl
      exact .inl (if_pos this)
    · rw [View.set_ne hk] at hl
      show LeafState.replace _ _ _ _ _ l = _ ∨
        _ ∧ _ ∧ LeafState.Removed (LeafState.replace _ _ _ _ _ l)
      rw [hi.replace_of_map hold hfr hnew hk hl]
      exact hi.mapped f k l hl
  marker f k l t' hl hm := by
    by_cases hk : f = e ∧ k = key
    · obtain ⟨rfl, rfl⟩ := hk
      have : new = some l := by simpa [View.set] using hl
      simp [Ghost.set, LeafState.replace, this] at hm
    · rw [View.set_ne hk] at hl
      have hm' : LeafState.replace _ _ _ _ _ l = _ := hm
      rw [hi.replace_of_map hold hfr hnew hk hl] at hm'
      exact hi.marker f k l t' hl hm'
  linked l hl := by
    by_cases h1 : new = some l
    · exact ⟨e, by simp [View.set, (hnew l h1).1, h1]⟩
    by_cases h2 : old = some l
    · exact absurd hl (by simp [Ghost.set, LeafState.replace, h1, h2])
    obtain ⟨f, hf⟩ := hi.linked l (by simpa [Ghost.set, LeafState.replace, h1, h2] using hl)
    refine ⟨f, ?_⟩
    rw [View.set_ne]
    · exact hf
    · rintro ⟨rfl, hk⟩
      rw [hk] at hf
      exact h2 (hold.symm.trans hf)
  once f f' k k' l hl hl' := by
    have hheld : ∀ {f k}, new = some l → v.map f k ≠ some l := by
      intro f k hn hm
      rcases hi.mapped f k l hm with h3 | ⟨-, -, h3⟩ <;> rw [(hnew l hn).2] at h3
      · cases h3
      · exact h3.elim
    by_cases hk : f = e ∧ k = key <;> by_cases hk' : f' = e ∧ k' = key
    · rw [hk.1, hk'.1]
    · rw [View.set_ne hk'] at hl'
      obtain ⟨rfl, rfl⟩ := hk
      exact absurd hl' (hheld (by simpa [View.set] using hl))
    · rw [View.set_ne hk] at hl
      obtain ⟨rfl, rfl⟩ := hk'
      exact absurd hl (hheld (by simpa [View.set] using hl'))
    · rw [View.set_ne hk] at hl
      rw [View.set_ne hk'] at hl'
      exact hi.once f f' k k' l hl hl'
  live f k := by
    by_cases hk : f = e ∧ k = key
    · obtain ⟨rfl, rfl⟩ := hk
      cases hn : new with
      | none => simp [Ghost.set, View.set]
      | some l => simp [Ghost.set, View.set, LeafState.replace]
    · have hmem : k ∈ (g.set t e key old new).live f ↔ k ∈ g.live f := by
        by_cases hf : f = e
        · subst hf
          have hk' : k ≠ key := fun h => hk ⟨rfl, h⟩
          simp only [Ghost.set, Function.update_self]
          split_ifs <;> simp [hk']
        · simp [Ghost.set, hf]
      rw [hmem, hi.live f k, View.set_ne hk]
      refine exists_congr fun l => and_congr_right fun hl => ?_
      show _ ↔ LeafState.replace _ _ _ _ _ l = _
      rw [hi.replace_of_map hold hfr hnew hk hl]
  past f hf := by
    rcases hi.past f hf with h1 | ⟨h1, h2⟩
    · exact .inl h1
    · refine .inr ⟨h1, ?_⟩
      have hne : f ≠ e := by
        rintro rfl
        exact hfr (h1 key)
      simpa [Ghost.set, hne] using h2
  sweep_lt := hi.sweep_lt
  built l := by
    rw [hi.built l]
    show _ ↔ LeafState.replace _ _ _ _ _ l ≠ _
    rcases hi.replace_cases hold hfr hnew l with h | ⟨h1 | h1, h2 | h2⟩
    · rw [h]
    all_goals simp [h1, h2]
  removed l := by
    rw [hi.removed l]
    show _ ↔ LeafState.Removed (LeafState.replace _ _ _ _ _ l)
    rcases hi.replace_cases hold hfr hnew l with h | ⟨h1 | h1, h2 | h2⟩
    · rw [h]
    all_goals simp [h1, h2, LeafState.Removed]
  retired l := by
    rw [hi.retired l]
    show _ ↔ LeafState.replace _ _ _ _ _ l = _
    rcases hi.replace_cases hold hfr hnew l with h | ⟨h1 | h1, h2 | h2⟩
    · rw [h]
    all_goals simp [h1, h2]
  retired_nodup := hi.retired_nodup

lemma LeafInv.set_len (hlen : LenInv m v g) (he : e ≤ v.cur)
    (hd : 0 ≤ g.debt t + (count old - count new)) :
    LenInv m (v.set e key new) (g.set t e key old new) where
  len := by
    have hkey : key ∈ g.live e ↔ old ≠ none := by
      rw [hi.live e key, hold]
      constructor
      · rintro ⟨l, hl, -⟩
        simp [hl]
      · intro hne
        obtain ⟨l, rfl⟩ := Option.ne_none_iff_exists'.mp hne
        exact ⟨l, rfl, (hi.linked_of hold hfr l rfl).2⟩
    have hcard : (((if new = none then (g.live e).erase key else Insert.insert key (g.live e) :
        Finset Key)).card : ℤ) = (g.live e).card + (count new - count old) := by
      by_cases ho : old = none <;> by_cases hn : new = none
      · rw [if_pos hn, Finset.erase_eq_of_notMem (by simp [hkey, ho])]
        simp [count, ho, hn]
      · rw [if_neg hn, Finset.card_insert_of_notMem (by simp [hkey, ho])]
        simp [count, ho, hn]
      · rw [if_pos hn, Finset.card_erase_of_mem (hkey.mpr ho)]
        have := Finset.card_pos.mpr ⟨key, hkey.mpr ho⟩
        simp only [count, ho, hn, if_true, if_false]
        omega
      · rw [if_neg hn, Finset.insert_eq_of_mem (hkey.mpr ho)]
        simp [count, ho, hn]
    show m.len = total (Function.update g.live e _) (g.debt + Finsupp.single t _) v.cur
    rw [total_debt, total_live _ _ he, hcard, hlen.len]
    ring
  debt t' := by
    by_cases ht : t' = t
    · subst ht
      simpa [Ghost.set] using hd
    · simpa [Ghost.set, Finsupp.single_apply, Ne.symm ht] using hlen.debt t'

end Set

/-- A call takes effect by a change of the map at one key. -/
lemma can_set (hi : Inv x) (hx : Holds t ⟨id, op, none⟩ lo d mine sw x) (hlo : lo ≤ e)
    (he : e ≤ x.view.cur) (hold : x.view.map e key = old) (hfr : ¬ x.view.frozen e key)
    (hnew : ∀ l, new = some l → l.key = key ∧ mine l = some (.held t))
    (hd : d + (count old - count new) = c) (hc : 0 ≤ c) {mine' : Leaf → Option LeafState}
    (hmine : ∀ l, mine' l = LeafState.replace none (some (.cut t)) old new mine l)
    (hstep : M.step (x.view.map e) op = (Function.update (x.view.map e) key new, a))
    (hputs : ∀ l, M.puts op a = some l → new = some l) :
    Client.Upd t x x.leafs (x.view.set e key new) (holds t ⟨id, op, some a⟩ lo c mine' sw) := by
  have hnew' : ∀ l, new = some l → l.key = key ∧ x.ghost.st l = .held t := fun l hl =>
    ⟨(hnew l hl).1, (LeafState.part_eq_some.mp ((hx.part l).trans (hnew l hl).2)).1⟩
  have hleaf := hi.leaf.set hold hfr hnew'
  have hlen := hi.leaf.set_len hold hfr hnew' hi.len he (by rw [hx.debt, hd]; exact hc)
  have hcases := hi.leaf.replace_cases hold hfr hnew'
  have hlog := hi.log.commit hx.run (hx.since.trans hlo) he hstep
  have hpub : ∀ l, (x.ghost.st l).Published →
      ((x.ghost.set t e key old new).st l).Published := by
    intro l hl
    show LeafState.Published (LeafState.replace _ _ _ _ _ l)
    rcases hcases l with h | ⟨-, h | h⟩ <;> rw [h]
    · exact hl
    all_goals trivial
  have hunused : UnusedInv x.leafs ((x.ghost.set t e key old new).commit t id op a e) := by
    refine hi.unused.mono rfl fun l => ?_
    rcases hcases l with h | ⟨h1 | h1, h2 | h2⟩
    · exact .inl h
    all_goals exact .inr ⟨by simp [h1, LeafState.Unused], by
      show ¬ LeafState.Unused (LeafState.replace _ _ _ _ _ l)
      simp [h2, LeafState.Unused]⟩
  refine upd_of (g := (x.ghost.set t e key old new).commit t id op a e) hi
    ⟨hlog.log, hlog.cur, hlog.runs, hlog.run_inj, hlog.res_lt⟩
    ⟨hleaf.keyed, hleaf.mapped, hleaf.marker, hleaf.linked, hleaf.once, hleaf.live, hleaf.past,
      hleaf.sweep_lt, hleaf.built, hleaf.removed, hleaf.retired, hleaf.retired_nodup⟩
    ⟨hlen.len, hlen.debt⟩ (hi.put.commit rfl (fun l hl => ?_) hpub) (fun t' ht' => ?_)
    hx.run_ne (tag_done hx.run rfl) ?_ rfl (fun _ _ _ _ h => h) (.inl rfl) hunused
  · show LeafState.Published (LeafState.replace _ _ _ _ _ l)
    rw [LeafState.replace, if_pos (hputs l hl)]
    trivial
  · refine
      { run := Function.update_of_ne ht' _ _, since := fun _ _ => rfl, part := fun l => ?_
        removed := fun l hl => ?_, published := hpub, debt := ?_, sweep := fun _ => Iff.rfl
        cur := le_rfl, frozen := fun f k hk => ⟨hk, View.set_ne ?_⟩
        swept := fun f _ k l hl => ?_, roomy := rfl }
    · show LeafState.part t' (LeafState.replace _ _ _ _ _ l) = _
      rcases hcases l with h | ⟨h1 | h1, h2 | h2⟩
      · rw [h]
      all_goals simp [h1, h2, LeafState.part, LeafState.owner, ht'.symm]
    · show LeafState.Removed (LeafState.replace _ _ _ _ _ l)
      rcases hcases l with h | ⟨h1 | h1, -⟩
      · rwa [h]
      all_goals simp [h1, LeafState.Removed] at hl
    · show (x.ghost.debt + Finsupp.single t (count old - count new) : ℕ →₀ ℤ) t' = _
      simp [ht'.symm]
    · rintro ⟨rfl, rfl⟩
      exact hfr hk
    · by_cases hk : f = e ∧ k = key
      · obtain ⟨rfl, rfl⟩ := hk
        have : new = some l := by simpa [View.set] using hl
        exact .inl (if_pos this)
      · rw [View.set_ne hk] at hl
        exact .inr ⟨hl, hi.leaf.replace_of_map hold hfr hnew' hk hl⟩
  · refine ⟨Function.update_self _ _ _, hx.since, ?_, fun l => ?_, hx.sweep, hx.roomy⟩
    · show (x.ghost.debt + Finsupp.single t (count old - count new) : ℕ →₀ ℤ) t = _
      simp [hx.debt, ← hd]
    · show LeafState.part t (LeafState.replace _ _ _ _ _ l) = _
      rw [hmine]
      unfold LeafState.replace
      split_ifs
      · rfl
      · simp [LeafState.part, LeafState.owner]
      · exact hx.part l

/-! ### Around the tree -/

/-- The counter changes. -/
lemma step_count {d' : ℤ} (hd : d + c = d') (h0 : 0 ≤ d') : M.client.LeafStep t (.lenAdd c)
    (holds t r lo d mine sw) (holds t r lo d' mine sw) := by
  intro x hi hx
  refine ⟨trivial, upd_of (g := { x.ghost with debt := x.ghost.debt + Finsupp.single t c }) hi
    ⟨hi.log.log, hi.log.cur, hi.log.runs, hi.log.run_inj, hi.log.res_lt⟩
    ⟨hi.leaf.keyed, hi.leaf.mapped, hi.leaf.marker, hi.leaf.linked, hi.leaf.once, hi.leaf.live,
      hi.leaf.past, hi.leaf.sweep_lt, hi.leaf.built, hi.leaf.removed, hi.leaf.retired,
      hi.leaf.retired_nodup⟩
    ⟨?_, fun t' => ?_⟩ hi.put (fun t' ht' => { Rely.refl t' x with debt := ?_ }) hx.run_ne rfl
    ⟨hx.run, hx.since, ?_, hx.part, hx.sweep, hx.roomy⟩⟩
  · rw [len_add, total_debt, hi.len.len]
  · by_cases ht : t' = t
    · subst ht
      simpa [hx.debt, hd] using h0
    · simpa [Finsupp.single_apply, Ne.symm ht] using hi.len.debt t'
  · simp [ht'.symm]
  · simp [hx.debt, hd]

/-- The state of a leaf that is not linked changes. -/
lemma LeafInv.restate {s : LeafState} {m' : LeafMem} (hi : LeafInv m v g)
    (hs : g.st l ≠ .linked ∧ g.st l ≠ .blank) (hs' : s ≠ .linked ∧ s ≠ .blank)
    (hrem : (g.st l).Removed → s.Removed)
    (hmark : ∀ t' e k, s = .marked t' → v.map e k = some l → g.sweep e = some t')
    (hbuilt : m'.built = m.built)
    (hremoved : ∀ l', m'.removed l' = true ↔ (Function.update g.st l s l').Removed)
    (hret : ∀ l', l' ∈ m'.retired ↔ Function.update g.st l s l' = .retired)
    (hnodup : m'.retired.Nodup) :
    LeafInv m' v { g with st := Function.update g.st l s } where
  keyed := hi.keyed
  mapped e k l' hl := by
    have h := hi.mapped e k l' hl
    by_cases hll : l' = l
    · subst hll
      rcases h with h | ⟨h1, h2, h3⟩
      · exact absurd h hs.1
      · exact .inr ⟨h1, h2, by simpa using hrem h3⟩
    · simpa [hll] using h
  marker e k l' t' hl hm := by
    by_cases hll : l' = l
    · subst hll
      exact hmark t' e k (by simpa using hm) hl
    · exact hi.marker e k l' t' hl (by simpa [hll] using hm)
  linked l' hl := by
    have hll : l' ≠ l := by
      rintro rfl
      exact hs'.1 (by simpa using hl)
    exact hi.linked l' (by simpa [hll] using hl)
  once := hi.once
  live e k := by
    rw [hi.live e k]
    refine exists_congr fun l' => and_congr_right fun _ => ?_
    by_cases hll : l' = l
    · subst hll
      simp [hs.1, hs'.1]
    · simp [hll]
  past := hi.past
  sweep_lt := hi.sweep_lt
  built l' := by
    rw [hbuilt, hi.built l']
    by_cases hll : l' = l
    · subst hll
      simp [hs.2, hs'.2]
    · simp [hll]
  removed := hremoved
  retired := hret
  retired_nodup := hnodup

/-- The other threads see nothing of it, if the leaf is in the hands of none of them. -/
lemma Rely.restate {s : LeafState} {m' : LeafMem}
    (hpart : (x.ghost.st l).part t = none ∧ s.part t = none)
    (hrem : (x.ghost.st l).Removed → s.Removed) (hpub : (x.ghost.st l).Published → s.Published)
    (hswept : ∀ e k, x.ghost.sweep e = some t → x.view.map e k ≠ some l) :
    Rely t x ⟨m', x.hist, x.view, { x.ghost with st := Function.update x.ghost.st l s }⟩ := by
  refine { Rely.refl t x with part := fun l' => ?_, removed := fun l' h => ?_
                              published := fun l' h => ?_, swept := fun e he k l' hl' => ?_ }
  · by_cases hll : l' = l
    · subst hll
      simp [hpart]
    · simp [hll]
  · by_cases hll : l' = l
    · subst hll
      simpa using hrem h
    · simpa [hll] using h
  · by_cases hll : l' = l
    · subst hll
      simpa using hpub h
    · simpa [hll] using h
  · refine .inr ⟨hl', Function.update_of_ne ?_ _ _⟩
    rintro rfl
    exact hswept e k he hl'

lemma Holds.restate {s : LeafState} {m' : LeafMem} (hx : Holds t r lo d mine sw x) :
    Holds t r lo d (Function.update mine l (s.part t)) sw
      ⟨m', x.hist, x.view, { x.ghost with st := Function.update x.ghost.st l s }⟩ where
  run := hx.run
  since := hx.since
  debt := hx.debt
  part l' := by
    by_cases hll : l' = l
    · subst hll
      simp
    · simpa [hll] using hx.part l'
  sweep := hx.sweep
  roomy := hx.roomy

/-- A leaf in the hands of a thread is dealt with. -/
lemma can_restate {s : LeafState} {m' : LeafMem} (hi : Inv x) (hx : Holds t r lo d mine sw x)
    {s₀ : LeafState} (hl : mine l = some s₀) (hs₀ : s₀ = .cut t ∨ s₀ = .marked t)
    (hs : s.Removed) (hrel : s = .retired ∨ s = .marked t)
    (hlen : m'.len = x.leafs.len) (hbuilt : m'.built = x.leafs.built)
    (hremoved : ∀ l', m'.removed l' = true ↔ (Function.update x.ghost.st l s l').Removed)
    (hret : ∀ l', l' ∈ m'.retired ↔ Function.update x.ghost.st l s l' = .retired)
    (hnodup : m'.retired.Nodup) (hfreed : m'.freed = x.leafs.freed)
    (hcaches : m'.caches = x.leafs.caches) :
    Client.Upd (C := M.client) t x m' x.view fun z =>
      Holds t r lo d (Function.update mine l (s.part t)) sw z ∧
        z = ⟨m', x.hist, x.view, { x.ghost with st := Function.update x.ghost.st l s }⟩ := by
  obtain ⟨hst, -⟩ := LeafState.part_eq_some.mp ((hx.part l).trans hl)
  -- A leaf in the hands of a thread is in no epoch that another clears.
  have hmap : ∀ e k, x.view.map e k = some l → x.ghost.sweep e = some t := by
    intro e k hek
    rcases hi.leaf.mapped e k l hek with h | ⟨-, -, h⟩
    · rcases hs₀ with rfl | rfl <;> simp [hst] at h
    · rcases hs₀ with rfl | rfl
      · simp [hst, LeafState.Removed] at h
      · exact hi.leaf.marker e k l t hek hst
  have hother : ∀ t', t' ≠ t → (x.ghost.st l).part t' = none ∧ s.part t' = none := by
    intro t' ht'
    refine ⟨LeafState.part_of_ne ?_ ht', ?_⟩
    · rcases hs₀ with rfl | rfl <;> rw [hst] <;> rfl
    · rcases hrel with rfl | rfl
      · rfl
      · exact LeafState.part_of_ne rfl ht'
  have hrely : ∀ t', t' ≠ t →
      Rely t' x ⟨m', x.hist, x.view, { x.ghost with st := Function.update x.ghost.st l s }⟩ :=
    fun t' ht' => Rely.restate (hother t' ht') (fun _ => hs) (fun _ => hs.published)
      fun e k he hek => ht' (Option.some.inj (he.symm.trans (hmap e k hek)))
  have hunused : UnusedInv m' { x.ghost with st := Function.update x.ghost.st l s } := by
    refine hi.unused.mono hfreed fun l' => ?_
    by_cases hll : l' = l
    · subst hll
      refine .inr ⟨?_, ?_⟩
      · rcases hs₀ with rfl | rfl <;> simp [hst, LeafState.Unused]
      · rcases hrel with rfl | rfl <;> simp [LeafState.Unused]
    · exact .inl (Function.update_of_ne hll _ _)
  refine upd_of (g := { x.ghost with st := Function.update x.ghost.st l s }) hi
    ⟨hi.log.log, hi.log.cur, hi.log.runs, hi.log.run_inj, hi.log.res_lt⟩
    (hi.leaf.restate ⟨?_, ?_⟩ ⟨?_, ?_⟩ (fun _ => hs) ?_ hbuilt hremoved hret hnodup)
    ⟨hlen.trans hi.len.len, hi.len.debt⟩
    (hi.put.step (fun _ _ h => .inl h) (hrely (t + 1) (by omega)).published)
    hrely hx.run_ne rfl ⟨hx.restate, rfl⟩ hcaches (fun _ _ _ _ h => h) (.inl rfl) hunused
  · rcases hs₀ with rfl | rfl <;> simp [hst]
  · rcases hs₀ with rfl | rfl <;> simp [hst]
  · rintro rfl
    exact hs
  · rintro rfl
    exact hs
  · rintro t' e k rfl hek
    rcases hrel with h | h
    · cases h
    · obtain rfl : t' = t := by simpa using h
      exact hmap e k hek

/-- A leaf that was cut is marked. -/
lemma step_mark (hl : mine l = some (.cut t)) : M.client.LeafStep t (.markRemoved l)
    (holds t r lo d mine sw) (holds t r lo d (Function.update mine l (some (.marked t))) sw) := by
  intro x hi hx
  have hst := (LeafState.part_eq_some.mp ((hx.part l).trans hl)).1
  refine ⟨trivial, Client.Upd.mono (can_restate (s := .marked t) hi hx hl (.inl rfl) trivial
    (.inr rfl) rfl rfl (fun l' => ?_) (fun l' => ?_) hi.leaf.retired_nodup rfl rfl) fun z ⟨hz, _⟩ =>
      ?_⟩
  · by_cases hll : l' = l
    · subst hll
      simp [execLeaf, LeafState.Removed]
    · simpa [execLeaf, hll] using hi.leaf.removed l'
  · by_cases hll : l' = l
    · subst hll
      simp [execLeaf, hi.leaf.retired l', hst]
    · simpa [execLeaf, hll] using hi.leaf.retired l'
  · rwa [show (LeafState.marked t).part t = some (.marked t) by
      simp [LeafState.part, LeafState.owner]] at hz

lemma can_retire (hi : Inv x) (hx : Holds t r lo d mine sw x) (hl : mine l = some (.marked t)) :
    Client.Upd (C := M.client) t x (execLeaf t (.retireLeaf l) x.leafs).2 x.view fun z =>
      Holds t r lo d (Function.update mine l none) sw z ∧
      z = ⟨(execLeaf t (.retireLeaf l) x.leafs).2, x.hist, x.view,
        { x.ghost with st := Function.update x.ghost.st l .retired }⟩ := by
  have hst := (LeafState.part_eq_some.mp ((hx.part l).trans hl)).1
  refine can_restate (s := .retired) hi hx hl (.inr rfl) trivial (.inl rfl) rfl rfl
    (fun l' => ?_) (fun l' => ?_) ?_ rfl rfl
  · by_cases hll : l' = l
    · subst hll
      simp [execLeaf, hi.leaf.removed l', hst, LeafState.Removed]
    · simpa [execLeaf, hll] using hi.leaf.removed l'
  · by_cases hll : l' = l
    · subst hll
      simp [execLeaf]
    · simpa [execLeaf, hll] using hi.leaf.retired l'
  · refine List.Nodup.append hi.leaf.retired_nodup (by simp) ?_
    simp [hi.leaf.retired l, hst]

/-- A leaf that was marked is retired. -/
lemma step_retire (hl : mine l = some (.marked t)) : M.client.LeafStep t (.retireLeaf l)
    (holds t r lo d mine sw) (holds t r lo d (Function.update mine l none) sw) :=
  fun _ hi hx => ⟨trivial, (can_retire hi hx hl).mono fun _ hz => hz.1⟩

/-- One leaf to deal with. -/
def only (l : Leaf) (s : LeafState) (l' : Leaf) : Option LeafState :=
  if l' = l then some s else none

lemma only_self {s : LeafState} : only l s l = some s := if_pos rfl

lemma only_held : ∀ l' s, only l (.held t) l' = some s → s = .held t := by
  intro l' s hs
  by_cases hl : l' = l
  · simpa [only, hl] using hs.symm
  · simp [only, hl] at hs

lemma step_mark_only : M.client.LeafStep t (.markRemoved l)
    (holds t r lo d (only l (.cut t)) sw) (holds t r lo d (only l (.marked t)) sw) := by
  have hmine : Function.update (only l (.cut t)) l (some (.marked t)) = only l (.marked t) := by
    funext l'
    by_cases hl : l' = l <;> simp [only, hl]
  rw [← hmine]
  exact step_mark only_self

lemma step_retire_only : M.client.LeafStep t (.retireLeaf l)
    (holds t r lo d (only l (.marked t)) sw) (holds t r lo d (fun _ => none) sw) := by
  have hmine : Function.update (only l (.marked t)) l none = fun _ => none := by
    funext l'
    by_cases hl : l' = l <;> simp [only, hl]
  rw [← hmine]
  exact step_retire only_self

/-! ## Clearing -/

/-- The leaves of a clear that are still to be retired. -/
def markedBy (t : ℕ) (U : List Leaf) (l : Leaf) : Option LeafState :=
  if l ∈ U then some (.marked t) else none

/-- Thread `t` clears epoch `e`; it has marked the leaves of the keys `T`, `c` in number, and is
to retire the leaves `U` of them. -/
structure Sweeps (t : ℕ) (r : Running M.Op M.Ret) (lo e : ℕ) (T : Key → Prop) (U : List Leaf)
    (c : ℤ) (x : M.MapScene) : Prop where
  holds : Holds t r lo c (markedBy t U) (some e) x
  nodup : U.Nodup
  taken : ∀ k, T k → x.view.frozen e k ∧ ∀ l, x.view.map e k = some l → (x.ghost.st l).Removed
  rest : ∀ k l, x.view.map e k = some l → ¬ T k → x.ghost.st l = .linked

/-- `Sweeps` as an assertion. -/
def sweeps (t : ℕ) (r : Running M.Op M.Ret) (lo e : ℕ) (T : Key → Prop) (U : List Leaf) (c : ℤ) :
    M.client.Assertion t where
  holds := Sweeps t r lo e T U c
  stable hr hx :=
    { holds := hx.holds.stable hr
      nodup := hx.nodup
      taken := fun k hk => by
        obtain ⟨h1, h2⟩ := hx.taken k hk
        obtain ⟨h3, h4⟩ := hr.frozen e k h1
        exact ⟨h3, fun l hl => hr.removed l (h2 l (h4 ▸ hl))⟩
      rest := fun k l hl hk => by
        rcases hr.swept e ((hx.holds.sweep e).mpr rfl) k l hl with h | ⟨h1, h2⟩
        · exact h
        · exact h2.trans (hx.rest k l h1 hk) }

/-- The leaf `l` is the next to be marked. -/
structure Counts (t : ℕ) (r : Running M.Op M.Ret) (lo e : ℕ) (T : Key → Prop) (U : List Leaf)
    (c : ℤ) (l : Leaf) (x : M.MapScene) : Prop where
  sweeps : Sweeps t r lo e T U c x
  map : x.view.map e l.key = some l
  frozen : x.view.frozen e l.key
  new : ¬ T l.key

def counts (t : ℕ) (r : Running M.Op M.Ret) (lo e : ℕ) (T : Key → Prop) (U : List Leaf) (c : ℤ)
    (l : Leaf) : M.client.Assertion t where
  holds := Counts t r lo e T U c l
  stable hr hx :=
    { sweeps := (Interface.sweeps t r lo e T U c).stable hr hx.sweeps
      map := ((hr.frozen e _ hx.frozen).2).trans hx.map
      frozen := (hr.frozen e _ hx.frozen).1
      new := hx.new }

/-- Leaf `l` of epoch `e` is marked by thread `t`, which clears that epoch. -/
noncomputable def Ghost.mark (g : M.Ghost) (t e : ℕ) (l : Leaf) : M.Ghost :=
  { g with
    st := Function.update g.st l (.marked t)
    live := Function.update g.live e ((g.live e).erase l.key)
    debt := g.debt + Finsupp.single t 1 }

lemma Ghost.mark_self : (g.mark t e l).st l = .marked t :=
  Function.update_self ..

lemma Ghost.mark_ne {l' : Leaf} (h : l' ≠ l) : (g.mark t e l).st l' = g.st l' :=
  Function.update_of_ne h ..

/-- What was published stays so. -/
lemma Ghost.mark_published {l' : Leaf} (h : (g.st l').Published) :
    ((g.mark t e l).st l').Published := by
  by_cases hll : l' = l
  · subst hll
    rw [mark_self]
    trivial
  · rwa [mark_ne hll]

/-- What was marked stays so. -/
lemma Ghost.mark_removed {l' : Leaf} (h : (g.st l').Removed) :
    ((g.mark t e l).st l').Removed := by
  by_cases hll : l' = l
  · subst hll
    rw [mark_self]
    trivial
  · rwa [mark_ne hll]

section Mark

variable (hi : LeafInv m v g) (hmap : v.map e l.key = some l) (hst : g.st l = .linked)
include hi hmap

/-- A leaf is in one place of the map. -/
lemma LeafInv.place_eq {f : ℕ} {k : Key} (h : v.map f k = some l) : f = e ∧ k = l.key :=
  ⟨hi.once f e k l.key l h hmap, (hi.keyed f k l h).symm⟩

include hst

lemma LeafInv.mem_live : l.key ∈ g.live e :=
  (hi.live e l.key).mpr ⟨l, hmap, hst⟩

lemma LeafInv.mark (hsw : g.sweep e = some t) (hfrozen : v.frozen e l.key) :
    LeafInv (execLeaf t (.markRemoved l) m).2 v (g.mark t e l) where
  keyed := hi.keyed
  mapped f k l' hl' := by
    by_cases hll : l' = l
    · subst hll
      obtain ⟨rfl, rfl⟩ := hi.place_eq hmap hl'
      refine .inr ⟨hi.sweep_lt f (by simp [hsw]), hfrozen, ?_⟩
      rw [Ghost.mark_self]
      trivial
    · rw [Ghost.mark_ne hll]
      exact hi.mapped f k l' hl'
  marker f k l' t' hl' hm := by
    by_cases hll : l' = l
    · subst hll
      obtain ⟨rfl, rfl⟩ := hi.place_eq hmap hl'
      obtain rfl : t = t' := by simpa [Ghost.mark_self] using hm
      exact hsw
    · exact hi.marker f k l' t' hl' (by rwa [Ghost.mark_ne hll] at hm)
  linked l' hl' := by
    have hll : l' ≠ l := by
      rintro rfl
      simp [Ghost.mark_self] at hl'
    exact hi.linked l' (by rwa [Ghost.mark_ne hll] at hl')
  once := hi.once
  live f k := by
    by_cases hfk : f = e ∧ k = l.key
    · obtain ⟨rfl, rfl⟩ := hfk
      simp [Ghost.mark, hmap]
    · have hmem : k ∈ (g.mark t e l).live f ↔ k ∈ g.live f := by
        by_cases hf : f = e
        · subst hf
          have hk : k ≠ l.key := fun hk => hfk ⟨rfl, hk⟩
          simp [Ghost.mark, hk]
        · simp [Ghost.mark, hf]
      rw [hmem, hi.live f k]
      refine exists_congr fun l' => and_congr_right fun hl' => ?_
      have hll : l' ≠ l := by
        rintro rfl
        exact hfk (hi.place_eq hmap hl')
      rw [Ghost.mark_ne hll]
  past f hf := by
    rcases hi.past f hf with h1 | ⟨h1, h2⟩
    · exact .inl h1
    · refine .inr ⟨h1, ?_⟩
      have hne : f ≠ e := by
        rintro rfl
        have hlive := hi.mem_live hmap hst
        simp [h2] at hlive
      simpa [Ghost.mark, hne] using h2
  sweep_lt := hi.sweep_lt
  built l' := by
    by_cases hll : l' = l
    · subst hll
      simp [execLeaf, hi.built l', hst, Ghost.mark_self]
    · rw [Ghost.mark_ne hll]
      exact hi.built l'
  removed l' := by
    by_cases hll : l' = l
    · subst hll
      simp [execLeaf, Ghost.mark_self, LeafState.Removed]
    · rw [Ghost.mark_ne hll]
      simpa [execLeaf, hll] using hi.removed l'
  retired l' := by
    by_cases hll : l' = l
    · subst hll
      simp [execLeaf, hi.retired l', hst, Ghost.mark_self]
    · rw [Ghost.mark_ne hll]
      exact hi.retired l'
  retired_nodup := hi.retired_nodup

/-- The clear has one leaf more to answer for. -/
lemma LeafInv.mark_len (hlen : LenInv m v g) (he : e ≤ v.cur) :
    LenInv (execLeaf t (.markRemoved l) m).2 v (g.mark t e l) where
  len := by
    have hlive := hi.mem_live hmap hst
    have hcard := Finset.card_erase_of_mem hlive
    have hpos := Finset.card_pos.mpr ⟨_, hlive⟩
    show m.len = total (Function.update g.live e _) (g.debt + Finsupp.single t _) v.cur
    rw [total_debt, total_live _ _ he, hcard, ← hlen.len]
    omega
  debt t' := by
    by_cases ht : t' = t
    · subst ht
      have h := hlen.debt t'
      have h' : 0 ≤ g.debt t' + 1 := by omega
      simpa [Ghost.mark] using h'
    · simpa [Ghost.mark, Finsupp.single_apply, Ne.symm ht] using hlen.debt t'

omit hi hmap in
lemma UnusedInv.mark (hu : UnusedInv m g) :
    UnusedInv (execLeaf t (.markRemoved l) m).2 (g.mark t e l) := by
  refine hu.mono rfl fun l' => ?_
  by_cases hll : l' = l
  · subst hll
    exact .inr (by simp [Ghost.mark_self, hst, LeafState.Unused])
  · exact .inl (Ghost.mark_ne hll)

/-- The other threads see nothing of it but the mark. -/
lemma LeafInv.mark_rely {n : LeafMem} {hist : List (Event M.Op M.Ret)}
    (hsw : g.sweep e = some t) (ht' : t' ≠ t) :
    Rely t' ⟨m, hist, v, g⟩ ⟨n, hist, v, g.mark t e l⟩ := by
  refine { Rely.refl t' ⟨m, hist, v, g⟩ with
           part := fun l' => ?_, removed := fun l' h => Ghost.mark_removed h
           published := fun l' h => Ghost.mark_published h, debt := ?_, swept := ?_ }
  · by_cases hll : l' = l
    · subst hll
      simp [Ghost.mark_self, hst, LeafState.part, LeafState.owner, ht'.symm]
    · rw [Ghost.mark_ne hll]
  · simp [Ghost.mark, ht'.symm]
  · intro f hf k l' hl'
    refine .inr ⟨hl', Ghost.mark_ne ?_⟩
    rintro rfl
    obtain ⟨rfl, -⟩ := hi.place_eq hmap hl'
    exact ht' (Option.some.inj (hf.symm.trans hsw))

end Mark

/-- The clear marks a leaf. -/
lemma step_sweep {T : Key → Prop} {U : List Leaf} :
    M.client.LeafStep t (.markRemoved l) (counts t r lo e T U c l)
      (sweeps t r lo e (fun k => T k ∨ k = l.key) (U ++ [l]) (c + 1)) := by
  intro x hi hx
  have hh := hx.sweeps.holds
  have hst := hx.sweeps.rest l.key l hx.map hx.new
  have hsw := (hh.sweep e).mpr rfl
  have hlt := hi.leaf.sweep_lt e (by simp [hsw])
  have hU : l ∉ U := fun hU => by
    have := hh.part l
    simp [markedBy, hU, hst, LeafState.part, LeafState.owner] at this
  refine ⟨trivial, upd_of (g := x.ghost.mark t e l) hi
    ⟨hi.log.log, hi.log.cur, hi.log.runs, hi.log.run_inj, hi.log.res_lt⟩
    (hi.leaf.mark hx.map hst hsw hx.frozen) (hi.leaf.mark_len hx.map hst hi.len hlt.le)
    (hi.put.step (fun _ _ h => .inl h) fun _ => Ghost.mark_published)
    (fun t' ht' => hi.leaf.mark_rely hx.map hst hsw ht')
    hh.run_ne rfl ?_ rfl (fun _ _ _ _ h => h) (.inl rfl) (hi.unused.mark hst)⟩
  refine ⟨⟨hh.run, hh.since, ?_, fun l' => ?_, hh.sweep, hh.roomy⟩, ?_, ?_, ?_⟩
  · simp [Ghost.mark, hh.debt]
  · by_cases hll : l' = l
    · subst hll
      simp [Ghost.mark_self, markedBy, LeafState.part, LeafState.owner]
    · simpa [Ghost.mark_ne hll, hll, markedBy] using hh.part l'
  · exact List.Nodup.append hx.sweeps.nodup (by simp) (by simpa using hU)
  · rintro k (hk | rfl)
    · obtain ⟨h1, h2⟩ := hx.sweeps.taken k hk
      exact ⟨h1, fun l' hl' => Ghost.mark_removed (h2 l' hl')⟩
    · refine ⟨hx.frozen, fun l' hl' => ?_⟩
      obtain rfl : l = l' := by simpa using hx.map.symm.trans hl'
      simp [Ghost.mark_self, LeafState.Removed]
  · intro k l' hl' hk
    have hll : l' ≠ l := by
      rintro rfl
      exact hk (.inr (hi.leaf.place_eq hx.map hl').2)
    exact (Ghost.mark_ne hll).trans (hx.sweeps.rest k l' hl' fun hT => hk (.inl hT))

/-- The clear retires a leaf. -/
lemma step_discard {T : Key → Prop} {U : List Leaf} : M.client.LeafStep t (.retireLeaf l)
    (sweeps t r lo e T (l :: U) c) (sweeps t r lo e T U c) := by
  intro x hi hx
  have hmine : markedBy t (l :: U) l = some (.marked t) := by simp [markedBy]
  have hnodup := List.nodup_cons.mp hx.nodup
  refine ⟨trivial, (can_retire hi hx.holds hmine).mono ?_⟩
  rintro _ ⟨hz, rfl⟩
  have hU : Function.update (markedBy t (l :: U)) l none = markedBy t U := by
    funext l'
    by_cases hll : l' = l
    · subst hll
      simp [markedBy, hnodup.1]
    · simp [markedBy, hll]
  rw [hU] at hz
  refine ⟨hz, hnodup.2, fun k hk => ?_, fun k l' hl' hk => ?_⟩
  · obtain ⟨h1, h2⟩ := hx.taken k hk
    refine ⟨h1, fun l' hl' => ?_⟩
    by_cases hll : l' = l
    · subst hll
      simp [LeafState.Removed]
    · simpa [hll] using h2 l' hl'
  · have hst := hx.rest k l' hl' hk
    have hll : l' ≠ l := by
      rintro rfl
      have := (LeafState.part_eq_some.mp ((hx.holds.part l').trans hmine)).1
      simp [hst] at this
    simpa [hll] using hst

section Epochs

variable {T : Key → Prop} {U : List Leaf}

/-- The clear detaches the tree. -/
lemma can_detach (hi : Inv x) (hx : Holds t ⟨id, op, none⟩ lo 0 (fun _ => none) none x)
    (hnext : ∀ k, x.view.map (x.view.cur + 1) k = none)
    (hstep : ∀ s, M.step s op = (fun _ => none, a)) (hputs : M.puts op a = none)
    (hclears : M.clears op) : Client.Upd t x x.leafs x.view.detach
      (sweeps t ⟨id, op, some a⟩ lo x.view.cur (fun _ => False) [] 0) := by
  have hlog := hi.log.reset hx.run hstep
  have hno : x.ghost.sweep x.view.cur = none := by
    by_contra h
    exact lt_irrefl _ (hi.leaf.sweep_lt _ h)
  have hlive : x.ghost.live (x.view.cur + 1) = ∅ := by
    rw [Finset.eq_empty_iff_forall_notMem]
    intro k hk
    obtain ⟨l, hl, -⟩ := (hi.leaf.live _ k).mp hk
    simp [hnext] at hl
  refine upd_of (g := { x.ghost.reset t id op a with
      sweep := Function.update x.ghost.sweep x.view.cur (some t) }) hi
    ⟨hlog.log, hlog.cur, hlog.runs, hlog.run_inj, hlog.res_lt⟩ ?_
    ⟨by rw [show x.view.detach.cur = x.view.cur + 1 from rfl]; exact
      hi.len.len.trans (total_succ _ _ hlive).symm, hi.len.debt⟩
    (hi.put.reset (t := t) hi.log.log.open_last hputs) (fun t' ht' => ?_) hx.run_ne
    (tag_done hx.run rfl) ?_ rfl (fun _ _ _ _ h => h) (.inr ⟨op, hclears⟩)
    (hi.unused.mono rfl fun _ => .inl rfl) fun _ _ => .inr ⟨_, hx.run, hclears⟩
  · refine
      { keyed := hi.leaf.keyed, mapped := ?_, marker := ?_, linked := hi.leaf.linked
        once := hi.leaf.once, live := hi.leaf.live, past := ?_, sweep_lt := ?_
        built := hi.leaf.built, removed := hi.leaf.removed, retired := hi.leaf.retired
        retired_nodup := hi.leaf.retired_nodup }
    · intro f k l hl
      rcases hi.leaf.mapped f k l hl with h | ⟨h1, h2⟩
      · exact .inl h
      · exact .inr ⟨Nat.lt_succ_of_lt h1, h2⟩
    · intro f k l t' hl hm
      have hs := hi.leaf.marker f k l t' hl hm
      have hf : f ≠ x.view.cur := by
        rintro rfl
        simp [hno] at hs
      simpa [hf] using hs
    · intro f hf
      by_cases hfc : f = x.view.cur
      · exact .inl (by simp [hfc])
      · have hlt : f < x.view.cur := by
          have : f < x.view.cur + 1 := hf
          omega
        show (Function.update x.ghost.sweep x.view.cur (some t) f : Option ℕ) ≠ none ∨ _
        rw [Function.update_of_ne hfc]
        exact hi.leaf.past f hlt
    · intro f hf
      show f < x.view.cur + 1
      by_cases hfc : f = x.view.cur
      · omega
      · have := hi.leaf.sweep_lt f (by simpa [hfc] using hf)
        omega
  · refine { Rely.refl t' x with run := Function.update_of_ne ht' _ _, since := fun _ _ => rfl
                                 sweep := fun f => ?_, cur := Nat.le_succ _ }
    by_cases hf : f = x.view.cur
    · subst hf
      simp [hno, ht'.symm]
    · simp [hf]
  · refine ⟨⟨Function.update_self _ _ _, hx.since, hx.debt, ?_, fun f => ?_, hx.roomy⟩, by simp,
      fun _ h => h.elim, fun k l hl _ => ?_⟩
    · intro l
      rw [show markedBy t [] l = none by simp [markedBy]]
      exact hx.part l
    · by_cases hf : f = x.view.cur
      · simp [hf]
      · have := hx.sweep f
        simp only [reduceCtorEq, iff_false] at this
        simp [hf, this, Ne.symm hf]
    · rcases hi.leaf.mapped _ k l hl with h | ⟨h, -⟩
      · exact h
      · exact absurd h (lt_irrefl _)

/-- The clear finds an empty tree. -/
lemma can_skip (hi : Inv x) (hx : Holds t ⟨id, op, none⟩ lo 0 (fun _ => none) none x)
    (hnext : ∀ k, x.view.map (x.view.cur + 1) k = none)
    (hnone : ∀ k, x.view.map x.view.cur k = none) (hv : x.view.detach.Freezes v)
    (hfr : ∀ k, v.frozen x.view.cur k) (hstep : ∀ s, M.step s op = (fun _ => none, a))
    (hputs : M.puts op a = none) (hclears : M.clears op) :
    Client.Upd t x x.leafs v (holds t ⟨id, op, some a⟩ lo 0 (fun _ => none) none) := by
  have hlog := (hi.log.reset hx.run hstep).freeze hv
  have hlive : ∀ f, (∀ k, x.view.map f k = none) → x.ghost.live f = ∅ := by
    intro f hf
    rw [Finset.eq_empty_iff_forall_notMem]
    intro k hk
    obtain ⟨l, hl, -⟩ := (hi.leaf.live _ k).mp hk
    simp [hf] at hl
  have hcur : v.cur = x.view.cur + 1 := hv.cur
  have hmap : v.map = x.view.map := hv.map
  have hleaf : LeafInv x.leafs v x.ghost := by
    refine
      { keyed := by rw [hmap]; exact hi.leaf.keyed, mapped := ?_
        marker := by rw [hmap]; exact hi.leaf.marker
        linked := by rw [hmap]; exact hi.leaf.linked, once := by rw [hmap]; exact hi.leaf.once
        live := by rw [hmap]; exact hi.leaf.live, past := ?_, sweep_lt := ?_
        built := hi.leaf.built, removed := hi.leaf.removed, retired := hi.leaf.retired
        retired_nodup := hi.leaf.retired_nodup }
    · intro f k l hl
      rw [hmap] at hl
      rcases hi.leaf.mapped f k l hl with h | ⟨h1, h2, h3⟩
      · exact .inl h
      · exact .inr ⟨by omega, hv.frozen f k h2, h3⟩
    · intro f hf
      by_cases hfc : f = x.view.cur
      · subst hfc
        exact .inr ⟨hfr, hlive _ hnone⟩
      · rcases hi.leaf.past f (by omega) with h | ⟨h1, h2⟩
        · exact .inl h
        · exact .inr ⟨fun k => hv.frozen f k (h1 k), h2⟩
    · intro f hf
      have := hi.leaf.sweep_lt f hf
      omega
  refine upd_of (g := x.ghost.reset t id op a) hi hlog
    ⟨hleaf.keyed, hleaf.mapped, hleaf.marker, hleaf.linked, hleaf.once, hleaf.live, hleaf.past,
      hleaf.sweep_lt, hleaf.built, hleaf.removed, hleaf.retired, hleaf.retired_nodup⟩
    ⟨by rw [hcur]; exact hi.len.len.trans (total_succ _ _ (hlive _ hnext)).symm, hi.len.debt⟩
    (hi.put.reset hi.log.log.open_last hputs) (fun t' ht' => ?_) hx.run_ne (tag_done hx.run rfl)
    ⟨Function.update_self _ _ _, hx.since, hx.debt, hx.part, hx.sweep,
      fun hm => hv.roomy.mpr (hx.roomy hm)⟩ rfl hv.hinted (.inr ⟨op, hclears⟩)
  exact
    { run := Function.update_of_ne ht' _ _, since := fun _ _ => rfl, part := fun _ => rfl
      removed := fun _ h => h, published := fun _ h => h, debt := rfl, sweep := fun _ => Iff.rfl
      cur := by show x.view.cur ≤ v.cur; omega
      frozen := fun f k hk => ⟨hv.frozen f k hk, congrFun (congrFun hmap f) k⟩
      swept := fun f _ k l hl => .inr ⟨by rw [← hmap]; exact hl, rfl⟩
      roomy := hv.roomy }

/-- The clear is over. -/
lemma can_finish (hi : Inv x) (hx : Sweeps t r lo e T [] c x)
    (hall : ∀ k l, x.view.map e k = some l → T k) (hv : x.view.Freezes v)
    (hfr : ∀ k, v.frozen e k) :
    Client.Upd t x (execLeaf t (.lenAdd (-c)) x.leafs).2 v
      (holds t r lo 0 (fun _ => none) none) := by
  have hh := hx.holds
  have hsw := (hh.sweep e).mpr rfl
  have hlive : x.ghost.live e = ∅ := by
    rw [Finset.eq_empty_iff_forall_notMem]
    intro k hk
    obtain ⟨l, hl, hst⟩ := (hi.leaf.live _ k).mp hk
    have := (hx.taken k (hall k l hl)).2 l hl
    simp [hst, LeafState.Removed] at this
  have hleaf := hi.leaf.freeze hv
  refine upd_of (g := { x.ghost with
      debt := x.ghost.debt + Finsupp.single t (-c)
      sweep := Function.update x.ghost.sweep e none }) hi
    ⟨(hi.log.freeze hv).log, (hi.log.freeze hv).cur, hi.log.runs, hi.log.run_inj, hi.log.res_lt⟩ ?_
    ⟨?_, fun t' => ?_⟩ hi.put (fun t' ht' => ?_) hh.run_ne rfl ?_ rfl hv.hinted (.inl hv.cur)
    (hi.unused.mono rfl fun _ => .inl rfl) fun f hf => .inl ?sweep
  case sweep =>
    by_cases hfe : f = e
    · simp [hfe] at hf
    · simpa [hfe] using hf
  · refine
      { keyed := hleaf.keyed, mapped := hleaf.mapped, marker := ?_, linked := hleaf.linked
        once := hleaf.once, live := hleaf.live, past := ?_, sweep_lt := ?_
        built := hleaf.built, removed := hleaf.removed, retired := hleaf.retired
        retired_nodup := hleaf.retired_nodup }
    · intro f k l t' hl hm
      have hs := hleaf.marker f k l t' hl hm
      have hf : f ≠ e := by
        rintro rfl
        obtain rfl : t = t' := by simpa [hsw] using hs
        have hm' : x.ghost.st l = .marked t := hm
        have := hh.part l
        simp [markedBy, hm', LeafState.part, LeafState.owner] at this
      simpa [hf] using hs
    · intro f hf
      by_cases hfe : f = e
      · subst hfe
        exact .inr ⟨hfr, hlive⟩
      · simpa [hfe] using hleaf.past f hf
    · intro f hf
      by_cases hfe : f = e
      · simp [hfe] at hf
      · exact hleaf.sweep_lt f (by simpa [hfe] using hf)
  · rw [len_add, total_debt, hv.cur, hi.len.len]
  · by_cases ht : t' = t
    · subst ht
      simp [hh.debt]
    · simpa [Finsupp.single_apply, Ne.symm ht] using hi.len.debt t'
  · refine { Rely.freeze (t := t') hv with debt := ?_, sweep := fun f => ?_ }
    · simp [ht'.symm]
    · by_cases hf : f = e
      · subst hf
        simp [hsw, ht'.symm]
      · simp [hf]
  · refine ⟨hh.run, hh.since, by simp [hh.debt], fun l => ?_, fun f => ?_,
      fun hm => hv.roomy.mpr (hh.roomy hm)⟩
    · simpa [markedBy] using hh.part l
    · by_cases hf : f = e
      · simp [hf]
      · have := hh.sweep f
        simp [hf, this, Ne.symm hf]

end Epochs

end Interface

end Artmap
