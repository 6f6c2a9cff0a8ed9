import Artmap.Tree.Nodes

/-!
# Unpublished nodes of an operation

An operation allocates the nodes it may need before it takes any latch, keeps them from one
attempt to the next in a pool, and frees those it did not publish.  `PoolOk` ties the pool to
what the thread knows: its entries are exactly the unpublished nodes of the thread.
-/

namespace Artmap

open scoped List

/-- The pool holds the unpublished nodes of the thread. -/
structure PoolOk (Γ : Know) (p : Pool) : Prop where
  nodup : (p.map Prod.fst).Nodup
  priv : ∀ n, Γ.priv n ≠ none ↔ n ∈ p.map Prod.fst

namespace PoolOk

variable {Γ Δ : Know} {p : Pool} {n : NodeId} {ty : NodeType} {F : Fields}

lemma congr (h : PoolOk Γ p) (hp : Δ.priv = Γ.priv) : PoolOk Δ p :=
  ⟨h.nodup, by rw [hp]; exact h.priv⟩

lemma reset (h : PoolOk Γ p) : PoolOk Γ p.reset := by
  have hfst : p.reset.map Prod.fst = p.map Prod.fst := by simp [Pool.reset, Function.comp_def]
  exact ⟨by rw [hfst]; exact h.nodup, by rw [hfst]; exact h.priv⟩

lemma fst_use (p : Pool) (n : NodeId) : (p.use n).map Prod.fst = p.map Prod.fst := by
  simp only [Pool.use, List.map_map]
  refine List.map_congr_left fun e _ => ?_
  simp only [Function.comp_apply]
  split
  · rename_i h
    exact h.symm
  · rfl

/-- A node of the pool is written to. -/
lemma own (h : PoolOk Γ p) (hn : Γ.priv n ≠ none) : PoolOk (Γ.own n ty F) p := by
  refine ⟨h.nodup, fun n' => ?_⟩
  rw [← h.priv n']
  by_cases hnn : n' = n
  · subst hnn
    simpa using hn
  · simp [Know.own, hnn]

lemma rewrite (h : PoolOk (Γ.own n ty F) p) (F' : Fields) : PoolOk (Γ.own n ty F') p := by
  have h' : PoolOk ((Γ.own n ty F).own n ty F') p := h.own (by simp)
  rwa [Know.own_own] at h'

/-- An unused entry is taken. -/
lemma use (h : PoolOk Γ p) (hn : (n, false) ∈ p) : PoolOk (Γ.own n ty F) (p.use n) := by
  refine ⟨by rw [fst_use]; exact h.nodup, fun n' => ?_⟩
  rw [fst_use, ← h.priv n']
  by_cases hnn : n' = n
  · subst hnn
    simp only [Know.own_priv, ne_eq, reduceCtorEq, not_false_eq_true, true_iff]
    exact (h.priv n').mpr (List.mem_map_of_mem hn)
  · simp [Know.own, hnn]

lemma mem_use (h : (p.map Prod.fst).Nodup) (hn : (n, false) ∈ p) {n' : NodeId} :
    (n', true) ∈ p.use n ↔ n' = n ∨ (n', true) ∈ p := by
  simp only [Pool.use, List.mem_map]
  constructor
  · rintro ⟨⟨m, b⟩, hm, he⟩
    dsimp only at he
    split at he
    · simp only [Prod.mk.injEq, and_true] at he
      exact .inl he.symm
    · rw [he] at hm
      exact .inr hm
  · rintro (rfl | hm)
    · exact ⟨(n', false), hn, by simp⟩
    · refine ⟨(n', true), hm, ?_⟩
      rw [if_neg]
      rintro rfl
      have := List.inj_on_of_nodup_map h hm hn rfl
      simp at this

/-- A new entry is added. -/
lemma add (h : PoolOk Γ p) (hn : Γ.priv n = none) :
    PoolOk (Γ.own n ty F) (p ++ [(n, true)]) := by
  have hnp : n ∉ p.map Prod.fst := fun hm => (h.priv n).mpr hm hn
  refine ⟨?_, fun n' => ?_⟩
  · rw [List.map_append, List.nodup_append]
    refine ⟨h.nodup, by simp, ?_⟩
    simp only [List.map_cons, List.map_nil, List.mem_singleton]
    rintro a ha _ rfl rfl
    exact hnp ha
  · rw [List.map_append, List.mem_append, ← h.priv n']
    by_cases hnn : n' = n
    · subst hnn
      simp
    · simp [Know.own, hnn]

/-- The used entries have been published. -/
lemma commit (h : PoolOk Γ p) (new : List NodeId)
    (hnew : ∀ n, n ∈ new ↔ (n, true) ∈ p)
    (hΔ : Δ.priv = fun n => if n ∈ new then none else Γ.priv n) : PoolOk Δ p.commit := by
  refine ⟨h.nodup.sublist (List.filter_sublist.map _), fun n => ?_⟩
  rw [hΔ]
  have hmem : n ∈ p.commit.map Prod.fst ↔ (n, false) ∈ p := by
    simp [Pool.commit]
  rw [hmem]
  by_cases hn : n ∈ new
  · simp only [hn, if_true, ne_eq, not_true_eq_false, false_iff]
    intro hb
    have := List.inj_on_of_nodup_map h.nodup hb ((hnew n).mp hn) rfl
    simp at this
  · simp only [hn, if_false]
    rw [h.priv n]
    constructor
    · intro hm
      obtain ⟨⟨n', b⟩, hb, rfl⟩ := List.mem_map.mp hm
      cases b with
      | false => exact hb
      | true => exact absurd ((hnew n').mpr hb) hn
    · exact fun hb => List.mem_map_of_mem hb

end PoolOk

/-- No entry is in use. -/
def Pool.Unused (p : Pool) : Prop :=
  ∀ n, (n, true) ∉ p

lemma Pool.unused_reset (p : Pool) : p.reset.Unused := by
  intro n h
  simp [Pool.reset] at h

namespace Client

open Shadow (Knows)

variable {C : Client} {live : Bool} {t : ℕ} {Γ Δ : Know} {P : C.Assertion t} {x y : C.W}
  {n : NodeId} {F : Fields} {ty : NodeType} {p : Pool}

lemma wp_poolFind (ty : NodeType) (hx : C.At live t Γ P x)
    (hp : ∀ e ∈ p, Γ.priv e.1 ≠ none) :
    C.rg.wp live t (p.find ty) (fun r y => C.At live t Γ P y ∧
      ∀ n, r = some n → (n, false) ∈ p ∧ ∃ F, Γ.priv n = some (ty, F)) x := by
  induction p generalizing x with
  | nil => exact RG.wp_ret ⟨hx, fun n h => by simp at h⟩
  | cons e p ih =>
    obtain ⟨n, used⟩ := e
    have hrest : ∀ {y}, C.At live t Γ P y → C.rg.wp live t (Pool.find ty p) (fun r y =>
        C.At live t Γ P y ∧ ∀ n', r = some n' →
          (n', false) ∈ (n, used) :: p ∧ ∃ F, Γ.priv n' = some (ty, F)) y := by
      intro y hy
      refine RG.wp_mono (ih hy fun e he => hp e (List.mem_cons_of_mem _ he)) ?_
      rintro r z - ⟨hz, hr⟩
      exact ⟨hz, fun n' hn' => ⟨List.mem_cons_of_mem _ (hr n' hn').1, (hr n' hn').2⟩⟩
    cases used with
    | true => exact hrest hx
    | false =>
      refine RG.wp_seq (wp_nodeType hx n) ?_
      rintro (nty : NodeType) y - ⟨hty, hy, -⟩
      by_cases heq : nty = ty
      · rw [if_pos heq]
        refine RG.wp_ret ⟨hy, fun n' hn' => ?_⟩
        obtain rfl : n = n' := by simpa using hn'
        refine ⟨List.mem_cons_self, ?_⟩
        obtain ⟨⟨ty', F⟩, hF⟩ := Option.ne_none_iff_exists'.mp (hp (n, false) List.mem_cons_self)
        have := (hx.knows.priv n ty' F hF).2.1
        exact ⟨F, by rw [hF, ← this, ← hty, heq]⟩
      · rw [if_neg heq]
        exact hrest hy

/-- An attempt to allocate that hands out no node. -/
lemma wp_attempt {a : TreeAct}
    (ha : (execTree a (tree x)).2 = { tree x with tries := (tree x).tries + 1 })
    (hx : C.At live t Γ P x) :
    C.rg.wp live t (onTree a) (fun r y => r = (execTree a (tree x)).1 ∧ C.At live t Γ P y ∧
      ((tree x).full (tree x).tries = true → ¬ (scene y).view.roomy)) x := by
  refine RG.wp_intro fun hok => ?_
  have hi := ok_tree hok
  have hs : Shadow.Scratch t (tree x) (shadow x) { tree x with tries := (tree x).tries + 1 }
      (shadow x) :=
    { latch := rfl, root := rfl, panicked := rfl, full := rfl, retired := rfl, shadow := rfl
      next := le_rfl, ty := fun _ _ => rfl, fields := fun _ _ _ _ => rfl
      priv := fun _ => .inl ⟨rfl, id⟩, freed := .inl rfl, shows := fun _ _ h => hi.shows h }
  refine wp_tree (S := shadow x) (P := P) hok ?_ ?_ (Upd.rfl (ok_client hok) hx.client) ?_
    (fun e k h1 h2 => absurd h1 h2) ?_
  · rw [ha]
    exact hs.own hi
  · rw [ha]
    exact hs.inv hi
  · rw [ha]
    exact fun _ _ hf => hf
  · intro y hy hP
    rw [ha] at hy
    refine ⟨rfl, .later ?_ (hs.inv hi) hy hP, fun hfull hroom => ?_⟩
    · exact hx.knows.scratch hi hs rfl (fun _ _ => rfl) hx.knows.priv hx.knows.privs
    · have hroom' : (tree y).full (tree x).tries = false := hroom _
      rw [hy.rely.full] at hroom'
      simp [hfull] at hroom'

/-- Room for a value. -/
lemma wp_allocValue (hx : C.At live t Γ P x) :
    C.rg.wp live t (onTree .allocValue) (fun (r : Bool) y => C.At live t Γ P y ∧
      (r = false → ¬ (scene y).view.roomy)) x := by
  refine RG.wp_mono (wp_attempt rfl hx) ?_
  rintro r y - ⟨rfl, hy, hroom⟩
  exact ⟨hy, fun hr => hroom (by simpa [execTree] using hr)⟩

/-- A new node, unless there is no room for it. -/
lemma wp_allocNode (ty : NodeType) (hx : C.At live t Γ P x) :
    C.rg.wp live t (onTree (.allocNode ty)) (fun r y =>
      (r = none → ¬ (scene y).view.roomy ∧ C.At live t Γ P y) ∧
      ∀ n, r = some n → Γ.priv n = none ∧ C.At live t (Γ.own n ty Fields.fresh) P y) x := by
  refine RG.wp_intro fun hok => ?_
  have hi := ok_tree hok
  by_cases hfull : (tree x).full (tree x).tries = true
  · have hexec : execTree (.allocNode ty) (tree x) =
        (none, { tree x with tries := (tree x).tries + 1 }) := by
      simp [execTree, hfull]
    refine RG.wp_mono (wp_attempt (by rw [hexec]) hx) ?_
    rintro r y - ⟨rfl, hy, hroom⟩
    rw [hexec]
    exact ⟨fun _ => ⟨hroom hfull, hy⟩, fun n h => by simp at h⟩
  have hexec : execTree (.allocNode ty) (tree x) = (some (tree x).next, { tree x with
      ty := Function.update (tree x).ty (tree x).next ty
      fields := Function.update (tree x).fields (tree x).next Fields.fresh
      next := (tree x).next + 1
      tries := (tree x).tries + 1 }) := by
    simp [execTree, hfull]
  have hpriv : (shadow x).priv (tree x).next = none := by
    cases h : (shadow x).priv (tree x).next with
    | none => rfl
    | some t' => exact absurd (hi.priv_lt h).1 (lt_irrefl _)
  have hpub : ¬ (shadow x).pub (tree x).next := fun h => lt_irrefl _ (hi.pub_lt h)
  have hs : Shadow.Scratch t (tree x) (shadow x) (execTree (.allocNode ty) (tree x)).2
      { shadow x with priv := Function.update (shadow x).priv (tree x).next (some t) } := by
    rw [hexec]
    refine
      { latch := rfl, root := rfl, panicked := rfl, full := rfl, retired := rfl, shadow := rfl
        next := Nat.le_succ _, ty := fun n hn => ?_, fields := fun n _ _ hn => ?_
        priv := fun n => ?_, freed := .inl rfl, shows := fun n _ hpl => ?_ }
    · simp [Nat.ne_of_lt hn]
    · simp [Nat.ne_of_lt hn]
    · by_cases hn : n = (tree x).next
      · subst hn
        exact .inr (.inr ⟨by simp, hpub, hpriv, le_rfl, Nat.lt_succ_self _⟩)
      · exact .inl ⟨by simp [hn], fun h => lt_of_le_of_ne (Nat.le_of_lt_succ h) hn⟩
    · have hn := hi.pub_lt (hi.pub_placed hpl)
      simpa [Nat.ne_of_lt hn] using hi.shows hpl
  have hΓ : Γ.priv (tree x).next = none := by
    cases h : Γ.priv (tree x).next with
    | none => rfl
    | some q => simpa [hpriv] using (hx.knows.priv _ q.1 q.2 h).1
  have hfrozen : ∀ e k, (shadow x).Frozen (tree x) e k → Shadow.Frozen
      (execTree (.allocNode ty) (tree x)).2
      { shadow x with priv := Function.update (shadow x).priv (tree x).next (some t) } e k := by
    intro e k hf
    refine (hs.own hi).frozen hi (fun n q hq ho hc => ⟨⟨?_, rfl, rfl⟩, .inr ⟨ho, hc⟩⟩) hf
    have := hi.pub_lt (hi.pub_placed (n := n) (by simp [hq]))
    simp [hexec, Nat.ne_of_lt this]
  refine RG.wp_mono (wp_quiet (Δ := Γ.own (tree x).next ty Fields.fresh) hx hok (hs.own hi)
    (hs.inv hi) rfl rfl rfl hfrozen ?_) ?_
  · refine hx.knows.scratch hi hs rfl ?_ ?_ ?_
    · intro n ho
      have hlt := hi.pub_lt (hi.pub_of_owner (n := n) (by simp [ho]))
      simp [hexec, Nat.ne_of_lt hlt]
    · intro n ty' F' hn
      by_cases hnn : n = (tree x).next
      · subst hnn
        simp only [Know.own_priv, Option.some.injEq, Prod.mk.injEq] at hn
        obtain ⟨rfl, rfl⟩ := hn
        simp [hexec]
      · have := hx.knows.priv n ty' F' (by simpa [Know.own, hnn] using hn)
        simpa [hexec, hnn] using this
    · intro n hn
      by_cases hnn : n = (tree x).next
      · subst hnn
        simp
      · simpa [Know.own, hnn] using hx.knows.privs n (by simpa [hnn] using hn)
  · rintro r y - ⟨rfl, hy⟩
    rw [hexec]
    refine ⟨fun h => by simp at h, fun n h => ?_⟩
    obtain rfl : (tree x).next = n := by simpa using h
    exact ⟨hΓ, hy⟩

/-- An unpublished node is initialised again. -/
lemma wp_initNode (hx : C.At live t Γ P x) (hc : Γ.clear = none)
    (hp : Γ.priv n = some (ty, F)) :
    C.rg.wp live t (onTree (.initNode n))
      (fun _ y => C.At live t (Γ.own n ty Fields.fresh) P y) x := by
  refine RG.wp_intro fun hok => ?_
  have hi := ok_tree hok
  obtain ⟨h1, h2, h3⟩ := hx.knows.priv n ty F hp
  have hs := Shadow.scratch_write (F := Fields.fresh) hi (.inr h1)
    fun h => absurd (hi.place_of_priv h1) h
  exact RG.wp_mono (wp_quiet (S := shadow x) (Δ := Γ.own n ty Fields.fresh) hx hok (hs.own hi)
    (hs.inv hi) rfl rfl rfl (fun e k hf => frozen_of_own hx hok hc (hs.own hi) hf)
    (knows_own hx.knows hi h1 h2 Fields.fresh)) fun _ y _ hy => hy.2

/-- `Prepared::node`: a fresh node, in use from now on, or nothing if there is no room. -/
lemma wp_poolNode (ty : NodeType) (hx : C.At live t Γ P x) (hc : Γ.clear = none)
    (hp : PoolOk Γ p) :
    C.rg.wp live t (p.node ty) (fun r y =>
      (r.1 = none → r.2 = p ∧ ¬ (scene y).view.roomy ∧ C.At live t Γ P y) ∧
      ∀ n, r.1 = some n → PoolOk (Γ.own n ty Fields.fresh) r.2 ∧
        (n, true) ∉ p ∧ (∀ n', (n', true) ∈ r.2 ↔ n' = n ∨ (n', true) ∈ p) ∧
        C.At live t (Γ.own n ty Fields.fresh) P y) x := by
  refine RG.wp_seq (wp_poolFind ty hx fun e he => (hp.priv _).mpr (List.mem_map_of_mem he)) ?_
  rintro (_ | n) y - ⟨hy, hfound⟩
  · refine RG.wp_seq (wp_allocNode ty hy) ?_
    rintro (r : Option ℕ) z - ⟨hnone, hsome⟩
    cases r with
    | none => exact RG.wp_ret ⟨fun _ => ⟨rfl, hnone rfl⟩, fun n h => by simp at h⟩
    | some n =>
      obtain ⟨hn, hz⟩ := hsome n rfl
      refine RG.wp_ret ⟨fun h => by simp at h, fun n₀ h => ?_⟩
      obtain rfl : n = n₀ := by simpa using h
      refine ⟨hp.add hn, fun hm => ?_, fun n' => ?_, hz⟩
      · exact (hp.priv n).mpr (List.mem_map_of_mem hm) hn
      · simp [or_comm]
  · obtain ⟨hmem, F, hF⟩ := hfound n rfl
    refine RG.wp_seq (wp_initNode hy hc hF) ?_
    intro _ z _ hz
    refine RG.wp_ret ⟨fun h => by simp at h, fun n₀ h => ?_⟩
    obtain rfl : n = n₀ := by simpa using h
    refine ⟨hp.use hmem, fun hm => ?_, fun n' => PoolOk.mem_use hp.nodup hmem, hz⟩
    have := List.inj_on_of_nodup_map hp.nodup hm hmem rfl
    simp at this

/-- An unpublished node is freed. -/
lemma wp_freeNode (hx : C.At live t Γ P x) (hc : Γ.clear = none) (hp : Γ.priv n ≠ none) :
    C.rg.wp live t (onTree (.freeNode n)) (fun _ y => C.At live t (Γ.disown n) P y) x := by
  refine RG.wp_intro fun hok => ?_
  have hi := ok_tree hok
  obtain ⟨⟨ty, F⟩, hF⟩ := Option.ne_none_iff_exists'.mp hp
  obtain ⟨h1, h2, h3⟩ := hx.knows.priv n ty F hF
  have hs : Shadow.Scratch t (tree x) (shadow x) (execTree (.freeNode n) (tree x)).2
      { shadow x with priv := Function.update (shadow x).priv n none } := by
    refine
      { latch := rfl, root := rfl, panicked := rfl, full := rfl, retired := rfl, shadow := rfl
        next := le_rfl, ty := fun _ _ => rfl, fields := fun _ _ _ _ => rfl
        priv := fun n' => ?_, freed := .inr ⟨n, rfl, h1, by simp⟩
        shows := fun _ _ h => hi.shows h }
    by_cases hn : n' = n
    · subst hn
      exact .inr (.inl ⟨h1, by simp, by simp [execTree]⟩)
    · exact .inl ⟨by simp [hn], id⟩
  refine RG.wp_mono (wp_quiet (Δ := Γ.disown n) hx hok (hs.own hi) (hs.inv hi) rfl rfl rfl
    (fun e k hf => frozen_of_own hx hok hc (hs.own hi) hf) ?_) fun _ y _ hy => hy.2
  refine hx.knows.scratch hi hs rfl (fun _ _ => rfl) ?_ ?_
  · intro n' ty' F' hn'
    have hnn : n' ≠ n := by
      rintro rfl
      simp [Know.disown] at hn'
    simpa [hnn, execTree] using hx.knows.priv n' ty' F' (by simpa [Know.disown, hnn] using hn')
  · intro n' hn'
    have hnn : n' ≠ n := by
      rintro rfl
      simp at hn'
    simpa [Know.disown, hnn] using hx.knows.privs n' (by simpa [hnn] using hn')

/-- `Prepared::release`. -/
lemma wp_poolRelease (hx : C.At live t Γ P x) (hc : Γ.clear = none) (hp : PoolOk Γ p) :
    C.rg.wp live t p.release
      (fun _ y => C.At live t { Γ with priv := fun _ => none } P y) x := by
  induction p generalizing x Γ with
  | nil =>
    have hΓ : Γ = { Γ with priv := fun _ => none } := by
      have : Γ.priv = fun _ => none := by
        funext n
        by_contra h
        simpa using (hp.priv n).mp h
      rw [← this]
    refine RG.wp_ret ?_
    rwa [← hΓ]
  | cons e p ih =>
    obtain ⟨n, used⟩ := e
    have hnd : n ∉ p.map Prod.fst ∧ (p.map Prod.fst).Nodup := by simpa using hp.nodup
    refine RG.wp_seq (wp_freeNode hx hc ((hp.priv n).mpr (by simp))) ?_
    intro _ y _ hy
    refine RG.wp_mono (ih hy hc ⟨hnd.2, fun n' => ?_⟩) fun _ z _ hz => hz
    by_cases hnn : n' = n
    · subst hnn
      simpa [Know.disown] using hnd.1
    · have := hp.priv n'
      simpa [Know.disown, hnn] using this

end Client

end Artmap
