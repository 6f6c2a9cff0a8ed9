import Artmap.Tree.Rules

/-!
# Rules for latched and unpublished nodes

Nobody else writes a latched node or sees an unpublished one, so a node program on such a node
computes what it computes alone (`NodeM.run`).  `wp_onNode_commit` is the rule for the program
that makes a change visible: at the store that completes it, the memory stands for another
forest.
-/

namespace Artmap

open scoped List

namespace Know

variable {Γ : Know} {n : NodeId} {g : Grasp} {F F' : Fields} {ty : NodeType}

lemma write_self (hg : Γ.grasp n = some g) : Γ.write n g g.fields = { Γ with base := none } := by
  have h : Function.update Γ.grasp n (some g) = Γ.grasp := by
    rw [← hg, Function.update_eq_self]
  simp only [write, h]

lemma write_write : (Γ.write n g F).write n { g with fields := F } F' = Γ.write n g F' := by
  simp [write]

lemma own_self (hp : Γ.priv n = some (ty, F)) : Γ.own n ty F = Γ := by
  have h : Function.update Γ.priv n (some (ty, F)) = Γ.priv := by
    rw [← hp, Function.update_eq_self]
  simp only [own, h]

lemma own_own : (Γ.own n ty F).own n ty F' = Γ.own n ty F' := by
  simp [own]

@[simp] lemma write_grasp : (Γ.write n g F).grasp n = some { g with fields := F } := by
  simp [write]

@[simp] lemma own_priv : (Γ.own n ty F).priv n = some (ty, F) := by
  simp [own]

end Know

namespace Client

open Shadow (Knows Seen Grasped)

variable {C : Client} {live : Bool} {t : ℕ} {Γ Δ : Know} {P R : C.Assertion t} {x y : C.W}
  {α : Type} {n : NodeId} {s : Sight} {g : Grasp} {v : ℕ} {F : Fields} {ty : NodeType} {a : α}

lemma At.touch (hx : C.At live t Γ P x) : C.At live t { Γ with base := none } P x :=
  ⟨{ hx.knows with base := fun _ _ h => by simp at h }, hx.client⟩

/-! ## Latched nodes -/

/-- Reading a latched node. -/
lemma wp_onNode_later {p : NodeM α} (hp : p.ReadOnly) (hx : C.At live t Γ P x)
    (hg : Γ.grasp n = some g) :
    C.rg.wp live t (onNode n p) (fun r y => p.run g.fields = some (r, g.fields) ∧
      C.At live t Γ P y ∧ Later live t (tree x) (shadow x) y) x := by
  induction p generalizing x with
  | ret a => exact RG.wp_ret ⟨rfl, hx, .refl x⟩
  | ld f k ih =>
    rw [onNode_ld]
    refine RG.wp_seq (wp_load' hx rfl) ?_
    rintro r y - ⟨rfl, hy, hlater⟩
    have hval : (execTree (.loadField n f) (tree x)).1 = g.fields f := by
      show (tree x).fields n f = _
      rw [(hx.knows.grasp n g hg).fields]
    rw [hval]
    refine RG.wp_mono (ih _ (hp _) hy) ?_
    exact fun r z _ hz => ⟨hz.1, hz.2.1, hlater.trans hz.2.2⟩
  | st f v k => exact hp.elim
  | fail => exact hp.elim

lemma wp_typed_later {p : NodeType → NodeM α} (hp : ∀ ty, (p ty).ReadOnly)
    (hx : C.At live t Γ P x) (hg : Γ.grasp n = some g) :
    C.rg.wp live t (typed n p) (fun r y => (p g.ty).run g.fields = some (r, g.fields) ∧
      C.At live t Γ P y ∧ Later live t (tree x) (shadow x) y) x := by
  refine RG.wp_seq (wp_nodeType hx n) ?_
  rintro r y - ⟨rfl, hy, hlater⟩
  rw [(hx.knows.grasp n g hg).ty]
  refine RG.wp_mono (wp_onNode_later (hp _) hy hg) ?_
  exact fun r z _ hz => ⟨hz.1, hz.2.1, hlater.trans hz.2.2⟩

lemma wp_onNode_read {p : NodeM α} (hp : p.ReadOnly) (hx : C.At live t Γ P x)
    (hg : Γ.grasp n = some g) :
    C.rg.wp live t (onNode n p) (fun r y => p.run g.fields = some (r, g.fields) ∧
      C.At live t Γ P y) x :=
  RG.wp_mono (wp_onNode_later hp hx hg) fun _ _ _ h => ⟨h.1, h.2.1⟩

lemma wp_typed_read {p : NodeType → NodeM α} (hp : ∀ ty, (p ty).ReadOnly)
    (hx : C.At live t Γ P x) (hg : Γ.grasp n = some g) :
    C.rg.wp live t (typed n p) (fun r y => (p g.ty).run g.fields = some (r, g.fields) ∧
      C.At live t Γ P y) x :=
  RG.wp_mono (wp_typed_later hp hx hg) fun _ _ _ h => ⟨h.1, h.2.1⟩

/-- A store to a node that the thread has latched or not published. -/
lemma wp_storeField (hx : C.At live t Γ P x) (hc : Γ.clear = none) (f : Field) (w : f.Val)
    (hmine : (shadow x).owner (.node n) = some t ∨ (shadow x).priv n = some t)
    (hshow : (shadow x).forest.place n ≠ none →
      Shows (Function.update ((tree x).fields n) f w) ((shadow x).forest.cont n))
    (hk : Knows live t Δ
      (Shadow.setFields (tree x) n (Function.update ((tree x).fields n) f w)) (shadow x)) :
    C.rg.wp live t (onTree (.storeField n f w)) (fun _ y => C.At live t Δ P y) x := by
  refine RG.wp_intro fun hok => ?_
  have hi := ok_tree hok
  have hs := Shadow.scratch_write hi hmine hshow
  exact RG.wp_mono (wp_quiet (S := shadow x) (Δ := Δ) hx hok (hs.own hi) (hs.inv hi) rfl rfl rfl
    (fun e k hf => frozen_of_own hx hok hc (hs.own hi) hf) hk) fun _ y _ hy => hy.2

/-- A program on a latched node that keeps its entries. -/
lemma wp_onNode {p : NodeM α} (hx : C.At live t Γ P x) (hc : Γ.clear = none)
    (hg : Γ.grasp n = some g) (hrun : p.run g.fields = some (a, F))
    (hkeep : p.Keeps (Shows · g.cont) g.fields) :
    C.rg.wp live t (onNode n p) (fun r y => r = a ∧ C.At live t (Γ.write n g F) P y) x := by
  induction p generalizing x Γ g with
  | ret b =>
    simp only [NodeM.run, Option.some.injEq, Prod.mk.injEq] at hrun
    obtain ⟨rfl, rfl⟩ := hrun
    rw [Know.write_self hg]
    exact RG.wp_ret ⟨rfl, hx.touch⟩
  | ld f k ih =>
    rw [onNode_ld]
    refine RG.wp_seq (wp_load' hx rfl) ?_
    rintro r y - ⟨rfl, hy, -⟩
    have hval : (execTree (.loadField n f) (tree x)).1 = g.fields f := by
      show (tree x).fields n f = _
      rw [(hx.knows.grasp n g hg).fields]
    rw [hval]
    exact ih _ hy hc hg hrun hkeep
  | st f w k ih =>
    rw [onNode_st]
    refine RG.wp_intro fun hok => ?_
    have hn := hx.knows.grasp n g hg
    have hk := hx.knows.write (ok_tree hok) hg (Function.update g.fields f w)
    rw [← hn.fields] at hk
    refine RG.wp_seq (wp_storeField hx hc f w (.inl hn.owner) (fun _ => ?_) hk) ?_
    · rw [hn.fields, hn.cont]
      exact hkeep.1
    intro _ y _ hy
    rw [hn.fields] at hy
    refine RG.wp_mono (ih hy hc Know.write_grasp hrun hkeep.2) ?_
    rintro r z - ⟨rfl, hz⟩
    exact ⟨rfl, by rwa [Know.write_write] at hz⟩
  | fail => simp [NodeM.run] at hrun

/-! ## Unpublished nodes -/

lemma knows_own {m : TreeMem} {S : Shadow} (h : Knows live t Γ m S) (hi : S.Inv m)
    (hp : S.priv n = some t) (hty : m.ty n = ty) (F : Fields) :
    Knows live t (Γ.own n ty F) (Shadow.setFields m n F) S := by
  refine h.scratch hi (Shadow.scratch_write hi (.inr hp)
    fun hpl => absurd (hi.place_of_priv hp) hpl) rfl ?_ ?_ ?_
  · intro n' ho
    have hn : n' ≠ n := by
      rintro rfl
      simp [(hi.unpub (hi.priv_lt hp).2).2] at ho
    simp [Shadow.setFields, hn]
  · intro n' ty' F' hp'
    by_cases hn : n' = n
    · subst hn
      simp only [Know.own_priv, Option.some.injEq, Prod.mk.injEq] at hp'
      obtain ⟨rfl, rfl⟩ := hp'
      exact ⟨hp, hty, by simp [Shadow.setFields]⟩
    · obtain ⟨h1, h2, h3⟩ := h.priv n' ty' F' (by simpa [Know.own, hn] using hp')
      exact ⟨h1, h2, by simpa [Shadow.setFields, hn] using h3⟩
  · intro n' hp'
    by_cases hn : n' = n
    · subst hn
      simp
    · simpa [Know.own, hn] using h.privs n' hp'

/-- A program on an unpublished node. -/
lemma wp_onNode_priv {p : NodeM α} (hx : C.At live t Γ P x) (hc : Γ.clear = none)
    {F₀ : Fields} (hp : Γ.priv n = some (ty, F₀)) (hrun : p.run F₀ = some (a, F)) :
    C.rg.wp live t (onNode n p) (fun r y => r = a ∧ C.At live t (Γ.own n ty F) P y) x := by
  induction p generalizing x Γ F₀ with
  | ret b =>
    simp only [NodeM.run, Option.some.injEq, Prod.mk.injEq] at hrun
    obtain ⟨rfl, rfl⟩ := hrun
    rw [Know.own_self hp]
    exact RG.wp_ret ⟨rfl, hx⟩
  | ld f k ih =>
    rw [onNode_ld]
    refine RG.wp_seq (wp_load' hx rfl) ?_
    rintro r y - ⟨rfl, hy, -⟩
    refine ih _ hy hc hp ?_
    show (k ((tree x).fields n f)).run _ = _
    rw [(hx.knows.priv n ty F₀ hp).2.2]
    exact hrun
  | st f w k ih =>
    rw [onNode_st]
    refine RG.wp_intro fun hok => ?_
    obtain ⟨h1, h2, h3⟩ := hx.knows.priv n ty F₀ hp
    have hk := knows_own hx.knows (ok_tree hok) h1 h2
      (Function.update ((tree x).fields n) f w)
    refine RG.wp_seq (wp_storeField hx hc f w (.inr h1)
      (fun hpl => absurd ((ok_tree hok).place_of_priv h1) hpl) hk) ?_
    intro _ y _ hy
    rw [h3] at hy
    refine RG.wp_mono (ih hy hc Know.own_priv hrun) ?_
    rintro r z - ⟨rfl, hz⟩
    exact ⟨rfl, by rwa [Know.own_own] at hz⟩
  | fail => simp [NodeM.run] at hrun

lemma wp_typed_priv {p : NodeType → NodeM α} (hx : C.At live t Γ P x) (hc : Γ.clear = none)
    {F₀ : Fields} (hp : Γ.priv n = some (ty, F₀)) (hrun : (p ty).run F₀ = some (a, F)) :
    C.rg.wp live t (typed n p) (fun r y => r = a ∧ C.At live t (Γ.own n ty F) P y) x := by
  refine RG.wp_seq (wp_nodeType hx n) ?_
  rintro r y - ⟨rfl, hy, -⟩
  rw [(hx.knows.priv n ty F₀ hp).2.1]
  exact wp_onNode_priv hy hc hp hrun

/-! ## Commits -/

/-- Thread `t` can commit by a step to the memory `m`; then it knows `Δ`, and `R` holds. -/
def Commits (live : Bool) (t : ℕ) (m : TreeMem) (Δ : Know) (R : C.Assertion t) (y : C.W) :
    Prop :=
  ∃ F new f, Shadow.Commit t (tree y) (shadow y) m F new f ∧
    (∀ e k, f = some (e, k) → (shadow y).follow t ≠ f →
      C.Taking y.ghost.2 t k ∧ (shadow y).forest.Vacates F) ∧
    Upd t (scene y) (scene y).leafs { (scene y).view with map := F.map } R ∧
    Knows live t Δ m ((shadow y).commit t F new f)

/-- A step that commits. -/
lemma wp_commit {a : TreeAct} (hx : C.At live t Γ P x) (hok : C.rg.Ok live t x)
    (hc : Γ.clear = none) (h : C.Commits live t (execTree a (tree x)).2 Δ R x) :
    C.rg.wp live t (onTree a) (fun r y => r = (execTree a (tree x)).1 ∧ C.At live t Δ R y) x := by
  have hi := ok_tree hok
  obtain ⟨F, new, f, hcom, hf, hupd, hk⟩ := h
  refine wp_tree (S := (shadow x).commit t F new f) (P := R) hok (hcom.own hi) (hcom.inv hi)
    hupd (fun e k hfr => ?_) ?_ ?_
  · refine hcom.frozen hi (fun hce => ?_) hfr
    have := (hx.knows.clear e).mp hce
    simp [hc] at this
  · intro e k h1 h2
    have h1' : f = some (e, k) := by simpa [Shadow.commit] using h1
    obtain ⟨h3, h4⟩ := hf e k h1' (h1' ▸ h2)
    exact ⟨h3, h4.vacates hi (hcom.inv hi)⟩
  · exact fun y hy hP => ⟨rfl, .later hk (hcom.inv hi) hy hP⟩

/-- A program on a latched node that commits, at the store that turns its cells; `D` is what
the thread knows after that, by the fields of the node. -/
lemma wp_onNode_commit {p : NodeM α} {D : Fields → Know} {G : Grasp} {c : Content}
    (hx : C.At live t Γ P x) (hc : Γ.clear = none) (hg : Γ.grasp n = some g)
    (hrun : p.run g.fields = some (a, F)) (hturn : p.Turns (Shows · g.cont) (Shows · c) g.fields)
    (hD : ∀ F₁, (D F₁).grasp n = some { G with fields := F₁ }) (hG : G.cont = c)
    (hcD : ∀ F₁, (D F₁).clear = none)
    (hwrite : ∀ F₁ F₂, (D F₁).write n { G with fields := F₁ } F₂ = D F₂)
    (hcommit : ∀ y F₀ F₁, Shows F₁ c → C.At live t (Γ.write n g F₀) P y → C.rg.Ok live t y →
      C.Commits live t (Shadow.setFields (tree y) n F₁) (D F₁) R y) :
    C.rg.wp live t (onNode n p) (fun r y => r = a ∧ C.At live t (D F) R y) x := by
  induction p generalizing x Γ g with
  | ret b => exact hturn.elim
  | ld f k ih =>
    rw [onNode_ld]
    refine RG.wp_seq (wp_load' hx rfl) ?_
    rintro r y - ⟨rfl, hy, -⟩
    have hval : (execTree (.loadField n f) (tree x)).1 = g.fields f := by
      show (tree x).fields n f = _
      rw [(hx.knows.grasp n g hg).fields]
    rw [hval]
    exact ih _ hy hc hg hrun hturn hcommit
  | st f w k ih =>
    rw [onNode_st]
    refine RG.wp_intro fun hok => ?_
    have hn := hx.knows.grasp n g hg
    rcases hturn with ⟨h1, h2⟩ | ⟨h1, h2⟩
    · have hcom : C.Commits live t (execTree (.storeField n f w) (tree x)).2
          (D (Function.update g.fields f w)) R x := by
        have := hcommit x g.fields _ h1 (by rw [Know.write_self hg]; exact hx.touch) hok
        rwa [← hn.fields] at this ⊢
      refine RG.wp_seq (wp_commit hx hok hc hcom) ?_
      rintro r y - ⟨-, hy⟩
      have hkeep : k.Keeps (Shows · G.cont) (Function.update g.fields f w) := by rwa [hG]
      refine RG.wp_mono (wp_onNode hy (hcD _) (hD _) hrun hkeep) ?_
      rintro r z - ⟨rfl, hz⟩
      exact ⟨rfl, by rwa [hwrite] at hz⟩
    · have hk := hx.knows.write (ok_tree hok) hg (Function.update g.fields f w)
      rw [← hn.fields] at hk
      refine RG.wp_seq (wp_storeField hx hc f w (.inl hn.owner) (fun _ => ?_) hk) ?_
      · rw [hn.fields, hn.cont]
        exact h1
      intro _ y _ hy
      rw [hn.fields] at hy
      refine ih hy hc Know.write_grasp hrun h2 ?_
      intro z F₀ F₁ hF₁ hz
      rw [Know.write_write] at hz
      exact hcommit z F₀ F₁ hF₁ hz
  | fail => exact hturn.elim

lemma wp_typed_commit {p : NodeType → NodeM α} {D : Fields → Know} {G : Grasp} {c : Content}
    (hx : C.At live t Γ P x) (hc : Γ.clear = none) (hg : Γ.grasp n = some g)
    (hrun : (p g.ty).run g.fields = some (a, F))
    (hturn : (p g.ty).Turns (Shows · g.cont) (Shows · c) g.fields)
    (hD : ∀ F₁, (D F₁).grasp n = some { G with fields := F₁ }) (hG : G.cont = c)
    (hcD : ∀ F₁, (D F₁).clear = none)
    (hwrite : ∀ F₁ F₂, (D F₁).write n { G with fields := F₁ } F₂ = D F₂)
    (hcommit : ∀ y F₀ F₁, Shows F₁ c → C.At live t (Γ.write n g F₀) P y → C.rg.Ok live t y →
      C.Commits live t (Shadow.setFields (tree y) n F₁) (D F₁) R y) :
    C.rg.wp live t (typed n p) (fun r y => r = a ∧ C.At live t (D F) R y) x := by
  refine RG.wp_seq (wp_nodeType hx n) ?_
  rintro r y - ⟨rfl, hy, -⟩
  rw [(hx.knows.grasp n g hg).ty]
  exact wp_onNode_commit hy hc hg hrun hturn hD hG hcD hwrite hcommit

end Client

end Artmap
