import Artmap.Tree.Build
import Artmap.Tree.Publish

/-!
# Putting a leaf in its place

An insert takes effect at the store that makes its leaf reachable, or at the validation of the
node in which it found another leaf.  The client brings the steps it has to take along: one
before a leaf becomes reachable (the length is counted first), one as it becomes reachable, and
three around the leaf it replaces.

The stores are those to a slot of a latched node, and the publications of new nodes: of a chain
below which a leaf is split, of a node above another, and of a larger copy.
-/

namespace Artmap

open scoped List

namespace Know

/-- The thread holds and owes what it held and owed before, but for unpublished nodes. -/
structure Quiet (Γ Δ : Know) : Prop where
  lo : Δ.lo = Γ.lo
  held : Δ.held = Γ.held
  follow : Δ.follow = Γ.follow
  clear : Δ.clear = Γ.clear
  due : Δ.due = Γ.due

variable {Γ Δ Δ' : Know} {n : NodeId} {v : ℕ} {g : Grasp} {o : Option Sight}

lemma Quiet.rfl : Γ.Quiet Γ := ⟨Eq.refl _, Eq.refl _, Eq.refl _, Eq.refl _, Eq.refl _⟩

lemma Quiet.trans (h : Γ.Quiet Δ) (h' : Δ.Quiet Δ') : Γ.Quiet Δ' :=
  ⟨h'.lo.trans h.lo, h'.held.trans h.held, h'.follow.trans h.follow, h'.clear.trans h.clear,
    h'.due.trans h.due⟩

lemma Idle.quiet (h : Γ.Idle Δ) : Γ.Quiet Δ :=
  ⟨h.lo, h.held, h.follow, h.clear, h.due⟩

lemma Builds.quiet (h : Γ.Builds Δ) : Γ.Quiet Δ := by
  rw [h]
  exact ⟨Eq.refl _, Eq.refl _, Eq.refl _, Eq.refl _, Eq.refl _⟩

lemma Builds.seen (h : Γ.Builds Δ) : Δ.seen = Γ.seen := by rw [h]

lemma Builds.top (h : Γ.Builds Δ) : Δ.top = Γ.top := by rw [h]

lemma Builds.grasp (h : Γ.Builds Δ) : Δ.grasp = Γ.grasp := by rw [h]

lemma Builds.base (h : Γ.Builds Δ) : Δ.base = Γ.base := by rw [h]

/-- A node that was latched is released. -/
lemma Quiet.unlatch (h : (Γ.latch n v g).Quiet Δ) (hh : Γ.held (.node n) = none) :
    Γ.Quiet (Δ.unlatch n o) := by
  refine ⟨h.lo, ?_, h.follow, h.clear, h.due⟩
  show Function.update Δ.held _ none = Γ.held
  rw [h.held]
  simp only [latch, Function.update_idem]
  rw [← hh, Function.update_eq_self]

/-- The root was latched, and is released. -/
lemma Quiet.unlatchRoot {e : ℕ} {r : Slot} (h : (Γ.latchRoot v r e).Quiet Δ)
    (hh : Γ.held .root = none) : Γ.Quiet Δ.unlatchRoot := by
  refine ⟨h.lo, ?_, h.follow, h.clear, h.due⟩
  show Function.update Δ.held _ none = Γ.held
  rw [h.held]
  simp only [latchRoot, Function.update_idem]
  rw [← hh, Function.update_eq_self]

end Know

namespace Client

variable {C : Client} {live : Bool} {t : ℕ} {Γ Δ : Know} {P R : C.Assertion t} {x y : C.W}
  {n : NodeId} {s : Sight} {v e : ℕ} {pg : ParentGuard} {path : List Byte} {key : Key}
  {l old : Leaf}

/-! ## What the client brings -/

/-- The client lets thread `t` take a step on the memory around the tree, from `P` to `R`. -/
def LeafStep (t : ℕ) (a : LeafAct) (P R : C.Assertion t) : Prop :=
  ∀ x, C.Inv x → P x → C.Allowed t a x ∧ Upd t x (execLeaf t a x.leafs).2 x.view R

lemma wp_leafStep_later {a : LeafAct} (h : C.LeafStep t a P R) (hx : C.At live t Γ P x) :
    C.rg.wp live t (onLeaf a) (fun _ y => C.At live t Γ R y ∧
      Later live t (tree x) (shadow x) y) x := by
  refine RG.wp_intro fun hok => ?_
  obtain ⟨h1, h2⟩ := h (scene x) (ok_client hok) hx.client
  exact wp_leaf hok h1 h2 fun y hy hR => ⟨.later hx.knows (ok_tree hok) hy hR, hy⟩

lemma wp_leafStep {a : LeafAct} (h : C.LeafStep t a P R) (hx : C.At live t Γ P x) :
    C.rg.wp live t (onLeaf a) (fun _ y => C.At live t Γ R y) x :=
  RG.wp_mono (wp_leafStep_later h hx) fun _ _ _ h => h.1

/-- The mark of a leaf that was taken out. -/
def MarkStep (t : ℕ) (kind : LeafKind) (l : Leaf) (P R : C.Assertion t) : Prop :=
  match kind with
  | .plain => C.LeafStep t (.markRemoved l) P R
  | .versioned => ∀ x, P x → R x

lemma wp_markRemoved_later {kind : LeafKind} (h : C.MarkStep t kind l P R)
    (hx : C.At live t Γ P x) :
    C.rg.wp live t (markRemoved kind l) (fun _ y => C.At live t Γ R y ∧
      Later live t (tree x) (shadow x) y) x := by
  cases kind with
  | plain => exact wp_leafStep_later h hx
  | versioned => exact RG.wp_ret ⟨⟨hx.knows, h _ hx.client⟩, .refl x⟩

lemma wp_markRemoved {kind : LeafKind} (h : C.MarkStep t kind l P R) (hx : C.At live t Γ P x) :
    C.rg.wp live t (markRemoved kind l) (fun _ y => C.At live t Γ R y) x :=
  RG.wp_mono (wp_markRemoved_later h hx) fun _ _ _ h => h.1

/-- What a client brings to an insert of the leaf `l`: `pend` holds between the count and the
publication, `swap` and `mark` between a replacement, the mark and the retirement of the old
leaf. -/
structure InsertHooks (t lo : ℕ) (kind : LeafKind) (l : Leaf) (mode : Mode) (count : ℤ)
    (P : C.Assertion t) (Q : Option Outcome → C.Assertion t) where
  pend : C.Assertion t
  swap : Leaf → C.Assertion t
  mark : Leaf → C.Assertion t
  can_count : C.LeafStep t (.lenAdd count) P pend
  can_put : C.CanSet t lo l.key none (some l) pend (Q (some (.inserted l)))
  can_swap : ∀ old, mode = .replace → C.CanSet t lo l.key (some old) (some l) P (swap old)
  can_mark : ∀ old, mode = .replace → C.MarkStep t kind old (swap old) (mark old)
  can_retire : ∀ old, mode = .replace →
    C.LeafStep t (.retireLeaf old) (mark old) (Q (some (.replaced old)))
  can_find : mode = .insertIfAbsent → ∀ x e old, C.Inv x → P x → lo ≤ e → e ≤ x.view.cur →
    x.view.map e l.key = some old → Upd t x x.leafs x.view (Q (some (.existing old)))
  can_fail : ∀ x, P x → ¬ x.view.roomy → Q none x

/-! ## Publications -/

/-- The step of the client at a publication that changes the map at one key. -/
lemma CanSet.upd {old new : Option Leaf} {G : Forest} (h : C.CanSet t Γ.lo key old new P R)
    (hok : C.rg.Ok live t y) (hP : P (scene y)) (hlo : Γ.lo ≤ e) (hle : e ≤ (shadow y).cur)
    (hmap : (shadow y).forest.map e key = old) (hfree : ¬ (shadow y).Frozen (tree y) e key)
    (hG : G.map = Function.update (shadow y).forest.map e
      (Function.update ((shadow y).forest.map e) key new)) :
    Upd t (scene y) (scene y).leafs { (scene y).view with map := G.map } R := by
  rw [hG]
  exact h (scene y) e (ok_client hok) hP hlo hle hmap hfree

/-- Where the guarded location is. -/
lemma Guarded.le_cur (hg : Guarded Γ pg r e path) (hok : C.rg.Ok live t y)
    (hr : Ready live t Γ pg.owner? (tree y) (shadow y)) : e ≤ (shadow y).cur := by
  obtain ⟨h1, h2, -⟩ := hg.loc hr (ok_tree hok)
  exact (h1.epoch (ok_tree hok) h2).1

/-- A key below a guarded location that holds no node is not frozen. -/
lemma Guarded.not_frozen {r : Slot} (hg : Guarded Γ pg r e path) (hc : Γ.clear = none)
    (hok : C.rg.Ok live t y) (hr : Ready live t Γ pg.owner? (tree y) (shadow y))
    (hnode : ∀ c, r ≠ .node c) (hpath : path <+: key) :
    ¬ (shadow y).Frozen (tree y) e key := by
  obtain ⟨h1, h2, h3⟩ := hg.loc hr (ok_tree hok)
  cases pg with
  | root v =>
    obtain rfl : e = (shadow y).cur := h1.2
    exact Shadow.not_frozen_cur
  | node p v b =>
    obtain ⟨q, hq, rfl⟩ := h2
    have hcl : (shadow y).clearer e ≠ some t := by
      rw [Ne, hr.knows.clear e]
      show ¬ Γ.clear = some e
      simp [hc]
    refine Shadow.not_frozen_of_home (n := p) (ok_tree hok) ⟨q, hq, .inr ⟨b, hpath, fun c => ?_⟩⟩
      h1 hcl
    have h3' : ((shadow y).forest.cont p).child b = r := h3
    rw [h3']
    exact hnode c

/-- A guard stays one across its own publication. -/
lemma Guarded.publish {r r' : Slot} {F : Fields} {new : List NodeId}
    {touch : NodeId → Option (Option Grasp)} {f : Option (ℕ × Key)}
    {o : Option (NodeId × Sight)} (hg : Guarded Γ pg r e path) (hF : pg.Fits Γ r' F)
    (howner : ∀ p, pg.owner? = some p → touch p = none) :
    Guarded ((Γ.publish pg r' F new touch f).spot o) pg r' e path := by
  refine (hg.store hF).congr ?_ ?_ ?_
  · simp only [Know.spot_held, Know.publish_held]
    cases pg <;> rfl
  · intro _
    rw [Know.spot_top]
    cases pg <;> rfl
  · intro p hp
    rw [Know.spot_grasp, Know.publish_grasp_owner (howner p hp)]

/-- An unpublished node is not latched. -/
lemma At.priv_ne_held {n n' : NodeId} (hx : C.At live t Γ P x) (hok : C.rg.Ok live t x)
    (hn : Γ.priv n ≠ none) (hn' : Γ.held (.node n') ≠ none) : n ≠ n' := by
  rintro rfl
  obtain ⟨⟨ty, F⟩, hp⟩ := Option.ne_none_iff_exists'.mp hn
  obtain ⟨v, hv⟩ := Option.ne_none_iff_exists'.mp hn'
  have hi := ok_tree hok
  exact (hi.priv_lt (hx.knows.priv n ty F hp).1).2
    (hi.pub_of_owner (by simp [(hx.knows.held _ v hv).2.1]))

/-- An unpublished node is not behind a guard. -/
lemma At.priv_ne_owner {n : NodeId} {r : Slot} (hx : C.At live t Γ P x) (hok : C.rg.Ok live t x)
    (hn : Γ.priv n ≠ none) (hg : Guarded Γ pg r e path) : pg.owner? ≠ some n := by
  intro ho
  cases pg with
  | root v => simp [ParentGuard.owner?] at ho
  | node p v b =>
    obtain rfl : p = n := by simpa [ParentGuard.owner?] using ho
    exact hx.priv_ne_held hok hn (by simp [hg.1]) rfl

/-- Both latches have been given up. -/
lemma Paired.released {pg : ParentGuard} {F : Fields} {Δ₁ Δ₂ : Know} (h : Paired Γ Δ pg n s F)
    (hh : ∀ l, Γ.held l = none) (h₁ : Δ₁.held = Function.update Δ.held (.node n) none)
    (h₂ : Δ₂.held = Function.update Δ₁.held pg.latch none) : Δ₂.held = Γ.held := by
  funext lt
  rw [h₂, h₁, h.held, hh lt]
  by_cases h1 : lt = pg.latch
  · simp [h1]
  · by_cases h2 : lt = .node n
    · subst h2
      simp [h1]
    · simp [h1, h2, hh lt]

/-- A guard does not depend on the nodes that are not its own. -/
lemma Guarded.of_ne {pg : ParentGuard} {r : Slot} {e : ℕ} {path : List Byte}
    (hg : Guarded Γ pg r e path) (hne : pg.owner? ≠ some n) (ht : Δ.top = Γ.top)
    (hh : ∀ lt, lt ≠ .node n → Δ.held lt = Γ.held lt)
    (hk : ∀ p, p ≠ n → Δ.grasp p = Γ.grasp p) : Guarded Δ pg r e path := by
  refine hg.congr (hh _ ?_) (fun _ => ht) fun p hp => hk p fun h => hne (h ▸ hp)
  cases pg with
  | root v => simp [ParentGuard.latch]
  | node p v b => simpa [ParentGuard.latch, ParentGuard.owner?] using hne

/-- A node in a tree is not due to be retired. -/
lemma At.not_due {g : Grasp} (hx : C.At live t Γ P x) (hok : C.rg.Ok live t x)
    (hg : Γ.grasp n = some g) (hp : g.place ≠ none) : ¬ Γ.due n := by
  intro hd
  have h := ((ok_tree hok).ledger.due ((hx.knows.due n).mpr hd)).2.1
  rw [(hx.knows.grasp n g hg).place] at h
  exact hp h

/-! ### Chains -/

section Split

variable {L : Forest.Links} {bottom : NodeId} {c : Content} {p : Pool} {pre es ns rest : List Byte}
  {G : Forest}

/-- The nodes of a chain stand for what is published. -/
lemma chain_repr (hch : Γ.Chain L bottom) (hG : G.LinkedBy L bottom) {n : NodeId}
    (hn : n ∈ L.map Prod.fst) :
    (∃ ty F, Γ.priv n = some (ty, F) ∧ Repr ty F (G.cont n)) ∧ ¬ (G.cont n).Empty := by
  induction L with
  | nil => simp at hn
  | cons i L ih =>
    obtain ⟨m, seg, b⟩ := i
    obtain ⟨⟨F, h1, h2⟩, h3⟩ := hch
    obtain ⟨h4, h5⟩ := hG
    simp only [List.map_cons, List.mem_cons] at hn
    rcases hn with rfl | hn
    · rw [h4]
      refine ⟨⟨_, F, h1, h2⟩, fun hem => ?_⟩
      have := hem.2 b
      simp [Forest.link] at this
    · exact ih h3 h5 hn

/-- The leaf at a guarded location goes down a chain. -/
lemma publishes_split (hok : C.rg.Ok live t y)
    (hr : Ready live t Γ pg.owner? (tree y) (shadow y)) (hg : Guarded Γ pg (.leaf old) e path)
    (hm : Making Γ p L bottom c) (hf : Forked pre es ns old l c L rest)
    (hold : old.key = path ++ pre ++ es) (hl : l.key = path ++ pre ++ ns) :
    ∃ G, Publishes live t Γ pg e (.node (Forest.topOf L bottom)) G (bottom :: L.map Prod.fst)
        (fun _ => none) Γ.follow (shadow y) ∧
      Spotted Γ (bottom :: L.map Prod.fst) G
        (some (bottom, ⟨0, .node4, c, e, path ++ Forest.along L⟩)) ∧
      G.map = Function.update (shadow y).forest.map e
        (Function.update ((shadow y).forest.map e) l.key (some l)) := by
  have hi := ok_tree hok
  obtain ⟨h1, h2, h3⟩ := hg.loc hr hi
  have hnew : ∀ n, n ∈ L.map Prod.fst ∨ n = bottom → (shadow y).priv n = some t := by
    intro n hn
    have hpriv : Γ.priv n ≠ none :=
      (hm.pool.priv n).mpr (List.mem_map.mpr ⟨(n, true), (hm.used n).mpr hn.symm, rfl⟩)
    obtain ⟨⟨ty, F⟩, hp⟩ := Option.ne_none_iff_exists'.mp hpriv
    exact (hr.knows.priv n ty F hp).1
  have hspell : path ++ pre = path ++ Forest.along L ++ rest := by
    rw [← hf.spelled, List.append_assoc]
  obtain ⟨G, hloc, hmap, hlinks, hcont, hplace⟩ := Shadow.locCommit_split hi h1 h2 h3 hnew
    hm.nodup hm.fresh hm.short hf.short (by rw [hold, hspell]) (by rw [hl, hspell]) hf.apart
  rw [← hf.fork] at hcont
  have hnodes : ∀ n, n ∈ bottom :: L.map Prod.fst →
      (∃ ty F, Γ.priv n = some (ty, F) ∧ Repr ty F (G.cont n)) ∧ ¬ (G.cont n).Empty := by
    intro n hn
    rcases List.mem_cons.mp hn with rfl | hn
    · obtain ⟨F, h4, h5⟩ := hm.bottom_built
      refine ⟨⟨_, F, h4, hcont ▸ h5⟩, ?_⟩
      rw [hcont, hf.fork]
      exact Content.not_empty_setAt _ _ _
    · exact chain_repr hm.chain hlinks hn
  refine ⟨G, ⟨by simpa using hloc, fun _ _ => rfl, by simp, by simp,
    fun n hn => (hnodes n hn).1, ?_⟩, ?_, hmap⟩
  · have hfol : (shadow y).follow t = Γ.follow := hr.knows.follow
    rw [← hfol]
    refine hloc.cover hi (by simp) fun n q hn _ hem => ?_
    exact absurd hem (hnodes n (hn.resolve_left id)).2
  · obtain ⟨F, h4, -⟩ := hm.bottom_built
    exact ⟨by simp, rfl, ⟨F, h4⟩, hcont, hplace⟩

/-- The store that splits a leaf. -/
lemma wp_split {w : TreeM Unit} (hcan : C.CanSet t Γ.lo l.key none (some l) P R)
    (hx : C.At live t Γ P x) (hc : Γ.clear = none) (hg : Guarded Γ pg (.leaf old) e path)
    (hlo : Γ.lo ≤ e) (hm : Making Γ p L bottom c) (hf : Forked pre es ns old l c L rest)
    (hold : old.key = path ++ pre ++ es) (hl : l.key = path ++ pre ++ ns) (hne : old.key ≠ l.key)
    (hw : pg.Stores Γ (.node (Forest.topOf L bottom)) w) :
    C.rg.wp live t w (fun _ y => ∃ Δ, Γ.Quiet Δ ∧ PoolOk Δ p.commit ∧
      Guarded Δ pg (.node (Forest.topOf L bottom)) e path ∧
      Δ.seen bottom = some ⟨0, .node4, c, e, path ++ Forest.along L⟩ ∧ C.At live t Δ R y) x := by
  have hpath : path <+: l.key := ⟨pre ++ ns, by rw [hl, List.append_assoc]⟩
  refine RG.wp_mono (wp_publish (bottom :: L.map Prod.fst) (f := Γ.follow) (R := R)
    (o := some (bottom, ⟨0, .node4, c, e, path ++ Forest.along L⟩)) hx hc hg hw
    (fun _ _ => rfl) ?_) ?_
  · intro y hok hr hP
    obtain ⟨G, h1, h2, h3⟩ := publishes_split hok hr hg hm hf hold hl
    refine ⟨G, h1, h2, fun _ _ _ h => absurd rfl h, ?_⟩
    obtain ⟨-, h4, h5⟩ := hg.loc hr (ok_tree hok)
    refine hcan.upd hok hP hlo (hg.le_cur hok hr) ?_
      (hg.not_frozen hc hok hr (by simp) hpath) h3
    rw [(ok_tree hok).wf.map_slot h4 (by simp [h5]) hpath, h5]
    simp [Slot.map, Ne.symm hne]
  · rintro _ y - ⟨F, hF, hy⟩
    refine ⟨_, ⟨by simp, by simp, by simp, by simp, by funext n; simp⟩, ?_,
      hg.publish hF fun _ _ => rfl, by simp [Know.spot, Know.see], hy⟩
    refine hm.pool.commit (bottom :: L.map Prod.fst) (fun n => ?_) ?_
    · rw [hm.used n, List.mem_cons]
    · rw [Know.spot_priv, Know.publish_priv]

end Split

/-! ### Nodes above others -/

section Wrap

variable {c d : NodeId} {g : Grasp} {u z rest : List Byte} {b : Byte}

/-- What becomes of the node below a new one. -/
def Grasp.lower (g : Grasp) (z : List Byte) (e : ℕ) (path : List Byte) : Grasp :=
  { g with cont := { g.cont with pre := z }, place := some (e, path) }

/-- The fresh node `d` goes above the node at a guarded location. -/
lemma publishes_wrap (hok : C.rg.Ok live t y)
    (hr : Ready live t Γ pg.owner? (tree y) (shadow y)) (hg : Guarded Γ pg (.node c) e path)
    (hne : pg.owner? ≠ some c) (hgr : Γ.grasp c = some g) (hpre : g.cont.pre = u ++ b :: z)
    (hd : Γ.Built d .node4 ((Forest.above u b c).setAt rest (some l)))
    (hl : l.key = path ++ u ++ rest) (hoff : rest.head? ≠ some b) :
    ∃ G, Publishes live t Γ pg e (.node d) G [d]
        (fun n => if n = c then some (some (Grasp.lower g z e (path ++ u ++ [b]))) else none)
        Γ.follow (shadow y) ∧
      Spotted Γ [d] G
        (some (d, ⟨0, .node4, (Forest.above u b c).setAt rest (some l), e, path⟩)) ∧
      G.map = Function.update (shadow y).forest.map e
        (Function.update ((shadow y).forest.map e) l.key (some l)) := by
  have hi := ok_tree hok
  obtain ⟨h1, h2, h3⟩ := hg.loc hr hi
  obtain ⟨F, hpriv, hrepr⟩ := hd
  have hcont : (shadow y).forest.cont c = g.cont := hr.cont c g hgr
  have hcpre : (shadow y).forest.pre c = u ++ b :: z := by rw [Forest.pre, hcont, hpre]
  obtain ⟨G, hloc, hmap, hcd, hcc, hpd, hpc⟩ := Shadow.locCommit_wrap hi h1 h2 h3
    (hr.owner c g hgr) (hr.knows.priv d _ F hpriv).1 hcpre hl hoff
  have htouch : ∀ n, (if n = c then some (some (Grasp.lower g z e (path ++ u ++ [b])))
      else none) ≠ none ↔ n = c := by
    intro n
    by_cases hn : n = c <;> simp [hn]
  refine ⟨G, ⟨by simpa only [htouch] using hloc, ?_, ?_, ?_, ?_, ?_⟩, ?_, hmap⟩
  · intro p hp
    have hpc : p ≠ c := fun h => hne (h ▸ hp)
    simp [hpc]
  · intro n hn
    by_cases hnc : n = c <;> simp [hnc] at hn
  · intro n g' hn
    by_cases hnc : n = c
    · subst hnc
      obtain rfl : Grasp.lower g z e (path ++ u ++ [b]) = g' := by simpa using hn
      exact ⟨g, hgr, rfl, rfl, by rw [hcc, hcont]; rfl, hpc, by simp [Grasp.lower]⟩
    · simp [hnc] at hn
  · intro n hn
    obtain rfl : n = d := by simpa using hn
    exact ⟨_, F, hpriv, hcd ▸ hrepr⟩
  · have hfol : (shadow y).follow t = Γ.follow := hr.knows.follow
    rw [← hfol]
    refine hloc.cover hi (by simp) fun n q hn hpl hem => ?_
    rcases hn with rfl | hn
    · -- A node that was empty before is still on the path of the same follow-up.
      rw [hpc] at hpl
      simp only [Option.some.injEq, Prod.mk.injEq] at hpl
      obtain ⟨rfl, rfl⟩ := hpl
      rw [hcc] at hem
      obtain ⟨t', k, h4, h5⟩ := hi.cover (hi.wf.place_of_slot h2 h3) hem
      refine ⟨t', k, h4, ?_⟩
      rw [hcpre] at h5
      have hp : G.pre n = z := by rw [Forest.pre, hcc]
      simpa [hp] using h5
    · obtain rfl : n = d := by simpa using hn
      rw [hcd] at hem
      exact absurd hem (Content.not_empty_setAt _ _ _)
  · exact ⟨by simp, rfl, ⟨F, hpriv⟩, hcd, hpd⟩

/-- The store that puts a node above another. -/
lemma wp_wrap (hcan : C.CanSet t Γ.lo l.key none (some l) P R) (hx : C.At live t Γ P x)
    (hc : Γ.clear = none) (hg : Guarded Γ pg (.node c) e path) (hlo : Γ.lo ≤ e)
    (hne : pg.owner? ≠ some c) (hgr : Γ.grasp c = some g) (hpre : g.cont.pre = u ++ b :: z)
    (hd : Γ.Built d .node4 ((Forest.above u b c).setAt rest (some l)))
    (hl : l.key = path ++ u ++ rest) (hoff : rest.head? ≠ some b) :
    C.rg.wp live t (publishInParent pg (.node d)) (fun _ y => ∃ Δ, Γ.Quiet Δ ∧
      (Δ.priv = fun n => if n ∈ [d] then none else Γ.priv n) ∧ Guarded Δ pg (.node d) e path ∧
      Δ.grasp c = some (Grasp.lower g z e (path ++ u ++ [b])) ∧
      Δ.seen d = some ⟨0, .node4, (Forest.above u b c).setAt rest (some l), e, path⟩ ∧
      C.At live t Δ R y) x := by
  have howner : ∀ p, pg.owner? = some p →
      (if p = c then some (some (Grasp.lower g z e (path ++ u ++ [b]))) else none) = none := by
    intro p hp
    have hpc : p ≠ c := fun h => hne (h ▸ hp)
    simp [hpc]
  refine RG.wp_mono (wp_publish [d] (R := R) (f := Γ.follow)
    (o := some (d, ⟨0, .node4, (Forest.above u b c).setAt rest (some l), e, path⟩)) hx hc hg
    (stores_publish (by simp) (by simp) hg) howner ?_) ?_
  · intro y hok hr hP
    obtain ⟨G, h1, h2, h3⟩ := publishes_wrap hok hr hg hne hgr hpre hd hl hoff
    refine ⟨G, h1, h2, fun _ _ _ h => absurd rfl h, ?_⟩
    have hi := ok_tree hok
    obtain ⟨-, h4, h5⟩ := hg.loc hr hi
    have hpl := hi.wf.place_of_slot h4 h5
    have hcpre : (shadow y).forest.pre c = u ++ b :: z := by
      rw [Forest.pre, hr.cont c g hgr, hpre]
    have hkey : path <+: l.key := ⟨u ++ rest, by rw [hl, List.append_assoc]⟩
    have hleave : ¬ u ++ b :: z <+: u ++ rest := by
      rw [List.prefix_append_right_inj]
      rintro ⟨tl, htl⟩
      exact hoff (by rw [← htl]; rfl)
    refine hcan.upd hok hP hlo (hg.le_cur hok hr) ?_ ?_ h3
    · refine hi.wf.map_off hpl (by rw [hl, List.append_assoc]) ?_
      rwa [hcpre]
    · refine Shadow.not_frozen_of_off hi hpl hkey ?_ (hr.owner c g hgr)
      rwa [hcpre, hl, List.append_assoc, List.prefix_append_right_inj]
  · rintro _ y - ⟨F, hF, hy⟩
    refine ⟨_, ⟨by simp, by simp, by simp, by simp, ?_⟩,
      by rw [Know.spot_priv, Know.publish_priv], hg.publish hF howner, ?_,
      by simp [Know.spot, Know.see], hy⟩
    · funext n
      by_cases hn : n = c <;> simp [hn]
    · rw [Know.spot_grasp, Know.publish_grasp_touched (if_pos rfl)]

end Wrap

/-! ### Larger copies -/

section Grow

variable {c d : NodeId} {g : Grasp} {rest : List Byte} {ty : NodeType}

/-- The fresh node `d` takes the place of the node at a guarded location, with one more
leaf. -/
lemma publishes_grow (hok : C.rg.Ok live t y)
    (hr : Ready live t Γ pg.owner? (tree y) (shadow y)) (hg : Guarded Γ pg (.node c) e path)
    (hne : pg.owner? ≠ some c) (hgr : Γ.grasp c = some g)
    (hd : Γ.Built d ty (g.cont.setAt rest (some l))) (hl : l.key = path ++ g.cont.pre ++ rest)
    (hslot : g.cont.slotAt rest = .null) :
    ∃ G, Publishes live t Γ pg e (.node d) G [d]
        (fun n => if n = c then some none else none) Γ.follow (shadow y) ∧
      Spotted Γ [d] G (some (d, ⟨0, ty, g.cont.setAt rest (some l), e, path⟩)) ∧
      G.map = Function.update (shadow y).forest.map e
        (Function.update ((shadow y).forest.map e) l.key (some l)) := by
  have hi := ok_tree hok
  obtain ⟨h1, h2, h3⟩ := hg.loc hr hi
  obtain ⟨F, hpriv, hrepr⟩ := hd
  have hcont : (shadow y).forest.cont c = g.cont := hr.cont c g hgr
  obtain ⟨G, hloc, hmap, hcd, hpd, hpc⟩ := Shadow.locCommit_grow hi h1 h2 h3
    (hr.owner c g hgr) (hr.knows.priv d _ F hpriv).1 (by rw [Forest.pre, hcont, hl])
    (by rw [hcont, hslot])
  rw [hcont] at hcd
  have htouch : ∀ n, (if n = c then some none else none : Option (Option Grasp)) ≠ none ↔
      n = c := by
    intro n
    by_cases hn : n = c <;> simp [hn]
  refine ⟨G, ⟨by simpa only [htouch] using hloc, ?_, ?_, ?_, ?_, ?_⟩, ?_, hmap⟩
  · intro p hp
    have hpc : p ≠ c := fun h => hne (h ▸ hp)
    simp [hpc]
  · intro n hn
    by_cases hnc : n = c
    · rw [hnc, hpc]
    · simp [hnc] at hn
  · intro n g' hn
    by_cases hnc : n = c <;> simp [hnc] at hn
  · intro n hn
    obtain rfl : n = d := by simpa using hn
    exact ⟨_, F, hpriv, hcd ▸ hrepr⟩
  · have hfol : (shadow y).follow t = Γ.follow := hr.knows.follow
    rw [← hfol]
    refine hloc.cover hi (by simp) fun n q hn hpl hem => ?_
    rcases hn with rfl | hn
    · simp [hpc] at hpl
    · obtain rfl : n = d := by simpa using hn
      rw [hcd] at hem
      exact absurd hem (Content.not_empty_setAt _ _ _)
  · exact ⟨by simp, rfl, ⟨F, hpriv⟩, hcd, hpd⟩

/-- The store that replaces a node by a larger one. -/
lemma wp_grow (hcan : C.CanSet t Γ.lo l.key none (some l) P R) (hx : C.At live t Γ P x)
    (hc : Γ.clear = none) (hg : Guarded Γ pg (.node c) e path) (hlo : Γ.lo ≤ e)
    (hne : pg.owner? ≠ some c) (hgr : Γ.grasp c = some g)
    (hd : Γ.Built d ty (g.cont.setAt rest (some l))) (hl : l.key = path ++ g.cont.pre ++ rest)
    (hslot : g.cont.slotAt rest = .null) :
    C.rg.wp live t (publishInParent pg (.node d)) (fun _ y => ∃ Δ, Δ.lo = Γ.lo ∧
      Δ.held = Γ.held ∧ Δ.follow = Γ.follow ∧ Δ.clear = Γ.clear ∧
      (∀ n, Δ.due n ↔ Γ.due n ∨ n = c) ∧
      (Δ.priv = fun n => if n ∈ [d] then none else Γ.priv n) ∧ Guarded Δ pg (.node d) e path ∧
      Δ.seen d = some ⟨0, ty, g.cont.setAt rest (some l), e, path⟩ ∧ C.At live t Δ R y) x := by
  have howner : ∀ p, pg.owner? = some p →
      (if p = c then some none else none : Option (Option Grasp)) = none := by
    intro p hp
    have hpc : p ≠ c := fun h => hne (h ▸ hp)
    simp [hpc]
  refine RG.wp_mono (wp_publish [d] (R := R) (f := Γ.follow)
    (o := some (d, ⟨0, ty, g.cont.setAt rest (some l), e, path⟩)) hx hc hg
    (stores_publish (by simp) (by simp) hg) howner ?_) ?_
  · intro y hok hr hP
    obtain ⟨G, h1, h2, h3⟩ := publishes_grow hok hr hg hne hgr hd hl hslot
    refine ⟨G, h1, h2, fun _ _ _ h => absurd rfl h, ?_⟩
    have hi := ok_tree hok
    obtain ⟨-, h4, h5⟩ := hg.loc hr hi
    have hpl := hi.wf.place_of_slot h4 h5
    have hco : (shadow y).forest.cont c = g.cont := hr.cont c g hgr
    have hkey : l.key = path ++ (shadow y).forest.pre c ++ rest := by rw [Forest.pre, hco, hl]
    have hno : ∀ n, ((shadow y).forest.cont c).slotAt rest ≠ .node n := by
      rw [hco, hslot]
      simp
    have hcl : (shadow y).clearer e ≠ some t := by
      rw [Ne, hr.knows.clear e]
      show ¬ Γ.clear = some e
      simp [hc]
    refine hcan.upd hok hP hlo (hg.le_cur hok hr) ?_
      (not_frozen_of_slot hi hpl hkey hno (hr.owner c g hgr) hcl) h3
    rw [hi.wf.map_node hpl hkey hno, hco, hslot]
    rfl
  · rintro _ y - ⟨F, hF, hy⟩
    refine ⟨_, by simp, by simp, by simp, by simp, fun n => ?_,
      by rw [Know.spot_priv, Know.publish_priv], hg.publish hF howner,
      by simp [Know.spot, Know.see], hy⟩
    by_cases hn : n = c <;> simp [hn]

end Grow

/-! ### The root -/

/-- A leaf, or nothing, at the root gives way to another. -/
lemma wp_putRoot {v : ℕ} {r : Slot} {z : Option Leaf}
    (hcan : C.CanSet t Γ.lo key (r.map key) z P R) (hx : C.At live t Γ P x)
    (hc : Γ.clear = none) (hg : Guarded Γ (.root v) r e []) (hlo : Γ.lo ≤ e)
    (hnode : ∀ c, r ≠ .node c) (hold : ∀ l, r = .leaf l → l.key = key)
    (hnew : ∀ l, z = some l → l.key = key) :
    C.rg.wp live t (onTree (.storeRoot (Slot.ofOption z))) (fun _ y => ∃ Δ, Γ.Quiet Δ ∧
      Δ.priv = Γ.priv ∧ Guarded Δ (.root v) (Slot.ofOption z) e [] ∧ C.At live t Δ R y) x := by
  refine RG.wp_mono (wp_publish [] (f := Γ.follow) (R := R)
    (o := none) hx hc hg rfl (fun _ _ => rfl) ?_) ?_
  · intro y hok hr hP
    have hi := ok_tree hok
    obtain ⟨h1, h2, h3⟩ := hg.loc hr hi
    have hroot : (shadow y).forest.root e = r := h3
    have hno : ∀ c, (shadow y).forest.root e ≠ .node c := by rwa [hroot]
    have hloc := Shadow.locCommit_putRoot (x := z) hi h1 hno
    refine ⟨_, ⟨by simpa [ParentGuard.loc] using hloc, fun _ _ => rfl, by simp, by simp, by simp,
      ?_⟩, trivial, fun _ _ _ h => absurd rfl h, ?_⟩
    · have hfol : (shadow y).follow t = Γ.follow := hr.knows.follow
      intro n p hpl hem
      rw [← hfol, Function.update_eq_self]
      simp only [Forest.put_place, Forest.put_cont, Forest.setSlot] at hpl hem
      exact hi.cover hpl hem
    · refine hcan.upd hok hP hlo (hg.le_cur hok hr) ?_
        (hg.not_frozen hc hok hr hnode List.nil_prefix) ?_
      · rw [hi.wf.map_slot h2 (by rwa [h3]) List.nil_prefix, h3]
      · exact hi.wf.put_root_map hno (by rwa [hroot]) hnew
  · rintro _ y - ⟨F, hF, hy⟩
    exact ⟨_, ⟨by simp, by simp, by simp, by simp, by funext n; simp⟩,
      by rw [Know.spot_priv, Know.publish_priv]; simp, hg.publish hF fun _ _ => rfl, hy⟩

/-- The root is latched and read. -/
lemma wp_lockedRoot {α : Type} {k : ℕ → Slot → TreeM α} {Post : α → C.W → Prop}
    (hx : C.At live t Γ P x) (hh : ∀ l, Γ.held l = none)
    (hk : ∀ y v r e, C.rg.Ok live t y → C.At live t (Γ.latchRoot v r e) P y → Γ.lo ≤ e →
      Guarded (Γ.latchRoot v r e) (.root v) r e [] →
      (live = true → ∀ r' e', Γ.top = some (r', e') → r = r') → C.rg.wp live t (k v r) Post y) :
    C.rg.wp live t (do
      let some w ← lock .root | crash
      let root ← onTree .loadRoot
      k w root) Post x := by
  refine RG.wp_seq (wp_lockRoot hx hh) ?_
  rintro _ y - ⟨v, r, e, rfl, hy, hlive⟩
  refine RG.wp_seq (wp_loadRoot hy) ?_
  rintro (r' : Slot) z hok ⟨rfl, hz, -⟩
  have hg : Guarded (Γ.latchRoot v r e) (.root v) r e [] := ⟨by simp [Know.latchRoot], rfl, rfl⟩
  obtain ⟨h1, -⟩ := hy.knows.top r e rfl (.inr (by simp [Know.latchRoot]))
  obtain ⟨-, h2⟩ := hz.knows.top r e rfl (.inr (by simp [Know.latchRoot]))
  rw [h1]
  refine hk z v r e hok hz ?_ hg fun hl r' e' ht => (hlive hl r' e' ht).1
  have : Γ.lo ≤ (shadow z).cur := hz.knows.lo
  omega

/-! ### Slots of a latched node -/

section Here

variable {kind : LeafKind} {mode : Mode} {count : ℤ} {lo : ℕ} {Q : Option Outcome → C.Assertion t}
  {rest : List Byte} {w : TreeM Unit} {F : Fields} {α : Type} {Post : α → C.W → Prop}

/-- The program `w` puts the leaf `l` into a node of content `c`, for a key that goes on with
`rest`. -/
def Puts (n : NodeId) (ty : NodeType) (c : Content) (rest : List Byte) (l : Leaf)
    (w : TreeM Unit) : Prop :=
  (∃ p : NodeM Unit, w = onNode n p ∧ ∀ F, Repr ty F c →
      (∃ F', p.run F = some ((), F') ∧ Repr ty F' (c.setAt rest (some l))) ∧
        p.Turns (Shows · c) (Shows · (c.setAt rest (some l))) F) ∨
    ∃ p : NodeType → NodeM Unit, w = typed n p ∧ ∀ F, Repr ty F c →
      (∃ F', (p ty).run F = some ((), F') ∧ Repr ty F' (c.setAt rest (some l))) ∧
        (p ty).Turns (Shows · c) (Shows · (c.setAt rest (some l))) F

/-- What the thread knows of a node that it has just latched. -/
abbrev graspOf (s : Sight) (F : Fields) : Grasp :=
  ⟨s.ty, F, s.cont, some (s.epoch, s.path)⟩

/-- The leaf `l` can go to the slot of its key in a node that was seen. -/
structure Fitting (lo : ℕ) (s : Sight) (rest : List Byte) (l : Leaf) : Prop where
  lo_le : lo ≤ s.epoch
  key_eq : l.key = s.path ++ s.cont.pre ++ rest
  slot : ∀ c, s.cont.slotAt rest ≠ .node c
  old_key : ∀ l', s.cont.slotAt rest = .leaf l' → l'.key = l.key

lemma wp_puts (hput : Puts n s.ty s.cont rest l w) (hfit : Fitting Γ.lo s rest l)
    (hcan : C.CanSet t Γ.lo l.key ((s.cont.slotAt rest).map l.key) (some l) P R)
    (hx : C.At live t (Γ.latch n s.v (graspOf s F)) P x) (hc : Γ.clear = none)
    (hF : Repr s.ty F s.cont) :
    C.rg.wp live t w (fun _ y => ∃ F', Repr s.ty F' (s.cont.setAt rest (some l)) ∧
      C.At live t ((Γ.latch n s.v (graspOf s F)).setLeaf n (graspOf s F) F' rest (some l)) R y)
      x := by
  have hch : Changes (Γ.latch n s.v (graspOf s F)) n (graspOf s F) s.epoch s.path rest (some l)
      l.key :=
    { grasp := by simp [Know.latch], place := rfl, key_eq := hfit.key_eq, slot := hfit.slot
      old_key := hfit.old_key, new_key := fun l' h => by simp at h; rw [h]
      kept := Content.not_empty_setAt _ _ _ }
  rcases hput with ⟨p, rfl, hp⟩ | ⟨p, rfl, hp⟩
  · obtain ⟨⟨F', hrun, hF'⟩, hturn⟩ := hp F hF
    refine RG.wp_mono (wp_onNode_setLeaf hch hx hc hfit.lo_le hrun hturn hcan) ?_
    exact fun _ y _ hy => ⟨F', hF', hy.2⟩
  · obtain ⟨⟨F', hrun, hF'⟩, hturn⟩ := hp F hF
    refine RG.wp_mono (wp_typed_setLeaf hch hx hc hfit.lo_le hrun hturn hcan) ?_
    exact fun _ y _ hy => ⟨F', hF', hy.2⟩

/-- The node with its new leaf is released. -/
lemma wp_unlockLeaf {F' : Fields} (hc : Γ.clear = none) (hh : Γ.held (.node n) = none)
    (hF' : Repr s.ty F' (s.cont.setAt rest (some l)))
    (hx : C.At live t
      ((Γ.latch n s.v (graspOf s F)).setLeaf n (graspOf s F) F' rest (some l)) R x) :
    C.rg.wp live t (unlock (.node n) s.v) (fun r y => r = s.v + 4 ∧ ∃ Δ, Γ.Quiet Δ ∧
      Δ.priv = Γ.priv ∧
      Δ.seen n = some ⟨s.v + 4, s.ty, s.cont.setAt rest (some l), s.epoch, s.path⟩ ∧
      C.At live t Δ R y) x := by
  refine RG.wp_mono (wp_unlock (g := { graspOf s F with
    fields := F', cont := s.cont.setAt rest (some l) }) hx hc (by simp [Know.setLeaf, Know.latch])
    (by simp [Know.setLeaf]) rfl hF') ?_
  rintro r y - ⟨rfl, hy⟩
  have hq : (Γ.latch n s.v (graspOf s F)).Quiet
      ((Γ.latch n s.v (graspOf s F)).setLeaf n (graspOf s F) F' rest (some l)) :=
    ⟨rfl, rfl, rfl, rfl, rfl⟩
  exact ⟨rfl, _, hq.unlatch hh, rfl, by simp [Know.unlatch], hy⟩

/-- A leaf is counted and put into an empty slot of a latched node. -/
lemma wp_putHere {k : ℕ → TreeM α} (H : C.InsertHooks t lo kind l mode count P Q)
    (hΓ : Γ.lo = lo) (hput : Puts n s.ty s.cont rest l w) (hfit : Fitting lo s rest l)
    (hnull : s.cont.slotAt rest = .null) (hx : C.At live t (Γ.latch n s.v (graspOf s F)) P x)
    (hc : Γ.clear = none) (hh : Γ.held (.node n) = none) (hF : Repr s.ty F s.cont)
    (hk : ∀ y Δ, Γ.Quiet Δ → Δ.priv = Γ.priv →
      Δ.seen n = some ⟨s.v + 4, s.ty, s.cont.setAt rest (some l), s.epoch, s.path⟩ →
      C.At live t Δ (Q (some (.inserted l))) y → C.rg.wp live t (k (s.v + 4)) Post y) :
    C.rg.wp live t (do
      onLeaf (.lenAdd count)
      w
      let nv ← unlock (.node n) s.v
      k nv) Post x := by
  subst hΓ
  refine RG.wp_seq (wp_leafStep H.can_count hx) ?_
  intro _ y _ hy
  refine RG.wp_seq (wp_puts hput hfit (by rw [hnull]; exact H.can_put) hy hc hF) ?_
  rintro _ z - ⟨F', hF', hz⟩
  refine RG.wp_seq (wp_unlockLeaf hc hh hF' hz) ?_
  rintro _ u - ⟨rfl, Δ, h1, h2, h3, hu⟩
  exact hk u Δ h1 h2 h3 hu

/-- A leaf takes the place of another in a latched node. -/
lemma wp_swapHere {k : TreeM α} (H : C.InsertHooks t lo kind l mode count P Q)
    (hΓ : Γ.lo = lo) (hmode : mode = .replace) (hput : Puts n s.ty s.cont rest l w)
    (hfit : Fitting lo s rest l) (hold : s.cont.slotAt rest = .leaf old)
    (hx : C.At live t (Γ.latch n s.v (graspOf s F)) P x) (hc : Γ.clear = none)
    (hh : Γ.held (.node n) = none) (hF : Repr s.ty F s.cont)
    (hk : ∀ y Δ, Γ.Quiet Δ → Δ.priv = Γ.priv → C.At live t Δ (Q (some (.replaced old))) y →
      C.rg.wp live t k Post y) :
    C.rg.wp live t (do
      w
      markRemoved kind old
      let _ ← unlock (.node n) s.v
      onLeaf (.retireLeaf old)
      k) Post x := by
  subst hΓ
  have hkey : old.key = l.key := hfit.old_key old hold
  have hmap : (s.cont.slotAt rest).map l.key = some old := by simp [hold, Slot.map, hkey]
  refine RG.wp_seq (wp_puts hput hfit (by rw [hmap]; exact H.can_swap old hmode) hx hc hF) ?_
  rintro _ y - ⟨F', hF', hy⟩
  refine RG.wp_seq (wp_markRemoved (H.can_mark old hmode) hy) ?_
  intro _ z _ hz
  refine RG.wp_seq (wp_unlockLeaf hc hh hF' hz) ?_
  rintro _ u - ⟨-, Δ, h1, h2, -, hu⟩
  refine RG.wp_seq (wp_leafStep (H.can_retire old hmode) hu) ?_
  intro _ v _ hv
  exact hk v Δ h1 h2 hv

end Here

end Client

end Artmap
