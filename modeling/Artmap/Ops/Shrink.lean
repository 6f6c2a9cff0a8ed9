import Artmap.Ops.Clear
import Artmap.Ops.Unlink

/-!
# Fitting

`shrink_to_fit` replaces each node by the smallest form of its entries: nothing, a leaf, a
smaller node, or its only child under a joined prefix.  None of this changes the map.  A node
is planned for without a latch, and replaced with the latches of its location, of the node and,
in a merge, of the child held; so a plan that was right when the node's version was read is
carried out on the same content.

The walk visits a node twice, before and after its children.  It terminates because the nodes
of the tree are never moved: alone, a thread that fits nodes makes no new paths (`Tame`), and
below a node that has been expanded there are fewer paths than there were at the node.
-/

namespace Artmap

open scoped List

/-! ## Paths -/

/-- The places of the forest are among `B`, and the nodes `L` are where they are said to be, if
they are still in a tree. -/
structure Tame (B : Finset (ℕ × List Byte)) (L : List (NodeId × Option (ℕ × List Byte)))
    (F : Forest) : Prop where
  paths : ∀ n a, F.place n = some a → a ∈ B
  frames : ∀ n o, (n, o) ∈ L → F.place n = none ∨ F.place n = o

namespace Tame

variable {B : Finset (ℕ × List Byte)} {L L' : List (NodeId × Option (ℕ × List Byte))}
  {F G : Forest}
  {S : Shadow} {t e : ℕ} {ℓ : Loc} {s : Slot} {N gone : List NodeId} {p : List Byte}

lemma mono (h : Tame B L F) (hL : ∀ i, i ∈ L' → i ∈ L) : Tame B L' F :=
  ⟨h.paths, fun n a hn => h.frames n a (hL _ hn)⟩

/-- Nodes give way to others, at a place that was there. -/
lemma commit (h : Tame B L S.forest)
    (hloc : Shadow.LocCommit t S ℓ e s G N fun k => k ∈ gone)
    (hgone : ∀ k, k ∈ gone → G.place k = none)
    (hnew : ∀ d a, d ∈ N → G.place d = some a → a ∈ B)
    (hL : ∀ d a, d ∈ N → (d, a) ∉ L) : Tame B L G where
  paths n a ha := by
    by_cases hn : n ∈ N
    · exact hnew n a hn ha
    · have hng : n ∉ gone := fun hg => by simp [hgone n hg] at ha
      exact h.paths n a ((hloc.other n hng hn).2.symm.trans ha)
  frames n a ha := by
    have hn : n ∉ N := fun hn => hL n a hn ha
    by_cases hg : n ∈ gone
    · exact .inl (hgone n hg)
    · rw [(hloc.other n hg hn).2]
      exact h.frames n a ha

/-- The places at and below the end of a path. -/
def below (B : Finset (ℕ × List Byte)) (a : ℕ × List Byte) : Finset (ℕ × List Byte) :=
  B.filter fun i => i.1 = a.1 ∧ a.2.isPrefixOf i.2

lemma mem_below {a i : ℕ × List Byte} :
    i ∈ below B a ↔ i ∈ B ∧ i.1 = a.1 ∧ a.2 <+: i.2 := by
  simp [below]

/-- There is less below the children of a node than below the node. -/
lemma sum_below (a : ℕ × List Byte) (ha : a ∈ B) (pre : List Byte) (bs : List Byte)
    (hbs : bs.Nodup) :
    (bs.map fun b => (below B (a.1, a.2 ++ pre ++ [b])).card).sum < (below B a).card := by
  have hdis : ∀ b b', b ≠ b' → Disjoint (below B (a.1, a.2 ++ pre ++ [b]))
      (below B (a.1, a.2 ++ pre ++ [b'])) := by
    intro b b' hb
    refine Finset.disjoint_left.mpr fun i h1 h2 => hb ?_
    have h := Forest.prefix_eq_of_length (mem_below.mp h1).2.2 (mem_below.mp h2).2.2 (by simp)
    simpa using h
  have hsum : (bs.map fun b => (below B (a.1, a.2 ++ pre ++ [b])).card).sum =
      (bs.toFinset.biUnion fun b => below B (a.1, a.2 ++ pre ++ [b])).card := by
    rw [Finset.card_biUnion fun b _ b' _ hb => hdis b b' hb, List.sum_toFinset _ hbs]
  rw [hsum]
  refine Finset.card_lt_card ⟨fun i hi => ?_, fun hsub => ?_⟩
  · obtain ⟨b, -, hib⟩ := Finset.mem_biUnion.mp hi
    obtain ⟨h1, h2, h3⟩ := mem_below.mp hib
    refine mem_below.mpr ⟨h1, h2, List.IsPrefix.trans ?_ h3⟩
    rw [List.append_assoc]
    exact List.prefix_append _ _
  · -- The node itself is not below any of its children.
    have hself : a ∈ below B a := mem_below.mpr ⟨ha, rfl, List.prefix_rfl⟩
    obtain ⟨b, -, hib⟩ := Finset.mem_biUnion.mp (hsub hself)
    have := (mem_below.mp hib).2.2.length_le
    simp at this

end Tame

namespace Plan

/-- The layout of the replacement, if there is one. -/
def layout : Plan → Option NodeType
  | .merge _ _ ty => some ty
  | .shrink ty => some ty
  | _ => none

/-- The new nodes of a plan. -/
def fresh (plan : Plan) (d : NodeId) : List NodeId :=
  if plan.layout.isSome then [d] else []

/-- The plan is right for a node of content `c`. -/
def For (c : Content) : Plan → Prop
  | .unlink => c.Empty
  | .leaf s => Rest.Of c (.leaf s)
  | .merge b k _ => Rest.Of c (.inner b (.node k))
  | .shrink ty => ¬ c.Empty ∧ (Content.bytes c.child).card ≤ ty.capacity

end Plan

namespace Know

variable {Γ Δ Δ' : Know}

/-- Nothing but unpublished nodes, and what has been seen, may have changed. -/
structure Walks (Γ Δ : Know) : Prop where
  lo : Δ.lo = Γ.lo
  held : Δ.held = Γ.held
  follow : Δ.follow = Γ.follow
  clear : Δ.clear = Γ.clear
  due : Δ.due = Γ.due
  known : ∀ n, Γ.known n → Δ.known n
  aim : Δ.aim = Γ.aim

lemma Walks.rfl : Γ.Walks Γ :=
  ⟨Eq.refl _, Eq.refl _, Eq.refl _, Eq.refl _, Eq.refl _, fun _ => id, Eq.refl _⟩

lemma Walks.trans (h : Γ.Walks Δ) (h' : Δ.Walks Δ') : Γ.Walks Δ' :=
  ⟨h'.lo.trans h.lo, h'.held.trans h.held, h'.follow.trans h.follow, h'.clear.trans h.clear,
    h'.due.trans h.due, fun n hn => h'.known n (h.known n hn), h'.aim.trans h.aim⟩

lemma Rests.walks (h : Γ.Rests Δ) : Γ.Walks Δ :=
  ⟨h.lo, h.held, h.follow, h.clear, h.due, fun _ hn => h.known ▸ hn, h.aim⟩

/-- Latches aside, nothing but what has been seen may have changed. -/
structure Keeps (Γ Δ : Know) : Prop where
  lo : Δ.lo = Γ.lo
  follow : Δ.follow = Γ.follow
  clear : Δ.clear = Γ.clear
  due : Δ.due = Γ.due
  known : Δ.known = Γ.known
  aim : Δ.aim = Γ.aim
  priv : Δ.priv = Γ.priv

/-- Nodes `gone` have given way to the nodes `N`. -/
structure Swapped (Γ Δ : Know) (gone N : List NodeId) : Prop where
  lo : Δ.lo = Γ.lo
  held : Δ.held = Γ.held
  follow : Δ.follow = Γ.follow
  clear : Δ.clear = Γ.clear
  due : ∀ k, Δ.due k ↔ Γ.due k ∨ k ∈ gone
  known : Δ.known = Γ.known
  aim : Δ.aim = Γ.aim
  priv : Δ.priv = fun k => if k ∈ N then none else Γ.priv k

end Know

namespace Client

open Shadow (LocCommit)

variable {C : Client} {live : Bool} {t : ℕ} {Γ Δ : Know} {P : C.Assertion t} {x y : C.W}
  {c n d : NodeId} {s : Sight} {g : Grasp} {v e : ℕ} {pg : ParentGuard} {path : List Byte}
  {r : Slot} {gone N : List NodeId} {F : Fields} {ty : NodeType} {par : Parent}

/-! ## The store -/

/-- What the forest becomes when the nodes `gone` give way to `N`. -/
structure Replaces (t : ℕ) (Γ : Know) (pg : ParentGuard) (e : ℕ) (r : Slot)
    (gone N : List NodeId) (S : Shadow) (G : Forest) : Prop where
  loc : LocCommit t S (pg.loc e) e r G N fun k => k ∈ gone
  gone : ∀ k, k ∈ gone → G.place k = none
  repr : ∀ k, k ∈ N → ∃ ty F, Γ.priv k = some (ty, F) ∧ Repr ty F (G.cont k)
  cover : ∀ k p, G.place k = some (S.cur, p) → (G.cont k).Empty →
    ∃ t' key, S.follow t' = some (S.cur, key) ∧ p ++ G.pre k <+: key
  map : G.map = S.forest.map

/-- The store by which nodes give way to others. -/
lemma wp_swap {w : TreeM Unit} (hx : C.At live t Γ P x) (hc : Γ.clear = none)
    (hg : Guarded Γ pg (.node n) e path) (hw : pg.Stores Γ r w)
    (howner : ∀ p, pg.owner? = some p → p ∉ gone)
    (h : ∀ y, C.rg.Ok live t y → Ready live t Γ pg.owner? (tree y) (shadow y) →
      ∃ G, Replaces t Γ pg e r gone N (shadow y) G ∧
        ∀ A, Γ.aim = some A → live = true → A G) :
    C.rg.wp live t w (fun _ y => ∃ Δ, Γ.Swapped Δ gone N ∧ Guarded Δ pg r e path ∧
      C.At live t Δ P y) x := by
  have htouch : ∀ k, (if k ∈ gone then some none else none : Option (Option Grasp)) ≠ none ↔
      k ∈ gone := by
    intro k
    by_cases hk : k ∈ gone <;> simp [hk]
  have howner' : ∀ p, pg.owner? = some p →
      (if p ∈ gone then some none else none : Option (Option Grasp)) = none :=
    fun p hp => by simp [howner p hp]
  have hpub : ∀ y, C.rg.Ok live t y → Ready live t Γ pg.owner? (tree y) (shadow y) →
      P (scene y) → ∃ G, Publishes live t Γ pg e r G N
          (fun k => if k ∈ gone then some none else none) Γ.follow (shadow y) ∧
        Spotted Γ N G none ∧
        (∀ e k, Γ.follow = some (e, k) → Γ.follow ≠ Γ.follow →
          C.Taking y.ghost.2 t k ∧ (shadow y).forest.Vacates G) ∧
        Upd t (scene y) (scene y).leafs { (scene y).view with map := G.map } P ∧
        ∀ B, Γ.aim = some B → live = true → B G := by
    intro y hok hready hP
    obtain ⟨G, hG, hA⟩ := h y hok hready
    refine ⟨G, ⟨by simpa only [htouch] using hG.loc, howner', ?_, ?_, hG.repr, ?_⟩, trivial,
      fun _ _ _ hne => absurd rfl hne, ?_, hA⟩
    · intro k hk
      exact hG.gone k ((htouch k).mp (by simp [hk]))
    · intro k g' hk
      by_cases hkg : k ∈ gone <;> simp [hkg] at hk
    · intro k p hk hem
      obtain ⟨t', key, h1, h2⟩ := hG.cover k p hk hem
      have hfol : (shadow y).follow t = Γ.follow := hready.knows.follow
      refine ⟨t', key, ?_, h2⟩
      rw [← hfol, Function.update_eq_self]
      exact h1
    · rw [hG.map]
      exact .rfl (ok_client hok) hP
  refine RG.wp_mono (wp_publish_aimed (R := P) Γ.aim hx hc hg hw howner' hpub) ?_
  rintro _ y - ⟨F, hF, hy⟩
  refine ⟨((Γ.publish pg r F N (fun k => if k ∈ gone then some none else none)
    Γ.follow).spot none).aimed Γ.aim, ⟨?_, ?_, ?_, ?_, fun k => ?_, ?_, rfl, rfl⟩, ?_, hy⟩
  · cases pg <;> rfl
  · cases pg <;> rfl
  · rfl
  · cases pg <;> rfl
  · by_cases hk : k ∈ gone <;> simp [Know.aimed, Know.spot, hk]
  · cases pg <;> rfl
  · have hguard : Guarded ((Γ.publish pg r F N
        (fun k => if k ∈ gone then some none else none) Γ.follow).spot none) pg r e path :=
      hg.publish hF howner'
    cases pg <;> exact hguard

/-! ## The plans -/

/-- A thread that fits nodes makes no new paths. -/
def Tamed (Γ : Know) : Prop :=
  ∀ A, Γ.aim = some A → ∃ B L, A = Tame B L ∧ ∀ i, i ∈ L → Γ.known i.1

lemma Tamed.commit (hA : Tamed Γ) {G : Forest} (hok : C.rg.Ok live t y)
    (hr : Ready live t Γ pg.owner? (tree y) (shadow y))
    (hG : Replaces t Γ pg e r gone N (shadow y) G)
    (hpl : (shadow y).forest.place n = some (e, path))
    (hnew : ∀ k, k ∈ N → G.place k = some (e, path)) :
    ∀ A, Γ.aim = some A → live = true → A G := by
  intro A hA' hl
  obtain ⟨B, L, rfl, hL⟩ := hA A hA'
  have htame : Tame B L (shadow y).forest := hr.knows.aim _ hA' hl
  refine htame.commit hG.loc hG.gone (fun k a hk ha => ?_) fun k a hk hkL => ?_
  · rw [hnew k hk] at ha
    obtain rfl : (e, path) = a := by simpa using ha
    exact htame.paths n _ hpl
  · exact ((ok_tree hok).priv_lt (hG.loc.new_priv k hk).1).2 (hr.knows.known k (hL _ hkL))

section Plans

variable (hok : C.rg.Ok live t y) (hr : Ready live t Γ pg.owner? (tree y) (shadow y))
  (hg : Guarded Γ pg (.node n) e path) (hgr : Γ.grasp n = some g)
include hok hr hg hgr

/-- An empty node is unlinked.  The follow-up that covers it covers its parent as well. -/
lemma replaces_unlink (hem : g.cont.Empty) :
    ∃ G, Replaces t Γ pg e .null [n] [] (shadow y) G := by
  have hi := ok_tree hok
  obtain ⟨h1, h2, h3⟩ := hg.loc hr hi
  have hcont := hr.cont n g hgr
  have hpl := hi.wf.place_of_slot h2 h3
  have hem' : ((shadow y).forest.cont n).Empty := by rwa [hcont]
  obtain ⟨hloc, hmap, hgone⟩ := Shadow.locCommit_prune hi h1 h2 h3 (hr.owner n g hgr)
    (by simp [hcont, hem.2]) (by simp) (hi.wf.holds_null hpl hem')
  exact ⟨_, ⟨by simpa using hloc, by simpa using hgone, by simp,
    hloc.cover_empty hi hgone h2 h3 hem', hmap⟩⟩

/-- A node with a single leaf gives way to the leaf. -/
lemma replaces_leaf {l : Leaf} (hl : Rest.Of g.cont (.leaf (.leaf l))) :
    ∃ G, Replaces t Γ pg e (.leaf l) [n] [] (shadow y) G := by
  have hi := ok_tree hok
  obtain ⟨h1, h2, h3⟩ := hg.loc hr hi
  have hcont := hr.cont n g hgr
  have hpl := hi.wf.place_of_slot h2 h3
  have honly : ∃ rest₀, g.cont.slotAt rest₀ = .leaf l ∧
      ∀ rest, g.cont.slotAt rest = .null ∨ g.cont.slotAt rest = .leaf l := by
    obtain ⟨-, ⟨hex, hch⟩ | ⟨hex, b, hb, hch⟩⟩ := hl
    · refine ⟨[], hex.symm, fun rest => ?_⟩
      cases rest with
      | nil => exact .inr hex.symm
      | cons b rest => exact .inl (hch b)
    · refine ⟨[b], hb, fun rest => ?_⟩
      cases rest with
      | nil => exact .inl (by simp [Content.slotAt, hex, Slot.ofOption])
      | cons b' rest =>
        by_cases hbb : b' = b
        · exact .inr (hbb ▸ hb)
        · exact .inl (hch b' hbb)
  obtain ⟨rest₀, hl₀, honly⟩ := honly
  have hno : ∀ b k, ((shadow y).forest.cont n).child b ≠ .node k := by
    intro b k
    rw [hcont]
    rcases honly [b] with h | h <;> simp [show g.cont.child b = _ from h]
  obtain ⟨hloc, hmap, hgone⟩ := Shadow.locCommit_prune (s := .leaf l) hi h1 h2 h3
    (hr.owner n g hgr) hno (by simp)
    (hi.wf.holds_leaf hpl (by rw [hcont, hl₀]) (by rw [hcont]; exact honly))
  refine ⟨_, ⟨by simpa using hloc, by simpa using hgone, by simp, ?_, hmap⟩⟩
  have hcov := hloc.cover hi (by simp) fun k q hk hplk _ => ?_
  · simpa only [Function.update_eq_self] using hcov
  · obtain rfl : k = n := by simpa using hk
    simp [hgone] at hplk

/-- A node gives way to a copy. -/
lemma replaces_copy (hd : Γ.Built d ty g.cont) (hem : ¬ g.cont.Empty) :
    ∃ G, Replaces t Γ pg e (.node d) [n] [d] (shadow y) G ∧ G.place d = some (e, path) := by
  have hi := ok_tree hok
  obtain ⟨h1, h2, h3⟩ := hg.loc hr hi
  obtain ⟨F, hpriv, hrepr⟩ := hd
  have hcont := hr.cont n g hgr
  obtain ⟨hloc, hmap, hcd, hpd, hpc⟩ := Shadow.locCommit_copy hi h1 h2 h3
    (hr.owner n g hgr) (hr.knows.priv d _ F hpriv).1
  rw [hcont] at hcd
  refine ⟨_, ⟨by simpa using hloc, by simpa using hpc, ?_, ?_, hmap⟩, hpd⟩
  · intro k hk
    obtain rfl : k = d := by simpa using hk
    exact ⟨_, F, hpriv, hcd ▸ hrepr⟩
  · have hcov := hloc.cover hi (by simp) fun k q hk hpl hem' => ?_
    · simpa only [Function.update_eq_self] using hcov
    · rcases hk with rfl | hk
      · simp [hpc] at hpl
      · obtain rfl : k = d := by simpa using hk
        exact absurd (hcd ▸ hem') hem

/-- A node gives way to its only child, under the joined prefix. -/
lemma replaces_merge {g' : Grasp} {b : Byte} (hgc : Γ.grasp c = some g')
    (hinner : Rest.Of g.cont (.inner b (.node c)))
    (hlen : (g.cont.pre ++ b :: g'.cont.pre).length ≤ 16)
    (hd : Γ.Built d ty { g'.cont with pre := g.cont.pre ++ b :: g'.cont.pre }) :
    ∃ G, Replaces t Γ pg e (.node d) [n, c] [d] (shadow y) G ∧
      G.place d = some (e, path) := by
  have hi := ok_tree hok
  obtain ⟨h1, h2, h3⟩ := hg.loc hr hi
  obtain ⟨F, hpriv, hrepr⟩ := hd
  have hcont := hr.cont n g hgr
  have hcont' := hr.cont c g' hgc
  obtain ⟨-, -, hex, hchild, hother⟩ := hinner
  have hpl := hi.wf.place_of_slot h2 h3
  have hplc : (shadow y).forest.place c = some (e, path ++ g.cont.pre ++ [b]) := by
    have := hi.wf.place_of_slot (Forest.at_child hpl b)
      (show (shadow y).forest.slot (.child n b) = .node c by
        show ((shadow y).forest.cont n).child b = _
        rw [hcont, hchild])
    rwa [Forest.pre, hcont] at this
  obtain ⟨G, hloc, hmap, hcd, hpd, hpn, hpc⟩ := Shadow.locCommit_merge hi h1 h2 h3
    (hr.owner n g hgr) (hr.owner c g' hgc) (hr.knows.priv d _ F hpriv).1 (y := b)
    (by rw [hcont, hex]) (by rw [hcont, hchild]) (by rw [hcont]; exact hother)
    (by rw [Forest.pre, Forest.pre, hcont, hcont']; exact hlen)
  rw [Forest.pre, Forest.pre, hcont, hcont'] at hcd
  refine ⟨G, ⟨by simpa using hloc, ?_, ?_, ?_, hmap⟩, hpd⟩
  · intro k hk
    rcases List.mem_cons.mp hk with rfl | hk
    · exact hpn
    · rw [List.mem_singleton.mp hk, hpc]
  · intro k hk
    obtain rfl : k = d := by simpa using hk
    exact ⟨_, F, hpriv, hcd ▸ hrepr⟩
  · have hcov := hloc.cover hi (by simp) fun k q hk hplk hem => ?_
    · simpa only [Function.update_eq_self] using hcov
    · rcases hk with (rfl | rfl) | hk
      · simp [hpn] at hplk
      · simp [hpc] at hplk
      · -- If the child was empty, it was covered.
        obtain rfl : k = d := by simpa using hk
        obtain ⟨rfl, rfl⟩ : e = (shadow y).cur ∧ path = q := by simpa using hpd.symm.trans hplk
        rw [hcd] at hem
        obtain ⟨t', key, h4, h5⟩ := hi.cover hplc (by rw [hcont']; exact hem)
        refine ⟨t', key, h4, ?_⟩
        rw [Forest.pre, hcont'] at h5
        rw [Forest.pre, hcd]
        simpa using h5

end Plans

/-! ## Latches -/

variable {α : Type} {k : TreeM α} {Q : α → C.W → Prop} {w : ℕ}

/-- The latches of a node and of its location are held. -/
def HoldsPair (Γ Δ : Know) (pg : ParentGuard) (n : NodeId) (v : ℕ) : Prop :=
  Δ.held =
    Function.update (Function.update Γ.held pg.latch (some pg.version)) (.node n) (some v)

lemma HoldsPair.node (h : HoldsPair Γ Δ pg n v) : Δ.held (.node n) = some v := by
  rw [h, Function.update_self]

lemma HoldsPair.release (h : HoldsPair Γ Δ pg n v) (hh : ∀ l, Γ.held l = none) :
    Function.update (Function.update Δ.held (.node n) none) pg.latch none = Γ.held := by
  funext l
  rw [h]
  by_cases h1 : l = pg.latch
  · rw [h1, Function.update_self, hh]
  · by_cases h2 : l = .node n
    · rw [Function.update_of_ne h1, h2, Function.update_self, hh]
    · simp [h1, h2]

/-- Both latches are released. -/
lemma wp_unclasp (hh : ∀ l, Γ.held l = none) (hx : C.At live t Δ P x) (hc : Δ.clear = none)
    (hheld : HoldsPair Γ Δ pg n v) (hg : Guarded Δ pg r e path) (hne : pg.owner? ≠ some n)
    (hgr : Δ.grasp n = some g) {e' : ℕ} {q : List Byte} (hpl : g.place = some (e', q))
    (hrepr : Repr g.ty g.fields g.cont)
    (hk : ∀ y Δ', Δ.Keeps Δ' → Δ'.held = Γ.held → C.At live t Δ' P y → C.rg.wp live t k Q y) :
    C.rg.wp live t (do
      let _ ← unlock (.node n) v
      let _ ← pg.unlock
      k) Q x := by
  refine RG.wp_seq (wp_unlock hx hc hheld.node hgr hpl hrepr) ?_
  rintro _ y - ⟨-, hy⟩
  have hg' : Guarded (Δ.unlatch n (some ⟨v + 4, g.ty, g.cont, e', q⟩)) pg r e path :=
    hg.of_ne hne rfl (fun lt hlt => by simp [Know.unlatch, hlt])
      fun p hpn => by simp [Know.unlatch, hpn]
  refine RG.wp_seq (wp_guardUnlock hy hc hg') ?_
  rintro _ z - ⟨Δ', hun, hz, -⟩
  refine hk z Δ' ⟨hun.lo, hun.follow, hun.clear, hun.due, hun.known, hun.aim, hun.priv⟩ ?_ hz
  rw [hun.held]
  exact hheld.release hh

/-- A node that is in no tree any more becomes obsolete, and its location is released. -/
lemma wp_drop (hh : ∀ l, Γ.held l = none) (hx : C.At live t Δ P x) (hc : Δ.clear = none)
    (hheld : HoldsPair Γ Δ pg n v) (hg : Guarded Δ pg r e path) (hne : pg.owner? ≠ some n)
    (hd : Δ.due n)
    (hk : ∀ y Δ', Δ.Keeps Δ' → Δ'.held = Γ.held → C.At live t Δ' P y → C.rg.wp live t k Q y) :
    C.rg.wp live t (do
      markObsolete (.node n) v
      let _ ← pg.unlock
      k) Q x := by
  refine RG.wp_seq (wp_markObsolete hx hheld.node hd) ?_
  intro _ y _ hy
  have hg' : Guarded (Δ.unlatch n none) pg r e path :=
    hg.of_ne hne rfl (fun lt hlt => by simp [Know.unlatch, hlt])
      fun p hpn => by simp [Know.unlatch, hpn]
  refine RG.wp_seq (wp_guardUnlock hy hc hg') ?_
  rintro _ z - ⟨Δ', hun, hz, -⟩
  refine hk z Δ' ⟨hun.lo, hun.follow, hun.clear, hun.due, hun.known, hun.aim, hun.priv⟩ ?_ hz
  rw [hun.held]
  exact hheld.release hh

/-- Nodes give way to others, the node at hand becomes obsolete, and its location is
released. -/
lemma wp_swapOut {st : TreeM Unit} (hh : ∀ l, Γ.held l = none) (hx : C.At live t Δ P x)
    (hc : Δ.clear = none) (hheld : HoldsPair Γ Δ pg n v) (hg : Guarded Δ pg (.node n) e path)
    (hne : pg.owner? ≠ some n) (hst : pg.Stores Δ r st)
    (h : ∀ y, C.rg.Ok live t y → Ready live t Δ pg.owner? (tree y) (shadow y) →
      ∃ G, Replaces t Δ pg e r [n] N (shadow y) G ∧ ∀ A, Δ.aim = some A → live = true → A G)
    (hk : ∀ y Δ', Know.Swapped { Δ with held := Γ.held } Δ' [n] N → C.At live t Δ' P y →
      C.rg.wp live t k Q y) :
    C.rg.wp live t (do
      st
      markObsolete (.node n) v
      let _ ← pg.unlock
      k) Q x := by
  refine RG.wp_seq (wp_swap hx hc hg hst (fun p hp hpn => ?_) h) ?_
  · exact hne (by rw [hp, List.mem_singleton.mp hpn])
  rintro _ y - ⟨Δ₁, hsw, hg₁, hy⟩
  refine wp_drop hh hy (hsw.clear.trans hc) (hsw.held.trans hheld) hg₁ hne
    ((hsw.due n).mpr (.inr (by simp))) fun z Δ₂ hkeep hheld₂ hz => ?_
  exact hk z Δ₂ ⟨hkeep.lo.trans hsw.lo, hheld₂, hkeep.follow.trans hsw.follow,
    hkeep.clear.trans hsw.clear, fun k' => by rw [hkeep.due]; exact hsw.due k',
    hkeep.known.trans hsw.known, hkeep.aim.trans hsw.aim, hkeep.priv.trans hsw.priv⟩ hz

/-- A node that has given way to others is retired. -/
lemma wp_retireSwapped {Δ' : Know} (hh : ∀ l, Γ.held l = none)
    (hx : C.At live t Δ' P x) (hsw : Know.Swapped { Δ with held := Γ.held } Δ' [n] N)
    (hnd : ¬ Δ.due n) (hw : Γ.Walks { Δ with held := Γ.held }) :
    C.rg.wp live t (onTree (.retireNode n)) (fun _ y => ∃ Δ'', Γ.Walks Δ'' ∧
      (Δ''.priv = fun k => if k ∈ N then none else Δ.priv k) ∧ C.At live t Δ'' P y) x := by
  refine RG.wp_mono (wp_retireNode hx ((hsw.due n).mpr (.inr (by simp))) ?_) fun _ y _ hy => ?_
  · exact (congrFun hsw.held _).trans (hh _)
  · refine ⟨Δ'.retire n, ⟨hsw.lo.trans hw.lo, hsw.held.trans hw.held, hsw.follow.trans hw.follow,
      hsw.clear.trans hw.clear, ?_, fun k' hk' => hsw.known ▸ hw.known k' hk',
      hsw.aim.trans hw.aim⟩, hsw.priv, hy⟩
    rw [← hw.due]
    funext k'
    refine propext ⟨fun hk' => ?_, fun hk' => ⟨?_, (hsw.due k').mpr (.inl hk')⟩⟩
    · exact ((hsw.due k').mp hk'.2).resolve_right fun hmem => hk'.1 (List.mem_singleton.mp hmem)
    · rintro rfl
      exact hnd hk'

/-! ## One node -/

/-- A plan for a node that was seen, with its replacement at hand. -/
structure Planned (Γ : Know) (s : Sight) (plan : Plan) (d : NodeId) (prep : Pool) : Prop where
  plan_ok : plan.For s.cont
  pool : PoolOk Γ prep
  used : ∀ k, k ∈ plan.fresh d ↔ (k, true) ∈ prep
  blank : ∀ ty, plan.layout = some ty → Γ.priv d = some (ty, Fields.fresh)

/-- How an attempt to fit a node ends. -/
def FitEnds (C : Client) (live : Bool) (t : ℕ) (Γ : Know) (P : C.Assertion t) (prep : Pool)
    (y : C.W) : Prop :=
  ∃ Δ, Γ.Walks Δ ∧ PoolOk Δ prep ∧ C.At live t Δ P y

lemma Paired.walks (h : Paired Γ Δ pg n s F) : Γ.Walks { Δ with held := Γ.held } :=
  ⟨h.lo, rfl, h.follow, h.clear, h.due, fun _ hn => h.known ▸ hn, h.aim⟩

lemma Paired.tamed (h : Paired Γ Δ pg n s F) (hA : Tamed Γ) : Tamed Δ := by
  intro A hA'
  rw [h.aim] at hA'
  rw [h.known]
  exact hA A hA'

section Fit

variable {plan : Plan} {prep : Pool}

/-- The node is unlinked, or gives way to a leaf. -/
lemma wp_fitGone {st : TreeM Unit} (hh : ∀ l, Γ.held l = none) (hc : Γ.clear = none)
    (hA : Tamed Γ) (hp : Paired Γ Δ pg n s F) (hx : C.At live t Δ P x)
    (hok : C.rg.Ok live t x) (hst : pg.Stores Δ r st)
    (h : ∀ y, C.rg.Ok live t y → Ready live t Δ pg.owner? (tree y) (shadow y) →
      ∃ G, Replaces t Δ pg s.epoch r [n] [] (shadow y) G)
    (hk : ∀ y Δ', Γ.Walks Δ' → Δ'.priv = Γ.priv → C.At live t Δ' P y → C.rg.wp live t k Q y) :
    C.rg.wp live t (do
      st
      markObsolete (.node n) s.v
      let _ ← pg.unlock
      onTree (.retireNode n)
      k) Q x := by
  have hnd := hx.not_due hok hp.grasp (by simp)
  refine wp_swapOut (N := []) hh hx (hp.clear.trans hc) hp.held hp.guard hp.ne hst
    (fun y hoky hready => ?_) fun y Δ' hsw hy => ?_
  · obtain ⟨G, hG⟩ := h y hoky hready
    obtain ⟨-, h2, h3⟩ := hp.guard.loc hready (ok_tree hoky)
    exact ⟨G, hG, (hp.tamed hA).commit hoky hready hG ((ok_tree hoky).wf.place_of_slot h2 h3)
      (by simp)⟩
  · refine RG.wp_seq (wp_retireSwapped hh hy hsw hnd hp.walks) ?_
    rintro _ z - ⟨Δ'', hw, hpriv, hz⟩
    exact hk z Δ'' hw (by simpa using hpriv.trans (by simp [hp.priv])) hz

/-- The node gives way to a copy. -/
lemma wp_fitCopy (hh : ∀ l, Γ.held l = none) (hc : Γ.clear = none) (hA : Tamed Γ)
    (hpl : Planned Γ s (.shrink ty) d prep) (hp : Paired Γ Δ pg n s F)
    (hx : C.At live t Δ P x) (hok : C.rg.Ok live t x) :
    C.rg.wp live t (do
      copyInto n d
      replaceNode pg n s.v (.node d)
      return ((.done, prep.commit) : Fitted × Pool))
      (fun r y => FitEnds C live t Γ P r.2 y) x := by
  obtain ⟨hem, hcard⟩ := hpl.plan_ok
  have hblank := hpl.blank ty rfl
  have hc' : Δ.clear = none := hp.clear.trans hc
  refine RG.wp_seq (wp_copyInto (g := graspOf s F) hx hc' hp.grasp hp.repr hcard
    (by rw [hp.priv, hblank])) ?_
  rintro _ y hoky ⟨F', hF', hy⟩
  have hbuilt : (Δ.own d ty F').Built d ty (graspOf s F).cont := ⟨F', by simp, hF'⟩
  have hnd := hx.not_due hok hp.grasp (by simp)
  have hg : Guarded (Δ.own d ty F') pg (.node n) s.epoch s.path :=
    hp.guard.congr rfl (fun _ => rfl) fun _ _ => rfl
  have hrepl : C.rg.wp live t (replaceNode pg n s.v (.node d)) (fun _ y => ∃ Δ'', Γ.Walks Δ'' ∧
      (Δ''.priv = fun k => if k ∈ [d] then none else (Δ.own d ty F').priv k) ∧
      C.At live t Δ'' P y) y := by
    refine wp_swapOut (N := [d]) hh hy hc' hp.held hg hp.ne
      (stores_publish (by simp) (by simp) hg) (fun z hokz hready => ?_) fun z Δ' hsw hz => ?_
    · obtain ⟨G, hG, hGd⟩ := replaces_copy hokz hready hg hp.grasp hbuilt hem
      obtain ⟨-, h2, h3⟩ := hg.loc hready (ok_tree hokz)
      refine ⟨G, hG, (show Tamed (Δ.own d ty F') from hp.tamed hA).commit hokz hready hG
        ((ok_tree hokz).wf.place_of_slot h2 h3) fun k hk => ?_⟩
      rw [List.mem_singleton.mp hk, hGd]
    · exact wp_retireSwapped hh hz hsw hnd
        ⟨hp.lo, rfl, hp.follow, hp.clear, hp.due, fun _ h => hp.known ▸ h, hp.aim⟩
  refine RG.wp_seq hrepl ?_
  rintro _ z - ⟨Δ'', hw, hpriv, hz⟩
  refine RG.wp_ret ⟨Δ'', hw, ?_, hz⟩
  exact ((hpl.pool.congr hp.priv).own (by rw [hp.priv, hblank]; simp)).commit _ hpl.used hpriv

/-! ### Merging -/

/-- Reading the version of a published node. -/
lemma wp_sight (hx : C.At live t Γ P x) (hp : Γ.Pub c) :
    C.rg.wp live t (readVersion (.node c)) (fun r y => (r = none → C.At live t Γ P y) ∧
      ∀ v, r = some v → ∃ s, s.v = v ∧ C.At live t (Γ.see c s) P y) x := by
  refine RG.wp_intro fun hok => ?_
  have hi := ok_tree hok
  have hpub := hx.knows.pub hp
  by_cases hfree : Free ((tree x).latch (.node c))
  · obtain ⟨⟨e, p⟩, hplace⟩ := Option.ne_none_iff_exists'.mp (hi.placed_free hpub hfree)
    have hseen : Shadow.Seen live (tree x) (shadow x) c
        ⟨(tree x).latch (.node c), (tree x).ty c, (shadow x).forest.cont c, e, p⟩ :=
      ⟨hpub, rfl, hfree, le_rfl, fun _ => rfl, fun _ => ⟨rfl, hplace⟩⟩
    have hx' : C.At live t (Γ.see c _) P x := ⟨hx.knows.see hseen, hx.client⟩
    refine RG.wp_mono (wp_readVersion hx' (.node c)) ?_
    rintro r y - ⟨h1, h2, hy, -⟩
    refine ⟨fun hr => absurd hfree (h2 hr), fun v hv => ⟨_, (h1 v hv).2.symm, hy⟩⟩
  · refine RG.wp_mono (wp_readVersion hx (.node c)) ?_
    rintro r y - ⟨h1, h2, hy, -⟩
    refine ⟨fun _ => hy, fun v hv => ?_⟩
    obtain ⟨h3, rfl⟩ := h1 v hv
    exact absurd h3 hfree

/-- The child of a latched node is another node, and is not above it. -/
lemma Paired.child (hp : Paired Γ Δ pg n s F) (hx : C.At live t Δ P x) (hok : C.rg.Ok live t x)
    {b : Byte} (hb : s.cont.child b = .node c) :
    (shadow x).forest.place c = some (s.epoch, s.path ++ s.cont.pre ++ [b]) ∧ c ≠ n ∧
      pg.owner? ≠ some c := by
  have hi := ok_tree hok
  have hG := hx.knows.grasp n _ hp.grasp
  have hpre : (shadow x).forest.pre n = s.cont.pre := by rw [Forest.pre, hG.cont]
  have hplace : (shadow x).forest.place c = some (s.epoch, s.path ++ s.cont.pre ++ [b]) := by
    have := hi.wf.place_of_slot (Forest.at_child hG.place b)
      (show ((shadow x).forest.cont n).child b = _ by rw [hG.cont, hb])
    rwa [hpre] at this
  refine ⟨hplace, ?_, ?_⟩
  · rintro rfl
    have := congrArg (fun o => (o.map fun a => a.2.length)) (hplace.symm.trans hG.place)
    simp at this
  · intro hown
    cases pg with
    | root v => simp [ParentGuard.owner?] at hown
    | node p v b' =>
      obtain rfl : p = c := by simpa [ParentGuard.owner?] using hown
      obtain ⟨-, g, q, h1, h2, -, -, h3⟩ := hp.guard
      have hpl := (hx.knows.grasp p g h1).place.trans h2
      have := congrArg (fun o => (o.map fun a => a.2.length)) (hplace.symm.trans hpl)
      simp [h3] at this

/-- The child of a latched node has been latched as well. -/
structure Tripled (Γ Δ : Know) (pg : ParentGuard) (n : NodeId) (s : Sight) (F : Fields)
    (c : NodeId) (cw : ℕ) (g : Grasp) : Prop where
  lo : Δ.lo = Γ.lo
  held : Δ.held = Function.update (Function.update (Function.update Γ.held pg.latch
    (some pg.version)) (.node n) (some s.v)) (.node c) (some cw)
  priv : Δ.priv = Γ.priv
  follow : Δ.follow = Γ.follow
  clear : Δ.clear = Γ.clear
  due : Δ.due = Γ.due
  known : ∀ n, Γ.known n → Δ.known n
  aim : Δ.aim = Γ.aim
  guard : Guarded Δ pg (.node n) s.epoch s.path
  grasp : Δ.grasp n = some (graspOf s F)
  child : Δ.grasp c = some g
  repr : Repr s.ty F s.cont
  child_repr : Repr g.ty g.fields g.cont
  child_place : ∃ e q, g.place = some (e, q)
  ne : pg.owner? ≠ some n
  child_ne : c ≠ n
  owner_ne : pg.owner? ≠ some c

/-- The child of a latched node is latched, or both latches are released. -/
lemma wp_lockChild {k : ℕ → TreeM (Option ℕ)} {Q : Option ℕ → C.W → Prop} {b : Byte}
    (hh : ∀ l, Γ.held l = none) (hc : Γ.clear = none) (hp : Paired Γ Δ pg n s F)
    (hb : s.cont.child b = .node c) (hx : C.At live t Δ P x) (hok : C.rg.Ok live t x)
    (hback : ∀ y Δ', Γ.Walks Δ' → Δ'.priv = Γ.priv → C.At live t Δ' P y → Q none y)
    (hk : ∀ y Δ' cw g, C.rg.Ok live t y → Tripled Γ Δ' pg n s F c cw g → C.At live t Δ' P y →
      C.rg.wp live t (k cw) Q y) :
    C.rg.wp live t (do
      let some cw ← lockChild c
        | do
          let _ ← unlock (.node n) s.v
          let _ ← pg.unlock
          return none
      k cw) Q x := by
  obtain ⟨hplace, hcn, hco⟩ := hp.child hx hok hb
  have hpub := (ok_tree hok).pub_placed (n := c) (by simp [hplace])
  have hx' : C.At live t (Δ.learn c) P x := ⟨hx.knows.learn hpub, hx.client⟩
  have hc' : (Δ.learn c).clear = none := hp.clear.trans hc
  -- Whatever has been seen of the child, both latches can be given up.
  have hgive : ∀ y Δ', (Δ' = Δ.learn c ∨ ∃ sc, Δ' = (Δ.learn c).see c sc) → C.At live t Δ' P y →
      C.rg.wp live t (do
        let _ ← unlock (.node n) s.v
        let _ ← pg.unlock
        return none) Q y := by
    intro y Δ' hΔ' hy
    have h1 : Δ'.held = Δ.held ∧ Δ'.grasp = Δ.grasp ∧ Δ'.top = Δ.top ∧ Δ'.clear = Δ.clear ∧
        Δ'.lo = Δ.lo ∧ Δ'.follow = Δ.follow ∧ Δ'.due = Δ.due ∧ Δ'.aim = Δ.aim ∧
        Δ'.priv = Δ.priv ∧ ∀ n, Δ.known n → Δ'.known n := by
      rcases hΔ' with rfl | ⟨sc, rfl⟩ <;>
        exact ⟨rfl, rfl, rfl, rfl, rfl, rfl, rfl, rfl, rfl, fun _ => .inr⟩
    obtain ⟨hheld, hgrasp, htop, hclear, hlo, hfol, hdue, haim, hpriv, hknown⟩ := h1
    refine wp_unclasp (g := graspOf s F) hh hy (hclear.trans (hp.clear.trans hc))
      (hheld.trans hp.held) (hp.guard.congr (by rw [hheld]) (fun _ => htop)
        fun p _ => by rw [hgrasp]) hp.ne (by rw [hgrasp]; exact hp.grasp) rfl hp.repr
      fun z Δ'' hkeep hheld' hz => ?_
    refine RG.wp_ret (hback z Δ'' ⟨hkeep.lo.trans (hlo.trans hp.lo), hheld',
      hkeep.follow.trans (hfol.trans hp.follow), hkeep.clear.trans (hclear.trans hp.clear),
      hkeep.due.trans (hdue.trans hp.due), fun m hm => ?_,
      hkeep.aim.trans (haim.trans hp.aim)⟩ (hkeep.priv.trans (hpriv.trans hp.priv)) hz)
    rw [hkeep.known]
    exact hknown m (hp.known ▸ hm)
  have hlock : C.rg.wp live t (lockChild c) (fun r y =>
      (r = none → ∃ Δ', (Δ' = Δ.learn c ∨ ∃ sc, Δ' = (Δ.learn c).see c sc) ∧
        C.At live t Δ' P y) ∧
      ∀ cw, r = some cw → ∃ Δ' g, Tripled Γ Δ' pg n s F c cw g ∧ C.At live t Δ' P y) x := by
    refine RG.wp_seq (wp_sight hx' (.inl (.inl rfl))) ?_
    rintro (_ | cv) y - ⟨h1, h2⟩
    · exact RG.wp_ret ⟨fun _ => ⟨_, .inl rfl, h1 rfl⟩, by simp⟩
    obtain ⟨sc, rfl, hy⟩ := h2 cv rfl
    have hseen : ((Δ.learn c).see c sc).seen c = some sc := by simp [Know.see]
    refine RG.wp_mono (wp_tryUpgrade hy hc' hseen (promise_of_seen (hy.knows.seen c sc hseen))) ?_
    rintro r z - ⟨h3, h4⟩
    refine ⟨fun hr => ⟨_, .inr ⟨sc, rfl⟩, (h3 hr).2⟩, fun cw hcw => ?_⟩
    obtain ⟨rfl, -, F', hF', hz⟩ := h4 cw hcw
    refine ⟨((Δ.learn c).see c sc).latch c sc.v (graspOf sc F'), graspOf sc F',
      ⟨hp.lo, ?_, hp.priv, hp.follow,
      hp.clear, hp.due, fun m hm => .inr (hp.known ▸ hm), hp.aim, ?_, ?_, by simp [Know.latch],
      hp.repr, hF', ⟨_, _, rfl⟩, hp.ne, hcn, hco⟩, hz⟩
    · show Function.update Δ.held _ _ = _
      rw [hp.held]
    · exact hp.guard.of_ne hco rfl (fun lt hlt => by simp [Know.latch, Know.see, Know.learn, hlt])
        fun p hpc => by simp [Know.latch, Know.see, Know.learn, hpc]
    · rw [← hp.grasp]
      simp [Know.latch, Know.see, Know.learn, hcn.symm]
  refine RG.wp_seq hlock ?_
  rintro (_ | cw) y hoky ⟨h1, h2⟩
  · obtain ⟨Δ', hΔ', hy⟩ := h1 rfl
    exact hgive y Δ' hΔ' hy
  · obtain ⟨Δ', g, htri, hy⟩ := h2 cw rfl
    exact hk y Δ' cw g hoky htri hy

lemma Tripled.unlatch {cw : ℕ} {o : Option Sight} (h : Tripled Γ Δ pg n s F c cw g)
    (hh : ∀ l, Γ.held l = none) : HoldsPair Γ (Δ.unlatch c o) pg n s.v := by
  have hlat : pg.latch ≠ .node c := by
    cases pg with
    | root v => simp [ParentGuard.latch]
    | node p v b => simpa [ParentGuard.latch, ParentGuard.owner?] using h.owner_ne
  funext l
  by_cases hl : l = .node c
  · subst hl
    have hcn : LatchId.node c ≠ .node n := by simpa using h.child_ne
    rw [Function.update_of_ne hcn, Function.update_of_ne (Ne.symm hlat), hh]
    simp [Know.unlatch]
  · simp [Know.unlatch, h.held, hl]

lemma mergedPrefix_eq_some {np cp : PrefixSnapshot} {pre pre' bytes : List Byte} {b : Byte}
    (hn : np.Of pre) (hc : cp.Of pre') (h : mergedPrefix np b cp = some bytes) :
    bytes = pre ++ b :: pre' ∧ (pre ++ b :: pre').length ≤ maxPrefixLen := by
  unfold mergedPrefix at h
  split at h
  · simp at h
  · rename_i hlen
    rw [hn.asSlice, hc.asSlice] at h
    rw [hn.len, hc.len] at hlen
    obtain rfl : pre ++ b :: pre' = bytes := by simpa using h
    refine ⟨rfl, ?_⟩
    simp only [List.length_append, List.length_cons]
    omega

/-- The only child of a node is copied under the joined prefix. -/
lemma wp_mergeInto {b : Byte} (hh : ∀ l, Γ.held l = none) (hc : Γ.clear = none)
    (hpl : Planned Γ s (.merge b c ty) d prep) (hp : Paired Γ Δ pg n s F)
    (hx : C.At live t Δ P x) (hok : C.rg.Ok live t x) :
    C.rg.wp live t (mergeInto pg n s.v b c ty d) (fun r y =>
      (r = none → ∃ Δ', Γ.Walks Δ' ∧ Δ'.priv = Γ.priv ∧ C.At live t Δ' P y) ∧
      ∀ cw, r = some cw → ∃ Δ' g F', Tripled Γ Δ' pg n s F c cw g ∧
        (s.cont.pre ++ b :: g.cont.pre).length ≤ maxPrefixLen ∧
        Repr ty F' { g.cont with pre := s.cont.pre ++ b :: g.cont.pre } ∧
        C.At live t (Δ'.own d ty F') P y) x := by
  have hblank := hpl.blank ty rfl
  refine wp_lockChild hh hc hp hpl.plan_ok.2.2.2.1 hx hok
    (fun y Δ' hw hpriv hy => ⟨fun _ => ⟨Δ', hw, hpriv, hy⟩, by simp⟩) ?_
  intro y Δ' cw g _ htri hy
  have hc' : Δ'.clear = none := htri.clear.trans hc
  obtain ⟨e', q', hplace⟩ := htri.child_place
  refine RG.wp_seq (wp_onNode_read readOnly_loadPrefix hy htri.grasp) ?_
  rintro np y₁ - ⟨hrun₁, hy₁⟩
  refine RG.wp_seq (wp_onNode_read readOnly_loadPrefix hy₁ htri.child) ?_
  rintro cp y₂ - ⟨hrun₂, hy₂⟩
  refine RG.wp_seq (wp_typed_read (fun _ => readOnly_numChildren) hy₂ htri.child) ?_
  rintro k y₃ - ⟨hrun₃, hy₃⟩
  obtain ⟨np', hnp, hnpre⟩ := htri.repr.run_loadPrefix
  obtain rfl : np' = np := by simpa using hnp.symm.trans hrun₁
  obtain ⟨cp', hcp, hcpre⟩ := htri.child_repr.run_loadPrefix
  obtain rfl : cp' = cp := by simpa using hcp.symm.trans hrun₂
  rw [htri.child_repr.run_numChildren] at hrun₃
  obtain rfl : (Content.bytes g.cont.child).card = k := by simpa using hrun₃
  have hfail : C.rg.wp live t (do
      let _ ← unlock (.node c) cw
      let _ ← unlock (.node n) s.v
      let _ ← pg.unlock
      return none) (fun (r : Option ℕ) y =>
      (r = none → ∃ Δ', Γ.Walks Δ' ∧ Δ'.priv = Γ.priv ∧ C.At live t Δ' P y) ∧
      ∀ cw, r = some cw → ∃ Δ' g F', Tripled Γ Δ' pg n s F c cw g ∧
        (s.cont.pre ++ b :: g.cont.pre).length ≤ maxPrefixLen ∧
        Repr ty F' { g.cont with pre := s.cont.pre ++ b :: g.cont.pre } ∧
        C.At live t (Δ'.own d ty F') P y) y₃ := by
    refine RG.wp_seq (wp_unlock hy₃ hc' (by rw [htri.held, Function.update_self]) htri.child
      hplace htri.child_repr) ?_
    rintro _ y₄ - ⟨-, hy₄⟩
    refine wp_unclasp (g := graspOf s F) hh hy₄ hc' (htri.unlatch hh)
      (htri.guard.of_ne htri.owner_ne rfl (fun lt hlt => by simp [Know.unlatch, hlt])
        fun p hpc => by simp [Know.unlatch, hpc]) htri.ne
      (by simpa [Know.unlatch, Ne.symm htri.child_ne] using htri.grasp) rfl htri.repr
      fun z Δ'' hkeep hheld hz => RG.wp_ret ⟨fun _ => ⟨Δ'', ?_, ?_, hz⟩, by simp⟩
    · exact ⟨hkeep.lo.trans htri.lo, hheld, hkeep.follow.trans htri.follow,
        hkeep.clear.trans htri.clear, hkeep.due.trans htri.due,
        fun m hm => hkeep.known ▸ htri.known m hm, hkeep.aim.trans htri.aim⟩
    · exact hkeep.priv.trans htri.priv
  cases hm : mergedPrefix np' b cp' with
  | none => exact hfail
  | some bytes =>
    obtain ⟨rfl, hlen⟩ := mergedPrefix_eq_some hnpre hcpre hm
    by_cases hcard : (Content.bytes g.cont.child).card ≤ ty.capacity
    · rw [decide_eq_true hcard]
      refine RG.wp_seq (wp_copyInto (g := g) hy₃ hc' htri.child htri.child_repr hcard
        (by rw [htri.priv, hblank])) ?_
      rintro _ y₄ - ⟨F₁, hF₁, hy₄⟩
      refine RG.wp_seq (wp_writePrefix_built hy₄ hc' ⟨F₁, by simp, hF₁⟩ hlen) ?_
      rintro _ y₅ - ⟨F₂, hF₂, hy₅⟩
      rw [Know.own_own] at hy₅
      refine RG.wp_ret ⟨by simp, fun cw' hcw => ?_⟩
      obtain rfl : cw = cw' := by simpa using hcw
      exact ⟨Δ', g, F₂, htri, hlen, hF₂, hy₅⟩
    · rw [decide_eq_false hcard]
      exact hfail

/-- The node and its only child give way to a copy under the joined prefix. -/
lemma wp_fitMerged {b : Byte} {cw : ℕ} {F' : Fields} (hh : ∀ l, Γ.held l = none)
    (hc : Γ.clear = none) (hA : Tamed Γ) (hpl : Planned Γ s (.merge b c ty) d prep)
    (htri : Tripled Γ Δ pg n s F c cw g)
    (hlen : (s.cont.pre ++ b :: g.cont.pre).length ≤ maxPrefixLen)
    (hF' : Repr ty F' { g.cont with pre := s.cont.pre ++ b :: g.cont.pre })
    (hx : C.At live t (Δ.own d ty F') P x) (hok : C.rg.Ok live t x) :
    C.rg.wp live t (do
      publishInParent pg (.node d)
      markObsolete (.node c) cw
      markObsolete (.node n) s.v
      let _ ← pg.unlock
      onTree (.retireNode c)
      onTree (.retireNode n)
      return ((.done, prep.commit) : Fitted × Pool))
      (fun r y => FitEnds C live t Γ P r.2 y) x := by
  have hblank := hpl.blank ty rfl
  have hc' : (Δ.own d ty F').clear = none := htri.clear.trans hc
  have hdn : d ≠ n := hx.priv_ne_held hok (by simp) (by
    have hcn : LatchId.node n ≠ .node c := by simpa using htri.child_ne.symm
    rw [show (Δ.own d ty F').held = _ from htri.held, Function.update_of_ne hcn]
    simp)
  have hndn : ¬ (Δ.own d ty F').due n := hx.not_due hok (g := graspOf s F) htri.grasp (by simp)
  have hndc : ¬ (Δ.own d ty F').due c := by
    obtain ⟨e', q', hplace⟩ := htri.child_place
    exact hx.not_due hok htri.child (by simp [hplace])
  have hg : Guarded (Δ.own d ty F') pg (.node n) s.epoch s.path :=
    htri.guard.congr rfl (fun _ => rfl) fun _ _ => rfl
  have htamed : Tamed (Δ.own d ty F') := by
    intro A hA'
    obtain ⟨B, L, h1, h2⟩ := hA A (htri.aim ▸ hA')
    exact ⟨B, L, h1, fun i hi => htri.known _ (h2 i hi)⟩
  have hswap : C.rg.wp live t (publishInParent pg (.node d)) (fun _ y => ∃ Δ₁,
      Know.Swapped (Δ.own d ty F') Δ₁ [n, c] [d] ∧ Guarded Δ₁ pg (.node d) s.epoch s.path ∧
      C.At live t Δ₁ P y) x := by
    refine wp_swap hx hc' hg (stores_publish (by simp) (by simp) hg)
      (fun p hp hmem => ?_) fun y hoky hready => ?_
    · rcases List.mem_cons.mp hmem with rfl | hmem
      · exact htri.ne hp
      · exact htri.owner_ne (List.mem_singleton.mp hmem ▸ hp)
    · obtain ⟨G, hG, hGd⟩ := replaces_merge hoky hready hg (g := graspOf s F) htri.grasp
        htri.child hpl.plan_ok hlen ⟨F', Know.own_priv, hF'⟩
      obtain ⟨-, h2, h3⟩ := hg.loc hready (ok_tree hoky)
      refine ⟨G, hG, htamed.commit hoky hready hG ((ok_tree hoky).wf.place_of_slot h2 h3)
        fun k hk => ?_⟩
      rw [List.mem_singleton.mp hk, hGd]
  refine RG.wp_seq hswap ?_
  rintro _ y - ⟨Δ₁, hsw, hg₁, hy⟩
  have hheld₁ : Δ₁.held = Δ.held := hsw.held
  refine RG.wp_seq (wp_markObsolete (v := cw) hy (by rw [hheld₁, htri.held, Function.update_self])
    ((hsw.due c).mpr (.inr (by simp)))) ?_
  intro _ z _ hz
  have hg₂ : Guarded (Δ₁.unlatch c none) pg (.node d) s.epoch s.path :=
    hg₁.of_ne htri.owner_ne rfl (fun lt hlt => by simp [Know.unlatch, hlt])
      fun p hpc => by simp [Know.unlatch, hpc]
  have hpair : HoldsPair Γ (Δ₁.unlatch c none) pg n s.v := by
    have := htri.unlatch (o := none) hh
    unfold HoldsPair at this ⊢
    rw [← this]
    simp [Know.unlatch, hheld₁]
  refine wp_drop hh hz (hsw.clear.trans hc') hpair hg₂ htri.ne ((hsw.due n).mpr (.inr (by simp)))
    fun u Δ₂ hkeep hheld₂ hu => ?_
  have hdue₂ : ∀ k, Δ₂.due k ↔ Δ.due k ∨ k = n ∨ k = c := by
    intro k
    rw [hkeep.due]
    exact (hsw.due k).trans (by simp [Know.own])
  refine RG.wp_seq (wp_retireNode hu ((hdue₂ c).mpr (.inr (.inr rfl))) (by rw [hheld₂, hh])) ?_
  intro _ u₁ _ hu₁
  refine RG.wp_seq (wp_retireNode hu₁ ⟨htri.child_ne.symm, (hdue₂ n).mpr (.inr (.inl rfl))⟩
    ((congrFun hheld₂ _).trans (hh _))) ?_
  intro _ u₂ _ hu₂
  refine RG.wp_ret ⟨(Δ₂.retire c).retire n, ⟨?_, hheld₂, ?_, ?_, ?_, ?_, ?_⟩, ?_, hu₂⟩
  · exact hkeep.lo.trans (hsw.lo.trans htri.lo)
  · exact hkeep.follow.trans (hsw.follow.trans htri.follow)
  · exact hkeep.clear.trans (hsw.clear.trans htri.clear)
  · rw [← htri.due]
    funext k
    refine propext ⟨fun hk => ?_, fun hk => ⟨?_, ?_, (hdue₂ k).mpr (.inl hk)⟩⟩
    · obtain ⟨hkn, hkc, hk⟩ := hk
      exact ((hdue₂ k).mp hk).resolve_right (by simp [hkn, hkc])
    · rintro rfl
      exact hndn hk
    · rintro rfl
      exact hndc hk
  · intro k hk
    have : Δ₂.known = Δ.known := hkeep.known.trans hsw.known
    show Δ₂.known k
    rw [this]
    exact htri.known k hk
  · exact hkeep.aim.trans (hsw.aim.trans htri.aim)
  · have hpool : PoolOk (Δ.own d ty F') prep :=
      (hpl.pool.congr htri.priv).own (by rw [htri.priv, hblank]; simp)
    exact hpool.commit _ hpl.used (hkeep.priv.trans hsw.priv)

/-! ### The attempt -/

/-- The latched part of an attempt. -/
lemma wp_fitLatched (hh : ∀ l, Γ.held l = none) (hc : Γ.clear = none) (hA : Tamed Γ)
    (hpar : ParentPub Γ par) (hs : Γ.seen n = some s) (hpl : Planned Γ s plan d prep)
    (hx : C.At live t Γ P x) :
    C.rg.wp live t (fitLatched par n s.v plan d prep) (fun r y => FitEnds C live t Γ P r.2 y)
      x := by
  refine wp_pair hx hc hh hs hpar
    (fun y Δ _ hr hy => ⟨Δ, hr.walks, hpl.pool.congr hr.priv, hy⟩)
    (fun y Δ _ hr hy => ⟨Δ, hr.walks, hpl.pool.congr hr.priv, hy⟩) ?_
  intro y Δ pg F hok _ hp hy
  have hend : ∀ z Δ', Γ.Walks Δ' → Δ'.priv = Γ.priv → plan.layout = none → C.At live t Δ' P z →
      C.rg.wp live t (return ((.done, prep.commit) : Fitted × Pool))
        (fun r y => FitEnds C live t Γ P r.2 y) z := by
    intro z Δ' hw hpriv hlay hz
    refine RG.wp_ret ⟨Δ', hw, hpl.pool.commit _ hpl.used ?_, hz⟩
    simp [Plan.fresh, hlay, hpriv]
  cases plan with
  | unlink =>
    exact wp_fitGone hh hc hA hp hy hok (stores_unlink (by simp) hp.guard)
      (fun z hokz hready => replaces_unlink hokz hready hp.guard hp.grasp hpl.plan_ok)
      fun z Δ' hw hpriv hz => hend z Δ' hw hpriv rfl hz
  | leaf sl =>
    have hleaf : Rest.Of s.cont (.leaf sl) := hpl.plan_ok
    cases sl with
    | null => simp [Rest.Of, Slot.isLeaf] at hleaf
    | node k => simp [Rest.Of, Slot.isLeaf] at hleaf
    | leaf l =>
      show C.rg.wp live t ((replaceNode pg n s.v (.leaf l)).bind _) _ y
      unfold replaceNode
      simp only [Prog.bind_eq_bind, Prog.bind_assoc]
      exact wp_fitGone hh hc hA hp hy hok
        (stores_publish (by simp) (by simp) hp.guard)
        (fun z hokz hready => replaces_leaf hokz hready hp.guard hp.grasp hleaf)
        fun z Δ' hw hpriv hz => hend z Δ' hw hpriv rfl hz
  | shrink ty => exact wp_fitCopy hh hc hA hpl hp hy hok
  | merge b c ty =>
    refine RG.wp_seq (wp_mergeInto hh hc hpl hp hy hok) ?_
    rintro (_ | cw) z hokz ⟨h1, h2⟩
    · obtain ⟨Δ', hw, hpriv, hz⟩ := h1 rfl
      exact RG.wp_ret ⟨Δ', hw, hpl.pool.congr hpriv, hz⟩
    · obtain ⟨Δ', g, F', htri, hlen, hF', hz⟩ := h2 cw rfl
      exact wp_fitMerged hh hc hA hpl htri hlen hF' hz hokz

/-- Reading any node. -/
lemma wp_onNode_any {β : Type} {p : NodeM β} (hp : p.ReadOnly) (hx : C.At live t Γ P x) :
    C.rg.wp live t (onNode c p) (fun _ y => C.At live t Γ P y ∧
      Later live t (tree x) (shadow x) y) x := by
  induction p generalizing x with
  | ret a => exact RG.wp_ret ⟨hx, .refl x⟩
  | ld f k ih =>
    rw [onNode_ld]
    refine RG.wp_seq (wp_load' hx rfl) ?_
    rintro v y - ⟨-, hy, hlater⟩
    exact RG.wp_mono (ih v (hp v) hy) fun _ z _ hz => ⟨hz.1, hlater.trans hz.2⟩
  | st f v k => exact hp.elim
  | fail => exact hp.elim

lemma wp_typed_any {β : Type} {p : NodeType → NodeM β} (hp : ∀ ty, (p ty).ReadOnly)
    (hx : C.At live t Γ P x) :
    C.rg.wp live t (typed c p) (fun _ y => C.At live t Γ P y ∧
      Later live t (tree x) (shadow x) y) x := by
  refine RG.wp_seq (wp_nodeType hx c) ?_
  rintro ty y - ⟨-, hy, hlater⟩
  exact RG.wp_mono (wp_onNode_any (hp ty) hy) fun _ z _ hz => ⟨hz.1, hlater.trans hz.2⟩

lemma le_capacity_fitting (c : Content) :
    (Content.bytes c.child).card ≤ (NodeType.fitting (Content.bytes c.child).card).capacity := by
  have hle : (Content.bytes c.child).card ≤ 256 := (Finset.card_le_univ _).trans (by simp)
  unfold NodeType.fitting
  split_ifs <;> simp only [NodeType.capacity] <;> omega

lemma card_inner {c : Content} {b : Byte} {k : Slot} (h : Rest.Of c (.inner b k)) :
    ¬ c.Empty ∧ (Content.bytes c.child).card ≤ 4 := by
  obtain ⟨-, hk, -, hb, hother⟩ := h
  refine ⟨fun hem => hk (hb.symm.trans (hem.2 b)), ?_⟩
  have hsub : Content.bytes c.child ⊆ {b} := by
    intro x hx
    rw [Content.mem_bytes] at hx
    by_contra hne
    exact hx (hother x (by simpa using hne))
  exact (Finset.card_le_card hsub).trans (by simp)

/-- The plan for a node that was seen is right, if the node has not changed. -/
lemma wp_planFor (hs : Γ.seen n = some s) (hx : C.At live t Γ P x) :
    C.rg.wp live t (planFor n) (fun r y => C.At live t Γ P y ∧
      Promise live n s.v (∀ plan, r = some plan → plan.For s.cont) (tree y)) x := by
  refine RG.wp_seq (wp_typed_spec (R := fun r => r.Of s.cont)
    (fun _ => readOnly_restOf .nothing) (fun F a hF ha => ?_) hs hx
    (promise_of_seen (hx.knows.seen n s hs))) ?_
  · obtain ⟨r, h1, h2⟩ := hF.run_restOf .nothing
    obtain rfl : r = a := by simpa using h1.symm.trans ha
    exact h2
  rintro r y - ⟨hy, hpr⟩
  cases r with
  | empty =>
    refine RG.wp_ret ⟨hy, hpr.mono fun h plan hplan => ?_⟩
    obtain rfl : Plan.unlink = plan := by simpa using hplan
    exact h.2
  | leaf sl =>
    refine RG.wp_ret ⟨hy, hpr.mono fun h plan hplan => ?_⟩
    obtain rfl : Plan.leaf sl = plan := by simpa using hplan
    exact h.2
  | many =>
    refine RG.wp_seq (wp_typed_spec (R := fun k => k = (Content.bytes s.cont.child).card)
      (fun _ => readOnly_numChildren) (fun F a hF ha => ?_) hs hy hpr) ?_
    · rw [hF.run_numChildren] at ha
      simpa using ha.symm
    rintro k z - ⟨hz, hpr'⟩
    refine RG.wp_seq (wp_nodeType hz n) ?_
    rintro (ty : NodeType) u - ⟨-, hu, hlater⟩
    refine RG.wp_ret ⟨hu, (hpr'.later hlater).mono fun h plan hplan => ?_⟩
    obtain ⟨⟨-, h2⟩, rfl⟩ := h
    by_cases hlt : (NodeType.fitting (Content.bytes s.cont.child).card).lt ty = true
    · rw [if_pos hlt] at hplan
      obtain rfl : Plan.shrink _ = plan := by simpa using hplan
      refine ⟨fun hem => ?_, le_capacity_fitting _⟩
      have h3 : 2 ≤ s.cont.entries := h2
      rw [Content.entries_eq_zero.mpr hem] at h3
      omega
    · simp [hlt] at hplan
  | inner b sl =>
    cases sl with
    | null => exact RG.wp_ret ⟨hy, hpr.mono fun _ _ hplan => by simp at hplan⟩
    | leaf l => exact RG.wp_ret ⟨hy, hpr.mono fun _ _ hplan => by simp at hplan⟩
    | node c =>
      refine RG.wp_seq (wp_onNode_any readOnly_prefixLen hy) ?_
      rintro np z - ⟨hz, hlater⟩
      refine RG.wp_seq (wp_onNode_any readOnly_prefixLen hz) ?_
      rintro cp u - ⟨hu, hlater'⟩
      have hpr' := (hpr.later hlater).later hlater'
      by_cases hle : np + 1 + cp ≤ maxPrefixLen
      · simp only [hle, if_true]
        refine RG.wp_seq (wp_typed_any (fun _ => readOnly_numChildren) hu) ?_
        rintro k w - ⟨hw, hlater''⟩
        refine RG.wp_ret ⟨hw, (hpr'.later hlater'').mono fun h plan hplan => ?_⟩
        obtain rfl : Plan.merge b c _ = plan := by simpa using hplan
        exact h.2
      · simp only [hle, if_false]
        refine RG.wp_seq (wp_nodeType hu n) ?_
        rintro (ty : NodeType) w - ⟨-, hw, hlater''⟩
        refine RG.wp_ret ⟨hw, (hpr'.later hlater'').mono fun h plan hplan => ?_⟩
        by_cases hlt : NodeType.node4.lt ty = true
        · rw [if_pos hlt] at hplan
          obtain rfl : Plan.shrink .node4 = plan := by simpa using hplan
          exact card_inner h.2
        · simp [hlt] at hplan

/-- The replacement node of a plan. -/
lemma wp_freshFor (hx : C.At live t Γ P x) (hc : Γ.clear = none) (hpool : PoolOk Γ prep)
    (hun : prep.Unused) :
    C.rg.wp live t (freshFor prep plan) (fun r y => ∃ Δ, Γ.Builds Δ ∧ PoolOk Δ r.2 ∧
      C.At live t Δ P y ∧ ∀ d, r.1 = some d → (∀ k, k ∈ plan.fresh d ↔ (k, true) ∈ r.2) ∧
        ∀ ty, plan.layout = some ty → Δ.priv d = some (ty, Fields.fresh)) x := by
  have hnode : ∀ ty, plan.layout = some ty → C.rg.wp live t (prep.node ty) (fun r y => ∃ Δ,
      Γ.Builds Δ ∧ PoolOk Δ r.2 ∧ C.At live t Δ P y ∧
      ∀ d, r.1 = some d → (∀ k, k ∈ plan.fresh d ↔ (k, true) ∈ r.2) ∧
        ∀ ty, plan.layout = some ty → Δ.priv d = some (ty, Fields.fresh)) x := by
    intro ty hty
    refine RG.wp_mono (wp_poolNode ty hx hc hpool) ?_
    rintro ⟨_ | d, prep'⟩ y - ⟨h1, h2⟩
    · obtain ⟨rfl, -, hy⟩ := h1 rfl
      exact ⟨Γ, .rfl, hpool, hy, by simp⟩
    · obtain ⟨h3, -, h4, hy⟩ := h2 d rfl
      refine ⟨_, Know.Builds.rfl.own, h3, hy, fun d' hd => ⟨fun k => ?_, fun ty' hty' => ?_⟩⟩
      · obtain rfl : d = d' := by simpa using hd
        rw [h4 k]
        simp [Plan.fresh, hty, hun k]
      · obtain rfl : d = d' := by simpa using hd
        obtain rfl : ty = ty' := by simpa [hty] using hty'
        simp
  cases plan with
  | merge b c ty => exact hnode ty rfl
  | shrink ty => exact hnode ty rfl
  | unlink =>
    exact RG.wp_ret ⟨Γ, .rfl, hpool, hx, fun d _ =>
      ⟨fun k => by simp [Plan.fresh, Plan.layout, hun k], by simp [Plan.layout]⟩⟩
  | leaf sl =>
    exact RG.wp_ret ⟨Γ, .rfl, hpool, hx, fun d _ =>
      ⟨fun k => by simp [Plan.fresh, Plan.layout, hun k], by simp [Plan.layout]⟩⟩

/-- The node of a parent was published some time ago. -/
def ParentKnown (Γ : Know) : Parent → Prop
  | .root => True
  | .node p _ _ => Γ.known p

lemma ParentKnown.pub (h : ParentKnown Γ par) : ParentPub Γ par := by
  cases par with
  | root => trivial
  | node p v b => exact .inl h

lemma ParentKnown.mono (h : ParentKnown Γ par) (hk : ∀ n, Γ.known n → Δ.known n) :
    ParentKnown Δ par := by
  cases par with
  | root => trivial
  | node p v b => exact hk p h

lemma ParentKnown.walks (h : ParentKnown Γ par) (hw : Γ.Walks Δ) : ParentKnown Δ par :=
  h.mono hw.known

lemma Tamed.walks (h : Tamed Γ) (hw : Γ.Walks Δ) : Tamed Δ := by
  intro A hA
  obtain ⟨B, L, h1, h2⟩ := h A (hw.aim ▸ hA)
  exact ⟨B, L, h1, fun i hi => hw.known _ (h2 i hi)⟩

/-- One attempt to fit a node. -/
lemma wp_fitOnce (hh : ∀ l, Γ.held l = none) (hc : Γ.clear = none) (hA : Tamed Γ)
    (hpar : ParentKnown Γ par) (hn : Γ.known n) (hpool : PoolOk Γ prep) (hx : C.At live t Γ P x) :
    C.rg.wp live t (fitOnce par n prep) (fun r y => FitEnds C live t Γ P r.2 y) x := by
  have hend : ∀ y, C.At live t Γ P y → FitEnds C live t Γ P prep.reset y :=
    fun y hy => ⟨Γ, .rfl, hpool.reset, hy⟩
  refine RG.wp_seq (wp_sight hx (.inl hn)) ?_
  rintro (_ | v) y - ⟨h1, h2⟩
  · refine RG.wp_seq (K := fun _ y => C.At live t Γ P y) ?_ ?_
    · refine RG.wp_seq (wp_loadLatch (h1 rfl) (.node n)) ?_
      rintro w z - ⟨-, hz, -⟩
      exact RG.wp_ret hz
    · rintro (_ | _) z - hz
      · exact RG.wp_ret (hend z hz)
      · exact RG.wp_ret (hend z hz)
  obtain ⟨s, rfl, hy⟩ := h2 v rfl
  have hseen : (Γ.see n s).seen n = some s := by simp [Know.see]
  have hend' : ∀ y, C.At live t (Γ.see n s) P y → FitEnds C live t Γ P prep.reset y :=
    fun y hy => ⟨Γ.see n s, ⟨rfl, rfl, rfl, rfl, rfl, fun _ => id, rfl⟩, hpool.reset.congr rfl, hy⟩
  refine RG.wp_seq (wp_planFor hseen hy) ?_
  rintro plan z - ⟨hz, hpr⟩
  refine RG.wp_seq (wp_validate hz hpr) ?_
  rintro (_ | _) u - ⟨hu, hplan, -, -⟩
  · exact RG.wp_ret (hend' u hu)
  cases plan with
  | none => exact RG.wp_ret (hend' u hu)
  | some plan =>
    refine RG.wp_seq (wp_freshFor hu hc (hpool.reset.congr rfl)
      prep.unused_reset) ?_
    rintro ⟨_ | d, prep'⟩ w - ⟨Δ, hb, hpool', hw, hd⟩
    all_goals
      have hwalk : Γ.Walks Δ := by
        rw [hb]
        exact ⟨rfl, rfl, rfl, rfl, rfl, fun _ => id, rfl⟩
    · exact RG.wp_ret ⟨Δ, hwalk, hpool', hw⟩
    · obtain ⟨hused, hblank⟩ := hd d rfl
      refine RG.wp_mono (wp_fitLatched (fun l => (congrFun hwalk.held l).trans (hh l))
        (hwalk.clear.trans hc) (hA.walks hwalk) (hpar.walks hwalk).pub (by rw [hb]; exact hseen)
        ⟨hplan rfl plan rfl, hpool', hused, hblank⟩ hw) ?_
      rintro r a - ⟨Δ', hw', hp', ha⟩
      exact ⟨Δ', hwalk.trans hw', hp', ha⟩

/-- `fit`. -/
lemma wp_fit (k : ℕ) (hh : ∀ l, Γ.held l = none) (hc : Γ.clear = none) (hA : Tamed Γ)
    (hpar : ParentKnown Γ par) (hn : Γ.known n) (hpool : PoolOk Γ prep)
    (hx : C.At live t Γ P x) :
    C.rg.wp live t (fit par n k prep) (fun r y => FitEnds C live t Γ P r.2 y) x := by
  induction k generalizing Γ prep x with
  | zero => exact RG.wp_ret ⟨Γ, .rfl, hpool, hx⟩
  | succ k ih =>
    refine RG.wp_seq (wp_fitOnce hh hc hA hpar hn hpool hx) ?_
    rintro ⟨_ | _ | _, prep'⟩ y - ⟨Δ, hw, hpool', hy⟩
    · refine RG.wp_mono (ih (fun l => (congrFun hw.held l).trans (hh l)) (hw.clear.trans hc)
        (hA.walks hw) (hpar.walks hw) (hw.known n hn) hpool' hy) ?_
      rintro r z - ⟨Δ', hw', hp', hz⟩
      exact ⟨Δ', hw.trans hw', hp', hz⟩
    · exact RG.wp_ret ⟨Δ, hw, hpool', hy⟩
    · exact RG.wp_ret ⟨Δ, hw, hpool', hy⟩

end Fit

/-! ## The walk -/

section Walk

open Content (nextOf nextOf_eq_none nextOf_eq_some)

variable {φ : Prop} {B : Finset (ℕ × List Byte)} {Δ' : Know}

/-- The children of a node that was seen. -/
lemma wp_childrenSeen (hs : Γ.seen n = some s) (fuel start : ℕ)
    (hx : C.At live t Γ P x) (hφ : Promise live n s.v φ (tree x)) :
    C.rg.wp live t (childrenFrom n fuel start) (fun cs y => C.At live t Γ P y ∧
      Promise live n s.v (φ ∧ (257 ≤ start + fuel → ChildList s.cont.child start cs))
        (tree y)) x := by
  induction fuel generalizing start x φ with
  | zero =>
    refine RG.wp_ret ⟨hx, hφ.mono fun h => ⟨h, fun hf => .nil (nextOf_eq_none.mpr ?_)⟩⟩
    intro b hb
    have := b.isLt
    omega
  | succ fuel ih =>
    refine RG.wp_seq (wp_typed_spec (R := fun r => r = nextOf s.cont.child start)
      (fun _ => readOnly_nextChild _) (fun F a hF ha => ?_) hs hx hφ) ?_
    · rw [hF.run_nextChild] at ha
      simpa using ha.symm
    rintro r y - ⟨hy, hpr⟩
    cases r with
    | none => exact RG.wp_ret ⟨hy, hpr.mono fun h => ⟨h.1, fun _ => .nil h.2.symm⟩⟩
    | some a =>
      obtain ⟨b, sl⟩ := a
      refine RG.wp_seq (ih (b.val + 1) hy hpr) ?_
      rintro cs z - ⟨hz, hpr'⟩
      refine RG.wp_ret ⟨hz, hpr'.mono fun h => ⟨h.1.1, fun hf => ?_⟩⟩
      have hb := (nextOf_eq_some.mp h.1.2.symm).1
      exact .cons h.1.2.symm (h.2 (by omega))

/-- Where the children of a node are, alone. -/
def ChildrenAt (n : NodeId) (cs : List (Byte × NodeId)) (F : Forest) : Prop :=
  ∃ a pre, F.place n = some a ∧
    ∀ b c, (b, c) ∈ cs → F.place c = some (a.1, a.2 ++ pre ++ [b])

/-- `inner_children`. -/
lemma wp_innerChildren (k : ℕ) (hn : Γ.known n) (hx : C.At live t Γ P x) :
    C.rg.wp live t (innerChildren n k) (fun r y => ∃ Δ, Γ.Walks Δ ∧ Δ.priv = Γ.priv ∧
      C.At live t Δ P y ∧ ∀ v cs, r = some (v, cs) → (cs.map Prod.fst).Nodup ∧
        (∀ b c, (b, c) ∈ cs → Δ.known c) ∧
        (live = true → ChildrenAt n cs (shadow y).forest)) x := by
  induction k generalizing Γ x with
  | zero => exact RG.wp_ret ⟨Γ, .rfl, rfl, hx, by simp⟩
  | succ k ih =>
    refine RG.wp_seq (wp_sight hx (.inl hn)) ?_
    rintro (_ | v) y - ⟨h1, h2⟩
    · refine RG.wp_seq (K := fun _ y => C.At live t Γ P y) ?_ ?_
      · refine RG.wp_seq (wp_loadLatch (h1 rfl) (.node n)) ?_
        rintro w z - ⟨-, hz, -⟩
        exact RG.wp_ret hz
      · rintro (_ | _) z - hz
        · exact ih hn hz
        · exact RG.wp_ret ⟨Γ, .rfl, rfl, hz, by simp⟩
    obtain ⟨s, rfl, hy⟩ := h2 v rfl
    have hwalk : Γ.Walks (Γ.see n s) := ⟨rfl, rfl, rfl, rfl, rfl, fun _ => id, rfl⟩
    have hseen : (Γ.see n s).seen n = some s := by simp [Know.see]
    refine RG.wp_seq (wp_childrenSeen hseen 257 0 hy
      (promise_of_seen (hy.knows.seen n s hseen))) ?_
    rintro cs z hokz ⟨hz, hpr⟩
    -- At this moment the children are published, unless the node has changed.
    have hpub : Promise live n s.v (ChildList s.cont.child 0 cs ∧
        ∀ b c, s.cont.child b = .node c → (shadow z).pub c) (tree z) := by
      refine ⟨hpr.le, hpr.alone, fun hw => ⟨(hpr.right hw).2 (by norm_num), fun b c hb => ?_⟩⟩
      exact (ok_tree hokz).pub_placed (by simp [place_of_seen hz hokz hseen hw hb])
    refine RG.wp_seq (wp_validate hz hpub) ?_
    rintro (_ | _) u hoku ⟨hu, hval, -, hlater⟩
    · refine RG.wp_mono (ih (Γ := Γ.see n s) hn hu) ?_
      rintro r w - ⟨Δ, hw, hp, hwx, hcs⟩
      exact ⟨Δ, hwalk.trans hw, hp, hwx, hcs⟩
    obtain ⟨hlist, hpub'⟩ := hval rfl
    refine RG.wp_ret ⟨(Γ.see n s).learns fun c => ∃ b, s.cont.child b = .node c,
      ⟨rfl, rfl, rfl, rfl, rfl, fun _ h => .inr h, rfl⟩, rfl, ⟨hu.knows.learns ?_, hu.client⟩, ?_⟩
    · rintro c ⟨b, hb⟩
      exact hlater.rely.pub_mono c (hpub' b c hb)
    rintro v' cs' hr
    obtain ⟨-, hcs⟩ : s.v = v' ∧ _ = cs' := by simpa using hr
    have hmem : ∀ b c, (b, c) ∈ cs' → s.cont.child b = .node c := by
      intro b c hbc
      rw [← hcs] at hbc
      obtain ⟨⟨b', sl⟩, h3, h4⟩ := List.mem_filterMap.mp hbc
      cases sl <;> simp at h4
      obtain ⟨rfl, rfl⟩ := h4
      exact ((hlist.mem _ _).mp h3).2.1
    refine ⟨?_, fun b c hbc => .inl ⟨b, hmem b c hbc⟩, fun hl => ?_⟩
    · have hpw := List.pairwise_map.mp hlist.nodup
      rw [← hcs, List.nodup_iff_pairwise_ne, List.pairwise_map]
      refine List.Pairwise.filterMap _ ?_ hpw
      rintro ⟨b, sl⟩ ⟨b', sl'⟩ hne ⟨c, k⟩ hk ⟨c', k'⟩ hk'
      cases sl <;> simp at hk
      cases sl' <;> simp at hk'
      obtain ⟨⟨rfl, -⟩, rfl, -⟩ := hk, hk'
      exact hne
    · have hsn := hu.knows.seen n s hseen
      obtain ⟨-, hplace⟩ := hsn.right (hsn.alone hl)
      exact ⟨(s.epoch, s.path), s.cont.pre, hplace, fun b c hbc =>
        place_of_seen hu hoku hseen (hsn.alone hl) (hmem b c hbc)⟩

/-- What is left to do for a frame of the walk. -/
def weight (B : Finset (ℕ × List Byte)) (F : Forest) (f : FitFrame) : ℕ :=
  if f.expanded then 1 else
    match F.place f.node with
    | none => 1
    | some a => 2 * (Tame.below B a).card

/-- What is left to do for the whole walk. -/
def weights (B : Finset (ℕ × List Byte)) (F : Forest) (stack : List FitFrame) : ℕ :=
  (stack.map (weight B F)).sum

/-- The frames, with the places of their nodes. -/
def framed (F : Forest) (stack : List FitFrame) : List (NodeId × Option (ℕ × List Byte)) :=
  stack.map fun f => (f.node, F.place f.node)

section Weight

variable {F G : Forest} {L : List (NodeId × Option (ℕ × List Byte))} {f : FitFrame}
  {stack : List FitFrame}

lemma weight_pos (hT : Tame B L F) (f : FitFrame) : 0 < weight B F f := by
  unfold weight
  split_ifs
  · exact one_pos
  · cases h : F.place f.node with
    | none => exact one_pos
    | some a =>
      have : 0 < (Tame.below B a).card := Finset.card_pos.mpr
        ⟨a, Tame.mem_below.mpr ⟨hT.paths _ _ h, rfl, List.prefix_rfl⟩⟩
      show 0 < 2 * _
      omega

/-- Nodes that are where they were, or in no tree any more, are no more work. -/
lemma weights_le (hF : Tame B [] F) (hG : Tame B L G)
    (hL : ∀ i, i ∈ framed F stack → i ∈ L) : weights B G stack ≤ weights B F stack := by
  refine List.sum_le_sum fun f hf => ?_
  have hpos := weight_pos hF f
  have h := hG.frames f.node (F.place f.node) (hL _ (List.mem_map.mpr ⟨f, hf, rfl⟩))
  unfold weight at hpos ⊢
  split_ifs at hpos ⊢
  · exact le_rfl
  · rcases h with h | h
    · rw [h]
      exact hpos
    · rw [h]

/-- The children of a node are less work than the node. -/
lemma weights_expand (hF : Tame B [] F) (hG : Tame B L G) (hf : f.expanded = false)
    (hL : ∀ i, i ∈ framed F (f :: stack) → i ∈ L) {cs : List (Byte × NodeId)} {v : ℕ}
    (hnd : (cs.map Prod.fst).Nodup) (hcs : ChildrenAt f.node cs G) :
    weights B G (cs.map (fun (b, c) => ⟨.node f.node v b, c, false⟩) ++
      { f with expanded := true } :: stack) < weights B F (f :: stack) := by
  obtain ⟨a, pre, hpl, hch⟩ := hcs
  have hle := weights_le hF hG fun i hi => hL i (List.mem_cons_of_mem _ hi)
  have hplF : F.place f.node = some a := by
    rcases hG.frames f.node (F.place f.node) (hL _ (by simp [framed])) with h | h
    · simp [h] at hpl
    · exact h.symm.trans hpl
  have hsum := Tame.sum_below a (hF.paths _ _ hplF) pre (cs.map Prod.fst) hnd
  have hkids : weights B G (cs.map fun (b, c) => ⟨.node f.node v b, c, false⟩) =
      2 * ((cs.map Prod.fst).map fun b => (Tame.below B (a.1, a.2 ++ pre ++ [b])).card).sum := by
    rw [weights, List.map_map, List.map_map, ← List.sum_map_mul_left]
    refine congrArg List.sum (List.map_congr_left ?_)
    rintro ⟨b, c⟩ hbc
    simp [weight, hch b c hbc]
  have hthis : weight B F f = 2 * (Tame.below B a).card := by simp [weight, hf, hplF]
  have hdone : weight B G { f with expanded := true } = 1 := by simp [weight]
  unfold weights at hkids hle ⊢
  rw [List.map_append, List.sum_append, hkids, List.map_cons, List.sum_cons, List.map_cons,
    List.sum_cons, hthis, hdone]
  omega

end Weight

/-- What the walk keeps. -/
structure Trimming (Γ Δ : Know) (B : Finset (ℕ × List Byte)) (stack : List FitFrame)
    (prep : Pool) : Prop where
  walks : Γ.Walks Δ
  aim : Γ.aim = some (Tame B [])
  pool : PoolOk Δ prep
  frames : ∀ f, f ∈ stack → ParentKnown Δ f.parent ∧ Δ.known f.node

namespace Trimming

variable {stack stack' : List FitFrame} {prep prep' : Pool}
  {L : List (NodeId × Option (ℕ × List Byte))}

lemma tame (h : Trimming Γ Δ B stack prep) (hx : C.At live t Δ P x) (hl : live = true) :
    Tame B [] (shadow x).forest :=
  hx.knows.aim _ (h.walks.aim.trans h.aim) hl

/-- A round works with the places at its start. -/
lemma begin (h : Trimming Γ Δ B stack prep) (hx : C.At live t Δ P x) :
    C.At live t (Δ.aimed (some (Tame B (framed (shadow x).forest stack)))) P x ∧
      Tamed (Δ.aimed (some (Tame B (framed (shadow x).forest stack)))) := by
  refine ⟨⟨hx.knows.aimed fun A hA hl => ?_, hx.client⟩, fun A hA => ?_⟩
  · obtain rfl : _ = A := by simpa using hA
    refine ⟨(h.tame hx hl).paths, fun n o hn => ?_⟩
    obtain ⟨f, -, hf⟩ := List.mem_map.mp hn
    obtain ⟨rfl, rfl⟩ : f.node = n ∧ _ = o := by simpa using hf
    exact .inr rfl
  · obtain rfl : _ = A := by simpa [Know.aimed] using hA
    refine ⟨B, _, rfl, fun i hi => ?_⟩
    obtain ⟨f, hf, rfl⟩ := List.mem_map.mp hi
    exact (h.frames f hf).2

/-- After a round, the places at its start may be forgotten. -/
lemma finish (h : Trimming Γ Δ B stack prep) (hw : (Δ.aimed (some (Tame B L))).Walks Δ')
    (hpool : PoolOk Δ' prep')
    (hframes : ∀ f, f ∈ stack' → ParentKnown Δ' f.parent ∧ Δ'.known f.node)
    (hy : C.At live t Δ' P y) :
    Trimming Γ (Δ'.aimed (some (Tame B []))) B stack' prep' ∧
      C.At live t (Δ'.aimed (some (Tame B []))) P y ∧
      (live = true → Tame B L (shadow y).forest) := by
  have hT : live = true → Tame B L (shadow y).forest := hy.knows.aim _ hw.aim
  refine ⟨⟨⟨hw.lo.trans h.walks.lo, hw.held.trans h.walks.held, hw.follow.trans h.walks.follow,
    hw.clear.trans h.walks.clear, hw.due.trans h.walks.due,
    fun n hn => hw.known n (h.walks.known n hn), h.aim.symm⟩, h.aim, hpool.congr rfl, ?_⟩,
    ⟨hy.knows.aimed fun A hA hl => ?_, hy.client⟩, hT⟩
  · intro f hf
    obtain ⟨h1, h2⟩ := hframes f hf
    exact ⟨h1.mono fun _ => id, h2⟩
  · obtain rfl : _ = A := by simpa using hA
    exact (hT hl).mono (by simp)

end Trimming

/-- The loop of `shrink_to_fit`. -/
lemma wp_fitWalk (hh : ∀ l, Γ.held l = none) (hc : Γ.clear = none) {stack : List FitFrame}
    {prep : Pool} (hfit : Trimming Γ Δ B stack prep) (hx : C.At live t Δ P x) :
    C.rg.wp live t (Prog.iter (fun s : List FitFrame × Pool => do
      match s with
      | ([], prep) => return .inr prep
      | (f :: stack, prep) =>
        if f.expanded then
          match ← fit f.parent f.node attempts prep with
          | (true, prep) => return .inl (stack, prep)
          | (false, prep) => return .inr prep
        else
          match ← innerChildren f.node attempts with
          | none => return .inl (stack, prep)
          | some (v, cs) =>
            return .inl
              (cs.map (fun (b, c) => ⟨.node f.node v b, c, false⟩) ++
                { f with expanded := true } :: stack, prep))
      (stack, prep)) (fun prep' y => FitEnds C live t Γ P prep' y) x := by
  refine RG.wp_iter (fun s y => ∃ Δ, Trimming Γ Δ B s.1 s.2 ∧ C.At live t Δ P y)
    (fun s y => weights B (shadow y).forest s.1) ?_ ⟨Δ, hfit, hx⟩
  rintro ⟨_ | ⟨f, stack⟩, prep⟩ y ⟨Δ, hfit, hy⟩
  · exact RG.wp_ret ⟨Δ, hfit.walks, hfit.pool, hy⟩
  obtain ⟨hbegin, htamed⟩ := hfit.begin hy
  have hheld : ∀ l, Δ.held l = none := fun l => (congrFun hfit.walks.held l).trans (hh l)
  obtain ⟨hpar, hn⟩ := hfit.frames f (by simp)
  have hrest : ∀ Δ', (Δ.aimed (some (Tame B (framed (shadow y).forest (f :: stack))))).Walks Δ' →
      ∀ f', f' ∈ stack → ParentKnown Δ' f'.parent ∧ Δ'.known f'.node := by
    intro Δ' hw f' hf'
    obtain ⟨h1, h2⟩ := hfit.frames f' (by simp [hf'])
    exact ⟨h1.mono hw.known, hw.known _ h2⟩
  have hpop : ∀ z : C.W, live = true →
      Tame B (framed (shadow y).forest (f :: stack)) (shadow z).forest →
      weights B (shadow z).forest stack < weights B (shadow y).forest (f :: stack) := by
    intro z hl hT
    have h1 : weights B (shadow z).forest stack ≤ weights B (shadow y).forest stack :=
      weights_le (hfit.tame hy hl) hT fun i hi => List.mem_cons_of_mem _ hi
    have h2 := weight_pos (hfit.tame hy hl) f
    simp only [weights, List.map_cons, List.sum_cons] at h1 ⊢
    omega
  by_cases hexp : f.expanded
  · show C.rg.wp live t (if f.expanded = true then _ else _) _ y
    simp only [hexp, if_true]
    refine RG.wp_seq (wp_fit
      (Γ := Δ.aimed (some (Tame B (framed (shadow y).forest (f :: stack))))) attempts hheld
      (hfit.walks.clear.trans hc) htamed (hpar.mono fun _ => id) hn (hfit.pool.congr rfl)
      hbegin) ?_
    rintro ⟨_ | _, prep'⟩ z - ⟨Δ', hw, hpool, hz⟩
    · obtain ⟨h1, h2, -⟩ := hfit.finish hw hpool (hrest Δ' hw) hz
      exact RG.wp_ret ⟨_, h1.walks, h1.pool, h2⟩
    · obtain ⟨h1, h2, h3⟩ := hfit.finish hw hpool (hrest Δ' hw) hz
      exact RG.wp_ret ⟨⟨_, h1, h2⟩, fun hl => hpop z hl (h3 hl)⟩
  · show C.rg.wp live t (if f.expanded = true then _ else _) _ y
    simp only [hexp]
    refine RG.wp_seq (wp_innerChildren
      (Γ := Δ.aimed (some (Tame B (framed (shadow y).forest (f :: stack))))) attempts hn hbegin) ?_
    rintro (_ | ⟨v, cs⟩) z - ⟨Δ', hw, hpriv, hz, hcs⟩
    · obtain ⟨h1, h2, h3⟩ := hfit.finish hw (hfit.pool.congr hpriv) (hrest Δ' hw) hz
      exact RG.wp_ret ⟨⟨_, h1, h2⟩, fun hl => hpop z hl (h3 hl)⟩
    · obtain ⟨hnd, hknown, hat⟩ := hcs v cs rfl
      have hframes : ∀ f', f' ∈ cs.map (fun (b, c) => (⟨.node f.node v b, c, false⟩ : FitFrame)) ++
          { f with expanded := true } :: stack → ParentKnown Δ' f'.parent ∧ Δ'.known f'.node := by
        intro f' hf'
        rcases List.mem_append.mp hf' with hf' | hf'
        · obtain ⟨⟨b, c⟩, hbc, rfl⟩ := List.mem_map.mp hf'
          exact ⟨hw.known _ hn, hknown b c hbc⟩
        · rcases List.mem_cons.mp hf' with rfl | hf'
          · exact ⟨hpar.mono hw.known, hw.known _ hn⟩
          · exact hrest Δ' hw f' hf'
      obtain ⟨h1, h2, h3⟩ := hfit.finish hw (hfit.pool.congr hpriv) hframes hz
      refine RG.wp_ret ⟨⟨_, h1, h2⟩, fun hl => ?_⟩
      exact weights_expand (hfit.tame hy hl) (h3 hl) (by simpa using hexp) (fun _ hi => hi) hnd
        (hat hl)

/-- **Fitting** changes no map.  The client may take a step as the root is loaded. -/
theorem wp_shrinkToFit {R : C.Assertion t}
    (hcan : ∀ x, C.Inv x → P x → Upd t x x.leafs x.view R) (hh : ∀ l, Γ.held l = none)
    (hc : Γ.clear = none) (hp : ∀ n, Γ.priv n = none) (hx : C.At live t Γ P x) :
    C.rg.wp live t shrinkToFit (fun _ y => ∃ Δ, Γ.Idle Δ ∧ C.At live t Δ R y) x := by
  refine RG.wp_intro fun hok => RG.wp_seq
    (wp_load (R := R) hx rfl fun hi => hcan (scene x) hi hx.client) ?_
  rintro (r : Slot) y hoky ⟨hr, hy, hlater⟩
  cases r with
  | null => exact RG.wp_ret ⟨Γ, .rfl, hy⟩
  | leaf l => exact RG.wp_ret ⟨Γ, .rfl, hy⟩
  | node root =>
    have hi := ok_tree hok
    have hpub : (shadow y).pub root := by
      refine hlater.rely.pub_mono root (hi.pub_placed ?_)
      rw [hi.wf.place_of_slot (ℓ := .root (shadow x).cur) (e := (shadow x).cur) (p := [])
        ⟨rfl, rfl⟩ (hi.root.symm.trans hr.symm)]
      simp
    -- Every path of the forest at the start.
    let B : Finset (ℕ × List Byte) :=
      (Finset.range (tree y).next).biUnion fun n => ((shadow y).forest.place n).toFinset
    have hB : Tame B [] (shadow y).forest := by
      refine ⟨fun n a ha => ?_, by simp⟩
      have hiy := ok_tree hoky
      have hlt := hiy.pub_lt (hiy.pub_placed (n := n) (by simp [ha]))
      exact Finset.mem_biUnion.mpr ⟨n, by simpa using hlt, by simp [ha]⟩
    have hy' : C.At live t ((Γ.learn root).aimed (some (Tame B []))) R y := by
      refine ⟨(hy.knows.learn hpub).aimed fun A hA _ => ?_, hy.client⟩
      obtain rfl : _ = A := by simpa using hA
      exact hB
    refine RG.wp_seq (wp_fitWalk (Γ := (Γ.learn root).aimed (some (Tame B []))) hh hc
      ⟨.rfl, rfl, ⟨by simp, fun n => by simp [Know.aimed, Know.learn, hp n]⟩, ?_⟩ hy') ?_
    · intro f hf
      obtain rfl := List.mem_singleton.mp hf
      exact ⟨trivial, .inl rfl⟩
    rintro prep z - ⟨Δ, hw, hpool, hz⟩
    refine RG.wp_mono (wp_poolRelease hz (hw.clear.trans hc) hpool) fun _ u _ hu => ?_
    exact ⟨{ Δ with priv := fun _ => none },
      ⟨hw.lo, hw.held, (funext hp).symm, hw.follow, hw.clear, hw.due⟩, hu⟩

end Walk

end Client

end Artmap
