import Artmap.Forest.Chain
import Artmap.Tree.Nodes

/-!
# Going down

All descents move from a node to its child in the same way: read the version of the child, and
then check that the parent has not changed since the child was read from it (at the root, that
the root still is the child).  If so, there was a moment at which the child had that version
and was below its parent, so the version fixes its place and its content
(`wp_stillParent`).
-/

namespace Artmap

open scoped List

namespace Know

/-- A descent changes what has been seen, and nothing else. -/
structure Scan (Γ Δ : Know) : Prop where
  lo : Δ.lo = Γ.lo
  held : Δ.held = Γ.held
  grasp : Δ.grasp = Γ.grasp
  priv : Δ.priv = Γ.priv
  follow : Δ.follow = Γ.follow
  clear : Δ.clear = Γ.clear
  due : Δ.due = Γ.due
  base : Δ.base = Γ.base
  pub : ∀ n, Γ.Pub n → Δ.Pub n

namespace Scan

variable {Γ Δ Δ' : Know} {n : NodeId} {s : Sight} {r : Slot} {e : ℕ}

lemma rfl : Γ.Scan Γ := ⟨Eq.refl _, Eq.refl _, Eq.refl _, Eq.refl _, Eq.refl _, Eq.refl _,
  Eq.refl _, Eq.refl _, fun _ h => h⟩

lemma see (h : Γ.Scan Δ) : Γ.Scan (Δ.see n s) where
  lo := h.lo
  held := h.held
  grasp := h.grasp
  priv := h.priv
  follow := h.follow
  clear := h.clear
  due := h.due
  base := h.base
  pub n' hn := by
    refine (h.pub n' hn).imp id fun h' => ?_
    by_cases hnn : n' = n
    · subst hnn
      simp [Know.see]
    · simpa [Know.see, hnn] using h'

lemma seeTop (h : Γ.Scan Δ) : Γ.Scan (Δ.seeTop r e) :=
  ⟨h.lo, h.held, h.grasp, h.priv, h.follow, h.clear, h.due, h.base, h.pub⟩

end Scan

end Know

namespace Client

open Shadow (Knows Seen Grasped)

variable {C : Client} {live : Bool} {t : ℕ} {Γ Δ : Know} {P R : C.Assertion t} {x y : C.W}
  {c n : NodeId} {s : Sight} {v : ℕ} {φ ψ : Prop} {par : Parent} {path : List Byte}

/-- Node `c` was read from its parent, at the end of `path`; the parent vouches for that and
for `ψ`. -/
def Linked (live : Bool) (Γ : Know) (par : Parent) (c : NodeId) (path : List Byte) (ψ : Prop)
    (m : TreeMem) : Prop :=
  match par with
  | .root => path = [] ∧ ψ ∧ ∃ e, Γ.top = some (.node c, e)
  | .node p v b => ∃ s, Γ.seen p = some s ∧ s.v = v ∧ Γ.lo ≤ s.epoch ∧
      Promise live p v (path = s.path ++ s.cont.pre ++ [b] ∧ s.cont.child b = .node c ∧ ψ) m

/-- Node `c`, seen as `s`, was below its parent. -/
def Coupled (live : Bool) (Γ : Know) (par : Parent) (c : NodeId) (s : Sight) : Prop :=
  match par with
  | .root => s.path = [] ∧ (live = true → Γ.top = some (.node c, s.epoch))
  | .node p v b => p ≠ c ∧ ∃ sp, Γ.seen p = some sp ∧ sp.v = v ∧ sp.epoch = s.epoch ∧
      s.path = sp.path ++ sp.cont.pre ++ [b] ∧ sp.cont.child b = .node c

lemma Linked.later {m : TreeMem} {S : Shadow} (h : Linked live Γ par c path ψ m)
    (hy : Later live t m S y) : Linked live Γ par c path ψ (tree y) := by
  cases par with
  | root => exact h
  | node p v b =>
    obtain ⟨s, h1, h2, h3, h4⟩ := h
    exact ⟨s, h1, h2, h3, h4.later hy⟩

/-- Alone, all that has been seen is in the current tree. -/
lemma epoch_of_live (hx : C.At live t Γ P x) (hok : C.rg.Ok live t x) (hl : live = true)
    (hc : Γ.clear = none) (hs : Γ.seen n = some s) : s.epoch = (shadow x).cur := by
  have hi := ok_tree hok
  have hseen := hx.knows.seen n s hs
  have hw := hseen.alone hl
  obtain ⟨-, hp⟩ := hseen.right hw
  have hle := hi.place_le hp
  by_contra hne
  have hnone : (shadow x).clearer s.epoch = none := by
    cases hcl : (shadow x).clearer s.epoch with
    | none => rfl
    | some t' =>
      rw [ok_clearer hok hl hcl] at hcl
      have := (hx.knows.clear _).mp hcl
      simp [hc] at this
  have hobs := hi.cleared (lt_of_le_of_ne hle hne) hnone hp
  rw [hw] at hobs
  have := hseen.free
  unfold Free at this
  unfold Obsolete at hobs
  omega

/-- Where a linked node is, if its parent has not changed. -/
lemma place_of_seen (hx : C.At live t Γ P x) (hok : C.rg.Ok live t x)
    (hs : Γ.seen n = some s) (hw : (tree x).latch (.node n) = s.v) {b : Byte}
    (hb : s.cont.child b = .node c) :
    (shadow x).forest.place c = some (s.epoch, s.path ++ s.cont.pre ++ [b]) := by
  have hi := ok_tree hok
  obtain ⟨h1, h2⟩ := (hx.knows.seen n s hs).right hw
  have hat := Forest.at_child (F := (shadow x).forest) h2 b
  rw [Forest.pre, h1] at hat
  refine hi.wf.place_of_slot hat ?_
  show ((shadow x).forest.cont n).child b = _
  rw [h1, hb]

/-- Alone, a linked node is free. -/
lemma free_of_linked (hx : C.At live t Γ P x) (hok : C.rg.Ok live t x) (hl : live = true)
    (hc : Γ.clear = none) (hh : Γ.held (.node c) = none)
    (hlink : Linked live Γ par c path ψ (tree x)) : Free ((tree x).latch (.node c)) := by
  have hi := ok_tree hok
  have hplace : ∃ p, (shadow x).forest.place c = some ((shadow x).cur, p) := by
    cases par with
    | root =>
      obtain ⟨-, -, e, htop⟩ := hlink
      obtain ⟨hr, -⟩ := hx.knows.top _ _ htop (.inl hl)
      rw [hi.root] at hr
      exact ⟨[], hi.wf.place_of_slot (Forest.at_root _) hr⟩
    | node p v b =>
      obtain ⟨s, hs, rfl, -, hpr⟩ := hlink
      have := place_of_seen hx hok hs (hpr.alone hl) (hpr.of_live hl).2.1
      rw [epoch_of_live hx hok hl hc hs] at this
      exact ⟨_, this⟩
  obtain ⟨p, hp⟩ := hplace
  exact live_free hx hok hl hh fun hobs => lt_irrefl _ (hi.obsolete_past hobs hp)

/-- Reading the version of a linked node. -/
lemma wp_readVersion_linked (hx : C.At live t Γ P x) (hc : Γ.clear = none)
    (hh : Γ.held (.node c) = none) (hlink : Linked live Γ par c path ψ (tree x)) :
    C.rg.wp live t (readVersion (.node c)) (fun r y => C.At live t Γ P y ∧
      Linked live Γ par c path ψ (tree y) ∧ (r = none → live = false) ∧
      ∀ v, r = some v → Free v ∧ Promise live c v True (tree y)) x := by
  refine RG.wp_intro fun hok => RG.wp_mono (wp_readVersion hx (.node c)) ?_
  rintro r y - ⟨h1, h2, hy, hlater⟩
  refine ⟨hy, hlink.later hlater, fun hr => ?_, fun v hv => ?_⟩
  · cases live with
    | false => rfl
    | true => exact absurd (free_of_linked hx hok rfl hc hh hlink) (h2 hr)
  · obtain ⟨h3, rfl⟩ := h1 v hv
    exact ⟨h3, Promise.later ⟨le_rfl, fun _ => rfl, fun _ => trivial⟩ hlater⟩

/-- What a check of the parent tells about a node, at the moment of the check. -/
lemma exists_sight (hok : C.rg.Ok live t x) {e : ℕ} (hv : Free v)
    (hpr : Promise live c v True (tree x)) (hp : (shadow x).forest.place c = some (e, path)) :
    ∃ s : Sight, s.v = v ∧ s.path = path ∧ s.epoch = e ∧
      Seen live (tree x) (shadow x) c s :=
  ⟨⟨v, (tree x).ty c, (shadow x).forest.cont c, e, path⟩, rfl, rfl, rfl,
    (ok_tree hok).pub_placed (by simp [hp]), rfl, hv, hpr.le, hpr.alone, fun _ => ⟨rfl, hp⟩⟩

/-- The check of the parent. -/
lemma wp_stillParent (hx : C.At live t Γ P x) (hlink : Linked live Γ par c path ψ (tree x))
    (hv : Free v) (hpr : Promise live c v True (tree x)) :
    C.rg.wp live t (stillParent par (.node c)) (fun r y =>
      (r = false → live = false ∧ C.At live t Γ P y) ∧
      (r = true → ψ ∧ ∃ s, s.v = v ∧ s.path = path ∧ Γ.lo ≤ s.epoch ∧ Coupled live Γ par c s ∧
        C.At live t (Γ.see c s) P y ∧ Promise live c v True (tree y))) x := by
  refine RG.wp_intro fun hok => ?_
  have hi := ok_tree hok
  cases par with
  | root =>
    obtain ⟨rfl, hψ, e, htop⟩ := hlink
    refine RG.wp_seq (wp_loadRoot hx) ?_
    rintro (r : Slot) y - ⟨hr, hy, hlater⟩
    refine RG.wp_ret ⟨fun h => ⟨?_, hy⟩, fun h => ?_⟩
    · cases live with
      | false => rfl
      | true =>
        have := (hx.knows.top _ _ htop (.inl rfl)).1
        exact absurd (hr.trans this) (of_decide_eq_false h)
    · have hroot : (tree x).root = .node c := hr ▸ of_decide_eq_true h
      have hp : (shadow x).forest.place c = some ((shadow x).cur, []) :=
        hi.wf.place_of_slot (Forest.at_root _) (hi.root.symm.trans hroot)
      obtain ⟨s, h1, h2, h3, hs⟩ := exists_sight hok hv hpr hp
      refine ⟨hψ, s, h1, h2, ?_, ⟨h2, fun hl => ?_⟩,
        .later (hx.knows.see hs) hi hlater hy.client, hpr.later hlater⟩
      · rw [h3]
        exact hx.knows.lo
      · rw [h3, htop, (hx.knows.top _ _ htop (.inl hl)).2]
  | node p pv b =>
    obtain ⟨sp, hsp, rfl, hlo, hpp⟩ := hlink
    refine RG.wp_seq (wp_loadLatch hx (.node p)) ?_
    rintro (w : ℕ) y - ⟨hw, hy, hlater⟩
    refine RG.wp_ret ⟨fun h => ⟨?_, hy⟩, fun h => ?_⟩
    · cases live with
      | false => rfl
      | true => exact absurd (hw.trans (hpp.alone rfl)) (of_decide_eq_false h)
    · have hlatch : (tree x).latch (.node p) = sp.v := hw ▸ of_decide_eq_true h
      obtain ⟨rfl, hchild, hψ⟩ := hpp.right hlatch
      have hp := place_of_seen hx hok hsp hlatch hchild
      have hne : p ≠ c := by
        rintro rfl
        rw [((hx.knows.seen p sp hsp).right hlatch).2] at hp
        simp only [Option.some.injEq, Prod.mk.injEq, true_and] at hp
        have := congrArg List.length hp
        simp at this
      obtain ⟨s, h1, h2, h3, hs⟩ := exists_sight hok hv hpr hp
      refine ⟨hψ, s, h1, h2, by rw [h3]; exact hlo, ⟨hne, sp, hsp, rfl, h3.symm, h2, hchild⟩,
        .later (hx.knows.see hs) hi hlater hy.client, hpr.later hlater⟩

lemma Coupled.see (h : Coupled live Γ par c s) : Coupled live (Γ.see c s) par c s := by
  cases par with
  | root => exact h
  | node p v b =>
    obtain ⟨h1, sp, h2, h3⟩ := h
    exact ⟨h1, sp, by simpa [Know.see, h1] using h2, h3⟩

/-! ## Reading along the way -/

section Reads

variable {α : Type} {key : Key}

lemma wp_onNode_spec {p : NodeM α} (hp : p.ReadOnly) {R : α → Prop}
    (hR : ∀ F a, Repr s.ty F s.cont → p.run F = some (a, F) → R a) (hs : Γ.seen n = some s)
    (hx : C.At live t Γ P x) (hφ : Promise live n s.v φ (tree x)) :
    C.rg.wp live t (onNode n p) (fun a y => C.At live t Γ P y ∧
      Promise live n s.v (φ ∧ R a) (tree y)) x := by
  refine RG.wp_mono (wp_onNode_seen hp.yields hs hx hφ) ?_
  rintro a y - ⟨hy, -, hφy⟩
  refine ⟨hy, hφy.mono ?_⟩
  rintro ⟨h1, F, h2, h3⟩
  exact ⟨h1, hR F a h2 h3⟩

lemma wp_typed_spec {p : NodeType → NodeM α} (hp : ∀ ty, (p ty).ReadOnly) {R : α → Prop}
    (hR : ∀ F a, Repr s.ty F s.cont → (p s.ty).run F = some (a, F) → R a)
    (hs : Γ.seen n = some s) (hx : C.At live t Γ P x) (hφ : Promise live n s.v φ (tree x)) :
    C.rg.wp live t (typed n p) (fun a y => C.At live t Γ P y ∧
      Promise live n s.v (φ ∧ R a) (tree y)) x := by
  refine RG.wp_mono (wp_typed_seen hp hs hx hφ) ?_
  rintro a y - ⟨hy, hφy⟩
  refine ⟨hy, hφy.mono ?_⟩
  rintro ⟨h1, F, h2, h3⟩
  exact ⟨h1, hR F a h2 h3⟩

lemma wp_loadPrefix (hs : Γ.seen n = some s) (hx : C.At live t Γ P x)
    (hφ : Promise live n s.v φ (tree x)) :
    C.rg.wp live t (onNode n loadPrefix) (fun pre y => C.At live t Γ P y ∧
      pre.len ≤ maxPrefixLen ∧ Promise live n s.v (φ ∧ pre.Of s.cont.pre) (tree y)) x := by
  refine RG.wp_mono (wp_onNode_seen yields_loadPrefix hs hx hφ) ?_
  rintro a y - ⟨hy, hlen, hφy⟩
  refine ⟨hy, hlen, hφy.mono ?_⟩
  rintro ⟨hφ', F, hF, hrun⟩
  obtain ⟨p, h1, h2⟩ := hF.run_loadPrefix
  rw [h1] at hrun
  simp only [Option.some.injEq, Prod.mk.injEq, and_true] at hrun
  exact ⟨hφ', hrun ▸ h2⟩

lemma wp_exactLeaf (hs : Γ.seen n = some s) (hx : C.At live t Γ P x)
    (hφ : Promise live n s.v φ (tree x)) :
    C.rg.wp live t (onNode n exactLeaf) (fun r y => C.At live t Γ P y ∧
      Promise live n s.v (φ ∧ r = Slot.ofOption s.cont.exact) (tree y)) x := by
  refine wp_onNode_spec readOnly_exactLeaf (fun F a hF hrun => ?_) hs hx hφ
  rw [hF.run_exactLeaf] at hrun
  simp only [Option.some.injEq, Prod.mk.injEq, and_true] at hrun
  exact hrun.symm

lemma wp_findChild (b : Byte) (hs : Γ.seen n = some s) (hx : C.At live t Γ P x)
    (hφ : Promise live n s.v φ (tree x)) :
    C.rg.wp live t (typed n (findChild · b)) (fun r y => C.At live t Γ P y ∧
      Promise live n s.v (φ ∧ r = s.cont.child b) (tree y)) x := by
  refine wp_typed_spec (fun _ => readOnly_findChild) (fun F a hF hrun => ?_) hs hx hφ
  rw [hF.run_findChild] at hrun
  simp only [Option.some.injEq, Prod.mk.injEq, and_true] at hrun
  exact hrun.symm

/-- The slot below the prefix. -/
lemma wp_slotFor {d : ℕ} (hd : d ≤ key.length) (hs : Γ.seen n = some s)
    (hx : C.At live t Γ P x) (hφ : Promise live n s.v φ (tree x)) :
    C.rg.wp live t (slotFor n key d) (fun r y => C.At live t Γ P y ∧
      Promise live n s.v (φ ∧ r = s.cont.slotAt (key.drop d)) (tree y)) x := by
  unfold slotFor
  split
  · rename_i h
    subst h
    rw [List.drop_length]
    exact wp_exactLeaf hs hx hφ
  · rename_i h
    have hlt : d < key.length := by omega
    rw [List.getElem?_eq_getElem hlt, List.drop_eq_getElem_cons hlt]
    exact wp_findChild _ hs hx hφ

end Reads

/-! ## What a node that was seen says about the map -/

section Reads

variable {key : Key} {d : ℕ}

lemma epoch_le_of_seen (hx : C.At live t Γ P x) (hok : C.rg.Ok live t x)
    (hs : Γ.seen n = some s) (hw : (tree x).latch (.node n) = s.v) :
    s.epoch ≤ (scene x).view.cur :=
  (ok_tree hok).place_le ((hx.knows.seen n s hs).right hw).2

/-- A key that leaves the prefix is absent. -/
lemma map_off_of_seen (hx : C.At live t Γ P x) (hok : C.rg.Ok live t x)
    (hs : Γ.seen n = some s) (hw : (tree x).latch (.node n) = s.v)
    (hpath : s.path = key.take d) (hoff : ¬ s.cont.pre <+: key.drop d) :
    (scene x).view.map s.epoch key = none := by
  obtain ⟨h1, h2⟩ := (hx.knows.seen n s hs).right hw
  have hkey : key = s.path ++ key.drop d := by rw [hpath, List.take_append_drop]
  exact (ok_tree hok).wf.map_off h2 hkey (by rwa [Forest.pre, h1])

/-- The leaves of a node are those of keys below it. -/
def LeafKeys (s : Sight) : Prop :=
  (∀ l, s.cont.exact = some l → l.key = s.path ++ s.cont.pre) ∧
    ∀ b l, s.cont.child b = .leaf l → s.path ++ s.cont.pre ++ [b] <+: l.key

lemma Promise.leafKeys (hφ : Promise live n s.v φ (tree x)) (hx : C.At live t Γ P x)
    (hok : C.rg.Ok live t x) (hs : Γ.seen n = some s) :
    Promise live n s.v (φ ∧ LeafKeys s) (tree x) := by
  refine ⟨hφ.le, hφ.alone, fun hw => ⟨hφ.right hw, ?_⟩⟩
  obtain ⟨h1, h2⟩ := (hx.knows.seen n s hs).right hw
  have hwf := (ok_tree hok).wf
  constructor
  · intro l hl
    have := (hwf.node h2).exact
    rw [Forest.pre, h1, hl] at this
    exact hwf.key this
  · intro b l hl
    have hat := Forest.at_child h2 b
    have hslot : (shadow x).forest.slot (.child n b) = .leaf l := by
      show ((shadow x).forest.cont n).child b = _
      rw [h1, hl]
    have := (hwf.alone hat hslot).1
    rwa [Forest.pre, h1] at this

/-- A key along the prefix of a node. -/
lemma key_along (hpath : s.path = key.take d) (hpre : s.cont.pre <+: key.drop d) :
    key = s.path ++ s.cont.pre ++ key.drop (d + s.cont.pre.length) := by
  obtain ⟨rest, hrest⟩ := hpre
  have hdrop : key.drop (d + s.cont.pre.length) = rest := by
    rw [← List.drop_drop, ← hrest, List.drop_left]
  rw [hdrop, hpath, List.append_assoc, hrest, List.take_append_drop]

lemma take_along (hd : d ≤ key.length) (hpath : s.path = key.take d)
    (hpre : s.cont.pre <+: key.drop d) :
    s.path ++ s.cont.pre = key.take (d + s.cont.pre.length) ∧
      d + s.cont.pre.length ≤ key.length := by
  have hlen : (s.path ++ s.cont.pre).length = d + s.cont.pre.length := by
    rw [List.length_append, hpath, List.length_take, min_eq_left hd]
  constructor
  · conv_rhs => rw [key_along hpath hpre]
    rw [List.take_left' hlen]
  · have := hpre.length_le
    rw [List.length_drop] at this
    omega

/-- Along the prefix, the slot below it decides. -/
lemma map_slot_of_seen (hx : C.At live t Γ P x) (hok : C.rg.Ok live t x)
    (hs : Γ.seen n = some s) (hw : (tree x).latch (.node n) = s.v)
    (hpath : s.path = key.take d) (hpre : s.cont.pre <+: key.drop d)
    (hslot : ∀ c, s.cont.slotAt (key.drop (d + s.cont.pre.length)) ≠ .node c) :
    (scene x).view.map s.epoch key =
      (s.cont.slotAt (key.drop (d + s.cont.pre.length))).map key := by
  obtain ⟨h1, h2⟩ := (hx.knows.seen n s hs).right hw
  rw [← h1] at hslot ⊢
  refine (ok_tree hok).wf.map_node h2 ?_ hslot
  rw [Forest.pre, h1]
  exact key_along hpath hpre

/-- One byte further along the key. -/
lemma path_step {b : Byte} (hpath : s.path = key.take d) (hpre : s.cont.pre <+: key.drop d)
    (hb : key[d + s.cont.pre.length]? = some b) :
    key.take (d + s.cont.pre.length + 1) = s.path ++ s.cont.pre ++ [b] := by
  obtain ⟨hlt, rfl⟩ := List.getElem?_eq_some_iff.mp hb
  rw [List.take_succ_eq_append_getElem hlt, (take_along (by omega) hpath hpre).1]

lemma slotAt_node {c' : NodeId} {rest : List Byte} (h : s.cont.slotAt rest = .node c') :
    ∃ b, rest.head? = some b ∧ s.cont.child b = .node c' := by
  cases rest with
  | nil => cases hx : s.cont.exact <;> simp [Content.slotAt, hx, Slot.ofOption] at h
  | cons b rest => exact ⟨b, rfl, h⟩

end Reads

end Client

end Artmap
