import Artmap.Shadow.Location
import Artmap.Tree.Descent

/-!
# Guarded locations

A `ParentGuard` is the held latch of the location of a node: the root, or a child slot of its
parent.  `Guarded` is what the thread knows about that location, `wp_lockParent` how it gets
there, and `wp_guardStore` the rule for the store to the location, which commits.
-/

namespace Artmap

open scoped List

namespace ParentGuard

/-- The latch behind a guard. -/
def latch : ParentGuard → LatchId
  | .root _ => .root
  | .node p _ _ => .node p

/-- The version at which the latch was taken. -/
def version : ParentGuard → ℕ
  | .root v => v
  | .node _ v _ => v

/-- The node behind a guard. -/
def owner? : ParentGuard → Option NodeId
  | .root _ => none
  | .node p _ _ => some p

/-- The guard is that of the location that `par` describes. -/
def For : ParentGuard → Parent → Prop
  | .root _, .root => True
  | .node p _ b, .node p' _ b' => p = p' ∧ b = b'
  | _, _ => False

/-- The guarded location, in epoch `e`. -/
def loc (e : ℕ) : ParentGuard → Loc
  | .root _ => .root e
  | .node p _ b => .child p b

/-- The memory after a store to the location. -/
def mem (s : Slot) (F : Fields) (m : TreeMem) : ParentGuard → TreeMem
  | .root _ => { m with root := s }
  | .node p _ _ => Shadow.setFields m p F

/-- The knowledge after a store to the location. -/
def store (Γ : Know) (s : Slot) (F : Fields) : ParentGuard → Know
  | .root _ => { Γ with top := Γ.top.map fun r => (s, r.2), base := none }
  | .node p _ b =>
    { Γ with
      grasp := Function.update Γ.grasp p
        ((Γ.grasp p).map fun g => { g with fields := F, cont := g.cont.setChild b s })
      base := none }

/-- The fields that a store of `s` makes stand for the changed node. -/
def Fits (Γ : Know) (s : Slot) (F : Fields) : ParentGuard → Prop
  | .root _ => True
  | .node p _ b => ∀ g, Γ.grasp p = some g → Repr g.ty F (g.cont.setChild b s)

/-- The cells show the changed node, from the store of `s` on. -/
def Shown (Γ : Know) (s : Slot) (F : Fields) : ParentGuard → Prop
  | .root _ => True
  | .node p _ b => ∀ g, Γ.grasp p = some g → Shows F (g.cont.setChild b s)

/-- The program `w` stores `s` to the location. -/
def Stores (Γ : Know) (s : Slot) (w : TreeM Unit) : ParentGuard → Prop
  | .root _ => w = onTree (.storeRoot s)
  | .node p _ b => ∃ q : NodeType → NodeM Unit, w = typed p q ∧
      ∀ g, Γ.grasp p = some g →
        (∃ F, (q g.ty).run g.fields = some ((), F) ∧ Repr g.ty F (g.cont.setChild b s)) ∧
        (q g.ty).Turns (Shows · g.cont) (Shows · (g.cont.setChild b s)) g.fields

end ParentGuard

namespace Client

open Shadow (Knows Seen Grasped)

variable {C : Client} {live : Bool} {t : ℕ} {Γ Δ : Know} {P R : C.Assertion t} {x y : C.W}
  {c n : NodeId} {s : Sight} {r r' : Slot} {v e : ℕ} {par : Parent} {pg : ParentGuard}
  {path : List Byte}

/-- The guarded location, at the end of `path` in epoch `e`, holds `r`. -/
def Guarded (Γ : Know) (pg : ParentGuard) (r : Slot) (e : ℕ) (path : List Byte) : Prop :=
  match pg with
  | .root v => Γ.held .root = some v ∧ Γ.top = some (r, e) ∧ path = []
  | .node p v b => Γ.held (.node p) = some v ∧ ∃ g q, Γ.grasp p = some g ∧
      g.place = some (e, q) ∧ Repr g.ty g.fields g.cont ∧ g.cont.child b = r ∧
      path = q ++ g.cont.pre ++ [b]

/-- What thread `t` knows in the middle of a program on the node `pn`. -/
structure Ready (live : Bool) (t : ℕ) (Γ : Know) (pn : Option NodeId) (m : TreeMem)
    (S : Shadow) : Prop where
  knows : Knows live t { Γ with grasp := fun _ => none, base := none } m S
  owner : ∀ n g, Γ.grasp n = some g → S.owner (.node n) = some t
  ty : ∀ n g, Γ.grasp n = some g → m.ty n = g.ty
  cont : ∀ n g, Γ.grasp n = some g → S.forest.cont n = g.cont
  place : ∀ n g, Γ.grasp n = some g → S.forest.place n = g.place
  fields : ∀ n g, Γ.grasp n = some g → pn ≠ some n → m.fields n = g.fields

lemma knows_forget {m : TreeMem} {S : Shadow} (h : Knows live t Γ m S) :
    Knows live t { Γ with grasp := fun _ => none, base := none } m S :=
  ⟨h.lo, h.known, h.seen, h.top, h.held, h.owns, by simp, h.priv, h.privs, h.follow, h.clear,
    h.due, by simp, h.aim⟩

lemma ready_of_knows {m : TreeMem} {S : Shadow} (h : Knows live t Γ m S) (pn : Option NodeId) :
    Ready live t Γ pn m S where
  knows := knows_forget h
  owner n g hg := (h.grasp n g hg).owner
  ty n g hg := (h.grasp n g hg).ty
  cont n g hg := (h.grasp n g hg).cont
  place n g hg := (h.grasp n g hg).place
  fields n g hg _ := (h.grasp n g hg).fields

lemma ready_of_write {m : TreeMem} {S : Shadow} {g : Grasp} {F : Fields}
    (hg : Γ.grasp n = some g) (h : Knows live t (Γ.write n g F) m S) :
    Ready live t Γ (some n) m S := by
  have hn := h.grasp n _ Know.write_grasp
  have hne : ∀ {n' g'}, n' ≠ n → Γ.grasp n' = some g' → Grasped t m S n' g' :=
    fun hnn hg' => h.grasp _ _ (by simpa [Know.write, hnn] using hg')
  have key : ∀ n' g', Γ.grasp n' = some g' → S.owner (.node n') = some t ∧ m.ty n' = g'.ty ∧
      S.forest.cont n' = g'.cont ∧ S.forest.place n' = g'.place ∧
        (n' ≠ n → m.fields n' = g'.fields) := by
    intro n' g' hg'
    by_cases hnn : n' = n
    · subst hnn
      obtain rfl : g = g' := by simpa [hg] using hg'
      exact ⟨hn.owner, hn.ty, hn.cont, hn.place, fun h => absurd rfl h⟩
    · have h' := hne hnn hg'
      exact ⟨h'.owner, h'.ty, h'.cont, h'.place, fun _ => h'.fields⟩
  exact
    { knows := (knows_forget h : Knows live t
        { Γ.write n g F with grasp := fun _ => none, base := none } m S)
      owner := fun n' g' hg' => (key n' g' hg').1
      ty := fun n' g' hg' => (key n' g' hg').2.1
      cont := fun n' g' hg' => (key n' g' hg').2.2.1
      place := fun n' g' hg' => (key n' g' hg').2.2.2.1
      fields := fun n' g' hg' hn' => (key n' g' hg').2.2.2.2 fun h => hn' (by rw [h]) }

/-- What a guard says about the forest. -/
lemma Guarded.loc (hg : Guarded Γ pg r e path) {m : TreeMem} {S : Shadow} {pn : Option NodeId}
    (h : Ready live t Γ pn m S) (hi : S.Inv m) :
    S.HoldsLoc t (pg.loc e) ∧ S.forest.At (pg.loc e) e path ∧ S.forest.slot (pg.loc e) = r := by
  cases pg with
  | root v =>
    obtain ⟨h1, h2, rfl⟩ := hg
    obtain ⟨h3, h4⟩ := h.knows.top r e h2 (.inr (by simp [h1]))
    refine ⟨⟨(h.knows.held _ v h1).2.1, h4.symm⟩, Forest.at_root e, ?_⟩
    show S.forest.root e = r
    rw [← h4, ← hi.root, h3]
  | node p v b =>
    obtain ⟨h1, g, q, h2, h3, -, h5, rfl⟩ := hg
    refine ⟨h.owner p g h2, ⟨q, (h.place p g h2).trans h3, ?_⟩, ?_⟩
    · rw [Forest.pre, h.cont p g h2]
    · show (S.forest.cont p).child b = r
      rw [h.cont p g h2, h5]

lemma Guarded.held (hg : Guarded Γ pg r e path) : Γ.held pg.latch = some pg.version := by
  cases pg with
  | root v => exact hg.1
  | node p v b => exact hg.1

lemma Guarded.store (hg : Guarded Γ pg r e path) {F : Fields} (hF : pg.Fits Γ r' F) :
    Guarded (pg.store Γ r' F) pg r' e path := by
  cases pg with
  | root v =>
    obtain ⟨h1, h2, h3⟩ := hg
    exact ⟨h1, by simp [ParentGuard.store, h2], h3⟩
  | node p v b =>
    obtain ⟨h1, g, q, h2, h3, h4, h5, h6⟩ := hg
    refine ⟨h1, { g with fields := F, cont := g.cont.setChild b r' }, q, ?_, h3, hF g h2, ?_, h6⟩
    · simp [ParentGuard.store, h2]
    · simp

/-- A guard does not depend on other nodes. -/
lemma Guarded.congr (hg : Guarded Γ pg r e path) (hh : Δ.held pg.latch = Γ.held pg.latch)
    (ht : pg.owner? = none → Δ.top = Γ.top)
    (hk : ∀ p, pg.owner? = some p → Δ.grasp p = Γ.grasp p) : Guarded Δ pg r e path := by
  cases pg with
  | root v =>
    obtain ⟨h1, h2, h3⟩ := hg
    exact ⟨hh.trans h1, (ht rfl).trans h2, h3⟩
  | node p v b =>
    obtain ⟨h1, g, q, h2, h3⟩ := hg
    exact ⟨hh.trans h1, g, q, (hk p rfl).trans h2, h3⟩

/-! ## The store to the location -/

lemma stores_publish (hr : r ≠ .null) (hr' : r' ≠ .null)
    (hg : Guarded Γ pg r e path) : pg.Stores Γ r' (publishInParent pg r') := by
  cases pg with
  | root v => rfl
  | node p v b =>
    obtain ⟨-, g, q, h2, -, h4, h5, -⟩ := hg
    refine ⟨fun ty => replaceChild ty b r', rfl, fun g' hg' => ?_⟩
    obtain rfl : g = g' := by simpa [h2] using hg'
    have hb : g.cont.child b ≠ .null := by rwa [h5]
    exact ⟨h4.replaceChild hb hr', h4.replaceChild_turns hb⟩

lemma stores_unlink (hr : r ≠ .null) (hg : Guarded Γ pg r e path) :
    pg.Stores Γ .null (unlinkInParent pg) := by
  cases pg with
  | root v => rfl
  | node p v b =>
    obtain ⟨-, g, q, h2, -, h4, h5, -⟩ := hg
    refine ⟨fun ty => removeChild ty b, rfl, fun g' hg' => ?_⟩
    obtain rfl : g = g' := by simpa [h2] using hg'
    have hb : g.cont.child b ≠ .null := by rwa [h5]
    exact ⟨h4.removeChild hb, h4.removeChild_turns hb⟩

/-- The store to a guarded location, which commits. -/
lemma wp_guardStore {D : Fields → Know} {w : TreeM Unit} (hx : C.At live t Γ P x)
    (hc : Γ.clear = none) (hg : Guarded Γ pg r e path) (hw : pg.Stores Γ r' w)
    (hclear : ∀ F, (D F).clear = none)
    (hnode : ∀ F p, pg.owner? = some p → (D F).grasp p = (pg.store Γ r' F).grasp p)
    (hwrite : ∀ F F' p g, pg.owner? = some p → (D F).write p g F' = { D F' with
      grasp := Function.update (D F').grasp p (some { g with fields := F' }) })
    (hcommit : ∀ F y, C.rg.Ok live t y → Ready live t Γ pg.owner? (tree y) (shadow y) →
      P (scene y) → pg.Shown Γ r' F → C.Commits live t (pg.mem r' F (tree y)) (D F) R y) :
    C.rg.wp live t w (fun _ y => ∃ F, pg.Fits Γ r' F ∧ C.At live t (D F) R y) x := by
  cases pg with
  | root v =>
    obtain rfl : w = _ := hw
    refine RG.wp_intro fun hok => ?_
    refine RG.wp_mono (wp_commit hx hok hc
      (hcommit Fields.fresh x hok (ready_of_knows hx.knows _) hx.client trivial)) ?_
    exact fun _ y _ hy => ⟨_, trivial, hy.2⟩
  | node p v b =>
    obtain ⟨q, rfl, hq⟩ := hw
    obtain ⟨-, g, -, h2, -, h4, h5, -⟩ := hg
    obtain ⟨⟨F, hrun, hF⟩, hturn⟩ := hq g h2
    have hfit : (ParentGuard.node p v b).Fits Γ r' F := by
      intro g' hg'
      obtain rfl : g = g' := by simpa [h2] using hg'
      exact hF
    have hD : ∀ F₁, (D F₁).grasp p =
        some { g with fields := F₁, cont := g.cont.setChild b r' } := by
      intro F₁
      rw [hnode F₁ p rfl]
      simp [ParentGuard.store, h2]
    refine RG.wp_mono (wp_typed_commit (R := R) (D := D)
      (G := { g with cont := g.cont.setChild b r' }) hx hc h2 hrun hturn hD rfl hclear ?_ ?_) ?_
    · intro F₁ F₂
      rw [hwrite F₁ F₂ p _ rfl, ← hD F₂, Function.update_eq_self]
    · intro y F₀ F₁ hF₁ hy hok
      refine hcommit F₁ y hok (ready_of_write h2 hy.knows) hy.client fun g' hg' => ?_
      obtain rfl : g = g' := by simpa [h2] using hg'
      exact hF₁
    · rintro _ y - ⟨-, hy⟩
      exact ⟨F, hfit, hy⟩

end Client

/-! ## Taking and releasing the guard -/

namespace Know

/-- The thread holds and owes what it held and owed before. -/
structure Idle (Γ Δ : Know) : Prop where
  lo : Δ.lo = Γ.lo
  held : Δ.held = Γ.held
  priv : Δ.priv = Γ.priv
  follow : Δ.follow = Γ.follow
  clear : Δ.clear = Γ.clear
  due : Δ.due = Γ.due

variable {Γ Δ Δ' : Know} {pg : ParentGuard}

lemma Idle.rfl : Γ.Idle Γ :=
  ⟨Eq.refl _, Eq.refl _, Eq.refl _, Eq.refl _, Eq.refl _, Eq.refl _⟩

lemma Idle.trans (h : Γ.Idle Δ) (h' : Δ.Idle Δ') : Γ.Idle Δ' :=
  ⟨h'.lo.trans h.lo, h'.held.trans h.held, h'.priv.trans h.priv, h'.follow.trans h.follow,
    h'.clear.trans h.clear, h'.due.trans h.due⟩

lemma Scan.idle (h : Γ.Scan Δ) : Γ.Idle Δ :=
  ⟨h.lo, h.held, h.priv, h.follow, h.clear, h.due⟩

/-- As before, and alone the forest is what it was as well. -/
structure Rests (Γ Δ : Know) : Prop extends Idle Γ Δ where
  known : Δ.known = Γ.known
  aim : Δ.aim = Γ.aim

lemma Rests.rfl : Γ.Rests Γ :=
  ⟨.rfl, Eq.refl _, Eq.refl _⟩

/-- A guard has been taken. -/
structure Locks (Γ Δ : Know) (pg : ParentGuard) : Prop where
  lo : Δ.lo = Γ.lo
  held : Δ.held = Function.update Γ.held pg.latch (some pg.version)
  priv : Δ.priv = Γ.priv
  follow : Δ.follow = Γ.follow
  clear : Δ.clear = Γ.clear
  due : Δ.due = Γ.due
  seen : ∀ n, pg.owner? ≠ some n → Δ.seen n = Γ.seen n
  grasp : ∀ n, pg.owner? ≠ some n → Δ.grasp n = Γ.grasp n
  top : pg.owner? ≠ none → Δ.top = Γ.top
  known : Δ.known = Γ.known
  aim : Δ.aim = Γ.aim

/-- A guard has been released; a node behind it has been seen at its new version. -/
structure Unlocks (Γ Δ : Know) (pg : ParentGuard) : Prop where
  lo : Δ.lo = Γ.lo
  held : Δ.held = Function.update Γ.held pg.latch none
  priv : Δ.priv = Γ.priv
  follow : Δ.follow = Γ.follow
  clear : Δ.clear = Γ.clear
  due : Δ.due = Γ.due
  seen : ∀ n, pg.owner? ≠ some n → Δ.seen n = Γ.seen n
  grasp : ∀ n, pg.owner? ≠ some n → Δ.grasp n = Γ.grasp n
  top : Δ.top = Γ.top
  known : Δ.known = Γ.known
  aim : Δ.aim = Γ.aim
  sight : ∀ p g e q, pg.owner? = some p → Γ.grasp p = some g → g.place = some (e, q) →
    Δ.seen p = some ⟨pg.version + 4, g.ty, g.cont, e, q⟩

lemma Locks.unlocks (h : Γ.Locks Δ pg) (h' : Δ.Unlocks Δ' pg) (hh : Γ.held pg.latch = none) :
    Γ.Rests Δ' where
  lo := h'.lo.trans h.lo
  held := by rw [h'.held, h.held, Function.update_idem, ← hh, Function.update_eq_self]
  priv := h'.priv.trans h.priv
  follow := h'.follow.trans h.follow
  clear := h'.clear.trans h.clear
  due := h'.due.trans h.due
  known := h'.known.trans h.known
  aim := h'.aim.trans h.aim

end Know

namespace Client

open Shadow (Knows Seen Grasped)

variable {C : Client} {live : Bool} {t : ℕ} {Γ Δ : Know} {P : C.Assertion t} {x y : C.W}
  {c n : NodeId} {s : Sight} {r : Slot} {v e : ℕ} {par : Parent} {pg : ParentGuard}
  {path : List Byte}

/-- `ParentGuard::unlock`. -/
lemma wp_guardUnlock (hx : C.At live t Γ P x) (hc : Γ.clear = none)
    (hg : Guarded Γ pg r e path) :
    C.rg.wp live t pg.unlock (fun a y => ∃ Δ, Γ.Unlocks Δ pg ∧ C.At live t Δ P y ∧
      a = pg.owner?.map fun _ => pg.version + 4) x := by
  cases pg with
  | root v =>
    refine RG.wp_seq (wp_unlockRoot hx hg.1) ?_
    intro _ y _ hy
    refine RG.wp_ret ⟨Γ.unlatchRoot,
      ⟨rfl, rfl, rfl, rfl, rfl, rfl, fun _ _ => rfl, fun _ _ => rfl, rfl, rfl, rfl,
        ?_⟩, hy, rfl⟩
    intro p g e q hp
    simp [ParentGuard.owner?] at hp
  | node p v b =>
    obtain ⟨h1, g, q, h2, h3, h4, -, -⟩ := hg
    refine RG.wp_seq (wp_unlock hx hc h1 h2 h3 h4) ?_
    rintro nv y - ⟨rfl, hy⟩
    refine RG.wp_ret ⟨Γ.unlatch p (some ⟨v + 4, g.ty, g.cont, e, q⟩),
      ⟨rfl, rfl, rfl, rfl, rfl, rfl, ?_, ?_, rfl, rfl, rfl, ?_⟩, hy, rfl⟩
    · intro n hn
      have hnp : n ≠ p := fun h => hn (by rw [h]; rfl)
      simp [Know.unlatch, hnp]
    · intro n hn
      have hnp : n ≠ p := fun h => hn (by rw [h]; rfl)
      simp [Know.unlatch, hnp]
    · intro p' g' e' q' hp hg' hpl
      obtain rfl : p = p' := by simpa [ParentGuard.owner?] using hp
      obtain rfl : g = g' := by simpa [h2] using hg'
      rw [h3] at hpl
      simp only [Option.some.injEq, Prod.mk.injEq] at hpl
      obtain ⟨rfl, rfl⟩ := hpl
      simp [Know.unlatch, ParentGuard.version]

/-- The node of a parent is known to be published. -/
def ParentPub (Γ : Know) : Parent → Prop
  | .root => True
  | .node p _ _ => Γ.Pub p

lemma Coupled.pub (h : Coupled live Γ par c s) : ParentPub Γ par := by
  cases par with
  | root => trivial
  | node p v b =>
    obtain ⟨-, sp, hsp, -⟩ := h
    exact .inr (by simp [hsp])

/-- `RawTree::lock_parent`.  Alone, it succeeds for a node that was below its parent. -/
lemma wp_lockParent (hx : C.At live t Γ P x) (hc : Γ.clear = none)
    (hh : ∀ l, Γ.held l = none) (hp : ParentPub Γ par) :
    C.rg.wp live t (lockParent par (.node c)) (fun a y =>
      (a = none → (∀ s, Coupled live Γ par c s → live = false) ∧
        ∃ Δ, Γ.Rests Δ ∧ C.At live t Δ P y) ∧
      ∀ pg, a = some pg → ∃ Δ e path, Guarded Δ pg (.node c) e path ∧ Γ.Locks Δ pg ∧
        pg.owner? ≠ some c ∧ pg.For par ∧ C.At live t Δ P y) x := by
  cases par with
  | root =>
    refine RG.wp_seq (wp_lockRoot hx hh) ?_
    rintro a y hok ⟨v, rt, e, rfl, hy, htop⟩
    have hheld : (Γ.latchRoot v rt e).held .root = some v := by simp [Know.latchRoot]
    refine RG.wp_seq (wp_loadRoot hy) ?_
    rintro (r : Slot) z - ⟨hr, hz, -⟩
    have hrt : r = rt := hr.trans (hy.knows.top rt e rfl (.inr (by simp [hheld]))).1
    by_cases hrc : r = .node c
    · rw [if_pos hrc]
      refine RG.wp_ret ⟨fun h => by simp at h, fun pg hpg => ?_⟩
      obtain rfl : ParentGuard.root v = pg := by simpa using hpg
      refine ⟨_, e, [], ⟨hheld, ?_, rfl⟩,
        ⟨rfl, rfl, rfl, rfl, rfl, rfl, fun _ _ => rfl, fun _ _ => rfl,
          fun h => absurd rfl h, rfl, rfl⟩, by simp [ParentGuard.owner?], trivial, hz⟩
      rw [← hrc, hrt]
      rfl
    · rw [if_neg hrc]
      refine RG.wp_seq (wp_unlockRoot hz hheld) ?_
      intro _ u _ hu
      refine RG.wp_ret ⟨fun _ => ⟨fun s hs => ?_, (Γ.latchRoot v rt e).unlatchRoot,
        ⟨⟨rfl, ?_, rfl, rfl, rfl, rfl⟩, rfl, rfl⟩, hu⟩, by simp⟩
      · by_contra hl
        have hl' : live = true := by simpa using hl
        exact hrc (hrt.trans (htop hl' _ _ (hs.2 hl')).1)
      · funext l
        by_cases hl : l = .root
        · subst hl
          simp [Know.unlatchRoot, Know.latchRoot, hh]
        · simp [Know.unlatchRoot, Know.latchRoot, hl]
  | node p pv b =>
    refine RG.wp_seq (wp_lockNode hx hh hp) ?_
    rintro (_ | v) y hok ⟨hnone, hsome⟩
    · obtain ⟨hy, hobs⟩ := hnone rfl
      refine RG.wp_ret ⟨fun _ => ⟨fun s hs => ?_, Γ, .rfl, hy⟩, by simp⟩
      obtain ⟨-, sp, hsp, -⟩ := hs
      by_contra hl
      have hl' : live = true := by simpa using hl
      have hseen := hy.knows.seen p sp hsp
      have hw := hobs hl'
      rw [hseen.alone hl'] at hw
      have := hseen.free
      unfold Free at this
      unfold Obsolete at hw
      omega
    · obtain ⟨g, e, q, hpl, hrepr, hy, hlive⟩ := hsome v rfl
      have hgr : (Γ.latch p v g).grasp p = some g := by simp [Know.latch]
      have hheld : (Γ.latch p v g).held (.node p) = some v := by simp [Know.latch]
      refine RG.wp_seq (wp_typed_read (fun _ => readOnly_findChild) hy hgr) ?_
      rintro r z hokz ⟨hrun, hz⟩
      rw [hrepr.run_findChild] at hrun
      obtain rfl : g.cont.child b = r := by simpa using hrun
      have hlocks : Γ.Locks (Γ.latch p v g) (.node p v b) := by
        refine ⟨rfl, rfl, rfl, rfl, rfl, rfl, ?_, ?_, fun _ => rfl, rfl, rfl⟩
        all_goals
          intro n hn
          have hnp : n ≠ p := fun h => hn (by rw [h]; rfl)
          simp [Know.latch, hnp]
      have hguard : ∀ {r}, g.cont.child b = r →
          Guarded (Γ.latch p v g) (.node p v b) r e (q ++ g.cont.pre ++ [b]) :=
        fun hr => ⟨hheld, g, q, hgr, hpl, hrepr, hr, rfl⟩
      by_cases hrc : g.cont.child b ≠ .null ∧ g.cont.child b = .node c
      · rw [if_pos hrc]
        refine RG.wp_ret ⟨fun h => by simp at h, fun pg hpg => ?_⟩
        obtain rfl : ParentGuard.node p v b = pg := by simpa using hpg
        refine ⟨_, e, _, hguard hrc.2, hlocks, ?_, ⟨rfl, rfl⟩, hz⟩
        -- A node is not its own child.
        intro hpc
        obtain rfl : p = c := by simpa [ParentGuard.owner?] using hpc
        obtain ⟨-, hat, hslot⟩ := (hguard hrc.2).loc (ready_of_knows hz.knows none)
          (ok_tree hokz)
        exact (ok_tree hokz).wf.not_own_child hat hslot rfl
      · rw [if_neg hrc]
        refine RG.wp_seq (wp_unlock hz hc hheld hgr hpl hrepr) ?_
        rintro _ u - ⟨-, hu⟩
        refine RG.wp_ret ⟨fun _ => ⟨fun s hs => ?_,
          (Γ.latch p v g).unlatch p (some ⟨v + 4, g.ty, g.cont, e, q⟩),
          ⟨⟨rfl, ?_, rfl, rfl, rfl, rfl⟩, rfl, rfl⟩, hu⟩, by simp⟩
        · obtain ⟨-, sp, hsp, -, -, -, hchild⟩ := hs
          by_contra hl
          have hcont := (hlive (by simpa using hl) sp hsp).2.1
          rw [hcont, hchild] at hrc
          simp at hrc
        · simp only [Know.unlatch, Know.latch, Function.update_idem]
          rw [← hh (.node p), Function.update_eq_self]

/-- A node and its location have been latched. -/
structure Paired (Γ Δ : Know) (pg : ParentGuard) (n : NodeId) (s : Sight) (F : Fields) :
    Prop where
  lo : Δ.lo = Γ.lo
  held : Δ.held =
    Function.update (Function.update Γ.held pg.latch (some pg.version)) (.node n) (some s.v)
  priv : Δ.priv = Γ.priv
  follow : Δ.follow = Γ.follow
  clear : Δ.clear = Γ.clear
  due : Δ.due = Γ.due
  seen : ∀ m, m ≠ n → pg.owner? ≠ some m → Δ.seen m = Γ.seen m
  top : pg.owner? ≠ none → Δ.top = Γ.top
  known : Δ.known = Γ.known
  aim : Δ.aim = Γ.aim
  guard : Guarded Δ pg (.node n) s.epoch s.path
  grasp : Δ.grasp n = some ⟨s.ty, F, s.cont, some (s.epoch, s.path)⟩
  repr : Repr s.ty F s.cont
  ne : pg.owner? ≠ some n

/-- A node that was seen is latched together with its location.  It may be below its parent no
more, or it may have changed. -/
lemma wp_pair {α : Type} {a b : α} {k : ParentGuard → ℕ → TreeM α} {Q : α → C.W → Prop}
    (hx : C.At live t Γ P x) (hc : Γ.clear = none) (hh : ∀ l, Γ.held l = none)
    (hs : Γ.seen n = some s) (hp : ParentPub Γ par)
    (hlost : ∀ y Δ, (∀ s, Coupled live Γ par n s → live = false) → Γ.Rests Δ →
      C.At live t Δ P y → Q a y)
    (hback : ∀ y Δ, live = false → Γ.Rests Δ → C.At live t Δ P y → Q b y)
    (hk : ∀ y Δ pg F, C.rg.Ok live t y → pg.For par → Paired Γ Δ pg n s F → C.At live t Δ P y →
      C.rg.wp live t (k pg s.v) Q y) :
    C.rg.wp live t (do
      let some pg ← lockParent par (.node n) | return a
      let some nw ← tryUpgrade (.node n) s.v
        | do
          let _ ← pg.unlock
          return b
      k pg nw) Q x := by
  refine RG.wp_seq (wp_lockParent hx hc hh hp) ?_
  rintro (_ | pg) y - ⟨hnone, hsome⟩
  · obtain ⟨h1, Δ, h2, h3⟩ := hnone rfl
    exact RG.wp_ret (hlost y Δ h1 h2 h3)
  obtain ⟨Δ, e, path, hg, hl, hne, hfor, hy⟩ := hsome pg rfl
  have hs' : Δ.seen n = some s := (hl.seen n hne).trans hs
  refine RG.wp_seq (wp_tryUpgrade hy (hl.clear.trans hc) hs'
    (promise_of_seen (hy.knows.seen n s hs'))) ?_
  rintro (_ | nw) z hok ⟨hnone, hsome⟩
  · obtain ⟨hlive, hz⟩ := hnone rfl
    refine RG.wp_seq (wp_guardUnlock hz (hl.clear.trans hc) hg) ?_
    rintro _ u - ⟨Δ', hu, hat, -⟩
    exact RG.wp_ret (hback u Δ' hlive (hl.unlocks hu (hh _)) hat)
  · obtain ⟨rfl, -, F, hF, hz⟩ := hsome nw rfl
    have hg' : Guarded (Δ.latch n s.v ⟨s.ty, F, s.cont, some (s.epoch, s.path)⟩) pg (.node n) e
        path := by
      refine hg.congr ?_ (fun _ => rfl) fun p hp => ?_
      · have hlat : pg.latch ≠ .node n := by
          cases pg with
          | root v => simp [ParentGuard.latch]
          | node p v b => simpa [ParentGuard.latch, ParentGuard.owner?] using hne
        simp [Know.latch, hlat]
      · have hpn : p ≠ n := fun h => hne (h ▸ hp)
        simp [Know.latch, hpn]
    have hgr : (Δ.latch n s.v ⟨s.ty, F, s.cont, some (s.epoch, s.path)⟩).grasp n =
        some ⟨s.ty, F, s.cont, some (s.epoch, s.path)⟩ := by simp [Know.latch]
    -- The location says where the node is, and so does the node.
    have hplace := (hz.knows.grasp n _ hgr).place
    obtain ⟨-, h2, h3⟩ := hg'.loc (ready_of_knows hz.knows none) (ok_tree hok)
    rw [(ok_tree hok).wf.place_of_slot h2 h3] at hplace
    simp only [Option.some.injEq, Prod.mk.injEq] at hplace
    obtain ⟨rfl, rfl⟩ := hplace
    refine hk z (Δ.latch n s.v ⟨s.ty, F, s.cont, some (s.epoch, s.path)⟩) pg F hok hfor
      ⟨hl.lo, ?_, hl.priv, hl.follow, hl.clear, hl.due, ?_, hl.top, hl.known, hl.aim, hg', hgr,
        hF, hne⟩ hz
    · simp [Know.latch, hl.held]
    · intro m hm hmo
      simp [Know.latch, hm, hl.seen m hmo]

/-- A node that was seen below its parent is latched together with its location, or the
operation goes back. -/
lemma wp_couple {α : Type} {a : α} {k : ParentGuard → ℕ → TreeM α} {Q : α → C.W → Prop}
    (hx : C.At live t Γ P x) (hc : Γ.clear = none) (hh : ∀ l, Γ.held l = none)
    (hs : Γ.seen n = some s) (hp : ParentPub Γ par) (hcp : live = true → Coupled live Γ par n s)
    (hback : ∀ y Δ, live = false → Γ.Idle Δ → C.At live t Δ P y → Q a y)
    (hk : ∀ y Δ pg F, C.rg.Ok live t y → pg.For par → Paired Γ Δ pg n s F → C.At live t Δ P y →
      C.rg.wp live t (k pg s.v) Q y) :
    C.rg.wp live t (do
      let some pg ← lockParent par (.node n) | return a
      let some nw ← tryUpgrade (.node n) s.v
        | do
          let _ ← pg.unlock
          return a
      k pg nw) Q x := by
  refine wp_pair hx hc hh hs hp (fun y Δ hlost hΔ => hback y Δ ?_ hΔ.toIdle)
    (fun y Δ hl hΔ => hback y Δ hl hΔ.toIdle) hk
  cases live with
  | false => rfl
  | true => exact hlost s (hcp rfl)

end Client

end Artmap
