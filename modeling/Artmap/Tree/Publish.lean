import Artmap.Shadow.Changes
import Artmap.Shadow.Home
import Artmap.Tree.Guard

/-!
# Publications

A thread that holds the latch of a location publishes there: one store makes new nodes
reachable, takes latched ones out, and changes others.  This is the rule for such a store, for
every operation: what the thread has latched and built gives the commit, and what it knows
afterwards follows from what it knew before.
-/

namespace Artmap

namespace Know

/-- The knowledge after a publication of the nodes `new` at a guarded location.  `touch` says
what becomes of latched nodes: `some none` is a node that is in no tree any more. -/
def publish (Γ : Know) (pg : ParentGuard) (s : Slot) (F : Fields) (new : List NodeId)
    (touch : NodeId → Option (Option Grasp)) (f : Option (ℕ × Key)) : Know :=
  { pg.store Γ s F with
    grasp := fun n => (touch n).getD ((pg.store Γ s F).grasp n)
    priv := fun n => if n ∈ new then none else Γ.priv n
    follow := f
    due := fun n => Γ.due n ∨ touch n = some none
    aim := none }

variable {Γ : Know} {pg : ParentGuard} {s : Slot} {F : Fields} {new : List NodeId}
  {touch : NodeId → Option (Option Grasp)} {f : Option (ℕ × Key)}

@[simp] lemma publish_lo : (Γ.publish pg s F new touch f).lo = Γ.lo := by
  cases pg <;> rfl

@[simp] lemma publish_held : (Γ.publish pg s F new touch f).held = Γ.held := by
  cases pg <;> rfl

@[simp] lemma publish_seen : (Γ.publish pg s F new touch f).seen = Γ.seen := by
  cases pg <;> rfl

@[simp] lemma publish_clear : (Γ.publish pg s F new touch f).clear = Γ.clear := by
  cases pg <;> rfl

@[simp] lemma publish_base : (Γ.publish pg s F new touch f).base = none := by
  cases pg <;> rfl

@[simp] lemma publish_follow : (Γ.publish pg s F new touch f).follow = f := rfl

@[simp] lemma publish_due (n : NodeId) :
    (Γ.publish pg s F new touch f).due n ↔ Γ.due n ∨ touch n = some none := Iff.rfl

lemma publish_priv : (Γ.publish pg s F new touch f).priv =
    fun n => if n ∈ new then none else Γ.priv n := rfl

lemma publish_eq : Γ.publish pg s F new touch f = { Γ with
    grasp := (Γ.publish pg s F new touch f).grasp
    top := (Γ.publish pg s F new touch f).top
    priv := fun n => if n ∈ new then none else Γ.priv n
    follow := f
    due := (Γ.publish pg s F new touch f).due
    base := none
    aim := none } := by
  cases pg <;> rfl

lemma publish_grasp_owner {p : NodeId} (h : touch p = none) :
    (Γ.publish pg s F new touch f).grasp p = (pg.store Γ s F).grasp p := by
  simp [publish, h]

lemma publish_write {F' : Fields} {p : NodeId} {g : Grasp} (hp : pg.owner? = some p)
    (h : touch p = none) :
    (Γ.publish pg s F new touch f).write p g F' =
      { Γ.publish pg s F' new touch f with
        grasp := Function.update (Γ.publish pg s F' new touch f).grasp p
          (some { g with fields := F' }) } := by
  cases pg with
  | root v => simp [ParentGuard.owner?] at hp
  | node q v b =>
    obtain rfl : q = p := by simpa [ParentGuard.owner?] using hp
    simp only [write, publish, ParentGuard.store]
    congr 1
    funext n
    by_cases hn : n = q
    · subst hn
      simp
    · simp [hn]

lemma publish_grasp_touched {n : NodeId} {o : Option Grasp} (h : touch n = some o) :
    (Γ.publish pg s F new touch f).grasp n = o := by
  simp [publish, h]

/-- The knowledge after the leaf of a latched node for a key that goes on with `rest` has
changed. -/
def setLeaf (Γ : Know) (n : NodeId) (g : Grasp) (F : Fields) (rest : List Byte)
    (x : Option Leaf) : Know :=
  { Γ with
    grasp := Function.update Γ.grasp n
      (some { g with fields := F, cont := g.cont.setAt rest x })
    base := none
    aim := none }

/-- A newly published node has been seen, if at all. -/
def spot (Γ : Know) : Option (NodeId × Sight) → Know
  | none => Γ
  | some (n, s) => Γ.see n s

variable {o : Option (NodeId × Sight)}

@[simp] lemma spot_lo : (Γ.spot o).lo = Γ.lo := by cases o <;> rfl

@[simp] lemma spot_held : (Γ.spot o).held = Γ.held := by cases o <;> rfl

@[simp] lemma spot_grasp : (Γ.spot o).grasp = Γ.grasp := by cases o <;> rfl

@[simp] lemma spot_priv : (Γ.spot o).priv = Γ.priv := by cases o <;> rfl

@[simp] lemma spot_follow : (Γ.spot o).follow = Γ.follow := by cases o <;> rfl

@[simp] lemma spot_clear : (Γ.spot o).clear = Γ.clear := by cases o <;> rfl

@[simp] lemma spot_due : (Γ.spot o).due = Γ.due := by cases o <;> rfl

@[simp] lemma spot_base : (Γ.spot o).base = Γ.base := by cases o <;> rfl

@[simp] lemma spot_top : (Γ.spot o).top = Γ.top := by cases o <;> rfl

lemma store_grasp_of_ne {n : NodeId} (h : pg.owner? ≠ some n) :
    (pg.store Γ s F).grasp n = Γ.grasp n := by
  cases pg with
  | root v => rfl
  | node p v b =>
    have hn : n ≠ p := fun hn => h (by rw [hn]; rfl)
    simp [ParentGuard.store, hn]

end Know

namespace Client

open Shadow (Knows Seen Grasped Commit LocCommit)

variable {C : Client} {live : Bool} {t : ℕ} {Γ Δ : Know} {P R : C.Assertion t} {x y : C.W}
  {c n d : NodeId} {s : Sight} {r r' : Slot} {v e : ℕ} {pg : ParentGuard} {path : List Byte}
  {F : Fields} {G : Forest} {new : List NodeId} {touch : NodeId → Option (Option Grasp)}
  {f : Option (ℕ × Key)}

/-- What a thread brings to a publication that turns the forest into `G`. -/
structure Publishes (live : Bool) (t : ℕ) (Γ : Know) (pg : ParentGuard) (e : ℕ) (s : Slot)
    (G : Forest) (new : List NodeId) (touch : NodeId → Option (Option Grasp))
    (f : Option (ℕ × Key)) (S : Shadow) : Prop where
  loc : LocCommit t S (pg.loc e) e s G new fun n => touch n ≠ none
  owner : ∀ p, pg.owner? = some p → touch p = none
  gone : ∀ n, touch n = some none → G.place n = none
  kept : ∀ n g', touch n = some (some g') → ∃ g, Γ.grasp n = some g ∧ g'.ty = g.ty ∧
    g'.fields = g.fields ∧ G.cont n = g'.cont ∧ G.place n = g'.place ∧ g'.place ≠ none
  repr : ∀ n, n ∈ new → ∃ ty F₀, Γ.priv n = some (ty, F₀) ∧ Repr ty F₀ (G.cont n)
  cover : ∀ n p, G.place n = some (S.cur, p) → (G.cont n).Empty →
    ∃ t' k, Function.update S.follow t f t' = some (S.cur, k) ∧ p ++ G.pre n <+: k

/-- The commit of a publication. -/
lemma Publishes.commit {m : TreeMem} {S : Shadow} (h : Publishes live t Γ pg e r' G new touch f S)
    (hi : S.Inv m) (hr : Ready live t Γ pg.owner? m S) (hg : Guarded Γ pg r e path)
    (hF : pg.Shown Γ r' F) : Commit t m S (pg.mem r' F m) G new f := by
  have hloc := (hg.loc hr hi).1
  refine h.loc.commit hi ?_ ?_ ?_ ?_ ?_ h.cover
  · cases pg <;> rfl
  · rw [h.loc.root]
    cases pg with
    | root v =>
      obtain rfl : e = S.cur := hloc.2
      simp [ParentGuard.mem, ParentGuard.loc, Forest.setSlot]
    | node p v b => exact hi.root
  · intro n hn
    cases pg with
    | root v => rfl
    | node p v b =>
      have hne : n ≠ p := fun hnp => hn (hnp ▸ hloc)
      simp [ParentGuard.mem, Shadow.setFields, hne]
  · intro n hn
    obtain ⟨ty, F₀, h1, h2⟩ := h.repr n hn
    obtain ⟨-, h3, h4⟩ := hr.knows.priv n ty F₀ h1
    rw [h3, h4]
    exact h2
  · intro n ho hpl
    cases pg with
    | root v => exact hi.shows hpl
    | node p v b =>
      by_cases hnp : n = p
      · subst hnp
        obtain ⟨-, g, -, h2, -⟩ := hg
        simpa [ParentGuard.mem, Shadow.setFields, ParentGuard.loc, Forest.setSlot,
          hr.cont n g h2] using hF g h2
      · simpa [ParentGuard.mem, Shadow.setFields, ParentGuard.loc, Forest.setSlot, hnp] using
          hi.shows hpl

/-- What the thread knows after a publication. -/
lemma Publishes.knows {m : TreeMem} {S : Shadow}
    (h : Publishes live t Γ pg e r' G new touch f S) (hi : S.Inv m)
    (hr : Ready live t Γ pg.owner? m S) (hg : Guarded Γ pg r e path) (hF : pg.Shown Γ r' F) :
    Knows live t (Γ.publish pg r' F new touch f) (pg.mem r' F m) (S.commit t G new f) := by
  have hloc := hg.loc hr hi
  have hnew : ∀ {n}, S.pub n → n ∉ new := fun hp hn =>
    (hi.priv_lt (h.loc.new_priv _ hn).1).2 hp
  refine hr.knows.commit (h.commit hi hr hg hF) Know.publish_eq ?_ ?_ ?_
    (fun A hA => by simp [Know.publish] at hA) hi
  · intro n
    constructor
    · rintro (hd | hd)
      · exact .inl hd
      · exact .inr ⟨h.loc.old n (by simp [hd]), h.gone n hd⟩
    · rintro (hd | ⟨h1, h2⟩)
      · exact .inl hd
      · right
        cases ht : touch n with
        | none =>
          have := (h.loc.other n (by simp [ht]) (hnew (hi.pub_placed h1))).2
          exact absurd (this.symm.trans h2) h1
        | some o =>
          cases o with
          | none => rfl
          | some g' =>
            obtain ⟨g, -, -, -, -, h3, h4⟩ := h.kept n g' ht
            exact absurd (h3.symm.trans h2) h4
  · intro r₁ e₁ htop hlive
    cases pg with
    | root v =>
      obtain ⟨h1, h2, -⟩ := hg
      have hre : r' = r₁ ∧ e = e₁ := by simpa [Know.publish, ParentGuard.store, h2] using htop
      obtain ⟨rfl, rfl⟩ := hre
      exact ⟨rfl, (hr.knows.top r e h2 (.inr (by simp [h1]))).2⟩
    | node p v b => exact hr.knows.top r₁ e₁ htop hlive
  · intro n g' hg'
    cases ht : touch n with
    | some o =>
      rw [Know.publish_grasp_touched ht] at hg'
      subst hg'
      obtain ⟨g, h1, h2, h3, h4, h5, -⟩ := h.kept n g' ht
      have hown : pg.owner? ≠ some n := fun ho => by simp [h.owner n ho] at ht
      refine ⟨hr.owner n g h1, (hr.ty n g h1).trans h2.symm, ?_, h4, h5⟩
      rw [h3, ← hr.fields n g h1 hown]
      cases pg with
      | root v => rfl
      | node p v b =>
        have hne : n ≠ p := fun hnp => hown (by rw [hnp]; rfl)
        simp [ParentGuard.mem, Shadow.setFields, hne]
    | none =>
      rw [Know.publish_grasp_owner ht] at hg'
      by_cases hown : pg.owner? = some n
      · cases pg with
        | root v => simp [ParentGuard.owner?] at hown
        | node p v b =>
          obtain rfl : p = n := by simpa [ParentGuard.owner?] using hown
          obtain ⟨-, g, q, h2, h3, -, -, -⟩ := hg
          have hgg : g' = { g with fields := F, cont := g.cont.setChild b r' } := by
            simpa [ParentGuard.store, h2] using hg'.symm
          subst hgg
          have ho := hr.owner p g h2
          obtain ⟨h5, h6⟩ := h.loc.other p (by simp [ht]) (hnew (hi.pub_of_owner (by simp [ho])))
          refine ⟨ho, hr.ty p g h2, by simp [ParentGuard.mem, Shadow.setFields], ?_,
            h6.trans (hr.place p g h2)⟩
          rw [h5, ← hr.cont p g h2]
          simp [ParentGuard.loc, Forest.setSlot]
      · rw [Know.store_grasp_of_ne hown] at hg'
        have ho := hr.owner n g' hg'
        obtain ⟨h5, h6⟩ := h.loc.other n (by simp [ht]) (hnew (hi.pub_of_owner (by simp [ho])))
        refine ⟨ho, hr.ty n g' hg', ?_, ?_, h6.trans (hr.place n g' hg')⟩
        · rw [← hr.fields n g' hg' hown]
          cases pg with
          | root v => rfl
          | node p v b =>
            have hne : n ≠ p := fun hnp => hown (by rw [hnp]; rfl)
            simp [ParentGuard.mem, Shadow.setFields, hne]
        · rw [h5, ← hr.cont n g' hg']
          cases pg with
          | root v => rfl
          | node p v b =>
            have hne : n ≠ p := fun hnp => hown (by rw [hnp]; rfl)
            simp [ParentGuard.loc, Forest.setSlot, hne]

/-- A newly published node is as it was built. -/
def Spotted (Γ : Know) (new : List NodeId) (G : Forest) : Option (NodeId × Sight) → Prop
  | none => True
  | some (n, s) => n ∈ new ∧ s.v = 0 ∧ (∃ F, Γ.priv n = some (s.ty, F)) ∧ G.cont n = s.cont ∧
      G.place n = some (s.epoch, s.path)

lemma Publishes.spot {m : TreeMem} {S : Shadow} {o : Option (NodeId × Sight)}
    (h : Publishes live t Γ pg e r' G new touch f S) (hi : S.Inv m)
    (hr : Ready live t Γ pg.owner? m S) (hg : Guarded Γ pg r e path) (hF : pg.Shown Γ r' F)
    (ho : Spotted Γ new G o) :
    Knows live t ((Γ.publish pg r' F new touch f).spot o) (pg.mem r' F m)
      (S.commit t G new f) := by
  have hk := h.knows hi hr hg hF
  cases o with
  | none => exact hk
  | some ns =>
    obtain ⟨n, s⟩ := ns
    obtain ⟨h1, h2, ⟨F₀, h3⟩, h4, h5⟩ := ho
    obtain ⟨h6, h7, -⟩ := hr.knows.priv n _ _ h3
    have hw : (pg.mem r' F m).latch (.node n) = s.v := by
      rw [h2, ← (hi.unpub (hi.priv_lt h6).2).1]
      cases pg <;> rfl
    have hty : (pg.mem r' F m).ty n = s.ty := by
      rw [← h7]
      cases pg <;> rfl
    refine hk.see ⟨.inr h1, hty, by rw [h2]; rfl, hw.ge, fun _ => hw, fun _ => ⟨h4, h5⟩⟩

/-- **Publication** at a guarded location. -/
lemma wp_publish_aimed {w : TreeM Unit} {o : Option (NodeId × Sight)}
    (A : Option (Forest → Prop)) (hx : C.At live t Γ P x)
    (hc : Γ.clear = none) (hg : Guarded Γ pg r e path) (hw : pg.Stores Γ r' w)
    (howner : ∀ p, pg.owner? = some p → touch p = none)
    (h : ∀ y, C.rg.Ok live t y → Ready live t Γ pg.owner? (tree y) (shadow y) → P (scene y) →
      ∃ G, Publishes live t Γ pg e r' G new touch f (shadow y) ∧ Spotted Γ new G o ∧
        (∀ e k, f = some (e, k) → Γ.follow ≠ f →
          C.Taking y.ghost.2 t k ∧ (shadow y).forest.Vacates G) ∧
        Upd t (scene y) (scene y).leafs { (scene y).view with map := G.map } R ∧
        ∀ B, A = some B → live = true → B G) :
    C.rg.wp live t w (fun _ y => ∃ F, pg.Fits Γ r' F ∧
      C.At live t (((Γ.publish pg r' F new touch f).spot o).aimed A) R y) x := by
  refine wp_guardStore (D := fun F => ((Γ.publish pg r' F new touch f).spot o).aimed A) hx hc hg
    hw ?_ ?_ ?_ ?_
  · exact fun F => by simp [Know.aimed, hc]
  · intro F p hp
    show ((Γ.publish pg r' F new touch f).spot o).grasp p = _
    rw [Know.spot_grasp, Know.publish_grasp_owner (howner p hp)]
  · intro F F' p g hp
    have hwr : (Γ.publish pg r' F new touch f).write p g F' = _ :=
      Know.publish_write hp (howner p hp)
    cases o with
    | none => exact congrArg (·.aimed A) hwr
    | some ns => exact congrArg (fun Γ => (Γ.see ns.1 ns.2).aimed A) hwr
  · intro F y hok hr hP hF
    obtain ⟨G, hpub, hspot, htake, hupd, hA⟩ := h y hok hr hP
    refine ⟨G, new, f, hpub.commit (ok_tree hok) hr hg hF, ?_, hupd,
      (hpub.spot (ok_tree hok) hr hg hF hspot).aimed hA⟩
    intro e k hf hne
    have hfol : (shadow y).follow t = Γ.follow := hr.knows.follow
    exact htake e k hf (hfol ▸ hne)

lemma wp_publish {w : TreeM Unit} (new : List NodeId) {o : Option (NodeId × Sight)}
    (hx : C.At live t Γ P x) (hc : Γ.clear = none) (hg : Guarded Γ pg r e path)
    (hw : pg.Stores Γ r' w) (howner : ∀ p, pg.owner? = some p → touch p = none)
    (h : ∀ y, C.rg.Ok live t y → Ready live t Γ pg.owner? (tree y) (shadow y) → P (scene y) →
      ∃ G, Publishes live t Γ pg e r' G new touch f (shadow y) ∧ Spotted Γ new G o ∧
        (∀ e k, f = some (e, k) → Γ.follow ≠ f →
          C.Taking y.ghost.2 t k ∧ (shadow y).forest.Vacates G) ∧
        Upd t (scene y) (scene y).leafs { (scene y).view with map := G.map } R) :
    C.rg.wp live t w (fun _ y => ∃ F, pg.Fits Γ r' F ∧
      C.At live t ((Γ.publish pg r' F new touch f).spot o) R y) x := by
  have h' : ∀ y, C.rg.Ok live t y → Ready live t Γ pg.owner? (tree y) (shadow y) → P (scene y) →
      ∃ G, Publishes live t Γ pg e r' G new touch f (shadow y) ∧ Spotted Γ new G o ∧
        (∀ e k, f = some (e, k) → Γ.follow ≠ f →
          C.Taking y.ghost.2 t k ∧ (shadow y).forest.Vacates G) ∧
        Upd t (scene y) (scene y).leafs { (scene y).view with map := G.map } R ∧
        ∀ B : Forest → Prop, none = some B → live = true → B G := by
    intro y hok hr hP
    obtain ⟨G, h1, h2, h3, h4⟩ := h y hok hr hP
    exact ⟨G, h1, h2, h3, h4, by simp⟩
  refine RG.wp_mono (wp_publish_aimed none hx hc hg hw howner h') ?_
  rintro _ y - ⟨F, h1, h2⟩
  refine ⟨F, h1, ?_⟩
  cases o <;> exact h2

/-! ## Leaves -/

/-- What a client has to bring for a change of the map at `key`: a step for every epoch since
`lo` in which the key is mapped to `old` and is not frozen. -/
def CanSet (t : ℕ) (lo : ℕ) (key : Key) (old new : Option Leaf) (P R : C.Assertion t) : Prop :=
  ∀ x e, C.Inv x → P x → lo ≤ e → e ≤ x.view.cur → x.view.map e key = old →
    ¬ x.view.frozen e key → Upd t x x.leafs (x.view.set e key new) R

/-- A key that ends at a latched node, in a leaf or in nothing, is not frozen. -/
lemma not_frozen_of_slot {m : TreeMem} {S : Shadow} {q rest : List Byte} {key : Key}
    (hi : S.Inv m) (hpl : S.forest.place n = some (e, q))
    (hkey : key = q ++ S.forest.pre n ++ rest)
    (hslot : ∀ c, (S.forest.cont n).slotAt rest ≠ .node c) (ho : S.owner (.node n) = some t)
    (hcl : S.clearer e ≠ some t) : ¬ S.Frozen m e key := by
  refine Shadow.not_frozen_of_home (n := n) hi ⟨q, hpl, ?_⟩ ho hcl
  cases rest with
  | nil => exact .inl (by rw [hkey, List.append_nil])
  | cons b tl => exact .inr ⟨b, by rw [hkey]; exact ⟨tl, by simp⟩, hslot⟩

section Leaf

variable {α : Type} {a : α} {g : Grasp} {q rest : List Byte} {new : Option Leaf} {key : Key}

/-- A leaf changes in a latched node that does not become empty. -/
structure Changes (Γ : Know) (n : NodeId) (g : Grasp) (e : ℕ) (q rest : List Byte)
    (new : Option Leaf) (key : Key) : Prop where
  grasp : Γ.grasp n = some g
  place : g.place = some (e, q)
  key_eq : key = q ++ g.cont.pre ++ rest
  slot : ∀ c, g.cont.slotAt rest ≠ .node c
  old_key : ∀ l, g.cont.slotAt rest = .leaf l → l.key = key
  new_key : ∀ l, new = some l → l.key = key
  kept : ¬ (g.cont.setAt rest new).Empty

lemma Changes.commits (h : Changes Γ n g e q rest new key) (hc : Γ.clear = none)
    (hlo : Γ.lo ≤ e) (hcan : C.CanSet t Γ.lo key ((g.cont.slotAt rest).map key) new P R)
    {F₁ : Fields} (hF : Shows F (g.cont.setAt rest new))
    (hx : C.At live t (Γ.write n g F₁) P x) (hok : C.rg.Ok live t x) :
    C.Commits live t (Shadow.setFields (tree x) n F) (Γ.setLeaf n g F rest new) R x := by
  have hi := ok_tree hok
  obtain ⟨ho, hty, -, hcont, hplace⟩ := hx.knows.grasp n _ Know.write_grasp
  have hpl : (shadow x).forest.place n = some (e, q) := hplace.trans h.place
  have hpre : (shadow x).forest.pre n = g.cont.pre := congrArg Content.pre hcont
  have hco : (shadow x).forest.cont n = g.cont := hcont
  have hcommit := Shadow.commit_setLeaf (x := new) hi ho hpl
    (by rw [hco]; exact h.slot) (by rw [hpre, ← h.key_eq]; exact h.new_key)
    (by rw [hco]; exact h.kept) (by rw [hco]; exact hF)
  have hkey : key = q ++ (shadow x).forest.pre n ++ rest := by rw [hpre, ← h.key_eq]
  have hmap := hi.wf.setLeaf_map (x := new) hpl hkey (by rw [hco]; exact h.slot)
    (by rw [hco]; exact h.old_key) h.new_key
  have hcl : (shadow x).clearer e ≠ some t := by
    rw [Ne, hx.knows.clear e]
    show ¬ Γ.clear = some e
    simp [hc]
  refine ⟨_, _, _, hcommit, fun e k hf hne => absurd hf.symm (by rw [hf] at hne; simp at hne),
    ?_, ?_⟩
  · rw [hmap]
    refine hcan (scene x) e (ok_client hok) hx.client hlo (hi.place_le hpl) ?_ ?_
    · show (shadow x).forest.map e key = _
      rw [hi.wf.map_node hpl hkey (by rw [hco]; exact h.slot), hco]
    · exact not_frozen_of_slot hi hpl hkey (by rw [hco]; exact h.slot) ho hcl
  · refine hx.knows.commit hcommit ?_ ?_ ?_ ?_ (fun A hA => by simp [Know.setLeaf] at hA) hi
    · have hfol : (shadow x).follow t = Γ.follow := hx.knows.follow
      simp [Know.setLeaf, Know.write, hfol]
    · intro n'
      rw [Forest.setLeaf_place]
      exact ⟨.inl, fun hd => hd.resolve_right fun h1 => h1.1 h1.2⟩
    · exact hx.knows.top
    · intro n' g' hg'
      by_cases hn : n' = n
      · subst hn
        have hgg : g' = { g with fields := F, cont := g.cont.setAt rest new } := by
          simpa [Know.setLeaf] using hg'.symm
        subst hgg
        refine ⟨ho, hty, by simp [Shadow.setFields], ?_, ?_⟩
        · rw [Forest.setLeaf_cont, Function.update_self, hco]
        · rw [Forest.setLeaf_place]
          exact hplace
      · have hg₁ : (Γ.write n g F₁).grasp n' = some g' := by
          simpa [Know.setLeaf, Know.write, hn] using hg'
        obtain ⟨h1, h2, h3, h4, h5⟩ := hx.knows.grasp n' g' hg₁
        refine ⟨h1, h2, by simpa [Shadow.setFields, hn] using h3, ?_, ?_⟩
        · rw [Forest.setLeaf_cont, Function.update_of_ne hn]
          exact h4
        · rw [Forest.setLeaf_place]
          exact h5

lemma setLeaf_write {F₁ F₂ : Fields} :
    (Γ.setLeaf n g F₁ rest new).write n
      { g with fields := F₁, cont := g.cont.setAt rest new } F₂ = Γ.setLeaf n g F₂ rest new := by
  simp [Know.setLeaf, Know.write]

lemma wp_onNode_setLeaf {p : NodeM α} (h : Changes Γ n g e q rest new key)
    (hx : C.At live t Γ P x) (hc : Γ.clear = none) (hlo : Γ.lo ≤ e)
    (hrun : p.run g.fields = some (a, F))
    (hturn : p.Turns (Shows · g.cont) (Shows · (g.cont.setAt rest new)) g.fields)
    (hcan : C.CanSet t Γ.lo key ((g.cont.slotAt rest).map key) new P R) :
    C.rg.wp live t (onNode n p)
      (fun b y => b = a ∧ C.At live t (Γ.setLeaf n g F rest new) R y) x :=
  wp_onNode_commit (D := fun F => Γ.setLeaf n g F rest new)
    (G := { g with cont := g.cont.setAt rest new }) hx hc h.grasp hrun hturn
    (fun _ => Function.update_self _ _ _) rfl (fun _ => hc) (fun _ _ => setLeaf_write)
    fun _ _ _ hF hy hok => h.commits hc hlo hcan hF hy hok

lemma wp_typed_setLeaf {p : NodeType → NodeM α} (h : Changes Γ n g e q rest new key)
    (hx : C.At live t Γ P x) (hc : Γ.clear = none) (hlo : Γ.lo ≤ e)
    (hrun : (p g.ty).run g.fields = some (a, F))
    (hturn : (p g.ty).Turns (Shows · g.cont) (Shows · (g.cont.setAt rest new)) g.fields)
    (hcan : C.CanSet t Γ.lo key ((g.cont.slotAt rest).map key) new P R) :
    C.rg.wp live t (typed n p)
      (fun b y => b = a ∧ C.At live t (Γ.setLeaf n g F rest new) R y) x :=
  wp_typed_commit (D := fun F => Γ.setLeaf n g F rest new)
    (G := { g with cont := g.cont.setAt rest new }) hx hc h.grasp hrun hturn
    (fun _ => Function.update_self _ _ _) rfl (fun _ => hc) (fun _ _ => setLeaf_write)
    fun _ _ _ hF hy hok => h.commits hc hlo hcan hF hy hok

end Leaf

end Client

end Artmap
