import Artmap.Framework.RelyGuarantee
import Artmap.Raw.Walk
import Artmap.Shadow.Commit

/-!
# Clients of a tree

The operations of a tree are used by several kinds of maps, which differ in what they keep
with the leaves and in what their operations mean.  A `Client` is such a map: its operations,
its part of the memory, and its own ghost state, invariant and rely relation.  Of the tree it
sees a `View` only: the current epoch, the map of every epoch, which keys are frozen, what the
words of nodes vouch for, and whether there is room for every node.

`Client.rg` is the rely-guarantee assignment of a client over a tree.  The operations of the
tree are proved once, for every client: where an operation takes effect, the client has to
bring an `Upd`, a step of its own ghost state that fits the step of the view.
-/

namespace Artmap

/-- What is seen of a tree from outside. -/
structure View where
  cur : ℕ
  map : ℕ → Key → Option Leaf
  frozen : ℕ → Key → Prop
  hinted : NodeId → ℕ → ℕ → List Byte → Prop
  roomy : Prop

namespace View

/-- Nothing but the freezing of further keys, and further hints. -/
structure Freezes (v v' : View) : Prop where
  cur : v'.cur = v.cur
  map : v'.map = v.map
  frozen : ∀ e k, v.frozen e k → v'.frozen e k
  hinted : ∀ n w e p, v.hinted n w e p → v'.hinted n w e p
  roomy : v'.roomy = v.roomy

/-- The map of an epoch changes at one key. -/
def set (v : View) (e : ℕ) (k : Key) (r : Option Leaf) : View :=
  { v with map := Function.update v.map e (Function.update (v.map e) k r) }

/-- A new epoch begins. -/
def detach (v : View) : View :=
  { v with cur := v.cur + 1 }

/-- What a cache says is right. -/
def Vouches (v : View) (c : InserterCache) : Prop :=
  ∀ h, c.hint = some h → ∃ e, v.hinted h.node h.version e (c.path.take h.depth)

end View

/-- What the caches of the inserters say is right. -/
def CacheInv (m : LeafMem) (v : View) : Prop :=
  ∀ i, v.Vouches (m.caches i)

lemma CacheInv.mono {m m' : LeafMem} {u v : View} (h : CacheInv m u)
    (hm : m'.caches = m.caches)
    (hv : ∀ n w e p, u.hinted n w e p → v.hinted n w e p) : CacheInv m' v := by
  intro i k hk
  rw [hm] at hk ⊢
  obtain ⟨e, he⟩ := h i k hk
  exact ⟨e, hv _ _ _ _ he⟩

/-- The world as a client sees it. -/
structure Scene (Op Ret G : Type) where
  leafs : LeafMem
  hist : List (Event Op Ret)
  view : View
  ghost : G

/-- A map over a tree. -/
structure Client where
  Op : Type
  Ret : Type
  code : Op → TreeM Ret
  /-- What the invocation of an operation does to the memory. -/
  start : ℕ → Op → LeafMem → LeafMem → Prop
  Ghost : Type
  Inv : Scene Op Ret Ghost → Prop
  Rely : ℕ → Scene Op Ret Ghost → Scene Op Ret Ghost → Prop
  refl : ∀ t x, Rely t x x
  trans : ∀ {t x y z}, Rely t x y → Rely t y z → Rely t x z
  /-- The call that a thread is running. -/
  tag : Ghost → ℕ → Option (ℕ × Op)
  tag_rely : ∀ {t x y}, Rely t x y → tag y.ghost t = tag x.ghost t
  /-- The key that an operation may take out. -/
  takes : Op → Option Key
  /-- The operations that detach the tree. -/
  clears : Op → Prop
  freeze_inv : ∀ {x v}, x.view.Freezes v → Inv x → Inv { x with view := v }
  freeze_rely : ∀ {t x v}, x.view.Freezes v → Rely t x { x with view := v }
  /-- What holds whenever a thread is about to take a step around the tree. -/
  Allowed : ℕ → LeafAct → Scene Op Ret Ghost → Prop

namespace Client

variable (C : Client)

/-- The scenes of a client. -/
abbrev Sc : Type := Scene C.Op C.Ret C.Ghost

/-- The concurrent object of a client. -/
@[reducible] def object : Object Act where
  Mem := Mem
  exec t := exec t
  Op := C.Op
  Ret := C.Ret
  code := C.code
  start t op m m' := m'.tree = m.tree ∧ C.start t op m.leafs m'.leafs

/-- Memory, history and the ghost state of tree and client. -/
abbrev W : Type := World C.object (Shadow × C.Ghost)

variable {C}

/-- The memory of the tree. -/
def tree (x : C.W) : TreeMem := Mem.tree x.mem

/-- The shadow of the tree. -/
def shadow (x : C.W) : Shadow := x.ghost.1

/-- A tree from outside. -/
def viewOf (m : TreeMem) (S : Shadow) : View where
  cur := S.cur
  map := S.forest.map
  frozen := S.Frozen m
  hinted := S.Hinted m
  roomy := ∀ i, m.full i = false

/-- The world as the client sees it. -/
def scene (x : C.W) : C.Sc where
  leafs := Mem.leafs x.mem
  hist := x.hist
  view := viewOf (tree x) (shadow x)
  ghost := x.ghost.2

variable (C)

/-- Thread `t` runs an operation that may take out key `k`. -/
def Taking (g : C.Ghost) (t : ℕ) (k : Key) : Prop :=
  ∃ id op, C.tag g t = some (id, op) ∧ C.takes op = some k

/-- Thread `t` runs an operation that detaches the tree. -/
def Clearing (g : C.Ghost) (t : ℕ) : Prop :=
  ∃ id op, C.tag g t = some (id, op) ∧ C.clears op

/-- The invariant of a tree with a client. -/
structure WInv (x : C.W) : Prop where
  tree : (shadow x).Inv (tree x)
  client : C.Inv (scene x)
  idle : ∀ t, C.tag x.ghost.2 t = none → (shadow x).Clean t
  /-- Only operations that take out keys have something to follow up. -/
  taking : ∀ t e k, (shadow x).follow t = some (e, k) → C.Taking x.ghost.2 t k
  clearing : ∀ t e, (shadow x).clearer e = some t → C.Clearing x.ghost.2 t

/-- What the steps of thread `t` are known by. -/
structure Own (t : ℕ) (x y : C.W) : Prop where
  /-- Only a step that vacates a node leaves something to follow up. -/
  follow : ∀ e k, (shadow y).follow t = some (e, k) →
    (shadow x).follow t = some (e, k) ∨ Vacates (tree x) (tree y)
  turn : ∀ l, Turn ((tree x).latch l) ((tree y).latch l)

/-- When a step may be taken: a thread that waits for a latch holds none. -/
def MayTake (t : ℕ) (x : C.W) : {β : Type} → Act β → Prop
  | _, .tree _ => True
  | _, .leaf a => C.Allowed t a (scene x)
  | _, .wait _ => ∀ l, (shadow x).owner l ≠ some t

/-- The rely-guarantee assignment of a client over a tree. -/
@[reducible] def rg : RG C.object where
  Ghost := Shadow × C.Ghost
  Inv := C.WInv
  Rely t x y := Shadow.Rely t (Client.tree x) (shadow x) (Client.tree y) (shadow y) ∧
    C.Rely t (scene x) (scene y)
  refl t _ := ⟨Shadow.Rely.refl t _ _, C.refl t _⟩
  trans h h' := ⟨h.1.trans h'.1, C.trans h.2 h'.2⟩
  tag g := C.tag g.2
  tag_rely h := C.tag_rely h.2
  Allowed t _ a x := C.MayTake t x a
  Own := C.Own

/-- An assertion about the client's side that thread `t` can rely on. -/
structure Assertion (t : ℕ) where
  holds : C.Sc → Prop
  stable : ∀ {x y}, C.Rely t x y → holds x → holds y

instance (t : ℕ) : CoeFun (C.Assertion t) fun _ => C.Sc → Prop := ⟨Assertion.holds⟩

variable {C} {live : Bool} {t : ℕ} {x y : C.W}

/-- The client can take a step of its own along with a step of thread `t`, to establish
`Q`. -/
def Upd (t : ℕ) (x : C.Sc) (leafs : LeafMem) (v : View) (Q : C.Sc → Prop) : Prop :=
  ∃ g, C.Inv ⟨leafs, x.hist, v, g⟩ ∧ (∀ t', t' ≠ t → C.Rely t' x ⟨leafs, x.hist, v, g⟩) ∧
    C.tag g t = C.tag x.ghost t ∧ Q ⟨leafs, x.hist, v, g⟩

lemma Upd.rfl {x : C.Sc} {Q : C.Sc → Prop} (hi : C.Inv x) (hQ : Q x) :
    Upd t x x.leafs x.view Q :=
  ⟨x.ghost, hi, fun t' _ => C.refl t' x, Eq.refl _, hQ⟩

lemma Upd.mono {x : C.Sc} {leafs : LeafMem} {v : View} {Q Q' : C.Sc → Prop}
    (h : Upd t x leafs v Q) (hQ : ∀ z, Q z → Q' z) : Upd t x leafs v Q' := by
  obtain ⟨g, h1, h2, h3, h4⟩ := h
  exact ⟨g, h1, h2, h3, hQ _ h4⟩

lemma Upd.freeze {x : C.Sc} {leafs : LeafMem} {v v' : View} {Q : C.Assertion t}
    (h : Upd t x leafs v Q) (hv : v.Freezes v') : Upd t x leafs v' Q := by
  obtain ⟨g, h1, h2, h3, h4⟩ := h
  refine ⟨g, C.freeze_inv (x := ⟨leafs, x.hist, v, g⟩) hv h1, fun t' ht => ?_, h3, ?_⟩
  · exact C.trans (h2 t' ht) (C.freeze_rely (x := ⟨leafs, x.hist, v, g⟩) hv)
  · exact Q.stable (C.freeze_rely (x := ⟨leafs, x.hist, v, g⟩) hv) h4

/-- The client moves alone, for a thread that has nothing in its hands. -/
lemma WInv.move {m : Mem} {h : List (Event C.Op C.Ret)} {g : C.Ghost} (hi : C.WInv x)
    (htree : m.tree = Client.tree x) (hclean : (shadow x).Clean t)
    (hinv : C.Inv ⟨m.leafs, h, (scene x).view, g⟩)
    (hrely : ∀ t', t' ≠ t → C.Rely t' (scene x) ⟨m.leafs, h, (scene x).view, g⟩) :
    C.WInv ⟨m, h, (x.ghost.1, g)⟩ ∧
      (∀ t', t' ≠ t → C.rg.Rely t' x ⟨m, h, (x.ghost.1, g)⟩) ∧
      C.Own t x ⟨m, h, (x.ghost.1, g)⟩ := by
  obtain ⟨tr, leafs⟩ := m
  obtain rfl : tr = Client.tree x := htree
  have htag : ∀ t', t' ≠ t → C.tag g t' = C.tag x.ghost.2 t' := fun t' ht' =>
    C.tag_rely (hrely t' ht')
  refine ⟨⟨hi.tree, hinv, fun t' ht' => ?_, fun t' e k hk => ?_, fun t' e he => ?_⟩,
    fun t' ht' => ⟨.refl t' _ _, hrely t' ht'⟩, fun e k hk => .inl hk, fun _ => .inl rfl⟩
  · by_cases hne : t' = t
    · subst hne
      exact hclean
    · exact hi.idle t' ((htag t' hne).symm.trans ht')
  · have hne : t' ≠ t := by
      rintro rfl
      exact absurd (hclean.follow.symm.trans hk) (by simp)
    obtain ⟨id, op, h1, h2⟩ := hi.taking t' e k hk
    exact ⟨id, op, (htag t' hne).trans h1, h2⟩
  · have hne : t' ≠ t := by
      rintro rfl
      exact hclean.clearer e he
    obtain ⟨id, op, h1, h2⟩ := hi.clearing t' e he
    exact ⟨id, op, (htag t' hne).trans h1, h2⟩

/-! ## Steps -/

/-- What thread `t` finds after its step to `(m, S)`: others may have worked on the tree. -/
structure Later (live : Bool) (t : ℕ) (m : TreeMem) (S : Shadow) (y : C.W) : Prop where
  rely : Shadow.Rely t m S (tree y) (shadow y)
  alone : live = true → tree y = m ∧ shadow y = S

lemma Later.refl (x : C.W) : Later live t (tree x) (shadow x) x :=
  ⟨Shadow.Rely.refl t _ _, fun _ => ⟨rfl, rfl⟩⟩

lemma Later.trans {m : TreeMem} {S : Shadow} (h : Later live t m S x)
    (h' : Later live t (tree x) (shadow x) y) : Later live t m S y := by
  refine ⟨h.rely.trans h'.rely, fun hl => ?_⟩
  obtain ⟨h1, h2⟩ := h.alone hl
  obtain ⟨h3, h4⟩ := h'.alone hl
  exact ⟨h3.trans h1, h4.trans h2⟩

/-- A step on the tree, with a step of the client that fits the new view. -/
lemma wp_tree_view {a : TreeAct} {S : Shadow} {P : C.Assertion t}
    {Q : a.Ans → C.W → Prop} (hok : C.rg.Ok live t x)
    (hown : Shadow.Own t (tree x) (shadow x) (execTree a (tree x)).2 S)
    (hinv : S.Inv (execTree a (tree x)).2)
    (hupd : Upd t (scene x) (scene x).leafs (viewOf (execTree a (tree x)).2 S) P)
    (hfollow : ∀ e k, S.follow t = some (e, k) → (shadow x).follow t ≠ some (e, k) →
      C.Taking x.ghost.2 t k ∧ Vacates (tree x) (execTree a (tree x)).2)
    (hclearer : ∀ e, S.clearer e = some t → (shadow x).clearer e ≠ some t →
      C.Clearing x.ghost.2 t)
    (hQ : ∀ y, Later live t (execTree a (tree x)).2 S y → P (scene y) →
      Q (execTree a (tree x)).1 y) :
    C.rg.wp live t (onTree a) Q x := by
  have hi : C.WInv x := hok.inv
  obtain ⟨g, h1, h2, h3, h4⟩ := hupd
  have hrely : ∀ t', t' ≠ t → C.rg.Rely t' x
      ⟨(⟨(execTree a (tree x)).2, Mem.leafs x.mem⟩ : Mem), x.hist, (S, g)⟩ :=
    fun t' ht => ⟨hown.rely hi.tree ht, h2 t' ht⟩
  have hstep : C.Own t x
      ⟨(⟨(execTree a (tree x)).2, Mem.leafs x.mem⟩ : Mem), x.hist, (S, g)⟩ := by
    refine ⟨fun e k hk => ?_, hown.turn⟩
    by_cases hold : (shadow x).follow t = some (e, k)
    · exact .inl hold
    · exact .inr (hfollow e k hk hold).2
  refine RG.wp_perform trivial (S, g) ⟨hrely, h3, hstep⟩ ⟨hinv, h1, ?_, ?_, ?_⟩ ?_
  · intro t' ht'
    by_cases htt : t' = t
    · subst htt
      exact absurd (h3.symm.trans ht') hok.running
    · have htag : C.tag g t' = C.tag x.ghost.2 t' := C.tag_rely (hrely t' htt).2
      exact (hrely t' htt).1.clean (hi.idle t' (htag.symm.trans ht'))
  · intro t' e k hk
    by_cases htt : t' = t
    · subst htt
      have hT : C.Taking x.ghost.2 t' k := by
        by_cases hold : (shadow x).follow t' = some (e, k)
        · exact hi.taking t' e k hold
        · exact (hfollow e k hk hold).1
      obtain ⟨id, op, hT1, hT2⟩ := hT
      exact ⟨id, op, h3.trans hT1, hT2⟩
    · have hold : (shadow x).follow t' = some (e, k) := by
        rw [← hown.follow t' htt]
        exact hk
      obtain ⟨id, op, hT1, hT2⟩ := hi.taking t' e k hold
      have htag : C.tag g t' = C.tag x.ghost.2 t' := C.tag_rely (hrely t' htt).2
      exact ⟨id, op, htag.trans hT1, hT2⟩
  · intro t' e he
    by_cases htt : t' = t
    · subst htt
      have hT : C.Clearing x.ghost.2 t' := by
        by_cases hold : (shadow x).clearer e = some t'
        · exact hi.clearing t' e hold
        · exact hclearer e he hold
      obtain ⟨id, op, hT1, hT2⟩ := hT
      exact ⟨id, op, h3.trans hT1, hT2⟩
    · have hold := ((hrely t' htt).1.clearer_iff e).mp he
      obtain ⟨id, op, hT1, hT2⟩ := hi.clearing t' e hold
      have htag : C.tag g t' = C.tag x.ghost.2 t' := C.tag_rely (hrely t' htt).2
      exact ⟨id, op, htag.trans hT1, hT2⟩
  · intro y hy _
    refine hQ y ⟨hy.1.1, fun hl => ?_⟩ (P.stable hy.1.2 h4)
    rw [hy.2 hl]
    exact ⟨rfl, rfl⟩

/-- A step on the tree, with a step of the client. -/
lemma wp_tree {a : TreeAct} {S : Shadow} {P : C.Assertion t}
    {Q : a.Ans → C.W → Prop} (hok : C.rg.Ok live t x)
    (hown : Shadow.Own t (tree x) (shadow x) (execTree a (tree x)).2 S)
    (hinv : S.Inv (execTree a (tree x)).2)
    (hupd : Upd t (scene x) (scene x).leafs
      { (scene x).view with cur := S.cur, map := S.forest.map } P)
    (hfrozen : ∀ e k, (shadow x).Frozen (tree x) e k → S.Frozen (execTree a (tree x)).2 e k)
    (hfollow : ∀ e k, S.follow t = some (e, k) → (shadow x).follow t ≠ some (e, k) →
      C.Taking x.ghost.2 t k ∧ Vacates (tree x) (execTree a (tree x)).2)
    (hQ : ∀ y, Later live t (execTree a (tree x)).2 S y → P (scene y) →
      Q (execTree a (tree x)).1 y)
    (hclearer : S.clearer = (shadow x).clearer := by rfl) :
    C.rg.wp live t (onTree a) Q x := by
  have hi : C.WInv x := hok.inv
  have hfr : View.Freezes { (scene x).view with cur := S.cur, map := S.forest.map }
      (viewOf (execTree a (tree x)).2 S) :=
    { cur := rfl, map := rfl, frozen := hfrozen
      hinted := fun n w e p h => hown.hinted hi.tree h
      roomy := by
        show (∀ i, _) = (∀ i, _)
        rw [hown.full] }
  exact wp_tree_view hok hown hinv (hupd.freeze hfr) hfollow
    (fun e h1 h2 => absurd (hclearer ▸ h1) h2) hQ

/-- A step on the memory around the tree, with a step of the client and of the shadow. -/
lemma wp_leaf_shadow {a : LeafAct} {S : Shadow} {P : C.Assertion t} {Q : a.Ans → C.W → Prop}
    (hok : C.rg.Ok live t x) (hallowed : C.Allowed t a (scene x))
    (hown : Shadow.Own t (tree x) (shadow x) (tree x) S) (hinv : S.Inv (tree x))
    (hfollow : S.follow = (shadow x).follow)
    (hclearer : ∀ e, S.clearer e = some t → (shadow x).clearer e = some t)
    (hupd : Upd t (scene x) (execLeaf t a (scene x).leafs).2 (viewOf (tree x) S) P)
    (hQ : ∀ y, Later live t (tree x) S y → P (scene y) →
      Q (execLeaf t a (scene x).leafs).1 y) :
    C.rg.wp live t (onLeaf a) Q x := by
  have hi : C.WInv x := hok.inv
  obtain ⟨g, h1, h2, h3, h4⟩ := hupd
  have hrely : ∀ t', t' ≠ t → C.rg.Rely t' x
      ⟨(⟨Mem.tree x.mem, (execLeaf t a (Mem.leafs x.mem)).2⟩ : Mem), x.hist, (S, g)⟩ :=
    fun t' ht => ⟨hown.rely hi.tree ht, h2 t' ht⟩
  have hstep : C.Own t x
      ⟨(⟨Mem.tree x.mem, (execLeaf t a (Mem.leafs x.mem)).2⟩ : Mem), x.hist, (S, g)⟩ :=
    ⟨fun e k hk => .inl ((congrFun hfollow t).symm.trans hk), fun _ => .inl rfl⟩
  refine RG.wp_perform hallowed (S, g) ⟨hrely, h3, hstep⟩ ⟨hinv, h1, ?_, ?_, ?_⟩ ?_
  · intro t' ht'
    by_cases htt : t' = t
    · subst htt
      exact absurd (h3.symm.trans ht') hok.running
    · have htag : C.tag g t' = C.tag x.ghost.2 t' := C.tag_rely (hrely t' htt).2
      exact (hrely t' htt).1.clean (hi.idle t' (htag.symm.trans ht'))
  · intro t' e k hk
    have hk' : (shadow x).follow t' = some (e, k) := by
      rw [← hfollow]
      exact hk
    obtain ⟨id, op, hT1, hT2⟩ := hi.taking t' e k hk'
    refine ⟨id, op, ?_, hT2⟩
    by_cases htt : t' = t
    · subst htt
      exact h3.trans hT1
    · exact (C.tag_rely (hrely t' htt).2 : C.tag g t' = C.tag x.ghost.2 t').trans hT1
  · intro t' e he
    by_cases htt : t' = t
    · subst htt
      obtain ⟨id, op, hT1, hT2⟩ := hi.clearing t' e (hclearer e he)
      exact ⟨id, op, h3.trans hT1, hT2⟩
    · obtain ⟨id, op, hT1, hT2⟩ := hi.clearing t' e (((hrely t' htt).1.clearer_iff e).mp he)
      have htag : C.tag g t' = C.tag x.ghost.2 t' := C.tag_rely (hrely t' htt).2
      exact ⟨id, op, htag.trans hT1, hT2⟩
  · intro y hy _
    refine hQ y ⟨hy.1.1, fun hl => ?_⟩ (P.stable hy.1.2 h4)
    rw [hy.2 hl]
    exact ⟨rfl, rfl⟩

/-- A step on the memory around the tree, with a step of the client. -/
lemma wp_leaf {a : LeafAct} {P : C.Assertion t} {Q : a.Ans → C.W → Prop}
    (hok : C.rg.Ok live t x) (hallowed : C.Allowed t a (scene x))
    (hupd : Upd t (scene x) (execLeaf t a (scene x).leafs).2 (scene x).view P)
    (hQ : ∀ y, Later live t (tree x) (shadow x) y → P (scene y) →
      Q (execLeaf t a (scene x).leafs).1 y) :
    C.rg.wp live t (onLeaf a) Q x := by
  have hi : C.WInv x := hok.inv
  exact wp_leaf_shadow hok hallowed (.refl hi.tree) hi.tree rfl (fun _ h => h) hupd hQ

/-- Waiting for a latch, without holding any. -/
lemma wp_wait {l : LatchId} {Q : Unit → C.W → Prop} (hfree : ∀ l, (shadow x).owner l ≠ some t)
    (hQ : ∀ y, C.rg.Interfere live t x y → Q () y) :
    C.rg.wp live t (Prog.perform (Act.wait l)) Q x :=
  RG.wp_intro fun hok => RG.wp_perform hfree x.ghost
    ⟨fun t' _ => C.rg.refl t' x, rfl, ⟨fun _ _ hk => .inl hk, fun _ => .inl rfl⟩⟩ hok.inv
    fun y hy _ => hQ y hy

end Client

end Artmap
