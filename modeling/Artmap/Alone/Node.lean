import Artmap.Alone.Memory
import Artmap.Raw.Walk

/-!
# A node as a finite map

From the outside the four layouts are the same: a node is a finite map from bytes to slots, with a
prefix and an exact leaf.  Whatever sequence of operations has built it, its searches answer what
that map answers, and a copy into a node of any layout with room for its children is the same map.
-/

namespace Artmap

open NodeM Content

/-! ## Operations -/

/-- What a writer does to one node. -/
inductive NodeOp where
  | insertChild (b : Byte) (s : Slot)
  | replaceChild (b : Byte) (s : Slot)
  | removeChild (b : Byte)
  | setExactLeaf (l : Option Leaf)
  | writePrefix (pre : List Byte)
  deriving DecidableEq

namespace NodeOp

/-- The code of an operation on a node of layout `ty`. -/
def code (ty : NodeType) : NodeOp → NodeM Unit
  | .insertChild b s => Artmap.insertChild ty b s
  | .replaceChild b s => Artmap.replaceChild ty b s
  | .removeChild b => Artmap.removeChild ty b
  | .setExactLeaf l => Artmap.setExactLeaf (Slot.ofOption l)
  | .writePrefix pre => Artmap.writePrefix pre

/-- What an operation does to the map. -/
def apply (c : Content) : NodeOp → Content
  | .insertChild b s => c.setChild b s
  | .replaceChild b s => c.setChild b s
  | .removeChild b => c.setChild b .null
  | .setExactLeaf l => { c with exact := l }
  | .writePrefix pre => { c with pre := pre }

/-- When an operation may be called: an absent byte is inserted into a node that is not full, a
present one is replaced, and neither gets a null slot. -/
def Allowed (ty : NodeType) (c : Content) : NodeOp → Prop
  | .insertChild b s => c.child b = .null ∧ s ≠ .null ∧ (bytes c.child).card < ty.capacity
  | .replaceChild b s => c.child b ≠ .null ∧ s ≠ .null
  | .removeChild _ => True
  | .setExactLeaf _ => True
  | .writePrefix pre => pre.length ≤ maxPrefixLen

/-- The code of a sequence of operations. -/
def codes (ty : NodeType) : List NodeOp → NodeM Unit
  | [] => return ()
  | op :: ops => do
    op.code ty
    codes ty ops

/-- What a sequence does to the map. -/
def applyAll (c : Content) (ops : List NodeOp) : Content :=
  ops.foldl apply c

/-- Every operation of a sequence may be called where it is. -/
def AllAllowed (ty : NodeType) (c : Content) : List NodeOp → Prop
  | [] => True
  | op :: ops => op.Allowed ty c ∧ AllAllowed ty (op.apply c) ops

variable {ty : NodeType} {F : Fields} {c : Content}

/-- **One operation** keeps the representation. -/
lemma run_code (h : Repr ty F c) (op : NodeOp) (ha : op.Allowed ty c) :
    ∃ F', (op.code ty).run F = some ((), F') ∧ Repr ty F' (op.apply c) := by
  cases op with
  | insertChild b s => exact h.insertChild ha.1 ha.2.1 ha.2.2
  | replaceChild b s => exact h.replaceChild ha.1 ha.2
  | removeChild b =>
    by_cases hb : c.child b = .null
    · refine ⟨F, h.removeChild_absent hb, ?_⟩
      have hsame : c.setChild b .null = c := by
        rw [Content.setChild, ← hb, Function.update_eq_self]
      rwa [apply, hsame]
    · exact h.removeChild hb
  | setExactLeaf l => exact h.setExactLeaf l
  | writePrefix pre => exact h.writePrefix ha

/-- A sequence of operations keeps it. -/
lemma run_codes (h : Repr ty F c) (ops : List NodeOp) (ha : AllAllowed ty c ops) :
    ∃ F', (codes ty ops).run F = some ((), F') ∧ Repr ty F' (applyAll c ops) := by
  induction ops generalizing F c with
  | nil => exact ⟨F, rfl, h⟩
  | cons op ops ih =>
    obtain ⟨F₁, hrun₁, h₁⟩ := run_code h op ha.1
    obtain ⟨F₂, hrun₂, h₂⟩ := ih h₁ ha.2
    refine ⟨F₂, ?_, h₂⟩
    simp only [codes, bind_eq, run_bind, hrun₁, Option.bind_some, hrun₂]

end NodeOp

/-! ## The children in order -/

/-- The children of a content from a byte on, in the order of the bytes. -/
def Content.listFrom (c : Content) (start : ℕ) : List (Byte × Slot) :=
  ((List.finRange 256).filter fun b => decide (start ≤ b.val ∧ c.child b ≠ .null)).map
    fun b => (b, c.child b)

/-- The children of a content, in the order of the bytes. -/
def Content.list (c : Content) : List (Byte × Slot) :=
  c.listFrom 0

variable {t : ℕ} {m : Mem} {c : Content} {n src dst : NodeId} {start : ℕ} {b : Byte} {s : Slot}

lemma Content.listFrom_nil (h : nextOf c.child start = none) : c.listFrom start = [] := by
  rw [nextOf_eq_none] at h
  unfold listFrom
  rw [List.map_eq_nil_iff, List.filter_eq_nil_iff]
  intro b _ hb
  obtain ⟨hs, hne⟩ := of_decide_eq_true hb
  exact hne (h b hs)

lemma Content.listFrom_cons (h : nextOf c.child start = some (b, s)) :
    c.listFrom start = (b, s) :: c.listFrom (b.val + 1) := by
  obtain ⟨hb, rfl, hne, hmin⟩ := nextOf_eq_some.mp h
  have hsorted : ∀ p : Byte → Bool, ((List.finRange 256).filter p).Pairwise (· < ·) := fun p =>
    (List.pairwise_lt_finRange 256).filter p
  -- Both are increasing, so the same bytes make the same list.
  have hfilter : (List.finRange 256).filter (fun x => decide (start ≤ x.val ∧ c.child x ≠ .null)) =
      b :: (List.finRange 256).filter
        fun x => decide (b.val + 1 ≤ x.val ∧ c.child x ≠ .null) := by
    refine List.Perm.eq_of_pairwise (fun x y _ _ h1 h2 => absurd h1 (lt_asymm h2))
      (hsorted _) (List.pairwise_cons.mpr ⟨fun x hx => ?_, hsorted _⟩) ?_
    · simp only [List.mem_filter, decide_eq_true_eq] at hx
      exact hx.2.1
    · refine (List.perm_ext_iff_of_nodup ((hsorted _).imp ne_of_lt)
        (List.nodup_cons.mpr ⟨by simp, (hsorted _).imp ne_of_lt⟩)).mpr fun x => ?_
      simp only [List.mem_cons, List.mem_filter, List.mem_finRange, true_and,
        decide_eq_true_eq]
      constructor
      · rintro ⟨h1, h2⟩
        rcases lt_trichotomy x b with hlt | heq | hgt
        · exact absurd (hmin x h1 hlt) h2
        · exact .inl heq
        · exact .inr ⟨hgt, h2⟩
      · rintro (rfl | ⟨h1, h2⟩)
        · exact ⟨hb, hne⟩
        · exact ⟨by omega, h2⟩
  unfold listFrom
  rw [hfilter, List.map_cons]

/-- The loop of `for_each_child`. -/
lemma alone_childrenFrom (h : Repr (m.tree.ty n) (m.tree.fields n) c) (fuel start : ℕ)
    (hfuel : 257 ≤ start + fuel) :
    Alone t (childrenFrom n fuel start) m (c.listFrom start) m := by
  induction fuel generalizing start with
  | zero =>
    rw [listFrom_nil (nextOf_eq_none.mpr fun b hb => absurd b.isLt (by omega))]
    exact .ret _ _
  | succ fuel ih =>
    refine .bind (alone_typed_read (h.run_nextChild start)) ?_
    cases hnext : nextOf c.child start with
    | none =>
      rw [listFrom_nil hnext]
      exact .ret _ _
    | some p =>
      obtain ⟨b, s⟩ := p
      have hb := (nextOf_eq_some.mp hnext).1
      rw [listFrom_cons hnext]
      exact .bind (ih (b.val + 1) (by omega)) (.ret _ _)

/-- `for_each_child` goes over the children in the order of their bytes. -/
lemma alone_children (h : Repr (m.tree.ty n) (m.tree.fields n) c) :
    Alone t (children n) m c.list m :=
  alone_childrenFrom h 257 0 (by omega)

/-! ## Copies -/

/-- The loop of `copy_into`. -/
lemma alone_copyChildren (hne : src ≠ dst) (h : Repr (m.tree.ty src) (m.tree.fields src) c)
    (hfit : (bytes c.child).card ≤ (m.tree.ty dst).capacity) (fuel start : ℕ)
    (hfuel : 257 ≤ fuel + start)
    (hd : Repr (m.tree.ty dst) (m.tree.fields dst) (c.below start)) :
    ∃ F, Alone t (copyChildren src dst fuel start) m () (m.setFields dst F) ∧
      Repr (m.tree.ty dst) F c := by
  induction fuel generalizing start m with
  | zero =>
    refine ⟨m.tree.fields dst, ?_, ?_⟩
    · rw [Mem.setFields_self]
      exact .ret _ _
    · rwa [below_all fun b hb => absurd b.isLt (by omega)] at hd
  | succ fuel ih =>
    cases hnext : nextOf c.child start with
    | none =>
      refine ⟨m.tree.fields dst, .bind (alone_typed_read (h.run_nextChild start)) ?_, ?_⟩
      · rw [hnext, Mem.setFields_self]
        exact .ret _ _
      · rwa [below_all (nextOf_eq_none.mp hnext)] at hd
    | some p =>
      obtain ⟨b, s⟩ := p
      obtain ⟨hnull, hset, hcard⟩ := c.below_next hnext
      obtain ⟨hb, -, hs, -⟩ := nextOf_eq_some.mp hnext
      obtain ⟨F₁, hrun, hF₁⟩ := hd.insertChild hnull hs (hcard.trans_le hfit)
      rw [hset] at hF₁
      have hsrc : (m.setFields dst F₁).tree.fields src = m.tree.fields src := by
        simp [hne]
      obtain ⟨F₂, hF₂, hrepr⟩ := ih (m := m.setFields dst F₁) (by rw [hsrc]; exact h) hfit
        (b.val + 1) (by omega) (by simpa using hF₁)
      rw [Mem.setFields_setFields] at hF₂
      refine ⟨F₂, .bind (alone_typed_read (h.run_nextChild start)) ?_, hrepr⟩
      rw [hnext]
      exact .bind (alone_typed hrun) hF₂

/-- `copy_into` makes an unpublished node with room the same map. -/
lemma alone_copyInto (hne : src ≠ dst) (h : Repr (m.tree.ty src) (m.tree.fields src) c)
    (hfit : (bytes c.child).card ≤ (m.tree.ty dst).capacity)
    (hd : m.tree.fields dst = Fields.fresh) :
    ∃ F, Alone t (copyInto src dst) m () (m.setFields dst F) ∧ Repr (m.tree.ty dst) F c := by
  obtain ⟨pre, hpre, hof⟩ := h.run_loadPrefix
  obtain ⟨F₁, hrun₁, hF₁⟩ := (Repr.fresh (m.tree.ty dst)).writePrefix h.pre_fits
  obtain ⟨F₂, hrun₂, hF₂⟩ := hF₁.setExactLeaf c.exact
  have hsrc : ∀ F, (m.setFields dst F).tree.fields src = m.tree.fields src := fun F => by
    simp [hne]
  have hbelow : c.below 0 = { Content.fresh with pre := c.pre, exact := c.exact } := by
    simp [Content.below, Content.fresh]
  obtain ⟨F, hrun, hF⟩ := alone_copyChildren (t := t) (m := m.setFields dst F₂) hne
    (by rw [hsrc]; exact h) hfit 257 0 (by omega) (by rw [hbelow]; simpa using hF₂)
  rw [Mem.setFields_setFields] at hrun
  have h₁ : Alone t (onNode dst (writePrefix pre.asSlice)) m () (m.setFields dst F₁) := by
    refine alone_onNode ?_
    rw [hd, hof.asSlice, hrun₁]
  have h₂ : Alone t (onNode src exactLeaf) (m.setFields dst F₁) (Slot.ofOption c.exact)
      (m.setFields dst F₁) := by
    refine alone_onNode_read ?_
    rw [hsrc, h.run_exactLeaf]
  have h₃ : Alone t (onNode dst (setExactLeaf (Slot.ofOption c.exact))) (m.setFields dst F₁) ()
      (m.setFields dst F₂) := by
    have := alone_onNode (t := t) (m := m.setFields dst F₁) (n := dst) (a := ()) (F := F₂)
      (q := setExactLeaf (Slot.ofOption c.exact)) (by simpa using hrun₂)
    rwa [Mem.setFields_setFields] at this
  exact ⟨F, .bind (alone_onNode_read hpre) (.bind h₁ (.bind h₂ (.bind h₃ hrun))), hF⟩

/-- **The four layouts are one finite map.**  A fresh node of any layout, after any sequence of
operations each of which may be called where it is, satisfies the invariant of its layout for the
map that the sequence makes.  Every search answers what that map answers: the child at a byte, the
first one from a byte on, the last one up to a byte, all of them in order, whether an entry is the
last one, and what is left besides it.  A copy into a fresh node of any layout with room for the
children is the same map, with the same prefix and the same exact leaf. -/
theorem node_is_map (ty : NodeType) (ops : List NodeOp)
    (ha : NodeOp.AllAllowed ty Content.fresh ops) :
    let c := NodeOp.applyAll Content.fresh ops
    ∃ F, (NodeOp.codes ty ops).run Fields.fresh = some ((), F) ∧ Repr ty F c ∧
      (∀ b, (findChild ty b).run F = some (c.child b, F)) ∧
      (∀ start, (nextChild ty start).run F = some (nextOf c.child start, F)) ∧
      (∀ upto, (prevChild ty upto).run F = some (prevOf c.child upto, F)) ∧
      (∀ taken, (∀ b, taken = .child b → c.child b ≠ .null) →
        ∃ r, (emptiedBy ty taken).run F = some (r, F) ∧ (r = true ↔ (c.without taken).Empty)) ∧
      (∀ taken, ∃ r, (restOf ty taken).run F = some (r, F) ∧ r.Of (c.without taken)) ∧
      ∀ t m n, m.tree.ty n = ty → m.tree.fields n = F →
        Alone t (children n) m c.list m ∧
        ∀ dst, n ≠ dst → m.tree.fields dst = Fields.fresh →
          (bytes c.child).card ≤ (m.tree.ty dst).capacity →
          ∃ F', Alone t (copyInto n dst) m () (m.setFields dst F') ∧
            Repr (m.tree.ty dst) F' c := by
  obtain ⟨F, hrun, h⟩ := NodeOp.run_codes (Repr.fresh ty) ops ha
  refine ⟨F, hrun, h, h.run_findChild, h.run_nextChild, h.run_prevChild,
    fun taken ht => h.run_emptiedBy ht, h.run_restOf, fun t m n hty hF => ?_⟩
  have hn : Repr (m.tree.ty n) (m.tree.fields n) (NodeOp.applyAll Content.fresh ops) := by
    rw [hty, hF]
    exact h
  exact ⟨alone_children hn, fun dst hne hd hfit => alone_copyInto hne hn hfit hd⟩

/-- Two children are inserted, one is replaced, the other one is removed, and one that is not
there. -/
theorem node_is_map_pair : ∃ F,
    (NodeOp.codes .node48 [.insertChild 255 (.leaf ⟨0, [255]⟩), .insertChild 7 (.leaf ⟨1, [7]⟩),
      .replaceChild 255 (.leaf ⟨2, [255]⟩), .removeChild 7, .removeChild 0]).run
      Fields.fresh = some ((), F) ∧
    (findChild .node48 255).run F = some (.leaf ⟨2, [255]⟩, F) ∧
    (findChild .node48 7).run F = some (.null, F) ∧
    (nextChild .node48 0).run F = some (some (255, .leaf ⟨2, [255]⟩), F) := by
  obtain ⟨F, hrun, -, hfind, hnext, -⟩ := node_is_map .node48
    [.insertChild 255 (.leaf ⟨0, [255]⟩), .insertChild 7 (.leaf ⟨1, [7]⟩),
      .replaceChild 255 (.leaf ⟨2, [255]⟩), .removeChild 7, .removeChild 0]
    ⟨⟨by decide, by decide, by decide⟩, ⟨by decide, by decide, by decide⟩,
      ⟨by decide, by decide⟩, trivial, trivial, trivial⟩
  refine ⟨F, hrun, hfind 255, hfind 7, (hnext 0).trans (congrArg (fun o => some (o, F)) ?_)⟩
  exact nextOf_eq_some.mpr ⟨Nat.zero_le _, rfl, by simp, by decide +kernel⟩

end Artmap
