import Artmap.Raw.Node
import Mathlib.Tactic

/-!
# What a node stands for

Each of the four layouts stores the same thing (`Content`): a prefix of at most sixteen
bytes, the leaf whose key ends at the node, and a slot for every byte, null where there is no
child.  This module has the content, the successor and predecessor of a byte in it, and the
rules for running node programs; the representation of a content by the fields of a node is in
the next one.
-/

namespace Artmap

/-- What a node stands for. -/
structure Content where
  pre : List Byte
  exact : Option Leaf
  child : Byte → Slot

namespace Content

/-- The content of a fresh node. -/
def fresh : Content where
  pre := []
  exact := none
  child := fun _ => .null

/-- The bytes that have a child. -/
def bytes (child : Byte → Slot) : Finset Byte :=
  Finset.univ.filter fun b => child b ≠ .null

/-- A node without entries. -/
def Empty (c : Content) : Prop :=
  c.exact = none ∧ ∀ b, c.child b = .null

/-- The content with another child at byte `b`. -/
def setChild (c : Content) (b : Byte) (s : Slot) : Content :=
  { c with child := Function.update c.child b s }

@[simp] lemma setChild_pre (c : Content) (b : Byte) (s : Slot) : (c.setChild b s).pre = c.pre :=
  rfl

@[simp] lemma setChild_exact (c : Content) (b : Byte) (s : Slot) :
    (c.setChild b s).exact = c.exact := rfl

@[simp] lemma setChild_child (c : Content) (b : Byte) (s : Slot) :
    (c.setChild b s).child = Function.update c.child b s := rfl

@[simp] lemma mem_bytes {child : Byte → Slot} {b : Byte} :
    b ∈ bytes child ↔ child b ≠ .null := by
  simp [bytes]

lemma bytes_update_of_ne {child : Byte → Slot} {b : Byte} {s : Slot} (hs : s ≠ .null) :
    bytes (Function.update child b s) = insert b (bytes child) := by
  ext x
  by_cases hx : x = b
  · simp [hx, hs]
  · simp [hx]

lemma bytes_update_null {child : Byte → Slot} {b : Byte} :
    bytes (Function.update child b .null) = (bytes child).erase b := by
  ext x
  by_cases hx : x = b
  · simp [hx]
  · simp [hx]

lemma bytes_eq_empty {child : Byte → Slot} :
    (bytes child).card = 0 ↔ ∀ b, child b = .null := by
  rw [Finset.card_eq_zero, Finset.eq_empty_iff_forall_notMem]
  simp

/-! ## Successor and predecessor -/

/-- The first child whose byte is `start` or more. -/
def nextOf (child : Byte → Slot) (start : ℕ) : Option (Byte × Slot) :=
  ((List.finRange 256).find? fun b => decide (start ≤ b.val ∧ child b ≠ .null)).map
    fun b => (b, child b)

/-- The last child whose byte is `upto` or less. -/
def prevOf (child : Byte → Slot) (upto : Byte) : Option (Byte × Slot) :=
  ((List.finRange 256).reverse.find? fun b => decide (b ≤ upto ∧ child b ≠ .null)).map
    fun b => (b, child b)

lemma nextOf_eq_none {child : Byte → Slot} {start : ℕ} :
    nextOf child start = none ↔ ∀ b : Byte, start ≤ b.val → child b = .null := by
  simp [nextOf]

lemma nextOf_eq_some {child : Byte → Slot} {start : ℕ} {b : Byte} {s : Slot} :
    nextOf child start = some (b, s) ↔
      start ≤ b.val ∧ child b = s ∧ s ≠ .null ∧
        ∀ x : Byte, start ≤ x.val → x < b → child x = .null := by
  simp only [nextOf, Option.map_eq_some_iff, Prod.mk.injEq]
  constructor
  · rintro ⟨b', hf, rfl, rfl⟩
    rw [List.find?_eq_some_iff_getElem] at hf
    obtain ⟨hp, i, hi, hib, hmin⟩ := hf
    simp only [decide_eq_true_eq] at hp
    refine ⟨hp.1, rfl, hp.2, fun x hx hlt => ?_⟩
    have hib' : i = b'.val := by
      have := congrArg Fin.val hib
      simpa using this
    have hxi : x.val < i := by
      rw [hib']
      exact hlt
    have := hmin x.val hxi
    simp only [List.getElem_finRange, Fin.cast_mk, Fin.eta, Bool.not_eq_true',
      decide_eq_false_iff_not, not_and, not_not] at this
    exact this hx
  · rintro ⟨h1, rfl, h3, h4⟩
    refine ⟨b, ?_, rfl, rfl⟩
    rw [List.find?_eq_some_iff_getElem]
    refine ⟨by simp [h1, h3], b.val, by simp, by simp, fun j hj => ?_⟩
    have hj' : j < 256 := lt_trans hj b.isLt
    simp only [List.getElem_finRange, Fin.cast_mk, Bool.not_eq_true', decide_eq_false_iff_not,
      not_and, not_not]
    intro hs
    exact h4 ⟨j, hj'⟩ hs hj

lemma prevOf_eq_none {child : Byte → Slot} {upto : Byte} :
    prevOf child upto = none ↔ ∀ b ≤ upto, child b = .null := by
  simp [prevOf]

lemma prevOf_eq_some {child : Byte → Slot} {upto b : Byte} {s : Slot} :
    prevOf child upto = some (b, s) ↔
      b ≤ upto ∧ child b = s ∧ s ≠ .null ∧ ∀ x ≤ upto, b < x → child x = .null := by
  simp only [prevOf, Option.map_eq_some_iff, Prod.mk.injEq]
  constructor
  · rintro ⟨b', hf, rfl, rfl⟩
    rw [List.find?_eq_some_iff_getElem] at hf
    obtain ⟨hp, i, hi, hib, hmin⟩ := hf
    simp only [decide_eq_true_eq] at hp
    refine ⟨hp.1, rfl, hp.2, fun x hx hlt => ?_⟩
    have hib' : 255 - i = b'.val := by
      have := congrArg Fin.val hib
      simpa using this
    have hlt' : b'.val < x.val := hlt
    have hxi : 255 - x.val < i := by omega
    have := hmin (255 - x.val) hxi
    have hx' : 255 - (255 - x.val) = x.val := by omega
    simp only [List.getElem_reverse, List.length_finRange, List.getElem_finRange, Fin.cast_mk,
      Bool.not_eq_true', decide_eq_false_iff_not, not_and, not_not] at this
    simp only [show (256 - 1 - (255 - x.val)) = x.val by omega, Fin.eta] at this
    exact this hx
  · rintro ⟨h1, rfl, h3, h4⟩
    refine ⟨b, ?_, rfl, rfl⟩
    rw [List.find?_eq_some_iff_getElem]
    have hb := b.isLt
    refine ⟨by simp [h1, h3], 255 - b.val, by simp; omega, ?_, fun j hj => ?_⟩
    · apply Fin.ext
      simp
      omega
    · simp only [List.getElem_reverse, List.length_finRange, List.getElem_finRange, Fin.cast_mk,
        Bool.not_eq_true', decide_eq_false_iff_not, not_and, not_not]
      intro hs
      refine h4 _ hs ?_
      show b.val < 256 - 1 - j
      omega

end Content

/-! ## Running node programs -/

namespace NodeM

variable {α β : Type}

@[simp] lemma pure_eq (a : α) : (pure a : NodeM α) = ret a := rfl

@[simp] lemma bind_eq (p : NodeM α) (f : α → NodeM β) : (p >>= f) = p.bind f := rfl

@[simp] lemma run_ret (a : α) (F : Fields) : (ret a).run F = some (a, F) := rfl

@[simp] lemma run_fail (F : Fields) : (fail : NodeM α).run F = none := rfl

@[simp] lemma run_load (f : Field) (F : Fields) : (load f).run F = some (F f, F) := rfl

-- The same at the types that the fields have, for `simp`.

@[simp] lemma run_load_numChildren (F : Fields) :
    @run ℕ (load .numChildren) F = some (F .numChildren, F) := rfl

@[simp] lemma run_load_prefixLen (F : Fields) :
    @run ℕ (load .prefixLen) F = some (F .prefixLen, F) := rfl

@[simp] lemma run_load_prefixWord (i : Fin 2) (F : Fields) :
    @run Word8 (load (.prefixWord i)) F = some (F (.prefixWord i), F) := rfl

@[simp] lemma run_load_exactLeaf (F : Fields) :
    @run Slot (load .exactLeaf) F = some (F .exactLeaf, F) := rfl

@[simp] lemma run_load_keys4 (F : Fields) :
    @run (Fin 4 → Byte) (load .keys4) F = some (F .keys4, F) := rfl

@[simp] lemma run_load_keys16 (i : Fin 2) (F : Fields) :
    @run Word8 (load (.keys16 i)) F = some (F (.keys16 i), F) := rfl

@[simp] lemma run_load_childIndex (b : Byte) (F : Fields) :
    @run ℕ (load (.childIndex b)) F = some (F (.childIndex b), F) := rfl

@[simp] lemma run_load_bitmap (i : Fin 4) (F : Fields) :
    @run (BitVec 64) (load (.bitmap i)) F = some (F (.bitmap i), F) := rfl

@[simp] lemma run_load_child (i : ℕ) (F : Fields) :
    @run Slot (load (.child i)) F = some (F (.child i), F) := rfl

@[simp] lemma run_store (f : Field) (v : f.Val) (F : Fields) :
    (store f v).run F = some ((), Function.update F f v) := rfl

@[simp] lemma run_bind (p : NodeM α) (f : α → NodeM β) (F : Fields) :
    (p.bind f).run F = (p.run F).bind fun r => (f r.1).run r.2 := by
  induction p generalizing F with
  | ret a => rfl
  | ld fl k ih => exact ih _ F
  | st fl v k ih => exact ih _
  | fail => rfl

@[simp] lemma readOnly_ret (a : α) : (ret a).ReadOnly := trivial

@[simp] lemma readOnly_load (f : Field) : (load f).ReadOnly := fun _ => trivial

lemma ReadOnly.bind {p : NodeM α} {f : α → NodeM β} (hp : p.ReadOnly)
    (hf : ∀ a, (f a).ReadOnly) : (p.bind f).ReadOnly := by
  induction p with
  | ret a => exact hf a
  | ld fl k ih => exact fun v => ih v (hp v)
  | st fl v k ih => exact hp.elim
  | fail => exact hp.elim

/-- A program that only loads and, whatever the loads answer, answers with some `R`. -/
def Yields (R : α → Prop) : NodeM α → Prop
  | ret a => R a
  | ld _ k => ∀ v, Yields R (k v)
  | st _ _ _ => False
  | fail => False

lemma ReadOnly.yields {p : NodeM α} (hp : p.ReadOnly) : p.Yields fun _ => True := by
  induction p with
  | ret a => trivial
  | ld f k ih => exact fun v => ih v (hp v)
  | st f v k ih => exact hp
  | fail => exact hp

/-- A program that only loads answers, and changes nothing. -/
lemma ReadOnly.run_eq {p : NodeM α} (hp : p.ReadOnly) (F : Fields) :
    ∃ a, p.run F = some (a, F) := by
  induction p with
  | ret a => exact ⟨a, rfl⟩
  | ld fl k ih => exact ih _ (hp _)
  | st fl v k ih => exact hp.elim
  | fail => exact hp.elim

end NodeM

end Artmap
