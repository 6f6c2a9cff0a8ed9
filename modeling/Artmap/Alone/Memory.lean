import Artmap.Framework.Alone
import Artmap.Layout.Rest
import Artmap.Raw.Write

/-!
# Tree programs alone

The rules by which a program on a tree is followed when no other thread runs: node programs run on
the fields of their node, and the words of free latches are read and confirmed.
-/

namespace Artmap

variable {α β : Type} {t : ℕ} {m m₁ m' : Mem} {a : α} {b : β} {n k : NodeId} {F F' : Fields}

/-- The program `p` of thread `t`, alone from memory `m`, answers `a` and leaves `m'`. -/
abbrev Alone (t : ℕ) (p : TreeM α) (m : Mem) (a : α) (m' : Mem) : Prop :=
  Prog.Alone (fun {β} => exec t (β := β)) p m a m'

/-! ## Fields -/

/-- The memory with other fields of a node. -/
def Mem.setFields (m : Mem) (n : NodeId) (F : Fields) : Mem :=
  { m with tree := { m.tree with fields := Function.update m.tree.fields n F } }

namespace Mem

@[simp] lemma setFields_fields (m : Mem) (n : NodeId) (F : Fields) :
    (m.setFields n F).tree.fields = Function.update m.tree.fields n F := rfl

@[simp] lemma setFields_ty (m : Mem) (n : NodeId) (F : Fields) :
    (m.setFields n F).tree.ty = m.tree.ty := rfl

@[simp] lemma setFields_latch (m : Mem) (n : NodeId) (F : Fields) :
    (m.setFields n F).tree.latch = m.tree.latch := rfl

@[simp] lemma setFields_next (m : Mem) (n : NodeId) (F : Fields) :
    (m.setFields n F).tree.next = m.tree.next := rfl

@[simp] lemma setFields_setFields (m : Mem) (n : NodeId) (F F' : Fields) :
    (m.setFields n F).setFields n F' = m.setFields n F' := by
  simp [setFields]

@[simp] lemma setFields_self (m : Mem) (n : NodeId) : m.setFields n (m.tree.fields n) = m := by
  simp [setFields]

end Mem

/-! ## Node programs -/

/-- A node program runs on the fields of its node. -/
lemma alone_onNode {q : NodeM α} (h : q.run (m.tree.fields n) = some (a, F)) :
    Alone t (onNode n q) m a (m.setFields n F) := by
  induction q generalizing m with
  | ret c =>
    obtain ⟨rfl, rfl⟩ : c = a ∧ m.tree.fields n = F := by simpa using h
    rw [Mem.setFields_self]
    exact .ret _ _
  | ld f k ih => exact .act (ih _ h)
  | st f v k ih =>
    refine .act ?_
    rw [show m.setFields n F = (m.setFields n (Function.update (m.tree.fields n) f v)).setFields
      n F by simp]
    refine ih (m := m.setFields n (Function.update (m.tree.fields n) f v)) ?_
    rw [Mem.setFields_fields, Function.update_self]
    exact h
  | fail => simp at h

/-- One that only loads changes nothing. -/
lemma alone_onNode_read {q : NodeM α}
    (h : q.run (m.tree.fields n) = some (a, m.tree.fields n)) : Alone t (onNode n q) m a m := by
  have := alone_onNode (t := t) h
  rwa [Mem.setFields_self] at this

lemma alone_typed {q : NodeType → NodeM α}
    (h : (q (m.tree.ty n)).run (m.tree.fields n) = some (a, F)) :
    Alone t (typed n q) m a (m.setFields n F) :=
  .act (alone_onNode h)

lemma alone_typed_read {q : NodeType → NodeM α}
    (h : (q (m.tree.ty n)).run (m.tree.fields n) = some (a, m.tree.fields n)) :
    Alone t (typed n q) m a m :=
  .act (alone_onNode_read h)

/-! ## Latches -/

variable {l : LatchId}

/-- The version of a latch that has not been used. -/
lemma alone_readVersion (h : m.tree.latch l = 0) : Alone t (readVersion l) m (some 0) m := by
  refine .act ?_
  show Prog.Alone _ (.ret (if m.tree.latch l &&& (lockBit ||| obsoleteBit) = 0 then
    some (m.tree.latch l) else none)) m (some 0) m
  rw [h]
  exact .ret _ _

lemma alone_validate {v : ℕ} (h : m.tree.latch l = v) : Alone t (validate l v) m true m := by
  refine .act ?_
  show Prog.Alone _ (.ret (decide (m.tree.latch l = v))) m true m
  rw [h, decide_eq_true rfl]
  exact .ret _ _

/-! ## What stays -/

/-- Between two memories only the nodes of `N` have been written to or allocated. -/
structure OnlyNodes (N : List NodeId) (m m' : Mem) : Prop where
  leafs : m'.leafs = m.leafs
  root : m'.tree.root = m.tree.root
  latch : m'.tree.latch = m.tree.latch
  full : m'.tree.full = m.tree.full
  retired : m'.tree.retired = m.tree.retired
  freed : m'.tree.freed = m.tree.freed
  panicked : m'.tree.panicked = m.tree.panicked
  next : m.tree.next ≤ m'.tree.next
  tries : m.tree.tries ≤ m'.tree.tries
  ty : ∀ n ∉ N, m'.tree.ty n = m.tree.ty n
  fields : ∀ n ∉ N, m'.tree.fields n = m.tree.fields n

namespace OnlyNodes

variable {N N' : List NodeId}

lemma refl (N : List NodeId) (m : Mem) : OnlyNodes N m m :=
  ⟨rfl, rfl, rfl, rfl, rfl, rfl, rfl, le_rfl, le_rfl, fun _ _ => rfl, fun _ _ => rfl⟩

lemma trans (h : OnlyNodes N m m₁) (h' : OnlyNodes N m₁ m') : OnlyNodes N m m' where
  leafs := h'.leafs.trans h.leafs
  root := h'.root.trans h.root
  latch := h'.latch.trans h.latch
  full := h'.full.trans h.full
  retired := h'.retired.trans h.retired
  freed := h'.freed.trans h.freed
  panicked := h'.panicked.trans h.panicked
  next := h.next.trans h'.next
  tries := h.tries.trans h'.tries
  ty n hn := (h'.ty n hn).trans (h.ty n hn)
  fields n hn := (h'.fields n hn).trans (h.fields n hn)

lemma mono (h : OnlyNodes N m m') (hN : ∀ n ∈ N, n ∈ N') : OnlyNodes N' m m' :=
  { h with
    ty := fun n hn => h.ty n fun hmem => hn (hN n hmem)
    fields := fun n hn => h.fields n fun hmem => hn (hN n hmem) }

lemma setFields (m : Mem) (n : NodeId) (F : Fields) : OnlyNodes [n] m (m.setFields n F) :=
  { refl [n] m with
    fields := fun k hk => by
      have hne : k ≠ n := fun h => hk (List.mem_singleton.mpr h)
      simp [hne] }

end OnlyNodes

end Artmap
