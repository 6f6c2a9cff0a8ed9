import Artmap.Framework.Local
import Artmap.Raw.Inserter

/-!
# What the programs do to memory

Which kinds of actions the programs perform, as far as it can be told from the programs alone:
all but the few that take something from the arena allocate nothing.  A predicate on actions that
covers those on the tree that allocate nothing covers all of a lookup, and with the actions around
the tree it covers the writers between their allocations.
-/

namespace Artmap

/-- The action takes something from the arena. -/
def Act.Allocates : (β : Type) → Act β → Prop
  | _, .tree (.allocNode _) => True
  | _, .tree .allocValue => True
  | _, _ => False

/-- All actions on the tree that allocate nothing are of the kind `P`. -/
def CoversTree (P : (β : Type) → Act β → Prop) : Prop :=
  ∀ a : TreeAct, ¬ (Act.tree a).Allocates → P _ (.tree a)

/-- All actions that allocate nothing are of the kind `P`. -/
def Covers (P : (β : Type) → Act β → Prop) : Prop :=
  ∀ (β : Type) (a : Act β), ¬ a.Allocates → P β a

variable {P : (β : Type) → Act β → Prop} {α : Type} {n : NodeId}

lemma Covers.tree (hP : Covers P) : CoversTree P :=
  fun a => hP _ (.tree a)

/-! ## Reading a tree -/

section Reading

variable (hP : CoversTree P)
include hP

lemma all_onTree {a : TreeAct} (ha : ¬ (Act.tree a).Allocates) : Prog.All P (onTree a) :=
  .perform (hP a ha)

lemma all_crash : Prog.All P (crash : TreeM α) :=
  (all_onTree hP id).bind fun _ => .iter (fun _ => .ret _) ()

lemma all_onNode (n : NodeId) (p : NodeM α) : Prog.All P (onNode n p) := by
  induction p with
  | ret a => exact .ret a
  | ld f k ih => exact .act (hP _ id) ih
  | st f v k ih => exact .act (hP _ id) fun _ => ih
  | fail => exact all_crash hP

lemma all_typed (n : NodeId) (p : NodeType → NodeM α) : Prog.All P (typed n p) :=
  (all_onTree hP id).bind fun ty => all_onNode hP n (p ty)

lemma all_validate (l : LatchId) (v : ℕ) : Prog.All P (validate l v) :=
  (all_onTree hP id).bind fun _ => .ret _

lemma all_readVersion (l : LatchId) : Prog.All P (readVersion l) :=
  (all_onTree hP id).bind fun _ => .ret _

lemma all_stillLinked (parent : Option (NodeId × ℕ)) (cur : NodeId) :
    Prog.All P (stillLinked parent cur) := by
  cases parent with
  | none => exact (all_onTree hP id).bind fun _ => .ret _
  | some p => exact all_validate hP _ _

lemma all_slotFor (n : NodeId) (key : Key) (d : ℕ) : Prog.All P (slotFor n key d) := by
  unfold slotFor
  split
  · exact all_onNode hP n _
  · split
    · exact all_typed hP n _
    · exact all_crash hP

lemma all_getLevel (key : Key) (s : NodeId × Option (NodeId × ℕ) × ℕ) :
    Prog.All P (getLevel key s) := by
  obtain ⟨cur, parent, depth⟩ := s
  refine (all_readVersion hP _).bind fun v => ?_
  cases v with
  | none => exact .ret _
  | some v =>
    refine (all_stillLinked hP parent cur).bind fun linked => ?_
    cases linked with
    | false => exact .ret _
    | true =>
      refine (all_onNode hP cur _).bind fun pre => ?_
      have hend : ∀ r, Prog.All P ((validate (.node cur) v).bind fun ok =>
          (if ok then return .inr (some r) else return .inr none :
            TreeM ((NodeId × Option (NodeId × ℕ) × ℕ) ⊕ Option (Option Leaf)))) := fun r =>
        (all_validate hP _ _).bind fun ok => by cases ok <;> exact .ret _
      dsimp only
      split
      · exact hend none
      · refine (all_slotFor hP cur key _).bind fun s => ?_
        cases s with
        | node c => exact .ret _
        | null => exact hend none
        | leaf l => exact hend _

lemma all_get (key : Key) : Prog.All P (get key) := by
  refine .iter (fun _ => (all_onTree hP id).bind fun s => ?_) ()
  cases s with
  | null => exact .ret _
  | leaf l => exact .ret _
  | node n =>
    refine (Prog.All.iter (all_getLevel hP key) _).bind fun r => ?_
    cases r <;> exact .ret _

end Reading

/-! ## Writing without an allocation -/

section Writing

variable (hP : Covers P)
include hP

lemma all_onLeaf (a : LeafAct) : Prog.All P (onLeaf a) :=
  .perform (hP _ _ id)

lemma all_markRemoved (kind : LeafKind) (l : Leaf) : Prog.All P (markRemoved kind l) := by
  cases kind with
  | plain => exact all_onLeaf hP _
  | versioned => exact .ret _

lemma all_drop (owner : Unpublished) : Prog.All P owner.drop := by
  cases owner with
  | armed l => exact all_onLeaf hP _
  | disarmed => exact .ret _

lemma all_unlock (l : LatchId) (v : ℕ) : Prog.All P (unlock l v) :=
  (all_onTree hP.tree id).bind fun _ => .ret _

lemma all_tryUpgrade (l : LatchId) (v : ℕ) : Prog.All P (tryUpgrade l v) := by
  unfold tryUpgrade
  split
  · exact .ret _
  · exact (all_onTree hP.tree id).bind fun _ => .ret _

lemma all_lock (l : LatchId) : Prog.All P (lock l) := by
  refine .iter (fun _ => (all_onTree hP.tree id).bind fun v => ?_) ()
  have hwait : Prog.All P ((Prog.perform (Act.wait l)).bind fun _ =>
      (return .inl () : TreeM (Unit ⊕ Option ℕ))) :=
    (Prog.All.perform (hP _ _ id)).bind fun _ => .ret _
  split
  · exact .ret _
  · split
    · refine (all_tryUpgrade hP l v).bind fun w => ?_
      cases w with
      | none => exact hwait
      | some w => exact .ret _
    · exact hwait

lemma all_parentUnlock (pg : ParentGuard) : Prog.All P pg.unlock := by
  cases pg with
  | root v => exact (all_unlock hP _ _).bind fun _ => .ret _
  | node p v b => exact (all_unlock hP _ _).bind fun _ => .ret _

lemma all_lockParent (parent : Parent) (child : Slot) :
    Prog.All P (lockParent parent child) := by
  cases parent with
  | root =>
    refine (all_lock hP _).bind fun v => ?_
    cases v with
    | none => exact .ret _
    | some v =>
      refine (all_onTree hP.tree id).bind fun root => ?_
      split
      · exact .ret _
      · exact (all_unlock hP _ _).bind fun _ => .ret _
  | node raw version byte =>
    refine (all_lock hP _).bind fun v => ?_
    cases v with
    | none => exact .ret _
    | some v =>
      refine (all_typed hP.tree raw _).bind fun c => ?_
      split
      · exact .ret _
      · exact (all_unlock hP _ _).bind fun _ => .ret _

lemma all_publishInParent (pg : ParentGuard) (new : Slot) :
    Prog.All P (publishInParent pg new) := by
  cases pg with
  | root v => exact all_onTree hP.tree id
  | node p v b => exact all_typed hP.tree p _

lemma all_stillParent (parent : Parent) (child : Slot) :
    Prog.All P (stillParent parent child) := by
  cases parent with
  | root => exact (all_onTree hP.tree id).bind fun _ => .ret _
  | node raw version byte => exact all_validate hP.tree _ _

lemma all_copyChildren (src dst : NodeId) (fuel start : ℕ) :
    Prog.All P (copyChildren src dst fuel start) := by
  induction fuel generalizing start with
  | zero => exact .ret _
  | succ fuel ih =>
    refine (all_typed hP.tree src _).bind fun r => ?_
    cases r with
    | none => exact .ret _
    | some r => exact (all_typed hP.tree dst _).bind fun _ => ih _

lemma all_copyInto (src dst : NodeId) : Prog.All P (copyInto src dst) :=
  (all_onNode hP.tree src _).bind fun _ => (all_onNode hP.tree dst _).bind fun _ =>
    (all_onNode hP.tree src _).bind fun _ => (all_onNode hP.tree dst _).bind fun _ =>
      all_copyChildren hP src dst _ _

lemma all_forkLeaf (bottom : NodeId) (suffix : List Byte) (common : ℕ) (leaf : Slot) :
    Prog.All P (forkLeaf bottom suffix common leaf) := by
  unfold forkLeaf
  split
  · exact all_onNode hP.tree bottom _
  · exact all_typed hP.tree bottom _

lemma all_release (p : Pool) : Prog.All P (Pool.release p) := by
  induction p with
  | nil => exact .ret _
  | cons e p ih => exact (all_onTree hP.tree id).bind fun _ => ih

end Writing

end Artmap
