import Artmap.Framework.Prog
import Artmap.Raw.Node
import Mathlib.Algebra.BigOperators.Fin

/-!
# Shared memory, latches and atomic steps (`src/latch.rs`, `src/raw/mod.rs`)

The memory of one tree: the root slot, the version latches of the tree and of every inner
node, the fields of the nodes, the striped length counter and the `removed` flags of the
leaves.  An `Act` is one atomic step on it: a load or store of a field, a slot or a latch
word, or a compare-exchange of a latch word.  Allocation hands out addresses that were never
used before, and retired memory is never reused (the reclamation that the source delegates to
its epoch collector); what has been retired or freed is recorded.  In an arena, allocation may
fail: which attempts do is up to the memory.  On the heap none does.

Latch words are the source's: bit 0 is the lock, bit 1 is obsolescence, and a version step is
4.  They are natural numbers, so versions do not wrap; `Artmap.Map.Words` has the runs on words of
64 bits.

Backing off has no effect on memory.  It is a step of its own in the blocking `lock`, where it
marks a thread that waits, and left out elsewhere, as are the test hooks.
-/

namespace Artmap

/-- The latches of a tree: the root's and one per inner node. -/
inductive LatchId where
  | root
  | node (n : NodeId)
  deriving DecidableEq

/-- `Hint`: where an insert published its leaf. -/
structure Hint where
  node : NodeId
  version : ℕ
  depth : ℕ
  deriving DecidableEq

/-- `InserterCache`: where an inserter published last, and the bytes that lead there. -/
structure InserterCache where
  hint : Option Hint
  path : List Byte
  path_len : path.length = 32

/-- `InserterCache::new`. -/
def InserterCache.new : InserterCache :=
  ⟨none, List.replicate 32 0, List.length_replicate⟩

/-- The memory around the tree: the striped length counter, the state of the leaves, and the
caches of the inserters. -/
structure LeafMem where
  /-- The stripes of `RawTree::len`. -/
  stripes : Fin 8 → ℤ
  /-- Leaves that have been built. -/
  built : Leaf → Bool
  /-- The `removed` flag of every leaf. -/
  removed : Leaf → Bool
  retired : List Leaf
  /-- Leaves that were freed without having been published. -/
  freed : List Leaf
  /-- The cache of every inserter. -/
  caches : ℕ → InserterCache

/-- Before any leaf is built. -/
def LeafMem.empty : LeafMem where
  stripes := fun _ => 0
  built := fun _ => false
  removed := fun _ => false
  retired := []
  freed := []
  caches := fun _ => .new

/-- `Counter::sum`. -/
def LeafMem.len (m : LeafMem) : ℤ :=
  ∑ i, m.stripes i

/-- The memory of the tree itself. -/
structure TreeMem where
  /-- `RawTree::root`. -/
  root : Slot
  /-- The word of every `HybridLatch`. -/
  latch : LatchId → ℕ
  /-- `NodeHeader::node_type`, immutable after construction. -/
  ty : NodeId → NodeType
  fields : NodeId → Fields
  /-- The next address that was never used. -/
  next : NodeId
  /-- The number of attempts to allocate from the arena. -/
  tries : ℕ
  /-- The attempts that find no room. -/
  full : ℕ → Bool
  retired : List NodeId
  freed : List NodeId
  /-- A check of the source has failed. -/
  panicked : Bool

/-- An empty tree. -/
def TreeMem.empty : TreeMem where
  root := .null
  latch := fun _ => 0
  ty := fun _ => .node4
  fields := fun _ => Fields.fresh
  next := 0
  tries := 0
  full := fun _ => false
  retired := []
  freed := []
  panicked := false

/-- The memory of one map. -/
structure Mem where
  tree : TreeMem
  leafs : LeafMem

/-- The memory of an empty map. -/
def Mem.empty : Mem :=
  ⟨TreeMem.empty, LeafMem.empty⟩

/-- One atomic step on the memory around the tree. -/
inductive LeafAct where
  /-- `RawTree::len_add`. -/
  | lenAdd (d : ℤ)
  | loadRemoved (l : Leaf)
  | markRemoved (l : Leaf)
  /-- `Storage::retire_leaf`. -/
  | retireLeaf (l : Leaf)
  /-- `Layout::free_leaf`. -/
  | freeLeaf (l : Leaf)
  | loadCache (i : ℕ)
  | storeCache (i : ℕ) (c : InserterCache)

/-- What such a step answers with. -/
abbrev LeafAct.Ans : LeafAct → Type
  | lenAdd _ => Unit
  | loadRemoved _ => Bool
  | markRemoved _ => Unit
  | retireLeaf _ => Unit
  | freeLeaf _ => Unit
  | loadCache _ => InserterCache
  | storeCache _ _ => Unit

/-- One atomic step on the tree. -/
inductive TreeAct where
  | loadRoot
  | storeRoot (s : Slot)
  | swapRoot (s : Slot)
  | loadLatch (l : LatchId)
  | casLatch (l : LatchId) (old new : ℕ)
  | storeLatch (l : LatchId) (w : ℕ)
  | nodeType (n : NodeId)
  | loadField (n : NodeId) (f : Field)
  | storeField (n : NodeId) (f : Field) (v : f.Val)
  /-- `Layout::alloc_node`. -/
  | allocNode (ty : NodeType)
  /-- `reinit` of an unpublished node. -/
  | initNode (n : NodeId)
  /-- `Layout::free_node`. -/
  | freeNode (n : NodeId)
  /-- `Storage::retire_node`. -/
  | retireNode (n : NodeId)
  /-- `ArenaStorage::alloc_value`: whether there is room. -/
  | allocValue
  | panic

/-- What such a step answers with. -/
abbrev TreeAct.Ans : TreeAct → Type
  | loadRoot => Slot
  | storeRoot _ => Unit
  | swapRoot _ => Slot
  | loadLatch _ => ℕ
  | casLatch _ _ _ => Bool
  | storeLatch _ _ => Unit
  | nodeType _ => NodeType
  | loadField _ f => f.Val
  | storeField _ _ _ => Unit
  | allocNode _ => Option NodeId
  | initNode _ => Unit
  | freeNode _ => Unit
  | retireNode _ => Unit
  | allocValue => Bool
  | panic => Unit

/-- One atomic step. -/
inductive Act : Type → Type where
  | tree (a : TreeAct) : Act a.Ans
  | leaf (a : LeafAct) : Act a.Ans
  /-- `SpinBackoff::spin`, in the blocking acquisition of latch `l`. -/
  | wait (l : LatchId) : Act Unit

/-- `stripe()`: the stripe of a thread, assigned round-robin. -/
def stripe (t : ℕ) : Fin 8 :=
  Fin.ofNat 8 t

/-- The effect of an atomic step of thread `t` on the memory around the tree. -/
def execLeaf (t : ℕ) : (a : LeafAct) → LeafMem → a.Ans × LeafMem
  | .lenAdd d, m =>
    ((), { m with
      stripes := Function.update m.stripes (stripe t) (m.stripes (stripe t) + d) })
  | .loadRemoved l, m => (m.removed l, m)
  | .markRemoved l, m => ((), { m with removed := Function.update m.removed l true })
  | .retireLeaf l, m => ((), { m with retired := m.retired ++ [l] })
  | .freeLeaf l, m => ((), { m with freed := m.freed ++ [l] })
  | .loadCache i, m => (m.caches i, m)
  | .storeCache i c, m => ((), { m with caches := Function.update m.caches i c })

/-- The effect of an atomic step on the tree. -/
def execTree : (a : TreeAct) → TreeMem → a.Ans × TreeMem
  | .loadRoot, m => (m.root, m)
  | .storeRoot s, m => ((), { m with root := s })
  | .swapRoot s, m => (m.root, { m with root := s })
  | .loadLatch l, m => (m.latch l, m)
  | .casLatch l old new, m =>
    if m.latch l = old then (true, { m with latch := Function.update m.latch l new })
    else (false, m)
  | .storeLatch l w, m => ((), { m with latch := Function.update m.latch l w })
  | .nodeType n, m => (m.ty n, m)
  | .loadField n f, m => (m.fields n f, m)
  | .storeField n f v, m =>
    ((), { m with
      fields := Function.update m.fields n (Function.update (m.fields n) f v) })
  | .allocNode ty, m =>
    if m.full m.tries then (none, { m with tries := m.tries + 1 })
    else
      (some m.next, { m with
        ty := Function.update m.ty m.next ty
        fields := Function.update m.fields m.next Fields.fresh
        next := m.next + 1
        tries := m.tries + 1 })
  | .initNode n, m =>
    ((), { m with fields := Function.update m.fields n Fields.fresh })
  | .freeNode n, m => ((), { m with freed := m.freed ++ [n] })
  | .retireNode n, m => ((), { m with retired := m.retired ++ [n] })
  | .allocValue, m => (!m.full m.tries, { m with tries := m.tries + 1 })
  | .panic, m => ((), { m with panicked := true })

/-- The effect of an atomic step of thread `t`. -/
def exec (t : ℕ) : {β : Type} → Act β → Mem → β × Mem
  | _, .tree a, m => ((execTree a m.tree).1, { m with tree := (execTree a m.tree).2 })
  | _, .leaf a, m => ((execLeaf t a m.leafs).1, { m with leafs := (execLeaf t a m.leafs).2 })
  | _, .wait _, m => ((), m)

/-- Programs on a tree. -/
abbrev TreeM := Prog Act

variable {α : Type}

/-- One step on the tree. -/
def onTree (a : TreeAct) : TreeM a.Ans :=
  Prog.perform (.tree a)

/-- One step on the memory around the tree. -/
def onLeaf (a : LeafAct) : TreeM a.Ans :=
  Prog.perform (.leaf a)

/-- A failed check: the program goes no further. -/
def crash : TreeM α := do
  onTree .panic
  Prog.iter (fun _ : Unit => return .inl ()) ()

/-- A node program, on node `n`. -/
def onNode (n : NodeId) : NodeM α → TreeM α
  | .ret a => .ret a
  | .ld f k => .act (.tree (.loadField n f)) fun v => onNode n (k v)
  | .st f v k => .act (.tree (.storeField n f v)) fun _ => onNode n k
  | .fail => crash

/-- A node program that dispatches on the type of the node (`NodeHeader::typed`). -/
def typed (n : NodeId) (p : NodeType → NodeM α) : TreeM α := do
  let ty ← onTree (.nodeType n)
  onNode n (p ty)

/-- The implementations of `LeafNode`. -/
inductive LeafKind where
  | plain
  | versioned
  deriving DecidableEq

/-- `LeafNode::mark_removed`.  For a versioned leaf, whose removed state is its dead chain
lock, it is a debug assertion only. -/
def markRemoved : LeafKind → Leaf → TreeM Unit
  | .plain, l => onLeaf (.markRemoved l)
  | .versioned, _ => return ()

/-! ## `HybridLatch` -/

/-- `LOCK_BIT`. -/
def lockBit : ℕ := 1

/-- `OBSOLETE_BIT`. -/
def obsoleteBit : ℕ := 2

/-- `VERSION_STEP`. -/
def versionStep : ℕ := 4

/-- `HybridLatch::read_version`. -/
def readVersion (l : LatchId) : TreeM (Option ℕ) := do
  let v ← onTree (.loadLatch l)
  return if v &&& (lockBit ||| obsoleteBit) = 0 then some v else none

/-- `HybridLatch::validate`. -/
def validate (l : LatchId) (v : ℕ) : TreeM Bool := do
  let w ← onTree (.loadLatch l)
  return decide (w = v)

/-- `HybridLatch::is_obsolete`. -/
def isObsolete (l : LatchId) : TreeM Bool := do
  let w ← onTree (.loadLatch l)
  return decide (w &&& obsoleteBit ≠ 0)

/-- `HybridLatch::try_upgrade`.  A `WriteGuard` is its version at acquisition. -/
def tryUpgrade (l : LatchId) (v : ℕ) : TreeM (Option ℕ) :=
  if v &&& (lockBit ||| obsoleteBit) ≠ 0 then return none
  else do
    let ok ← onTree (.casLatch l v (v ||| lockBit))
    return if ok then some v else none

/-- `HybridLatch::lock`: blocking; `none` once the latch is obsolete. -/
def lock (l : LatchId) : TreeM (Option ℕ) :=
  Prog.iter (fun _ : Unit => do
    let v ← onTree (.loadLatch l)
    if v &&& obsoleteBit ≠ 0 then return .inr none
    else if v &&& lockBit = 0 then
      match ← tryUpgrade l v with
      | some w => return .inr (some w)
      | none =>
        Prog.perform (.wait l)
        return .inl ()
    else
      Prog.perform (.wait l)
      return .inl ()) ()

/-- `WriteGuard::unlock` (and dropping the guard): releases the latch and answers with its new
version. -/
def unlock (l : LatchId) (v : ℕ) : TreeM ℕ := do
  onTree (.storeLatch l (v + versionStep))
  return v + versionStep

/-- `WriteGuard::mark_obsolete`. -/
def markObsolete (l : LatchId) (v : ℕ) : TreeM Unit :=
  onTree (.storeLatch l (v ||| obsoleteBit))

/-! ## `Unpublished` -/

/-- `Unpublished`: the owner of a leaf that was never published, until the insert disarms it. -/
inductive Unpublished where
  | armed (l : Leaf)
  | disarmed
  deriving DecidableEq

/-- `Unpublished::drop`: a leaf that is still owned is freed. -/
def Unpublished.drop : Unpublished → TreeM Unit
  | .armed l => onLeaf (.freeLeaf l)
  | .disarmed => return ()

/-! ## `Prepared` -/

/-- `Prepared`: unpublished nodes of a write operation, and whether the current attempt uses
them. -/
abbrev Pool := List (NodeId × Bool)

/-- `Prepared::reset`. -/
def Pool.reset (p : Pool) : Pool :=
  p.map fun e => (e.1, false)

/-- `Prepared::commit`. -/
def Pool.commit (p : Pool) : Pool :=
  p.filter fun e => !e.2

/-- Marks the entry of node `n` as used. -/
def Pool.use (p : Pool) (n : NodeId) : Pool :=
  p.map fun e => if e.1 = n then (n, true) else e

/-- The search of `Prepared::node` for an unused entry of type `ty`. -/
def Pool.find (ty : NodeType) : Pool → TreeM (Option NodeId)
  | [] => return none
  | (n, used) :: rest =>
    if used then Pool.find ty rest
    else do
      let nty ← onTree (.nodeType n)
      if nty = ty then return some n else Pool.find ty rest

/-- `Prepared::node`: a freshly initialised, unpublished node of type `ty`, or `none` if there
is no room for it (`S::Full`). -/
def Pool.node (p : Pool) (ty : NodeType) : TreeM (Option NodeId × Pool) := do
  match ← Pool.find ty p with
  | some n =>
    onTree (.initNode n)
    return (some n, p.use n)
  | none =>
    match ← onTree (.allocNode ty) with
    | some n => return (some n, p ++ [(n, true)])
    | none => return (none, p)

/-- `Prepared::release`. -/
def Pool.release : Pool → TreeM Unit
  | [] => return ()
  | (n, _) :: rest => do
    onTree (.freeNode n)
    Pool.release rest

/-- `common_prefix`: the length of the longest common prefix. -/
def commonPrefix (a b : List Byte) : ℕ :=
  ((a.zip b).takeWhile fun p => p.1 == p.2).length

end Artmap
