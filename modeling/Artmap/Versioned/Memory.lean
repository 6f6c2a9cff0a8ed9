import Artmap.Framework.Prog
import Mathlib.Algebra.BigOperators.Group.Finset.Basic
import Mathlib.Data.Nat.Bitwise

/-!
# The memory of version chains (`src/versioned/node.rs`, `src/latch.rs`)

A leaf of a versioned map holds a key's versions as a chain, newest first.  A chain has two
inline slots in its leaf, and its other nodes are boxes of their own.  The link of a node
shares its word with three flags, in the low bits that the alignment of nodes leaves free.

A `ChainAct` is one atomic step: a load or store of a head, of a link word, of the word of a
chain lock or of `slots_init`, an allocation, or a step of the tree on a leaf (`publish`,
`unlink`).  Boxes are allocated at addresses that were never used before, and retired nodes are
recorded and never reused (the reclamation that the source delegates to its epoch collector).
A weak compare-exchange fails as the memory's list of spurious failures says.

Versions are natural numbers, addresses are multiples of eight, and `0` is the null pointer.
-/

namespace Artmap

namespace Versioned

/-! ## Link words -/

/-- `SUPERSEDED`. -/
def supersededFlag : ℕ := 0b001

/-- `TOMBSTONE`. -/
def tombstoneFlag : ℕ := 0b010

/-- `INLINE`. -/
def inlineFlag : ℕ := 0b100

/-- `FLAGS`. -/
def flagsMask : ℕ := supersededFlag ||| tombstoneFlag ||| inlineFlag

/-- The flags of a link word (`addr & FLAGS`). -/
def flagsOf (w : ℕ) : ℕ := w &&& flagsMask

/-- The link of a link word (`addr & !FLAGS`). -/
def linkOf (w : ℕ) : ℕ := w - flagsOf w

/-- The word that `store_next` writes over `w`. -/
def retag (w next : ℕ) : ℕ := next ||| flagsOf w

/-- The word that `mark_superseded` writes over `w`. -/
def marked (w : ℕ) : ℕ := w ||| supersededFlag

/-- A flag is set in a link word. -/
def hasFlag (w flag : ℕ) : Bool := decide (flagsOf w &&& flag ≠ 0)

section Words

variable {w a i : ℕ}

lemma flagsOf_eq_mod (w : ℕ) : flagsOf w = w % 8 :=
  Nat.and_two_pow_sub_one_eq_mod w 3

lemma flagsOf_lt (w : ℕ) : flagsOf w < 8 := by
  rw [flagsOf_eq_mod]
  omega

lemma linkOf_eq (w : ℕ) : linkOf w = 8 * (w / 8) := by
  rw [linkOf, flagsOf_eq_mod]
  omega

lemma testBit_flagsOf (h : i < 3) : (flagsOf w).testBit i = w.testBit i := by
  rw [flagsOf_eq_mod, show 8 = 2 ^ 3 from rfl, Nat.testBit_mod_two_pow]
  simp [h]

/-- A flag is a bit of its word. -/
lemma hasFlag_two_pow (h : i < 3) : hasFlag w (2 ^ i) = w.testBit i := by
  unfold hasFlag
  rw [Nat.and_two_pow, testBit_flagsOf h]
  cases w.testBit i <;> simp

lemma retag_eq_add (ha : 8 ∣ a) : retag w a = a + flagsOf w := by
  obtain ⟨k, rfl⟩ := ha
  exact (Nat.two_pow_add_eq_or_of_lt (i := 3) (flagsOf_lt w) k).symm

/-- A link survives the flags. -/
@[simp] lemma linkOf_retag (ha : 8 ∣ a) : linkOf (retag w a) = a := by
  have := flagsOf_lt w
  rw [retag_eq_add ha, linkOf_eq]
  omega

lemma testBit_marked : (marked w).testBit i = (w.testBit i || decide (i = 0)) := by
  rw [marked, Nat.testBit_or, supersededFlag]
  congr 1
  rw [show 0b001 = 2 ^ 0 from rfl, Nat.testBit_two_pow]
  simp [eq_comm]

/-- Marking a node leaves its link as it is. -/
@[simp] lemma linkOf_marked (w : ℕ) : linkOf (marked w) = linkOf w := by
  rw [linkOf_eq, linkOf_eq]
  congr 1
  refine Nat.eq_of_testBit_eq fun i => ?_
  rw [show 8 = 2 ^ 3 from rfl, Nat.testBit_div_two_pow, Nat.testBit_div_two_pow, testBit_marked]
  simp

end Words

/-! ## Nodes and leaves -/

/-- `VersionNode`.  The value is there if and only if the node is not a tombstone. -/
structure VersionNode (V : Type) where
  version : ℕ
  /-- The next older version, tagged with the flags. -/
  next : ℕ
  value : Option V

/-- `VersionNode::new`. -/
def VersionNode.new {V : Type} (version : ℕ) (value : Option V) (isInline : Bool) :
    VersionNode V where
  version := version
  next := (if value.isNone then tombstoneFlag else 0) ||| (if isInline then inlineFlag else 0)
  value := value

/-- `SLOT0`. -/
def slotBit0 : ℕ := 0b01

/-- `SLOT1`. -/
def slotBit1 : ℕ := 0b10

/-- `VersionedLeaf`, less its key: the words of the leaf and where its inline slots are. -/
structure VersionedLeaf where
  head : ℕ
  slot0 : ℕ
  slot1 : ℕ
  /-- The word of `chain_latch`. -/
  chainLatch : ℕ
  slotsInit : ℕ

/-- `CHAIN_LOCKED`. -/
def chainLocked : ℕ := 0b01

/-- `CHAIN_DEAD`. -/
def chainDead : ℕ := 0b10

/-- The memory of the leaves of one map and of their chains. -/
structure ChainMem (V : Type) where
  node : ℕ → VersionNode V
  leaf : ℕ → VersionedLeaf
  /-- The leaf has been published in the tree. -/
  published : ℕ → Bool
  /-- The leaf has been unlinked from the tree by `remove_confirmed`.  The swap of the root by which
  `clear` unlinks leaves leaves this as it is. -/
  unlinked : ℕ → Bool
  /-- The next address that was never used. -/
  nextAddr : ℕ
  /-- The next leaf that was never built. -/
  nextLeaf : ℕ
  /-- The sum of the stripes of the tree's counter, at one moment.  `RawTree::len` adds up what it
  loads from the stripes one after the other. -/
  len : ℤ
  /-- The version nodes handed to the collector. -/
  retired : List ℕ
  /-- Which of the next weak compare-exchanges fail without reason. -/
  spurious : List Bool

variable {V : Type}

/-- The memory of an empty map. -/
def ChainMem.empty (spurious : List Bool) : ChainMem V where
  node := fun _ => ⟨0, 0, none⟩
  leaf := fun _ => ⟨0, 0, 0, 0, 0⟩
  published := fun _ => false
  unlinked := fun _ => false
  nextAddr := 8
  nextLeaf := 0
  len := 0
  retired := []
  spurious := spurious

namespace ChainMem

variable (m : ChainMem V) (p l w x : ℕ) (n : VersionNode V)

/-- A node is written. -/
def setNode : ChainMem V :=
  { m with node := Function.update m.node p n }

/-- The link word of a node is written. -/
def setNext : ChainMem V :=
  m.setNode p { m.node p with next := w }

/-- The word of a chain lock is written. -/
def setLatch : ChainMem V :=
  { m with leaf := Function.update m.leaf l { m.leaf l with chainLatch := w } }

/-- The head of a chain is written. -/
def setHead : ChainMem V :=
  { m with leaf := Function.update m.leaf l { m.leaf l with head := p } }

/-- `slots_init` is written. -/
def setSlots : ChainMem V :=
  { m with leaf := Function.update m.leaf l { m.leaf l with slotsInit := x } }

/-- A new leaf, with its first version in the first inline slot. -/
def addLeaf (version : ℕ) (value : Option V) : ChainMem V :=
  { m with
    node := Function.update m.node m.nextAddr (.new version value true)
    leaf := Function.update m.leaf m.nextLeaf
      ⟨m.nextAddr, m.nextAddr, m.nextAddr + 8, 0, slotBit0⟩
    nextAddr := m.nextAddr + 16
    nextLeaf := m.nextLeaf + 1 }

/-- A new box. -/
def addBox (version : ℕ) (value : Option V) : ChainMem V :=
  { m.setNode m.nextAddr (.new version value false) with nextAddr := m.nextAddr + 8 }

end ChainMem

/-! ## Steps -/

/-- One atomic step on version chains. -/
inductive ChainAct (V : Type) : Type → Type where
  /-- `compare_exchange_weak(0, CHAIN_LOCKED)`. -/
  | casLatch (l : ℕ) : ChainAct V Bool
  | loadLatch (l : ℕ) : ChainAct V ℕ
  | storeLatch (l w : ℕ) : ChainAct V Unit
  | loadHead (l : ℕ) : ChainAct V ℕ
  | storeHead (l p : ℕ) : ChainAct V Unit
  | loadSlots (l : ℕ) : ChainAct V ℕ
  | storeSlots (l w : ℕ) : ChainAct V Unit
  /-- The address of the first inline slot. -/
  | slot0 (l : ℕ) : ChainAct V ℕ
  /-- Writing the second inline slot. -/
  | writeSlot1 (l version : ℕ) (value : Option V) : ChainAct V ℕ
  /-- `Box::new` of a version node. -/
  | newBox (version : ℕ) (value : Option V) : ChainAct V ℕ
  /-- `VersionedLeaf::new_boxed`. -/
  | newLeaf (version : ℕ) (value : Option V) : ChainAct V ℕ
  | readVersion (p : ℕ) : ChainAct V ℕ
  | readValue (p : ℕ) : ChainAct V (Option V)
  | loadNext (p : ℕ) : ChainAct V ℕ
  | storeNext (p w : ℕ) : ChainAct V Unit
  /-- `RawTree::len_add`. -/
  | lenAdd (d : ℤ) : ChainAct V Unit
  /-- `retire`. -/
  | retire (p : ℕ) : ChainAct V Unit
  /-- The tree finds a leaf, if it was published. -/
  | find (l : ℕ) : ChainAct V Bool
  /-- The store of the tree that publishes a leaf. -/
  | publish (l : ℕ) : ChainAct V Unit
  /-- The store of the tree that unlinks a leaf. -/
  | unlink (l : ℕ) : ChainAct V Unit

/-- The effect of an atomic step. -/
def execChain : {β : Type} → ChainAct V β → ChainMem V → β × ChainMem V
  | _, .casLatch l, m =>
    if (m.leaf l).chainLatch = 0 ∧ m.spurious.headD false = false then
      (true, { m.setLatch l chainLocked with spurious := m.spurious.tail })
    else (false, { m with spurious := m.spurious.tail })
  | _, .loadLatch l, m => ((m.leaf l).chainLatch, m)
  | _, .storeLatch l w, m => ((), m.setLatch l w)
  | _, .loadHead l, m => ((m.leaf l).head, m)
  | _, .storeHead l p, m => ((), m.setHead p l)
  | _, .loadSlots l, m => ((m.leaf l).slotsInit, m)
  | _, .storeSlots l w, m => ((), m.setSlots l w)
  | _, .slot0 l, m => ((m.leaf l).slot0, m)
  | _, .writeSlot1 l version value, m =>
    ((m.leaf l).slot1, m.setNode (m.leaf l).slot1 (.new version value true))
  | _, .newBox version value, m => (m.nextAddr, m.addBox version value)
  | _, .newLeaf version value, m => (m.nextLeaf, m.addLeaf version value)
  | _, .readVersion p, m => ((m.node p).version, m)
  | _, .readValue p, m => ((m.node p).value, m)
  | _, .loadNext p, m => ((m.node p).next, m)
  | _, .storeNext p w, m => ((), m.setNext p w)
  | _, .lenAdd d, m => ((), { m with len := m.len + d })
  | _, .retire p, m => ((), { m with retired := m.retired ++ [p] })
  | _, .find l, m => (m.published l, m)
  | _, .publish l, m => ((), { m with published := Function.update m.published l true })
  | _, .unlink l, m => ((), { m with unlinked := Function.update m.unlinked l true })

end Versioned

end Artmap
