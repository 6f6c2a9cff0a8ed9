import Mathlib.Data.BitVec
import Mathlib.Data.Nat.Notation
import Mathlib.Logic.Function.Basic

/-!
# Inner node layouts (`src/raw/node.rs`, `src/raw/slot.rs`)

Keys are byte strings.  A leaf is its address together with the key bytes behind it, which
never change after the leaf is built (`AsBytes` is assumed deterministic); its value plays no
part in the tree.  A child slot is null, a leaf or an inner node.

The memory of an inner node is split into the fields that the source declares as separate
atomics (`Field`): the child count, the prefix length, the two prefix words, the exact leaf,
the key words, the index and bitmap tables and the child slots.  A function of the source
that works on one node is a `NodeM` program of single loads and stores of such fields, so
that readers can interleave with a writer between any two of them.  `assert!`, `expect` and
the arithmetic that would underflow are `NodeM.fail`.

The four layouts are the match arms of the functions below.  `Node4` and `Node16` share
their code up to the width of the key word, and so share a definition here, with the key
array and the capacity as parameters.
-/

namespace Artmap

-- The sizes of the arrays below, for the literals of `Fin`.
instance neZero_two : NeZero (2 : ℕ) := ⟨by decide⟩
instance neZero_four : NeZero (4 : ℕ) := ⟨by decide⟩
instance neZero_bytes : NeZero (256 : ℕ) := ⟨by decide⟩

/-- A key byte. -/
abbrev Byte := Fin 256

/-- A key, as the bytes of `AsBytes`. -/
abbrev Key := List Byte

/-- A leaf: where it is, and its immutable key. -/
structure Leaf where
  addr : ℕ
  key : Key
  deriving DecidableEq

/-- The address of an inner node. -/
abbrev NodeId := ℕ

/-- A child slot (`Slot`, `TaggedPtr`). -/
inductive Slot where
  | null
  | leaf (l : Leaf)
  | node (n : NodeId)
  deriving DecidableEq

namespace Slot

/-- `Slot::is_leaf`. -/
def isLeaf : Slot → Bool
  | leaf _ => true
  | _ => false

/-- A slot that holds the given leaf, if any. -/
def ofOption : Option Leaf → Slot
  | none => null
  | some l => leaf l

end Slot

/-- `MAX_PREFIX_LEN`. -/
def maxPrefixLen : ℕ := 16

/-- `NODE48_EMPTY`: the index of an absent byte. -/
def node48Empty : ℕ := 48

/-- `NodeType`. -/
inductive NodeType where
  | node4
  | node16
  | node48
  | node256
  deriving DecidableEq, Repr

namespace NodeType

/-- `NodeType::capacity`. -/
def capacity : NodeType → ℕ
  | node4 => 4
  | node16 => 16
  | node48 => 48
  | node256 => 256

/-- `NodeType::fitting`: the smallest layout that holds `children` children. -/
def fitting (children : ℕ) : NodeType :=
  if children ≤ 4 then node4
  else if children ≤ 16 then node16
  else if children ≤ 48 then node48
  else node256

/-- `NodeType::grown`. -/
def grown : NodeType → Option NodeType
  | node4 => some node16
  | node16 => some node48
  | node48 => some node256
  | node256 => none

/-- The derived order: by size. -/
def lt (a b : NodeType) : Bool :=
  a.capacity < b.capacity

end NodeType

/-! ## Fields and node programs -/

/-- A 64-bit word that packs eight bytes. -/
abbrev Word8 := Fin 8 → Byte

/-- The atomics of an inner node. -/
inductive Field where
  | numChildren
  | prefixLen
  | prefixWord (i : Fin 2)
  | exactLeaf
  /-- `Node4::keys`. -/
  | keys4
  /-- `Node16::keys`. -/
  | keys16 (i : Fin 2)
  /-- `Node48::child_indices`. -/
  | childIndex (b : Byte)
  /-- `child_bitmap` of `Node48` and `Node256`. -/
  | bitmap (i : Fin 4)
  /-- `children`. -/
  | child (i : ℕ)
  deriving DecidableEq

/-- What a field holds. -/
abbrev Field.Val : Field → Type
  | numChildren => ℕ
  | prefixLen => ℕ
  | prefixWord _ => Word8
  | exactLeaf => Slot
  | keys4 => Fin 4 → Byte
  | keys16 _ => Word8
  | childIndex _ => ℕ
  | bitmap _ => BitVec 64
  | child _ => Slot

/-- The contents of an inner node. -/
abbrev Fields := (f : Field) → f.Val

/-- A fresh node (`Node4::new` and its siblings). -/
def Fields.fresh : Fields
  | .numChildren => (0 : ℕ)
  | .prefixLen => (0 : ℕ)
  | .prefixWord _ => fun _ => 0
  | .exactLeaf => Slot.null
  | .keys4 => fun _ => 0
  | .keys16 _ => fun _ => 0
  | .childIndex _ => node48Empty
  | .bitmap _ => 0#64
  | .child _ => Slot.null

/-- A program on one node: loads and stores of its fields.  `fail` is a panic. -/
inductive NodeM (α : Type) : Type where
  | ret (a : α)
  | ld (f : Field) (k : f.Val → NodeM α)
  | st (f : Field) (v : f.Val) (k : NodeM α)
  | fail

namespace NodeM

variable {α β γ : Type}

/-- Sequencing. -/
def bind : NodeM α → (α → NodeM β) → NodeM β
  | ret a, f => f a
  | ld fl k, f => ld fl fun v => (k v).bind f
  | st fl v k, f => st fl v (k.bind f)
  | fail, _ => fail

instance : Monad NodeM where
  pure := ret
  bind := bind

/-- Load one field. -/
def load (f : Field) : NodeM f.Val :=
  ld f ret

/-- Store one field. -/
def store (f : Field) (v : f.Val) : NodeM Unit :=
  st f v (ret ())

/-- Run a node program alone on a node. -/
def run : NodeM α → Fields → Option (α × Fields)
  | ret a, F => some (a, F)
  | ld f k, F => run (k (F f)) F
  | st f v k, F => run k (Function.update F f v)
  | fail, _ => none

/-- A program that only loads. -/
def ReadOnly : NodeM α → Prop
  | ret _ => True
  | ld _ k => ∀ v, ReadOnly (k v)
  | st _ _ _ => False
  | fail => False

end NodeM

open NodeM

/-! ## Header -/

/-- `NodeHeader::num_children_max`: the count, clamped. -/
def numChildrenMax (cap : ℕ) : NodeM ℕ := do
  let n ← load .numChildren
  return min n cap

/-- `NodeHeader::num_children`. -/
def numChildren (ty : NodeType) : NodeM ℕ :=
  numChildrenMax ty.capacity

/-- `NodeHeader::is_full`. -/
def isFull (ty : NodeType) : NodeM Bool := do
  let n ← numChildren ty
  return decide (ty.capacity ≤ n)

/-- `NodeHeader::exact_leaf`. -/
def exactLeaf : NodeM Slot :=
  load .exactLeaf

/-- `NodeHeader::set_exact_leaf` and `init_exact_leaf`. -/
def setExactLeaf (s : Slot) : NodeM Unit :=
  store .exactLeaf s

/-- `NodeHeader::set_num_children`. -/
def setNumChildren (n : ℕ) : NodeM Unit :=
  store .numChildren n

/-- `NodeHeader::prefix_len`, clamped. -/
def prefixLen : NodeM ℕ := do
  let n ← load .prefixLen
  return min n maxPrefixLen

/-- Sixteen bytes packed into two words (`pack16`); reading them back is `unpack16`. -/
def pack16 (bytes : ℕ → Byte) (i : Fin 2) : Word8 :=
  fun j => bytes (8 * i + j)

/-- `unpack16`. -/
def unpack16 (lo hi : Word8) (i : ℕ) : Byte :=
  if h : i < 8 then lo ⟨i, h⟩ else if h : i - 8 < 8 then hi ⟨i - 8, h⟩ else 0

/-- `PrefixSnapshot`: a length, at most `MAX_PREFIX_LEN`, and sixteen bytes. -/
structure PrefixSnapshot where
  len : ℕ
  bytes : ℕ → Byte

/-- `PrefixSnapshot::as_slice`. -/
def PrefixSnapshot.asSlice (p : PrefixSnapshot) : List Byte :=
  (List.range p.len).map p.bytes

/-- The number that little-endian bytes stand for. -/
def fromLeBytes : List Byte → ℕ
  | [] => 0
  | b :: bs => b + 256 * fromLeBytes bs

/-- `u128::from_le_bytes`, of sixteen bytes. -/
def u128FromLeBytes (bytes : List Byte) : BitVec 128 :=
  BitVec.ofNat 128 (fromLeBytes bytes)

/-- `PrefixSnapshot::is_prefix_of`: on sixteen bytes or more, a masked comparison of two
128-bit words; below that, a byte loop. -/
def PrefixSnapshot.isPrefixOf (p : PrefixSnapshot) (rest : List Byte) : Bool :=
  if p.len = 0 then true
  else if rest.length < p.len then false
  else if maxPrefixLen ≤ rest.length then
    let diff := u128FromLeBytes (rest.take maxPrefixLen) ^^^
      u128FromLeBytes ((List.range maxPrefixLen).map p.bytes)
    -- A shift by all 128 bits is none that the source may make.
    let mask := if p.len = maxPrefixLen then ~~~0#128 else (1#128 <<< (p.len * 8)) - 1#128
    diff &&& mask == 0#128
  else
    (List.range p.len).all fun i => rest[i]? == some (p.bytes i)

/-- `NodeHeader::load_prefix`. -/
def loadPrefix : NodeM PrefixSnapshot := do
  let len ← prefixLen
  if len = 0 then
    return ⟨0, fun _ => 0⟩
  else
    let lo ← load (.prefixWord 0)
    let hi ← load (.prefixWord 1)
    return ⟨len, unpack16 lo hi⟩

/-- `NodeHeader::write_prefix` (`store_prefix`, `init_prefix`). -/
def writePrefix (pre : List Byte) : NodeM Unit := do
  let len := min pre.length maxPrefixLen
  let bytes : ℕ → Byte := fun i => if i < len then pre.getD i 0 else 0
  store (.prefixWord 0) (pack16 bytes 0)
  store (.prefixWord 1) (pack16 bytes 1)
  store .prefixLen len

/-! ## The sorted layouts, `Node4` and `Node16` -/

/-- The first index below `count` that holds `b`. -/
def position (keys : ℕ → Byte) (count : ℕ) (b : Byte) : Option ℕ :=
  (List.range count).find? fun i => keys i == b

/-- `partition_point(|k| k < b)` on the first `count` keys, which are sorted. -/
def partitionPoint (keys : ℕ → Byte) (count : ℕ) (b : Byte) : ℕ :=
  (List.range count).findIdx fun i => !decide (keys i < b)

/-- The key array of a sorted layout, read word by word. -/
def loadKeys : NodeType → NodeM (ℕ → Byte)
  | .node4 => do
    let w ← load .keys4
    return fun i => if h : i < 4 then w ⟨i, h⟩ else 0
  | _ => do
    let lo ← load (.keys16 0)
    let hi ← load (.keys16 1)
    return unpack16 lo hi

/-- Writes the key array of a sorted layout back. -/
def storeKeys (ty : NodeType) (keys : ℕ → Byte) : NodeM Unit :=
  match ty with
  | .node4 => store .keys4 fun i => keys i
  | _ => do
    store (.keys16 0) (pack16 keys 0)
    store (.keys16 1) (pack16 keys 1)

/-- `for i in (pos..pos + k).rev()`: move key and child `i` to `i + 1`. -/
def shiftUp (pos : ℕ) : ℕ → (ℕ → Byte) → NodeM (ℕ → Byte)
  | 0, keys => return keys
  | k + 1, keys => do
    let c ← load (.child (pos + k))
    store (.child (pos + k + 1)) c
    shiftUp pos k (Function.update keys (pos + k + 1) (keys (pos + k)))

/-- `for i in pos..pos + k`: move key and child `i + 1` to `i`. -/
def shiftDown : ℕ → ℕ → (ℕ → Byte) → NodeM (ℕ → Byte)
  | _, 0, keys => return keys
  | pos, k + 1, keys => do
    let c ← load (.child (pos + 1))
    store (.child pos) c
    shiftDown (pos + 1) k (Function.update keys pos (keys (pos + 1)))

/-- `insert_child_raw` of a sorted layout. -/
def insertSorted (ty : NodeType) (b : Byte) (child : Slot) : NodeM Unit := do
  let count ← numChildren ty
  if count < ty.capacity then
    let keys ← loadKeys ty
    let pos := partitionPoint keys count b
    let keys ← shiftUp pos (count - pos) keys
    storeKeys ty (Function.update keys pos b)
    store (.child pos) child
    setNumChildren (count + 1)
  else
    fail

/-- `remove_child` of a sorted layout. -/
def removeSorted (ty : NodeType) (b : Byte) : NodeM Unit := do
  let count ← numChildren ty
  let keys ← loadKeys ty
  match position keys count b with
  | none => return ()
  | some pos =>
    let keys ← shiftDown pos (count - 1 - pos) keys
    store (.child (count - 1)) Slot.null
    storeKeys ty (Function.update keys (count - 1) 0)
    setNumChildren (count - 1)

/-- `find_child` of a sorted layout. -/
def findSorted (ty : NodeType) (b : Byte) : NodeM Slot := do
  let count ← numChildrenMax ty.capacity
  let keys ← loadKeys ty
  match position keys count b with
  | none => return .null
  | some i => load (.child i)

/-- `replace_child` of a sorted layout. -/
def replaceSorted (ty : NodeType) (b : Byte) (child : Slot) : NodeM Unit := do
  let count ← numChildren ty
  let keys ← loadKeys ty
  match position keys count b with
  | none => fail
  | some i => store (.child i) child

/-- The loop of `next_child` and `prev_child` over the indices of a sorted layout: the first
listed index whose key passes `ok` and whose slot is not null. -/
def scanSorted (keys : ℕ → Byte) (ok : Byte → Bool) : List ℕ → NodeM (Option (Byte × Slot))
  | [] => return none
  | i :: is =>
    if ok (keys i) then do
      let c ← load (.child i)
      if c = Slot.null then scanSorted keys ok is else return some (keys i, c)
    else scanSorted keys ok is

/-! ## Bitmaps -/

/-- The word of a bitmap that holds the bit of byte `b`. -/
def bitmapWord (b : Byte) : Fin 4 :=
  ⟨b / 64, by omega⟩

/-- `bitmap_set`. -/
def bitmapSet (b : Byte) : NodeM Unit := do
  let w ← load (.bitmap (bitmapWord b))
  store (.bitmap (bitmapWord b)) (w ||| 1#64 <<< (b.val % 64))

/-- `bitmap_clear`. -/
def bitmapClear (b : Byte) : NodeM Unit := do
  let w ← load (.bitmap (bitmapWord b))
  store (.bitmap (bitmapWord b)) (w &&& ~~~(1#64 <<< (b.val % 64)))

/-- `u64::trailing_zeros` of a word that is not zero: its lowest set bit. -/
def trailingZeros (w : BitVec 64) : ℕ :=
  (List.range 64).findIdx fun i => w.getLsbD i

/-- `63 - u64::leading_zeros` of a word that is not zero: its highest set bit. -/
def highestBit (w : BitVec 64) : ℕ :=
  63 - (List.range 64).findIdx fun i => w.getLsbD (63 - i)

/-- The loop of `bitmap_next`: `word` is what is left of word `4 - (n + 1)`. -/
def bitmapNextFrom : ℕ → BitVec 64 → NodeM (Option Byte)
  | 0, word =>
    return if word = 0#64 then none else some (Fin.ofNat 256 (3 * 64 + trailingZeros word))
  | n + 1, word =>
    if word = 0#64 then do
      let w ← load (.bitmap (Fin.ofNat 4 (3 - n)))
      bitmapNextFrom n w
    else
      return some (Fin.ofNat 256 ((3 - (n + 1)) * 64 + trailingZeros word))

/-- `bitmap_next`: the first set byte that is `start` or more. -/
def bitmapNext (start : ℕ) : NodeM (Option Byte) :=
  if 255 < start then return none
  else do
    let w ← load (.bitmap (Fin.ofNat 4 (start / 64)))
    bitmapNextFrom (3 - start / 64)
      (w &&& (BitVec.allOnes 64 <<< (start % 64)))

/-- The loop of `bitmap_prev`: `word` is what is left of word `n`. -/
def bitmapPrevFrom : ℕ → BitVec 64 → NodeM (Option Byte)
  | 0, word =>
    return if word = 0#64 then none else some (Fin.ofNat 256 (highestBit word))
  | n + 1, word =>
    if word = 0#64 then do
      let w ← load (.bitmap (Fin.ofNat 4 n))
      bitmapPrevFrom n w
    else
      return some (Fin.ofNat 256 ((n + 1) * 64 + highestBit word))

/-- `bitmap_prev`: the last set byte that is `upto` or less. -/
def bitmapPrev (upto : Byte) : NodeM (Option Byte) := do
  let bit := upto.val % 64
  let mask := if bit = 63 then BitVec.allOnes 64 else 1#64 <<< (bit + 1) - 1#64
  let w ← load (.bitmap (bitmapWord upto))
  bitmapPrevFrom (upto / 64) (w &&& mask)

/-! ## The layouts together -/

/-- `NodeHeader::find_child`; `None` is the null slot. -/
def findChild (ty : NodeType) (b : Byte) : NodeM Slot :=
  match ty with
  | .node4 | .node16 => findSorted ty b
  | .node48 => do
    let slot ← load (.childIndex b)
    if node48Empty ≤ slot then return .null else load (.child slot)
  | .node256 => load (.child b)

/-- The child slot that a table layout keeps for byte `b`: through the index table for a
`Node48`, directly for a `Node256`.  An index out of range reads as null. -/
def tableSlot (ty : NodeType) (b : Byte) : NodeM Slot :=
  match ty with
  | .node48 => do
    let slot ← load (.childIndex b)
    if slot < node48Empty then load (.child slot) else return .null
  | _ => load (.child b)

/-- The loop of `next_child` over a bitmap.  Every round starts at a larger byte, so 256
rounds are enough. -/
def nextTable (ty : NodeType) : ℕ → ℕ → NodeM (Option (Byte × Slot))
  | 0, _ => return none
  | fuel + 1, start => do
    match ← bitmapNext start with
    | none => return none
    | some b =>
      let c ← tableSlot ty b
      if c = .null then nextTable ty fuel (b + 1) else return some (b, c)

/-- The loop of `prev_child` over a bitmap.  Every round starts at a smaller byte. -/
def prevTable (ty : NodeType) : ℕ → Byte → NodeM (Option (Byte × Slot))
  | 0, _ => return none
  | fuel + 1, upto => do
    match ← bitmapPrev upto with
    | none => return none
    | some b =>
      let c ← tableSlot ty b
      if c = .null then
        if b.val = 0 then return none else prevTable ty fuel (b - 1)
      else return some (b, c)

/-- `NodeHeader::next_child`: the first child whose byte is `start` or more. -/
def nextChild (ty : NodeType) (start : ℕ) : NodeM (Option (Byte × Slot)) :=
  if 255 < start then return none
  else match ty with
    | .node4 | .node16 => do
      let count ← numChildren ty
      let keys ← loadKeys ty
      scanSorted keys (fun k => decide (start ≤ k.val)) (List.range count)
    | .node48 | .node256 => nextTable ty 256 start

/-- `NodeHeader::prev_child`: the last child whose byte is `upto` or less. -/
def prevChild (ty : NodeType) (upto : Byte) : NodeM (Option (Byte × Slot)) :=
  match ty with
  | .node4 | .node16 => do
    let count ← numChildren ty
    let keys ← loadKeys ty
    scanSorted keys (fun k => decide (k ≤ upto)) (List.range count).reverse
  | .node48 | .node256 => prevTable ty 256 upto

/-- The first free slot of a `Node48`, among the listed ones. -/
def freeSlot : List ℕ → NodeM ℕ
  | [] => fail
  | i :: is => do
    let c ← load (.child i)
    if c = Slot.null then return i else freeSlot is

/-- `NodeHeader::insert_child_raw`, behind `insert_child` and `push_child_unpublished`. -/
def insertChild (ty : NodeType) (b : Byte) (child : Slot) : NodeM Unit :=
  match ty with
  | .node4 | .node16 => insertSorted ty b child
  | .node48 => do
    let count ← numChildren ty
    if count < 48 then
      let slot ← freeSlot (List.range 48)
      store (.child slot) child
      store (.childIndex b) slot
      bitmapSet b
      setNumChildren (count + 1)
    else
      fail
  | .node256 => do
    let count ← numChildren ty
    store (.child b) child
    bitmapSet b
    setNumChildren (count + 1)

/-- `NodeHeader::replace_child`. -/
def replaceChild (ty : NodeType) (b : Byte) (child : Slot) : NodeM Unit :=
  match ty with
  | .node4 | .node16 => replaceSorted ty b child
  | .node48 => do
    let slot ← load (.childIndex b)
    if slot < node48Empty then store (.child slot) child else fail
  | .node256 => store (.child b) child

/-- The count of a table layout, less one. -/
def decNumChildren (ty : NodeType) : NodeM Unit := do
  let n ← numChildren ty
  if n = 0 then fail else setNumChildren (n - 1)

/-- `NodeHeader::remove_child`. -/
def removeChild (ty : NodeType) (b : Byte) : NodeM Unit :=
  match ty with
  | .node4 | .node16 => removeSorted ty b
  | .node48 => do
    let slot ← load (.childIndex b)
    if node48Empty ≤ slot then return ()
    else
      store (.childIndex b) node48Empty
      bitmapClear b
      store (.child slot) Slot.null
      decNumChildren ty
  | .node256 => do
    let c ← load (.child b)
    if c = Slot.null then return ()
    else
      store (.child b) Slot.null
      bitmapClear b
      decNumChildren ty

/-! ## What a node keeps -/

/-- `Taken`: the entry that a remove takes out. -/
inductive Taken where
  | exact
  | child (b : Byte)
  | nothing
  deriving DecidableEq

/-- `Rest`: what a node holds besides the taken entry. -/
inductive Rest where
  | empty
  | leaf (s : Slot)
  | inner (b : Byte) (s : Slot)
  | many
  deriving DecidableEq

/-- The number of child entries that `taken` takes out. -/
def Taken.children : Taken → ℕ
  | child _ => 1
  | _ => 0

/-- `NodeHeader::emptied_by`. -/
def emptiedBy (ty : NodeType) (taken : Taken) : NodeM Bool := do
  let exact ← exactLeaf
  let n ← numChildren ty
  let hasExact := decide (exact ≠ Slot.null ∧ taken ≠ .exact)
  return (n + hasExact.toNat) - taken.children == 0

/-- The loop of `NodeHeader::rest` over the children.  Every round starts at a larger
byte. -/
def restFrom (ty : NodeType) (taken : Taken) : ℕ → ℕ → Rest → NodeM Rest
  | 0, _, rest => return rest
  | fuel + 1, start, rest => do
    match ← nextChild ty start with
    | none => return rest
    | some (b, c) =>
      if taken = .child b then restFrom ty taken fuel (b + 1) rest
      else if rest = .empty then
        restFrom ty taken fuel (b + 1) (if c.isLeaf then .leaf c else .inner b c)
      else return .many

/-- `NodeHeader::rest`. -/
def restOf (ty : NodeType) (taken : Taken) : NodeM Rest := do
  let exact ← exactLeaf
  let hasExact := decide (exact ≠ Slot.null ∧ taken ≠ .exact)
  let n ← numChildren ty
  if 2 ≤ (n + hasExact.toNat) - taken.children then return .many
  else restFrom ty taken 257 0 (if hasExact then .leaf exact else .empty)

end Artmap
