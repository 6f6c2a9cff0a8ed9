import Artmap.Framework.Survey
import Artmap.Raw.Keys
import Artmap.Raw.Write

/-!
# The cursor (`src/raw/cursor.rs`)

A cursor yields the leaves of a key range from both ends.  Each end keeps a stack of frames: a
node, the version at which it was read, and a position in it, given by a key byte.  Every step
checks the versions of the nodes it has read from.  If one has changed, the stack is given up and
the cursor seeks again, past the last key it has yielded.

The source keeps the first frames of a stack, and short keys, inline; here they are lists.  A
batch is the part of the source's array that is in use.  Directions and bounds are those of
surveys.
-/

namespace Artmap

/-- `above_start`. -/
def aboveStart (k : Key) : Bound Key → Bool
  | .included s => (cmpKeys k s).isGE
  | .excluded s => (cmpKeys k s).isGT
  | .unbounded => true

/-- `below_end`. -/
def belowEnd (k : Key) : Bound Key → Bool
  | .included e => (cmpKeys k e).isLE
  | .excluded e => (cmpKeys k e).isLT
  | .unbounded => true

/-- `Frame`. -/
structure Frame where
  node : NodeId
  version : ℕ
  /-- Forward: the children at this byte and above it remain.  Backward: those at this byte and
  below it do; `-1` means none. -/
  next : ℤ
  /-- The exact leaf has not been visited yet.  Forward cursors visit it first, backward cursors
  last. -/
  exact : Bool
  deriving DecidableEq

/-- `edge_frame`: before the first, or after the last, entry of a node. -/
def edgeFrame (node : NodeId) (version : ℕ) : Dir → Frame
  | .forward => ⟨node, version, 0, true⟩
  | .backward => ⟨node, version, 255, true⟩

/-- `Resume`: where an end of the cursor goes on from. -/
inductive Resume where
  /-- The last leaf that was yielded. -/
  | leaf (l : Leaf)
  /-- A copy of its key. -/
  | key (k : Key)
  deriving DecidableEq

/-- `Resume::key`. -/
def Resume.bytes : Resume → Key
  | leaf l => l.key
  | key k => k

/-- `Side`: one end of a cursor. -/
structure Side where
  /-- The frames, the top one first. -/
  stack : List Frame
  /-- A leaf that the seek has found: the root. -/
  pending : Option Leaf
  /-- Consecutive leaf children of the top frame that were validated together. -/
  batch : List Leaf
  batchPos : ℕ
  /-- Every leaf that is left in the batch is inside the far bound. -/
  batchInRange : Bool
  last : Option Resume
  positioned : Bool
  deriving DecidableEq

namespace Side

/-- `Side::new`. -/
def new : Side where
  stack := []
  pending := none
  batch := []
  batchPos := 0
  batchInRange := false
  last := none
  positioned := false

/-- `Side::reset`. -/
def reset (s : Side) : Side :=
  { s with stack := [], pending := none, batch := [], batchPos := 0, batchInRange := false }

/-- `Side::remember`. -/
def remember (s : Side) (l : Leaf) : Side :=
  { s with last := some (.leaf l) }

/-- What `Cursor::invalidate` does to one end. -/
def invalidate (s : Side) : Side :=
  { s.reset with positioned := false, last := s.last.map fun r => .key r.bytes }

end Side

/-- `Cursor`. -/
structure Cursor where
  start : Bound Key
  stop : Bound Key
  front : Side
  back : Side
  done : Bool
  deriving DecidableEq

/-- `Step`: the outcome of one step. -/
inductive CursorStep where
  | leaf (l : Leaf)
  /-- The first leaf of a batch that has just been gathered. -/
  | batch (l : Leaf)
  | ended
  | invalid
  deriving DecidableEq

/-- `BATCH`. -/
def batchSize : ℕ := 16

namespace Cursor

/-! ## Seeking -/

/-- A key diverges inside the prefix of a node, after `m` bytes of it: the keys of the subtree
are after the key. -/
def subtreeAfterKey (pre : PrefixSnapshot) (rest : List Byte) (m : ℕ) : Bool :=
  decide (m = rest.length ∨ rest.getD m 0 < pre.bytes m)

/-- The frame of a node whose child at `byte` the seek goes on with. -/
def passedFrame (node : NodeId) (version : ℕ) (byte : Byte) : Dir → Frame
  | .forward => ⟨node, version, (byte.val : ℤ) + 1, false⟩
  | .backward => ⟨node, version, (byte.val : ℤ) - 1, true⟩

/-- The frame of a node whose prefix ends where the key does. -/
def exactFrame (node : NodeId) (version : ℕ) (inclusive : Bool) : Dir → Frame
  | .forward => ⟨node, version, 0, inclusive⟩
  | .backward => ⟨node, version, -1, inclusive⟩

/-- A leaf on the way of the key is inside the bound. -/
def takesLeaf (key : Key) (inclusive : Bool) (k : Key) : Dir → Bool
  | .forward => decide (key < k) || inclusive && decide (k = key)
  | .backward => decide (k < key) || inclusive && decide (k = key)

/-- One level of the descent of `seek`: a level down, back to the root (`none`), or the frames. -/
def seekLevel (key : Key) (inclusive : Bool) (dir : Dir) (s : List Frame × NodeId × ℕ) :
    TreeM ((List Frame × NodeId × ℕ) ⊕ Option (List Frame)) := do
  let (stack, node, depth) := s
  let some v ← readVersion (.node node) | return .inr none
  if !(← stillLinked (stack.head?.map fun f => (f.node, f.version)) node) then return .inr none
  let pre ← onNode node loadPrefix
  let rest := key.drop depth
  let m := commonPrefix pre.asSlice rest
  if m < pre.len then
    if !(← validate (.node node) v) then return .inr none
    if subtreeAfterKey pre rest m = decide (dir = .forward) then
      return .inr (some (edgeFrame node v dir :: stack))
    else return .inr (some stack)
  else
    let nodeDepth := depth + pre.len
    if nodeDepth = key.length then
      if !(← validate (.node node) v) then return .inr none
      return .inr (some (exactFrame node v inclusive dir :: stack))
    else match key[nodeDepth]? with
      | none => crash
      | some byte =>
        let child ← typed node (findChild · byte)
        if !(← validate (.node node) v) then return .inr none
        let frame := passedFrame node v byte dir
        match child with
        | .null => return .inr (some (frame :: stack))
        | .leaf l =>
          if takesLeaf key inclusive l.key dir then
            return .inr (some ({ frame with next := byte.val } :: stack))
          else return .inr (some (frame :: stack))
        | .node c => return .inl (frame :: stack, c, nodeDepth + 1)

/-- The root is a leaf: it is inside the bound. -/
def takesRoot (bound : Bound Key) (k : Key) : Dir → Bool
  | .forward => aboveStart k bound
  | .backward => belowEnd k bound

/-- The key of a bound, and whether it is inside. -/
def boundKey : Bound Key → Option (Key × Bool)
  | .included k => some (k, true)
  | .excluded k => some (k, false)
  | .unbounded => none

/-- `seek`: positions an end of the cursor before the first key, in its direction, that is inside
the bound. -/
def seek (bound : Bound Key) (dir : Dir) (side : Side) : TreeM Side :=
  Prog.iter (fun side : Side => do
    let side := side.reset
    match ← onTree .loadRoot with
    | .null => return .inr side
    | .leaf l =>
      return .inr (if takesRoot bound l.key dir then { side with pending := some l } else side)
    | .node root =>
      match boundKey bound with
      | none => do
        let some v ← readVersion (.node root) | return .inl side
        if !(← stillLinked none root) then return .inl side
        return .inr { side with stack := [edgeFrame root v dir] }
      | some (key, inclusive) => do
        match ← Prog.iter (seekLevel key inclusive dir) ([], root, 0) with
        | none => return .inl side
        | some stack => return .inr { side with stack := stack }) side

/-! ## Steps -/

/-- The child at position `next` of a node, or the first one after it in the direction. -/
def childFrom (dir : Dir) (node : NodeId) (next : ℤ) : TreeM (Option (Byte × Slot)) :=
  match dir with
  | .forward =>
    if next ≤ 255 then typed node (nextChild · next.toNat) else return none
  | .backward =>
    if 0 ≤ next then typed node (prevChild · (Fin.ofNat 256 next.toNat)) else return none

/-- The position after a child. -/
def after (dir : Dir) (byte : Byte) : ℤ :=
  match dir with
  | .forward => (byte.val : ℤ) + 1
  | .backward => (byte.val : ℤ) - 1

/-- The loop of `step` over the children of a node: gathers consecutive leaves, or the inner node
that comes first.  Every round gathers a leaf, and sixteen of them are a batch. -/
def gather (dir : Dir) (node : NodeId) :
    ℕ → List Leaf → ℤ → TreeM (List Leaf × Option NodeId × ℤ)
  | 0, leaves, next => return (leaves, none, next)
  | fuel + 1, leaves, next => do
    match ← childFrom dir node next with
    | none => return (leaves, none, next)
    | some (byte, .leaf l) => gather dir node fuel (leaves ++ [l]) (after dir byte)
    | some (byte, .node c) =>
      if leaves = [] then return (leaves, some c, after dir byte)
      else return (leaves, none, next)
    | some (_, .null) => crash

/-- The exact leaf of a frame comes next. -/
def exactNow (dir : Dir) (f : Frame) : Bool :=
  match dir with
  | .forward => f.exact
  | .backward => f.exact && decide (f.next < 0)

/-- Nothing is left at the children of the top frame. -/
def exhaust (dir : Dir) (f : Frame) (stack : List Frame) : List Frame :=
  match dir with
  | .forward => stack
  | .backward => if f.exact then { f with next := -1 } :: stack else stack

/-- One round of the loop of `step`. -/
def stepRound (dir : Dir) (side : Side) : TreeM (Side ⊕ CursorStep × Side) :=
  match side.stack with
  | [] => return .inr (.ended, side)
  | top :: stack => do
    if exactNow dir top then
      let top := { top with exact := false }
      let side := { side with stack := top :: stack }
      let exact ← onNode top.node exactLeaf
      if !(← validate (.node top.node) top.version) then return .inr (.invalid, side)
      match exact with
      | .null => return .inl side
      | .leaf l => return .inr (.leaf l, side)
      | .node _ => crash
    else
      let (leaves, inner, next) ← gather dir top.node batchSize [] top.next
      match inner with
      | some child => do
        let side := { side with stack := { top with next := next } :: stack }
        let some cv ← readVersion (.node child) | return .inr (.invalid, side)
        if !(← validate (.node top.node) top.version) then return .inr (.invalid, side)
        return .inl { side with stack := edgeFrame child cv dir :: side.stack }
      | none => do
        if !(← validate (.node top.node) top.version) then return .inr (.invalid, side)
        match leaves with
        | l :: _ =>
          return .inr (.batch l, { side with
            stack := { top with next := next } :: stack
            batch := leaves
            batchPos := 1
            batchInRange := false })
        | [] => return .inl { side with stack := exhaust dir { top with next := next } stack }

/-- `step`: one validated step of an end of the cursor. -/
def step (dir : Dir) (side : Side) : TreeM (CursorStep × Side) :=
  match side.batch[side.batchPos]? with
  | some l => return (.leaf l, { side with batchPos := side.batchPos + 1 })
  | none => Prog.iter (stepRound dir) side

/-! ## Both ends -/

/-- `Cursor::new`. -/
def new (start stop : Bound Key) : Cursor where
  start := start
  stop := stop
  front := Side.new
  back := Side.new
  done := false

/-- `Cursor::invalidate`. -/
def invalidate (c : Cursor) : Cursor :=
  { c with front := c.front.invalidate, back := c.back.invalidate }

/-- The end of the cursor that moves in a direction. -/
def side (c : Cursor) : Dir → Side
  | .forward => c.front
  | .backward => c.back

def setSide (c : Cursor) (dir : Dir) (s : Side) : Cursor :=
  match dir with
  | .forward => { c with front := s }
  | .backward => { c with back := s }

/-- Where an end of the cursor seeks from. -/
def resumeBound (c : Cursor) (dir : Dir) : Bound Key :=
  match (c.side dir).last with
  | some r => .excluded r.bytes
  | none => match dir with
    | .forward => c.start
    | .backward => c.stop

/-- A key is inside the bound at the other end of the range. -/
def inRange (c : Cursor) (dir : Dir) (k : Key) : Bool :=
  match dir with
  | .forward => belowEnd k c.stop
  | .backward => aboveStart k c.start

/-- A key is at the last key of the other end, or past it. -/
def crossed (c : Cursor) (dir : Dir) (k : Key) : Bool :=
  match (c.side dir.flip).last, dir with
  | none, _ => false
  | some b, .forward => (cmpKeys k b.bytes).isGE
  | some f, .backward => (cmpKeys k f.bytes).isLE

/-- `Cursor::accept`. -/
def accept (c : Cursor) (dir : Dir) (l : Leaf) : Option Leaf × Cursor :=
  if !c.inRange dir l.key || c.crossed dir l.key then (none, { c with done := true })
  else (some l, c.setSide dir ((c.side dir).remember l))

/-- Seeks, unless the end of the cursor has a position. -/
def position (dir : Dir) (c : Cursor) : TreeM Side :=
  if (c.side dir).positioned then return c.side dir
  else do
    let side ← seek (c.resumeBound dir) dir (c.side dir)
    return { side with positioned := true }

/-- `Cursor::advance_slow`. -/
def advanceSlow (dir : Dir) (c : Cursor) : TreeM (Option Leaf × Cursor) :=
  Prog.iter (fun c : Cursor => do
    if c.done then return .inr (none, c)
    let side ← position dir c
    match side.pending with
    | some l => return .inr ((c.setSide dir { side with pending := none }).accept dir l)
    | none =>
      match ← step dir side with
      | (.leaf l, side) => return .inr ((c.setSide dir side).accept dir l)
      | (.batch l, side) =>
        let side := { side with batchInRange := c.inRange dir (side.batch.getLastD l).key }
        return .inr ((c.setSide dir side).accept dir l)
      | (.ended, side) => return .inr (none, { c.setSide dir side with done := true })
      | (.invalid, side) => return .inl (c.setSide dir { side with positioned := false })) c

/-- `Cursor::advance`: a leaf of the batch that needs no check, or the slow path. -/
def advance (dir : Dir) (c : Cursor) : TreeM (Option Leaf × Cursor) :=
  match (c.side dir).batch[(c.side dir).batchPos]? with
  | some l =>
    if (c.side dir).batchInRange && (c.side dir.flip).last.isNone && (c.side dir).pending.isNone &&
        (c.side dir).positioned && !c.done then
      return (some l, c.setSide dir
        ({ c.side dir with batchPos := (c.side dir).batchPos + 1 }.remember l))
    else advanceSlow dir c
  | none => advanceSlow dir c

/-- `Cursor::next`. -/
def next : Cursor → TreeM (Option Leaf × Cursor) :=
  advance .forward

/-- `Cursor::next_back`. -/
def nextBack : Cursor → TreeM (Option Leaf × Cursor) :=
  advance .backward

end Cursor

/-! ## Iterators (`src/iter.rs`) -/

/-- What the user of a cursor does: what it calls next may depend on the entries it got. -/
inductive Caller where
  | stop
  | next (k : Option Leaf → Caller)
  | nextBack (k : Option Leaf → Caller)
  /-- Invalidates the cursor before the guard is repinned, as the versioned `prune_all` does; the
  user of an iterator cannot. -/
  | repin (k : Caller)

/-- The calls of `Range::next` and `Range::next_back` that a user makes, with their answers. -/
def Caller.drive : Caller → Cursor → TreeM (List (Dir × Option Leaf))
  | stop, _ => return []
  | next k, c => do
    let (r, c) ← c.next
    let rest ← (k r).drive c
    return (.forward, r) :: rest
  | nextBack k, c => do
    let (r, c) ← c.nextBack
    let rest ← (k r).drive c
    return (.backward, r) :: rest
  | repin k, c => k.drive c.invalidate

/-- A `Range` over the keys between two bounds, and what its user does with it. -/
def range (start stop : Bound Key) (user : Caller) : TreeM (List (Dir × Option Leaf)) :=
  user.drive (Cursor.new start stop)

/-- One round of the loop of `ArtMap::scan`: the entries that the callback has been called with, and
the cursor. -/
def scanRound (callback : List Leaf → Bool) (s : List Leaf × Cursor) :
    TreeM ((List Leaf × Cursor) ⊕ List Leaf) := do
  let (r, c) ← s.2.next
  match r with
  | none => return .inr s.1
  | some l =>
    if callback (s.1 ++ [l]) then return .inl (s.1 ++ [l], c)
    else return .inr (s.1 ++ [l])

/-- `ArtMap::scan`: the entries that the callback is called with.  What it answers may depend on
those that it has been called with before. -/
def scan (start stop : Bound Key) (callback : List Leaf → Bool) : TreeM (List Leaf) :=
  Prog.iter (scanRound callback) ([], Cursor.new start stop)

end Artmap
