import Artmap.Raw.Memory

/-!
# Lookups and inserts (`src/raw/read.rs`, `src/raw/write.rs`)

The point lookup and the insert of the tree, step by step.  The source's `'retry` loop is the
outer `Prog.iter` of each function and the descent its inner one, whose answer `none` (or
`Sum.inr (none, _)`) is the source's `continue 'retry`.
-/

namespace Artmap

/-- R4: the parent is unchanged since its version was read or, at the root, the root still
points at the node. -/
def stillLinked (parent : Option (NodeId × ℕ)) (cur : NodeId) : TreeM Bool :=
  match parent with
  | some (p, pv) => validate (.node p) pv
  | none => do
    let root ← onTree .loadRoot
    return decide (root = .node cur)

/-- The slot of a node where the search for `key` goes on, below its prefix. -/
def slotFor (n : NodeId) (key : Key) (nodeDepth : ℕ) : TreeM Slot :=
  if nodeDepth = key.length then onNode n exactLeaf
  else match key[nodeDepth]? with
    | some b => typed n (findChild · b)
    | none => crash

/-- One level of the descent of a lookup: a level down, back to the root (`none`), or an
answer. -/
def getLevel (key : Key) (s : NodeId × Option (NodeId × ℕ) × ℕ) :
    TreeM ((NodeId × Option (NodeId × ℕ) × ℕ) ⊕ Option (Option Leaf)) := do
  let (cur, parent, depth) := s
  let some v ← readVersion (.node cur) | return .inr none
  if !(← stillLinked parent cur) then return .inr none
  let pre ← onNode cur loadPrefix
  if !pre.isPrefixOf (key.drop depth) then
    if ← validate (.node cur) v then return .inr (some none) else return .inr none
  else
    let nodeDepth := depth + pre.len
    match ← slotFor cur key nodeDepth with
    | .node c => return .inl (c, some (cur, v), nodeDepth + 1)
    | .null =>
      if ← validate (.node cur) v then return .inr (some none) else return .inr none
    | .leaf l =>
      if ← validate (.node cur) v then
        return .inr (some (if l.key = key then some l else none))
      else return .inr none

/-- `RawTree::get`. -/
def get (key : Key) : TreeM (Option Leaf) :=
  Prog.iter (fun _ : Unit => do
    match ← onTree .loadRoot with
    | .null => return .inr none
    | .leaf l => return .inr (if l.key = key then some l else none)
    | .node n =>
      match ← Prog.iter (getLevel key) (n, none, 0) with
      | none => return .inl ()
      | some r => return .inr r) ()

/-! ## Parents -/

/-- `Parent`: where the parent of a node keeps it. -/
inductive Parent where
  | root
  | node (raw : NodeId) (version : ℕ) (byte : Byte)
  deriving DecidableEq

/-- `ParentGuard`: a held parent latch, with its version at acquisition. -/
inductive ParentGuard where
  | root (v : ℕ)
  | node (raw : NodeId) (v : ℕ) (byte : Byte)
  deriving DecidableEq

/-- `ParentGuard::unlock` (and dropping the guard): for a node parent, its new version. -/
def ParentGuard.unlock : ParentGuard → TreeM (Option ℕ)
  | .root v => do
    let _ ← Artmap.unlock .root v
    return none
  | .node p v _ => do
    let nv ← Artmap.unlock (.node p) v
    return some nv

/-- `RawTree::lock_parent`. -/
def lockParent (parent : Parent) (child : Slot) : TreeM (Option ParentGuard) :=
  match parent with
  | .root => do
    let some v ← lock .root | return none
    let root ← onTree .loadRoot
    if root = child then return some (.root v)
    else
      let _ ← unlock .root v
      return none
  | .node raw _ byte => do
    let some v ← lock (.node raw) | return none
    let c ← typed raw (findChild · byte)
    if c ≠ .null ∧ c = child then return some (.node raw v byte)
    else
      let _ ← unlock (.node raw) v
      return none

/-- `RawTree::publish_in_parent`. -/
def publishInParent (pg : ParentGuard) (new : Slot) : TreeM Unit :=
  match pg with
  | .root _ => onTree (.storeRoot new)
  | .node p _ byte => typed p (replaceChild · byte new)

/-- `RawTree::unlink_in_parent`. -/
def unlinkInParent (pg : ParentGuard) : TreeM Unit :=
  match pg with
  | .root _ => onTree (.storeRoot .null)
  | .node p _ byte => typed p (removeChild · byte)

/-- `RawTree::still_parent`. -/
def stillParent (parent : Parent) (child : Slot) : TreeM Bool :=
  match parent with
  | .root => do
    let root ← onTree .loadRoot
    return decide (root = child)
  | .node raw version _ => validate (.node raw) version

/-! ## Copies and chains -/

/-- The loop of `copy_into` over the children.  Every round starts at a larger byte. -/
def copyChildren (src dst : NodeId) : ℕ → ℕ → TreeM Unit
  | 0, _ => return ()
  | fuel + 1, start => do
    match ← typed src (nextChild · start) with
    | none => return ()
    | some (b, c) =>
      typed dst (insertChild · b c)
      copyChildren src dst fuel (b + 1)

/-- `NodeHeader::copy_into`. -/
def copyInto (src dst : NodeId) : TreeM Unit := do
  let pre ← onNode src loadPrefix
  onNode dst (writePrefix pre.asSlice)
  let exact ← onNode src exactLeaf
  onNode dst (setExactLeaf exact)
  copyChildren src dst 257 0

/-- The cut of a prefix into segments of sixteen bytes and a branch byte, above what the
bottom node keeps.  (The source's loop removes seventeen bytes a round.) -/
def segments : ℕ → List Byte → List (List Byte × Byte) × List Byte
  | 0, rest => ([], rest)
  | fuel + 1, rest =>
    if maxPrefixLen < rest.length then
      let (segs, bottom) := segments fuel (rest.drop (maxPrefixLen + 1))
      ((rest.take maxPrefixLen, rest.getD maxPrefixLen 0) :: segs, bottom)
    else ([], rest)

/-- One leaf of the fork at the bottom of a chain: the exact leaf if its key ends there,
otherwise a child. -/
def forkLeaf (bottom : NodeId) (suffix : List Byte) (common : ℕ) (leaf : Slot) : TreeM Unit :=
  match suffix[common]? with
  | none => onNode bottom (setExactLeaf leaf)
  | some byte => typed bottom (insertChild · byte leaf)

/-- The links of a chain above `below`, innermost first; `none` if there is no room. -/
def buildLinks : List (List Byte × Byte) → Pool → Slot → TreeM (Option Slot × Pool)
  | [], prep, below => return (some below, prep)
  | (seg, byte) :: segs, prep, below => do
    match ← prep.node .node4 with
    | (none, prep) => return (none, prep)
    | (some n, prep) =>
      onNode n (writePrefix seg)
      typed n (insertChild · byte below)
      buildLinks segs prep (.node n)

/-- `RawTree::build_chain`: the unpublished chain that holds two leaves diverging after
`pre`, as its top slot and its bottom node; `none` if there is no room. -/
def buildChain (prep : Pool) (pre : List Byte) (a b : List Byte × Slot) (common : ℕ) :
    TreeM (Option (Slot × NodeId) × Pool) := do
  let (segs, rest) := segments pre.length pre
  match ← prep.node .node4 with
  | (none, prep) => return (none, prep)
  | (some bottom, prep) =>
    onNode bottom (writePrefix rest)
    forkLeaf bottom a.1 common a.2
    forkLeaf bottom b.1 common b.2
    let (top, prep) ← buildLinks segs.reverse prep (.node bottom)
    return (top.map fun top => (top, bottom), prep)

/-! ## Insert -/

/-- `Mode`. -/
inductive Mode where
  | replace
  | insertIfAbsent
  deriving DecidableEq

/-- `Outcome`. -/
inductive Outcome where
  | inserted (l : Leaf)
  | replaced (l : Leaf)
  | existing (l : Leaf)
  deriving DecidableEq

/-- What an insert answers: its outcome, where the leaf landed, the unused nodes, and what has
become of the owner of the leaf, which is disarmed before the store that publishes the leaf. -/
structure Landed where
  /-- `none` is `S::Full`. -/
  outcome : Option Outcome
  hint : Option Hint
  prep : Pool
  owner : Unpublished

/-- There was no room for a node. -/
def Landed.full (l : Leaf) (prep : Pool) : Landed :=
  ⟨none, none, prep, .armed l⟩

/-- The state of the descent of an insert. -/
structure Descent where
  prep : Pool
  parent : Parent
  node : NodeId
  depth : ℕ

/-- How one level of the descent of an insert goes on: a level down, back to the root, or an
answer. -/
abbrev Level := Descent ⊕ (Pool ⊕ Landed)

/-- The prefix split (§9.6). -/
def splitPrefix (l : Leaf) (count : ℤ) (prep : Pool) (parent : Parent) (n : NodeId)
    (depth v : ℕ) (pre : PrefixSnapshot) (matched : ℕ) : TreeM Level := do
  if !(← validate (.node n) v) then return .inr (.inl prep)
  match ← prep.node .node4 with
  | (none, prep) => return .inr (.inr (.full l prep))
  | (some split, prep) =>
    onNode split (writePrefix (pre.asSlice.take matched))
    typed split (insertChild · (pre.bytes matched) (.node n))
    if depth + matched = l.key.length then onNode split (setExactLeaf (.leaf l))
    else match l.key[depth + matched]? with
      | some b => typed split (insertChild · b (.leaf l))
      | none => crash
    let some pg ← lockParent parent (.node n) | return .inr (.inl prep)
    let some nw ← tryUpgrade (.node n) v
      | do
        let _ ← pg.unlock
        return .inr (.inl prep)
    -- This node's path changes, under its own latch.
    onNode n (writePrefix (pre.asSlice.drop (matched + 1)))
    onLeaf (.lenAdd count)
    publishInParent pg (.node split)
    let _ ← unlock (.node n) nw
    let _ ← pg.unlock
    return .inr (.inr
      ⟨some (.inserted l), some ⟨split, 0, depth + matched⟩, prep.commit, .disarmed⟩)

/-- The exact-leaf home. -/
def insertExact (kind : LeafKind) (l : Leaf) (mode : Mode) (count : ℤ) (prep : Pool) (n : NodeId)
    (v : ℕ) : TreeM Level := do
  let exact ← onNode n exactLeaf
  if !(← validate (.node n) v) then return .inr (.inl prep)
  match exact with
  | .leaf old =>
    if mode = .insertIfAbsent then
      return .inr (.inr ⟨some (.existing old), none, prep, .armed l⟩)
    let some nw ← tryUpgrade (.node n) v | return .inr (.inl prep)
    onNode n (setExactLeaf (.leaf l))
    markRemoved kind old
    let _ ← unlock (.node n) nw
    onLeaf (.retireLeaf old)
    return .inr (.inr ⟨some (.replaced old), none, prep, .disarmed⟩)
  | .null =>
    let some nw ← tryUpgrade (.node n) v | return .inr (.inl prep)
    onLeaf (.lenAdd count)
    onNode n (setExactLeaf (.leaf l))
    let _ ← unlock (.node n) nw
    return .inr (.inr ⟨some (.inserted l), none, prep, .disarmed⟩)
  | .node _ => crash

/-- Growth (§9.5): the full node is replaced by a larger copy that holds the new leaf. -/
def growNode (l : Leaf) (count : ℤ) (prep : Pool) (parent : Parent) (n : NodeId)
    (v nodeDepth : ℕ) (byte : Byte) : TreeM Level := do
  let ty ← onTree (.nodeType n)
  let some grownTy := ty.grown | crash
  match ← prep.node grownTy with
  | (none, prep) => return .inr (.inr (.full l prep))
  | (some grown, prep) =>
    let some pg ← lockParent parent (.node n) | return .inr (.inl prep)
    let some nw ← tryUpgrade (.node n) v
      | do
        let _ ← pg.unlock
        return .inr (.inl prep)
    copyInto n grown
    typed grown (insertChild · byte (.leaf l))
    onLeaf (.lenAdd count)
    publishInParent pg (.node grown)
    markObsolete (.node n) nw
    let _ ← pg.unlock
    onTree (.retireNode n)
    return .inr (.inr
      ⟨some (.inserted l), some ⟨grown, 0, nodeDepth⟩, prep.commit, .disarmed⟩)

/-- Room in the node: only this node is locked. -/
def insertRoom (l : Leaf) (count : ℤ) (prep : Pool) (n : NodeId) (v nodeDepth : ℕ)
    (byte : Byte) : TreeM Level := do
  let some nw ← tryUpgrade (.node n) v | return .inr (.inl prep)
  onLeaf (.lenAdd count)
  typed n (insertChild · byte (.leaf l))
  let nv ← unlock (.node n) nw
  return .inr (.inr ⟨some (.inserted l), some ⟨n, nv, nodeDepth⟩, prep, .disarmed⟩)

/-- A leaf in the way: replaced if its key is equal, otherwise split. -/
def insertAtLeaf (kind : LeafKind) (l : Leaf) (mode : Mode) (count : ℤ) (prep : Pool)
    (n : NodeId) (v nodeDepth : ℕ) (byte : Byte) (old : Leaf) : TreeM Level := do
  if old.key = l.key then
    if mode = .insertIfAbsent then
      return .inr (.inr ⟨some (.existing old), none, prep, .armed l⟩)
    let some nw ← tryUpgrade (.node n) v | return .inr (.inl prep)
    typed n (replaceChild · byte (.leaf l))
    markRemoved kind old
    let _ ← unlock (.node n) nw
    onLeaf (.retireLeaf old)
    return .inr (.inr ⟨some (.replaced old), none, prep, .disarmed⟩)
  else
    -- Both keys continue below `byte`.
    let start := nodeDepth + 1
    let es := old.key.drop start
    let ns := l.key.drop start
    let common := commonPrefix es ns
    match ← buildChain prep (ns.take common) (es, .leaf old) (ns, .leaf l) common with
    | (none, prep) => return .inr (.inr (.full l prep))
    | (some (chain, bottom), prep) =>
      let some nw ← tryUpgrade (.node n) v | return .inr (.inl prep)
      onLeaf (.lenAdd count)
      typed n (replaceChild · byte chain)
      let _ ← unlock (.node n) nw
      return .inr (.inr
        ⟨some (.inserted l), some ⟨bottom, 0, start + common⟩, prep.commit, .disarmed⟩)

/-- One level of the descent of an insert. -/
def insertLevel (kind : LeafKind) (l : Leaf) (mode : Mode) (count : ℤ) (d : Descent) :
    TreeM Level := do
  let some v ← readVersion (.node d.node) | return .inr (.inl d.prep)
  if !(← stillParent d.parent (.node d.node)) then return .inr (.inl d.prep)
  let pre ← onNode d.node loadPrefix
  let rest := l.key.drop d.depth
  let matched := if pre.isPrefixOf rest then pre.len else commonPrefix pre.asSlice rest
  if matched < pre.len then
    splitPrefix l count d.prep d.parent d.node d.depth v pre matched
  else
    let nodeDepth := d.depth + pre.len
    if nodeDepth = l.key.length then insertExact kind l mode count d.prep d.node v
    else match l.key[nodeDepth]? with
      | none => crash
      | some byte =>
        match ← typed d.node (findChild · byte) with
        | .node c => return .inl ⟨d.prep, .node d.node v byte, c, nodeDepth + 1⟩
        | child =>
          let full ← typed d.node isFull
          if !(← validate (.node d.node) v) then return .inr (.inl d.prep)
          match child with
          | .leaf old => insertAtLeaf kind l mode count d.prep d.node v nodeDepth byte old
          | _ =>
            if full then growNode l count d.prep d.parent d.node v nodeDepth byte
            else insertRoom l count d.prep d.node v nodeDepth byte

/-- An insert into an empty tree, which publishes the first leaf. -/
def insertFirst (l : Leaf) (count : ℤ) (prep : Pool) : TreeM (Pool ⊕ Landed) := do
  let some w ← lock .root | crash
  let root ← onTree .loadRoot
  if root ≠ .null then
    let _ ← unlock .root w
    return .inl prep
  onLeaf (.lenAdd count)
  onTree (.storeRoot (.leaf l))
  let _ ← unlock .root w
  return .inr ⟨some (.inserted l), none, prep, .disarmed⟩

/-- An insert over a single leaf at the root. -/
def insertAtRoot (kind : LeafKind) (l : Leaf) (mode : Mode) (count : ℤ) (prep : Pool)
    (old : Leaf) : TreeM (Pool ⊕ Landed) := do
  if old.key = l.key then
    if mode = .insertIfAbsent then return .inr ⟨some (.existing old), none, prep, .armed l⟩
    let some w ← lock .root | crash
    let root ← onTree .loadRoot
    if root ≠ .leaf old then
      let _ ← unlock .root w
      return .inl prep
    onTree (.storeRoot (.leaf l))
    markRemoved kind old
    let _ ← unlock .root w
    onLeaf (.retireLeaf old)
    return .inr ⟨some (.replaced old), none, prep, .disarmed⟩
  else
    let common := commonPrefix old.key l.key
    match ← buildChain prep (l.key.take common) (old.key, .leaf old) (l.key, .leaf l) common with
    | (none, prep) => return .inr (.full l prep)
    | (some (chain, _), prep) =>
      let some w ← lock .root | crash
      let root ← onTree .loadRoot
      if root ≠ .leaf old then
        let _ ← unlock .root w
        return .inl prep
      onLeaf (.lenAdd count)
      onTree (.storeRoot chain)
      let _ ← unlock .root w
      return .inr ⟨some (.inserted l), none, prep.commit, .disarmed⟩

/-- `RawTree::insert_with`, for the leaf `l`; the key bytes are the leaf's own. -/
def insertWith (kind : LeafKind) (l : Leaf) (mode : Mode) (count : ℤ) : TreeM Landed :=
  Prog.iter (fun prep : Pool => do
    let prep := prep.reset
    match ← onTree .loadRoot with
    | .null => insertFirst l count prep
    | .leaf old => insertAtRoot kind l mode count prep old
    | .node n => Prog.iter (insertLevel kind l mode count) ⟨prep, .root, n, 0⟩) []

/-- `RawTree::insert_hinted`: its outcome, `none` if there was no room, where the leaf landed, and
what has become of its owner. -/
def insertHinted (kind : LeafKind) (l : Leaf) (mode : Mode) (count : ℤ) :
    TreeM (Option Outcome × Option Hint × Unpublished) := do
  let r ← insertWith kind l mode count
  Pool.release r.prep
  return (r.outcome, r.hint, r.owner)

/-- `RawTree::insert`. -/
def insert (kind : LeafKind) (l : Leaf) (mode : Mode) (count : ℤ) :
    TreeM (Option Outcome × Unpublished) := do
  let r ← insertHinted kind l mode count
  return (r.1, r.2.2)

end Artmap
