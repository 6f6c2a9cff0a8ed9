import Artmap.Raw.Write

/-!
# Removes and unlinking (`src/raw/remove.rs`)

A remove takes one leaf out of its node.  If that leaves the node empty, the same critical
section unlinks the node from its parent; and if that in turn leaves the parent empty, the
follow-up `unlinkEmptied` unlinks upwards, as a new operation that starts from the root.
-/

namespace Artmap

/-- `Unlink`: how the latched part of an emptying remove ends. -/
inductive Unlink where
  | retry
  | refused
  | done (followUp : Bool)
  deriving DecidableEq

/-- `take_out`: takes the removed leaf out of a node that stays linked. -/
def takeOut (n : NodeId) (taken : Taken) : TreeM Unit :=
  match taken with
  | .exact => onNode n (setExactLeaf .null)
  | .child b => typed n (removeChild · b)
  | .nothing => return ()

/-- Whether the parent behind a guard is left empty. -/
def ParentGuard.emptied (pg : ParentGuard) : TreeM Bool :=
  match pg with
  | .root _ => return false
  | .node p _ _ => typed p (emptiedBy · .nothing)

/-- `RawTree::remove_unlinking`: the latched part of a remove that takes the last entry of
node `n`. -/
def removeUnlinking (kind : LeafKind) (confirm : Leaf → TreeM (Option ℤ)) (parent : Parent)
    (n : NodeId) (v : ℕ) (leaf : Leaf) : TreeM Unlink := do
  let some pg ← lockParent parent (.node n) | return .retry
  let some nw ← tryUpgrade (.node n) v
    | do
      let _ ← pg.unlock
      return .retry
  match ← confirm leaf with
  | none =>
    let _ ← unlock (.node n) nw
    let _ ← pg.unlock
    return .refused
  | some count =>
    -- The store that unlinks the node, and with it the removed leaf.
    unlinkInParent pg
    markRemoved kind leaf
    onLeaf (.lenAdd (-count))
    markObsolete (.node n) nw
    let followUp ← pg.emptied
    let _ ← pg.unlock
    onLeaf (.retireLeaf leaf)
    onTree (.retireNode n)
    return .done followUp

/-! ## The follow-up -/

/-- The ancestors of the node at hand, innermost first: node, version, and byte to its
child. -/
abbrev Ancestors := List (NodeId × ℕ × Byte)

/-- The parent that a list of ancestors ends in. -/
def parentOf : Ancestors → Parent
  | [] => .root
  | (raw, version, byte) :: _ => .node raw version byte

/-- The inner child of a node on the path of `key`, with its byte. -/
def nextOnPath (n : NodeId) (key : Key) (depth : ℕ) (pre : PrefixSnapshot) :
    TreeM (Option (Byte × NodeId)) :=
  match key[depth + pre.len]? with
  | none => return none
  | some byte =>
    if pre.isPrefixOf (key.drop depth) then do
      match ← typed n (findChild · byte) with
      | .node c => return some (byte, c)
      | _ => return none
    else return none

/-- One level of the descent to the last inner node on the path of `key`: a level down, back
to the root (`none`), or the node found, with its version if it is empty. -/
def emptiedLevel (key : Key) (s : Ancestors × NodeId × ℕ) :
    TreeM ((Ancestors × NodeId × ℕ) ⊕ Option (Option (Ancestors × NodeId × ℕ))) := do
  let (path, n, depth) := s
  let some v ← readVersion (.node n) | return .inr none
  if !(← stillParent (parentOf path) (.node n)) then return .inr none
  let pre ← onNode n loadPrefix
  match ← nextOnPath n key depth pre with
  | some (byte, c) => return .inl ((n, v, byte) :: path, c, depth + pre.len + 1)
  | none =>
    let empty ← typed n (emptiedBy · .nothing)
    if !(← validate (.node n) v) then return .inr none
    return .inr (some (if empty then some (path, n, v) else none))

/-- One step up: unlinks the empty node `x`, last unlocked at version `xv`, from its parent.
Answers `inr false` to start over from the root. -/
def unlinkLevel (s : Ancestors × NodeId × ℕ) : TreeM ((Ancestors × NodeId × ℕ) ⊕ Bool) := do
  let (path, x, xv) := s
  let some pg ← lockParent (parentOf path) (.node x) | return .inr false
  let some xw ← tryUpgrade (.node x) xv
    | do
      let _ ← pg.unlock
      return .inr false
  unlinkInParent pg
  markObsolete (.node x) xw
  let aboveEmpty ← pg.emptied
  let unlocked ← pg.unlock
  onTree (.retireNode x)
  match aboveEmpty, unlocked, path with
  | true, some pv, (p, _, _) :: path => return .inl (path, p, pv)
  | _, _, _ => return .inr true

/-- `RawTree::unlink_emptied`. -/
def unlinkEmptied (key : Key) : TreeM Unit :=
  Prog.iter (fun _ : Unit => do
    match ← onTree .loadRoot with
    | .node n =>
      match ← Prog.iter (emptiedLevel key) ([], n, 0) with
      | none => return .inl ()
      | some none => return .inr ()
      | some (some x) =>
        if ← Prog.iter unlinkLevel x then return .inr () else return .inl ()
    | _ => return .inr ()) ()

/-! ## Remove -/

/-- The state of the descent of a remove. -/
structure Search where
  parent : Parent
  node : NodeId
  depth : ℕ

/-- `N` keeps an entry: only it is locked.  `none` is a failed acquisition. -/
def removeKeeping (kind : LeafKind) (confirm : Leaf → TreeM (Option ℤ)) (n : NodeId) (v : ℕ)
    (taken : Taken) (leaf : Leaf) : TreeM (Option (Option Leaf)) := do
  let some nw ← tryUpgrade (.node n) v | return none
  match ← confirm leaf with
  | none =>
    let _ ← unlock (.node n) nw
    return some none
  | some count =>
    takeOut n taken
    markRemoved kind leaf
    onLeaf (.lenAdd (-count))
    let _ ← unlock (.node n) nw
    onLeaf (.retireLeaf leaf)
    return some (some leaf)

/-- What a remove finds below the prefix of a node: the slot, and what taking it takes. -/
def removeSlot (n : NodeId) (key : Key) (nodeDepth : ℕ) : TreeM (Slot × Taken) :=
  if nodeDepth = key.length then do
    let s ← onNode n exactLeaf
    return (s, .exact)
  else match key[nodeDepth]? with
    | some byte => do
      let s ← typed n (findChild · byte)
      return (s, .child byte)
    | none => crash

/-- One level of the descent of a remove: a level down, back to the root (`none`), or an
answer. -/
def removeLevel (kind : LeafKind) (key : Key) (accepts : Leaf → Bool)
    (confirm : Leaf → TreeM (Option ℤ)) (s : Search) :
    TreeM (Search ⊕ Option (Option Leaf)) := do
  let some v ← readVersion (.node s.node) | return .inr none
  if !(← stillParent s.parent (.node s.node)) then return .inr none
  let pre ← onNode s.node loadPrefix
  if !pre.isPrefixOf (key.drop s.depth) then
    if ← validate (.node s.node) v then return .inr (some none) else return .inr none
  else
    let nodeDepth := s.depth + pre.len
    match ← removeSlot s.node key nodeDepth with
    | (.node c, .child byte) => return .inl ⟨.node s.node v byte, c, nodeDepth + 1⟩
    | (slot, taken) =>
      let empties ← typed s.node (emptiedBy · taken)
      if !(← validate (.node s.node) v) then return .inr none
      match slot with
      | .leaf leaf =>
        if !accepts leaf then return .inr (some none)
        if empties then
          match ← removeUnlinking kind confirm s.parent s.node v leaf with
          | .retry => return .inr none
          | .refused => return .inr (some none)
          | .done followUp =>
            if followUp then unlinkEmptied key
            return .inr (some (some leaf))
        else
          let r ← removeKeeping kind confirm s.node v taken leaf
          return .inr r
      | _ => return .inr (some none)

/-- A remove of the leaf at the root; `none` is a failed acquisition. -/
def removeRoot (kind : LeafKind) (confirm : Leaf → TreeM (Option ℤ)) (leaf : Leaf) :
    TreeM (Option (Option Leaf)) := do
  let some w ← lock .root | crash
  let root ← onTree .loadRoot
  if root ≠ .leaf leaf then
    let _ ← unlock .root w
    return none
  match ← confirm leaf with
  | none =>
    let _ ← unlock .root w
    return some none
  | some count =>
    onTree (.storeRoot .null)
    markRemoved kind leaf
    onLeaf (.lenAdd (-count))
    let _ ← unlock .root w
    onLeaf (.retireLeaf leaf)
    return some (some leaf)

/-- `RawTree::remove_confirmed`. -/
def removeConfirmed (kind : LeafKind) (key : Key) (accepts : Leaf → Bool)
    (confirm : Leaf → TreeM (Option ℤ)) : TreeM (Option Leaf) :=
  Prog.iter (fun _ : Unit => do
    match ← onTree .loadRoot with
    | .null => return .inr none
    | .leaf leaf =>
      if !accepts leaf then return .inr none
      match ← removeRoot kind confirm leaf with
      | none => return .inl ()
      | some r => return .inr r
    | .node n =>
      match ← Prog.iter (removeLevel kind key accepts confirm) ⟨.root, n, 0⟩ with
      | none => return .inl ()
      | some r => return .inr r) ()

/-- `RawTree::remove`. -/
def remove (kind : LeafKind) (key : Key) (accepts : Leaf → Bool) : TreeM (Option Leaf) :=
  removeConfirmed kind key accepts fun _ => return some 1

/-- `Tree::remove`: by key. -/
def removeKey (key : Key) : TreeM (Option Leaf) :=
  remove .plain key fun l => decide (l.key = key)

/-- `Tree::remove_leaf`: exactly `leaf`, if it is still linked. -/
def removeLeaf (leaf : Leaf) : TreeM Bool := do
  if ← onLeaf (.loadRemoved leaf) then return false
  let r ← remove .plain leaf.key fun c => decide (c = leaf)
  return r.isSome

end Artmap
