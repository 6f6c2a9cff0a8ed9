import Artmap.Raw.Remove

/-!
# Clearing and fitting (`src/raw/walk.rs`, `src/raw/shrink.rs`)

`clear` swaps the root out and then walks the detached tree with a worklist, one latch at a
time; `shrink_to_fit` walks the tree once, children before parents, and replaces each node by
the smallest form of its entries.
-/

namespace Artmap

/-- The loop of `for_each_child`: the children of node `n` from byte `start` on.  Every round
starts at a larger byte. -/
def childrenFrom (n : NodeId) : ℕ → ℕ → TreeM (List (Byte × Slot))
  | 0, _ => return []
  | fuel + 1, start => do
    match ← typed n (nextChild · start) with
    | none => return []
    | some (b, c) =>
      let rest ← childrenFrom n fuel (b + 1)
      return (b, c) :: rest

/-- `NodeHeader::for_each_child`, collecting the children in order. -/
def children (n : NodeId) : TreeM (List (Byte × Slot)) :=
  childrenFrom n 257 0

/-! ## Clear -/

/-- The leaves among some slots. -/
def leavesOf (slots : List Slot) : List Leaf :=
  slots.filterMap fun
    | .leaf l => some l
    | _ => none

/-- The inner nodes among some slots. -/
def nodesOf (slots : List Slot) : List NodeId :=
  slots.filterMap fun
    | .node n => some n
    | _ => none

/-- Counts and marks the leaves of a detached node. -/
def countLeaves (kind : LeafKind) (count : Leaf → TreeM ℤ) : List Leaf → TreeM ℤ
  | [] => return 0
  | l :: ls => do
    let c ← count l
    markRemoved kind l
    let rest ← countLeaves kind count ls
    return c + rest

/-- Retires the leaves of a detached node. -/
def retireLeaves : List Leaf → TreeM Unit
  | [] => return ()
  | l :: ls => do
    onLeaf (.retireLeaf l)
    retireLeaves ls

/-- One detached node: obsoletes and retires it, with its leaves.  Answers with what they
counted for, and the inner children. -/
def clearNode (kind : LeafKind) (count : Leaf → TreeM ℤ) (n : NodeId) :
    TreeM (ℤ × List NodeId) := do
  let some w ← lock (.node n) | return (0, [])
  let exact ← onNode n exactLeaf
  let cs ← children n
  let leaves := leavesOf (exact :: cs.map Prod.snd)
  let c ← countLeaves kind count leaves
  markObsolete (.node n) w
  retireLeaves leaves
  onTree (.retireNode n)
  return (c, nodesOf (cs.map Prod.snd))

/-- The walk over the detached nodes, the next one first. -/
def clearWalk (kind : LeafKind) (count : Leaf → TreeM ℤ) (n : NodeId) : TreeM ℤ :=
  Prog.iter (fun s : List NodeId × ℤ => do
    match s with
    | ([], total) => return .inr total
    | (n :: work, total) =>
      let (c, below) ← clearNode kind count n
      -- The source pushes the children in order and pops the last one first.
      return .inl (below.reverse ++ work, total + c)) ([n], 0)

/-- `RawTree::clear_counting`. -/
def clearCounting (kind : LeafKind) (count : Leaf → TreeM ℤ) : TreeM Unit := do
  let some w ← lock .root | crash
  let old ← onTree (.swapRoot .null)
  let _ ← unlock .root w
  match old with
  | .null => return ()
  | .leaf l =>
    -- A detached root leaf, published before the swap.
    let c ← count l
    markRemoved kind l
    onLeaf (.retireLeaf l)
    onLeaf (.lenAdd (-c))
  | .node n =>
    let total ← clearWalk kind count n
    onLeaf (.lenAdd (-total))

/-- `RawTree::clear`. -/
def clear (kind : LeafKind) : TreeM Unit :=
  clearCounting kind fun _ => return 1

/-! ## Fitting -/

/-- `ATTEMPTS`. -/
def attempts : ℕ := 8

/-- `merged_prefix`. -/
def mergedPrefix (n : PrefixSnapshot) (byte : Byte) (c : PrefixSnapshot) :
    Option (List Byte) :=
  if maxPrefixLen < n.len + 1 + c.len then none
  else some (n.asSlice ++ byte :: c.asSlice)

/-- `Plan`: what fitting a node does. -/
inductive Plan where
  | unlink
  | leaf (s : Slot)
  | merge (byte : Byte) (child : NodeId) (ty : NodeType)
  | shrink (ty : NodeType)
  deriving DecidableEq

/-- The plan for a node, from an optimistic read of it. -/
def planFor (n : NodeId) : TreeM (Option Plan) := do
  match ← typed n (restOf · .nothing) with
  | .empty => return some .unlink
  | .leaf s => return some (.leaf s)
  | .inner byte (.node c) =>
    let np ← onNode n prefixLen
    let cp ← onNode c prefixLen
    if np + 1 + cp ≤ maxPrefixLen then
      let k ← typed c numChildren
      return some (.merge byte c (NodeType.fitting k))
    else
      let ty ← onTree (.nodeType n)
      return if NodeType.node4.lt ty then some (.shrink .node4) else none
  | .inner _ _ => return none
  | .many =>
    let k ← typed n numChildren
    let ty ← onTree (.nodeType n)
    return if (NodeType.fitting k).lt ty then some (.shrink (NodeType.fitting k)) else none

/-- The replacement node of a plan, allocated outside every latch; `none` if there is no
room for it. -/
def freshFor (prep : Pool) (plan : Plan) : TreeM (Option NodeId × Pool) :=
  match plan with
  | .merge _ _ ty | .shrink ty => prep.node ty
  | .unlink | .leaf _ => return (some 0, prep)

/-- The latch of the child that a merge takes in. -/
def lockChild (c : NodeId) : TreeM (Option ℕ) := do
  let some cv ← readVersion (.node c) | return none
  tryUpgrade (.node c) cv

/-- A merge, with the parent and the node latched: latches the child, and copies it under the
joined prefix.  `none` when the child could not be latched or has changed since the plan; then
every latch is released. -/
def mergeInto (pg : ParentGuard) (n : NodeId) (nw : ℕ) (byte : Byte) (c : NodeId)
    (ty : NodeType) (fresh : NodeId) : TreeM (Option ℕ) := do
  let some cw ← lockChild c
    | do
      let _ ← unlock (.node n) nw
      let _ ← pg.unlock
      return none
  let np ← onNode n loadPrefix
  let cp ← onNode c loadPrefix
  let k ← typed c numChildren
  match mergedPrefix np byte cp, decide (k ≤ ty.capacity) with
  | some bytes, true =>
    copyInto c fresh
    onNode fresh (writePrefix bytes)
    return some cw
  | _, _ =>
    let _ ← unlock (.node c) cw
    let _ ← unlock (.node n) nw
    let _ ← pg.unlock
    return none

/-- Publishes a replacement and obsoletes the node. -/
def replaceNode (pg : ParentGuard) (n : NodeId) (nw : ℕ) (new : Slot) : TreeM Unit := do
  publishInParent pg new
  markObsolete (.node n) nw
  let _ ← pg.unlock
  onTree (.retireNode n)

/-- How one attempt of `fit` ends. -/
inductive Fitted where
  | again
  | done
  /-- `S::Full`. -/
  | full
  deriving DecidableEq

/-- The latched part of an attempt of `fit`. -/
def fitLatched (parent : Parent) (n : NodeId) (v : ℕ) (plan : Plan) (fresh : NodeId)
    (prep : Pool) : TreeM (Fitted × Pool) := do
  let some pg ← lockParent parent (.node n) | return (.done, prep)
  let some nw ← tryUpgrade (.node n) v
    | do
      let _ ← pg.unlock
      return (.again, prep)
  match plan with
  | .unlink =>
    unlinkInParent pg
    markObsolete (.node n) nw
    let _ ← pg.unlock
    onTree (.retireNode n)
    return (.done, prep.commit)
  | .leaf s =>
    replaceNode pg n nw s
    return (.done, prep.commit)
  | .shrink _ =>
    copyInto n fresh
    replaceNode pg n nw (.node fresh)
    return (.done, prep.commit)
  | .merge byte c ty =>
    let some cw ← mergeInto pg n nw byte c ty fresh | return (.again, prep)
    publishInParent pg (.node fresh)
    markObsolete (.node c) cw
    markObsolete (.node n) nw
    let _ ← pg.unlock
    onTree (.retireNode c)
    onTree (.retireNode n)
    return (.done, prep.commit)

/-- One attempt of `fit`. -/
def fitOnce (parent : Parent) (n : NodeId) (prep : Pool) : TreeM (Fitted × Pool) := do
  let prep := prep.reset
  let some v ← readVersion (.node n)
    | do
      if ← isObsolete (.node n) then return (.done, prep)
      return (.again, prep)
  let plan ← planFor n
  if !(← validate (.node n) v) then return (.again, prep)
  let some plan := plan | return (.done, prep)
  match ← freshFor prep plan with
  | (none, prep) => return (.full, prep)
  | (some fresh, prep) => fitLatched parent n v plan fresh prep

/-- `RawTree::fit`: whether there was room, and the pool. -/
def fit (parent : Parent) (n : NodeId) : ℕ → Pool → TreeM (Bool × Pool)
  | 0, prep => return (true, prep)
  | k + 1, prep => do
    match ← fitOnce parent n prep with
    | (.done, prep) => return (true, prep)
    | (.full, prep) => return (false, prep)
    | (.again, prep) => fit parent n k prep

/-- `inner_children`: the inner children of a node, with the version they were read at. -/
def innerChildren (n : NodeId) : ℕ → TreeM (Option (ℕ × List (Byte × NodeId)))
  | 0 => return none
  | k + 1 => do
    let some v ← readVersion (.node n)
      | do
        if ← isObsolete (.node n) then return none
        innerChildren n k
    let cs ← children n
    if ← validate (.node n) v then
      return some (v, cs.filterMap fun
        | (b, .node c) => some (b, c)
        | _ => none)
    else innerChildren n k

/-- `Frame`: one node of the walk, and whether its children are already on the stack. -/
structure FitFrame where
  parent : Parent
  node : NodeId
  expanded : Bool

/-- `RawTree::shrink_to_fit`. -/
def shrinkToFit : TreeM Unit := do
  match ← onTree .loadRoot with
  | .node root =>
    let prep ← Prog.iter (fun s : List FitFrame × Pool => do
      match s with
      | ([], prep) => return .inr prep
      | (f :: stack, prep) =>
        if f.expanded then
          match ← fit f.parent f.node attempts prep with
          | (true, prep) => return .inl (stack, prep)
          | (false, prep) => return .inr prep
        else
          match ← innerChildren f.node attempts with
          | none => return .inl (stack, prep)
          | some (v, cs) =>
            return .inl
              (cs.map (fun (b, c) => ⟨.node f.node v b, c, false⟩) ++
                { f with expanded := true } :: stack, prep))
      ([⟨.root, root, false⟩], [])
    Pool.release prep
  | _ => return ()

end Artmap
