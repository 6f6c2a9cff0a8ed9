import Artmap.Raw.Remove

/-!
# Inserters (`src/raw/write.rs`, `src/arena/tree.rs`)

The arena maps hand out inserters.  An inserter caches the node that its last insert landed in,
with the version that its own unlock has left there, and the path of that node; when the next
key goes on from the path and the node has not changed since, the leaf is inserted there without
a descent.
-/

namespace Artmap

/-- The commit of `RawTree::insert_at_hint`, at a node with room that is held. -/
def insertHere (l : Leaf) (count : ℤ) (h : Hint) (byte : Byte) (w : ℕ) :
    TreeM (Option Outcome × Hint) := do
  onLeaf (.lenAdd count)
  typed h.node (insertChild · byte (.leaf l))
  let nv ← unlock (.node h.node) w
  return (some (.inserted l), { h with version := nv })

/-- `RawTree::insert_at_hint`: the outcome, `none` if the full insert is to be used, and the
updated hint. -/
def insertAtHint (l : Leaf) (count : ℤ) (h : Hint) : TreeM (Option Outcome × Hint) :=
  match l.key[h.depth]? with
  | none => return (none, h)
  | some byte => do
    let some w ← tryUpgrade (.node h.node) h.version | return (none, h)
    let child ← typed h.node (findChild · byte)
    let full ← if child ≠ .null then pure true else typed h.node isFull
    if full then
      let nv ← unlock (.node h.node) w
      return (none, { h with version := nv })
    else insertHere l count h byte w

namespace InserterCache

/-- `InserterCache::matching`: the key goes on from the cached path. -/
def matching (c : InserterCache) (key : Key) : Option Hint :=
  c.hint.filter fun h => decide (h.depth ≤ c.path.length ∧ h.depth < key.length ∧
    key.take h.depth = c.path.take h.depth)

/-- `InserterCache::remember`. -/
def remember (c : InserterCache) (hint : Option Hint) (key : Key) : InserterCache :=
  match hint with
  | some h =>
    if hd : h.depth ≤ c.path.length ∧ h.depth ≤ key.length then
      { hint := some h
        path := key.take h.depth ++ c.path.drop h.depth
        path_len := by
          rw [List.length_append, List.length_take, List.length_drop, min_eq_left hd.2,
            Nat.add_sub_cancel' hd.1, c.path_len] }
    else { c with hint := none }
  | none => { c with hint := none }

end InserterCache

/-- `InserterCache::try_fast`. -/
def tryFast (c : InserterCache) (l : Leaf) (count : ℤ) :
    TreeM (Option Outcome × InserterCache) :=
  match c.matching l.key with
  | none => return (none, c)
  | some h => do
    let (r, h) ← insertAtHint l count h
    return (r, { c with hint := some h })

/-- The end of `ArenaTree::insert`: the owner of the leaf is dropped or, if there was no room,
disarmed; then the key and the value go back to the caller. -/
def dropOwner (r : Option Outcome) (owner : Unpublished) : TreeM (Option Outcome) :=
  match r with
  | some r => do
    owner.drop
    return some r
  | none => return none

/-- The rest of `ArenaTree::insert`, once the leaf has been allocated, through the inserter
`i`. -/
def insertThrough (l : Leaf) (i : ℕ) : TreeM (Option Outcome) := do
  let c ← onLeaf (.loadCache i)
  let (r, c) ← tryFast c l 1
  onLeaf (.storeCache i c)
  match r with
  | some r => return some r
  | none =>
    let (r, hint, owner) ← insertHinted .plain l .replace 1
    match r with
    | some (.inserted l') =>
      onLeaf (.storeCache i (c.remember hint l.key))
      dropOwner (some (.inserted l')) owner
    | r => dropOwner r owner

/-- `ArenaTree::insert`, directly or through an inserter: its outcome, `none` for `ArenaFull`. -/
def arenaInsert (l : Leaf) (cache : Option ℕ) : TreeM (Option Outcome) := do
  if !(← onTree .allocValue) then return none
  match cache with
  | none => do
    let (r, _, owner) ← insertHinted .plain l .replace 1
    dropOwner r owner
  | some i => insertThrough l i

end Artmap
