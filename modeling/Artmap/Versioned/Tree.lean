import Artmap.Versioned.Memory

/-!
# Version chains (`src/latch.rs`, `src/versioned/node.rs`, `src/versioned/tree.rs`)

The operations of a versioned map on the chains of its leaves: the chain lock, the walks of the
readers, and every chain writer.

The tree itself is not part of this model.  What it says to an operation is an argument of the
operation: the leaf that each lookup finds, or that it finds none (`finds`), the existing leaves
that the insertion of a new leaf meets (`meets`), and whether `remove_confirmed` reaches the leaf
it is to unlink (`reached`).  Nothing is assumed of these answers, except that a leaf is found
only once it has been published.  An operation that is sent round again after the last of its
answers stops there, without a result (`none`): it is one that the run has not seen the end of.

Every step of a chain writer is a step of the model.  Backing off and the guard against unwinding
have no effect on memory.
-/

namespace Artmap

namespace Versioned

variable {V β : Type}

/-- Programs on version chains. -/
abbrev ChainM (V : Type) := Prog (ChainAct V)

/-- One step on version chains. -/
def on (a : ChainAct V β) : ChainM V β :=
  Prog.perform a

/-! ## `ChainLock` -/

/-- The inner loop of `ChainLock::lock`: waits until the lock is free, or dead (`false`). -/
def awaitFree (l : ℕ) : ChainM V Bool :=
  Prog.iter (fun _ : Unit => do
    let s ← on (.loadLatch l)
    if s &&& chainDead ≠ 0 then return .inr false
    else if s = 0 then return .inr true
    else return .inl ()) ()

/-- `ChainLock::lock`: `false` once the lock is dead. -/
def lock (l : ℕ) : ChainM V Bool :=
  Prog.iter (fun _ : Unit => do
    if ← on (.casLatch l) then return .inr true
    else if ← awaitFree l then return .inl ()
    else return .inr false) ()

/-- `ChainLock::is_dead`. -/
def isDead (l : ℕ) : ChainM V Bool := do
  let s ← on (.loadLatch l)
  return decide (s &&& chainDead ≠ 0)

/-- Dropping a `ChainGuard`. -/
def unlock (l : ℕ) : ChainM V Unit :=
  on (.storeLatch l 0)

/-- `ChainGuard::kill`. -/
def kill (l : ℕ) : ChainM V Unit :=
  on (.storeLatch l chainDead)

/-! ## `VersionNode` -/

/-- `VersionNode::is_tombstone`. -/
def isTombstone (p : ℕ) : ChainM V Bool := do
  let w ← on (.loadNext p)
  return hasFlag w tombstoneFlag

/-- `VersionNode::is_inline`. -/
def isInline (p : ℕ) : ChainM V Bool := do
  let w ← on (.loadNext p)
  return hasFlag w inlineFlag

/-- `VersionNode::is_superseded`. -/
def isSuperseded (p : ℕ) : ChainM V Bool := do
  let w ← on (.loadNext p)
  return hasFlag w supersededFlag

/-- `VersionNode::value`. -/
def value (p : ℕ) : ChainM V (Option V) := do
  if ← isTombstone p then return none
  else on (.readValue p)

/-- `VersionNode::next`. -/
def next (p : ℕ) : ChainM V ℕ := do
  let w ← on (.loadNext p)
  return linkOf w

/-- `VersionNode::store_next`, which `set_next` and `init_next` are. -/
def storeNext (p q : ℕ) : ChainM V Unit := do
  let w ← on (.loadNext p)
  on (.storeNext p (retag w q))

/-- `VersionNode::mark_superseded`. -/
def markSuperseded (p : ℕ) : ChainM V Unit := do
  let w ← on (.loadNext p)
  on (.storeNext p (marked w))

/-! ## `VersionedLeaf` -/

/-- `VersionedLeaf::alloc_version`. -/
def allocVersion (l version : ℕ) (x : Option V) : ChainM V ℕ := do
  let s ← on (.loadSlots l)
  if s &&& slotBit1 = 0 then
    let p ← on (.writeSlot1 l version x)
    let s ← on (.loadSlots l)
    on (.storeSlots l (s ||| slotBit1))
    return p
  else on (.newBox version x)

/-- `VersionedLeaf::take_first`. -/
def takeFirst (l : ℕ) : ChainM V (ℕ × Option V) := do
  let p ← on (.slot0 l)
  let version ← on (.readVersion p)
  let x ← value p
  on (.storeSlots l 0)
  return (version, x)

/-! ## Walks -/

/-- `find_le` and `find_le_ptr`: the newest node from `head` on with a version `<= max`. -/
def findLe (head max : ℕ) : ChainM V (Option ℕ) :=
  Prog.iter (fun cur => do
    if cur = 0 then return .inr none
    else
      let v ← on (.readVersion cur)
      if v ≤ max then return .inr (some cur)
      else
        let q ← next cur
        return .inl q) head

/-- `chain`, run to its end: what `visit` says of each node, newest first. -/
def chain (visit : ℕ → ChainM V β) (head : ℕ) : ChainM V (List β) :=
  Prog.iter (fun s => do
    if s.1 = 0 then return .inr s.2
    else
      let q ← next s.1
      let b ← visit s.1
      return .inl (q, s.2 ++ [b])) (head, [])

/-- Where `version` belongs in the chain from `head` on: the last node with a greater version, or
null, and the one after it. -/
def position (version head : ℕ) : ChainM V (ℕ × ℕ) :=
  Prog.iter (fun s => do
    if s.2 = 0 then return .inr s
    else
      let v ← on (.readVersion s.2)
      if v > version then
        let q ← next s.2
        return .inl (s.2, q)
      else return .inr s) (0, head)

/-- The node at `p`, if there is one, is that of `version`. -/
def isVersion (version p : ℕ) : ChainM V Bool :=
  if p = 0 then return false
  else do
    let v ← on (.readVersion p)
    return decide (v = version)

/-! ## Chain writers -/

/-- `retire_version`. -/
def retireVersion (p : ℕ) : ChainM V Unit := do
  if ← isInline p then return ()
  else on (.retire p)

/-- The number of live keys that a head counts for. -/
def liveCount (tombstone : Bool) : ℤ :=
  if tombstone then 0 else 1

/-- The store that makes `q` the successor of `prev`, or the head if there is none. -/
def link (l prev q : ℕ) : ChainM V Unit :=
  if prev = 0 then on (.storeHead l q) else storeNext prev q

/-- Counts by how much the head's liveness has changed, and lets the lock go. -/
def countEdit (l : ℕ) (old : Bool) : ChainM V ℤ := do
  let head ← on (.loadHead l)
  let new ← isTombstone head
  let delta := liveCount new - liveCount old
  on (.lenAdd delta)
  unlock l
  return delta

/-- How a chain writer ends that has unlinked `cur`, or nothing. -/
def finishEdit (l cur : ℕ) (unlinked old : Bool) : ChainM V ℤ :=
  if unlinked then do
    markSuperseded cur
    let delta ← countEdit l old
    retireVersion cur
    return delta
  else countEdit l old

/-- `VersionedTree::apply_locked`, with the chain lock held. -/
def applyLocked (l version : ℕ) (x : Option V) : ChainM V ℤ := do
  let head ← on (.loadHead l)
  let old ← isTombstone head
  let (prev, cur) ← position version head
  let node ← allocVersion l version x
  let replaced ← isVersion version cur
  let q ← if replaced then next cur else pure cur
  storeNext node q
  link l prev node
  finishEdit l cur replaced old

/-- The loop of `VersionedTree::insert` around the insertion of the new leaf `own`. -/
def insertLeaf (own : ℕ) (count : ℤ) : List ℕ → ChainM V ℤ
  | [] => do
    on (.lenAdd count)
    on (.publish own)
    return count
  | e :: meets => do
    if ← on (.find e) then
      if ← lock e then
        let (version, x) ← takeFirst own
        applyLocked e version x
      else insertLeaf own count meets
    else insertLeaf own count meets

/-- `VersionedTree::insert`. -/
def insert (meets : List ℕ) (version : ℕ) (x : Option V) : List (Option ℕ) → ChainM V (Option ℤ)
  | [] => return none
  | none :: _ => do
    let own ← on (.newLeaf version x)
    return some (← insertLeaf own (liveCount x.isNone) meets)
  | some l :: finds => do
    if ← on (.find l) then
      if ← lock l then return some (← applyLocked l version x)
      else insert meets version x finds
    else return none

/-- What `remove_head` does to a live head, with the chain lock held: publishes a tombstone with
its version in its place. -/
def replaceHead (l head : ℕ) : ChainM V Unit := do
  let v ← on (.readVersion head)
  let tomb ← allocVersion l v none
  let q ← next head
  storeNext tomb q
  on (.storeHead l tomb)
  markSuperseded head
  on (.lenAdd (-1))
  unlock l
  retireVersion head

/-- `VersionedTree::remove_head`: the leaf and the head that was replaced. -/
def removeHead : List (Option ℕ) → ChainM V (Option (Option (ℕ × ℕ)))
  | [] => return none
  | none :: _ => return some none
  | some l :: finds => do
    if ← on (.find l) then
      if ← lock l then
        let head ← on (.loadHead l)
        if ← isTombstone head then
          unlock l
          return some none
        else
          replaceHead l head
          return some (some (l, head))
      else removeHead finds
    else return none

/-- `Unlinked`. -/
inductive Unlinked where
  | done (n : ℕ)
  | refused
  | missing

/-- `VersionedTree::unlink_leaf`: `remove_confirmed` with its `confirm`, which it runs at most once
and, if it accepts, lets the tree unlink the leaf. -/
def unlinkLeaf (reached : Bool) (l : ℕ) (check : ChainM V Bool) : ChainM V Unlinked := do
  if reached then
    if ← lock l then
      if ← check then
        let head ← on (.loadHead l)
        let nodes ← chain (fun p => return p) head
        let head ← on (.loadHead l)
        let tomb ← isTombstone head
        kill l
        on (.unlink l)
        on (.lenAdd (-liveCount tomb))
        return .done nodes.length
      else
        unlock l
        return .refused
    else return .refused
  else if ← isDead l then return .refused
  else return .missing

/-- Marks the detached nodes from `cur` on (step 4 of `prune_leaf`). -/
def markAll (cur : ℕ) : ChainM V (List ℕ) :=
  Prog.iter (fun s => do
    if s.1 = 0 then return .inr s.2
    else
      markSuperseded s.1
      let q ← next s.1
      return .inl (q, s.2 ++ [s.1])) (cur, [])

/-- Retires detached nodes (step 5 of `prune_leaf`). -/
def retireAll : List ℕ → ChainM V Unit
  | [] => return ()
  | p :: ps => do
    retireVersion p
    retireAll ps

/-- Steps 3 to 5 of an attempt of `prune_leaf`: detaches everything older than `t`.  `none` if the
chain has moved. -/
def trim (l t min : ℕ) : ChainM V (Option ℕ) := do
  if ← lock l then
    let head ← on (.loadHead l)
    let found ← findLe head min
    if ← (if found ≠ some t then pure true else isSuperseded t) then
      unlock l
      return none
    else
      let cur ← next t
      storeNext t 0
      let gone ← markAll cur
      unlock l
      retireAll gone
      return some gone.length
  else return some 0

/-- One attempt of `prune_leaf`.  `none` if the chain has moved. -/
def pruneAttempt (reached : Bool) (l min : ℕ) (isTomb : V → Bool) : ChainM V (Option ℕ) := do
  let head ← on (.loadHead l)
  match ← findLe head min with
  | none => return some 0
  | some t =>
    if ← (if t = head then do return (← value t).all isTomb else pure false) then
      match ← unlinkLeaf reached l (do return decide ((← on (.loadHead l)) = t)) with
      | .done n => return some n
      | .refused => if ← isDead l then return some 0 else return none
      | .missing => trim l t min
    else trim l t min

/-- The attempts of `prune_leaf`: `none` if each of them found that the chain had moved. -/
def pruneAttempts (reached : ℕ → Bool) (l min : ℕ) (isTomb : V → Bool) : ℕ → ChainM V (Option ℕ)
  | 0 => return none
  | n + 1 => do
    match ← pruneAttempt (reached n) l min isTomb with
    | some c => return some c
    | none => pruneAttempts reached l min isTomb n

/-- `VersionedTree::prune_leaf`, less that it answers `0` where it has given up (`none`). -/
def tryPrune (reached : ℕ → Bool) (l min : ℕ) (isTomb : V → Bool) : ChainM V (Option ℕ) :=
  pruneAttempts reached l min isTomb 64

/-- `VersionedTree::remove_key`. -/
def removeKey : List (Option ℕ × Bool) → ChainM V (Option Bool)
  | [] => return none
  | (none, _) :: _ => return some false
  | (some l, reached) :: finds => do
    if ← on (.find l) then
      match ← unlinkLeaf reached l (return true) with
      | .done _ => return some true
      | .missing => return some false
      | .refused => removeKey finds
    else return none

/-- The check of `remove_version`: `version` is the only one of leaf `l`. -/
def onlyVersion (l version : ℕ) : ChainM V Bool := do
  let head ← on (.loadHead l)
  let v ← on (.readVersion head)
  if v = version then
    let q ← next head
    return decide (q = 0)
  else return false

/-- The part of `remove_version` that unlinks one version of several, with the chain lock held.
`none` if it became the only one. -/
def removeLocked (l version : ℕ) : ChainM V (Option Bool) := do
  let head ← on (.loadHead l)
  let (prev, cur) ← position version head
  if ← isVersion version cur then
    let q ← next cur
    if prev = 0 ∧ q = 0 then
      unlock l
      return none
    else
      let old ← isTombstone head
      let q ← next cur
      link l prev q
      let _ ← finishEdit l cur true old
      return some true
  else
    unlock l
    return some false

/-- The part of a round of `remove_version` after the check: `none` sends it round again. -/
def removeEdit (l version : ℕ) : ChainM V (Option Bool) := do
  if ← lock l then removeLocked l version
  else return none

/-- A round of `remove_version` on the leaf that was found. -/
def removeRound (reached : Bool) (l version : ℕ) : ChainM V (Option Bool) := do
  if ← onlyVersion l version then
    match ← unlinkLeaf reached l (onlyVersion l version) with
    | .done _ => return some true
    | .missing => return some false
    | .refused => if ← isDead l then return none else removeEdit l version
  else removeEdit l version

/-- `VersionedTree::remove_version`. -/
def removeVersion (version : ℕ) : List (Option ℕ × Bool) → ChainM V (Option Bool)
  | [] => return none
  | (none, _) :: _ => return some false
  | (some l, reached) :: finds => do
    if ← on (.find l) then
      match ← removeRound reached l version with
      | some b => return some b
      | none => removeVersion version finds
    else return none

/-- The closure of `VersionedTree::clear`: kills the chain of a detached leaf and says what it
counts for. -/
def killChain (l : ℕ) : ChainM V ℤ := do
  if ← lock l then
    let head ← on (.loadHead l)
    let tomb ← isTombstone head
    kill l
    return liveCount tomb
  else return 0

/-- What `VersionedTree::clear` does to a detached leaf, which it counts out. -/
def clearLeaf (l : ℕ) : ChainM V ℤ := do
  let count ← killChain l
  on (.lenAdd (-count))
  return count

/-! ## Readers (`src/versioned/map.rs`, `src/versioned/entry.rs`) -/

/-- `VersionedEntryRef`: a leaf, a node of its chain, and what the node holds. -/
structure EntryRef (V : Type) where
  leaf : ℕ
  node : ℕ
  version : ℕ
  value : V

/-- `VersionedEntryRef::new`. -/
def entryRef (l p : ℕ) : ChainM V (Option (EntryRef V)) := do
  let x ← value p
  let v ← on (.readVersion p)
  return x.map (EntryRef.mk l p v)

/-- A lookup by the tree, which answers `found`. -/
def lookup (found : Option ℕ) : ChainM V (Option ℕ) :=
  match found with
  | none => return none
  | some l => do
    if ← on (.find l) then return some l else return none

/-- The newest version of a leaf, as an entry (`VersionedEntryRef::latest`). -/
def latest (l : ℕ) : ChainM V (Option (EntryRef V)) := do
  let head ← on (.loadHead l)
  entryRef l head

/-- The newest version `<= max` of a leaf (`VersionedEntryRef::get_version_le`). -/
def versionLe (l max : ℕ) : ChainM V (Option (EntryRef V)) := do
  let head ← on (.loadHead l)
  match ← findLe head max with
  | none => return none
  | some p => entryRef l p

/-- `VersionedArtMap::get_latest` and `get_entry`. -/
def getLatest (found : Option ℕ) : ChainM V (Option (EntryRef V)) := do
  match ← lookup found with
  | none => return none
  | some l => latest l

/-- `VersionedArtMap::contains_key`. -/
def containsKey (found : Option ℕ) : ChainM V Bool := do
  match ← lookup found with
  | none => return false
  | some l =>
    let head ← on (.loadHead l)
    return !(← isTombstone head)

/-- `VersionedArtMap::get_version_le`. -/
def getVersionLe (found : Option ℕ) (max : ℕ) : ChainM V (Option (EntryRef V)) := do
  match ← lookup found with
  | none => return none
  | some l => versionLe l max

/-- `VersionedArtMap::get_all_versions`. -/
def getAllVersions (found : Option ℕ) : ChainM V (List (ℕ × Option V)) := do
  match ← lookup found with
  | none => return []
  | some l =>
    let head ← on (.loadHead l)
    chain (fun p => do
      let v ← on (.readVersion p)
      let x ← value p
      return (v, x)) head

/-- `VersionedArtMap::version_count`. -/
def versionCount (found : Option ℕ) : ChainM V ℕ := do
  match ← lookup found with
  | none => return 0
  | some l =>
    let head ← on (.loadHead l)
    let ns ← chain (fun _ => return ()) head
    return ns.length

/-- `VersionedArtMap::remove`. -/
def remove (finds : List (Option ℕ)) : ChainM V (Option (Option (EntryRef V))) := do
  match ← removeHead finds with
  | none => return none
  | some none => return some none
  | some (some (l, p)) => return some (← entryRef l p)

/-- `VersionedArtMap::delete`. -/
def delete (finds : List (Option ℕ)) (meets : List ℕ) (version : ℕ) :
    ChainM V (Option Bool) := do
  let delta ← insert meets version none finds
  return delta.map fun d => decide (d < 0)

/-- `VersionedArtMap::prune_key`, less that it answers `0` where it has given up (`none`). -/
def tryPruneKey (found : Option ℕ) (reached : ℕ → Bool) (min : ℕ) (isTomb : V → Bool) :
    ChainM V (Option ℕ) := do
  match ← lookup found with
  | none => return some 0
  | some l => tryPrune reached l min isTomb

end Versioned

end Artmap
