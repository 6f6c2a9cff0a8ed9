import Artmap.Framework.Timeline
import Artmap.Versioned.Tree
import Mathlib.Data.Set.Card
import Mathlib.Order.Bounds.Basic

/-!
# What version chains are for

A leaf holds a finite map from versions to values or deletions (`Versions`), and it may have died.
`Step` says what each operation answers and does, on these maps: an insert puts a version, a
reader finds the newest version up to a bound, a prune forgets what no reader of a version from
the watermark on can see, and only the unlinking of the whole key lets a leaf die.  Nothing is
said of nodes, links or locks.

`chains` is the concurrent object: the operations of a versioned map on its leaves, for any number
of threads.
-/

namespace Artmap

namespace Versioned

variable {V : Type}

/-- Versions of a key, each with its value or, if it is a deletion, without. -/
abbrev Versions (V : Type) := ℕ → Option (Option V)

namespace Versions

variable (M : Versions V)

/-- The version `v` is there, and no newer one. -/
def Newest (v : ℕ) : Prop :=
  IsGreatest {w | (M w).isSome} v

/-- The version `v` is the newest one up to `max`. -/
def NewestLe (max v : ℕ) : Prop :=
  IsGreatest {w | w ≤ max ∧ (M w).isSome} v

/-- The newest version has a value. -/
def Live : Prop :=
  ∃ v x, M.Newest v ∧ M v = some (some x)

open Classical in
/-- What the key counts for in the length of the map. -/
noncomputable def live : ℤ :=
  if M.Live then 1 else 0

lemma live_cases : M.live = 0 ∨ M.live = 1 := by
  unfold live
  split
  · exact .inr rfl
  · exact .inl rfl

/-- With version `v`, new or in place of another of that version. -/
def put (v : ℕ) (x : Option V) : Versions V :=
  Function.update M v (some x)

/-- Without version `v`. -/
def erase (v : ℕ) : Versions V :=
  Function.update M v none

/-- The versions from `v` on. -/
def since (v : ℕ) : Versions V :=
  fun w => if v ≤ w then M w else none

/-- How many versions below `v` there are. -/
noncomputable def countBelow (v : ℕ) : ℕ :=
  {w | w < v ∧ (M w).isSome}.ncard

/-- How many versions there are. -/
noncomputable def count : ℕ :=
  {w | (M w).isSome}.ncard

/-- The version `v` is the newest one older than `bound`, if there is a bound. -/
def NewestBelow (bound : Option ℕ) (v : ℕ) : Prop :=
  IsGreatest {w | (∀ b, bound = some b → w < b) ∧ (M w).isSome} v

/-- A reader that looks for the version that `P` singles out gets `r`: that version's entry, or
nothing if there is no such version or it is a deletion. -/
def Reads (l : ℕ) (P : ℕ → Prop) (r : Option (EntryRef V)) : Prop :=
  (∀ e, r = some e → e.leaf = l ∧ P e.version ∧ M e.version = some (some e.value)) ∧
    (r = none → ∀ v x, P v → M v ≠ some (some x))

end Versions

/-- A leaf: its versions, and whether it has died. -/
structure LeafState (V : Type) where
  versions : Versions V
  dead : Bool

/-- Every leaf that has been published. -/
abbrev MapState (V : Type) := ℕ → Option (LeafState V)

/-- The operations on chains, each with the answers of the tree to it. -/
inductive Op (V : Type) where
  /-- `VersionedTree::insert`, of a deletion if `x` is `none`. -/
  | insert (finds : List (Option ℕ)) (meets : List ℕ) (version : ℕ) (x : Option V)
  | delete (finds : List (Option ℕ)) (meets : List ℕ) (version : ℕ)
  | remove (finds : List (Option ℕ))
  | removeVersion (version : ℕ) (finds : List (Option ℕ × Bool))
  | removeKey (finds : List (Option ℕ × Bool))
  | pruneKey (found : Option ℕ) (reached : ℕ → Bool) (min : ℕ) (isTomb : V → Bool)
  | clearLeaf (l : ℕ)
  | getLatest (found : Option ℕ)
  | containsKey (found : Option ℕ)
  | getVersionLe (found : Option ℕ) (max : ℕ)
  /-- `VersionedEntryRef::latest`. -/
  | latest (l : ℕ)
  /-- `VersionedEntryRef::get_version_le`. -/
  | versionLe (l max : ℕ)
  | getAllVersions (found : Option ℕ)
  | versionCount (found : Option ℕ)

/-- The results. -/
inductive Ret (V : Type) where
  /-- The operation was sent round again, and the run ends there. -/
  | unfinished
  /-- By how much the number of live keys has changed. -/
  | delta (d : ℤ)
  | entry (e : Option (EntryRef V))
  | removed (b : Bool)
  | contains (b : Bool)
  | pruned (n : ℕ)
  /-- A prune that found in every attempt that the chain had moved: the code answers `0`. -/
  | gaveUp
  | counted (c : ℤ)
  | versions (r : List (ℕ × Option V))
  | count (n : ℕ)

/-- An answer, and not the end of a run that has come to none. -/
def Ret.Final : Ret V → Prop
  | .unfinished => False
  | .gaveUp => False
  | _ => True

/-- The result of a program that may be left unfinished. -/
def answer {α : Type} (f : α → Ret V) (p : ChainM V (Option α)) : ChainM V (Ret V) := do
  return (← p).elim .unfinished f

/-- The program of an operation. -/
def code : Op V → ChainM V (Ret V)
  | .insert finds meets version x => answer .delta (insert meets version x finds)
  | .delete finds meets version => answer .removed (delete finds meets version)
  | .remove finds => answer .entry (remove finds)
  | .removeVersion version finds => answer .removed (removeVersion version finds)
  | .removeKey finds => answer .removed (removeKey finds)
  | .pruneKey found reached min isTomb => do
    return (← tryPruneKey found reached min isTomb).elim .gaveUp .pruned
  | .clearLeaf l => return .counted (← clearLeaf l)
  | .getLatest found => return .entry (← getLatest found)
  | .containsKey found => return .contains (← containsKey found)
  | .getVersionLe found max => return .entry (← getVersionLe found max)
  | .latest l => return .entry (← latest l)
  | .versionLe l max => return .entry (← versionLe l max)
  | .getAllVersions found => return .versions (← getAllVersions found)
  | .versionCount found => return .count (← versionCount found)

/-- A leaf that an operation is given, by the tree or by an entry, has been published. -/
def Op.given : Op V → Option ℕ
  | .clearLeaf l => some l
  | .latest l => some l
  | .versionLe l _ => some l
  | _ => none

/-- The chains of one versioned map, used by any number of threads. -/
@[reducible] def chains (V : Type) : Object (ChainAct V) where
  Mem := ChainMem V
  exec _ := execChain
  Op := Op V
  Ret := Ret V
  code := code
  start _ op m m' := m' = m ∧ ∀ l, op.given = some l → m.published l = true

/-! ## The specification -/

/-- The leaf that a lookup finds is none that was published. -/
def Unfound (s : MapState V) (found : Option ℕ) : Prop :=
  ∀ l, found = some l → s l = none

/-- Every lookup has found a leaf that has died, up to one of a leaf that was not published yet, if
there is such a one: there is none that an operation can go on with. -/
inductive Exhausted (s : MapState V) : List (Option ℕ) → Prop where
  | nil : Exhausted s []
  | unfound {l : ℕ} {finds : List (Option ℕ)} (hs : s l = none) : Exhausted s (some l :: finds)
  | dead {l : ℕ} {M : Versions V} {finds : List (Option ℕ)} (hs : s l = some ⟨M, true⟩)
      (rest : Exhausted s finds) : Exhausted s (some l :: finds)

/-- The same of the removal of version `v`: the last lookup has found a leaf that has died, or one
that has no other version, so that it is not for an edit of the chain to remove it. -/
inductive Outrun (s : MapState V) (v : ℕ) : List (Option ℕ × Bool) → Prop where
  | nil : Outrun s v []
  | unfound {l : ℕ} {b : Bool} {finds : List (Option ℕ × Bool)} (hs : s l = none) :
      Outrun s v ((some l, b) :: finds)
  | last {l : ℕ} {b : Bool} {M : Versions V} {d : Bool} (hs : s l = some ⟨M, d⟩)
      (h : d = true ∨ ∀ w, (M w).isSome ↔ w = v) : Outrun s v [(some l, b)]
  | next {l : ℕ} {b : Bool} {finds : List (Option ℕ × Bool)} (hne : finds ≠ [])
      (rest : Outrun s v finds) : Outrun s v ((some l, b) :: finds)

/-- What an operation may answer, and what it does. -/
inductive Step : MapState V → Op V → Ret V → MapState V → Prop where
  /-- A version is put into a leaf that the tree has found or met, which is alive. -/
  | insert {s : MapState V} {finds : List (Option ℕ)} {meets : List ℕ} {v : ℕ} {x : Option V}
      {l : ℕ} {M : Versions V} (hl : some l ∈ finds ∨ l ∈ meets) (hs : s l = some ⟨M, false⟩) :
      Step s (.insert finds meets v x) (.delta ((M.put v x).live - M.live))
        (Function.update s l (some ⟨M.put v x, false⟩))
  /-- Or a new leaf is published with it. -/
  | insertNew {s : MapState V} {finds : List (Option ℕ)} {meets : List ℕ} {v : ℕ}
      {x : Option V} {l : ℕ} (hl : none ∈ finds) (hs : s l = none) :
      Step s (.insert finds meets v x) (.delta (Versions.put (fun _ => none) v x).live)
        (Function.update s l (some ⟨Versions.put (fun _ => none) v x, false⟩))
  | insertUnfinished {s : MapState V} {finds : List (Option ℕ)} {meets : List ℕ} {v : ℕ}
      {x : Option V} (h : Exhausted s finds) : Step s (.insert finds meets v x) .unfinished s
  /-- A deletion is a version of its own.  The answer says whether the key was live before and
  is not any more. -/
  | delete {s : MapState V} {finds : List (Option ℕ)} {meets : List ℕ} {v : ℕ} {b : Bool}
      {l : ℕ} {M : Versions V} (hl : some l ∈ finds ∨ l ∈ meets) (hs : s l = some ⟨M, false⟩)
      (hb : b = true ↔ M.Live ∧ ¬ (M.put v none).Live) :
      Step s (.delete finds meets v) (.removed b)
        (Function.update s l (some ⟨M.put v none, false⟩))
  | deleteNew {s : MapState V} {finds : List (Option ℕ)} {meets : List ℕ} {v l : ℕ}
      (hl : none ∈ finds) (hs : s l = none) :
      Step s (.delete finds meets v) (.removed false)
        (Function.update s l (some ⟨Versions.put (fun _ => none) v none, false⟩))
  | deleteUnfinished {s : MapState V} {finds : List (Option ℕ)} {meets : List ℕ} {v : ℕ}
      (h : Exhausted s finds) : Step s (.delete finds meets v) .unfinished s
  /-- The newest version becomes a deletion, if it has a value. -/
  | remove {s : MapState V} {finds : List (Option ℕ)} {l : ℕ} {M : Versions V} {e : EntryRef V}
      (hl : some l ∈ finds) (hs : s l = some ⟨M, false⟩) (he : e.leaf = l)
      (hn : M.Newest e.version) (hv : M e.version = some (some e.value)) :
      Step s (.remove finds) (.entry (some e))
        (Function.update s l (some ⟨M.put e.version none, false⟩))
  | removeDeleted {s : MapState V} {finds : List (Option ℕ)} {l : ℕ} {M : Versions V}
      (hl : some l ∈ finds) (hs : s l = some ⟨M, false⟩) (hn : ¬ M.Live) :
      Step s (.remove finds) (.entry none) s
  | removeAbsent {s : MapState V} {finds : List (Option ℕ)} (hl : none ∈ finds) :
      Step s (.remove finds) (.entry none) s
  | removeUnfinished {s : MapState V} {finds : List (Option ℕ)} (h : Exhausted s finds) :
      Step s (.remove finds) .unfinished s
  /-- One version of several is taken out. -/
  | removeVersion {s : MapState V} {v : ℕ} {finds : List (Option ℕ × Bool)} {l w : ℕ} {b : Bool}
      {M : Versions V} (hl : (some l, b) ∈ finds) (hs : s l = some ⟨M, false⟩)
      (hv : (M v).isSome) (hw : (M w).isSome) (hne : w ≠ v) :
      Step s (.removeVersion v finds) (.removed true)
        (Function.update s l (some ⟨M.erase v, false⟩))
  /-- The only version takes its leaf with it. -/
  | removeLast {s : MapState V} {v : ℕ} {finds : List (Option ℕ × Bool)} {l : ℕ} {b : Bool}
      {M : Versions V} (hl : (some l, b) ∈ finds) (hs : s l = some ⟨M, false⟩)
      (hv : ∀ w, (M w).isSome ↔ w = v) :
      Step s (.removeVersion v finds) (.removed true)
        (Function.update s l (some ⟨M, true⟩))
  | removeVersionNone {s : MapState V} {v : ℕ} {finds : List (Option ℕ × Bool)} {l : ℕ}
      {b : Bool} {M : Versions V} (hl : (some l, b) ∈ finds) (hs : s l = some ⟨M, false⟩)
      (hv : M v = none) : Step s (.removeVersion v finds) (.removed false) s
  /-- The tree has found no leaf, or not the way back to the one it found. -/
  | removeVersionAbsent {s : MapState V} {v : ℕ} {finds : List (Option ℕ × Bool)}
      (hl : (∃ b, (none, b) ∈ finds) ∨ ∃ l, (some l, false) ∈ finds) :
      Step s (.removeVersion v finds) (.removed false) s
  | removeVersionUnfinished {s : MapState V} {v : ℕ} {finds : List (Option ℕ × Bool)}
      (h : Outrun s v finds) : Step s (.removeVersion v finds) .unfinished s
  /-- A leaf dies, with all its versions. -/
  | removeKey {s : MapState V} {finds : List (Option ℕ × Bool)} {l : ℕ} {b : Bool}
      {M : Versions V} (hl : (some l, b) ∈ finds) (hs : s l = some ⟨M, false⟩) :
      Step s (.removeKey finds) (.removed true) (Function.update s l (some ⟨M, true⟩))
  | removeKeyAbsent {s : MapState V} {finds : List (Option ℕ × Bool)}
      (hl : (∃ b, (none, b) ∈ finds) ∨ ∃ l, (some l, false) ∈ finds) :
      Step s (.removeKey finds) (.removed false) s
  | removeKeyUnfinished {s : MapState V} {finds : List (Option ℕ × Bool)}
      (h : Exhausted s (finds.map Prod.fst)) : Step s (.removeKey finds) .unfinished s
  /-- A key that no reader from the watermark on can see dies. -/
  | pruneDoomed {s : MapState V} {l min t : ℕ} {reached : ℕ → Bool} {isTomb : V → Bool}
      {M : Versions V} {x : Option V} (hs : s l = some ⟨M, false⟩) (ht : M.Newest t)
      (hmin : t ≤ min) (hx : M t = some x) (htomb : x.all isTomb = true) :
      Step s (.pruneKey (some l) reached min isTomb) (.pruned M.count)
        (Function.update s l (some ⟨M, true⟩))
  /-- Versions older than the newest one up to the watermark are forgotten. -/
  | prune {s : MapState V} {l min t : ℕ} {reached : ℕ → Bool} {isTomb : V → Bool}
      {M : Versions V} (hs : s l = some ⟨M, false⟩) (ht : M.NewestLe min t) :
      Step s (.pruneKey (some l) reached min isTomb) (.pruned (M.countBelow t))
        (Function.update s l (some ⟨M.since t, false⟩))
  | pruneNone {s : MapState V} {l min : ℕ} {reached : ℕ → Bool} {isTomb : V → Bool}
      {M : Versions V} {d : Bool} (hs : s l = some ⟨M, d⟩)
      (h : d = true ∨ ∀ v ≤ min, M v = none) :
      Step s (.pruneKey (some l) reached min isTomb) (.pruned 0) s
  | pruneAbsent {s : MapState V} {found : Option ℕ} {min : ℕ} {reached : ℕ → Bool}
      {isTomb : V → Bool} (h : Unfound s found) :
      Step s (.pruneKey found reached min isTomb) (.pruned 0) s
  /-- A prune gives up on a leaf that is alive. -/
  | pruneGaveUp {s : MapState V} {l min : ℕ} {reached : ℕ → Bool} {isTomb : V → Bool}
      {M : Versions V} (hs : s l = some ⟨M, false⟩) :
      Step s (.pruneKey (some l) reached min isTomb) .gaveUp s
  /-- A leaf that the clearing of the map has detached dies. -/
  | clearLeaf {s : MapState V} {l : ℕ} {M : Versions V} (hs : s l = some ⟨M, false⟩) :
      Step s (.clearLeaf l) (.counted M.live) (Function.update s l (some ⟨M, true⟩))
  | clearDead {s : MapState V} {l : ℕ} {M : Versions V} (hs : s l = some ⟨M, true⟩) :
      Step s (.clearLeaf l) (.counted 0) s
  | getLatest {s : MapState V} {l : ℕ} {M : Versions V} {d : Bool} {r : Option (EntryRef V)}
      (hs : s l = some ⟨M, d⟩) (hr : M.Reads l M.Newest r) :
      Step s (.getLatest (some l)) (.entry r) s
  | getLatestAbsent {s : MapState V} {found : Option ℕ} (h : Unfound s found) :
      Step s (.getLatest found) (.entry none) s
  | containsKey {s : MapState V} {l : ℕ} {M : Versions V} {d b : Bool}
      (hs : s l = some ⟨M, d⟩) (hb : b = true ↔ M.Live) :
      Step s (.containsKey (some l)) (.contains b) s
  | containsKeyAbsent {s : MapState V} {found : Option ℕ} (h : Unfound s found) :
      Step s (.containsKey found) (.contains false) s
  | getVersionLe {s : MapState V} {l max : ℕ} {M : Versions V} {d : Bool}
      {r : Option (EntryRef V)} (hs : s l = some ⟨M, d⟩) (hr : M.Reads l (M.NewestLe max) r) :
      Step s (.getVersionLe (some l) max) (.entry r) s
  | getVersionLeAbsent {s : MapState V} {found : Option ℕ} {max : ℕ} (h : Unfound s found) :
      Step s (.getVersionLe found max) (.entry none) s
  | latest {s : MapState V} {l : ℕ} {M : Versions V} {d : Bool} {r : Option (EntryRef V)}
      (hs : s l = some ⟨M, d⟩) (hr : M.Reads l M.Newest r) :
      Step s (.latest l) (.entry r) s
  | versionLe {s : MapState V} {l max : ℕ} {M : Versions V} {d : Bool}
      {r : Option (EntryRef V)} (hs : s l = some ⟨M, d⟩) (hr : M.Reads l (M.NewestLe max) r) :
      Step s (.versionLe l max) (.entry r) s
  /-- A listing starts with the newest version, and goes down; it is no more than that in one
  state. -/
  | getAllVersions {s : MapState V} {l : ℕ} {M : Versions V} {d : Bool} {v : ℕ} {x : Option V}
      {r : List (ℕ × Option V)} (hs : s l = some ⟨M, d⟩) (hv : M.Newest v) (hx : M v = some x)
      (hr : ((v, x) :: r).Pairwise fun a b => b.1 < a.1) :
      Step s (.getAllVersions (some l)) (.versions ((v, x) :: r)) s
  | getAllVersionsAbsent {s : MapState V} {found : Option ℕ} (h : Unfound s found) :
      Step s (.getAllVersions found) (.versions []) s
  | versionCount {s : MapState V} {l n : ℕ} {c : LeafState V} (hs : s l = some c) :
      Step s (.versionCount (some l)) (.count (n + 1)) s
  | versionCountAbsent {s : MapState V} {found : Option ℕ} (h : Unfound s found) :
      Step s (.versionCount found) (.count 0) s

/-- The listing of the versions of leaf `l`, state by state: each version is the newest one
below the last, in some state from that one on, and in state `hi` or before nothing is left
below the last. -/
inductive Scan (state : ℕ → MapState V) (l hi : ℕ) :
    ℕ → Option ℕ → List (ℕ × Option V) → Prop where
  | done {i j : ℕ} {bound : Option ℕ} {M : Versions V} {d : Bool} (hij : i ≤ j) (hj : j ≤ hi)
      (hs : state j l = some ⟨M, d⟩) (h : ∀ v, (∀ b, bound = some b → v < b) → M v = none) :
      Scan state l hi i bound []
  | next {i j : ℕ} {bound : Option ℕ} {M : Versions V} {d : Bool} {v : ℕ} {x : Option V}
      {r : List (ℕ × Option V)} (hij : i ≤ j) (hs : state j l = some ⟨M, d⟩)
      (hv : M.NewestBelow bound v) (hx : M v = some x) (rest : Scan state l hi j (some v) r) :
      Scan state l hi i bound ((v, x) :: r)

/-- Version chains, as a sequential object. -/
def spec (V : Type) : Behaviour (Op V) (Ret V) where
  State := MapState V
  init := fun _ => none
  step := Step

end Versioned

end Artmap
