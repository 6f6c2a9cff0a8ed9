import Artmap.Framework.RelyGuarantee
import Artmap.Versioned.Cells

/-!
# The invariant of version chains

The ghost state keeps every state that the chains of the leaves have been in (`past`), as lists
of cells, and a ledger of the nodes: whose each node is, from its allocation to its retirement
(`Owner`).  A chain is in the hands of the thread that holds its lock; that thread may have
unlinked nodes that it has not marked yet (`loose`), and a count that it has not passed on.

Readers take no lock.  What makes them right is the invariant `hindsight`: the link of a node
that was in the chain at some moment leads to the node's successor at that moment or a later
one.  A node that has been unlinked is never linked again, and its link is never written again.
-/

namespace Artmap

namespace Versioned

variable {V : Type}

/-- Whose a version node is. -/
inductive Owner where
  /-- It has not been allocated. -/
  | free
  /-- The second inline slot of a leaf, not used yet. -/
  | spare (l : ℕ)
  /-- Allocated by a thread that has not linked it yet. -/
  | thread (t : ℕ)
  /-- In the chain of a leaf. -/
  | linked (l : ℕ)
  /-- Unlinked, but not yet marked as superseded. -/
  | loose (l : ℕ)
  /-- Marked, and in the hands of the thread that is to retire it. -/
  | carried (t l : ℕ)
  /-- Handed to the collector. -/
  | retired (l : ℕ)
  /-- An inline node that is left to its leaf. -/
  | left (l : ℕ)
  /-- Its value has been moved out of it. -/
  | moved
deriving DecidableEq

/-- The leaf in whose chain a node is, or was. -/
def Owner.home : Owner → Option ℕ
  | .linked l => some l
  | .loose l => some l
  | .carried _ l => some l
  | .retired l => some l
  | .left l => some l
  | _ => none

/-- The node has been marked as superseded. -/
def Owner.isMarked : Owner → Bool
  | .carried _ _ => true
  | .retired _ => true
  | .left _ => true
  | _ => false

/-- The node is not in a chain, and will not be in one again. -/
def Owner.isGone : Owner → Bool
  | .loose _ => true
  | .carried _ _ => true
  | .retired _ => true
  | .left _ => true
  | .moved => true
  | _ => false

/-- The chain of a published leaf. -/
structure ChainState (V : Type) where
  cells : List (Cell V)
  dead : Bool

/-- What the specification sees of a leaf. -/
def ChainState.seen (c : ChainState V) : LeafState V :=
  ⟨versionsOf c.cells, c.dead⟩

/-- What the specification sees of all leaves. -/
def seen (p : ℕ → Option (ChainState V)) : MapState V :=
  fun l => (p l).map ChainState.seen

/-- The ghost state. -/
structure Ghost (V : Type) where
  run : ℕ → Option (Timeline.Pending (Op V) (Ret V))
  time : Timeline (Op V) (Ret V)
  /-- The chains of the leaves in every state so far. -/
  past : ℕ → ℕ → Option (ChainState V)
  /-- The thread that holds a chain lock. -/
  holder : ℕ → Option ℕ
  whose : ℕ → Owner
  /-- The thread that has built a leaf and not published it yet. -/
  draft : ℕ → Option ℕ
  /-- What each leaf counts for in the length. -/
  counted : ℕ → ℤ
  /-- The thread that has killed a leaf and not counted it out yet. -/
  owed : ℕ → Option ℕ

/-- The present chains. -/
def Ghost.now (g : Ghost V) : ℕ → Option (ChainState V) :=
  g.past g.time.now

/-- A node in memory is a cell. -/
structure Matches (n : VersionNode V) (d : Cell V) : Prop where
  version : n.version = d.version
  value : n.value = d.value
  tombstone : hasFlag n.next tombstoneFlag = d.value.isNone

/-- Nothing is in the hands of thread `t`. -/
structure Idle (g : Ghost V) (t : ℕ) : Prop where
  holder : ∀ l, g.holder l ≠ some t
  thread : ∀ p, g.whose p ≠ .thread t
  carried : ∀ p l, g.whose p ≠ .carried t l
  draft : ∀ l, g.draft l ≠ some t
  owed : ∀ l, g.owed l ≠ some t

/-- The cells of the chains, and the nodes. -/
structure ChainsOk (m : ChainMem V) (g : Ghost V) : Prop where
  linked : ∀ l c, g.now l = some c → Linked m.node (m.leaf l).head c.cells
  nonempty : ∀ i ≤ g.time.now, ∀ l c, g.past i l = some c → c.cells ≠ []
  desc : ∀ i ≤ g.time.now, ∀ l c, g.past i l = some c → Desc c.cells
  matching : ∀ i ≤ g.time.now, ∀ l c, g.past i l = some c → ∀ d ∈ c.cells,
    Matches (m.node d.addr) d
  home : ∀ i ≤ g.time.now, ∀ l c, g.past i l = some c → ∀ d ∈ c.cells,
    (g.whose d.addr).home = some l
  /-- A link leads to the successor at this moment or a later one. -/
  hindsight : ∀ i ≤ g.time.now, ∀ l c, g.past i l = some c → ∀ d ∈ c.cells,
    ∃ j, i ≤ j ∧ j ≤ g.time.now ∧ ∃ c' pre post, g.past j l = some c' ∧
      c'.cells = pre ++ d :: post ∧ linkOf (m.node d.addr).next = firstAddr post
  linked_iff : ∀ p l, g.whose p = .linked l ↔ ∃ c, g.now l = some c ∧ ∃ d ∈ c.cells, d.addr = p

/-- The words of the leaves, and their counts. -/
structure LeafsOk (m : ChainMem V) (g : Ghost V) : Prop where
  born : ∀ l c, g.now l = some c → l < m.nextLeaf
  published : ∀ l, m.published l = (g.now l).isSome
  unlinked : ∀ l, m.unlinked l = true → ∃ c, g.now l = some c ∧ c.dead = true
  dead : ∀ l c, g.now l = some c → c.dead = true →
    (m.leaf l).chainLatch = chainDead ∧ g.holder l = none
  unlocked : ∀ l c, g.now l = some c → c.dead = false → g.holder l = none →
    (m.leaf l).chainLatch = 0 ∧ g.counted l = (versionsOf c.cells).live
  held : ∀ l t, g.holder l = some t → (m.leaf l).chainLatch = chainLocked ∧
    ∃ c, g.now l = some c ∧ c.dead = false
  draft : ∀ l t, g.draft l = some t → g.now l = none ∧ l < m.nextLeaf
  counts : ∀ l, g.counted l = 0 ∨ g.counted l = 1
  owed : ∀ l t, g.owed l = some t → ∃ c, g.now l = some c ∧ c.dead = true
  settled : ∀ l c, g.now l = some c → c.dead = true → g.owed l = none → g.counted l = 0
  unborn : ∀ l, g.now l = none → g.draft l = none → g.counted l = 0
  len : m.len = ∑ l ∈ Finset.range m.nextLeaf, g.counted l

/-- The ledger of the nodes. -/
structure NodesOk (m : ChainMem V) (g : Ghost V) : Prop where
  aligned : 8 ∣ m.nextAddr ∧ 0 < m.nextAddr
  alloc : ∀ p, g.whose p ≠ .free → p ≠ 0 ∧ 8 ∣ p ∧ p < m.nextAddr
  marked : ∀ p, (g.whose p).isMarked = true → hasFlag (m.node p).next supersededFlag = true
  unmarked : ∀ p l, g.whose p = .linked l ∨ g.whose p = .loose l →
    hasFlag (m.node p).next supersededFlag = false
  /-- Only the holder of the lock may have nodes to mark. -/
  loose : ∀ p l, g.whose p = .loose l → g.holder l ≠ none
  retired : m.retired.Nodup ∧ ∀ p, p ∈ m.retired ↔ ∃ l, g.whose p = .retired l
  boxed : ∀ p l, g.whose p = .retired l → hasFlag (m.node p).next inlineFlag = false
  left : ∀ p l, g.whose p = .left l → hasFlag (m.node p).next inlineFlag = true
  /-- The inline nodes of a leaf are its slots. -/
  inline_iff : ∀ p l, (g.whose p).home = some l → (hasFlag (m.node p).next inlineFlag = true ↔
    p = (m.leaf l).slot0 ∨ p = (m.leaf l).slot1)
  homed : ∀ p l, (g.whose p).home = some l → (g.now l).isSome
  slots : ∀ l < m.nextLeaf, (m.leaf l).slot0 < m.nextAddr ∧ (m.leaf l).slot1 < m.nextAddr ∧
    ∀ l' < m.nextLeaf, (m.leaf l).slot0 ≠ (m.leaf l').slot1
  slot0 : ∀ l c, g.now l = some c → (g.whose (m.leaf l).slot0).home = some l ∧
    (m.leaf l).slotsInit &&& slotBit0 ≠ 0
  slot1 : ∀ l < m.nextLeaf, g.whose (m.leaf l).slot1 = .spare l ∨
    (∃ t, g.holder l = some t ∧ g.whose (m.leaf l).slot1 = .thread t) ∨
    (g.whose (m.leaf l).slot1).home = some l
  spare : ∀ l < m.nextLeaf, g.whose (m.leaf l).slot1 = .spare l →
    (m.leaf l).slotsInit &&& slotBit1 = 0
  used : ∀ l < m.nextLeaf, (g.whose (m.leaf l).slot1).home = some l →
    (m.leaf l).slotsInit &&& slotBit1 ≠ 0

/-- The invariant. -/
structure Inv (m : ChainMem V) (h : List (Event (Op V) (Ret V))) (g : Ghost V) : Prop where
  calls : Timeline.Calls (spec V) h (fun i => seen (g.past i)) g.time g.run
  chains : ChainsOk m g
  leafs : LeafsOk m g
  nodes : NodesOk m g
  idle : ∀ t, g.run t = none → Idle g t

/-! ## What the other threads may do -/

/-- A leaf goes on: once dead, it stays as it is. -/
def Grows (g g' : Ghost V) : Prop :=
  ∀ l c, g.now l = some c → ∃ c', g'.now l = some c' ∧ (c.dead = true → c' = c)

/-- Memory, history and ghost state. -/
abbrev W (V : Type) := World (chains V) (Ghost V)

/-- Later states, after steps of any threads. -/
structure Later (x y : W V) : Prop where
  now : x.ghost.time.now ≤ y.ghost.time.now
  unlinked : ∀ l, x.mem.unlinked l = true → y.mem.unlinked l = true
  past : ∀ i ≤ x.ghost.time.now, y.ghost.past i = x.ghost.past i
  grows : Grows x.ghost y.ghost
  gone : ∀ p, (x.ghost.whose p).isGone = true → (y.ghost.whose p).isGone = true
  /-- What has left its chain is in no chain from then on. -/
  fresh : ∀ i, x.ghost.time.now < i → i ≤ y.ghost.time.now → ∀ l c, y.ghost.past i l = some c →
    ∀ d ∈ c.cells, (x.ghost.whose d.addr).isGone = false
  hist : ∀ ev ∈ x.hist, ev ∈ y.hist
  since : ∀ id op, .inv id op ∈ x.hist → y.ghost.time.since id = x.ghost.time.since id
  invoked : ∀ id op, .inv id op ∈ y.hist → .inv id op ∈ x.hist ∨
    x.ghost.time.now ≤ y.ghost.time.since id

/-- What the other threads may do to thread `t`. -/
structure Rely (t : ℕ) (x y : W V) : Prop where
  later : Later x y
  run : y.ghost.run t = x.ghost.run t
  since : ∀ r, x.ghost.run t = some r → y.ghost.time.since r.id = x.ghost.time.since r.id
  holder : ∀ l, y.ghost.holder l = some t ↔ x.ghost.holder l = some t
  held : ∀ l, x.ghost.holder l = some t → y.mem.leaf l = x.mem.leaf l ∧
    y.ghost.now l = x.ghost.now l ∧ y.ghost.counted l = x.ghost.counted l
  heldNode : ∀ l, x.ghost.holder l = some t → ∀ p,
    x.ghost.whose p = .linked l ∨ x.ghost.whose p = .loose l →
    y.ghost.whose p = x.ghost.whose p ∧ y.mem.node p = x.mem.node p
  heldLoose : ∀ l, x.ghost.holder l = some t → ∀ p, y.ghost.whose p = .loose l →
    x.ghost.whose p = .loose l
  thread : ∀ p, y.ghost.whose p = .thread t ↔ x.ghost.whose p = .thread t
  threadNode : ∀ p, x.ghost.whose p = .thread t → y.mem.node p = x.mem.node p
  carried : ∀ p l, y.ghost.whose p = .carried t l ↔ x.ghost.whose p = .carried t l
  carriedNode : ∀ p l, x.ghost.whose p = .carried t l → y.mem.node p = x.mem.node p
  draft : ∀ l, y.ghost.draft l = some t ↔ x.ghost.draft l = some t
  draftLeaf : ∀ l, x.ghost.draft l = some t → y.mem.leaf l = x.mem.leaf l ∧
    y.ghost.counted l = x.ghost.counted l
  owed : ∀ l, y.ghost.owed l = some t ↔ x.ghost.owed l = some t
  owedCount : ∀ l, x.ghost.owed l = some t → y.ghost.counted l = x.ghost.counted l

/-- Leaf `l` is no longer in the tree: `remove_confirmed` has unlinked it, or a clear has come to
it. -/
def Detached (l : ℕ) (x : W V) : Prop :=
  x.mem.unlinked l = true ∨ ∃ id, .inv id (.clearLeaf l) ∈ x.hist

/-- Leaf `l` counts for what its chain says. -/
def Exact (l : ℕ) (x : W V) : Prop :=
  ∀ c, x.ghost.now l = some c → x.ghost.counted l = (versionsOf c.cells).live

/-- Every leaf is counted as before and is not published now, or it is counted as what it is, or it
has been detached. -/
def Tallied (x y : W V) : Prop :=
  ∀ l, (y.ghost.counted l = x.ghost.counted l ∧ (x.ghost.now l = none → y.ghost.now l = none)) ∨
    Exact l y ∨ Detached l y

/-- What every step of thread `t` does to the states: it makes one more at most, and only an
action does that, when it places the call.  Leaves are counted first and then published, and
detached first and then counted out. -/
structure Own (t : ℕ) (x y : W V) : Prop where
  now : y.ghost.time.now = x.ghost.time.now ∨
    y.ghost.time.now = x.ghost.time.now + 1 ∧ y.hist = x.hist
  unplaced : ∀ r, y.ghost.run t = some r → r.placed = none →
    y.ghost.time.now = x.ghost.time.now ∧ (x.ghost.run t = none ∨ x.ghost.run t = some r)
  tallied : Tallied x y

section Relations

variable {t : ℕ} {x y z : W V}

/-- A step that neither counts nor publishes. -/
lemma Tallied.of_eq (hcounted : y.ghost.counted = x.ghost.counted)
    (hnow : y.ghost.now = x.ghost.now) : Tallied x y := fun l =>
  .inl ⟨congrFun hcounted l, fun h => (congrFun hnow l).trans h⟩

/-- A step that makes no state, of a call that goes on. -/
lemma Own.quiet (hnow : y.ghost.time.now = x.ghost.time.now)
    (hrun : y.ghost.run t = x.ghost.run t)
    (htallied : Tallied x y) : Own t x y where
  now := .inl hnow
  unplaced _ hr _ := ⟨hnow, .inr (hrun.symm.trans hr)⟩
  tallied := htallied

/-- A step that makes a new state, to which the call has led. -/
lemma Own.commit {id : ℕ} {op : Op V} {r : Ret V}
    (hnow : y.ghost.time.now = x.ghost.time.now + 1 ∧ y.hist = x.hist)
    (hrun : y.ghost.run t = some ⟨id, op, some r⟩)
    (htallied : Tallied x y) : Own t x y where
  now := .inr hnow
  tallied := htallied
  unplaced r' hr' hn := by
    obtain rfl := Option.some.inj (hrun.symm.trans hr')
    simp at hn

lemma Later.refl (x : W V) : Later x x where
  now := le_rfl
  unlinked _ h := h
  past _ _ := rfl
  grows _ c h := ⟨c, h, fun _ => rfl⟩
  gone _ h := h
  fresh _ h h' := absurd h (not_lt_of_ge h')
  hist _ h := h
  since _ _ _ := rfl
  invoked _ _ h := .inl h

lemma Later.trans (h : Later x y) (h' : Later y z) : Later x z where
  now := h.now.trans h'.now
  unlinked l hl := h'.unlinked l (h.unlinked l hl)
  past i hi := (h'.past i (hi.trans h.now)).trans (h.past i hi)
  grows l c hc := by
    obtain ⟨c', hc', hd⟩ := h.grows l c hc
    obtain ⟨c'', hc'', hd'⟩ := h'.grows l c' hc'
    refine ⟨c'', hc'', fun hdead => ?_⟩
    have he := hd hdead
    subst he
    exact hd' hdead
  gone p hp := h'.gone p (h.gone p hp)
  fresh i hi hi' l c hc d hd := by
    rcases le_or_gt i y.ghost.time.now with hle | hlt
    · rw [h'.past i hle] at hc
      exact h.fresh i hi hle l c hc d hd
    · by_contra hgone
      have hgone' := h'.fresh i hlt hi' l c hc d hd
      rw [h.gone d.addr (by simpa using hgone)] at hgone'
      exact absurd hgone' (by simp)
  hist ev hev := h'.hist ev (h.hist ev hev)
  since id op hid := (h'.since id op (h.hist _ hid)).trans (h.since id op hid)
  invoked id op hid := by
    rcases h'.invoked id op hid with hy | hle
    · refine (h.invoked id op hy).imp_right fun hle => ?_
      rwa [h'.since id op hy]
    · exact .inr (h.now.trans hle)

lemma Rely.refl (t : ℕ) (x : W V) : Rely t x x where
  later := .refl x
  run := rfl
  since _ _ := rfl
  holder _ := Iff.rfl
  held _ _ := ⟨rfl, rfl, rfl⟩
  heldNode _ _ _ _ := ⟨rfl, rfl⟩
  heldLoose _ _ _ h := h
  thread _ := Iff.rfl
  threadNode _ _ := rfl
  carried _ _ := Iff.rfl
  carriedNode _ _ _ := rfl
  draft _ := Iff.rfl
  draftLeaf _ _ := ⟨rfl, rfl⟩
  owed _ := Iff.rfl
  owedCount _ _ := rfl

lemma Rely.trans (h : Rely t x y) (h' : Rely t y z) : Rely t x z where
  later := h.later.trans h'.later
  run := h'.run.trans h.run
  since r hr := (h'.since r (h.run.trans hr)).trans (h.since r hr)
  holder l := (h'.holder l).trans (h.holder l)
  held l hl := by
    obtain ⟨h1, h2, h3⟩ := h.held l hl
    obtain ⟨h1', h2', h3'⟩ := h'.held l ((h.holder l).mpr hl)
    exact ⟨h1'.trans h1, h2'.trans h2, h3'.trans h3⟩
  heldNode l hl p hp := by
    obtain ⟨h1, h2⟩ := h.heldNode l hl p hp
    obtain ⟨h1', h2'⟩ := h'.heldNode l ((h.holder l).mpr hl) p (by rwa [h1])
    exact ⟨h1'.trans h1, h2'.trans h2⟩
  heldLoose l hl p hp := h.heldLoose l hl p (h'.heldLoose l ((h.holder l).mpr hl) p hp)
  thread p := (h'.thread p).trans (h.thread p)
  threadNode p hp := (h'.threadNode p ((h.thread p).mpr hp)).trans (h.threadNode p hp)
  carried p l := (h'.carried p l).trans (h.carried p l)
  carriedNode p l hp :=
    (h'.carriedNode p l ((h.carried p l).mpr hp)).trans (h.carriedNode p l hp)
  draft l := (h'.draft l).trans (h.draft l)
  draftLeaf l hl := by
    obtain ⟨h1, h2⟩ := h.draftLeaf l hl
    obtain ⟨h1', h2'⟩ := h'.draftLeaf l ((h.draft l).mpr hl)
    exact ⟨h1'.trans h1, h2'.trans h2⟩
  owed l := (h'.owed l).trans (h.owed l)
  owedCount l hl := (h'.owedCount l ((h.owed l).mpr hl)).trans (h.owedCount l hl)

end Relations

/-! ## What a thread may do -/

/-- Thread `t` may look at node `p`: it has been in a chain since the invocation of the thread's
call, or the thread has allocated it. -/
def Reach (t p : ℕ) (g : Ghost V) : Prop :=
  g.whose p = .thread t ∨ ∃ r, g.run t = some r ∧ ∃ i, g.time.since r.id ≤ i ∧
    i ≤ g.time.now ∧ ∃ l c, g.past i l = some c ∧ ∃ d ∈ c.cells, d.addr = p

/-- Thread `t` may write the link of node `p`. -/
def Writable (t p : ℕ) (g : Ghost V) : Prop :=
  g.whose p = .thread t ∨
    ∃ l, g.holder l = some t ∧ (g.whose p = .linked l ∨ g.whose p = .loose l)

/-- The conditions under which thread `t` takes a step. -/
def Permitted (t : ℕ) : {β : Type} → ChainAct V β → Ghost V → Prop
  | _, .storeLatch l _, g => g.holder l = some t
  | _, .storeHead l _, g => g.holder l = some t
  | _, .storeSlots l _, g => g.holder l = some t ∨ g.draft l = some t
  | _, .writeSlot1 l _ _, g => g.holder l = some t
  | _, .readVersion p, g => Reach t p g
  | _, .readValue p, g => Reach t p g
  | _, .loadNext p, g => Reach t p g
  | _, .storeNext p _, g => Reach t p g ∧ Writable t p g
  | _, .retire p, g => ∃ l, g.whose p = .carried t l
  | _, .publish l, g => g.draft l = some t
  | _, _, _ => True

/-- The rely-guarantee assignment of version chains. -/
@[reducible] def rg (V : Type) : RG (chains V) where
  Ghost := Ghost V
  Inv x := Inv x.mem x.hist x.ghost
  Rely := Rely
  refl := Rely.refl
  trans := Rely.trans
  tag g t := (g.run t).map fun r => (r.id, r.op)
  tag_rely h := by rw [h.run]
  Allowed t _ a x := Permitted t a x.ghost
  Own := Own

end Versioned

end Artmap
