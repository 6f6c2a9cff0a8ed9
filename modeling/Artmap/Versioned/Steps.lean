import Artmap.Versioned.Ghost

/-!
# The steps of a thread on version chains

Every store of a thread comes with a change of the ghost state: a lock changes hands, a node goes
from one owner to the next, a count is passed on.  For each of them this file has two lemmas:
the invariant holds again (`_inv`), and the other threads can rely on what they relied on before
(`_rely`).  The steps at which an operation takes effect are in the next file.
-/

namespace Artmap

namespace Versioned

variable {V : Type}

/-! ## Memory -/

namespace ChainMem

variable {m : ChainMem V} {l l' p q w : ℕ}

@[simp] lemma setLatch_node : (m.setLatch l w).node = m.node := rfl

@[simp] lemma setSlots_node : (m.setSlots l w).node = m.node := rfl

@[simp] lemma setHead_node : (m.setHead p l).node = m.node := rfl

@[simp] lemma setLatch_nextLeaf : (m.setLatch l w).nextLeaf = m.nextLeaf := rfl

@[simp] lemma setLatch_nextAddr : (m.setLatch l w).nextAddr = m.nextAddr := rfl

@[simp] lemma setSlots_nextLeaf : (m.setSlots l w).nextLeaf = m.nextLeaf := rfl

@[simp] lemma setSlots_nextAddr : (m.setSlots l w).nextAddr = m.nextAddr := rfl

@[simp] lemma setHead_nextLeaf : (m.setHead p l).nextLeaf = m.nextLeaf := rfl

@[simp] lemma setHead_nextAddr : (m.setHead p l).nextAddr = m.nextAddr := rfl

@[simp] lemma setNext_leaf : (m.setNext p w).leaf = m.leaf := rfl

@[simp] lemma setLatch_head : ((m.setLatch l w).leaf l').head = (m.leaf l').head := by
  by_cases h : l' = l
  · subst h
    simp [setLatch]
  · simp [setLatch, h]

@[simp] lemma setLatch_slot0 : ((m.setLatch l w).leaf l').slot0 = (m.leaf l').slot0 := by
  by_cases h : l' = l
  · subst h
    simp [setLatch]
  · simp [setLatch, h]

@[simp] lemma setLatch_slot1 : ((m.setLatch l w).leaf l').slot1 = (m.leaf l').slot1 := by
  by_cases h : l' = l
  · subst h
    simp [setLatch]
  · simp [setLatch, h]

@[simp] lemma setLatch_slotsInit :
    ((m.setLatch l w).leaf l').slotsInit = (m.leaf l').slotsInit := by
  by_cases h : l' = l
  · subst h
    simp [setLatch]
  · simp [setLatch, h]

@[simp] lemma setLatch_latch : ((m.setLatch l w).leaf l).chainLatch = w := by
  simp [setLatch]

lemma setLatch_ne (h : l' ≠ l) : (m.setLatch l w).leaf l' = m.leaf l' := by
  simp [setLatch, h]

@[simp] lemma setSlots_head : ((m.setSlots l w).leaf l').head = (m.leaf l').head := by
  by_cases h : l' = l
  · subst h
    simp [setSlots]
  · simp [setSlots, h]

@[simp] lemma setSlots_slot0 : ((m.setSlots l w).leaf l').slot0 = (m.leaf l').slot0 := by
  by_cases h : l' = l
  · subst h
    simp [setSlots]
  · simp [setSlots, h]

@[simp] lemma setSlots_slot1 : ((m.setSlots l w).leaf l').slot1 = (m.leaf l').slot1 := by
  by_cases h : l' = l
  · subst h
    simp [setSlots]
  · simp [setSlots, h]

@[simp] lemma setSlots_latch :
    ((m.setSlots l w).leaf l').chainLatch = (m.leaf l').chainLatch := by
  by_cases h : l' = l
  · subst h
    simp [setSlots]
  · simp [setSlots, h]

@[simp] lemma setSlots_slotsInit : ((m.setSlots l w).leaf l).slotsInit = w := by
  simp [setSlots]

lemma setSlots_ne (h : l' ≠ l) : (m.setSlots l w).leaf l' = m.leaf l' := by
  simp [setSlots, h]

@[simp] lemma setHead_slot0 : ((m.setHead p l).leaf l').slot0 = (m.leaf l').slot0 := by
  by_cases h : l' = l
  · subst h
    simp [setHead]
  · simp [setHead, h]

@[simp] lemma setHead_slot1 : ((m.setHead p l).leaf l').slot1 = (m.leaf l').slot1 := by
  by_cases h : l' = l
  · subst h
    simp [setHead]
  · simp [setHead, h]

@[simp] lemma setHead_slotsInit :
    ((m.setHead p l).leaf l').slotsInit = (m.leaf l').slotsInit := by
  by_cases h : l' = l
  · subst h
    simp [setHead]
  · simp [setHead, h]

@[simp] lemma setHead_latch :
    ((m.setHead p l).leaf l').chainLatch = (m.leaf l').chainLatch := by
  by_cases h : l' = l
  · subst h
    simp [setHead]
  · simp [setHead, h]

@[simp] lemma setHead_head : ((m.setHead p l).leaf l).head = p := by
  simp [setHead]

lemma setHead_ne (h : l' ≠ l) : (m.setHead p l).leaf l' = m.leaf l' := by
  simp [setHead, h]

@[simp] lemma setNext_version : ((m.setNext p w).node q).version = (m.node q).version := by
  by_cases h : q = p
  · subst h
    simp [setNext, setNode]
  · simp [setNext, setNode, h]

@[simp] lemma setNext_value : ((m.setNext p w).node q).value = (m.node q).value := by
  by_cases h : q = p
  · subst h
    simp [setNext, setNode]
  · simp [setNext, setNode, h]

@[simp] lemma setNext_next : ((m.setNext p w).node p).next = w := by
  simp [setNext, setNode]

lemma setNext_ne (h : q ≠ p) : (m.setNext p w).node q = m.node q := by
  simp [setNext, setNode, h]

lemma setNode_ne {n : VersionNode V} (h : q ≠ p) : (m.setNode p n).node q = m.node q := by
  simp [setNode, h]

end ChainMem

/-! ## Ghost state -/

namespace Ghost

variable (g : Ghost V)

/-- Thread `t` takes the lock of leaf `l`. -/
def take (l t : ℕ) : Ghost V :=
  { g with holder := Function.update g.holder l (some t) }

/-- The lock of leaf `l` is released. -/
def release (l : ℕ) : Ghost V :=
  { g with holder := Function.update g.holder l none }

/-- A node gets another owner. -/
def give (p : ℕ) (o : Owner) : Ghost V :=
  { g with whose := Function.update g.whose p o }

/-- A leaf counts for `d` more. -/
def count (l : ℕ) (d : ℤ) : Ghost V :=
  { g with counted := Function.update g.counted l (g.counted l + d) }

variable {g} {l t p : ℕ} {o : Owner} {d : ℤ}

@[simp] lemma take_now : (g.take l t).now = g.now := rfl

@[simp] lemma take_whose : (g.take l t).whose = g.whose := rfl

@[simp] lemma release_now : (g.release l).now = g.now := rfl

@[simp] lemma release_whose : (g.release l).whose = g.whose := rfl

@[simp] lemma give_now : (g.give p o).now = g.now := rfl

@[simp] lemma give_holder : (g.give p o).holder = g.holder := rfl

@[simp] lemma count_now : (g.count l d).now = g.now := rfl

@[simp] lemma count_whose : (g.count l d).whose = g.whose := rfl

end Ghost

variable {m : ChainMem V} {h : List (Event (Op V) (Ret V))} {g : Ghost V} {t t' l l' p w : ℕ}
  {o : Owner}

/-! ## Locks -/

lemma Inv.leaf_unlocked (hi : Inv m h g) (hl : (m.leaf l).chainLatch = 0)
    (hp : (g.now l).isSome) :
    ∃ c, g.now l = some c ∧ c.dead = false ∧ g.holder l = none := by
  obtain ⟨c, hc⟩ := Option.isSome_iff_exists.mp hp
  refine ⟨c, hc, ?_, ?_⟩
  · by_contra hd
    have := (hi.leafs.dead l c hc (by simpa using hd)).1
    rw [hl] at this
    exact absurd this (by decide)
  · by_contra hh
    obtain ⟨t, ht⟩ := Option.ne_none_iff_exists'.mp hh
    have := (hi.leafs.held l t ht).1
    rw [hl] at this
    exact absurd this (by decide)

lemma acquire_inv (hi : Inv m h g) (hl : (m.leaf l).chainLatch = 0) (hp : (g.now l).isSome)
    (hrun : g.run t ≠ none) (s : List Bool) :
    Inv { m.setLatch l chainLocked with spurious := s } h (g.take l t) := by
  obtain ⟨c, hc, hd, hfree⟩ := hi.leaf_unlocked hl hp
  have hne : ∀ {l'}, l' ≠ l → (g.take l t).holder l' = g.holder l' := fun hl' =>
    Function.update_of_ne hl' _ _
  refine
    { calls := hi.calls
      chains := { hi.chains with linked := fun l' c' hc' => ?_ }
      leafs := { hi.leafs with
        dead := fun l' c' hc' hd' => ?_, unlocked := fun l' c' hc' hd' hh => ?_,
        held := fun l' t' hh => ?_ }
      nodes := { hi.nodes with
        loose := fun p l' hp' => ?_, inline_iff := fun p l' hp' => ?_,
        slots := by simpa using hi.nodes.slots
        slot0 := fun l' c' hc' => ?_, slot1 := fun l' hl' => ?_, spare := fun l' hl' => ?_,
        used := fun l' hl' => ?_ }
      idle := fun t' ht' => ?_ }
  · simpa using hi.chains.linked l' c' hc'
  · have hne' : l' ≠ l := by
      rintro rfl
      have hcc : c = c' := Option.some.inj (hc.symm.trans hc')
      rw [hcc, hd'] at hd
      exact absurd hd (by decide)
    obtain ⟨h1, h2⟩ := hi.leafs.dead l' c' hc' hd'
    refine ⟨?_, (hne hne').trans h2⟩
    show ((m.setLatch l chainLocked).leaf l').chainLatch = _
    rw [ChainMem.setLatch_ne hne']
    exact h1
  · by_cases hl' : l' = l
    · subst hl'
      simp [Ghost.take] at hh
    · rw [hne hl'] at hh
      show ((m.setLatch l chainLocked).leaf l').chainLatch = 0 ∧ _
      rw [ChainMem.setLatch_ne hl']
      exact hi.leafs.unlocked l' c' hc' hd' hh
  · by_cases hl' : l' = l
    · subst hl'
      exact ⟨ChainMem.setLatch_latch, c, hc, hd⟩
    · rw [hne hl'] at hh
      show ((m.setLatch l chainLocked).leaf l').chainLatch = _ ∧ _
      rw [ChainMem.setLatch_ne hl']
      exact hi.leafs.held l' t' hh
  · by_cases hl' : l' = l
    · subst hl'
      simp [Ghost.take]
    · rw [hne hl']
      exact hi.nodes.loose p l' hp'
  · simpa using hi.nodes.inline_iff p l' hp'
  · simpa using hi.nodes.slot0 l' c' hc'
  · have hold := hi.nodes.slot1 l' hl'
    show g.whose ((m.setLatch l chainLocked).leaf l').slot1 = _ ∨
      (∃ t', (g.take l t).holder l' = some t' ∧
        g.whose ((m.setLatch l chainLocked).leaf l').slot1 = _) ∨
      (g.whose ((m.setLatch l chainLocked).leaf l').slot1).home = _
    rw [ChainMem.setLatch_slot1]
    refine hold.imp_right (Or.imp_left ?_)
    rintro ⟨t', ht', hw⟩
    have hl'' : l' ≠ l := by
      rintro rfl
      rw [hfree] at ht'
      simp at ht'
    exact ⟨t', (hne hl'').trans ht', hw⟩
  · simpa using hi.nodes.spare l' hl'
  · simpa using hi.nodes.used l' hl'
  · have hidle := hi.idle t' ht'
    refine { hidle with holder := fun l' hl' => ?_ }
    by_cases hll : l' = l
    · subst hll
      obtain rfl : t = t' := by simpa [Ghost.take] using hl'
      exact hrun ht'
    · rw [hne hll] at hl'
      exact hidle.holder l' hl'

lemma acquire_rely (hi : Inv m h g) (hl : (m.leaf l).chainLatch = 0) (hp : (g.now l).isSome)
    (ht : t' ≠ t) (s : List Bool) :
    Rely t' ⟨m, h, g⟩ ⟨{ m.setLatch l chainLocked with spurious := s }, h, g.take l t⟩ := by
  obtain ⟨c, -, -, hfree⟩ := hi.leaf_unlocked hl hp
  have hholder : ∀ l', (g.take l t).holder l' = some t' ↔ g.holder l' = some t' := by
    intro l'
    by_cases hl' : l' = l
    · subst hl'
      simp [Ghost.take, hfree, ht.symm]
    · simp [Ghost.take, hl']
  refine { Rely.refl t' ⟨m, h, g⟩ with
    later := { Later.refl ⟨m, h, g⟩ with }, holder := hholder, held := fun l' hl' => ?_,
    draftLeaf := fun l' hl' => ?_ }
  · have hne : l' ≠ l := by
      rintro rfl
      rw [show g.holder l' = none from hfree] at hl'
      simp at hl'
    exact ⟨ChainMem.setLatch_ne hne, rfl, rfl⟩
  · have hne : l' ≠ l := by
      rintro rfl
      have := (hi.leafs.draft l' t' hl').1
      rw [this] at hp
      simp at hp
    exact ⟨ChainMem.setLatch_ne hne, rfl⟩

/-- A weak compare-exchange fails. -/
lemma spurious_inv (hi : Inv m h g) (s : List Bool) : Inv { m with spurious := s } h g where
  calls := hi.calls
  chains := { hi.chains with }
  leafs := { hi.leafs with }
  nodes := { hi.nodes with }
  idle := hi.idle

lemma spurious_rely (s : List Bool) : Rely t ⟨m, h, g⟩ ⟨{ m with spurious := s }, h, g⟩ :=
  { Rely.refl t ⟨m, h, g⟩ with later := { Later.refl ⟨m, h, g⟩ with } }

/-- The holder of a lock finds its leaf alive. -/
lemma Inv.alive (hi : Inv m h g) (hl : g.holder l = some t) :
    ∃ cells, g.now l = some ⟨cells, false⟩ := by
  obtain ⟨-, ⟨cells, dead⟩, hc, hd⟩ := hi.leafs.held l t hl
  exact ⟨cells, by rw [hc]; simpa using hd⟩

/-- A draft is not published. -/
lemma Inv.draft_ne (hi : Inv m h g) (hd : g.draft l' = some t') (hp : (g.now l).isSome) :
    l' ≠ l := by
  rintro rfl
  rw [(hi.leafs.draft l' t' hd).1] at hp
  simp at hp

lemma release_inv (hi : Inv m h g) (hl : g.holder l = some t) {cells : List (Cell V)}
    (hc : g.now l = some ⟨cells, false⟩) (hcount : g.counted l = (versionsOf cells).live)
    (hloose : ∀ p, g.whose p ≠ .loose l) (hbag : ∀ p, g.whose p ≠ .thread t) :
    Inv (m.setLatch l 0) h (g.release l) := by
  have hne : ∀ {l'}, l' ≠ l → (g.release l).holder l' = g.holder l' := fun hl' =>
    Function.update_of_ne hl' _ _
  have hfree : (g.release l).holder l = none := Function.update_self ..
  refine
    { calls := hi.calls
      chains := { hi.chains with linked := fun l' c' hc' => ?_ }
      leafs := { hi.leafs with
        dead := fun l' c' hc' hd' => ?_, unlocked := fun l' c' hc' hd' hh => ?_,
        held := fun l' t' hh => ?_ }
      nodes := { hi.nodes with
        loose := fun p l' hp' => ?_, inline_iff := fun p l' hp' => ?_,
        slots := by simpa using hi.nodes.slots
        slot0 := fun l' c' hc' => ?_, slot1 := fun l' hl' => ?_, spare := fun l' hl' => ?_,
        used := fun l' hl' => ?_ }
      idle := fun t' ht' => ?_ }
  · simpa using hi.chains.linked l' c' hc'
  · have hne' : l' ≠ l := by
      rintro rfl
      obtain rfl := Option.some.inj (hc.symm.trans hc')
      simp at hd'
    obtain ⟨h1, h2⟩ := hi.leafs.dead l' c' hc' hd'
    rw [ChainMem.setLatch_ne hne']
    exact ⟨h1, (hne hne').trans h2⟩
  · by_cases hl' : l' = l
    · subst hl'
      obtain rfl := Option.some.inj (hc.symm.trans hc')
      exact ⟨ChainMem.setLatch_latch, hcount⟩
    · rw [hne hl'] at hh
      rw [ChainMem.setLatch_ne hl']
      exact hi.leafs.unlocked l' c' hc' hd' hh
  · have hl' : l' ≠ l := by
      rintro rfl
      rw [hfree] at hh
      simp at hh
    rw [hne hl'] at hh
    rw [ChainMem.setLatch_ne hl']
    exact hi.leafs.held l' t' hh
  · have hl' : l' ≠ l := by
      rintro rfl
      exact hloose p hp'
    rw [hne hl']
    exact hi.nodes.loose p l' hp'
  · simpa using hi.nodes.inline_iff p l' hp'
  · simpa using hi.nodes.slot0 l' c' hc'
  · have hold := hi.nodes.slot1 l' hl'
    rw [ChainMem.setLatch_slot1]
    refine hold.imp_right (Or.imp_left ?_)
    rintro ⟨t', ht', hw⟩
    have hl'' : l' ≠ l := by
      rintro rfl
      obtain rfl := Option.some.inj (hl.symm.trans ht')
      exact hbag _ hw
    exact ⟨t', (hne hl'').trans ht', hw⟩
  · simpa using hi.nodes.spare l' hl'
  · simpa using hi.nodes.used l' hl'
  · have hidle := hi.idle t' ht'
    refine { hidle with holder := fun l' hl' => ?_ }
    by_cases hll : l' = l
    · subst hll
      rw [hfree] at hl'
      simp at hl'
    · rw [hne hll] at hl'
      exact hidle.holder l' hl'

lemma release_rely (hi : Inv m h g) (hl : g.holder l = some t) (ht : t' ≠ t) :
    Rely t' ⟨m, h, g⟩ ⟨m.setLatch l 0, h, g.release l⟩ := by
  obtain ⟨cells, hc⟩ := hi.alive hl
  refine { Rely.refl t' ⟨m, h, g⟩ with
    later := { Later.refl ⟨m, h, g⟩ with }, holder := fun l' => ?_,
    held := fun l' hl' => ?_, draftLeaf := fun l' hl' => ?_ }
  · by_cases hl' : l' = l
    · subst hl'
      simp [Ghost.release, hl, ht.symm]
    · simp [Ghost.release, hl']
  · have hne : l' ≠ l := by
      rintro rfl
      exact ht (Option.some.inj (hl'.symm.trans hl))
    exact ⟨ChainMem.setLatch_ne hne, rfl, rfl⟩
  · exact ⟨ChainMem.setLatch_ne (hi.draft_ne hl' (by simp [hc])), rfl⟩

/-! ## Nodes -/

/-- What a chain is read from. -/
structure Alike (n n' : VersionNode V) : Prop where
  version : n'.version = n.version
  value : n'.value = n.value
  tombstone : hasFlag n'.next tombstoneFlag = hasFlag n.next tombstoneFlag
  link : linkOf n'.next = linkOf n.next

lemma Alike.refl (n : VersionNode V) : Alike n n :=
  ⟨rfl, rfl, rfl, rfl⟩

lemma Alike.matched {n n' : VersionNode V} {d : Cell V} (h : Alike n n') (hd : Matches n d) :
    Matches n' d :=
  ⟨h.version.trans hd.version, h.value.trans hd.value, h.tombstone.trans hd.tombstone⟩

lemma hasFlag_marked {flag : ℕ} (hf : flag = tombstoneFlag ∨ flag = inlineFlag) :
    hasFlag (marked w) flag = hasFlag w flag := by
  rcases hf with rfl | rfl
  · rw [show tombstoneFlag = 2 ^ 1 from rfl, hasFlag_two_pow (by omega),
      hasFlag_two_pow (by omega), testBit_marked]
    simp
  · rw [show inlineFlag = 2 ^ 2 from rfl, hasFlag_two_pow (by omega),
      hasFlag_two_pow (by omega), testBit_marked]
    simp

lemma hasFlag_marked_superseded : hasFlag (marked w) supersededFlag = true := by
  rw [show supersededFlag = 2 ^ 0 from rfl, hasFlag_two_pow (by omega), testBit_marked]
  simp

lemma alike_marked (m : ChainMem V) (p q : ℕ) :
    Alike (m.node q) ((m.setNext p (marked (m.node p).next)).node q) := by
  by_cases hq : q = p
  · subst hq
    refine ⟨ChainMem.setNext_version, ChainMem.setNext_value, ?_, ?_⟩
    · rw [ChainMem.setNext_next, hasFlag_marked (.inl rfl)]
    · rw [ChainMem.setNext_next, linkOf_marked]
  · rw [ChainMem.setNext_ne hq]
    exact .refl _

/-- The chains do not see what happens to nodes that are in none of them. -/
lemma ChainsOk.frame {m' : ChainMem V} {g' : Ghost V} (hc : ChainsOk m g)
    (hpast : g'.past = g.past) (htime : g'.time.now = g.time.now)
    (hhead : ∀ l, (g.now l).isSome → (m'.leaf l).head = (m.leaf l).head)
    (hnode : ∀ p, (g.whose p).home ≠ none → Alike (m.node p) (m'.node p))
    (hhome : ∀ p, (g.whose p).home ≠ none → (g'.whose p).home = (g.whose p).home)
    (hlinked : ∀ p l, g'.whose p = .linked l ↔ g.whose p = .linked l) : ChainsOk m' g' := by
  have hnow : g'.now = g.now := by
    unfold Ghost.now
    rw [hpast, htime]
  have hmem : ∀ {i l c d}, i ≤ g.time.now → g.past i l = some c → d ∈ c.cells →
      (g.whose d.addr).home ≠ none := by
    intro i l c d hi hl hd
    simp [hc.home i hi l c hl d hd]
  refine
    { linked := fun l c hl => ?_, nonempty := ?_, desc := ?_, matching := ?_, home := ?_,
      hindsight := ?_, linked_iff := fun p l => ?_ }
  · rw [hnow] at hl
    rw [hhead l (by simp [hl])]
    exact (hc.linked l c hl).congr fun d hd => (hnode d.addr (hmem le_rfl hl hd)).link
  · rw [hpast, htime]
    exact hc.nonempty
  · rw [hpast, htime]
    exact hc.desc
  · rw [hpast, htime]
    exact fun i hi l c hl d hd =>
      (hnode d.addr (hmem hi hl hd)).matched (hc.matching i hi l c hl d hd)
  · rw [hpast, htime]
    intro i hi l c hl d hd
    rw [hhome d.addr (hmem hi hl hd)]
    exact hc.home i hi l c hl d hd
  · rw [hpast, htime]
    intro i hi l c hl d hd
    obtain ⟨j, hij, hj, c', pre, post, hc', he, hlink⟩ := hc.hindsight i hi l c hl d hd
    exact ⟨j, hij, hj, c', pre, post, hc', he, (hnode d.addr (hmem hi hl hd)).link.trans hlink⟩
  · rw [hlinked, hnow]
    exact hc.linked_iff p l

/-- What becomes of a node matters to thread `t`. -/
def Concerns (g : Ghost V) (t : ℕ) (o : Owner) : Prop :=
  o = .thread t ∨ (∃ l, o = .carried t l) ∨
    ∃ l, g.holder l = some t ∧ (o = .linked l ∨ o = .loose l)

/-- A node that matters to thread `t` neither before nor after gets another owner. -/
lemma rely_give {m' : ChainMem V} {o : Owner} (ho : ¬ Concerns g t (g.whose p))
    (ho' : ¬ Concerns g t o) (hgone : (g.whose p).isGone = true → o.isGone = true)
    (hnode : ∀ q, q ≠ p → m'.node q = m.node q)
    (hleaf : ∀ l, (g.now l).isSome ∨ g.draft l = some t → m'.leaf l = m.leaf l)
    (hpub : ∀ l, g.holder l = some t → (g.now l).isSome)
    (hunlinked : m'.unlinked = m.unlinked := by rfl) :
    Rely t ⟨m, h, g⟩ ⟨m', h, g.give p o⟩ := by
  have hne : ∀ {q}, q ≠ p → (g.give p o).whose q = g.whose q := fun hq =>
    Function.update_of_ne hq _ _
  have hself : (g.give p o).whose p = o := Function.update_self ..
  -- A node of one of thread `t`'s owners is another one.
  have hother : ∀ {q}, Concerns g t (g.whose q) → q ≠ p := by
    rintro q hq rfl
    exact ho hq
  have hother' : ∀ {q}, Concerns g t ((g.give p o).whose q) → q ≠ p := by
    rintro q hq rfl
    rw [hself] at hq
    exact ho' hq
  refine
    { later :=
        { Later.refl ⟨m, h, g⟩ with
          unlinked := fun l hl => (congrFun hunlinked l).trans hl
          gone := fun q hq => ?_ }
      run := rfl
      since := fun _ _ => rfl
      holder := fun _ => Iff.rfl
      held := fun l hl => ⟨hleaf l (.inl (hpub l hl)), rfl, rfl⟩
      heldNode := fun l hl q hq => ?_
      heldLoose := fun l hl q hq => ?_
      thread := fun q => ?_
      threadNode := fun q hq => hnode q (hother (.inl hq))
      carried := fun q l => ?_
      carriedNode := fun q l hq => hnode q (hother (.inr (.inl ⟨l, hq⟩)))
      draft := fun _ => Iff.rfl
      draftLeaf := fun l hl => ⟨hleaf l (.inr hl), rfl⟩
      owed := fun _ => Iff.rfl
      owedCount := fun _ _ => rfl }
  · by_cases hqp : q = p
    · subst hqp
      show ((g.give q o).whose q).isGone = true
      rw [hself]
      exact hgone hq
    · show ((g.give p o).whose q).isGone = true
      rw [hne hqp]
      exact hq
  · have hqp : q ≠ p := hother (.inr (.inr ⟨l, hl, hq⟩))
    exact ⟨hne hqp, hnode q hqp⟩
  · have hqp : q ≠ p := hother' (.inr (.inr ⟨l, hl, .inr hq⟩))
    exact (hne hqp).symm.trans hq
  · constructor
    · intro hq
      exact (hne (hother' (.inl hq))).symm.trans hq
    · intro hq
      exact (hne (hother (.inl hq))).trans hq
  · constructor
    · intro hq
      exact (hne (hother' (.inr (.inl ⟨l, hq⟩)))).symm.trans hq
    · intro hq
      exact (hne (hother (.inr (.inl ⟨l, hq⟩)))).trans hq

lemma Ghost.give_self (hp : g.whose p = o) : g.give p o = g := by
  subst hp
  simp [Ghost.give]

/-- A node gets another owner of the same home. -/
lemma NodesOk.give {m' : ChainMem V} (hn : NodesOk m g) (hleaf : m'.leaf = m.leaf)
    (hleafs : m'.nextLeaf = m.nextLeaf) (haddr : 8 ∣ m'.nextAddr ∧ m.nextAddr ≤ m'.nextAddr)
    (hnode : ∀ q, q ≠ p → m'.node q = m.node q)
    (hp : p ≠ 0 ∧ 8 ∣ p ∧ p < m'.nextAddr) (hhome : o.home = (g.whose p).home)
    (hmarked : o.isMarked = true → hasFlag (m'.node p).next supersededFlag = true)
    (hout : ∀ l, o ≠ .linked l ∧ o ≠ .loose l ∧ o ≠ .spare l)
    (hinline : o.home ≠ none →
      hasFlag (m'.node p).next inlineFlag = hasFlag (m.node p).next inlineFlag)
    (hret : m'.retired.Nodup ∧ ∀ q, q ∈ m'.retired ↔ ∃ l, (g.give p o).whose q = .retired l)
    (hboxed : ∀ l, o = .retired l → hasFlag (m'.node p).next inlineFlag = false)
    (hleft : ∀ l, o = .left l → hasFlag (m'.node p).next inlineFlag = true)
    (hslot : ∀ l < m.nextLeaf, (m.leaf l).slot1 = p →
      (∃ t, g.holder l = some t ∧ o = .thread t) ∨ o.home = some l) :
    NodesOk m' (g.give p o) := by
  have hne : ∀ {q}, q ≠ p → (g.give p o).whose q = g.whose q := fun hq =>
    Function.update_of_ne hq _ _
  have hself : (g.give p o).whose p = o := Function.update_self ..
  have hhome' : ∀ q, ((g.give p o).whose q).home = (g.whose q).home := by
    intro q
    by_cases hq : q = p
    · rw [hq, hself, hhome]
    · rw [hne hq]
  refine
    { aligned := ⟨haddr.1, hn.aligned.2.trans_le haddr.2⟩, alloc := fun q hq => ?_,
      marked := fun q hq => ?_, unmarked := fun q l hq => ?_, loose := fun q l hq => ?_,
      retired := hret, boxed := fun q l hq => ?_, left := fun q l hq => ?_,
      inline_iff := fun q l hq => ?_, homed := fun q l hq => hn.homed q l (hhome' q ▸ hq),
      slots := ?_, slot0 := fun l c hc => ?_,
      slot1 := fun l hl => ?_, spare := fun l hl hw => ?_, used := fun l hl hw => ?_ }
  · by_cases hqp : q = p
    · exact hqp ▸ hp
    · rw [hne hqp] at hq
      obtain ⟨h1, h2, h3⟩ := hn.alloc q hq
      exact ⟨h1, h2, h3.trans_le haddr.2⟩
  · by_cases hqp : q = p
    · rw [hqp, hself] at hq
      rw [hqp]
      exact hmarked hq
    · rw [hne hqp] at hq
      rw [hnode q hqp]
      exact hn.marked q hq
  · have hqp : q ≠ p := by
      rintro rfl
      rw [hself] at hq
      exact hq.elim (hout l).1 (hout l).2.1
    rw [hne hqp] at hq
    rw [hnode q hqp]
    exact hn.unmarked q l hq
  · have hqp : q ≠ p := by
      rintro rfl
      rw [hself] at hq
      exact (hout l).2.1 hq
    rw [hne hqp] at hq
    exact hn.loose q l hq
  · by_cases hqp : q = p
    · rw [hqp, hself] at hq
      rw [hqp]
      exact hboxed l hq
    · rw [hne hqp] at hq
      rw [hnode q hqp]
      exact hn.boxed q l hq
  · by_cases hqp : q = p
    · rw [hqp, hself] at hq
      rw [hqp]
      exact hleft l hq
    · rw [hne hqp] at hq
      rw [hnode q hqp]
      exact hn.left q l hq
  · rw [hhome'] at hq
    rw [hleaf, ← hn.inline_iff q l hq]
    by_cases hqp : q = p
    · subst hqp
      rw [hinline (by rw [hhome, hq]; simp)]
    · rw [hnode q hqp]
  · rw [hleaf, hleafs]
    intro l hl
    obtain ⟨h1, h2, h3⟩ := hn.slots l hl
    exact ⟨h1.trans_le haddr.2, h2.trans_le haddr.2, h3⟩
  · rw [hleaf, hhome']
    exact hn.slot0 l c hc
  · rw [hleafs] at hl
    rw [hleaf]
    by_cases hlp : (m.leaf l).slot1 = p
    · rw [hlp, hself]
      exact .inr (hslot l hl hlp)
    · rw [hne hlp]
      exact hn.slot1 l hl
  · rw [hleafs] at hl
    rw [hleaf] at hw ⊢
    have hlp : (m.leaf l).slot1 ≠ p := by
      intro hlp
      rw [hlp, hself] at hw
      exact (hout l).2.2 hw
    rw [hne hlp] at hw
    exact hn.spare l hl hw
  · rw [hleafs] at hl
    rw [hleaf, hhome'] at hw
    rw [hleaf]
    exact hn.used l hl hw

/-- What has been retired, if the node is none of them before or after. -/
lemma NodesOk.retired_give (hn : NodesOk m g) (hp : ∀ l, g.whose p ≠ .retired l)
    (ho : ∀ l, o ≠ .retired l) :
    m.retired.Nodup ∧ ∀ q, q ∈ m.retired ↔ ∃ l, (g.give p o).whose q = .retired l := by
  refine ⟨hn.retired.1, fun q => ?_⟩
  rw [hn.retired.2 q]
  by_cases hq : q = p
  · subst hq
    simp [Ghost.give, hp, ho]
  · simp [Ghost.give, hq]

lemma Inv.idle_give (hi : Inv m h g) (hrun : g.run t ≠ none)
    (ho : (∀ t', t' ≠ t → o ≠ .thread t') ∧ ∀ t' l, t' ≠ t → o ≠ .carried t' l)
    (ht : g.run t' = none) : Idle (g.give p o) t' := by
  have hidle := hi.idle t' ht
  have hne : t' ≠ t := by
    rintro rfl
    exact hrun ht
  refine { hidle with thread := fun q => ?_, carried := fun q l => ?_ }
  · by_cases hq : q = p
    · subst hq
      simpa [Ghost.give] using ho.1 t' hne
    · simpa [Ghost.give, hq] using hidle.thread q
  · by_cases hq : q = p
    · subst hq
      simpa [Ghost.give] using ho.2 t' l hne
    · simpa [Ghost.give, hq] using hidle.carried q l

/-- The link of a node that has not been linked is written. -/
lemma scribble_inv (hi : Inv m h g) (hp : g.whose p = .thread t) (w : ℕ) :
    Inv (m.setNext p w) h g := by
  have hne : ∀ {q}, (g.whose q).home ≠ none → (m.setNext p w).node q = m.node q := by
    intro q hq
    refine ChainMem.setNext_ne ?_
    rintro rfl
    simp [hp, Owner.home] at hq
  have hmark : ∀ {q}, (g.whose q).isMarked = true → (g.whose q).home ≠ none := by
    intro q hq
    cases hw : g.whose q <;> simp_all [Owner.isMarked, Owner.home]
  refine
    { calls := hi.calls
      chains := hi.chains.frame rfl rfl (fun _ _ => rfl) (fun q hq => ?_) (fun _ _ => rfl)
        fun _ _ => Iff.rfl
      leafs := { hi.leafs with }
      nodes := { hi.nodes with
        marked := fun q hq => ?_, unmarked := fun q l hq => ?_, boxed := fun q l hq => ?_,
        left := fun q l hq => ?_, inline_iff := fun q l hq => ?_ }
      idle := hi.idle }
  · rw [hne hq]
    exact .refl _
  · rw [hne (hmark hq)]
    exact hi.nodes.marked q hq
  · rw [hne (by rcases hq with hq | hq <;> simp [hq, Owner.home])]
    exact hi.nodes.unmarked q l hq
  · rw [hne (by simp [hq, Owner.home])]
    exact hi.nodes.boxed q l hq
  · rw [hne (by simp [hq, Owner.home])]
    exact hi.nodes.left q l hq
  · rw [hne (by simp [hq])]
    exact hi.nodes.inline_iff q l hq

lemma Inv.held_published (hi : Inv m h g) (hl : g.holder l = some t) : (g.now l).isSome := by
  obtain ⟨cells, hc⟩ := hi.alive hl
  simp [hc]

lemma not_concerns_thread (ht : t' ≠ t) : ¬ Concerns g t' (.thread t) := by
  rintro (he | ⟨l, he⟩ | ⟨l, -, he | he⟩)
  · exact ht (by injection he with he; exact he.symm)
  · simp at he
  · simp at he
  · simp at he

lemma scribble_rely (hi : Inv m h g) (hp : g.whose p = .thread t) (ht : t' ≠ t) (w : ℕ) :
    Rely t' ⟨m, h, g⟩ ⟨m.setNext p w, h, g⟩ := by
  have hr : Rely t' ⟨m, h, g⟩ ⟨m.setNext p w, h, g.give p (.thread t)⟩ :=
    rely_give (by rw [hp]; exact not_concerns_thread ht) (not_concerns_thread ht)
      (by rw [hp]; exact id) (fun q hq => ChainMem.setNext_ne hq) (fun _ _ => rfl)
      fun l hl => hi.held_published hl
  rwa [Ghost.give_self hp] at hr

/-- An unlinked node is marked. -/
lemma mark_inv (hi : Inv m h g) (hrun : g.run t ≠ none) (hp : g.whose p = .loose l) :
    Inv (m.setNext p (marked (m.node p).next)) h (g.give p (.carried t l)) := by
  refine
    { calls := hi.calls
      chains := hi.chains.frame rfl rfl (fun _ _ => rfl) (fun q _ => alike_marked m p q)
        (fun q _ => ?_) (fun q l' => ?_)
      leafs := { hi.leafs with }
      nodes := hi.nodes.give rfl rfl ⟨hi.nodes.aligned.1, le_rfl⟩
        (fun q hq => ChainMem.setNext_ne hq) (hi.nodes.alloc p (by simp [hp]))
        (by rw [hp]; rfl) (fun _ => ?_) (fun l' => by simp) (fun _ => ?_)
        (hi.nodes.retired_give (by simp [hp]) (by simp)) (fun l' h' => by simp at h')
        (fun l' h' => by simp at h') (fun l' hl' he => ?_)
      idle := fun t' ht' => hi.idle_give hrun (by simp [eq_comm]) ht' }
  · by_cases hq : q = p
    · subst hq
      simp [Ghost.give, hp, Owner.home]
    · simp [Ghost.give, hq]
  · by_cases hq : q = p
    · subst hq
      simp [Ghost.give, hp]
    · simp [Ghost.give, hq]
  · rw [ChainMem.setNext_next]
    exact hasFlag_marked_superseded
  · rw [ChainMem.setNext_next]
    exact hasFlag_marked (.inr rfl)
  · right
    have hs := hi.nodes.slot1 l' hl'
    rw [he, hp] at hs
    simpa [Owner.home] using hs

lemma mark_rely (hi : Inv m h g) (hl : g.holder l = some t) (hp : g.whose p = .loose l)
    (ht : t' ≠ t) :
    Rely t' ⟨m, h, g⟩ ⟨m.setNext p (marked (m.node p).next), h, g.give p (.carried t l)⟩ := by
  refine rely_give ?_ ?_ (fun _ => rfl) (fun q hq => ChainMem.setNext_ne hq) (fun _ _ => rfl)
    fun l hl => hi.held_published hl
  · rw [hp]
    rintro (he | ⟨l', he⟩ | ⟨l', hl', he | he⟩)
    · simp at he
    · simp at he
    · simp at he
    · obtain rfl : l = l' := by simpa using he
      exact ht (Option.some.inj (hl'.symm.trans hl))
  · rintro (he | ⟨l', he⟩ | ⟨l', hl', he | he⟩)
    · simp at he
    · simp only [Owner.carried.injEq] at he
      exact ht he.1.symm
    · simp at he
    · simp at he

/-- A marked node that is not inline is retired. -/
lemma retire_inv (hi : Inv m h g) (hrun : g.run t ≠ none) (hp : g.whose p = .carried t l)
    (hbox : hasFlag (m.node p).next inlineFlag = false) :
    Inv { m with retired := m.retired ++ [p] } h (g.give p (.retired l)) := by
  have hfresh : p ∉ m.retired := by
    rw [hi.nodes.retired.2]
    simp [hp]
  refine
    { calls := hi.calls
      chains := hi.chains.frame rfl rfl (fun _ _ => rfl) (fun q _ => .refl _)
        (fun q _ => ?_) (fun q l' => ?_)
      leafs := { hi.leafs with }
      nodes := hi.nodes.give rfl rfl ⟨hi.nodes.aligned.1, le_rfl⟩ (fun _ _ => rfl)
        (hi.nodes.alloc p (by simp [hp])) (by rw [hp]; rfl)
        (fun _ => hi.nodes.marked p (by simp [hp, Owner.isMarked])) (fun l' => by simp)
        (fun _ => rfl) ⟨?_, fun q => ?_⟩ (fun _ _ => hbox) (fun l' h' => by simp at h')
        (fun l' hl' he => ?_)
      idle := fun t' ht' => hi.idle_give hrun (by simp) ht' }
  · by_cases hq : q = p
    · subst hq
      simp [Ghost.give, hp, Owner.home]
    · simp [Ghost.give, hq]
  · by_cases hq : q = p
    · subst hq
      simp [Ghost.give, hp]
    · simp [Ghost.give, hq]
  · refine List.nodup_append'.mpr ⟨hi.nodes.retired.1, List.nodup_singleton p, ?_⟩
    exact List.disjoint_singleton.mpr hfresh
  · rw [List.mem_append, hi.nodes.retired.2 q, List.mem_singleton]
    by_cases hq : q = p
    · subst hq
      simp [Ghost.give]
    · simp [Ghost.give, hq]
  · right
    have hs := hi.nodes.slot1 l' hl'
    rw [he, hp] at hs
    simpa [Owner.home] using hs

/-- A marked node that is inline is left to its leaf. -/
lemma leave_inv (hi : Inv m h g) (hrun : g.run t ≠ none) (hp : g.whose p = .carried t l)
    (hin : hasFlag (m.node p).next inlineFlag = true) : Inv m h (g.give p (.left l)) := by
  refine
    { calls := hi.calls
      chains := hi.chains.frame rfl rfl (fun _ _ => rfl) (fun q _ => .refl _)
        (fun q _ => ?_) (fun q l' => ?_)
      leafs := { hi.leafs with }
      nodes := hi.nodes.give rfl rfl ⟨hi.nodes.aligned.1, le_rfl⟩ (fun _ _ => rfl)
        (hi.nodes.alloc p (by simp [hp])) (by rw [hp]; rfl)
        (fun _ => hi.nodes.marked p (by simp [hp, Owner.isMarked])) (fun l' => by simp)
        (fun _ => rfl) (hi.nodes.retired_give (by simp [hp]) (by simp))
        (fun l' h' => by simp at h') (fun _ _ => hin) (fun l' hl' he => ?_)
      idle := fun t' ht' => hi.idle_give hrun (by simp) ht' }
  · by_cases hq : q = p
    · subst hq
      simp [Ghost.give, hp, Owner.home]
    · simp [Ghost.give, hq]
  · by_cases hq : q = p
    · subst hq
      simp [Ghost.give, hp]
    · simp [Ghost.give, hq]
  · right
    have hs := hi.nodes.slot1 l' hl'
    rw [he, hp] at hs
    simpa [Owner.home] using hs

/-- Where a node that a thread carries ends up is no matter of the others. -/
lemma carried_rely {m' : ChainMem V} (hi : Inv m h g) (hp : g.whose p = .carried t l)
    (ht : t' ≠ t) (ho : o = .retired l ∨ o = .left l) (hnode : m'.node = m.node)
    (hleaf : m'.leaf = m.leaf) (hunlinked : m'.unlinked = m.unlinked := by rfl) :
    Rely t' ⟨m, h, g⟩ ⟨m', h, g.give p o⟩ := by
  refine rely_give ?_ ?_ ?_ (fun q _ => by rw [hnode]) (fun l _ => by rw [hleaf])
    (fun l hl => hi.held_published hl) hunlinked
  · rw [hp]
    rintro (he | ⟨l', he⟩ | ⟨l', hl', he | he⟩)
    · simp at he
    · simp only [Owner.carried.injEq] at he
      exact ht he.1.symm
    · simp at he
    · simp at he
  · rcases ho with rfl | rfl <;> rintro (he | ⟨l', he⟩ | ⟨l', hl', he | he⟩) <;> simp at he
  · rcases ho with rfl | rfl <;> exact fun _ => rfl

end Versioned

end Artmap
