import Artmap.Versioned.Steps

/-!
# Allocation and counting on version chains

A thread takes the second inline slot of a leaf, or a new box, or builds a new leaf; it moves the
version out of a leaf that it could not publish; it counts a leaf in or out.
-/

namespace Artmap

namespace Versioned

variable {V : Type} {m : ChainMem V} {h : List (Event (Op V) (Ret V))} {g : Ghost V}
  {t t' l l' p w v : ℕ} {x : Option V} {d : ℤ}

/-! ## Nodes -/

lemma not_concerns_spare : ¬ Concerns g t (.spare l) := by
  rintro (he | ⟨l', he⟩ | ⟨l', -, he | he⟩) <;> simp at he

lemma not_concerns_free : ¬ Concerns g t .free := by
  rintro (he | ⟨l', he⟩ | ⟨l', -, he | he⟩) <;> simp at he

/-- What a thread allocates is in no chain. -/
lemma ChainsOk.alloc {m' : ChainMem V} (hc : ChainsOk m g) (hp : (g.whose p).home = none)
    (hleaf : ∀ l, (g.now l).isSome → (m'.leaf l).head = (m.leaf l).head)
    (hnode : ∀ q, q ≠ p → m'.node q = m.node q) : ChainsOk m' (g.give p (.thread t)) := by
  have hne : ∀ {q}, (g.whose q).home ≠ none → q ≠ p := by
    rintro q hq rfl
    exact hq hp
  refine hc.frame rfl rfl hleaf (fun q hq => ?_) (fun q hq => ?_) (fun q l => ?_)
  · rw [hnode q (hne hq)]
    exact .refl _
  · simp [Ghost.give, hne hq]
  · by_cases hq : q = p
    · subst hq
      have : g.whose q ≠ .linked l := by
        intro he
        simp [he, Owner.home] at hp
      simp [Ghost.give, this]
    · simp [Ghost.give, hq]

lemma NodesOk.free (hn : NodesOk m g) (hp : m.nextAddr ≤ p) : g.whose p = .free := by
  by_contra hne
  have := (hn.alloc p hne).2.2
  omega

/-- The second inline slot is written. -/
lemma writeSlot1_inv (hi : Inv m h g) (hrun : g.run t ≠ none) (hl : g.holder l = some t)
    (hs : g.whose (m.leaf l).slot1 = .spare l) (n : VersionNode V) :
    Inv (m.setNode (m.leaf l).slot1 n) h (g.give (m.leaf l).slot1 (.thread t)) where
  calls := hi.calls
  chains := hi.chains.alloc (by rw [hs]; rfl) (fun _ _ => rfl) fun q hq => ChainMem.setNode_ne hq
  leafs := { hi.leafs with }
  nodes := by
    refine hi.nodes.give rfl rfl ⟨hi.nodes.aligned.1, le_rfl⟩ (fun q hq => ChainMem.setNode_ne hq)
      (hi.nodes.alloc _ (by simp [hs])) (by rw [hs]; rfl) (fun he => by simp [Owner.isMarked] at he)
      (fun l' => by simp) (fun he => absurd rfl he)
      (hi.nodes.retired_give (by simp [hs]) (by simp)) (fun l' h' => by simp at h')
      (fun l' h' => by simp at h') (fun l' hl' he => .inl ⟨t, ?_, rfl⟩)
    have hs' := hi.nodes.slot1 l' hl'
    rw [he, hs] at hs'
    obtain rfl : l = l' := by simpa [Owner.home] using hs'
    exact hl
  idle t' ht' := hi.idle_give hrun (by simp [eq_comm]) ht'

lemma writeSlot1_rely (hi : Inv m h g) (hs : g.whose (m.leaf l).slot1 = .spare l) (ht : t' ≠ t)
    (n : VersionNode V) :
    Rely t' ⟨m, h, g⟩
      ⟨m.setNode (m.leaf l).slot1 n, h, g.give (m.leaf l).slot1 (.thread t)⟩ :=
  rely_give (by rw [hs]; exact not_concerns_spare) (not_concerns_thread ht)
    (by rw [hs]; intro he; simp [Owner.isGone] at he) (fun q hq => ChainMem.setNode_ne hq)
    (fun _ _ => rfl) fun _ hl => hi.held_published hl

/-- A box is allocated. -/
lemma newBox_inv (hi : Inv m h g) (hrun : g.run t ≠ none) (v : ℕ) (x : Option V) :
    Inv (m.addBox v x) h (g.give m.nextAddr (.thread t)) where
  calls := hi.calls
  chains := hi.chains.alloc (by rw [hi.nodes.free le_rfl]; rfl) (fun _ _ => rfl)
    fun q hq => ChainMem.setNode_ne hq
  leafs := { hi.leafs with }
  nodes := by
    have hfree := hi.nodes.free (p := m.nextAddr) le_rfl
    have haddr : (m.addBox v x).nextAddr = m.nextAddr + 8 := rfl
    obtain ⟨h8, hpos⟩ := hi.nodes.aligned
    refine hi.nodes.give rfl rfl ⟨?_, ?_⟩ (fun q hq => ChainMem.setNode_ne hq)
      ⟨hpos.ne', h8, ?_⟩ (by rw [hfree]; rfl) (fun he => by simp [Owner.isMarked] at he)
      (fun l' => by simp) (fun he => absurd rfl he)
      (hi.nodes.retired_give (by simp [hfree]) (by simp)) (fun l' h' => by simp at h')
      (fun l' h' => by simp at h') (fun l' hl' he => ?_)
    · rw [haddr]
      omega
    · omega
    · omega
    · have := (hi.nodes.slots l' hl').2.1
      omega
  idle t' ht' := hi.idle_give hrun (by simp [eq_comm]) ht'

lemma newBox_rely (hi : Inv m h g) (ht : t' ≠ t) (v : ℕ) (x : Option V) :
    Rely t' ⟨m, h, g⟩ ⟨m.addBox v x, h, g.give m.nextAddr (.thread t)⟩ :=
  rely_give (by rw [hi.nodes.free le_rfl]; exact not_concerns_free) (not_concerns_thread ht)
    (by rw [hi.nodes.free le_rfl]; intro he; simp [Owner.isGone] at he)
    (fun q hq => ChainMem.setNode_ne hq) (fun _ _ => rfl) fun _ hl => hi.held_published hl

/-! ## Words of leaves -/

/-- `slots_init` is written. -/
lemma NodesOk.setSlots (hn : NodesOk m g) (h0 : (g.now l).isSome → w &&& slotBit0 ≠ 0)
    (hspare : g.whose (m.leaf l).slot1 = .spare l → w &&& slotBit1 = 0)
    (hused : (g.whose (m.leaf l).slot1).home = some l → w &&& slotBit1 ≠ 0) :
    NodesOk (m.setSlots l w) g := by
  refine { hn with
    inline_iff := fun p l' hp => ?_, slots := by simpa using hn.slots,
    slot0 := fun l' c hc => ?_, slot1 := fun l' hl' => ?_, spare := fun l' hl' hw => ?_,
    used := fun l' hl' hw => ?_ }
  · simpa using hn.inline_iff p l' hp
  · rw [ChainMem.setSlots_slot0]
    refine ⟨(hn.slot0 l' c hc).1, ?_⟩
    by_cases hl : l' = l
    · subst hl
      rw [ChainMem.setSlots_slotsInit]
      exact h0 (by simp [hc])
    · rw [ChainMem.setSlots_ne hl]
      exact (hn.slot0 l' c hc).2
  · simpa using hn.slot1 l' hl'
  · rw [ChainMem.setSlots_slot1] at hw
    by_cases hl : l' = l
    · subst hl
      rw [ChainMem.setSlots_slotsInit]
      exact hspare hw
    · rw [ChainMem.setSlots_ne hl]
      exact hn.spare l' hl' hw
  · rw [ChainMem.setSlots_slot1] at hw
    by_cases hl : l' = l
    · subst hl
      rw [ChainMem.setSlots_slotsInit]
      exact hused hw
    · rw [ChainMem.setSlots_ne hl]
      exact hn.used l' hl' hw

lemma LeafsOk.setSlots (hl : LeafsOk m g) : LeafsOk (m.setSlots l w) g :=
  { hl with
    dead := fun l' c hc hd => by simpa using hl.dead l' c hc hd
    unlocked := fun l' c hc hd hh => by simpa using hl.unlocked l' c hc hd hh
    held := fun l' t hh => by simpa using hl.held l' t hh }

lemma ChainsOk.setSlots (hc : ChainsOk m g) : ChainsOk (m.setSlots l w) g :=
  hc.frame rfl rfl (fun _ _ => by simp) (fun _ _ => .refl _) (fun _ _ => rfl) fun _ _ => Iff.rfl

/-- The holder of a lock records that the second slot is in use. -/
lemma useSlot1_inv (hi : Inv m h g) (h0 : w &&& slotBit0 ≠ 0) (h1 : w &&& slotBit1 ≠ 0)
    (hs : g.whose (m.leaf l).slot1 ≠ .spare l) : Inv (m.setSlots l w) h g where
  calls := hi.calls
  chains := hi.chains.setSlots
  leafs := hi.leafs.setSlots
  nodes := hi.nodes.setSlots (fun _ => h0) (fun he => absurd he hs) fun _ => h1
  idle := hi.idle

lemma useSlot1_rely (hi : Inv m h g) (hl : g.holder l = some t) (ht : t' ≠ t) (w : ℕ) :
    Rely t' ⟨m, h, g⟩ ⟨m.setSlots l w, h, g⟩ := by
  refine { Rely.refl t' ⟨m, h, g⟩ with
    later := { Later.refl ⟨m, h, g⟩ with }, held := fun l' hl' => ?_,
    draftLeaf := fun l' hl' => ?_ }
  · have hne : l' ≠ l := by
      rintro rfl
      exact ht (Option.some.inj (hl'.symm.trans hl))
    exact ⟨ChainMem.setSlots_ne hne, rfl, rfl⟩
  · exact ⟨ChainMem.setSlots_ne (hi.draft_ne hl' (hi.held_published hl)), rfl⟩

/-! ## Drafts -/

namespace Ghost

variable (g)

/-- Thread `t` has built leaf `l`, with its slots at `p` and after. -/
def build (l t p : ℕ) : Ghost V :=
  { (g.give p (.thread t)).give (p + 8) (.spare l) with
    draft := Function.update g.draft l (some t) }

/-- The version of the draft `l` has been moved out of its node `p`. -/
def scrap (l p : ℕ) : Ghost V :=
  { g.give p .moved with draft := Function.update g.draft l none }

/-- The killed leaf `l` is counted out. -/
def settle (l : ℕ) (d : ℤ) : Ghost V :=
  { g.count l d with owed := Function.update g.owed l none }

end Ghost

/-- The second slot of a draft has not been used. -/
lemma Inv.draft_spare (hi : Inv m h g) (hd : g.draft l = some t) :
    g.whose (m.leaf l).slot1 = .spare l := by
  obtain ⟨hnow, hl⟩ := hi.leafs.draft l t hd
  rcases hi.nodes.slot1 l hl with hs | ⟨t', hh, -⟩ | hs
  · exact hs
  · obtain ⟨cells, hc⟩ := hi.alive hh
    rw [hnow] at hc
    simp at hc
  · have := hi.nodes.homed _ l hs
    rw [hnow] at this
    simp at this

/-- A leaf that was never built is no one's. -/
lemma Inv.unbuilt (hi : Inv m h g) (hl : m.nextLeaf ≤ l) :
    g.now l = none ∧ g.draft l = none ∧ g.counted l = 0 := by
  have hnow : g.now l = none := by
    cases hc : g.now l with
    | none => rfl
    | some c =>
      have := hi.leafs.born l c hc
      omega
  have hdraft : g.draft l = none := by
    cases hd : g.draft l with
    | none => rfl
    | some t =>
      have := (hi.leafs.draft l t hd).2
      omega
  exact ⟨hnow, hdraft, hi.leafs.unborn l hnow hdraft⟩

lemma addLeaf_leaf_ne (hl : l ≠ m.nextLeaf) : (m.addLeaf v x).leaf l = m.leaf l := by
  simp [ChainMem.addLeaf, hl]

@[simp] lemma addLeaf_leaf_self :
    (m.addLeaf v x).leaf m.nextLeaf = ⟨m.nextAddr, m.nextAddr, m.nextAddr + 8, 0, slotBit0⟩ := by
  simp [ChainMem.addLeaf]

@[simp] lemma addLeaf_node_ne (hp : p ≠ m.nextAddr) : (m.addLeaf v x).node p = m.node p := by
  simp [ChainMem.addLeaf, hp]

lemma build_whose_ne (hp : p ≠ m.nextAddr) (hp' : p ≠ m.nextAddr + 8) :
    (g.build l t m.nextAddr).whose p = g.whose p := by
  simp [Ghost.build, Ghost.give, hp, hp']

/-- The nodes of a new leaf have no home yet. -/
lemma build_whose_of_home (hp : ((g.build l t m.nextAddr).whose p).home ≠ none) :
    p ≠ m.nextAddr ∧ (g.build l t m.nextAddr).whose p = g.whose p := by
  by_cases h8 : p = m.nextAddr + 8
  · subst h8
    simp [Ghost.build, Ghost.give, Owner.home] at hp
  · by_cases h0 : p = m.nextAddr
    · subst h0
      simp [Ghost.build, Ghost.give, Owner.home] at hp
    · exact ⟨h0, build_whose_ne h0 h8⟩

lemma LeafsOk.build (hi : Inv m h g) :
    LeafsOk (m.addLeaf v x) (g.build m.nextLeaf t m.nextAddr) := by
  obtain ⟨hnow, hdraft, hcount⟩ := hi.unbuilt le_rfl
  have hne : ∀ {l c}, g.now l = some c → l ≠ m.nextLeaf := by
    rintro l c hc rfl
    rw [hnow] at hc
    simp at hc
  have hlt : ∀ {l}, l < m.nextLeaf → l < (m.addLeaf v x).nextLeaf := fun hl =>
    Nat.lt_succ_of_lt hl
  have hl := hi.leafs
  refine { hl with
    born := fun l c hc => hlt (hl.born l c hc), dead := fun l c hc hd => ?_,
    unlocked := fun l c hc hd hh => ?_, held := fun l t' hh => ?_, draft := fun l t' hd => ?_,
    unborn := fun l hn hd => ?_, len := ?_ }
  · rw [addLeaf_leaf_ne (hne hc)]
    exact hl.dead l c hc hd
  · rw [addLeaf_leaf_ne (hne hc)]
    exact hl.unlocked l c hc hd hh
  · obtain ⟨h1, c, hc, hd⟩ := hl.held l t' hh
    rw [addLeaf_leaf_ne (hne hc)]
    exact ⟨h1, c, hc, hd⟩
  · by_cases hll : l = m.nextLeaf
    · subst hll
      exact ⟨hnow, Nat.lt_succ_self _⟩
    · have hd' : g.draft l = some t' := by simpa [Ghost.build, hll] using hd
      obtain ⟨h1, h2⟩ := hl.draft l t' hd'
      exact ⟨h1, hlt h2⟩
  · by_cases hll : l = m.nextLeaf
    · subst hll
      exact hcount
    · exact hl.unborn l hn (by simpa [Ghost.build, hll] using hd)
  · show m.len = ∑ l ∈ Finset.range (m.nextLeaf + 1), g.counted l
    rw [Finset.sum_range_succ, hcount, add_zero]
    exact hl.len

lemma NodesOk.build (hi : Inv m h g) :
    NodesOk (m.addLeaf v x) (g.build m.nextLeaf t m.nextAddr) := by
  have hn := hi.nodes
  obtain ⟨h8, hpos⟩ := hn.aligned
  have haddr : (m.addLeaf v x).nextAddr = m.nextAddr + 16 := rfl
  have hleaf : (m.addLeaf v x).nextLeaf = m.nextLeaf + 1 := rfl
  have hfree : ∀ q, m.nextAddr ≤ q → g.whose q = .free := fun q hq => hn.free hq
  -- A node with a home is an old one.
  have hold : ∀ {q}, ((g.build m.nextLeaf t m.nextAddr).whose q).home ≠ none →
      (g.build m.nextLeaf t m.nextAddr).whose q = g.whose q ∧
        (m.addLeaf v x).node q = m.node q := by
    intro q hq
    obtain ⟨h1, h2⟩ := build_whose_of_home hq
    exact ⟨h2, addLeaf_node_ne h1⟩
  have hslot : ∀ {l}, l < m.nextLeaf →
      (g.build m.nextLeaf t m.nextAddr).whose (m.leaf l).slot0 = g.whose (m.leaf l).slot0 ∧
      (g.build m.nextLeaf t m.nextAddr).whose (m.leaf l).slot1 = g.whose (m.leaf l).slot1 := by
    intro l hl
    obtain ⟨h1, h2, -⟩ := hn.slots l hl
    exact ⟨build_whose_ne (by omega) (by omega), build_whose_ne (by omega) (by omega)⟩
  have hnew : ∀ {l}, l < m.nextLeaf + 1 → l = m.nextLeaf ∨ l < m.nextLeaf := by omega
  have hmark : ∀ {o : Owner}, o.isMarked = true → o.home ≠ none := by
    intro o ho
    cases o <;> simp_all [Owner.isMarked, Owner.home]
  refine
    { aligned := ?_, alloc := fun q hq => ?_, marked := fun q hq => ?_,
      unmarked := fun q l hq => ?_, loose := fun q l hq => ?_, retired := ⟨hn.retired.1, ?_⟩,
      boxed := fun q l hq => ?_, left := fun q l hq => ?_, inline_iff := fun q l hq => ?_,
      homed := fun q l hq => ?_, slots := fun l hl => ?_, slot0 := fun l c hc => ?_,
      slot1 := fun l hl => ?_, spare := fun l hl hw => ?_, used := fun l hl hw => ?_ }
  · rw [haddr]
    omega
  · rw [haddr]
    by_cases h0 : q = m.nextAddr
    · omega
    · by_cases h1 : q = m.nextAddr + 8
      · omega
      · rw [build_whose_ne h0 h1] at hq
        have := hn.alloc q hq
        omega
  · obtain ⟨h1, h2⟩ := hold (hmark hq)
    rw [h1] at hq
    rw [h2]
    exact hn.marked q hq
  · obtain ⟨h1, h2⟩ := hold (q := q) (by rcases hq with hq | hq <;> simp [hq, Owner.home])
    rw [h1] at hq
    rw [h2]
    exact hn.unmarked q l hq
  · obtain ⟨h1, -⟩ := hold (q := q) (by simp [hq, Owner.home])
    rw [h1] at hq
    exact hn.loose q l hq
  · intro q
    show q ∈ m.retired ↔ _
    rw [hn.retired.2 q]
    constructor
    · rintro ⟨l, hq⟩
      have hlt := (hn.alloc q (by simp [hq])).2.2
      exact ⟨l, by rw [build_whose_ne (by omega) (by omega), hq]⟩
    · rintro ⟨l, hq⟩
      obtain ⟨h1, -⟩ := hold (q := q) (by simp [hq, Owner.home])
      exact ⟨l, h1.symm.trans hq⟩
  · obtain ⟨h1, h2⟩ := hold (q := q) (by simp [hq, Owner.home])
    rw [h2]
    exact hn.boxed q l (h1.symm.trans hq)
  · obtain ⟨h1, h2⟩ := hold (q := q) (by simp [hq, Owner.home])
    rw [h2]
    exact hn.left q l (h1.symm.trans hq)
  · obtain ⟨h1, h2⟩ := hold (q := q) (by simp [hq])
    rw [h1] at hq
    obtain ⟨c, hc⟩ := Option.isSome_iff_exists.mp (hn.homed q l hq)
    have hl := hi.leafs.born l c hc
    rw [h2, addLeaf_leaf_ne (by omega)]
    exact hn.inline_iff q l hq
  · obtain ⟨h1, -⟩ := hold (q := q) (by simp [hq])
    exact hn.homed q l (h1 ▸ hq)
  · rw [hleaf] at hl ⊢
    rw [haddr]
    rcases hnew hl with rfl | hl
    · rw [addLeaf_leaf_self]
      refine ⟨by simp, by simp, fun l' hl' => ?_⟩
      rcases hnew hl' with rfl | hl'
      · simp
      · rw [addLeaf_leaf_ne (by omega)]
        have := (hn.slots l' hl').2.1
        simp only
        omega
    · rw [addLeaf_leaf_ne (by omega)]
      obtain ⟨h1, h2, h3⟩ := hn.slots l hl
      refine ⟨by omega, by omega, fun l' hl' => ?_⟩
      rcases hnew hl' with rfl | hl'
      · rw [addLeaf_leaf_self]
        simp only
        omega
      · rw [addLeaf_leaf_ne (by omega)]
        exact h3 l' hl'
  · have hl := hi.leafs.born l c hc
    rw [addLeaf_leaf_ne (by omega), (hslot hl).1]
    exact hn.slot0 l c hc
  · rcases hnew hl with rfl | hl
    · left
      simp [Ghost.build, Ghost.give]
    · rw [addLeaf_leaf_ne (by omega), (hslot hl).2]
      exact hn.slot1 l hl
  · rcases hnew hl with rfl | hl
    · simp [slotBit0, slotBit1]
    · rw [addLeaf_leaf_ne (by omega)] at hw ⊢
      rw [(hslot hl).2] at hw
      exact hn.spare l hl hw
  · rcases hnew hl with rfl | hl
    · simp [Ghost.build, Ghost.give, Owner.home] at hw
    · rw [addLeaf_leaf_ne (by omega)] at hw ⊢
      rw [(hslot hl).2] at hw
      exact hn.used l hl hw

/-- A leaf is built. -/
lemma newLeaf_inv (hi : Inv m h g) (hrun : g.run t ≠ none) (v : ℕ) (x : Option V) :
    Inv (m.addLeaf v x) h (g.build m.nextLeaf t m.nextAddr) where
  calls := hi.calls
  chains := by
    refine hi.chains.frame rfl rfl (fun l hl => ?_) (fun q hq => ?_) (fun q hq => ?_) fun q l => ?_
    · rw [addLeaf_leaf_ne]
      rintro rfl
      rw [(hi.unbuilt le_rfl).1] at hl
      simp at hl
    · have hlt : q ≠ m.nextAddr := by
        rintro rfl
        rw [hi.nodes.free le_rfl] at hq
        exact hq rfl
      rw [addLeaf_node_ne hlt]
      exact .refl _
    · rw [build_whose_ne]
      · rintro rfl
        rw [hi.nodes.free le_rfl] at hq
        exact hq rfl
      · rintro rfl
        rw [hi.nodes.free (by omega)] at hq
        exact hq rfl
    · by_cases h8 : q = m.nextAddr + 8
      · subst h8
        simp [Ghost.build, Ghost.give, hi.nodes.free (p := m.nextAddr + 8) (by omega)]
      · by_cases h0 : q = m.nextAddr
        · subst h0
          simp [Ghost.build, Ghost.give, hi.nodes.free (p := m.nextAddr) le_rfl]
        · rw [build_whose_ne h0 h8]
  leafs := .build hi
  nodes := .build hi
  idle t' ht' := by
    have hidle := hi.idle t' ht'
    have hne : t ≠ t' := by
      rintro rfl
      exact hrun ht'
    refine { hidle with thread := fun q => ?_, carried := fun q l => ?_, draft := fun l => ?_ }
    · by_cases h8 : q = m.nextAddr + 8
      · subst h8
        simp [Ghost.build, Ghost.give]
      · by_cases h0 : q = m.nextAddr
        · subst h0
          simpa [Ghost.build, Ghost.give] using hne
        · rw [build_whose_ne h0 h8]
          exact hidle.thread q
    · intro hq
      have hhome : ((g.build m.nextLeaf t m.nextAddr).whose q).home ≠ none := by
        simp [hq, Owner.home]
      exact hidle.carried q l ((build_whose_of_home hhome).2.symm.trans hq)
    · by_cases hl : l = m.nextLeaf
      · subst hl
        simpa [Ghost.build] using hne
      · simpa [Ghost.build, hl] using hidle.draft l

lemma newLeaf_rely (hi : Inv m h g) (ht : t' ≠ t) (v : ℕ) (x : Option V) :
    Rely t' ⟨m, h, g⟩ ⟨m.addLeaf v x, h, g.build m.nextLeaf t m.nextAddr⟩ := by
  have h0 := hi.nodes.free (p := m.nextAddr) le_rfl
  have h8 := hi.nodes.free (p := m.nextAddr + 8) (by omega)
  -- Only nodes that were free have got an owner.
  have hold : ∀ {q}, g.whose q ≠ .free → q ≠ m.nextAddr ∧
      (g.build m.nextLeaf t m.nextAddr).whose q = g.whose q := by
    intro q hq
    have h1 : q ≠ m.nextAddr := by
      rintro rfl
      exact hq h0
    have h2 : q ≠ m.nextAddr + 8 := by
      rintro rfl
      exact hq h8
    exact ⟨h1, build_whose_ne h1 h2⟩
  have hnew : ∀ {q o}, (g.build m.nextLeaf t m.nextAddr).whose q = o → o ≠ .thread t →
      (∀ l, o ≠ .spare l) → g.whose q = o := by
    intro q o hq ho ho'
    by_cases h2 : q = m.nextAddr + 8
    · subst h2
      have := ho' m.nextLeaf
      simp [Ghost.build, Ghost.give, eq_comm] at hq this
      exact absurd hq this
    · by_cases h1 : q = m.nextAddr
      · subst h1
        simp [Ghost.build, Ghost.give, eq_comm] at hq ho
        exact absurd hq ho
      · rwa [build_whose_ne h1 h2] at hq
  have hleaf : ∀ {l}, l < m.nextLeaf → (m.addLeaf v x).leaf l = m.leaf l := fun hl =>
    addLeaf_leaf_ne (Nat.ne_of_lt hl)
  refine
    { later := { Later.refl ⟨m, h, g⟩ with gone := fun q hq => ?_ }
      run := rfl
      since := fun _ _ => rfl
      holder := fun _ => Iff.rfl
      held := fun l hl => ⟨?_, rfl, rfl⟩
      heldNode := fun l hl q hq => ?_
      heldLoose := fun l hl q hq => hnew hq (by simp) (by simp)
      thread := fun q => ⟨fun hq => hnew hq (by simpa using ht) (by simp), fun hq => ?_⟩
      threadNode := fun q hq => addLeaf_node_ne (hold (by rw [hq]; simp)).1
      carried := fun q l => ⟨fun hq => hnew hq (by simp) (by simp), fun hq => ?_⟩
      carriedNode := fun q l hq =>
        addLeaf_node_ne (hold (by rw [show g.whose q = _ from hq]; simp)).1
      draft := fun l => ?_
      draftLeaf := fun l hl => ⟨hleaf (hi.leafs.draft l t' hl).2, rfl⟩
      owed := fun _ => Iff.rfl
      owedCount := fun _ _ => rfl }
  · have hne : g.whose q ≠ .free := by
      intro he
      simp [he, Owner.isGone] at hq
    show ((g.build m.nextLeaf t m.nextAddr).whose q).isGone = true
    rw [(hold hne).2]
    exact hq
  · obtain ⟨cells, hc⟩ := hi.alive hl
    exact hleaf (hi.leafs.born l _ hc)
  · have hq' : g.whose q = .linked l ∨ g.whose q = .loose l := hq
    have hne : g.whose q ≠ .free := by rcases hq' with hq' | hq' <;> rw [hq'] <;> simp
    exact ⟨(hold hne).2, addLeaf_node_ne (hold hne).1⟩
  · have hq' : g.whose q = .thread t' := hq
    exact (hold (by rw [hq']; simp)).2.trans hq'
  · have hq' : g.whose q = .carried t' l := hq
    exact (hold (by rw [hq']; simp)).2.trans hq'
  · by_cases hl : l = m.nextLeaf
    · subst hl
      simp [Ghost.build, (hi.unbuilt le_rfl).2.1, ht.symm]
    · simp [Ghost.build, hl]

/-- The version is moved out of a draft. -/
lemma scrap_inv (hi : Inv m h g) (hd : g.draft l = some t)
    (hp : g.whose (m.leaf l).slot0 = .thread t) (hcount : g.counted l = 0) :
    Inv (m.setSlots l 0) h (g.scrap l (m.leaf l).slot0) := by
  have hspare := hi.draft_spare hd
  obtain ⟨hnow, hl⟩ := hi.leafs.draft l t hd
  have hne : ∀ {q}, q ≠ (m.leaf l).slot0 →
      (g.scrap l (m.leaf l).slot0).whose q = g.whose q := fun hq => Function.update_of_ne hq _ _
  have hslot : (m.leaf l).slot1 ≠ (m.leaf l).slot0 := ((hi.nodes.slots l hl).2.2 l hl).symm
  have hnodes : NodesOk m (g.give (m.leaf l).slot0 .moved) := by
    refine hi.nodes.give rfl rfl ⟨hi.nodes.aligned.1, le_rfl⟩ (fun _ _ => rfl)
      (hi.nodes.alloc _ (by simp [hp])) (by rw [hp]; rfl) (fun he => by simp [Owner.isMarked] at he)
      (fun l' => by simp) (fun he => absurd rfl he)
      (hi.nodes.retired_give (by simp [hp]) (by simp)) (fun l' h' => by simp at h')
      (fun l' h' => by simp at h') (fun l' hl' he => ?_)
    exact absurd he.symm ((hi.nodes.slots l hl).2.2 l' hl')
  have hspare' : (g.give (m.leaf l).slot0 .moved).whose (m.leaf l).slot1 = .spare l :=
    (hne hslot).trans hspare
  have hleafs := hi.leafs.setSlots (l := l) (w := 0)
  have hslots := hnodes.setSlots (l := l) (w := 0) (fun hs => by simp [hnow] at hs)
    (fun _ => rfl) fun he => by simp [hspare', Owner.home] at he
  refine
    { calls := hi.calls
      chains := (hi.chains.frame rfl rfl (fun _ _ => rfl) (fun _ _ => .refl _)
        (fun q hq => ?_) fun q l' => ?_ : ChainsOk m (g.scrap l (m.leaf l).slot0)).setSlots
      leafs := { hleafs with draft := fun l' t' hd' => ?_, unborn := fun l' hn hd' => ?_ }
      nodes := { hslots with }
      idle := fun t' ht' => ?_ }
  · rw [hne]
    rintro rfl
    simp [hp, Owner.home] at hq
  · by_cases hq : q = (m.leaf l).slot0
    · subst hq
      simp [Ghost.scrap, Ghost.give, hp]
    · exact Eq.congr_left (hne hq)
  · refine hleafs.draft l' t' ?_
    by_cases hll : l' = l
    · subst hll
      simp [Ghost.scrap] at hd'
    · simpa [Ghost.scrap, hll] using hd'
  · by_cases hll : l' = l
    · rw [hll]
      exact hcount
    · exact hi.leafs.unborn l' hn (by simpa [Ghost.scrap, hll] using hd')
  · have hidle := hi.idle t' ht'
    refine { hidle with thread := fun q => ?_, carried := fun q l' => ?_, draft := fun l' => ?_ }
    · by_cases hq : q = (m.leaf l).slot0
      · subst hq
        simp [Ghost.scrap, Ghost.give]
      · rw [hne hq]
        exact hidle.thread q
    · by_cases hq : q = (m.leaf l).slot0
      · subst hq
        simp [Ghost.scrap, Ghost.give]
      · rw [hne hq]
        exact hidle.carried q l'
    · by_cases hll : l' = l
      · subst hll
        simp [Ghost.scrap]
      · simpa [Ghost.scrap, hll] using hidle.draft l'

lemma scrap_rely (hi : Inv m h g) (hd : g.draft l = some t)
    (hp : g.whose (m.leaf l).slot0 = .thread t) (ht : t' ≠ t) :
    Rely t' ⟨m, h, g⟩ ⟨m.setSlots l 0, h, g.scrap l (m.leaf l).slot0⟩ := by
  obtain ⟨hnow, -⟩ := hi.leafs.draft l t hd
  have hleaf : ∀ l', (g.now l').isSome ∨ g.draft l' = some t' →
      (m.setSlots l 0).leaf l' = m.leaf l' := by
    intro l' hl'
    refine ChainMem.setSlots_ne ?_
    rintro rfl
    rcases hl' with hl' | hl'
    · rw [hnow] at hl'
      simp at hl'
    · exact ht (Option.some.inj (hl'.symm.trans hd))
  have hr : Rely t' ⟨m, h, g⟩ ⟨m.setSlots l 0, h, g.give (m.leaf l).slot0 .moved⟩ :=
    rely_give (by rw [hp]; exact not_concerns_thread ht)
      (by rintro (he | ⟨l', he⟩ | ⟨l', -, he | he⟩) <;> simp at he)
      (fun _ => rfl) (fun _ _ => rfl) hleaf fun _ hl => hi.held_published hl
  refine { hr with later := { hr.later with }, draft := fun l' => ?_ }
  by_cases hl : l' = l
  · subst hl
    simp [Ghost.scrap, hd, ht.symm]
  · simp [Ghost.scrap, hl]

/-! ## The length -/

/-- The length is the sum of what the leaves count for. -/
lemma sum_count (hl : l < m.nextLeaf) (g : Ghost V) (d : ℤ) :
    ∑ l' ∈ Finset.range m.nextLeaf, (g.count l d).counted l' =
      ∑ l' ∈ Finset.range m.nextLeaf, g.counted l' + d := by
  have hmem : l ∈ Finset.range m.nextLeaf := Finset.mem_range.mpr hl
  unfold Ghost.count
  rw [Finset.sum_update_of_mem hmem, ← Finset.add_sum_erase _ _ hmem,
    Finset.sdiff_singleton_eq_erase]
  omega

/-- A thread counts a leaf that is in its hands. -/
lemma lenAdd_inv (hi : Inv m h g) (hl : g.holder l = some t ∨ g.draft l = some t)
    (hd : g.counted l + d = 0 ∨ g.counted l + d = 1) :
    Inv { m with len := m.len + d } h (g.count l d) := by
  have hself : (g.count l d).counted l = g.counted l + d := Function.update_self ..
  have hne : ∀ {l'}, l' ≠ l → (g.count l d).counted l' = g.counted l' := fun h =>
    Function.update_of_ne h _ _
  have hborn : l < m.nextLeaf := by
    rcases hl with hl | hl
    · obtain ⟨cells, hc⟩ := hi.alive hl
      exact hi.leafs.born l _ hc
    · exact (hi.leafs.draft l t hl).2
  refine
    { calls := hi.calls, chains := { hi.chains with }, nodes := { hi.nodes with }
      leafs := { hi.leafs with
        unlocked := fun l' c hc hdead hh => ?_, counts := fun l' => ?_,
        settled := fun l' c hc hdead ho => ?_, unborn := fun l' hn hdr => ?_,
        len := (congrArg (· + d) hi.leafs.len).trans (sum_count hborn g d).symm }
      idle := fun t' ht' => { hi.idle t' ht' with } }
  · have hll : l' ≠ l := by
      rintro rfl
      rcases hl with hl | hl
      · have hh' : g.holder l' = none := hh
        rw [hh'] at hl
        simp at hl
      · have hc' : g.now l' = some c := hc
        rw [(hi.leafs.draft l' t hl).1] at hc'
        simp at hc'
    rw [hne hll]
    exact hi.leafs.unlocked l' c hc hdead hh
  · by_cases hll : l' = l
    · subst hll
      rw [hself]
      exact hd
    · rw [hne hll]
      exact hi.leafs.counts l'
  · have hll : l' ≠ l := by
      rintro rfl
      have hc' : g.now l' = some c := hc
      rcases hl with hl | hl
      · obtain ⟨cells, ha⟩ := hi.alive hl
        obtain rfl := Option.some.inj (ha.symm.trans hc')
        simp at hdead
      · rw [(hi.leafs.draft l' t hl).1] at hc'
        simp at hc'
    rw [hne hll]
    exact hi.leafs.settled l' c hc hdead ho
  · have hll : l' ≠ l := by
      rintro rfl
      rcases hl with hl | hl
      · have := hi.held_published hl
        rw [show g.now l' = none from hn] at this
        simp at this
      · rw [show g.draft l' = none from hdr] at hl
        simp at hl
    rw [hne hll]
    exact hi.leafs.unborn l' hn hdr

lemma lenAdd_rely (hi : Inv m h g) (hl : g.holder l = some t ∨ g.draft l = some t)
    (ht : t' ≠ t) (d : ℤ) :
    Rely t' ⟨m, h, g⟩ ⟨{ m with len := m.len + d }, h, g.count l d⟩ := by
  have hne : ∀ {l'}, l' ≠ l → (g.count l d).counted l' = g.counted l' := fun h =>
    Function.update_of_ne h _ _
  have hheld : ∀ {l'}, g.holder l' = some t' → l' ≠ l := by
    rintro l' hl' rfl
    rcases hl with hl | hl
    · exact ht (Option.some.inj (hl'.symm.trans hl))
    · exact hi.draft_ne hl (hi.held_published hl') rfl
  have hdraft : ∀ {l'}, g.draft l' = some t' → l' ≠ l := by
    rintro l' hl' rfl
    rcases hl with hl | hl
    · exact hi.draft_ne hl' (hi.held_published hl) rfl
    · exact ht (Option.some.inj (hl'.symm.trans hl))
  have howed : ∀ {l'}, g.owed l' = some t' → l' ≠ l := by
    rintro l' hl' rfl
    obtain ⟨c, hc, hdead⟩ := hi.leafs.owed l' t' hl'
    rcases hl with hl | hl
    · obtain ⟨cells, ha⟩ := hi.alive hl
      obtain rfl := Option.some.inj (ha.symm.trans hc)
      simp at hdead
    · rw [(hi.leafs.draft l' t hl).1] at hc
      simp at hc
  exact { Rely.refl t' ⟨m, h, g⟩ with
    later := { Later.refl ⟨m, h, g⟩ with }
    held := fun l' hl' => ⟨rfl, rfl, hne (hheld hl')⟩
    draftLeaf := fun l' hl' => ⟨rfl, hne (hdraft hl')⟩
    owedCount := fun l' hl' => hne (howed hl') }

/-- A thread counts out a leaf that it has killed. -/
lemma settle_inv (hi : Inv m h g) (hl : g.owed l = some t) (hd : g.counted l + d = 0) :
    Inv { m with len := m.len + d } h (g.settle l d) := by
  have hself : (g.settle l d).counted l = g.counted l + d := Function.update_self ..
  have hne : ∀ {l'}, l' ≠ l → (g.settle l d).counted l' = g.counted l' := fun h =>
    Function.update_of_ne h _ _
  have howed : ∀ {l' t'}, (g.settle l d).owed l' = some t' → g.owed l' = some t' := by
    intro l' t' ho
    by_cases hll : l' = l
    · subst hll
      simp [Ghost.settle] at ho
    · simpa [Ghost.settle, hll] using ho
  obtain ⟨c₀, hc₀, hdead₀⟩ := hi.leafs.owed l t hl
  refine
    { calls := hi.calls, chains := { hi.chains with }, nodes := { hi.nodes with }
      leafs := { hi.leafs with
        unlocked := fun l' c hc hdead hh => ?_, counts := fun l' => ?_,
        owed := fun l' t' ho => hi.leafs.owed l' t' (howed ho),
        settled := fun l' c hc hdead ho => ?_, unborn := fun l' hn hdr => ?_,
        len := (congrArg (· + d) hi.leafs.len).trans
          (sum_count (hi.leafs.born l c₀ hc₀) g d).symm }
      idle := fun t' ht' => { hi.idle t' ht' with
        owed := fun l' ho => (hi.idle t' ht').owed l' (howed ho) } }
  · have hll : l' ≠ l := by
      rintro rfl
      obtain rfl := Option.some.inj (hc₀.symm.trans hc)
      rw [hdead₀] at hdead
      simp at hdead
    rw [hne hll]
    exact hi.leafs.unlocked l' c hc hdead hh
  · by_cases hll : l' = l
    · subst hll
      rw [hself, hd]
      exact .inl rfl
    · rw [hne hll]
      exact hi.leafs.counts l'
  · by_cases hll : l' = l
    · subst hll
      exact hself.trans hd
    · rw [hne hll]
      exact hi.leafs.settled l' c hc hdead (by simpa [Ghost.settle, hll] using ho)
  · have hll : l' ≠ l := by
      rintro rfl
      rw [show g.now l' = none from hn] at hc₀
      simp at hc₀
    rw [hne hll]
    exact hi.leafs.unborn l' hn hdr

lemma settle_rely (hi : Inv m h g) (hl : g.owed l = some t) (ht : t' ≠ t) (d : ℤ) :
    Rely t' ⟨m, h, g⟩ ⟨{ m with len := m.len + d }, h, g.settle l d⟩ := by
  have hne : ∀ {l'}, l' ≠ l → (g.settle l d).counted l' = g.counted l' := fun h =>
    Function.update_of_ne h _ _
  obtain ⟨c, hc, hdead⟩ := hi.leafs.owed l t hl
  have hheld : ∀ {l'}, g.holder l' = some t' → l' ≠ l := by
    rintro l' hl' rfl
    obtain ⟨cells, ha⟩ := hi.alive hl'
    obtain rfl := Option.some.inj (ha.symm.trans hc)
    simp at hdead
  have hdraft : ∀ {l'}, g.draft l' = some t' → l' ≠ l := fun hl' =>
    hi.draft_ne hl' (by simp [hc])
  have howed : ∀ {l'}, g.owed l' = some t' → l' ≠ l := by
    rintro l' hl' rfl
    exact ht (Option.some.inj (hl'.symm.trans hl))
  refine { Rely.refl t' ⟨m, h, g⟩ with
    later := { Later.refl ⟨m, h, g⟩ with }
    held := fun l' hl' => ⟨rfl, rfl, hne (hheld hl')⟩
    draftLeaf := fun l' hl' => ⟨rfl, hne (hdraft hl')⟩
    owed := fun l' => ?_
    owedCount := fun l' hl' => hne (howed hl') }
  by_cases hll : l' = l
  · subst hll
    simp [Ghost.settle, hl, ht.symm]
  · simp [Ghost.settle, hll]

/-! ## The tree -/

/-- The tree unlinks a leaf that has been killed. -/
lemma unlink_inv (hi : Inv m h g) (hl : g.owed l = some t) :
    Inv { m with unlinked := Function.update m.unlinked l true } h g := by
  refine
    { calls := hi.calls, chains := { hi.chains with }, nodes := { hi.nodes with }
      leafs := { hi.leafs with unlinked := fun l' hu => ?_ }
      idle := hi.idle }
  by_cases hll : l' = l
  · subst hll
    exact hi.leafs.owed l' t hl
  · exact hi.leafs.unlinked l' (by simpa [hll] using hu)

lemma unlink_rely (l : ℕ) :
    Rely t ⟨m, h, g⟩ ⟨{ m with unlinked := Function.update m.unlinked l true }, h, g⟩ :=
  { Rely.refl t ⟨m, h, g⟩ with
    later := { Later.refl ⟨m, h, g⟩ with
      unlinked := fun l' hl' => by
        by_cases hll : l' = l
        · simp [hll]
        · simpa [hll] using hl' } }

end Versioned

end Artmap
