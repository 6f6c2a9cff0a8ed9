import Artmap.Versioned.Rules

/-!
# What the holder of a chain lock does

Rules for the steps of a chain writer: allocating a node, linking it, marking and retiring the
nodes that have left the chain, counting, and letting the lock go.
-/

namespace Artmap

namespace Versioned

variable {V : Type} {live : Bool} {t l l' p w v : ℕ} {x y : W V} {H : Hand V} {S : Scene V}
  {n : VersionNode V} {b : Option V} {pre post rest : List (Cell V)} {d : Cell V}

/-! ## Steps of the thread itself -/

lemma Later.give {m' : ChainMem V} {o : Owner}
    (hgone : (x.ghost.whose p).isGone = true → o.isGone = true)
    (hunlinked : m'.unlinked = x.mem.unlinked := by rfl) :
    Later x ⟨m', x.hist, x.ghost.give p o⟩ :=
  { Later.refl x with
    unlinked := fun l hl => (congrFun hunlinked l).trans hl
    gone := fun q hq => by
      by_cases hqp : q = p
      · subst hqp
        simpa [Ghost.give] using hgone hq
      · simpa [Ghost.give, hqp] using hq }

/-- A node gets another owner, and the leaf is as before. -/
lemma Locked.give {m' : ChainMem V} {o : Owner} (hl : Locked t l S x)
    (hleaf : m'.leaf l = x.mem.leaf l) (hp : x.ghost.whose p ≠ .loose l) (ho : o ≠ .loose l) :
    Locked t l S ⟨m', x.hist, x.ghost.give p o⟩ where
  holder := hl.holder
  now := hl.now
  counted := hl.counted
  loose q := by
    rw [← hl.loose q]
    by_cases hq : q = p
    · subst hq
      simp [Ghost.give, hp, ho]
    · simp [Ghost.give, hq]
  leaf := hleaf.trans hl.leaf

/-- The holder of a lock has one lock. -/
lemma Holds.one_lock (hx : Holds t H x) (hlock : H.lock = some l) :
    ∀ l', x.ghost.holder l' = some t → l' = l := by
  intro l' hl'
  have := (hx.holder l').mp hl'
  rw [hlock] at this
  exact (Option.some.inj this).symm

lemma wp_unlock (hx : Holds t H x) (hlock : H.lock = some l) (hnodes : H.nodes = [])
    (hl : Locked t l S x) (hcount : S.counted = (versionsOf S.cells).live) (hloose : S.loose = [])
    {Q : Unit → W V → Prop}
    (hQ : ∀ y, Later x y → (rg V).Ok live t y → Holds t { H with lock := none } y → Q () y) :
    (rg V).wp live t (unlock l) Q x := by
  refine RG.wp_intro fun hok => wp_write (x.ghost.release l) rfl hl.holder
    (fun t' ht' => release_rely hok.inv hl.holder ht') rfl
    (release_inv hok.inv hl.holder hl.now (hl.counted.trans hcount) (fun p hp => ?_)
      fun p hp => ?_) fun y hy hoky => ?_
  · have := (hl.loose p).mp hp
    simp [hloose] at this
  · have := (hx.thread p).mp hp
    simp [hnodes] at this
  · have hlater : Later x ⟨x.mem.setLatch l 0, x.hist, x.ghost.release l⟩ :=
      { Later.refl x with }
    refine hQ y (hlater.trans hy.1.later) hoky (Holds.rely hy.1 { hx with holder := fun l' => ?_ })
    have hone := hx.one_lock hlock l'
    by_cases hll : l' = l
    · subst hll
      simp [Ghost.release]
    · simp only [Ghost.release, Function.update_of_ne hll, reduceCtorEq, iff_false]
      exact fun h => hll (hone h)

/-- The link of a node that has not been linked is set (`init_next`). -/
lemma wp_initNext (hx : Holds t H x) (hl : Locked t l S x) (hn : Owned t p n x) (q : ℕ)
    {Q : Unit → W V → Prop}
    (hQ : ∀ y, Later x y → (rg V).Ok live t y → Holds t H y → Locked t l S y →
      Owned t p { n with next := retag n.next q } y → Q () y) :
    (rg V).wp live t (storeNext p q) Q x := by
  refine RG.wp_bind (wp_read (fun _ => rfl) (.inl hn.owner) fun y hy hoky => ?_)
  have hny := hn.rely hy.1
  have hw : (execChain (.loadNext p) x.mem).1 = n.next := by
    show (x.mem.node p).next = n.next
    rw [hn.node]
  rw [hw]
  refine wp_write y.ghost rfl ⟨.inl hny.owner, .inl hny.owner⟩
    (fun t' ht' => scribble_rely hoky.inv hny.owner ht' _) rfl
    (scribble_inv hoky.inv hny.owner _) fun z hz hokz => ?_
  have hlater : Later y ⟨y.mem.setNext p (retag n.next q), y.hist, y.ghost⟩ :=
    { Later.refl y with }
  refine hQ z (hy.1.later.trans (hlater.trans hz.1.later)) hokz
    (Holds.rely hz.1 { hx.rely hy.1 with }) (Locked.rely hz.1 { hl.rely hy.1 with })
    (Owned.rely hz.1 ⟨hny.owner, ?_⟩)
  show (y.mem.setNext p (retag n.next q)).node p = _
  simp [ChainMem.setNext, ChainMem.setNode, hny.node]

/-! ## Allocation -/

lemma and_or_slotBit1 : (w ||| slotBit1) &&& slotBit1 ≠ 0 := by
  intro h
  have hbit : Nat.testBit slotBit1 1 = true := rfl
  have := congrArg (Nat.testBit · 1) h
  simp [Nat.testBit_or, hbit] at this

lemma and_or_slotBit0 : (w ||| slotBit1) &&& slotBit0 = w &&& slotBit0 := by
  rw [Nat.and_or_distrib_right]
  simp [slotBit0, slotBit1]

/-- Where the second slot of a leaf is, for the holder of its lock. -/
lemma Locked.slot1_cases (hi : Inv x.mem x.hist x.ghost) (hx : Holds t H x) (hnodes : H.nodes = [])
    (hl : Locked t l S x) :
    (x.ghost.whose (x.mem.leaf l).slot1 = .spare l ∧
        (x.mem.leaf l).slotsInit &&& slotBit1 = 0) ∨
      (x.ghost.whose (x.mem.leaf l).slot1).home = some l ∧
        (x.mem.leaf l).slotsInit &&& slotBit1 ≠ 0 := by
  have hlt := hi.leafs.born l _ hl.now
  rcases hi.nodes.slot1 l hlt with hs | ⟨t', hh, hs⟩ | hs
  · exact .inl ⟨hs, hi.nodes.spare l hlt hs⟩
  · obtain rfl := Option.some.inj (hl.holder.symm.trans hh)
    have := (hx.thread _).mp hs
    simp [hnodes] at this
  · exact .inr ⟨hs, hi.nodes.used l hlt hs⟩

/-- A thread that has allocated a node holds it. -/
lemma Holds.alloc {m' : ChainMem V} (hx : Holds t H x) (hnodes : H.nodes = []) (p : ℕ)
    (hp : ∀ l, x.ghost.whose p ≠ .carried t l) :
    Holds t { H with nodes := [p] } ⟨m', x.hist, x.ghost.give p (.thread t)⟩ := by
  refine { hx with thread := fun q => ?_, carried := fun q l' => ?_ }
  · have := hx.thread q
    by_cases hq : q = p
    · subst hq
      simp [Ghost.give]
    · rw [hnodes] at this
      simpa [Ghost.give, hq] using this
  · rw [← hx.carried q l']
    by_cases hq : q = p
    · subst hq
      simp [Ghost.give, hp]
    · simp [Ghost.give, hq]

/-- Allocating a version node. -/
lemma wp_allocVersion (hx : Holds t H x) (hnodes : H.nodes = []) (hl : Locked t l S x) (v : ℕ)
    (b : Option V) {Q : ℕ → W V → Prop}
    (hQ : ∀ y p n leaf, Later x y → (rg V).Ok live t y → Holds t { H with nodes := [p] } y →
      Locked t l { S with leaf := leaf } y → Owned t p n y → Matches n ⟨p, v, b⟩ →
      Ready leaf p n → Q p y) :
    (rg V).wp live t (allocVersion l v b) Q x := by
  refine RG.wp_intro fun hok => RG.wp_bind (wp_read (fun _ => rfl) trivial fun y hy hoky => ?_)
  have hxy := hx.rely hy.1
  have hly := hl.rely hy.1
  have hleaf : x.mem.leaf l = y.mem.leaf l := hl.leaf.trans hly.leaf.symm
  show (rg V).wp live t (if (x.mem.leaf l).slotsInit &&& slotBit1 = 0 then _ else _) Q y
  rw [hleaf]
  have hlt := hoky.inv.leafs.born l _ hly.now
  have hs0 := (hoky.inv.nodes.slot0 l _ hly.now).2
  rcases hly.slot1_cases hoky.inv hxy hnodes with ⟨hs, hbit⟩ | ⟨hs, hbit⟩
  · rw [if_pos hbit]
    set p := (y.mem.leaf l).slot1 with hp
    refine RG.wp_bind (wp_write (y.ghost.give p (.thread t)) rfl hly.holder
      (fun t' ht' => writeSlot1_rely hoky.inv hs ht' _) rfl
      (writeSlot1_inv hoky.inv (by rw [hxy.run]; simp) hly.holder hs _) fun z hz hokz => ?_)
    have hlyz : Later y ⟨y.mem.setNode p (.new v b true), y.hist, y.ghost.give p (.thread t)⟩ :=
      Later.give (by rw [hs]; intro h; simp [Owner.isGone] at h)
    have hxz : Holds t { H with nodes := [p] } z :=
      (hxy.alloc hnodes p (by rw [hs]; simp)).rely hz.1
    have hlz : Locked t l S z :=
      Locked.rely hz.1 (hly.give rfl (by rw [hs]; simp) (by simp))
    have hnz : Owned t p (.new v b true) z :=
      Owned.rely hz.1 ⟨Function.update_self .., Function.update_self ..⟩
    refine RG.wp_bind (wp_read (fun _ => rfl) trivial fun u hu hoku => ?_)
    have hlu := hlz.rely hu.1
    have hnu := hnz.rely hu.1
    have hleafz : z.mem.leaf l = u.mem.leaf l := hlz.leaf.trans hlu.leaf.symm
    have hleafy : u.mem.leaf l = y.mem.leaf l := hlu.leaf.trans hly.leaf.symm
    show (rg V).wp live t (Prog.bind (on (.storeSlots l ((z.mem.leaf l).slotsInit ||| slotBit1))) _)
      Q u
    rw [hleafz, hleafy]
    set s := (y.mem.leaf l).slotsInit ||| slotBit1
    have hs0' : s &&& slotBit0 ≠ 0 := by rwa [and_or_slotBit0]
    refine RG.wp_bind (wp_write u.ghost rfl (.inl hlu.holder)
      (fun t' ht' => useSlot1_rely hoku.inv hlu.holder ht' _) rfl
      (useSlot1_inv hoku.inv hs0' and_or_slotBit1 ?_) fun q hq hokq => RG.wp_ret ?_)
    · rw [hleafy, ← hp, hnu.owner]
      simp
    · have hlaterq : Later u ⟨u.mem.setSlots l s, u.hist, u.ghost⟩ := { Later.refl u with }
      have hleafq : (u.mem.setSlots l s).leaf l = { y.mem.leaf l with slotsInit := s } := by
        simp [ChainMem.setSlots, hleafy]
      refine hQ q p _ { y.mem.leaf l with slotsInit := s }
        (hy.1.later.trans (hlyz.trans (hz.1.later.trans (hu.1.later.trans
          (hlaterq.trans hq.1.later))))) hokq
        (Holds.rely hq.1 { hxz.rely hu.1 with })
        (Locked.rely hq.1 { hlu with leaf := hleafq })
        (Owned.rely hq.1 ⟨hnu.owner, hnu.node⟩) (new_matches p v b true)
        ⟨new_unmarked v b true, ?_, fun _ => and_or_slotBit1⟩
      rw [new_inline]
      simp [hp]
  · rw [if_neg hbit]
    set p := y.mem.nextAddr with hp
    have hfree := hoky.inv.nodes.free (p := p) le_rfl
    refine wp_write (y.ghost.give p (.thread t)) rfl trivial
      (fun t' ht' => newBox_rely hoky.inv ht' v b) rfl
      (newBox_inv hoky.inv (by rw [hxy.run]; simp) v b) fun z hz hokz => ?_
    have hlyz : Later y ⟨y.mem.addBox v b, y.hist, y.ghost.give p (.thread t)⟩ :=
      Later.give (by rw [hfree]; intro h; simp [Owner.isGone] at h)
    obtain ⟨h0, h1, -⟩ := hoky.inv.nodes.slots l hlt
    refine hQ z p (.new v b false) (y.mem.leaf l) (hy.1.later.trans (hlyz.trans hz.1.later)) hokz
      ((hxy.alloc hnodes p (by rw [hfree]; simp)).rely hz.1) ?_
      (Owned.rely hz.1 ⟨Function.update_self .., Function.update_self ..⟩)
      (new_matches p v b false) ⟨new_unmarked v b false, ?_, fun he => ?_⟩
    · refine Locked.rely hz.1 ?_
      have hgive : Locked t l S ⟨y.mem.addBox v b, y.hist, y.ghost.give p (.thread t)⟩ :=
        hly.give rfl (by rw [hfree]; simp) (by simp)
      exact { hgive with leaf := rfl }
    · rw [new_inline]
      simp only [Bool.false_eq_true, false_iff, not_or]
      omega
    · omega

/-! ## Linking -/

lemma hasFlag_retag {q flag : ℕ} (hq : 8 ∣ q) : hasFlag (retag w q) flag = hasFlag w flag := by
  unfold hasFlag
  have hflags : flagsOf (retag w q) = flagsOf w := by
    have := flagsOf_lt w
    rw [retag_eq_add hq, flagsOf_eq_mod]
    omega
  rw [hflags]

/-- In the chain of leaf `l`, the cells `rest` are to follow `pre` instead of `old`. -/
structure Relink (t : ℕ) (S : Scene V) (pre old rest : List (Cell V)) (x : W V) : Prop where
  cells : S.cells = pre ++ old
  nonempty : pre ++ rest ≠ []
  desc : Desc (pre ++ rest)
  linked : Linked x.mem.node (firstAddr rest) rest
  source : ∀ e ∈ rest, e ∈ old ∨
    ∃ n, Owned t e.addr n x ∧ Matches n e ∧ Ready S.leaf e.addr n

section Relink

variable {old nodes' loose' : List _} {r : Ret V}

lemma Relink.owner (hr : Relink t S pre old rest x) (hi : Inv x.mem x.hist x.ghost)
    (hl : Locked t l S x) {e : Cell V} (he : e ∈ pre ++ rest) :
    Matches (x.mem.node e.addr) e ∧
      (e ∈ S.cells ∧ x.ghost.whose e.addr = .linked l ∨
        x.ghost.whose e.addr = .thread t ∧ Ready S.leaf e.addr (x.mem.node e.addr)) := by
  have hold : e ∈ S.cells → _ := fun hc =>
    (⟨hl.matches hi hc, .inl ⟨hc, hl.whose hi hc⟩⟩ : Matches (x.mem.node e.addr) e ∧
      (e ∈ S.cells ∧ x.ghost.whose e.addr = .linked l ∨
        x.ghost.whose e.addr = .thread t ∧ Ready S.leaf e.addr (x.mem.node e.addr)))
  rcases List.mem_append.mp he with he | he
  · exact hold (by simp [hr.cells, he])
  · rcases hr.source e he with he | ⟨n, ⟨ho, rfl⟩, hm, hready⟩
    · exact hold (by simp [hr.cells, he])
    · exact ⟨hm, .inr ⟨ho, hready⟩⟩

lemma Relink.rely (hr : Relink t S pre old rest x) (hi : Inv x.mem x.hist x.ghost)
    (hl : Locked t l S x) (hy : Rely t x y) : Relink t S pre old rest y where
  cells := hr.cells
  nonempty := hr.nonempty
  desc := hr.desc
  linked := by
    refine hr.linked.congr fun e he => ?_
    rcases (hr.owner hi hl (List.mem_append_right _ he)).2 with ⟨-, hw⟩ | ⟨hw, -⟩
    · rw [(hy.heldNode l hl.holder e.addr (.inl hw)).2]
    · rw [hy.threadNode e.addr hw]
  source e he := (hr.source e he).imp_right fun ⟨n, ho, hm, hready⟩ => ⟨n, ho.rely hy, hm, hready⟩

/-- An address of a chain is that of one of its cells. -/
lemma Relink.aligned (hr : Relink t S pre old rest x) (hi : Inv x.mem x.hist x.ghost)
    (hl : Locked t l S x) : 8 ∣ firstAddr rest := by
  cases hrest : rest with
  | nil => simp
  | cons e es =>
    have hw := (hr.owner hi hl (e := e) (by simp [hrest])).2
    refine (hi.nodes.alloc e.addr ?_).2.1
    rcases hw with ⟨-, hw⟩ | ⟨hw, -⟩ <;> rw [hw] <;> simp

lemma Relink.renews_head (hr : Relink t S [] old rest x) (hi : Inv x.mem x.hist x.ghost)
    (hl : Locked t l S x) :
    Renews x.mem (x.mem.setHead (firstAddr rest) l) x.ghost t l ([] ++ rest) where
  nonempty := hr.nonempty
  desc := hr.desc
  linked := by
    rw [ChainMem.setHead_head]
    exact hr.linked
  matching e he := (hr.owner hi hl he).1
  source e he := (hr.owner hi hl he).2.imp And.right And.left
  node _ := .inl rfl
  version _ := rfl
  value _ := rfl
  flags _ _ := rfl
  leaf _ hne := ChainMem.setHead_ne hne
  unlinked := rfl

lemma Relink.renews_next (hr : Relink t S (pre ++ [d]) old rest x)
    (hi : Inv x.mem x.hist x.ghost) (hl : Locked t l S x) :
    Renews x.mem (x.mem.setNext d.addr (retag (x.mem.node d.addr).next (firstAddr rest)))
      x.ghost t l (pre ++ [d] ++ rest) := by
  have hd : d ∈ S.cells := by simp [hr.cells]
  have hdw := hl.whose hi hd
  have h8 := hr.aligned hi hl
  -- The other cells lie elsewhere.
  have hother : ∀ {e}, e ∈ pre ++ [d] ++ rest → e ≠ d → e.addr ≠ d.addr := by
    intro e he hne ha
    rcases (hr.owner hi hl he).2 with ⟨hc, -⟩ | ⟨hw, -⟩
    · exact hne (hl.addr_inj hi hc hd ha)
    · rw [ha, hdw] at hw
      simp at hw
  have hdesc : Desc (pre ++ d :: rest) := by simpa using hr.desc
  refine
    { nonempty := hr.nonempty, desc := hr.desc, linked := ?_,
      matching := fun e he => (hr.owner hi hl he).1,
      source := fun e he => (hr.owner hi hl he).2.imp And.right And.left,
      node := fun p => ?_, version := fun p => ChainMem.setNext_version,
      value := fun p => ChainMem.setNext_value, flags := fun p flag => ?_,
      leaf := fun _ _ => rfl, unlinked := rfl }
  · have hold := hl.linked hi
    rw [hr.cells, List.append_assoc, List.singleton_append] at hold
    rw [List.append_assoc, List.singleton_append]
    refine hold.splice (fun c hc => ?_) ?_
    · rw [ChainMem.setNext_ne (hother (by simp [hc]) ?_)]
      rintro rfl
      exact absurd (hdesc.lt_of_mem_pre hc) (lt_irrefl _)
    · rw [ChainMem.setNext_next, linkOf_retag h8]
      refine hr.linked.congr fun e he => ?_
      rw [ChainMem.setNext_ne (hother (by simp [he]) ?_)]
      rintro rfl
      exact absurd (hdesc.lt_of_mem_post he) (lt_irrefl _)
  · by_cases hp : p = d.addr
    · subst hp
      exact .inr ⟨hdw, mem_addrs.mpr ⟨d, by simp, rfl⟩⟩
    · exact .inl (ChainMem.setNext_ne hp)
  · by_cases hp : p = d.addr
    · subst hp
      rw [ChainMem.setNext_next, hasFlag_retag h8]
    · rw [ChainMem.setNext_ne hp]

/-- What the thread knows once the chain has been changed. -/
lemma relink_knows {m' : ChainMem V} {cs : List (Cell V)} (hi : Inv x.mem x.hist x.ghost)
    (hx : Holds t H x) (hl : Locked t l S x) (hloose : S.loose = [])
    (hr : Renews x.mem m' x.ghost t l cs)
    (hnodes' : ∀ q, q ∈ nodes' ↔ q ∈ H.nodes ∧ q ∉ addrs cs)
    (hloose' : ∀ q, q ∈ loose' ↔ q ∈ addrs S.cells ∧ q ∉ addrs cs) :
    Holds t { H with placed := some r, nodes := nodes' }
        ⟨m', x.hist, x.ghost.commit t l ⟨cs, false⟩ H.id H.op r⟩ ∧
      Locked t l ⟨cs, S.counted, loose', m'.leaf l⟩
        ⟨m', x.hist, x.ghost.commit t l ⟨cs, false⟩ H.id H.op r⟩ := by
  have hlinked : ∀ q, x.ghost.whose q = .linked l ↔ q ∈ addrs S.cells := by
    intro q
    rw [hi.chains.linked_iff q l, mem_addrs, hl.now]
    simp
  have hnot : ∀ q, x.ghost.whose q ≠ .loose l := by
    intro q hq
    have := (hl.loose q).mp hq
    simp [hloose] at this
  constructor
  · refine
      { run := Function.update_self .., since := hx.since, holder := hx.holder
        thread := fun q => ?_, carried := fun q l' => ?_, draft := hx.draft, owed := hx.owed }
    · rw [hnodes', ← hx.thread q]
      show (x.ghost.commit t l ⟨cs, false⟩ H.id H.op r).whose q = _ ↔ _
      by_cases hin : q ∈ addrs cs
      · rw [commit_whose_mem hin]
        simp [hin]
      · by_cases hw : x.ghost.whose q = .linked l
        · rw [commit_whose_left hin hw]
          simp [hw]
        · rw [commit_whose_other hin hw]
          simp [hin]
    · rw [← hx.carried q l']
      exact hr.whose_iff (c := ⟨cs, false⟩) (by simp) (by simp) (by simp)
  · refine ⟨hl.holder, ?_, hl.counted, fun q => ?_, rfl⟩
    · show (x.ghost.commit t l ⟨cs, false⟩ H.id H.op r).now l = _
      simp
    · rw [hloose', ← hlinked]
      show (x.ghost.commit t l ⟨cs, false⟩ H.id H.op r).whose q = _ ↔ _
      by_cases hin : q ∈ addrs cs
      · rw [commit_whose_mem hin]
        simp [hin]
      · by_cases hw : x.ghost.whose q = .linked l
        · rw [commit_whose_left hin hw]
          simp [hw, hin]
        · rw [commit_whose_other hin hw]
          simp [hw, hnot]

end Relink

section Link

variable {old cs : List (Cell V)} {nodes' loose' : List ℕ} {r : Ret V}

/-- A store that changes the chain, and with which the call takes effect. -/
lemma wp_commit (a : ChainAct V Unit) (m' : ChainMem V) (hx : Holds t H x)
    (hplaced : H.placed = none) (hlock : H.lock = some l) (hl : Locked t l S x)
    (hloose : S.loose = []) (ha : (execChain a x.mem).2 = m') (hp : Permitted t a x.ghost)
    (hr : Inv x.mem x.hist x.ghost → Renews x.mem m' x.ghost t l cs)
    (hready : Inv x.mem x.hist x.ghost → ∀ p ∈ addrs cs, x.ghost.whose p = .thread t →
      Ready S.leaf p (x.mem.node p))
    (hk : Keeps x.mem m' l) (hlatch : ∀ l', (m'.leaf l').chainLatch = (x.mem.leaf l').chainLatch)
    (hsame : m'.published = x.mem.published ∧ m'.unlinked = x.mem.unlinked ∧
      m'.len = x.mem.len)
    (hstep : ∀ s : MapState V, s l = some ⟨versionsOf S.cells, false⟩ →
      Step s H.op r (Function.update s l (some ⟨versionsOf cs, false⟩)))
    (hnodes' : ∀ q, q ∈ nodes' ↔ q ∈ H.nodes ∧ q ∉ addrs cs)
    (hloose' : ∀ q, q ∈ loose' ↔ q ∈ addrs S.cells ∧ q ∉ addrs cs)
    (hout : ∀ q, q ∉ addrs cs → m'.node q = x.mem.node q) {Q : Unit → W V → Prop}
    (hQ : ∀ y leaf, Later x y → (rg V).Ok live t y →
      Holds t { H with placed := some r, nodes := nodes' } y →
      Locked t l ⟨cs, S.counted, loose', leaf⟩ y →
      (∀ q ∈ loose', y.mem.node q = x.mem.node q) → Q () y) :
    (rg V).wp live t (on a) Q x := by
  refine RG.wp_intro fun hok => ?_
  have hr := hr hok.inv
  have hcall := hx.run
  rw [hplaced] at hcall
  have hseen : seen x.ghost.now l = some ⟨versionsOf S.cells, false⟩ := by
    simp [seen, hl.now, ChainState.seen]
  obtain ⟨hknow, hlock'⟩ := relink_knows (r := r) hok.inv hx hl hloose hr hnodes' hloose'
  refine wp_write (x.ghost.commit t l ⟨cs, false⟩ H.id H.op r) ha hp
    (fun t' ht' => relink_rely hok.inv hl.holder ht' hr) ?_
    (relink_inv hok.inv hcall hl.holder (hx.one_lock hlock) hr hk
      (fun p hp hw => ?_) hlatch hsame (hstep _ hseen)) (fun y hy hoky => ?_)
    (.commit ⟨rfl, rfl⟩ (Function.update_self ..) fun l' => .inl ⟨rfl, fun hn => ?_⟩)
  · simp [Ghost.commit, hcall]
  · rw [hl.leaf]
    exact hready hok.inv p hp hw
  · have hlater : Later x ⟨m', x.hist, x.ghost.commit t l ⟨cs, false⟩ H.id H.op r⟩ := by
      -- What another thread can rely on is a later state.
      exact (relink_rely hok.inv hl.holder (Nat.succ_ne_self t) hr).later
    refine hQ y _ (hlater.trans hy.1.later) hoky (hknow.rely hy.1) (hlock'.rely hy.1)
      fun q hq => ?_
    have hw := (hlock'.loose q).mpr hq
    exact ((hy.1.heldNode l hl.holder q (.inr hw)).2).trans (hout q ((hloose' q).mp hq).2)
  · have hll : l' ≠ l := by
      rintro rfl
      simp [hl.now] at hn
    show (x.ghost.commit t l ⟨cs, false⟩ H.id H.op r).now l' = none
    simpa [hll] using hn

/-- The store that changes the chain. -/
lemma wp_link (nodes' loose' : List ℕ) (hx : Holds t H x) (hplaced : H.placed = none)
    (hlock : H.lock = some l) (hl : Locked t l S x) (hloose : S.loose = [])
    (hr : Relink t S pre old rest x)
    (hstep : ∀ s : MapState V, s l = some ⟨versionsOf S.cells, false⟩ →
      Step s H.op r (Function.update s l (some ⟨versionsOf (pre ++ rest), false⟩)))
    (hnodes' : ∀ q, q ∈ nodes' ↔ q ∈ H.nodes ∧ q ∉ addrs (pre ++ rest))
    (hloose' : ∀ q, q ∈ loose' ↔ q ∈ addrs S.cells ∧ q ∉ addrs (pre ++ rest))
    {Q : Unit → W V → Prop}
    (hQ : ∀ y leaf, Later x y → (rg V).Ok live t y →
      Holds t { H with placed := some r, nodes := nodes' } y →
      Locked t l ⟨pre ++ rest, S.counted, loose', leaf⟩ y →
      (∀ q ∈ loose', y.mem.node q = x.mem.node q) → Q () y) :
    (rg V).wp live t (link l (lastAddr pre) (firstAddr rest)) Q x := by
  have hready : ∀ {y}, Relink t S pre old rest y → Locked t l S y → Inv y.mem y.hist y.ghost →
      ∀ p ∈ addrs (pre ++ rest), y.ghost.whose p = .thread t → Ready S.leaf p (y.mem.node p) := by
    intro y hr hl hi p hp hw
    obtain ⟨e, he, rfl⟩ := mem_addrs.mp hp
    rcases (hr.owner hi hl he).2 with ⟨-, hw'⟩ | ⟨-, h⟩
    · rw [hw'] at hw
      simp at hw
    · exact h
  refine RG.wp_intro fun hok => ?_
  rcases List.eq_nil_or_concat' pre with rfl | ⟨pre, d, rfl⟩
  · rw [lastAddr_nil, link, if_pos rfl]
    refine wp_commit (.storeHead l (firstAddr rest)) (x.mem.setHead (firstAddr rest) l) hx hplaced
      hlock hl hloose rfl hl.holder (fun hi => hr.renews_head hi hl)
      (fun hi => hready hr hl hi) ?_ (fun l' => by simp) ⟨rfl, rfl, rfl⟩ hstep hnodes'
      hloose' (fun _ _ => rfl) hQ
    refine ⟨rfl, rfl, rfl, ?_, ?_, ?_⟩ <;> simp
  · have hd : d ∈ S.cells := by simp [hr.cells]
    have hc : S.cells = pre ++ d :: old := by simp [hr.cells]
    rw [lastAddr_concat, link, if_neg (hl.addr_ok hok.inv hd).1]
    refine RG.wp_bind (wp_loadNext_locked hx hl hc fun y w hy hoky hw _ => ?_)
    subst hw
    have hly := hl.rely hy
    have hxy := hx.rely hy
    have hry := hr.rely hok.inv hl hy
    have hdw := hly.whose hoky.inv hd
    refine wp_commit (.storeNext d.addr (retag (y.mem.node d.addr).next (firstAddr rest)))
      (y.mem.setNext d.addr (retag (y.mem.node d.addr).next (firstAddr rest))) hxy hplaced hlock
      hly hloose rfl ⟨hxy.reach (hly.seen_mem hoky.inv hxy hd), .inr ⟨l, hly.holder, .inl hdw⟩⟩
      (fun hi => hry.renews_next hi hly) (fun hi => hready hry hly hi)
      ⟨rfl, rfl, rfl, rfl, rfl, rfl⟩ (fun _ => rfl) ⟨rfl, rfl, rfl⟩ hstep hnodes' hloose'
      (fun q hq => ChainMem.setNext_ne ?_) fun z leaf hz hokz hxz hlz hnode => ?_
    · rintro rfl
      exact hq (mem_addrs.mpr ⟨d, by simp, rfl⟩)
    · refine hQ z leaf (hy.later.trans hz) hokz hxz hlz fun q hq => ?_
      rw [hnode q hq]
      obtain ⟨e, he, rfl⟩ := mem_addrs.mp ((hloose' q).mp hq).1
      exact (hy.heldNode l hl.holder e.addr (.inl (hl.whose hok.inv he))).2

end Link

/-! ## Nodes that have left the chain -/

section Gone

variable {bag' : List (ℕ × ℕ)}

/-- A node that has left the chain is marked. -/
lemma wp_mark (loose' : List ℕ) (hx : Holds t H x) (hl : Locked t l S x) (hp : d.addr ∈ S.loose)
    (hs : Seen H.since l (fun c => d ∈ c.cells) x)
    (hloose' : ∀ q, q ∈ loose' ↔ q ∈ S.loose ∧ q ≠ d.addr) {Q : Unit → W V → Prop}
    (hQ : ∀ y, Later x y → (rg V).Ok live t y →
      Holds t { H with bag := (d.addr, l) :: H.bag } y → Locked t l { S with loose := loose' } y →
      (∀ q, q = d.addr ∨ q ∈ loose' →
        linkOf (y.mem.node q).next = linkOf (x.mem.node q).next) → Q () y) :
    (rg V).wp live t (markSuperseded d.addr) Q x := by
  refine RG.wp_bind (wp_read (fun _ => rfl) (hx.reach hs) fun y hy hoky => ?_)
  have hxy := hx.rely hy.1
  have hly := hl.rely hy.1
  have hsame : ∀ {q}, q ∈ S.loose → y.mem.node q = x.mem.node q := fun hq =>
    (hy.1.heldNode l hl.holder _ (.inr ((hl.loose _).mpr hq))).2
  have hw : (execChain (.loadNext d.addr) x.mem).1 = (y.mem.node d.addr).next := by
    rw [hsame hp]
    rfl
  rw [hw]
  have hpy := (hly.loose d.addr).mpr hp
  refine wp_write (y.ghost.give d.addr (.carried t l)) rfl
    ⟨hxy.reach (hs.later hy.1.later), .inr ⟨l, hly.holder, .inr hpy⟩⟩
    (fun t' ht' => mark_rely hoky.inv hly.holder hpy ht') rfl
    (mark_inv hoky.inv (by rw [hxy.run]; simp) hpy) fun z hz hokz => ?_
  set m' := y.mem.setNext d.addr (marked (y.mem.node d.addr).next) with hm'
  have hholds : Holds t { H with bag := (d.addr, l) :: H.bag }
      ⟨m', y.hist, y.ghost.give d.addr (.carried t l)⟩ := by
    refine { hxy with thread := fun q => ?_, carried := fun q l' => ?_ }
    · rw [← hxy.thread q]
      by_cases hq : q = d.addr
      · subst hq
        simp [Ghost.give, hpy]
      · simp [Ghost.give, hq]
    · rw [List.mem_cons, ← hxy.carried q l']
      by_cases hq : q = d.addr
      · subst hq
        simp [Ghost.give, hpy, eq_comm]
      · simp [Ghost.give, hq]
  have hlocked : Locked t l { S with loose := loose' }
      ⟨m', y.hist, y.ghost.give d.addr (.carried t l)⟩ := by
    refine { hly with loose := fun q => ?_ }
    rw [hloose', ← hly.loose q]
    by_cases hq : q = d.addr
    · subst hq
      simp [Ghost.give]
    · simp [Ghost.give, hq]
  refine hQ z (hy.1.later.trans ((Later.give fun _ => rfl).trans hz.1.later)) hokz
    (hholds.rely hz.1) (hlocked.rely hz.1) fun q hq => ?_
  have hzm : z.mem.node q = m'.node q := by
    rcases hq with rfl | hq
    · exact hz.1.carriedNode d.addr l ((hholds.carried _ _).mpr List.mem_cons_self)
    · exact (hz.1.heldNode l hlocked.holder q (.inr ((hlocked.loose q).mpr hq))).2
  rw [hzm, (alike_marked y.mem d.addr q).link]
  rcases hq with rfl | hq
  · rw [hsame hp]
  · rw [hsame ((hloose' q).mp hq).1]

/-- What a thread that has handed a node on has left. -/
lemma Holds.hand {m' : ChainMem V} {o : Owner} (hx : Holds t H x)
    (ho : o = .retired l ∨ o = .left l) (hp : x.ghost.whose p = .carried t l)
    (hbag' : ∀ q l', (q, l') ∈ bag' ↔ (q, l') ∈ H.bag ∧ q ≠ p) :
    Holds t { H with bag := bag' } ⟨m', x.hist, x.ghost.give p o⟩ := by
  refine { hx with thread := fun q => ?_, carried := fun q l' => ?_ }
  · rw [← hx.thread q]
    by_cases hq : q = p
    · subst hq
      rcases ho with rfl | rfl <;> simp [Ghost.give, hp]
    · simp [Ghost.give, hq]
  · rw [hbag', ← hx.carried q l']
    by_cases hq : q = p
    · subst hq
      rcases ho with rfl | rfl <;> simp [Ghost.give]
    · simp [Ghost.give, hq]

/-- A marked node is retired, or left to its leaf. -/
lemma wp_retireVersion (bag' : List (ℕ × ℕ)) (hx : Holds t H x) (hp : (d.addr, l) ∈ H.bag)
    (hs : Seen H.since l (fun c => d ∈ c.cells) x)
    (hbag' : ∀ q l', (q, l') ∈ bag' ↔ (q, l') ∈ H.bag ∧ q ≠ d.addr) {Q : Unit → W V → Prop}
    (hQ : ∀ y, Later x y → (rg V).Ok live t y → Holds t { H with bag := bag' } y → Q () y) :
    (rg V).wp live t (retireVersion d.addr) Q x := by
  have hpx := (hx.carried _ _).mpr hp
  refine RG.wp_intro fun hok => ?_
  have hrun : x.ghost.run t ≠ none := by
    rw [hx.run]
    simp
  cases hin : hasFlag (x.mem.node d.addr).next inlineFlag with
  | true =>
    refine RG.wp_bind (RG.wp_bind (wp_write (x.ghost.give d.addr (.left l)) rfl (hx.reach hs)
      (fun t' ht' => carried_rely hok.inv hpx ht' (.inr rfl) rfl rfl) rfl
      (leave_inv hok.inv hrun hpx hin) fun y hy hoky => RG.wp_ret ?_))
    rw [show hasFlag (execChain (.loadNext d.addr) x.mem).1 inlineFlag = true from hin]
    refine RG.wp_ret (hQ y ((Later.give fun _ => rfl).trans hy.1.later) hoky
      ((hx.hand (.inr rfl) hpx hbag').rely hy.1))
  | false =>
    refine RG.wp_bind (RG.wp_bind (wp_read (fun _ => rfl) (hx.reach hs) fun y hy hoky =>
      RG.wp_ret ?_))
    rw [show hasFlag (execChain (.loadNext d.addr) x.mem).1 inlineFlag = false from hin]
    have hxy := hx.rely hy.1
    have hpy := (hxy.carried _ _).mpr hp
    refine wp_write (y.ghost.give d.addr (.retired l)) rfl ⟨l, hpy⟩
      (fun t' ht' => carried_rely hoky.inv hpy ht' (.inl rfl) rfl rfl) rfl
      (retire_inv hoky.inv (by rw [hxy.run]; simp) hpy ?_) fun z hz hokz => ?_
    · rw [hy.1.carriedNode d.addr l hpx]
      exact hin
    · exact hQ z (hy.1.later.trans ((Later.give fun _ => rfl).trans hz.1.later)) hokz
        ((hxy.hand (.inl rfl) hpy hbag').rely hz.1)

end Gone

/-! ## Counting -/

/-- Only leaf `l` is counted anew. -/
lemma Tallied.count {k : ℤ} {m' : ChainMem V}
    (hl : (x.ghost.now l = none) ∨ Exact l ⟨m', x.hist, x.ghost.count l k⟩) :
    Tallied x ⟨m', x.hist, x.ghost.count l k⟩ := by
  intro l'
  by_cases hll : l' = l
  · subst hll
    refine .inr (.inl (hl.elim (fun hn c hc => ?_) id))
    have hc : x.ghost.now l' = some c := hc
    simp [hn] at hc
  · exact .inl ⟨by simp [Ghost.count, hll], id⟩

/-- A leaf whose chain has been changed is counted as what it has become. -/
lemma wp_lenAdd (hx : Holds t H x) (hl : Locked t l S x) (k : ℤ)
    (hk : S.counted + k = (versionsOf S.cells).live) {Q : Unit → W V → Prop}
    (hQ : ∀ y, Later x y → (rg V).Ok live t y → Holds t H y →
      Locked t l { S with counted := S.counted + k } y → Q () y) :
    (rg V).wp live t (on (.lenAdd k)) Q x := by
  refine RG.wp_intro fun hok => wp_write (x.ghost.count l k) rfl trivial
    (fun t' ht' => lenAdd_rely hok.inv (.inl hl.holder) ht' k) rfl
    (lenAdd_inv hok.inv (.inl hl.holder) ?_) (fun y hy hoky => ?_)
    (.quiet rfl rfl (.count (.inr fun c hc => ?_)))
  · rw [hl.counted, hk]
    exact Versions.live_cases _
  · have hlater : Later x ⟨{ x.mem with len := x.mem.len + k }, x.hist, x.ghost.count l k⟩ :=
      { Later.refl x with }
    refine hQ y (hlater.trans hy.1.later) hoky (Holds.rely hy.1 { hx with })
      (Locked.rely hy.1 { hl with counted := ?_ })
    simp [Ghost.count, hl.counted]
  · obtain rfl := Option.some.inj (hl.now.symm.trans hc)
    simp [Ghost.count, hl.counted, hk]

/-- A leaf that is to be published is counted in. -/
lemma wp_lenAdd_draft (hx : Holds t H x) (hd : Drafted t l v b x.mem x.ghost)
    (hc : x.ghost.counted l = 0) (k : ℤ) (hk : k = 0 ∨ k = 1) {Q : Unit → W V → Prop}
    (hQ : ∀ y, Later x y → (rg V).Ok live t y → Holds t H y → Drafted t l v b y.mem y.ghost →
      y.ghost.counted l = k → Q () y) :
    (rg V).wp live t (on (.lenAdd k)) Q x := by
  refine RG.wp_intro fun hok => wp_write (x.ghost.count l k) rfl trivial
    (fun t' ht' => lenAdd_rely hok.inv (.inr hd.draft) ht' k) rfl
    (lenAdd_inv hok.inv (.inr hd.draft) (by rw [hc, zero_add]; exact hk)) (fun y hy hoky => ?_)
    (.quiet rfl rfl (.count (.inl (hok.inv.leafs.draft l t hd.draft).1)))
  have hlater : Later x ⟨{ x.mem with len := x.mem.len + k }, x.hist, x.ghost.count l k⟩ :=
    { Later.refl x with }
  have hd' : Drafted t l v b { x.mem with len := x.mem.len + k } (x.ghost.count l k) :=
    { hd with }
  refine hQ y (hlater.trans hy.1.later) hoky (Holds.rely hy.1 { hx with }) (hd'.rely hy.1) ?_
  rw [(hy.1.draftLeaf l hd'.draft).2]
  simp [Ghost.count, hc]

/-- A leaf that the thread has killed and that is no longer in the tree is counted out. -/
lemma wp_settle (hx : Holds t H x) (howed : H.owed = some l) {k : ℤ}
    (hk : x.ghost.counted l + k = 0) (hd : Detached l x) {Q : Unit → W V → Prop}
    (hQ : ∀ y, Later x y → (rg V).Ok live t y → Holds t { H with owed := none } y → Q () y) :
    (rg V).wp live t (on (.lenAdd k)) Q x := by
  have ho := (hx.owed l).mpr howed
  refine RG.wp_intro fun hok => wp_write (x.ghost.settle l k) rfl trivial
    (fun t' ht' => settle_rely hok.inv ho ht' k) rfl (settle_inv hok.inv ho hk)
    (fun y hy hoky => ?_) (.quiet rfl rfl fun l' => ?_)
  · have hlater : Later x ⟨{ x.mem with len := x.mem.len + k }, x.hist, x.ghost.settle l k⟩ :=
      { Later.refl x with }
    refine hQ y (hlater.trans hy.1.later) hoky (Holds.rely hy.1 { hx with owed := fun l' => ?_ })
    have hone := hx.owed l'
    rw [howed] at hone
    by_cases hll : l' = l
    · subst hll
      simp [Ghost.settle]
    · simp [Ghost.settle, hll, hone, Ne.symm hll]
  · by_cases hll : l' = l
    · subst hll
      exact .inr (.inr hd)
    · exact .inl ⟨by simp [Ghost.settle, Ghost.count, hll], id⟩

end Versioned

end Artmap
