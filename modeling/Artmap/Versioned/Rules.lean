import Artmap.Versioned.Commit

/-!
# Rules for version chains

What a thread knows between its steps, stated so that the steps of the other threads do not
change it: what is in its hands (`Holds`), the leaf whose lock it holds (`Locked`), a node that
it has not linked yet (`Owned`), and what chains have been like since its call was invoked
(`Seen`).  For each step there is a rule.
-/

namespace Artmap

namespace Versioned

variable {V : Type}

/-! ## What a thread knows -/

/-- What is in the hands of a thread that is running a call. -/
structure Hand (V : Type) where
  id : ℕ
  op : Op V
  /-- The answer, once the call has been placed. -/
  placed : Option (Ret V) := none
  /-- The state at the invocation. -/
  since : ℕ
  lock : Option ℕ := none
  nodes : List ℕ := []
  /-- Nodes to be retired, with their leaves. -/
  bag : List (ℕ × ℕ) := []
  draft : Option ℕ := none
  owed : Option ℕ := none

/-- Thread `t` has `H` in its hands. -/
structure Holds (t : ℕ) (H : Hand V) (x : W V) : Prop where
  run : x.ghost.run t = some ⟨H.id, H.op, H.placed⟩
  since : x.ghost.time.since H.id = H.since
  holder : ∀ l, x.ghost.holder l = some t ↔ H.lock = some l
  thread : ∀ p, x.ghost.whose p = .thread t ↔ p ∈ H.nodes
  carried : ∀ p l, x.ghost.whose p = .carried t l ↔ (p, l) ∈ H.bag
  draft : ∀ l, x.ghost.draft l = some t ↔ H.draft = some l
  owed : ∀ l, x.ghost.owed l = some t ↔ H.owed = some l

/-- A leaf whose lock is held. -/
structure Scene (V : Type) where
  cells : List (Cell V)
  counted : ℤ
  loose : List ℕ
  leaf : VersionedLeaf

/-- Thread `t` holds the lock of leaf `l`, which is as `S` says. -/
structure Locked (t l : ℕ) (S : Scene V) (x : W V) : Prop where
  holder : x.ghost.holder l = some t
  now : x.ghost.now l = some ⟨S.cells, false⟩
  counted : x.ghost.counted l = S.counted
  loose : ∀ p, x.ghost.whose p = .loose l ↔ p ∈ S.loose
  leaf : x.mem.leaf l = S.leaf

/-- Thread `t` has allocated node `p`, which is `n`. -/
structure Owned (t p : ℕ) (n : VersionNode V) (x : W V) : Prop where
  owner : x.ghost.whose p = .thread t
  node : x.mem.node p = n

/-- In some state from `lo` on, the chain of leaf `l` was as `P` says. -/
def Seen (lo l : ℕ) (P : ChainState V → Prop) (x : W V) : Prop :=
  ∃ i, lo ≤ i ∧ i ≤ x.ghost.time.now ∧ ∃ c, x.ghost.past i l = some c ∧ P c

/-- The chain of leaf `l` has not been the same in every state from `lo` on. -/
def Moved (lo l : ℕ) (x : W V) : Prop :=
  ∃ i j, lo ≤ i ∧ i ≤ x.ghost.time.now ∧ lo ≤ j ∧ j ≤ x.ghost.time.now ∧
    x.ghost.past i l ≠ x.ghost.past j l

/-- Leaf `l` has been published. -/
def Published (l : ℕ) (x : W V) : Prop :=
  (x.ghost.now l).isSome

/-- Leaf `l` has died. -/
def Dead (l : ℕ) (x : W V) : Prop :=
  ∃ cells, x.ghost.now l = some ⟨cells, true⟩

variable {live : Bool} {t l l' p w lo : ℕ} {x y : W V} {H : Hand V} {S : Scene V}
  {n : VersionNode V} {P P' : ChainState V → Prop} {pre post : List (Cell V)} {d : Cell V}

section Stable

lemma Holds.rely (hr : Rely t x y) (h : Holds t H x) : Holds t H y where
  run := hr.run.trans h.run
  since := (hr.since _ h.run).trans h.since
  holder l := (hr.holder l).trans (h.holder l)
  thread p := (hr.thread p).trans (h.thread p)
  carried p l := (hr.carried p l).trans (h.carried p l)
  draft l := (hr.draft l).trans (h.draft l)
  owed l := (hr.owed l).trans (h.owed l)

lemma Locked.rely (hr : Rely t x y) (h : Locked t l S x) : Locked t l S y := by
  obtain ⟨hleaf, hnow, hcount⟩ := hr.held l h.holder
  refine ⟨(hr.holder l).mpr h.holder, hnow.trans h.now, hcount.trans h.counted, fun p => ?_,
    hleaf.trans h.leaf⟩
  rw [← h.loose p]
  refine ⟨hr.heldLoose l h.holder p, fun hp => ?_⟩
  exact (hr.heldNode l h.holder p (.inr hp)).1.trans hp

lemma Owned.rely (hr : Rely t x y) (h : Owned t p n x) : Owned t p n y :=
  ⟨(hr.thread p).mpr h.owner, (hr.threadNode p h.owner).trans h.node⟩

lemma Seen.later (hr : Later x y) (h : Seen lo l P x) : Seen lo l P y := by
  obtain ⟨i, hlo, hi, c, hc, hP⟩ := h
  exact ⟨i, hlo, hi.trans hr.now, c, by rw [hr.past i hi]; exact hc, hP⟩

lemma Seen.mono (h : Seen lo l P x) (hP : ∀ c, P c → P' c) : Seen lo l P' x := by
  obtain ⟨i, hlo, hi, c, hc, hPc⟩ := h
  exact ⟨i, hlo, hi, c, hc, hP c hPc⟩

lemma Seen.moved (h : Seen lo l P x) (h' : Seen lo l P' x) (hne : ∀ c, P c → ¬ P' c) :
    Moved lo l x := by
  obtain ⟨i, hlo, hi, c, hc, hP⟩ := h
  obtain ⟨j, hlo', hj, c', hc', hP'⟩ := h'
  refine ⟨i, j, hlo, hi, hlo', hj, fun he => ?_⟩
  rw [hc, hc'] at he
  obtain rfl := Option.some.inj he
  exact hne c hP hP'

lemma Moved.later (hr : Later x y) (h : Moved lo l x) : Moved lo l y := by
  obtain ⟨i, j, hlo, hi, hlo', hj, hne⟩ := h
  refine ⟨i, j, hlo, hi.trans hr.now, hlo', hj.trans hr.now, ?_⟩
  rwa [hr.past i hi, hr.past j hj]

/-- Nothing has moved in one state. -/
lemma Moved.lt (h : Moved lo l x) : lo < x.ghost.time.now := by
  obtain ⟨i, j, hlo, hi, hlo', hj, hne⟩ := h
  by_contra hle
  have hij : i = j := by omega
  exact hne (by rw [hij])

lemma Published.later (hr : Later x y) (h : Published l x) : Published l y := by
  obtain ⟨c, hc⟩ := Option.isSome_iff_exists.mp h
  obtain ⟨c', hc', -⟩ := hr.grows l c hc
  simp [Published, hc']

lemma Dead.later (hr : Later x y) (h : Dead l x) : Dead l y := by
  obtain ⟨cells, hc⟩ := h
  obtain ⟨c', hc', he⟩ := hr.grows l _ hc
  exact ⟨cells, by rw [hc', he rfl]⟩

lemma Drafted.rely {v : ℕ} {b : Option V} (hr : Rely t x y) (h : Drafted t l v b x.mem x.ghost) :
    Drafted t l v b y.mem y.ghost := by
  have hleaf := (hr.draftLeaf l h.draft).1
  refine
    { draft := (hr.draft l).mpr h.draft, owner := ?_, head := by rw [hleaf]; exact h.head
      latch := by rw [hleaf]; exact h.latch, slotsInit := by rw [hleaf]; exact h.slotsInit
      node := ?_ }
  · rw [hleaf]
    exact (hr.thread _).mpr h.owner
  · rw [hleaf, hr.threadNode _ h.owner]
    exact h.node

lemma Locked.published (h : Locked t l S x) : Published l x := by
  simp [Published, h.now]

/-- A chain at present is one that has been seen. -/
lemma Locked.seen (h : Locked t l S x) (hlo : lo ≤ x.ghost.time.now) :
    Seen lo l (fun c => c = ⟨S.cells, false⟩) x :=
  ⟨_, hlo, le_rfl, _, h.now, rfl⟩

end Stable

/-! ## Loads -/

/-- A step that changes nothing. -/
lemma wp_read {β : Type} {a : ChainAct V β} {Q : β → W V → Prop}
    (ha : ∀ m, (execChain a m).2 = m) (hp : Permitted t a x.ghost)
    (hQ : ∀ y, (rg V).Interfere live t x y → (rg V).Ok live t y → Q (execChain a x.mem).1 y) :
    (rg V).wp live t (on a) Q x := by
  have hx : (⟨(execChain a x.mem).2, x.hist, x.ghost⟩ : W V) = x := by rw [ha]
  refine RG.wp_intro fun hok => RG.wp_perform hp x.ghost ?_ ?_ fun y hy hoky => ?_
  · rw [hx]
    exact ⟨fun t' _ => Rely.refl t' x, rfl, .quiet rfl rfl (.of_eq rfl rfl)⟩
  · rw [hx]
    exact hok.inv
  · rw [hx] at hy
    exact hQ y hy hoky

/-- A step that makes `m'` and `g'` of memory and ghost state. -/
lemma wp_write {β : Type} {a : ChainAct V β} {Q : β → W V → Prop} {m' : ChainMem V}
    (g' : Ghost V) (ha : (execChain a x.mem).2 = m') (hp : Permitted t a x.ghost)
    (hrely : ∀ t', t' ≠ t → Rely t' x ⟨m', x.hist, g'⟩)
    (htag : (rg V).tag g' t = (rg V).tag x.ghost t) (hinv : Inv m' x.hist g')
    (hQ : ∀ y, (rg V).Interfere live t ⟨m', x.hist, g'⟩ y → (rg V).Ok live t y →
      Q (execChain a x.mem).1 y)
    (hown : Own t x ⟨m', x.hist, g'⟩ := by exact .quiet rfl rfl (.of_eq rfl rfl)) :
    (rg V).wp live t (on a) Q x := by
  have hx : (⟨(execChain a x.mem).2, x.hist, g'⟩ : W V) = ⟨m', x.hist, g'⟩ := by rw [ha]
  refine RG.wp_perform hp g' ?_ ?_ fun y hy hoky => ?_
  · rw [hx]
    exact ⟨hrely, htag, hown⟩
  · rw [hx]
    exact hinv
  · rw [hx] at hy
    exact hQ y hy hoky

section Loads

lemma Holds.reach (h : Holds t H x) (hs : Seen H.since l (fun c => d ∈ c.cells) x) :
    Reach t d.addr x.ghost := by
  obtain ⟨i, hlo, hi, c, hc, hd⟩ := hs
  refine .inr ⟨_, h.run, i, ?_, hi, l, c, hc, d, hd, rfl⟩
  rw [h.since]
  exact hlo

lemma Seen.matches (hi : Inv x.mem x.hist x.ghost) (hs : Seen lo l (fun c => d ∈ c.cells) x) :
    Matches (x.mem.node d.addr) d := by
  obtain ⟨i, -, hi', c, hc, hd⟩ := hs
  exact hi.chains.matching i hi' l c hc d hd

variable (hx : Holds t H x) (hs : Seen H.since l (fun c => d ∈ c.cells) x)

include hx hs

lemma wp_readVersion {Q : ℕ → W V → Prop}
    (hQ : ∀ y, Rely t x y → (rg V).Ok live t y → Q d.version y) :
    (rg V).wp live t (on (.readVersion d.addr)) Q x := by
  refine RG.wp_intro fun hok => wp_read (fun _ => rfl) (hx.reach hs) fun y hy hoky => ?_
  have := hQ y hy.1 hoky
  rwa [← (hs.matches hok.inv).version] at this

/-- The link word of a node says where its successor is, at this moment or was before. -/
lemma wp_loadNext {Q : ℕ → W V → Prop}
    (hQ : ∀ y w, Rely t x y → (rg V).Ok live t y →
      hasFlag w tombstoneFlag = d.value.isNone →
      (∀ lo, Seen lo l (fun c => d ∈ c.cells) x →
        Seen lo l (fun c => ∃ pre post, c.cells = pre ++ d :: post ∧ linkOf w = firstAddr post) y) →
      Q w y) :
    (rg V).wp live t (on (.loadNext d.addr)) Q x := by
  refine RG.wp_intro fun hok => wp_read (fun _ => rfl) (hx.reach hs) fun y hy hoky => ?_
  refine hQ y _ hy.1 hoky (hs.matches hok.inv).tombstone fun lo hlo => ?_
  obtain ⟨i, hloi, hi, c, hc, hd⟩ := hlo
  obtain ⟨j, hij, hj, c', pre, post, hc', he, hlink⟩ :=
    hok.inv.chains.hindsight i hi l c hc d hd
  exact Seen.later hy.1.later ⟨j, hloi.trans hij, hj, c', hc', pre, post, he, hlink⟩

lemma wp_isTombstone {Q : Bool → W V → Prop}
    (hQ : ∀ y, Rely t x y → (rg V).Ok live t y → Q d.value.isNone y) :
    (rg V).wp live t (isTombstone d.addr) Q x := by
  refine RG.wp_bind (wp_loadNext hx hs fun y w hy hoky htomb _ => RG.wp_ret ?_)
  rw [htomb]
  exact hQ y hy hoky

lemma wp_next {Q : ℕ → W V → Prop}
    (hQ : ∀ y q, Rely t x y → (rg V).Ok live t y →
      (∀ lo, Seen lo l (fun c => d ∈ c.cells) x →
        Seen lo l (fun c => ∃ pre post, c.cells = pre ++ d :: post ∧ q = firstAddr post) y) →
      Q q y) :
    (rg V).wp live t (next d.addr) Q x :=
  RG.wp_bind (wp_loadNext hx hs fun y _ hy hoky _ hlink => RG.wp_ret (hQ y _ hy hoky hlink))

lemma wp_value {Q : Option V → W V → Prop}
    (hQ : ∀ y, Rely t x y → (rg V).Ok live t y → Q d.value y) :
    (rg V).wp live t (value d.addr) Q x := by
  refine RG.wp_bind (wp_isTombstone hx hs fun y hy hoky => ?_)
  cases hd : d.value with
  | none =>
    refine RG.wp_ret ?_
    rw [← hd]
    exact hQ y hy hoky
  | some b =>
    have hsy := hs.later hy.later
    refine wp_read (fun _ => rfl) ((hx.rely hy).reach hsy) fun z hz hokz => ?_
    have := hQ z (hy.trans hz.1) hokz
    rwa [← (hsy.matches hoky.inv).value] at this

end Loads

/-- The head of a published leaf. -/
lemma wp_loadHead {Q : ℕ → W V → Prop} (hp : Published l x)
    (hQ : ∀ y c, Rely t x y → (rg V).Ok live t y → x.ghost.now l = some c → c.cells ≠ [] →
      Desc c.cells → Q (firstAddr c.cells) y) :
    (rg V).wp live t (on (.loadHead l)) Q x := by
  refine RG.wp_intro fun hok => wp_read (fun _ => rfl) trivial fun y hy hoky => ?_
  obtain ⟨c, hc⟩ := Option.isSome_iff_exists.mp hp
  have hq := hQ y c hy.1 hoky hc (hok.inv.chains.nonempty _ le_rfl l c hc)
    (hok.inv.chains.desc _ le_rfl l c hc)
  rwa [← (hok.inv.chains.linked l c hc).first] at hq

/-! ## Locks -/

section Locks

/-- The word of a chain lock. -/
lemma Inv.latch_cases {m : ChainMem V} {h : List (Event (Op V) (Ret V))} {g : Ghost V}
    (hi : Inv m h g) (hp : (g.now l).isSome) :
    ((m.leaf l).chainLatch = 0 ∧ g.holder l = none) ∨
      ((m.leaf l).chainLatch = chainLocked ∧ g.holder l ≠ none) ∨
      (m.leaf l).chainLatch = chainDead ∧ ∃ cells, g.now l = some ⟨cells, true⟩ := by
  obtain ⟨⟨cells, dead⟩, hc⟩ := Option.isSome_iff_exists.mp hp
  cases dead with
  | true => exact .inr (.inr ⟨(hi.leafs.dead l _ hc rfl).1, cells, hc⟩)
  | false =>
    cases hh : g.holder l with
    | none => exact .inl ⟨(hi.leafs.unlocked l _ hc rfl hh).1, rfl⟩
    | some t => exact .inr (.inl ⟨(hi.leafs.held l t hh).1, by simp⟩)

/-- Alone, a thread that holds no lock finds every lock free or dead. -/
lemma Holds.free_of_live (hx : Holds t H x) (hok : (rg V).Ok live t x) (hl : live = true)
    (hlock : H.lock = none) (l : ℕ) : x.ghost.holder l = none := by
  cases hh : x.ghost.holder l with
  | none => rfl
  | some t' =>
    by_cases ht : t' = t
    · subst ht
      have := (hx.holder l).mp hh
      rw [hlock] at this
      simp at this
    · have htag := hok.calm hl t' ht
      have hrun : x.ghost.run t' = none := by simpa using htag
      exact absurd hh ((hok.inv.idle t' hrun).holder l)

lemma wp_isDead (hp : Published l x) {Q : Bool → W V → Prop}
    (hQ : ∀ y b, Rely t x y → (rg V).Ok live t y → (b = true → Dead l y) →
      (b = false → ¬ Dead l x) → Q b y) :
    (rg V).wp live t (isDead l) Q x := by
  refine RG.wp_intro fun hok => RG.wp_bind (wp_read (fun _ => rfl) trivial fun y hy hoky => ?_)
  refine RG.wp_ret (hQ y _ hy.1 hoky (fun hb => ?_) fun hb hd => ?_)
  · have hb : (x.mem.leaf l).chainLatch &&& chainDead ≠ 0 := of_decide_eq_true hb
    rcases hok.inv.latch_cases hp with ⟨hw, -⟩ | ⟨hw, -⟩ | ⟨-, cells, hc⟩
    · rw [hw] at hb
      exact absurd (by decide) hb
    · rw [hw] at hb
      exact absurd (by decide) hb
    · exact Dead.later hy.1.later ⟨cells, hc⟩
  · obtain ⟨cells, hc⟩ := hd
    have hb : ¬ (x.mem.leaf l).chainLatch &&& chainDead ≠ 0 := of_decide_eq_false hb
    rw [(hok.inv.leafs.dead l _ hc rfl).1] at hb
    exact hb (by decide)

/-- Waiting for a chain lock. -/
lemma wp_awaitFree (hx : Holds t H x) (hlock : H.lock = none) (hp : Published l x)
    {Q : Bool → W V → Prop}
    (hQ : ∀ y b, (rg V).Interfere live t x y → (rg V).Ok live t y → (b = false → Dead l y) →
      (b = true → live = true → (x.mem.leaf l).chainLatch = 0) → Q b y) :
    (rg V).wp live t (awaitFree l) Q x := by
  refine RG.wp_iter (δ := ℕ) (fun _ y => (rg V).Interfere live t x y) (fun _ _ => 0)
    (fun _ y hy => ?_) ⟨Rely.refl t x, fun _ => rfl⟩
  have hpy := hp.later hy.1.later
  refine RG.wp_intro fun hok => RG.wp_bind (wp_read (fun _ => rfl) trivial fun z hz hokz => ?_)
  have hxz : (rg V).Interfere live t x z :=
    ⟨hy.1.trans hz.1, fun hl => (hz.2 hl).trans (hy.2 hl)⟩
  show (rg V).wp live t (if (y.mem.leaf l).chainLatch &&& chainDead ≠ 0 then _ else
    if (y.mem.leaf l).chainLatch = 0 then _ else _) _ z
  rcases hok.inv.latch_cases hpy with ⟨hw, -⟩ | ⟨hw, hh⟩ | ⟨hw, cells, hc⟩
  · rw [hw, if_neg (by decide), if_pos rfl]
    refine RG.wp_ret (hQ z true hxz hokz (fun h => absurd h (by decide)) fun _ hl => ?_)
    rw [← hy.2 hl]
    exact hw
  · rw [hw, if_neg (by decide), if_neg (by decide)]
    refine RG.wp_ret ⟨hxz, fun hl => absurd ?_ hh⟩
    exact (hx.rely hy.1).free_of_live hok hl hlock l
  · rw [hw, if_pos (by decide)]
    exact RG.wp_ret (hQ z false hxz hokz (fun _ => Dead.later hz.1.later ⟨cells, hc⟩)
      fun h => absurd h (by decide))

/-- What a leaf is when its lock has just been taken. -/
structure Scene.Fresh (S : Scene V) : Prop where
  counted : S.counted = (versionsOf S.cells).live
  loose : S.loose = []
  nonempty : S.cells ≠ []
  desc : Desc S.cells

lemma Holds.take (hx : Holds t H x) (hlock : H.lock = none) (m : ChainMem V) :
    Holds t { H with lock := some l } ⟨m, x.hist, x.ghost.take l t⟩ where
  run := hx.run
  since := hx.since
  holder l' := by
    by_cases hl : l' = l
    · subst hl
      simp [Ghost.take]
    · have := hx.holder l'
      rw [hlock] at this
      simp [Ghost.take, hl, Ne.symm hl, this]
  thread := hx.thread
  carried := hx.carried
  draft := hx.draft
  owed := hx.owed

/-- A leaf whose lock has just been taken. -/
lemma locked_take {cells : List (Cell V)} (hi : Inv x.mem x.hist x.ghost)
    (hc : x.ghost.now l = some ⟨cells, false⟩) (hh : x.ghost.holder l = none) (s : List Bool) :
    ∃ S : Scene V, S.Fresh ∧ Locked t l S
      ⟨{ x.mem.setLatch l chainLocked with spurious := s }, x.hist, x.ghost.take l t⟩ := by
  refine ⟨⟨cells, x.ghost.counted l, [], (x.mem.setLatch l chainLocked).leaf l⟩,
    ⟨(hi.leafs.unlocked l _ hc rfl hh).2, rfl, hi.chains.nonempty _ le_rfl l _ hc,
      hi.chains.desc _ le_rfl l _ hc⟩, Function.update_self .., hc, rfl, fun p => ?_, rfl⟩
  simp only [List.not_mem_nil, iff_false]
  exact fun hp => hi.nodes.loose p l hp hh

/-- Taking a chain lock. -/
lemma wp_lock (hx : Holds t H x) (hlock : H.lock = none) (hp : Published l x)
    {Q : Bool → W V → Prop}
    (hdead : ∀ y, Rely t x y → (rg V).Ok live t y → Dead l y → Q false y)
    (htake : ∀ y S, Later x y → (rg V).Ok live t y → Holds t { H with lock := some l } y →
      Locked t l S y → S.Fresh → (∀ l v b, Drafted t l v b x.mem x.ghost →
        Drafted t l v b y.mem y.ghost ∧ y.ghost.counted l = x.ghost.counted l) → Q true y) :
    (rg V).wp live t (lock l) Q x := by
  refine RG.wp_iter (δ := ℕ) (fun _ (y : W V) => Rely t x y)
    (fun _ (y : W V) => y.mem.spurious.length) (fun _ y hy => RG.wp_intro fun hok => ?_)
    (Rely.refl t x)
  have hpy := hp.later hy.later
  have hxy := hx.rely hy
  by_cases hw : (y.mem.leaf l).chainLatch = 0 ∧ y.mem.spurious.headD false = false
  · have hexec : execChain (.casLatch l) y.mem =
        (true, { y.mem.setLatch l chainLocked with spurious := y.mem.spurious.tail }) := if_pos hw
    obtain ⟨⟨cells, _⟩, hc, rfl, hh⟩ := hok.inv.leaf_unlocked hw.1 hpy
    obtain ⟨S, hS, hlocked⟩ := locked_take (t := t) hok.inv hc hh y.mem.spurious.tail
    refine RG.wp_bind (wp_write _ (congrArg Prod.snd hexec) trivial
      (fun t' ht' => acquire_rely hok.inv hw.1 hpy ht' _) rfl
      (acquire_inv hok.inv hw.1 hpy (by rw [hxy.run]; simp) _) fun z hz hokz => ?_)
    rw [hexec]
    refine RG.wp_ret (htake z S ?_ hokz ((hxy.take hlock _).rely hz.1) (hlocked.rely hz.1) hS
      fun l' v b hd => ?_)
    · have htaken : Later y ⟨{ y.mem.setLatch l chainLocked with
          spurious := y.mem.spurious.tail }, y.hist, y.ghost.take l t⟩ := { Later.refl y with }
      exact hy.later.trans (htaken.trans hz.1.later)
    · have hd' := hd.rely hy
      have hne : l' ≠ l := hok.inv.draft_ne hd'.draft hpy
      have hleaf : (y.mem.setLatch l chainLocked).leaf l' = y.mem.leaf l' :=
        ChainMem.setLatch_ne hne
      have htaken : Drafted t l' v b { y.mem.setLatch l chainLocked with
          spurious := y.mem.spurious.tail } (y.ghost.take l t) := by
        refine ⟨hd'.draft, ?_, ?_, ?_, ?_, ?_⟩ <;> rw [hleaf]
        exacts [hd'.owner, hd'.head, hd'.latch, hd'.slotsInit, hd'.node]
      exact ⟨htaken.rely hz.1,
        (hz.1.draftLeaf l' htaken.draft).2.trans (hy.draftLeaf l' hd.draft).2⟩
  · have hexec : execChain (.casLatch l) y.mem =
        (false, { y.mem with spurious := y.mem.spurious.tail }) := if_neg hw
    refine RG.wp_bind (wp_write y.ghost (congrArg Prod.snd hexec) trivial
      (fun t' _ => spurious_rely _) rfl (spurious_inv hok.inv _) fun z hz hokz => ?_)
    rw [hexec]
    have hxz : Rely t x z := hy.trans ((spurious_rely _).trans hz.1)
    refine RG.wp_bind (wp_awaitFree (hx.rely hxz) hlock (hp.later hxz.later)
      fun u b hu hoku hdeadu hfree => ?_)
    cases b with
    | false => exact RG.wp_ret (hdead u (hxz.trans hu.1) hoku (hdeadu rfl))
    | true =>
      refine RG.wp_ret ⟨hxz.trans hu.1, fun hl => ?_⟩
      have hzy := hz.2 hl
      have hlatch := hfree rfl hl
      rw [hu.2 hl, hzy]
      rw [hzy] at hlatch
      show y.mem.spurious.tail.length < y.mem.spurious.length
      cases hs : y.mem.spurious with
      | nil => exact absurd ⟨hlatch, by rw [hs]; rfl⟩ hw
      | cons b s => simp

end Locks

/-! ## Chains whose lock is held -/

section Held

lemma Holds.since_le (hi : Inv x.mem x.hist x.ghost) (hx : Holds t H x) :
    H.since ≤ x.ghost.time.now := by
  have := hi.calls.time.since_le _ _ (hi.calls.invoked t _ hx.run)
  rwa [hx.since] at this

/-- The nodes of a chain whose lock is held have been seen. -/
lemma Locked.seen_mem (hi : Inv x.mem x.hist x.ghost) (hx : Holds t H x) (hl : Locked t l S x)
    (hd : d ∈ S.cells) : Seen H.since l (fun c => d ∈ c.cells) x :=
  (hl.seen (hx.since_le hi)).mono fun c hc => by rw [hc]; exact hd

lemma Locked.linked (hi : Inv x.mem x.hist x.ghost) (hl : Locked t l S x) :
    Linked x.mem.node (x.mem.leaf l).head S.cells :=
  hi.chains.linked l _ hl.now

lemma Locked.desc (hi : Inv x.mem x.hist x.ghost) (hl : Locked t l S x) : Desc S.cells :=
  hi.chains.desc _ le_rfl l _ hl.now

lemma Locked.whose (hi : Inv x.mem x.hist x.ghost) (hl : Locked t l S x) (hd : d ∈ S.cells) :
    x.ghost.whose d.addr = .linked l :=
  (hi.chains.linked_iff d.addr l).mpr ⟨_, hl.now, d, hd, rfl⟩

lemma Locked.matches (hi : Inv x.mem x.hist x.ghost) (hl : Locked t l S x) (hd : d ∈ S.cells) :
    Matches (x.mem.node d.addr) d :=
  hi.chains.matching _ le_rfl l _ hl.now d hd

/-- Cells of a chain at one address are the same. -/
lemma Locked.addr_inj (hi : Inv x.mem x.hist x.ghost) (hl : Locked t l S x) {e : Cell V}
    (hd : d ∈ S.cells) (he : e ∈ S.cells) (ha : d.addr = e.addr) : d = e :=
  (hl.matches hi hd).unique (ha ▸ hl.matches hi he) ha

lemma Locked.addr_ok (hi : Inv x.mem x.hist x.ghost) (hl : Locked t l S x) (hd : d ∈ S.cells) :
    d.addr ≠ 0 ∧ 8 ∣ d.addr := by
  have := hi.nodes.alloc d.addr (by rw [hl.whose hi hd]; simp)
  exact ⟨this.1, this.2.1⟩

lemma wp_head_locked (hl : Locked t l S x) {Q : ℕ → W V → Prop}
    (hQ : ∀ y, Rely t x y → (rg V).Ok live t y → Q (firstAddr S.cells) y) :
    (rg V).wp live t (on (.loadHead l)) Q x := by
  refine wp_loadHead hl.published fun y c hy hoky hc _ _ => ?_
  obtain rfl := Option.some.inj (hl.now.symm.trans hc)
  exact hQ y hy hoky

/-- The link word of a node of the chain. -/
lemma wp_loadNext_locked (hx : Holds t H x) (hl : Locked t l S x)
    (hc : S.cells = pre ++ d :: post) {Q : ℕ → W V → Prop}
    (hQ : ∀ y w, Rely t x y → (rg V).Ok live t y → w = (y.mem.node d.addr).next →
      linkOf w = firstAddr post → Q w y) :
    (rg V).wp live t (on (.loadNext d.addr)) Q x := by
  have hd : d ∈ S.cells := by simp [hc]
  refine RG.wp_intro fun hok => wp_read (fun _ => rfl)
    (hx.reach (hl.seen_mem hok.inv hx hd)) fun y hy hoky => ?_
  have hlink := hl.linked hok.inv
  rw [hc] at hlink
  refine hQ y _ hy.1 hoky ?_ hlink.after.first
  have hnode := (hy.1.heldNode l hl.holder d.addr (.inl (hl.whose hok.inv hd))).2
  show (x.mem.node d.addr).next = (y.mem.node d.addr).next
  rw [hnode]

lemma wp_next_locked (hx : Holds t H x) (hl : Locked t l S x) (hc : S.cells = pre ++ d :: post)
    {Q : ℕ → W V → Prop}
    (hQ : ∀ y, Rely t x y → (rg V).Ok live t y → Q (firstAddr post) y) :
    (rg V).wp live t (next d.addr) Q x := by
  refine RG.wp_bind (wp_loadNext_locked hx hl hc fun y w hy hoky _ hw => RG.wp_ret ?_)
  rw [hw]
  exact hQ y hy hoky

lemma wp_tombstone_locked (hx : Holds t H x) (hl : Locked t l S x) (hd : d ∈ S.cells)
    {Q : Bool → W V → Prop}
    (hQ : ∀ y, Rely t x y → (rg V).Ok live t y → Q d.value.isNone y) :
    (rg V).wp live t (isTombstone d.addr) Q x :=
  RG.wp_intro fun hok => wp_isTombstone hx (hl.seen_mem hok.inv hx hd) hQ

lemma wp_version_locked (hx : Holds t H x) (hl : Locked t l S x) (hd : d ∈ S.cells)
    {Q : ℕ → W V → Prop}
    (hQ : ∀ y, Rely t x y → (rg V).Ok live t y → Q d.version y) :
    (rg V).wp live t (on (.readVersion d.addr)) Q x :=
  RG.wp_intro fun hok => wp_readVersion hx (hl.seen_mem hok.inv hx hd) hQ

/-- The address of the last cell, or null. -/
def lastAddr (cs : List (Cell V)) : ℕ :=
  (cs.getLast?.map Cell.addr).getD 0

@[simp] lemma lastAddr_nil : lastAddr ([] : List (Cell V)) = 0 := rfl

@[simp] lemma lastAddr_concat (cs : List (Cell V)) (d : Cell V) :
    lastAddr (cs ++ [d]) = d.addr := by
  simp [lastAddr]

/-- The number of a node in a walk from newer to older ones. -/
def rank (cur : ℕ) (x : W V) : ℕ :=
  if cur = 0 then 0 else (x.mem.node cur).version + 1

lemma rank_cell (hi : Inv x.mem x.hist x.ghost) (hl : Locked t l S x) (hd : d ∈ S.cells) :
    rank d.addr x = d.version + 1 := by
  rw [rank, if_neg (hl.addr_ok hi hd).1, (hl.matches hi hd).version]

/-- A walk goes down. -/
lemma rank_first_lt (hi : Inv x.mem x.hist x.ghost) (hl : Locked t l S x)
    (hc : S.cells = pre ++ d :: post) : rank (firstAddr post) x < d.version + 1 := by
  cases post with
  | nil => simp [rank]
  | cons e post =>
    have hdesc := hl.desc hi
    rw [hc] at hdesc
    have := hdesc.lt_of_mem_post (c := e) (by simp)
    rw [firstAddr_cons, rank_cell hi hl (by simp [hc])]
    omega

/-- Where a version belongs in a chain. -/
lemma wp_position (hx : Holds t H x) (hl : Locked t l S x) (version : ℕ)
    {Q : ℕ × ℕ → W V → Prop}
    (hQ : ∀ y pre post, Rely t x y → (rg V).Ok live t y → S.cells = pre ++ post →
      (∀ d ∈ pre, version < d.version) → (∀ d ∈ post, d.version ≤ version) →
      Q (lastAddr pre, firstAddr post) y) :
    (rg V).wp live t (position version (firstAddr S.cells)) Q x := by
  refine RG.wp_iter (δ := ℕ)
    (fun s (y : W V) => Rely t x y ∧ ∃ pre post, S.cells = pre ++ post ∧ s.1 = lastAddr pre ∧
      s.2 = firstAddr post ∧ ∀ d ∈ pre, version < d.version)
    (fun s y => rank s.2 y) ?_ ⟨Rely.refl t x, [], S.cells, rfl, rfl, rfl, by simp⟩
  rintro ⟨prev, cur⟩ y ⟨hy, pre, post, hc, rfl, rfl, hpre⟩
  refine RG.wp_intro fun hok => ?_
  have hxy := hx.rely hy
  have hly := hl.rely hy
  cases post with
  | nil => exact RG.wp_ret (hQ y pre [] hy hok hc hpre (by simp))
  | cons d post =>
    have hd : d ∈ S.cells := by simp [hc]
    rw [firstAddr_cons, if_neg (hly.addr_ok hok.inv hd).1]
    refine RG.wp_bind (wp_version_locked hxy hly hd fun z hz hokz => ?_)
    by_cases hlt : version < d.version
    · rw [if_pos hlt]
      refine RG.wp_bind (wp_next_locked (hxy.rely hz) (hly.rely hz) hc fun u hu hoku => ?_)
      refine RG.wp_ret ⟨⟨hy.trans (hz.trans hu), pre ++ [d], post, by simp [hc], by simp, rfl, ?_⟩,
        fun _ => ?_⟩
      · intro e he
        rcases List.mem_append.mp he with he | he
        · exact hpre e he
        · rw [List.mem_singleton.mp he]
          exact hlt
      · rw [rank_cell hok.inv hly hd]
        exact rank_first_lt hoku.inv ((hly.rely hz).rely hu) hc
    · rw [if_neg hlt]
      refine RG.wp_ret (hQ z pre (d :: post) (hy.trans hz) hokz hc hpre fun e he => ?_)
      rcases List.mem_cons.mp he with rfl | he
      · omega
      · have hdesc := hly.desc hok.inv
        rw [hc] at hdesc
        have := hdesc.lt_of_mem_post he
        omega

end Held

end Versioned

end Artmap
