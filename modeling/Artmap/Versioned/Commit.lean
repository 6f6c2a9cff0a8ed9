import Artmap.Versioned.Fresh

/-!
# The steps at which an operation takes effect

The chain of a leaf changes at one store: of its head, of the link of one of its nodes, or of the
word of its lock, which kills it; or the leaf is published.  At this store the call of the thread
is placed, and a new state begins (`Ghost.commit`).  Nodes that are in the new chain are linked
from then on, and nodes that have left it are loose.
-/

namespace Artmap

namespace Versioned

variable {V : Type}

/-- Where some cells lie. -/
def addrs (cs : List (Cell V)) : List ℕ :=
  cs.map Cell.addr

lemma mem_addrs {cs : List (Cell V)} {p : ℕ} : p ∈ addrs cs ↔ ∃ d ∈ cs, d.addr = p :=
  List.mem_map

/-- A node is one cell. -/
lemma Matches.unique {n : VersionNode V} {d e : Cell V} (hd : Matches n d) (he : Matches n e)
    (ha : d.addr = e.addr) : d = e := by
  cases d
  cases e
  cases ha
  cases hd.version.symm.trans he.version
  cases hd.value.symm.trans he.value
  rfl

/-- A new state, in which the chain of leaf `l` is `c`, and to which the call of thread `t` has
led. -/
def Ghost.commit (g : Ghost V) (t l : ℕ) (c : ChainState V) (id : ℕ) (op : Op V) (r : Ret V) :
    Ghost V :=
  { g with
    run := Function.update g.run t (some ⟨id, op, some r⟩)
    time := g.time.tick.place (g.time.now + 1) ⟨id, op, r⟩
    past := Function.update g.past (g.time.now + 1) (Function.update g.now l (some c))
    whose := fun p =>
      if p ∈ addrs c.cells then .linked l
      else if g.whose p = .linked l then .loose l
      else g.whose p }

variable {m m' : ChainMem V} {h : List (Event (Op V) (Ret V))} {g : Ghost V}
  {t t' l l' p id i : ℕ} {c c' : ChainState V} {op : Op V} {r : Ret V} {cells : List (Cell V)}

section Commit

@[simp] lemma commit_time_now : (g.commit t l c id op r).time.now = g.time.now + 1 := rfl

@[simp] lemma commit_now : (g.commit t l c id op r).now = Function.update g.now l (some c) := by
  unfold Ghost.now
  rw [commit_time_now]
  simp [Ghost.commit, Ghost.now]

lemma commit_past (hi : i ≤ g.time.now) : (g.commit t l c id op r).past i = g.past i :=
  Function.update_of_ne (by omega) _ _

lemma commit_past_now :
    (g.commit t l c id op r).past (g.time.now + 1) = Function.update g.now l (some c) :=
  commit_now

lemma commit_whose_mem (hp : p ∈ addrs c.cells) :
    (g.commit t l c id op r).whose p = .linked l :=
  if_pos hp

lemma commit_whose_left (hp : p ∉ addrs c.cells) (hl : g.whose p = .linked l) :
    (g.commit t l c id op r).whose p = .loose l :=
  (if_neg hp).trans (if_pos hl)

lemma commit_whose_other (hp : p ∉ addrs c.cells) (hl : g.whose p ≠ .linked l) :
    (g.commit t l c id op r).whose p = g.whose p :=
  (if_neg hp).trans (if_neg hl)

/-- The chain at a moment is one of the old ones, or the new one. -/
lemma commit_cases (hi : i ≤ g.time.now + 1)
    (hl : (g.commit t l c id op r).past i l' = some c') :
    (i ≤ g.time.now ∧ g.past i l' = some c') ∨
      i = g.time.now + 1 ∧ (l' = l ∧ c' = c ∨ l' ≠ l ∧ g.now l' = some c') := by
  rcases Nat.lt_or_eq_of_le hi with hlt | rfl
  · rw [commit_past (Nat.le_of_lt_succ hlt)] at hl
    exact .inl ⟨Nat.le_of_lt_succ hlt, hl⟩
  · refine .inr ⟨rfl, ?_⟩
    rw [commit_past_now] at hl
    by_cases hll : l' = l
    · subst hll
      exact .inl ⟨rfl, by simpa [eq_comm] using hl⟩
    · exact .inr ⟨hll, by simpa [hll] using hl⟩

/-- The new chain is made of nodes of the old one and of nodes of thread `t`; no node that is not
in both has been written. -/
structure Renews (m m' : ChainMem V) (g : Ghost V) (t l : ℕ) (cs : List (Cell V)) : Prop where
  nonempty : cs ≠ []
  desc : Desc cs
  linked : Linked m'.node (m'.leaf l).head cs
  matching : ∀ d ∈ cs, Matches (m.node d.addr) d
  source : ∀ d ∈ cs, g.whose d.addr = .linked l ∨ g.whose d.addr = .thread t
  node : ∀ p, m'.node p = m.node p ∨ g.whose p = .linked l ∧ p ∈ addrs cs
  version : ∀ p, (m'.node p).version = (m.node p).version
  value : ∀ p, (m'.node p).value = (m.node p).value
  flags : ∀ p flag, hasFlag (m'.node p).next flag = hasFlag (m.node p).next flag
  leaf : ∀ l', l' ≠ l → m'.leaf l' = m.leaf l'
  unlinked : m'.unlinked = m.unlinked

namespace Renews

lemma addr_linked (hr : Renews m m' g t l cells) (hp : p ∈ addrs cells) :
    g.whose p = .linked l ∨ g.whose p = .thread t := by
  obtain ⟨d, hd, rfl⟩ := mem_addrs.mp hp
  exact hr.source d hd

lemma node_eq (hr : Renews m m' g t l cells) (hp : g.whose p ≠ .linked l) :
    m'.node p = m.node p :=
  (hr.node p).resolve_right fun h => hp h.1

lemma matched (hr : Renews m m' g t l cells) {d : Cell V} (hd : Matches (m.node p) d) :
    Matches (m'.node p) d :=
  ⟨(hr.version p).trans hd.version, (hr.value p).trans hd.value,
    (hr.flags p tombstoneFlag).trans hd.tombstone⟩

/-- Whose a node is that is neither in the old chain nor in the new one. -/
lemma whose_eq (hr : Renews m m' g t l c.cells) (h1 : g.whose p ≠ .linked l)
    (h2 : g.whose p ≠ .thread t) : (g.commit t l c id op r).whose p = g.whose p :=
  commit_whose_other (fun hp => (hr.addr_linked hp).elim h1 h2) h1

lemma home (hr : Renews m m' g t l c.cells) (hp : (g.whose p).home = some l') :
    ((g.commit t l c id op r).whose p).home = some l' := by
  by_cases hin : p ∈ addrs c.cells
  · rw [commit_whose_mem hin]
    rcases hr.addr_linked hin with hw | hw
    · rwa [hw] at hp
    · rw [hw] at hp
      simp [Owner.home] at hp
  · by_cases hw : g.whose p = .linked l
    · rw [commit_whose_left hin hw]
      rwa [hw] at hp
    · rwa [commit_whose_other hin hw]

/-- A node that is in a chain, or was, is so from before, or is a new node of leaf `l`. -/
lemma of_home (hr : Renews m m' g t l c.cells)
    (hp : ((g.commit t l c id op r).whose p).home = some l') :
    (g.whose p).home = some l' ∨ l' = l ∧ g.whose p = .thread t ∧ p ∈ addrs c.cells := by
  by_cases hin : p ∈ addrs c.cells
  · rw [commit_whose_mem hin] at hp
    obtain rfl : l = l' := Option.some.inj hp
    rcases hr.addr_linked hin with hw | hw
    · left
      rw [hw]
      rfl
    · exact .inr ⟨rfl, hw, hin⟩
  · left
    by_cases hw : g.whose p = .linked l
    · rw [commit_whose_left hin hw] at hp
      rw [hw]
      exact hp
    · rwa [commit_whose_other hin hw] at hp

/-- What is neither linked nor loose is as before. -/
lemma whose_iff (hr : Renews m m' g t l c.cells) {o : Owner} (h1 : ∀ l, o ≠ .linked l)
    (h2 : ∀ l, o ≠ .loose l) (h3 : o ≠ .thread t) :
    (g.commit t l c id op r).whose p = o ↔ g.whose p = o := by
  by_cases hin : p ∈ addrs c.cells
  · rw [commit_whose_mem hin]
    rcases hr.addr_linked hin with hw | hw
    · rw [hw]
    · rw [hw]
      simp [(h1 l).symm, h3.symm]
  · by_cases hw : g.whose p = .linked l
    · rw [commit_whose_left hin hw, hw]
      simp [(h1 l).symm, (h2 l).symm]
    · rw [commit_whose_other hin hw]

lemma linked_other (hr : Renews m m' g t l c.cells) (hl : l' ≠ l) :
    (g.commit t l c id op r).whose p = .linked l' ↔ g.whose p = .linked l' := by
  by_cases hin : p ∈ addrs c.cells
  · rw [commit_whose_mem hin]
    rcases hr.addr_linked hin with hw | hw <;> simp [hw, hl.symm]
  · by_cases hw : g.whose p = .linked l
    · rw [commit_whose_left hin hw, hw]
      simp [hl.symm]
    · rw [commit_whose_other hin hw]

lemma loose_other (hr : Renews m m' g t l c.cells) (hl : l' ≠ l) :
    (g.commit t l c id op r).whose p = .loose l' ↔ g.whose p = .loose l' := by
  by_cases hin : p ∈ addrs c.cells
  · rw [commit_whose_mem hin]
    rcases hr.addr_linked hin with hw | hw <;> simp [hw]
  · by_cases hw : g.whose p = .linked l
    · rw [commit_whose_left hin hw, hw]
      simp [hl.symm]
    · rw [commit_whose_other hin hw]

end Renews

/-- The chains after a commit. -/
lemma ChainsOk.commit (hc : ChainsOk m g) (hr : Renews m m' g t l c.cells) :
    ChainsOk m' (g.commit t l c id op r) := by
  -- A node of a chain of another leaf has not been written.
  have hother : ∀ {l' c' d}, l' ≠ l → g.now l' = some c' → d ∈ c'.cells →
      m'.node d.addr = m.node d.addr := by
    intro l' c' d hl' hn hd
    refine hr.node_eq ?_
    rw [(hc.linked_iff d.addr l').mpr ⟨c', hn, d, hd, rfl⟩]
    simpa using hl'
  -- In the new chain, a link leads to the successor.
  have hnew : ∀ d ∈ c.cells, ∃ pre post, c.cells = pre ++ d :: post ∧
      linkOf (m'.node d.addr).next = firstAddr post := by
    intro d hd
    obtain ⟨pre, post, he⟩ := List.append_of_mem hd
    have hlinked := hr.linked
    rw [he] at hlinked
    exact ⟨pre, post, he, hlinked.after.first⟩
  refine
    { linked := fun l' c' hn => ?_, nonempty := fun i hi l' c' hn => ?_,
      desc := fun i hi l' c' hn => ?_, matching := fun i hi l' c' hn d hd => ?_,
      home := fun i hi l' c' hn d hd => ?_, hindsight := fun i hi l' c' hn d hd => ?_,
      linked_iff := fun p l' => ?_ }
  · rw [commit_now] at hn
    by_cases hll : l' = l
    · subst hll
      obtain rfl : c = c' := by simpa using hn
      exact hr.linked
    · have hn' : g.now l' = some c' := by simpa [hll] using hn
      rw [hr.leaf l' hll]
      exact (hc.linked l' c' hn').congr fun d hd => by rw [hother hll hn' hd]
  · rcases commit_cases hi hn with ⟨hi, hn⟩ | ⟨-, ⟨-, rfl⟩ | ⟨-, hn⟩⟩
    · exact hc.nonempty i hi l' c' hn
    · exact hr.nonempty
    · exact hc.nonempty _ le_rfl l' c' hn
  · rcases commit_cases hi hn with ⟨hi, hn⟩ | ⟨-, ⟨-, rfl⟩ | ⟨-, hn⟩⟩
    · exact hc.desc i hi l' c' hn
    · exact hr.desc
    · exact hc.desc _ le_rfl l' c' hn
  · refine hr.matched ?_
    rcases commit_cases hi hn with ⟨hi, hn⟩ | ⟨-, ⟨-, rfl⟩ | ⟨-, hn⟩⟩
    · exact hc.matching i hi l' c' hn d hd
    · exact hr.matching d hd
    · exact hc.matching _ le_rfl l' c' hn d hd
  · rcases commit_cases hi hn with ⟨hi, hn⟩ | ⟨-, ⟨rfl, rfl⟩ | ⟨-, hn⟩⟩
    · exact hr.home (hc.home i hi l' c' hn d hd)
    · rw [commit_whose_mem (mem_addrs.mpr ⟨d, hd, rfl⟩)]
      rfl
    · exact hr.home (hc.home _ le_rfl l' c' hn d hd)
  · rcases commit_cases hi hn with ⟨hi, hn⟩ | ⟨rfl, ⟨rfl, rfl⟩ | ⟨hll, hn⟩⟩
    · rcases hr.node d.addr with hsame | ⟨hw, hin⟩
      · obtain ⟨j, hij, hj, c₁, pre, post, hc₁, he, hlink⟩ := hc.hindsight i hi l' c' hn d hd
        refine ⟨j, hij, hj.trans (Nat.le_succ _), c₁, pre, post, ?_, he, ?_⟩
        · rw [commit_past hj]
          exact hc₁
        · rw [hsame]
          exact hlink
      · obtain rfl : l = l' := by
          have := hc.home i hi l' c' hn d hd
          rw [hw] at this
          exact Option.some.inj this
        obtain ⟨e, he, hea⟩ := mem_addrs.mp hin
        obtain rfl : e = d :=
          (hea ▸ hr.matching e he).unique (hc.matching i hi l c' hn d hd) hea
        obtain ⟨pre, post, hcs, hlink⟩ := hnew e he
        refine ⟨g.time.now + 1, hi.trans (Nat.le_succ _), le_rfl, c, pre, post, ?_, hcs, hlink⟩
        rw [commit_past_now]
        simp
    · obtain ⟨pre, post, hcs, hlink⟩ := hnew d hd
      exact ⟨_, le_rfl, hi, c', pre, post, hn, hcs, hlink⟩
    · obtain ⟨j, hij, hj, c₁, pre, post, hc₁, he, hlink⟩ :=
        hc.hindsight _ le_rfl l' c' hn d hd
      obtain rfl : j = g.time.now := le_antisymm hj hij
      refine ⟨_, le_rfl, hi, c₁, pre, post, ?_, he, ?_⟩
      · rw [commit_past_now]
        simpa [hll, Ghost.now] using hc₁
      · rw [hother hll hn hd]
        exact hlink
  · rw [commit_now]
    by_cases hll : l' = l
    · subst hll
      simp only [Function.update_self, Option.some.injEq, exists_eq_left']
      rw [← mem_addrs]
      by_cases hin : p ∈ addrs c.cells
      · simp [commit_whose_mem hin, hin]
      · simp only [hin, iff_false]
        by_cases hw : g.whose p = .linked l'
        · rw [commit_whose_left hin hw]
          simp
        · rwa [commit_whose_other hin hw]
    · rw [hr.linked_other hll, hc.linked_iff p l']
      simp [hll]

/-! ## The ledger -/

/-- The node `n` at `p` is ready to be linked into the chain of a leaf. -/
structure Ready (leaf : VersionedLeaf) (p : ℕ) (n : VersionNode V) : Prop where
  unmarked : hasFlag n.next supersededFlag = false
  inline_iff : hasFlag n.next inlineFlag = true ↔ p = leaf.slot0 ∨ p = leaf.slot1
  used : p = leaf.slot1 → leaf.slotsInit &&& slotBit1 ≠ 0

/-- A commit changes no more of a memory than links, and one word of the leaf. -/
structure Keeps (m m' : ChainMem V) (l : ℕ) : Prop where
  nextAddr : m'.nextAddr = m.nextAddr
  nextLeaf : m'.nextLeaf = m.nextLeaf
  retired : m'.retired = m.retired
  slot0 : (m'.leaf l).slot0 = (m.leaf l).slot0
  slot1 : (m'.leaf l).slot1 = (m.leaf l).slot1
  slotsInit : (m'.leaf l).slotsInit = (m.leaf l).slotsInit

lemma NodesOk.commit (hn : NodesOk m g) (hr : Renews m m' g t l c.cells) (hk : Keeps m m' l)
    (hready : ∀ p ∈ addrs c.cells, g.whose p = .thread t → Ready (m.leaf l) p (m.node p))
    (hone : ∀ l', g.holder l' = some t → l' = l)
    (hloose : g.holder l ≠ none ∨ ∀ p, g.whose p = .linked l → p ∈ addrs c.cells)
    (hslot0 : (g.now l).isSome ∨
      (m.leaf l).slot0 ∈ addrs c.cells ∧ (m.leaf l).slotsInit &&& slotBit0 ≠ 0) :
    NodesOk m' (g.commit t l c id op r) := by
  have hs0 : ∀ l', (m'.leaf l').slot0 = (m.leaf l').slot0 := by
    intro l'
    by_cases hl : l' = l
    · rw [hl, hk.slot0]
    · rw [hr.leaf l' hl]
  have hs1 : ∀ l', (m'.leaf l').slot1 = (m.leaf l').slot1 := by
    intro l'
    by_cases hl : l' = l
    · rw [hl, hk.slot1]
    · rw [hr.leaf l' hl]
  have hsi : ∀ l', (m'.leaf l').slotsInit = (m.leaf l').slotsInit := by
    intro l'
    by_cases hl : l' = l
    · rw [hl, hk.slotsInit]
    · rw [hr.leaf l' hl]
  have hmarked : ∀ {p}, ((g.commit t l c id op r).whose p).isMarked = true →
      (g.commit t l c id op r).whose p = g.whose p := by
    intro p hp
    by_cases hin : p ∈ addrs c.cells
    · rw [commit_whose_mem hin] at hp
      simp [Owner.isMarked] at hp
    · by_cases hw : g.whose p = .linked l
      · rw [commit_whose_left hin hw] at hp
        simp [Owner.isMarked] at hp
      · exact commit_whose_other hin hw
  -- A node that is linked or loose was so before, or is ready.
  have hchain : ∀ {p l'}, (g.commit t l c id op r).whose p = .linked l' ∨
      (g.commit t l c id op r).whose p = .loose l' →
      (g.whose p = .linked l' ∨ g.whose p = .loose l') ∨ p ∈ addrs c.cells ∧
        Ready (m.leaf l) p (m.node p) := by
    intro p l' hp
    by_cases hin : p ∈ addrs c.cells
    · rw [commit_whose_mem hin] at hp
      rcases hr.addr_linked hin with hw | hw
      · left
        rw [hw]
        simpa using hp
      · exact .inr ⟨hin, hready p hin hw⟩
    · left
      by_cases hw : g.whose p = .linked l
      · rw [commit_whose_left hin hw] at hp
        rw [hw]
        simpa using hp
      · rwa [commit_whose_other hin hw] at hp
  refine
    { aligned := by rw [hk.nextAddr]; exact hn.aligned, alloc := fun p hp => ?_,
      marked := fun p hp => ?_, unmarked := fun p l' hp => ?_, loose := fun p l' hp => ?_,
      retired := ?_, boxed := fun p l' hp => ?_, left := fun p l' hp => ?_,
      inline_iff := fun p l' hp => ?_, homed := fun p l' hp => ?_, slots := ?_,
      slot0 := fun l' c' hc => ?_, slot1 := fun l' hl' => ?_, spare := fun l' hl' hw => ?_,
      used := fun l' hl' hw => ?_ }
  · rw [hk.nextAddr]
    refine hn.alloc p fun he => hp ?_
    rwa [hr.whose_iff (by simp) (by simp) (by simp)]
  · rw [hr.flags]
    rw [hmarked hp] at hp
    exact hn.marked p hp
  · rw [hr.flags]
    rcases hchain hp with hp | ⟨-, hp⟩
    · exact hn.unmarked p l' hp
    · exact hp.unmarked
  · by_cases hll : l' = l
    · subst hll
      refine hloose.elim (fun hh => hh) fun hall => ?_
      by_cases hin : p ∈ addrs c.cells
      · rw [commit_whose_mem hin] at hp
        simp at hp
      · have hw : g.whose p ≠ .linked l' := fun hw => hin (hall p hw)
        rw [commit_whose_other hin hw] at hp
        exact hn.loose p l' hp
    · rw [hr.loose_other hll] at hp
      exact hn.loose p l' hp
  · rw [hk.retired]
    refine ⟨hn.retired.1, fun p => (hn.retired.2 p).trans (exists_congr fun l' => ?_)⟩
    exact (hr.whose_iff (by simp) (by simp) (by simp)).symm
  · rw [hr.flags]
    exact hn.boxed p l' ((hr.whose_iff (by simp) (by simp) (by simp)).mp hp)
  · rw [hr.flags]
    exact hn.left p l' ((hr.whose_iff (by simp) (by simp) (by simp)).mp hp)
  · rw [hr.flags, hs0, hs1]
    rcases hr.of_home hp with hp | ⟨rfl, hw, hin⟩
    · exact hn.inline_iff p l' hp
    · exact (hready p hin hw).inline_iff
  · rw [commit_now]
    by_cases hll : l' = l
    · subst hll
      simp
    · simp only [Function.update_of_ne hll]
      rcases hr.of_home hp with hp | ⟨hll', -⟩
      · exact hn.homed p l' hp
      · exact absurd hll' hll
  · rw [hk.nextLeaf, hk.nextAddr]
    simpa [hs0, hs1] using hn.slots
  · rw [hs0, hsi]
    rw [commit_now] at hc
    by_cases hll : l' = l
    · subst hll
      rcases hslot0 with hs | ⟨hin, hbit⟩
      · obtain ⟨c₁, hc₁⟩ := Option.isSome_iff_exists.mp hs
        exact ⟨hr.home (hn.slot0 l' c₁ hc₁).1, (hn.slot0 l' c₁ hc₁).2⟩
      · rw [commit_whose_mem hin]
        exact ⟨rfl, hbit⟩
    · have hc' : g.now l' = some c' := by simpa [hll] using hc
      exact ⟨hr.home (hn.slot0 l' c' hc').1, (hn.slot0 l' c' hc').2⟩
  · rw [hk.nextLeaf] at hl'
    rw [hs1]
    rcases hn.slot1 l' hl' with hs | ⟨t', hh, hs⟩ | hs
    · exact .inl ((hr.whose_iff (by simp) (by simp) (by simp)).mpr hs)
    · by_cases ht : t' = t
      · subst ht
        obtain rfl := hone l' hh
        by_cases hin : (m.leaf l').slot1 ∈ addrs c.cells
        · rw [commit_whose_mem hin]
          exact .inr (.inr rfl)
        · rw [commit_whose_other hin (by rw [hs]; simp)]
          exact .inr (.inl ⟨t', hh, hs⟩)
      · exact .inr (.inl ⟨t', hh, (hr.whose_iff (by simp) (by simp) (by simpa using ht)).mpr hs⟩)
    · exact .inr (.inr (hr.home hs))
  · rw [hk.nextLeaf] at hl'
    rw [hs1] at hw
    rw [hsi]
    exact hn.spare l' hl' ((hr.whose_iff (by simp) (by simp) (by simp)).mp hw)
  · rw [hk.nextLeaf] at hl'
    rw [hs1] at hw
    rw [hsi]
    rcases hr.of_home hw with hw | ⟨rfl, hw, hin⟩
    · exact hn.used l' hl' hw
    · exact (hready _ hin hw).used rfl

/-! ## Calls -/

lemma seen_update (p : ℕ → Option (ChainState V)) (l : ℕ) (c : ChainState V) :
    seen (Function.update p l (some c)) = Function.update (seen p) l (some c.seen) := by
  funext l'
  by_cases hl : l' = l
  · subst hl
    simp [seen]
  · simp [seen, hl]

/-- The call of thread `t` is placed. -/
lemma commit_calls
    (hc : Timeline.Calls (spec V) h (fun i => seen (g.past i)) g.time g.run)
    (hcall : g.run t = some ⟨id, op, none⟩)
    (hstep : Step (seen g.now) op r (Function.update (seen g.now) l (some c.seen))) :
    Timeline.Calls (spec V) h (fun i => seen ((g.commit t l c id op r).past i))
      (g.commit t l c id op r).time (g.commit t l c id op r).run := by
  refine hc.change hcall (fun i hi => ?_) ?_
  · rw [commit_past hi]
  · show Step (seen g.now) op r (seen ((g.commit t l c id op r).past (g.time.now + 1)))
    rw [commit_past_now, seen_update]
    exact hstep

lemma Inv.idle_commit (hi : Inv m h g) (hr : Renews m m' g t l c.cells)
    (ht : (g.commit t l c id op r).run t' = none) : Idle (g.commit t l c id op r) t' := by
  have hne : t' ≠ t := by
    rintro rfl
    simp [Ghost.commit] at ht
  have hidle := hi.idle t' (by simpa [Ghost.commit, hne] using ht)
  refine { hidle with thread := fun p hp => ?_, carried := fun p l' hp => ?_ }
  · exact hidle.thread p ((hr.whose_iff (by simp) (by simp) (by simpa using hne)).mp hp)
  · exact hidle.carried p l' ((hr.whose_iff (by simp) (by simp) (by simp)).mp hp)

/-! ## The other threads -/

lemma commit_rely (hc : ChainsOk m g) (hr : Renews m m' g t l c.cells) (ht : t' ≠ t)
    (hold : ∀ c', g.now l = some c' → c'.dead = false) (hheld : g.holder l ≠ some t')
    (hdraft : g.draft l ≠ some t') :
    Rely t' ⟨m, h, g⟩ ⟨m', h, g.commit t l c id op r⟩ := by
  have hiff : ∀ {p o}, (∀ l, o ≠ .linked l) → (∀ l, o ≠ .loose l) → o ≠ .thread t →
      ((g.commit t l c id op r).whose p = o ↔ g.whose p = o) := fun h1 h2 h3 =>
    hr.whose_iff h1 h2 h3
  have hne : ∀ {l'}, g.holder l' = some t' → l' ≠ l := by
    rintro l' hl' rfl
    exact hheld hl'
  refine
    { later :=
        { now := Nat.le_succ _
          unlinked := fun l' hl' => (congrFun hr.unlinked l').trans hl'
          past := fun i hi => commit_past hi
          grows := fun l' c' hc' => ?_
          gone := fun p hp => ?_
          fresh := fun i hi hi' l' c' hc' d hd => ?_
          hist := fun _ hev => hev
          since := fun _ _ _ => rfl
          invoked := fun _ _ hid => .inl hid }
      run := Function.update_of_ne ht _ _
      since := fun _ _ => rfl
      holder := fun _ => Iff.rfl
      held := fun l' hl' => ⟨hr.leaf l' (hne hl'), ?_, rfl⟩
      heldNode := fun l' hl' p hp => ?_
      heldLoose := fun l' hl' p hp => (hr.loose_other (hne hl')).mp hp
      thread := fun p => hiff (by simp) (by simp) (by simpa using ht)
      threadNode := fun p hp => hr.node_eq (by rw [show g.whose p = _ from hp]; simp)
      carried := fun p l' => hiff (by simp) (by simp) (by simp)
      carriedNode := fun p l' hp => hr.node_eq (by rw [show g.whose p = _ from hp]; simp)
      draft := fun _ => Iff.rfl
      draftLeaf := fun l' hl' => ⟨hr.leaf l' ?_, rfl⟩
      owed := fun _ => Iff.rfl
      owedCount := fun _ _ => rfl }
  · by_cases hll : l' = l
    · subst hll
      exact ⟨c, by simp, fun hd => absurd hd (by simp [hold c' hc'])⟩
    · exact ⟨c', by simpa [hll] using hc', fun _ => rfl⟩
  · by_cases hin : p ∈ addrs c.cells
    · rcases hr.addr_linked hin with hw | hw <;>
        simp [show g.whose p = _ from hw, Owner.isGone] at hp
    · by_cases hw : g.whose p = .linked l
      · simp [hw, Owner.isGone] at hp
      · show ((g.commit t l c id op r).whose p).isGone = true
        rw [commit_whose_other hin hw]
        exact hp
  · obtain rfl : i = g.time.now + 1 := le_antisymm hi' hi
    rcases commit_cases le_rfl hc' with ⟨hle, -⟩ | ⟨-, ⟨rfl, rfl⟩ | ⟨hll, hn⟩⟩
    · omega
    · rcases hr.source d hd with hw | hw <;>
        simp [show g.whose d.addr = _ from hw, Owner.isGone]
    · have hw := (hc.linked_iff d.addr l').mpr ⟨c', hn, d, hd, rfl⟩
      simp [show g.whose d.addr = _ from hw, Owner.isGone]
  · simp [hne hl']
  · have hp' : g.whose p = .linked l' ∨ g.whose p = .loose l' := hp
    have h1 : g.whose p ≠ .linked l := by
      rcases hp' with hp' | hp' <;> simp [hp', hne hl']
    have h2 : g.whose p ≠ .thread t := by
      rcases hp' with hp' | hp' <;> simp [hp']
    exact ⟨hr.whose_eq h1 h2, hr.node_eq h1⟩
  · rintro rfl
    exact hdraft hl'

/-! ## The chain of a leaf is relinked -/

lemma LeafsOk.relink (hl : LeafsOk m g) (hheld : g.holder l = some t) {cs : List (Cell V)}
    (hlatch : ∀ l', (m'.leaf l').chainLatch = (m.leaf l').chainLatch)
    (hsame : m'.published = m.published ∧ m'.unlinked = m.unlinked ∧ m'.nextLeaf = m.nextLeaf ∧
      m'.len = m.len) :
    LeafsOk m' (g.commit t l ⟨cs, false⟩ id op r) := by
  obtain ⟨hpub, hunl, hnext, hlen⟩ := hsame
  obtain ⟨hlocked, c₀, hc₀, hd₀⟩ := hl.held l t hheld
  have hcase : ∀ {l' c'}, (g.commit t l ⟨cs, false⟩ id op r).now l' = some c' →
      (l' = l ∧ c' = ⟨cs, false⟩) ∨ l' ≠ l ∧ g.now l' = some c' := by
    intro l' c' hc'
    rw [commit_now] at hc'
    by_cases hll : l' = l
    · subst hll
      exact .inl ⟨rfl, by simpa [eq_comm] using hc'⟩
    · exact .inr ⟨hll, by simpa [hll] using hc'⟩
  refine
    { born := fun l' c' hc' => ?_, published := fun l' => ?_, unlinked := fun l' hu => ?_,
      dead := fun l' c' hc' hd => ?_, unlocked := fun l' c' hc' hd hh => ?_,
      held := fun l' t' hh => ?_, draft := fun l' t' hd => ?_, counts := hl.counts,
      owed := fun l' t' ho => ?_, settled := fun l' c' hc' hd ho => ?_,
      unborn := fun l' hn hd => ?_, len := by rw [hlen, hnext]; exact hl.len }
  · rw [hnext]
    rcases hcase hc' with ⟨rfl, -⟩ | ⟨-, hn⟩
    · exact hl.born l' c₀ hc₀
    · exact hl.born l' c' hn
  · rw [hpub, hl.published l', commit_now]
    by_cases hll : l' = l
    · subst hll
      simp [hc₀]
    · simp [hll]
  · rw [hunl] at hu
    obtain ⟨c', hc', hd⟩ := hl.unlinked l' hu
    have hll : l' ≠ l := by
      rintro rfl
      obtain rfl := Option.some.inj (hc₀.symm.trans hc')
      rw [hd₀] at hd
      simp at hd
    exact ⟨c', by simpa [hll] using hc', hd⟩
  · rcases hcase hc' with ⟨rfl, rfl⟩ | ⟨-, hn⟩
    · simp at hd
    · rw [hlatch]
      exact hl.dead l' c' hn hd
  · rcases hcase hc' with ⟨rfl, -⟩ | ⟨-, hn⟩
    · rw [show g.holder l' = none from hh] at hheld
      simp at hheld
    · rw [hlatch]
      exact hl.unlocked l' c' hn hd hh
  · rw [hlatch]
    obtain ⟨h1, c', hc', hd⟩ := hl.held l' t' hh
    refine ⟨h1, ?_⟩
    by_cases hll : l' = l
    · subst hll
      exact ⟨⟨cs, false⟩, by simp, rfl⟩
    · exact ⟨c', by simpa [hll] using hc', hd⟩
  · obtain ⟨h1, h2⟩ := hl.draft l' t' hd
    have hll : l' ≠ l := by
      rintro rfl
      rw [hc₀] at h1
      simp at h1
    exact ⟨by simpa [hll] using h1, by rwa [hnext]⟩
  · obtain ⟨c', hc', hd⟩ := hl.owed l' t' ho
    have hll : l' ≠ l := by
      rintro rfl
      obtain rfl := Option.some.inj (hc₀.symm.trans hc')
      rw [hd₀] at hd
      simp at hd
    exact ⟨c', by simpa [hll] using hc', hd⟩
  · rcases hcase hc' with ⟨-, rfl⟩ | ⟨-, hn⟩
    · simp at hd
    · exact hl.settled l' c' hn hd ho
  · have hll : l' ≠ l := by
      rintro rfl
      simp at hn
    exact hl.unborn l' (by simpa [hll] using hn) hd

/-- The holder of a lock changes the chain. -/
lemma relink_inv (hi : Inv m h g) (hcall : g.run t = some ⟨id, op, none⟩)
    (hheld : g.holder l = some t) (hone : ∀ l', g.holder l' = some t → l' = l)
    {cs : List (Cell V)} (hr : Renews m m' g t l cs) (hk : Keeps m m' l)
    (hready : ∀ p ∈ addrs cs, g.whose p = .thread t → Ready (m.leaf l) p (m.node p))
    (hlatch : ∀ l', (m'.leaf l').chainLatch = (m.leaf l').chainLatch)
    (hsame : m'.published = m.published ∧ m'.unlinked = m.unlinked ∧ m'.len = m.len)
    (hstep : Step (seen g.now) op r
      (Function.update (seen g.now) l (some ⟨versionsOf cs, false⟩))) :
    Inv m' h (g.commit t l ⟨cs, false⟩ id op r) where
  calls := commit_calls hi.calls hcall hstep
  chains := hi.chains.commit hr
  leafs := hi.leafs.relink hheld hlatch ⟨hsame.1, hsame.2.1, hk.nextLeaf, hsame.2.2⟩
  nodes := hi.nodes.commit hr hk hready hone (.inl (by simp [hheld]))
    (.inl (hi.held_published hheld))
  idle _ ht' := hi.idle_commit hr ht'

lemma relink_rely (hi : Inv m h g) (hheld : g.holder l = some t) (ht : t' ≠ t)
    {cs : List (Cell V)} (hr : Renews m m' g t l cs) :
    Rely t' ⟨m, h, g⟩ ⟨m', h, g.commit t l ⟨cs, false⟩ id op r⟩ := by
  obtain ⟨cells, hc⟩ := hi.alive hheld
  refine commit_rely hi.chains hr ht (fun c' hc' => ?_) ?_ fun hd => ?_
  · obtain rfl := Option.some.inj (hc.symm.trans hc')
    rfl
  · rw [hheld]
    simpa using ht.symm
  · rw [(hi.leafs.draft l t' hd).1] at hc
    simp at hc

/-! ## A leaf is killed -/

/-- The lock of leaf `l` is dead, and thread `t` is to count the leaf out. -/
def Ghost.bury (g : Ghost V) (t l : ℕ) : Ghost V :=
  { g with
    holder := Function.update g.holder l none
    owed := Function.update g.owed l (some t) }

/-- Nothing of a chain is changed. -/
lemma Renews.same (hi : Inv m h g) (hc : g.now l = some ⟨cells, false⟩) (hnode : m'.node = m.node)
    (hhead : (m'.leaf l).head = (m.leaf l).head) (hleaf : ∀ l', l' ≠ l → m'.leaf l' = m.leaf l')
    (hunlinked : m'.unlinked = m.unlinked) : Renews m m' g t l cells where
  nonempty := hi.chains.nonempty _ le_rfl l _ hc
  desc := hi.chains.desc _ le_rfl l _ hc
  linked := by
    rw [hnode, hhead]
    exact hi.chains.linked l _ hc
  matching := hi.chains.matching _ le_rfl l _ hc
  source d hd := .inl ((hi.chains.linked_iff d.addr l).mpr ⟨_, hc, d, hd, rfl⟩)
  node p := .inl (by rw [hnode])
  version p := by rw [hnode]
  value p := by rw [hnode]
  flags p flag := by rw [hnode]
  leaf := hleaf
  unlinked := hunlinked

lemma LeafsOk.kill (hl : LeafsOk m g) (hheld : g.holder l = some t)
    (hc : g.now l = some ⟨cells, false⟩) :
    LeafsOk (m.setLatch l chainDead) ((g.commit t l ⟨cells, true⟩ id op r).bury t l) := by
  have hcase : ∀ {l' c'}, ((g.commit t l ⟨cells, true⟩ id op r).bury t l).now l' = some c' →
      (l' = l ∧ c' = ⟨cells, true⟩) ∨ l' ≠ l ∧ g.now l' = some c' := by
    intro l' c' hc'
    have hc' : (g.commit t l ⟨cells, true⟩ id op r).now l' = some c' := hc'
    rw [commit_now] at hc'
    by_cases hll : l' = l
    · subst hll
      exact .inl ⟨rfl, by simpa [eq_comm] using hc'⟩
    · exact .inr ⟨hll, by simpa [hll] using hc'⟩
  have hother : ∀ {l' c'}, l' ≠ l → g.now l' = some c' →
      ((g.commit t l ⟨cells, true⟩ id op r).bury t l).now l' = some c' := by
    intro l' c' hll hc'
    show (g.commit t l ⟨cells, true⟩ id op r).now l' = some c'
    simpa [hll] using hc'
  have hself : ((g.commit t l ⟨cells, true⟩ id op r).bury t l).now l = some ⟨cells, true⟩ := by
    show (g.commit t l ⟨cells, true⟩ id op r).now l = _
    simp
  have hholder : ∀ {l'}, l' ≠ l →
      ((g.commit t l ⟨cells, true⟩ id op r).bury t l).holder l' = g.holder l' := fun hll =>
    Function.update_of_ne hll _ _
  have hfree : ((g.commit t l ⟨cells, true⟩ id op r).bury t l).holder l = none :=
    Function.update_self ..
  refine
    { born := fun l' c' hc' => ?_, published := fun l' => ?_, unlinked := fun l' hu => ?_,
      dead := fun l' c' hc' hd => ?_, unlocked := fun l' c' hc' hd hh => ?_,
      held := fun l' t' hh => ?_, draft := fun l' t' hd => ?_, counts := hl.counts,
      owed := fun l' t' ho => ?_, settled := fun l' c' hc' hd ho => ?_,
      unborn := fun l' hn hd => ?_, len := hl.len }
  · rcases hcase hc' with ⟨rfl, -⟩ | ⟨-, hn⟩
    · exact hl.born l' _ hc
    · exact hl.born l' c' hn
  · by_cases hll : l' = l
    · subst hll
      rw [hself]
      show m.published l' = _
      rw [hl.published, hc]
      rfl
    · show m.published l' = ((g.commit t l ⟨cells, true⟩ id op r).now l').isSome
      rw [hl.published, commit_now, Function.update_of_ne hll]
  · by_cases hll : l' = l
    · subst hll
      exact ⟨_, hself, rfl⟩
    · obtain ⟨c', hc', hd⟩ := hl.unlinked l' hu
      exact ⟨c', hother hll hc', hd⟩
  · rcases hcase hc' with ⟨rfl, -⟩ | ⟨hll, hn⟩
    · exact ⟨ChainMem.setLatch_latch, hfree⟩
    · rw [ChainMem.setLatch_ne hll, hholder hll]
      exact hl.dead l' c' hn hd
  · rcases hcase hc' with ⟨rfl, rfl⟩ | ⟨hll, hn⟩
    · simp at hd
    · rw [hholder hll] at hh
      rw [ChainMem.setLatch_ne hll]
      exact hl.unlocked l' c' hn hd hh
  · have hll : l' ≠ l := by
      rintro rfl
      rw [hfree] at hh
      simp at hh
    rw [hholder hll] at hh
    obtain ⟨h1, c', hc', hd⟩ := hl.held l' t' hh
    rw [ChainMem.setLatch_ne hll]
    exact ⟨h1, c', hother hll hc', hd⟩
  · obtain ⟨h1, h2⟩ := hl.draft l' t' hd
    have hll : l' ≠ l := by
      rintro rfl
      rw [hc] at h1
      simp at h1
    refine ⟨?_, h2⟩
    show (g.commit t l ⟨cells, true⟩ id op r).now l' = none
    simpa [hll] using h1
  · by_cases hll : l' = l
    · subst hll
      exact ⟨_, hself, rfl⟩
    · have ho' : g.owed l' = some t' := by simpa [Ghost.bury, Ghost.commit, hll] using ho
      obtain ⟨c', hc', hd⟩ := hl.owed l' t' ho'
      exact ⟨c', hother hll hc', hd⟩
  · rcases hcase hc' with ⟨rfl, -⟩ | ⟨hll, hn⟩
    · simp [Ghost.bury] at ho
    · exact hl.settled l' c' hn hd (by simpa [Ghost.bury, Ghost.commit, hll] using ho)
  · have hll : l' ≠ l := by
      rintro rfl
      rw [hself] at hn
      simp at hn
    refine hl.unborn l' ?_ hd
    have hn : (g.commit t l ⟨cells, true⟩ id op r).now l' = none := hn
    simpa [hll] using hn

/-- A lock that no node waits for may be let go. -/
lemma NodesOk.letGo {g' : Ghost V} (hn : NodesOk m g) (hwhose : g'.whose = g.whose)
    (hnow : g'.now = g.now) (hholder : g'.holder = Function.update g.holder l none)
    (hheld : g.holder l = some t) (hloose : ∀ p, g.whose p ≠ .loose l)
    (hbag : ∀ p, g.whose p ≠ .thread t) : NodesOk m g' := by
  have hne : ∀ {l'}, l' ≠ l → g'.holder l' = g.holder l' := fun hl => by
    rw [hholder, Function.update_of_ne hl]
  refine
    { aligned := hn.aligned, alloc := by rw [hwhose]; exact hn.alloc
      marked := by rw [hwhose]; exact hn.marked
      unmarked := by rw [hwhose]; exact hn.unmarked
      loose := fun p l' hp => ?_
      retired := by rw [hwhose]; exact hn.retired
      boxed := by rw [hwhose]; exact hn.boxed
      left := by rw [hwhose]; exact hn.left
      inline_iff := by rw [hwhose]; exact hn.inline_iff
      homed := by rw [hwhose, hnow]; exact hn.homed
      slots := hn.slots
      slot0 := by rw [hwhose, hnow]; exact hn.slot0
      slot1 := fun l' hl' => ?_
      spare := by rw [hwhose]; exact hn.spare
      used := by rw [hwhose]; exact hn.used }
  · rw [hwhose] at hp
    have hll : l' ≠ l := by
      rintro rfl
      exact hloose p hp
    rw [hne hll]
    exact hn.loose p l' hp
  · rw [hwhose]
    refine (hn.slot1 l' hl').imp_right (Or.imp_left ?_)
    rintro ⟨t', ht', hw⟩
    have hll : l' ≠ l := by
      rintro rfl
      obtain rfl := Option.some.inj (hheld.symm.trans ht')
      exact hbag _ hw
    exact ⟨t', (hne hll).trans ht', hw⟩

/-- The nodes of a chain that stays as it is keep their owners. -/
lemma commit_whose_same (hi : Inv m h g) {dead : Bool} (hc : g.now l = some ⟨cells, dead⟩) :
    (g.commit t l ⟨cells, true⟩ id op r).whose = g.whose := by
  funext p
  by_cases hin : p ∈ addrs cells
  · rw [commit_whose_mem hin]
    obtain ⟨d, hd, rfl⟩ := mem_addrs.mp hin
    exact ((hi.chains.linked_iff d.addr l).mpr ⟨_, hc, d, hd, rfl⟩).symm
  · refine commit_whose_other hin fun hw => ?_
    obtain ⟨c', hc', d, hd, rfl⟩ := (hi.chains.linked_iff p l).mp hw
    obtain rfl := Option.some.inj (hc.symm.trans hc')
    exact hin (mem_addrs.mpr ⟨d, hd, rfl⟩)

/-- The holder of a lock kills the leaf. -/
lemma kill_inv (hi : Inv m h g) (hcall : g.run t = some ⟨id, op, none⟩)
    (hheld : g.holder l = some t) (hone : ∀ l', g.holder l' = some t → l' = l)
    (hc : g.now l = some ⟨cells, false⟩) (hloose : ∀ p, g.whose p ≠ .loose l)
    (hbag : ∀ p, g.whose p ≠ .thread t)
    (hstep : Step (seen g.now) op r
      (Function.update (seen g.now) l (some ⟨versionsOf cells, true⟩))) :
    Inv (m.setLatch l chainDead) h ((g.commit t l ⟨cells, true⟩ id op r).bury t l) := by
  have hr : Renews m (m.setLatch l chainDead) g t l (ChainState.cells ⟨cells, true⟩) :=
    .same hi hc rfl (by simp) (fun l' hl' => ChainMem.setLatch_ne hl') rfl
  have hk : Keeps m (m.setLatch l chainDead) l := by
    refine ⟨rfl, rfl, rfl, ?_, ?_, ?_⟩ <;> simp
  have hwhose : (g.commit t l ⟨cells, true⟩ id op r).whose = g.whose := commit_whose_same hi hc
  have hchains : ChainsOk (m.setLatch l chainDead) (g.commit t l ⟨cells, true⟩ id op r) :=
    hi.chains.commit hr
  have hnodes : NodesOk (m.setLatch l chainDead) (g.commit t l ⟨cells, true⟩ id op r) :=
    hi.nodes.commit hr hk (fun p hp hw => absurd hw (hbag p)) hone (.inl (by simp [hheld]))
      (.inl (hi.held_published hheld))
  refine
    { calls := commit_calls hi.calls hcall hstep
      chains := { hchains with }
      leafs := hi.leafs.kill hheld hc
      nodes := hnodes.letGo rfl rfl rfl hheld (by rwa [hwhose]) (by rwa [hwhose])
      idle := fun t' ht' => ?_ }
  have hne : t' ≠ t := by
    rintro rfl
    simp [Ghost.bury, Ghost.commit] at ht'
  have hidle : Idle (g.commit t l ⟨cells, true⟩ id op r) t' := hi.idle_commit hr ht'
  refine { hidle with holder := fun l' hl' => ?_, owed := fun l' hl' => ?_ }
  · by_cases hll : l' = l
    · subst hll
      simp [Ghost.bury] at hl'
    · exact hidle.holder l' (by simpa [Ghost.bury, hll] using hl')
  · by_cases hll : l' = l
    · subst hll
      exact hne (by simpa [Ghost.bury, eq_comm] using hl')
    · exact hidle.owed l' (by simpa [Ghost.bury, hll] using hl')

lemma kill_rely (hi : Inv m h g) (hheld : g.holder l = some t)
    (hc : g.now l = some ⟨cells, false⟩) (ht : t' ≠ t) :
    Rely t' ⟨m, h, g⟩
      ⟨m.setLatch l chainDead, h, (g.commit t l ⟨cells, true⟩ id op r).bury t l⟩ := by
  have hr : Renews m (m.setLatch l chainDead) g t l (ChainState.cells ⟨cells, true⟩) :=
    .same hi hc rfl (by simp) (fun l' hl' => ChainMem.setLatch_ne hl') rfl
  have hrely : Rely t' ⟨m, h, g⟩
      ⟨m.setLatch l chainDead, h, g.commit t l ⟨cells, true⟩ id op r⟩ := by
    refine commit_rely hi.chains hr ht (fun c' hc' => ?_) ?_ fun hd => ?_
    · obtain rfl := Option.some.inj (hc.symm.trans hc')
      rfl
    · rw [hheld]
      simpa using ht.symm
    · rw [(hi.leafs.draft l t' hd).1] at hc
      simp at hc
  refine { hrely with
    later := { hrely.later with }, holder := fun l' => ?_, owed := fun l' => ?_ }
  · by_cases hll : l' = l
    · subst hll
      simp [Ghost.bury, hheld, ht.symm]
    · simp [Ghost.bury, Ghost.commit, hll]
  · by_cases hll : l' = l
    · subst hll
      have hno : g.owed l' ≠ some t' := by
        intro ho
        obtain ⟨c', hc', hd⟩ := hi.leafs.owed l' t' ho
        obtain rfl := Option.some.inj (hc.symm.trans hc')
        simp at hd
      simp [Ghost.bury, ht.symm, hno]
    · simp [Ghost.bury, Ghost.commit, hll]

/-! ## A leaf is published -/

/-- The link word of a new node: no link, and not superseded. -/
lemma new_word : ∀ isTomb isInline : Bool,
    linkOf ((if isTomb then tombstoneFlag else 0) ||| (if isInline then inlineFlag else 0)) = 0 ∧
    hasFlag ((if isTomb then tombstoneFlag else 0) ||| (if isInline then inlineFlag else 0))
      supersededFlag = false ∧
    hasFlag ((if isTomb then tombstoneFlag else 0) ||| (if isInline then inlineFlag else 0))
      tombstoneFlag = isTomb ∧
    hasFlag ((if isTomb then tombstoneFlag else 0) ||| (if isInline then inlineFlag else 0))
      inlineFlag = isInline := by
  decide

lemma new_matches (p v : ℕ) (x : Option V) (b : Bool) :
    Matches (VersionNode.new v x b) ⟨p, v, x⟩ :=
  ⟨rfl, rfl, (new_word x.isNone b).2.2.1⟩

lemma new_link (v : ℕ) (x : Option V) (b : Bool) : linkOf (VersionNode.new v x b).next = 0 :=
  (new_word x.isNone b).1

lemma new_unmarked (v : ℕ) (x : Option V) (b : Bool) :
    hasFlag (VersionNode.new v x b).next supersededFlag = false :=
  (new_word x.isNone b).2.1

lemma new_inline (v : ℕ) (x : Option V) (b : Bool) :
    hasFlag (VersionNode.new v x b).next inlineFlag = b :=
  (new_word x.isNone b).2.2.2

/-- Leaf `l` is a draft of thread `t`, with version `v`. -/
structure Drafted (t l v : ℕ) (x : Option V) (m : ChainMem V) (g : Ghost V) : Prop where
  draft : g.draft l = some t
  owner : g.whose (m.leaf l).slot0 = .thread t
  head : (m.leaf l).head = (m.leaf l).slot0
  latch : (m.leaf l).chainLatch = 0
  slotsInit : (m.leaf l).slotsInit = slotBit0
  node : m.node (m.leaf l).slot0 = .new v x true

/-- The draft `l` is no longer one. -/
def Ghost.undraft (g : Ghost V) (l : ℕ) : Ghost V :=
  { g with draft := Function.update g.draft l none }

section Publish

variable {v : ℕ} {x : Option V} (hi : Inv m h g) (hd : Drafted t l v x m g)

include hi hd

omit hi in
lemma Renews.publish :
    Renews m { m with published := Function.update m.published l true } g t l
      [⟨(m.leaf l).slot0, v, x⟩] where
  nonempty := by simp
  desc := List.pairwise_singleton _ _
  linked := by
    refine ⟨hd.head, ?_⟩
    show linkOf (m.node (m.leaf l).head).next = 0
    rw [hd.head, hd.node, new_link]
  matching e he := by
    rw [List.mem_singleton.mp he]
    show Matches (m.node (m.leaf l).slot0) _
    rw [hd.node]
    exact new_matches _ v x true
  source e he := by
    rw [List.mem_singleton.mp he]
    exact .inr hd.owner
  node _ := .inl rfl
  version _ := rfl
  value _ := rfl
  flags _ _ := rfl
  leaf _ _ := rfl
  unlinked := rfl

lemma LeafsOk.publish (hcount : g.counted l = liveCount x.isNone) :
    LeafsOk { m with published := Function.update m.published l true }
      ((g.commit t l ⟨[⟨(m.leaf l).slot0, v, x⟩], false⟩ id op r).undraft l) := by
  set c : ChainState V := ⟨[⟨(m.leaf l).slot0, v, x⟩], false⟩ with hc
  have hl := hi.leafs
  obtain ⟨hnow, hborn⟩ := hl.draft l t hd.draft
  have hcase : ∀ {l' c'}, ((g.commit t l c id op r).undraft l).now l' = some c' →
      (l' = l ∧ c' = c) ∨ l' ≠ l ∧ g.now l' = some c' := by
    intro l' c' hc'
    have hc' : (g.commit t l c id op r).now l' = some c' := hc'
    rw [commit_now] at hc'
    by_cases hll : l' = l
    · subst hll
      exact .inl ⟨rfl, by simpa [eq_comm] using hc'⟩
    · exact .inr ⟨hll, by simpa [hll] using hc'⟩
  have hother : ∀ {l'}, l' ≠ l → ((g.commit t l c id op r).undraft l).now l' = g.now l' := by
    intro l' hll
    show (g.commit t l c id op r).now l' = g.now l'
    simp [hll]
  have hself : ((g.commit t l c id op r).undraft l).now l = some c := by
    show (g.commit t l c id op r).now l = _
    simp
  have hne : ∀ {l' c'}, g.now l' = some c' → l' ≠ l := by
    rintro l' c' hc' rfl
    rw [hnow] at hc'
    simp at hc'
  have hfree : g.holder l = none := by
    cases hh : g.holder l with
    | none => rfl
    | some t' =>
      obtain ⟨-, c', hc', -⟩ := hl.held l t' hh
      exact absurd rfl (hne hc')
  refine
    { born := fun l' c' hc' => ?_, published := fun l' => ?_, unlinked := fun l' hu => ?_,
      dead := fun l' c' hc' hdead => ?_, unlocked := fun l' c' hc' hdead hh => ?_,
      held := fun l' t' hh => ?_, draft := fun l' t' hd' => ?_, counts := hl.counts,
      owed := fun l' t' ho => ?_, settled := fun l' c' hc' hdead ho => ?_,
      unborn := fun l' hn hd' => ?_, len := hl.len }
  · rcases hcase hc' with ⟨rfl, -⟩ | ⟨-, hn⟩
    · exact hborn
    · exact hl.born l' c' hn
  · by_cases hll : l' = l
    · subst hll
      simp [hself]
    · rw [hother hll]
      simpa [hll] using hl.published l'
  · obtain ⟨c', hc', hdead⟩ := hl.unlinked l' hu
    exact ⟨c', (hother (hne hc')).trans hc', hdead⟩
  · rcases hcase hc' with ⟨-, rfl⟩ | ⟨-, hn⟩
    · simp [hc] at hdead
    · exact hl.dead l' c' hn hdead
  · rcases hcase hc' with ⟨rfl, rfl⟩ | ⟨-, hn⟩
    · refine ⟨hd.latch, ?_⟩
      exact hcount.trans
        (live_versionsOf (d := ⟨(m.leaf l').slot0, v, x⟩) (List.pairwise_singleton _ _)).symm
    · exact hl.unlocked l' c' hn hdead hh
  · obtain ⟨h1, c', hc', hdead⟩ := hl.held l' t' hh
    exact ⟨h1, c', (hother (hne hc')).trans hc', hdead⟩
  · have hll : l' ≠ l := by
      rintro rfl
      simp [Ghost.undraft] at hd'
    obtain ⟨h1, h2⟩ := hl.draft l' t' (by simpa [Ghost.undraft, Ghost.commit, hll] using hd')
    exact ⟨(hother hll).trans h1, h2⟩
  · obtain ⟨c', hc', hdead⟩ := hl.owed l' t' ho
    exact ⟨c', (hother (hne hc')).trans hc', hdead⟩
  · rcases hcase hc' with ⟨-, rfl⟩ | ⟨-, hn⟩
    · simp [hc] at hdead
    · exact hl.settled l' c' hn hdead ho
  · have hll : l' ≠ l := by
      rintro rfl
      rw [hself] at hn
      simp at hn
    refine hl.unborn l' ((hother hll).symm.trans hn) ?_
    simpa [Ghost.undraft, Ghost.commit, hll] using hd'

lemma publish_inv (hcall : g.run t = some ⟨id, op, none⟩) (hone : ∀ l', g.holder l' ≠ some t)
    (hcount : g.counted l = liveCount x.isNone)
    (hstep : Step (seen g.now) op r (Function.update (seen g.now) l
      (some ⟨versionsOf [⟨(m.leaf l).slot0, v, x⟩], false⟩))) :
    Inv { m with published := Function.update m.published l true } h
      ((g.commit t l ⟨[⟨(m.leaf l).slot0, v, x⟩], false⟩ id op r).undraft l) := by
  obtain ⟨hnow, hborn⟩ := hi.leafs.draft l t hd.draft
  set c : ChainState V := ⟨[⟨(m.leaf l).slot0, v, x⟩], false⟩ with hc
  set m' : ChainMem V := { m with published := Function.update m.published l true } with hm'
  have hr : Renews m m' g t l c.cells := .publish hd
  have hchains : ChainsOk m' (g.commit t l c id op r) := hi.chains.commit hr
  have hnodes : NodesOk m' (g.commit t l c id op r) := by
    refine hi.nodes.commit hr ⟨rfl, rfl, rfl, rfl, rfl, rfl⟩ (fun p hp _ => ?_)
      (fun l' hl' => absurd hl' (hone l')) (.inr fun p hp => ?_)
      (.inr ⟨by simp [addrs, hc], ?_⟩)
    · obtain rfl : p = (m.leaf l).slot0 := by simpa [addrs, hc] using hp
      have hslot := (hi.nodes.slots l hborn).2.2 l hborn
      refine ⟨?_, ?_, fun he => absurd he hslot⟩
      · rw [hd.node, new_unmarked]
      · rw [hd.node, new_inline]
        simp
    · have := hi.nodes.homed p l (by rw [hp]; rfl)
      rw [hnow] at this
      simp at this
    · rw [hd.slotsInit]
      decide
  refine
    { calls := commit_calls hi.calls hcall hstep
      chains := { hchains with }
      leafs := .publish hi hd hcount
      nodes := { hnodes with }
      idle := fun t' ht' => ?_ }
  have hidle : Idle (g.commit t l c id op r) t' := hi.idle_commit hr ht'
  refine { hidle with draft := fun l' hl' => ?_ }
  by_cases hll : l' = l
  · subst hll
    simp [Ghost.undraft] at hl'
  · exact hidle.draft l' (by simpa [Ghost.undraft, hll] using hl')

lemma publish_rely (ht : t' ≠ t) :
    Rely t' ⟨m, h, g⟩ ⟨{ m with published := Function.update m.published l true }, h,
      (g.commit t l ⟨[⟨(m.leaf l).slot0, v, x⟩], false⟩ id op r).undraft l⟩ := by
  obtain ⟨hnow, -⟩ := hi.leafs.draft l t hd.draft
  have hrely : Rely t' ⟨m, h, g⟩ ⟨{ m with published := Function.update m.published l true }, h,
      g.commit t l ⟨[⟨(m.leaf l).slot0, v, x⟩], false⟩ id op r⟩ := by
    refine commit_rely hi.chains (.publish hd) ht (fun c' hc' => ?_) (fun hh => ?_) ?_
    · rw [hnow] at hc'
      simp at hc'
    · have := hi.held_published hh
      rw [hnow] at this
      simp at this
    · rw [hd.draft]
      simpa using ht.symm
  refine { hrely with later := { hrely.later with }, draft := fun l' => ?_ }
  by_cases hll : l' = l
  · subst hll
    simp [Ghost.undraft, hd.draft, ht.symm]
  · simp [Ghost.undraft, Ghost.commit, hll]

end Publish

end Commit

end Versioned

end Artmap
