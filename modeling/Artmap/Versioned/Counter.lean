import Artmap.Versioned.Handles

/-!
# The counter (`docs/SAFETY.md`, Inv 12)

A live entry is to be counted before the store that makes it visible.  This holds of a new key,
which is counted before its leaf is published, and of a key that is removed, which is counted out
after it has been unlinked.  But a writer that stores a live node over a tombstone at the head of a
chain (`apply_locked` with a newer version, or with the one of the tombstone, and `remove_version`
of the tombstone) counts the key after the store.

Without such stores, the counter never is below the number of keys that a reader can find.
-/

namespace Artmap

namespace Versioned

variable {V : Type} {spurious : List Bool} {c c' : (chains V).Config} {m : ChainMem V}
  {h : List (Event (Op V) (Ret V))} {g g' : Ghost V} {l p : ℕ}

/-! ## Keys that can be found -/

/-- The node `p` is a tombstone. -/
def Tombstone (m : ChainMem V) (p : ℕ) : Prop :=
  hasFlag (m.node p).next tombstoneFlag = true

/-- Leaf `l` is in the tree, where no clear has come to it, and the newest version of its key is
not a tombstone. -/
structure Findable (m : ChainMem V) (h : List (Event (Op V) (Ret V))) (l : ℕ) : Prop where
  published : m.published l = true
  linked : m.unlinked l = false
  kept : ∀ id, .inv id (.clearLeaf l) ∉ h
  live : ¬ Tombstone m (m.leaf l).head

/-- Every key that can be found is counted. -/
def Counts (m : ChainMem V) (h : List (Event (Op V) (Ret V))) : Prop :=
  ({l | Findable m h l}.ncard : ℤ) ≤ m.len

/-- Thread `t` is about to store a live node over a tombstone at the head of a chain. -/
def Reviving (c : (chains V).Config) (t : ℕ) : Prop :=
  ∃ id op l p k, c.running t = some ⟨id, op, .act (.storeHead l p) k⟩ ∧
    Tombstone c.mem (c.mem.leaf l).head ∧ ¬ Tombstone c.mem p

/-- Thread `t` is about to do so, as a computation. -/
def reviving (c : (chains V).Config) (t : ℕ) : Bool :=
  match c.running t with
  | some ⟨_, _, .act (.storeHead l p) _⟩ =>
    hasFlag (c.mem.node (c.mem.leaf l).head).next tombstoneFlag &&
      !hasFlag (c.mem.node p).next tombstoneFlag
  | _ => false

lemma reviving_iff {t : ℕ} : reviving c t = true ↔ Reviving c t := by
  unfold reviving
  constructor
  · intro h
    split at h
    · rename_i id op l p k hrun
      rw [Bool.and_eq_true, Bool.not_eq_true'] at h
      exact ⟨id, op, l, p, k, hrun, h.1, by simp [Tombstone, h.2]⟩
    · simp at h
  · rintro ⟨id, op, l, p, k, hrun, htomb, hlive⟩
    have htomb : hasFlag (c.mem.node (c.mem.leaf l).head).next tombstoneFlag = true := htomb
    simp [hrun, htomb, Bool.eq_false_of_not_eq_true hlive]

instance (c : (chains V).Config) (t : ℕ) : Decidable (Reviving c t) :=
  decidable_of_iff _ reviving_iff

/-- A step of some thread, which brings no deleted key back. -/
inductive Careful : (chains V).Config → (chains V).Config → Prop where
  | invoke {c : (chains V).Config} (t : ℕ) (op : Op V) (idle : c.running t = none)
      (hp : ∀ l, op.given = some l → c.mem.published l = true) :
      Careful c (c.invoke t op c.mem)
  | advance {c : (chains V).Config} (t : ℕ) (hrevive : ¬ Reviving c t) : Careful c (c.advance t)

/-! ## What a step does to the heads -/

/-- The step stores the head `p` of leaf `l`. -/
inductive StoresHead (l p : ℕ) : {β : Type} → ChainAct V β → Prop where
  | mk : StoresHead l p (.storeHead l p)

lemma head_exec {β : Type} (a : ChainAct V β) (hl : l < m.nextLeaf) :
    ((execChain a m).2.leaf l).head = (m.leaf l).head ∨ ∃ p, StoresHead l p a := by
  cases a with
  | casLatch l' =>
    left
    simp only [execChain]
    split
    · exact ChainMem.setLatch_head
    · rfl
  | storeLatch l' w => exact .inl ChainMem.setLatch_head
  | storeHead l' p =>
    by_cases hll : l = l'
    · subst hll
      exact .inr ⟨p, .mk⟩
    · exact .inl (congrArg VersionedLeaf.head (ChainMem.setHead_ne hll))
  | storeSlots l' w => exact .inl ChainMem.setSlots_head
  | newLeaf v x => exact .inl (by simp [execChain, ChainMem.addLeaf, hl.ne])
  | _ => exact .inl rfl

/-- A careful step brings no deleted key back: a published leaf whose head is live had a live head
before. -/
lemma Careful.head (hs : Careful c c') (hl : l < c.mem.nextLeaf)
    (hnode : ∀ p, p = (c.mem.leaf l).head → (Tombstone c'.mem p ↔ Tombstone c.mem p))
    (hlive : ¬ Tombstone c'.mem (c'.mem.leaf l).head) : ¬ Tombstone c.mem (c.mem.leaf l).head := by
  intro htomb
  have hmoved : (c'.mem.leaf l).head ≠ (c.mem.leaf l).head := by
    intro he
    rw [he, hnode _ rfl] at hlive
    exact hlive htomb
  cases hs with
  | invoke t op idle hp => exact hmoved rfl
  | advance t hrevive =>
    rcases hrun : c.running t with _ | ⟨id, op, r | ⟨a, k⟩ | ⟨body, s, k⟩⟩
    · exact hmoved (by rw [Object.Config.advance, hrun])
    · exact hmoved (by rw [Object.Config.advance, hrun])
    · have hmem : (c.advance t).mem = (execChain a c.mem).2 := by
        rw [Object.Config.advance, hrun]
      rw [hmem] at hmoved hlive
      obtain ⟨p, hp⟩ := (head_exec a hl).resolve_left hmoved
      cases hp
      refine hrevive ⟨id, op, l, p, k, hrun, htomb, ?_⟩
      have hhead : ((execChain (.storeHead l p) c.mem).2.leaf l).head = p := ChainMem.setHead_head
      rwa [hhead] at hlive
    · exact hmoved (by rw [Object.Config.advance, hrun])

/-! ## Counting -/

/-- The first cell of a chain is at its head, which is a tombstone if the cell is. -/
lemma Inv.head_cell (hi : Inv m h g) {s : ChainState V} (hs : g.now l = some s) :
    ∃ d post, s.cells = d :: post ∧ d.addr = (m.leaf l).head := by
  obtain ⟨d, post, hd⟩ :=
    List.exists_cons_of_ne_nil (hi.chains.nonempty _ le_rfl l s hs)
  have hlinked := hi.chains.linked l s hs
  rw [hd] at hlinked
  exact ⟨d, post, hd, hlinked.1.symm⟩

/-- The nodes that are in a chain stay tombstones, or no tombstones. -/
lemma tombstone_iff {x y : W V} (hx : Inv x.mem x.hist x.ghost) (hy : Inv y.mem y.hist y.ghost)
    (hxy : Later x y) {s : ChainState V} (hs : x.ghost.now l = some s)
    (hp : p = (x.mem.leaf l).head) : Tombstone y.mem p ↔ Tombstone x.mem p := by
  obtain ⟨d, post, hd, ha⟩ := hx.head_cell hs
  have hmem : d ∈ s.cells := by simp [hd]
  have hold := hx.chains.matching _ le_rfl l s hs d hmem
  have hpast : y.ghost.past x.ghost.time.now l = some s := by
    rw [hxy.past _ le_rfl]
    exact hs
  have hnew := hy.chains.matching _ hxy.now l s hpast d hmem
  unfold Tombstone
  rw [hp, ← ha, hold.tombstone, hnew.tombstone]

/-- A leaf that can be found and counts for what its chain says is counted. -/
lemma Findable.exact {x : W V} (hi : Inv x.mem x.hist x.ghost) (hf : Findable x.mem x.hist l)
    (he : Exact l x) : x.ghost.counted l = 1 := by
  obtain ⟨s, hs⟩ := Option.isSome_iff_exists.mp ((hi.leafs.published l).symm.trans hf.published)
  obtain ⟨d, post, hd, ha⟩ := hi.head_cell hs
  have hm := hi.chains.matching _ le_rfl l s hs d (by simp [hd])
  have hdesc := hi.chains.desc _ le_rfl l s hs
  have hlive : d.value.isNone = false := by
    rw [← hm.tombstone, ha]
    exact Bool.eq_false_of_not_eq_true hf.live
  rw [he s hs, hd, live_versionsOf (hd ▸ hdesc), hlive]
  rfl

/-- A careful step leaves every key that can be found counted. -/
lemma Careful.counted (hs : Careful c c') (hi : Inv c.mem c.hist g) (hi' : Inv c'.mem c'.hist g')
    (hlater : Later ⟨c.mem, c.hist, g⟩ ⟨c'.mem, c'.hist, g'⟩)
    (htallied : Tallied ⟨c.mem, c.hist, g⟩ ⟨c'.mem, c'.hist, g'⟩)
    (hc : ∀ l, Findable c.mem c.hist l → g.counted l = 1) (hf : Findable c'.mem c'.hist l) :
    g'.counted l = 1 := by
  have hsome := hi'.leafs.published l
  rw [hf.published] at hsome
  rcases htallied l with ⟨hcounted, hpub⟩ | hexact | hdetached
  · -- It could be found before.
    have hnow : g.now l ≠ none := by
      intro hn
      rw [show g'.now l = none from hpub hn] at hsome
      simp at hsome
    obtain ⟨s, hs'⟩ := Option.ne_none_iff_exists'.mp hnow
    refine (show g'.counted l = g.counted l from hcounted).trans (hc l ⟨?_, ?_, ?_, ?_⟩)
    · rw [hi.leafs.published, hs']
      rfl
    · by_contra hu
      have := hlater.unlinked l (Bool.eq_true_of_not_eq_false hu)
      rw [show c'.mem.unlinked l = false from hf.linked] at this
      simp at this
    · exact fun id hid => hf.kept id (hlater.hist _ hid)
    · exact hs.head (hi.leafs.born l s hs') (fun p hp => tombstone_iff hi hi' hlater hs' hp) hf.live
  · exact hf.exact hi' hexact
  · rcases hdetached with hu | ⟨id, hid⟩
    · exact absurd (hf.linked.symm.trans hu) (by simp)
    · exact absurd hid (hf.kept id)

lemma Careful.step (hs : Careful c c') : c' = c ∨ Object.Step c c' := by
  cases hs with
  | invoke t op idle hp =>
    exact .inr (Object.Step.invoke (O := chains V) t op c.mem idle ⟨rfl, hp⟩)
  | advance t _ => exact c.step_advance t

/-- The configurations of a careful run. -/
abbrev CarefulRun (spurious : List Bool) (c : (chains V).Config) : Prop :=
  Relation.ReflTransGen Careful (Object.initial (ChainMem.empty spurious)) c

/-- In a careful run, every key that can be found is counted. -/
lemma CarefulRun.counted (hc : CarefulRun spurious c) (N : ℕ) :
    ∃ g, RG.Kept (verified V) N c g ∧ ∀ l, Findable c.mem c.hist l → g.counted l = 1 := by
  induction hc generalizing N with
  | refl =>
    have hstart : Reachable spurious (Object.initial (ChainMem.empty (V := V) spurious)) := .refl
    obtain ⟨g, hk⟩ := kept hstart N
    exact ⟨g, hk, fun l hf => absurd hf.published (by simp [Object.initial, ChainMem.empty])⟩
  | tail hrun hs ih =>
    obtain ⟨g, hk, hg⟩ := ih (N + 1)
    rcases hs.step with rfl | hstep
    · exact ⟨g, hk.of_succ, hg⟩
    · obtain ⟨t, g', hk', hmoves, -⟩ := RG.kept_step (verified V) hk hstep
      refine ⟨g', hk', fun l hf => ?_⟩
      rcases hmoves.own with hown | heq
      · exact hs.counted hk.1.1 hk'.1.1 (hmoves.rely (t + 1) (Nat.succ_ne_self t)).later
          hown.tallied hg hf
      · obtain ⟨hmem, hhist, hghost⟩ := World.mk.inj heq
        rw [hghost]
        rw [hmem, hhist] at hf
        exact hg l hf

end Versioned

end Artmap
