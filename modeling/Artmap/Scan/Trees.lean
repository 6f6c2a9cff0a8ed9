import Artmap.Map.Valid
import Artmap.Scan.Exact

/-!
# Cursors over well-formed trees

What a well-formed tree is can be said of the memory alone (`WellFormed`): what is linked from its
root is a tree of nodes whose layouts are in order and whose latches are free, and the keys of the
leaves go along their paths.  Such a memory stands for a forest of one epoch (`TreeMem.forest`), and
no call is needed that has made it.  So a cursor on it is a queue with two ends, which holds the
leaves of its range in order.
-/

namespace Artmap

open scoped List

/-- A well-formed tree, which no call is working on. -/
structure WellFormed (m : TreeMem) : Prop where
  /-- There are finitely many nodes, and one path leads to each of them. -/
  finite : {n | ∃ p, Linked m p (.node n)}.Finite
  once : ∀ {p q n}, Linked m p (.node n) → Linked m q (.node n) → p = q
  /-- A node is neither locked nor obsolete, and its layout is in order. -/
  free : ∀ {p n}, Linked m p (.node n) → Free (m.latch (.node n))
  repr : ∀ {p n}, Linked m p (.node n) → ∃ c, Repr (m.ty n) (m.fields n) c
  /-- The key of a leaf goes along its path; that of an exact leaf ends there. -/
  leaf_key : ∀ {p l}, Linked m p (.leaf l) → p <+: l.key
  exact_key : ∀ {p n l} {pre : PrefixSnapshot}, Linked m p (.node n) →
    loadPrefix.run (m.fields n) = some (pre, m.fields n) →
    exactLeaf.run (m.fields n) = some (.leaf l, m.fields n) → l.key = p ++ pre.asSlice

open Classical in
/-- The forest that a memory stands for, with its tree in epoch `0`. -/
noncomputable def TreeMem.forest (m : TreeMem) : Forest where
  root e := if e = 0 then m.root else .null
  place n := if h : ∃ p, Linked m p (.node n) then some (0, h.choose) else none
  cont n := if h : ∃ c, Repr (m.ty n) (m.fields n) c then h.choose else Content.fresh
  map e k := if h : ∃ l : Leaf, e = 0 ∧ l.key = k ∧ ∃ p, Linked m p (.leaf l) then some h.choose
    else none

namespace WellFormed

variable {m : TreeMem} {n : NodeId} {e : ℕ} {p q : List Byte} {s : Slot} {l : Leaf} {k : Key}
  {ℓ ℓ' : Loc}

lemma place_iff (h : WellFormed m) :
    m.forest.place n = some (e, p) ↔ e = 0 ∧ Linked m p (.node n) := by
  unfold TreeMem.forest
  by_cases hn : ∃ p, Linked m p (.node n)
  · simp only [dif_pos hn, Option.some.injEq, Prod.mk.injEq]
    constructor
    · rintro ⟨rfl, rfl⟩
      exact ⟨rfl, hn.choose_spec⟩
    · rintro ⟨rfl, hp⟩
      exact ⟨rfl, h.once hn.choose_spec hp⟩
  · simp only [dif_neg hn, reduceCtorEq, false_iff, not_and]
    exact fun _ hp => hn ⟨p, hp⟩

lemma forest_repr (h : WellFormed m) (hn : Linked m p (.node n)) :
    Repr (m.ty n) (m.fields n) (m.forest.cont n) := by
  have hc := h.repr hn
  unfold TreeMem.forest
  simp only [dif_pos hc]
  exact hc.choose_spec

lemma map_some (hk : m.forest.map e k = some l) :
    e = 0 ∧ l.key = k ∧ ∃ p, Linked m p (.leaf l) := by
  unfold TreeMem.forest at hk
  by_cases hl : ∃ l : Leaf, e = 0 ∧ l.key = k ∧ ∃ p, Linked m p (.leaf l)
  · simp only [dif_pos hl, Option.some.injEq] at hk
    exact hk ▸ hl.choose_spec
  · simp only [dif_neg hl, reduceCtorEq] at hk

/-- A linked leaf has an entry, if not its own. -/
lemma exists_map (hl : Linked m p (.leaf l)) : ∃ l', m.forest.map 0 l.key = some l' := by
  unfold TreeMem.forest
  exact ⟨_, dif_pos ⟨l, rfl, rfl, p, hl⟩⟩

/-! ## Locations -/

/-- What the locations of the forest hold is linked. -/
lemma linked_child (h : WellFormed m) (hn : Linked m p (.node n)) (b : Byte) :
    Linked m (p ++ m.forest.pre n ++ [b]) ((m.forest.cont n).child b) := by
  have hr := h.forest_repr hn
  obtain ⟨pre, hpre, hof⟩ := hr.run_loadPrefix
  have hs : Linked m (p ++ pre.asSlice ++ [b]) ((m.forest.cont n).child b) :=
    .child hn trivial hpre (hr.run_findChild b)
  rwa [hof.asSlice] at hs

lemma linked_slot (h : WellFormed m) (hat : m.forest.At ℓ 0 p) : Linked m p (m.forest.slot ℓ) := by
  cases ℓ with
  | root e' =>
    obtain ⟨rfl, rfl⟩ := hat
    exact .root
  | child n b =>
    obtain ⟨q, hq, rfl⟩ := hat
    exact h.linked_child (h.place_iff.mp hq).2 b

/-- What is linked is in a location, or is an exact leaf. -/
lemma linked_cases (h : WellFormed m) (hs : Linked m p s) :
    (∃ ℓ, m.forest.At ℓ 0 p ∧ m.forest.slot ℓ = s) ∨
      ∃ n q l, Linked m q (.node n) ∧ p = q ++ m.forest.pre n ∧
        (m.forest.cont n).exact = some l ∧ s = .leaf l := by
  cases hs with
  | root => exact .inl ⟨.root 0, ⟨rfl, rfl⟩, rfl⟩
  | @exact q n pre l hn _ hpre hl =>
    have hr := h.forest_repr hn
    obtain ⟨pre', hpre', hof⟩ := hr.run_loadPrefix
    obtain rfl : pre = pre' := by simpa [hpre] using hpre'
    refine .inr ⟨n, q, l, hn, by rw [hof.asSlice]; rfl, ?_, rfl⟩
    have hex := hr.run_exactLeaf
    rw [hl] at hex
    cases hc : (m.forest.cont n).exact <;> simp [hc, Slot.ofOption] at hex
    rw [hex]
  | @child q n pre b s hn _ hpre hs =>
    have hr := h.forest_repr hn
    obtain ⟨pre', hpre', hof⟩ := hr.run_loadPrefix
    obtain rfl : pre = pre' := by simpa [hpre] using hpre'
    have hchild := hr.run_findChild b
    rw [hs] at hchild
    refine .inl ⟨.child n b, ?_, by simpa [Forest.slot, eq_comm] using hchild⟩
    rw [hof.asSlice]
    exact Forest.at_child (h.place_iff.mpr ⟨rfl, hn⟩) b

lemma placed (h : WellFormed m) (hn : m.forest.place n = some (e, p)) :
    ∃ ℓ, m.forest.At ℓ e p ∧ m.forest.slot ℓ = .node n := by
  obtain ⟨rfl, hl⟩ := h.place_iff.mp hn
  rcases h.linked_cases hl with hloc | ⟨_, _, _, _, _, _, hs⟩
  · exact hloc
  · cases hs

/-- A leaf is in a location, or is the exact leaf of the node there. -/
inductive Sits (m : TreeMem) (ℓ : Loc) (q : List Byte) (l : Leaf) : Prop where
  | slot (hat : m.forest.At ℓ 0 q) (hs : m.forest.slot ℓ = .leaf l) (hkey : q <+: l.key)
  | exact {n : NodeId} (hat : m.forest.At ℓ 0 q) (hs : m.forest.slot ℓ = .node n)
      (hl : (m.forest.cont n).exact = some l) (hkey : l.key = q ++ m.forest.pre n)

lemma exists_sits (h : WellFormed m) (hl : Linked m p (.leaf l)) : ∃ ℓ q, Sits m ℓ q l := by
  rcases h.linked_cases hl with ⟨ℓ, hat, hs⟩ | ⟨n, q, l', hn, rfl, hex, hs⟩
  · exact ⟨ℓ, p, .slot hat hs (h.leaf_key hl)⟩
  · obtain rfl : l = l' := by simpa using hs
    obtain ⟨ℓ, hat, hslot⟩ := h.placed (h.place_iff.mpr ⟨rfl, hn⟩)
    have hr := h.forest_repr hn
    obtain ⟨pre, hpre, hof⟩ := hr.run_loadPrefix
    have hkey := h.exact_key hn hpre (by rw [hr.run_exactLeaf, hex]; rfl)
    rw [hof.asSlice] at hkey
    exact ⟨ℓ, q, .exact hat hslot hex hkey⟩

/-- A location that the key of a leaf goes through is that of the leaf, or holds a node that the key
goes on from. -/
lemma Sits.above (h : WellFormed m) (hl : Sits m ℓ q l) (hat : m.forest.At ℓ' 0 p)
    (hp : p <+: l.key) :
    ℓ' = ℓ ∨ ∃ c b, m.forest.slot ℓ' = .node c ∧ p ++ m.forest.pre c ++ [b] <+: l.key := by
  have hq : m.forest.At ℓ 0 q ∧ q <+: l.key := by
    cases hl with
    | slot hat _ hkey => exact ⟨hat, hkey⟩
    | exact hat _ _ hkey => exact ⟨hat, hkey ▸ List.prefix_append _ _⟩
  have hplaced : ∀ {n e p}, m.forest.place n = some (e, p) →
      ∃ ℓ, m.forest.At ℓ e p ∧ m.forest.slot ℓ = .node n := fun hn => h.placed hn
  rcases List.prefix_or_prefix_of_prefix hp hq.2 with hpq | hqp
  · rcases Forest.chain_of_placed hplaced hat hq.1 hpq with heq | ⟨c, b, hs, hc⟩
    · exact .inl heq
    · exact .inr ⟨c, b, hs, hc.trans hq.2⟩
  · rcases Forest.chain_of_placed hplaced hq.1 hat hqp with heq | ⟨c, b, hs, hc⟩
    · exact .inl heq.symm
    · exfalso
      cases hl with
      | slot _ hs' => simp [hs] at hs'
      | exact _ hs' _ hkey =>
        obtain rfl : c = _ := by simpa [hs] using hs'
        have hlen := (hc.trans hp).length_le
        simp [hkey] at hlen

lemma map_sits (h : WellFormed m) (hk : m.forest.map e k = some l) :
    e = 0 ∧ l.key = k ∧ ∃ ℓ q, Sits m ℓ q l := by
  obtain ⟨he, hkey, p, hl⟩ := map_some hk
  exact ⟨he, hkey, h.exists_sits hl⟩

/-! ## The forest -/

lemma holds (h : WellFormed m) (hat : m.forest.At ℓ 0 p) :
    m.forest.Holds (m.forest.slot ℓ) 0 p := by
  have hlinked := h.linked_slot hat
  cases hs : m.forest.slot ℓ with
  | null =>
    intro k hp
    rw [Option.eq_none_iff_forall_ne_some]
    intro l hk
    obtain ⟨-, rfl, ℓ', q, hl⟩ := h.map_sits hk
    rcases hl.above h hat hp with rfl | ⟨c, b, hs', -⟩
    · cases hl with
      | slot _ hs' => simp [hs] at hs'
      | exact _ hs' => simp [hs] at hs'
    · simp [hs] at hs'
  | leaf l =>
    rw [hs] at hlinked
    -- A leaf under a key through this location is `l`.
    have honly : ∀ {l' : Leaf}, m.forest.map 0 l'.key = some l' → p <+: l'.key → l' = l := by
      intro l' hk hp
      obtain ⟨-, -, ℓ', q, hl⟩ := h.map_sits hk
      rcases hl.above h hat hp with rfl | ⟨c, b, hs', -⟩
      · cases hl with
        | slot _ hs' => exact Slot.leaf.inj (hs'.symm.trans hs)
        | exact _ hs' => simp [hs] at hs'
      · simp [hs] at hs'
    refine ⟨h.leaf_key hlinked, fun k hp => ?_⟩
    cases hk : m.forest.map 0 k with
    | none =>
      rw [if_neg]
      rintro rfl
      obtain ⟨l', hl'⟩ := exists_map hlinked
      simp [hk] at hl'
    | some l' =>
      obtain ⟨-, rfl, -⟩ := map_some hk
      obtain rfl := honly hk hp
      rw [if_pos rfl]
  | node n =>
    rw [hs] at hlinked
    exact h.place_iff.mpr ⟨rfl, hlinked⟩

lemma nodeOk (h : WellFormed m) (hn : m.forest.place n = some (0, p)) :
    m.forest.NodeOk n 0 p := by
  obtain ⟨ℓ, hat, hslot⟩ := h.placed hn
  have hlinked := (h.place_iff.mp hn).2
  have hr := h.forest_repr hlinked
  -- A leaf under a key through this node is its exact leaf, or its key goes on from the prefix.
  have hbelow : ∀ {k l}, m.forest.map 0 k = some l → p <+: k →
      (m.forest.cont n).exact = some l ∧ k = p ++ m.forest.pre n ∨
        ∃ b, p ++ m.forest.pre n ++ [b] <+: k := by
    intro k l hk hp
    obtain ⟨-, rfl, ℓ', q, hl⟩ := h.map_sits hk
    rcases hl.above h hat hp with rfl | ⟨c, b, hs, hc⟩
    · cases hl with
      | slot _ hs => simp [hslot] at hs
      | exact hat' hs hl hkey =>
        obtain rfl : n = _ := by simpa [hslot] using hs
        obtain ⟨-, rfl⟩ := hat.functional hat'
        exact .inl ⟨hl, hkey⟩
    · obtain rfl : n = c := by simpa [hslot] using hs
      exact .inr ⟨b, hc⟩
  refine ⟨hr.pre_fits, fun k hp hoff => ?_, ?_⟩
  · rw [Option.eq_none_iff_forall_ne_some]
    intro l hk
    rcases hbelow hk hp with ⟨-, rfl⟩ | ⟨b, hb⟩
    · exact hoff List.prefix_rfl
    · exact hoff ((List.prefix_append _ _).trans hb)
  · have hexact : ∀ l, m.forest.map 0 (p ++ m.forest.pre n) = some l →
        (m.forest.cont n).exact = some l := by
      intro l hk
      rcases hbelow hk (List.prefix_append _ _) with ⟨hl, -⟩ | ⟨b, hb⟩
      · exact hl
      · have hlen := hb.length_le
        simp at hlen
    cases hl : (m.forest.cont n).exact with
    | none =>
      rw [Option.eq_none_iff_forall_ne_some]
      intro l hk
      simp [hl] at hexact
      exact hexact l hk
    | some l =>
      obtain ⟨pre, hpre, hof⟩ := hr.run_loadPrefix
      have hrun : exactLeaf.run (m.fields n) = some (.leaf l, m.fields n) := by
        rw [hr.run_exactLeaf, hl]
        rfl
      have hkey := h.exact_key hlinked hpre hrun
      obtain ⟨l', hl'⟩ := exists_map (.exact hlinked trivial hpre hrun)
      rw [hkey, hof.asSlice] at hl'
      obtain rfl : l = l' := by simpa [hl] using hexact l' hl'
      exact hl'

lemma wf (h : WellFormed m) : m.forest.WF where
  holds {ℓ e p} hat := by
    by_cases he : e = 0
    · exact he ▸ h.holds (he ▸ hat)
    · cases ℓ with
      | root e' =>
        obtain ⟨rfl, rfl⟩ := hat
        have hnull : m.forest.slot (.root e') = .null := if_neg he
        rw [hnull]
        intro k _
        rw [Option.eq_none_iff_forall_ne_some]
        exact fun l hk => he (map_some hk).1
      | child n b =>
        obtain ⟨q, hq, -⟩ := hat
        exact absurd (h.place_iff.mp hq).1 he
  placed hn := h.placed hn
  node {n e p} hn := by
    obtain ⟨rfl, -⟩ := h.place_iff.mp hn
    exact h.nodeOk hn
  key hk := (map_some hk).2.1

/-- **A well-formed tree** stands for its forest. -/
theorem depicts (h : WellFormed m) : Depicts m m.forest 0 where
  wf := h.wf
  root := rfl
  repr hn _ := h.forest_repr (h.place_iff.mp hn).2
  shows hn := (h.forest_repr (h.place_iff.mp hn).2).shows

lemma forest_free (h : WellFormed m) :
    ∀ n p, m.forest.place n = some (0, p) → Free (m.latch (.node n)) :=
  fun _ _ hn => h.free (h.place_iff.mp hn).2

/-- Its leaves are those of the map. -/
lemma map_iff (h : WellFormed m) :
    m.forest.map 0 l.key = some l ↔ ∃ p, Linked m p (.leaf l) := by
  constructor
  · exact fun hk => (map_some hk).2.2
  · rintro ⟨p, hl⟩
    exact h.depicts.agrees.leaf (h.depicts.seen_of_linked h.forest_free hl)

/-- There are finitely many: each is at the root, or in one of the entries of a node. -/
lemma finite_leaves (h : WellFormed m) : {l | ∃ p, Linked m p (.leaf l)}.Finite := by
  have hslot : ∀ s, {l | s = Slot.leaf l}.Finite := fun s =>
    Set.Subsingleton.finite fun l hl l' hl' => Slot.leaf.inj (hl.symm.trans hl')
  have hexact : ∀ o, {l : Leaf | o = some l}.Finite := fun o =>
    Set.Subsingleton.finite fun l hl l' hl' => Option.some.inj (hl.symm.trans hl')
  refine ((hslot m.root).union (h.finite.biUnion fun n _ =>
    (hexact (m.forest.cont n).exact).union
      (Set.finite_iUnion fun b => hslot ((m.forest.cont n).child b)))).subset ?_
  rintro l ⟨p, hl⟩
  rcases h.linked_cases hl with ⟨ℓ, hat, hs⟩ | ⟨n, q, l', hn, -, hex, hs⟩
  · cases ℓ with
    | root e =>
      obtain ⟨rfl, -⟩ := hat
      exact .inl hs
    | child n b =>
      obtain ⟨q, hq, -⟩ := hat
      refine .inr (Set.mem_biUnion (x := n) ⟨q, (h.place_iff.mp hq).2⟩ (.inr ?_))
      exact Set.mem_iUnion.mpr ⟨b, hs⟩
  · obtain rfl : l = l' := by simpa using hs
    exact .inr (Set.mem_biUnion (x := n) ⟨q, hn⟩ (.inl hex))

lemma still {m : Mem} (h : WellFormed m.tree) : ∃ D, Still m m.tree.forest 0 D := by
  classical
  let depth : NodeId → ℕ := fun n => ((m.tree.forest.place n).map fun a => a.2.length).getD 0
  refine ⟨h.finite.toFinset.sup depth, h.depicts, h.forest_free, fun n p hn => ?_⟩
  have hle := Finset.le_sup (f := depth) (h.finite.mem_toFinset.mpr ⟨p, (h.place_iff.mp hn).2⟩)
  simpa [depth, hn] using hle

end WellFormed

/-! ## Cursors -/

/-- What the user of a cursor would get from a queue with two ends that holds `items`. -/
def Caller.ask : Caller → List Leaf → List (Dir × Option Leaf)
  | stop, _ => []
  | next k, items => (.forward, items.head?) :: (k items.head?).ask items.tail
  | nextBack k, items => (.backward, items.getLast?) :: (k items.getLast?).ask items.dropLast
  | repin k, items => k.ask items

section Cursors

variable {t : ℕ} {m : Mem} {F : Forest} {e D : ℕ} {c : Cursor} {items : List Leaf}

/-- Once a cursor has come to its end, it stays there. -/
lemma Caller.alone_ask_done (user : Caller) (h : c.done = true) :
    Alone t (user.drive c) m (user.ask []) m := by
  induction user generalizing c with
  | stop => exact .ret _ _
  | next k ih =>
    exact .bind (Cursor.alone_advance_done h .forward) (.bind (ih none h) (.ret _ _))
  | nextBack k ih =>
    exact .bind (Cursor.alone_advance_done h .backward) (.bind (ih none h) (.ret _ _))
  | repin k ih => exact ih h

/-- By induction on what the user does: each call takes an item from its end. -/
lemma Caller.alone_ask (hm : Still m F e D) (user : Caller) (h : c.Ready m F e)
    (hitems : Lists Leaf.key (fun l => F.map e l.key = some l) c.resumeBound items) :
    Alone t (user.drive c) m (user.ask items) m := by
  induction user generalizing c items with
  | stop => exact .ret _ _
  | next k ih =>
    rcases h.alone_pop (t := t) hm hitems .forward with
      ⟨l, rest, c', rfl, hrun, ready, hrest⟩ | ⟨rfl, c', hrun, hdone⟩
    · exact .bind hrun (.bind (ih (some l) ready hrest) (.ret _ _))
    · exact .bind hrun (.bind ((k none).alone_ask_done hdone) (.ret _ _))
  | nextBack k ih =>
    rcases h.alone_pop (t := t) hm hitems .backward with
      ⟨l, rest, c', rfl, hrun, ready, hrest⟩ | ⟨rfl, c', hrun, hdone⟩
    · have hask : (nextBack k).ask (Dir.backward.push l rest) =
          (.backward, some l) :: (k (some l)).ask rest := by
        simp [ask, Dir.push]
      rw [hask]
      exact .bind hrun (.bind (ih (some l) ready hrest) (.ret _ _))
    · exact .bind hrun (.bind ((k none).alone_ask_done hdone) (.ret _ _))
  | repin k ih =>
    refine ih h.invalidate ?_
    rwa [Cursor.resumeBound_invalidate]

end Cursors

/-- **Cursors** over a well-formed tree that does not change.  Whatever bounds a cursor has and
whatever is called on it, it comes to an end, changes nothing, and gives what a queue with two ends
gives that holds the leaves of the range in the order of their keys. -/
theorem WellFormed.cursor_asks {m : Mem} (h : WellFormed m.tree) (start stop : Bound Key) :
    ∃ items, Lists Leaf.key (fun l => ∃ p, Linked m.tree p (.leaf l)) (rangeEnds start stop) items ∧
      ∀ t (user : Caller), Alone t (user.drive (Cursor.new start stop)) m (user.ask items) m := by
  obtain ⟨D, hstill⟩ := h.still
  have hmap : (fun l : Leaf => ∃ p, Linked m.tree p (.leaf l)) =
      fun l => m.tree.forest.map 0 l.key = some l :=
    funext fun l => propext h.map_iff.symm
  rw [hmap]
  have hfin : (Interface.leavesOf (m.tree.forest.map 0)).Finite := by
    have := h.finite_leaves
    rwa [hmap] at this
  obtain ⟨items, hitems⟩ :=
    Lists.exists_of_finite hfin (Interface.leavesOf_injOn _) (rangeEnds start stop)
  refine ⟨items, hitems, fun t user => user.alone_ask hstill (Cursor.ready_new m _ 0 start stop) ?_⟩
  rwa [Cursor.resumeBound_new]

/-! ## Maps at rest -/

/-- When no call is in progress, the tree of a verified map is well formed. -/
theorem Interface.wellFormed_of_safe {M : Interface} {full : ℕ → Bool}
    {c : M.client.object.Config} (hM : M.Safe) (hfull : M.roomy → ∀ i, full i = false)
    (hc : Reachable full c) (hq : c.Quiescent) : WellFormed c.mem.tree := by
  have hvalid := valid_of_safe hM hfull hc hq
  obtain ⟨w, h⟩ := behind hM hfull hc
  have hplace : ∀ {p n}, Linked c.mem.tree p (.node n) →
      (Client.shadow w).forest.place n = some ((Client.shadow w).cur, p) := fun hn =>
    (h.place_of_linked hq hn).1
  refine ⟨(Set.finite_Iio (Client.tree w).next).subset ?_, fun {p q n} hp hp' => ?_, hvalid.free,
    fun hn => ⟨_, (h.place_of_linked hq hn).2.2⟩, hvalid.leaf_key, fun {p n l pre} hn hpre hl => ?_⟩
  · rintro n ⟨p, hn⟩
    exact h.inv.tree.pub_lt (h.inv.tree.pub_placed (hplace hn ▸ Option.some_ne_none _))
  · simpa using (hplace hp).symm.trans (hplace hp')
  · refine hvalid.exact_key hn hpre ?_
    simpa [exactLeaf] using congrArg (Option.map Prod.fst) hl

/-- From both ends of what two inserts and a replacement have left. -/
theorem ArtMap.cursor_asks_replaced : ArtMap.Executes ArtMap.replacedOps ArtMap.replacedMem ∧
    Alone 0 ((Caller.next fun _ => .repin (.nextBack fun _ => .next fun _ => .stop)).drive
        (Cursor.new (.included [0]) (.excluded [3]))) ArtMap.replacedMem
      [(.forward, some ⟨2, [1]⟩), (.backward, some ⟨1, [2]⟩), (.forward, none)]
      ArtMap.replacedMem := by
  have hm := ArtMap.executes_replaced
  have hform : WellFormed ArtMap.replacedMem.tree := Interface.wellFormed_of_safe ArtMap.safe
    ArtMap.heap_roomy (Interface.Serial.reachable hm) fun _ => rfl
  have hlinked : (fun l : Leaf => ∃ p, Linked ArtMap.replacedMem.tree p (.leaf l)) = _ :=
    funext fun l => propext
      (Interface.serial_linked ArtMap.safe ArtMap.heap_roomy ArtMap.no_fails hm)
  obtain ⟨items, hitems, h⟩ := hform.cursor_asks (.included [0]) (.excluded [3])
  rw [hlinked] at hitems
  rw [hitems.unique ArtMap.lists_replaced] at h
  exact ⟨hm, h 0 _⟩

end Artmap
