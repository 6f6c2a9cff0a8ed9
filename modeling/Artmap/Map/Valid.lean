import Artmap.Map.Length

/-!
# Valid trees

What `RawTree::validate_counting` checks of a tree that no call is working on: the keys of its
leaves go along their paths, its nodes are in order, free and not empty, no leaf of it is marked
as removed, and the length counter is the number of its leaves.  All of it is read off the
memory: `Linked` follows the slots from the root.
-/

namespace Artmap

open scoped List
open Content

/-- The rounds of `for_each_child` from byte `start` on meet the children `cs`. -/
def Meets (ty : NodeType) (F : Fields) : ℕ → List (Byte × Slot) → Prop
  | start, [] => (nextChild ty start).run F = some (none, F)
  | start, (b, c) :: cs =>
    (nextChild ty start).run F = some (some (b, c), F) ∧ Meets ty F (b + 1) cs

/-- The children of a node are in order, and as many as it says. -/
def Sorted (ty : NodeType) (F : Fields) : Prop :=
  ∃ cs, Meets ty F 0 cs ∧ cs.Pairwise (fun x y => x.1 < y.1) ∧ F .numChildren = cs.length

/-- The checks of `RawTree::validate_counting`, where every leaf counts for one. -/
structure Valid (m : Mem) : Prop where
  /-- A leaf is not marked as removed, and its key goes along its path. -/
  leaf_live : ∀ {p l}, Linked m.tree p (.leaf l) → m.leafs.removed l = false
  leaf_key : ∀ {p l}, Linked m.tree p (.leaf l) → p <+: l.key
  /-- A node is neither locked nor obsolete. -/
  free : ∀ {p n}, Linked m.tree p (.node n) → Free (m.tree.latch (.node n))
  prefix_le : ∀ {p n}, Linked m.tree p (.node n) → m.tree.fields n .prefixLen ≤ maxPrefixLen
  not_empty : ∀ {p n}, Linked m.tree p (.node n) → ¬ Emptied m.tree n
  /-- An exact leaf is a leaf, and its key is the path. -/
  exact_leaf : ∀ {p n c}, Linked m.tree p (.node n) → m.tree.fields n .exactLeaf ≠ Slot.node c
  exact_key : ∀ {p n l} {pre : PrefixSnapshot}, Linked m.tree p (.node n) →
    loadPrefix.run (m.tree.fields n) = some (pre, m.tree.fields n) →
    m.tree.fields n .exactLeaf = Slot.leaf l → l.key = p ++ pre.asSlice
  sorted : ∀ {p n}, Linked m.tree p (.node n) → Sorted (m.tree.ty n) (m.tree.fields n)
  /-- The root is null only if the tree has no leaf. -/
  root_null : m.tree.root = .null ↔ ∀ p l, ¬ Linked m.tree p (.leaf l)
  len : m.leafs.len = ({l | ∃ p, Linked m.tree p (.leaf l)} : Set Leaf).ncard

/-! ## The children of a node -/

section Children

variable {ty : NodeType} {F : Fields} {c : Content} {start : ℕ} {cs : List (Byte × Slot)}

/-- The rounds of `for_each_child` meet the children in order. -/
lemma Repr.meets (h : Repr ty F c) (start : ℕ) :
    ∃ cs, Meets ty F start cs ∧ cs.Pairwise (fun x y => x.1 < y.1) ∧
      (∀ x ∈ cs, start ≤ x.1.val) ∧
      ∀ b : Byte, start ≤ b.val → (c.child b ≠ .null ↔ b ∈ cs.map Prod.fst) := by
  -- Every round starts at a larger byte.
  induction hN : 256 - start using Nat.strongRecOn generalizing start with
  | _ N ih =>
    cases hnext : nextOf c.child start with
    | none =>
      refine ⟨[], (h.run_nextChild start).trans (by rw [hnext]), .nil, by simp, fun b hb => ?_⟩
      simpa using nextOf_eq_none.mp hnext b hb
    | some x =>
      obtain ⟨b, s⟩ := x
      obtain ⟨hle, hchild, hne, hmin⟩ := nextOf_eq_some.mp hnext
      have hb := b.isLt
      obtain ⟨cs, hmeets, hsorted, hge, hall⟩ := ih (256 - (b.val + 1)) (by omega)
        (b.val + 1) rfl
      refine ⟨(b, s) :: cs, ⟨(h.run_nextChild start).trans (by rw [hnext]), hmeets⟩, ?_, ?_, ?_⟩
      · refine List.pairwise_cons.mpr ⟨fun x hx => ?_, hsorted⟩
        have hlt : b.val < x.1.val := hge x hx
        exact hlt
      · intro x hx
        rcases List.mem_cons.mp hx with rfl | hx
        · exact hle
        · have := hge x hx
          omega
      · intro b' hb'
        rw [List.map_cons, List.mem_cons]
        rcases lt_trichotomy b' b with hlt | rfl | hgt
        · have hnull := hmin b' hb' hlt
          refine ⟨fun hno => absurd hnull hno, ?_⟩
          rintro (rfl | hmem)
          · exact absurd hlt (lt_irrefl _)
          · obtain ⟨x, hx, rfl⟩ := List.mem_map.mp hmem
            have h1 := hge x hx
            have h2 := Fin.lt_def.mp hlt
            omega
        · exact ⟨fun _ => .inl rfl, fun _ => hchild ▸ hne⟩
        · have hgt' := Fin.lt_def.mp hgt
          rw [hall b' (by omega)]
          exact ⟨.inr, fun hor => hor.resolve_left hgt.ne'⟩

lemma Repr.sorted (h : Repr ty F c) : Sorted ty F := by
  obtain ⟨cs, hmeets, hsorted, -, hall⟩ := h.meets 0
  refine ⟨cs, hmeets, hsorted, ?_⟩
  have hnodup : (cs.map Prod.fst).Nodup := by
    rw [List.Nodup, List.pairwise_map]
    exact hsorted.imp fun hlt => ne_of_lt hlt
  have hbytes : Content.bytes c.child = (cs.map Prod.fst).toFinset := by
    ext b
    rw [List.mem_toFinset, ← hall b (Nat.zero_le _)]
    exact Content.mem_bytes
  rw [h.count, hbytes, List.toFinset_card_of_nodup hnodup, List.length_map]

end Children

/-- A tree without empty nodes has a leaf below every node: below one with the longest path,
there are leaves only. -/
lemma Forest.WF.exists_leaf {F : Forest} (hF : F.WF) {e N : ℕ} {n : NodeId} {p : List Byte}
    (hn : F.place n = some (e, p)) (hlt : ∀ n p, F.place n = some (e, p) → n < N)
    (hne : ∀ n p, F.place n = some (e, p) → ¬ (F.cont n).Empty) : ∃ k l, F.map e k = some l := by
  classical
  let placed : Finset NodeId := (Finset.range N).filter fun n => ∃ p, F.place n = some (e, p)
  have hmem : ∀ {n p}, F.place n = some (e, p) → n ∈ placed := fun {n p} h =>
    Finset.mem_filter.mpr ⟨Finset.mem_range.mpr (hlt n p h), p, h⟩
  obtain ⟨m, hm, hmax⟩ := Finset.exists_max_image placed
    (fun n => (F.place n).elim 0 fun x => x.2.length) ⟨n, hmem hn⟩
  obtain ⟨q, hq⟩ := (Finset.mem_filter.mp hm).2
  have hleaf : ∀ b c, (F.cont m).child b ≠ .node c := by
    intro b c hc
    have hplace : F.place c = some (e, q ++ F.pre m ++ [b]) := by
      have hholds := hF.holds (Forest.at_child hq b)
      rw [show F.slot (.child m b) = .node c from hc] at hholds
      exact hholds
    have := hmax c (hmem hplace)
    simp only [hq, hplace, Option.elim_some, List.length_append, List.length_singleton] at this
    omega
  have hentry : ∃ rest l, (F.cont m).slotAt rest = .leaf l := by
    by_contra hno
    simp only [not_exists] at hno
    refine hne m q hq ⟨?_, fun b => ?_⟩
    · cases hx : (F.cont m).exact with
      | none => rfl
      | some l => exact absurd (by rw [Content.slotAt, hx]; rfl) (hno [] l)
    · cases hx : (F.cont m).child b with
      | null => rfl
      | leaf l => exact absurd hx (hno [b] l)
      | node c => exact absurd hx (hleaf b c)
  obtain ⟨rest, l, hl⟩ := hentry
  exact ⟨l.key, l, (hF.map_leaf hq hl).1⟩

namespace Interface

open Client (tree shadow scene)

variable {M : Interface} {full : ℕ → Bool} {c : M.client.object.Config} {w : M.client.W}

/-- Where no call is in progress, what is linked is in the forest. -/
lemma Behind.place_of_linked (h : Behind c w) (hq : c.Quiescent) {p : List Byte} {n : NodeId}
    (hn : Linked c.mem.tree p (.node n)) :
    (shadow w).forest.place n = some ((shadow w).cur, p) ∧ Free (c.mem.tree.latch (.node n)) ∧
      Repr (c.mem.tree.ty n) (c.mem.tree.fields n) ((shadow w).forest.cont n) := by
  have hplace := h.depicts.seen_node (h.depicts.seen_of_linked (h.free hq) hn)
  have hfree := h.free hq n p hplace
  exact ⟨hplace, hfree, h.depicts.repr hplace hfree⟩

/-- The path to a linked leaf is the beginning of its key. -/
lemma Behind.leaf_key (h : Behind c w) (hq : c.Quiescent) {p : List Byte} {l : Leaf}
    (hl : Linked c.mem.tree p (.leaf l)) : p <+: l.key := by
  rcases h.depicts.seen (h.depicts.seen_of_linked (h.free hq) hl) with
    ⟨ℓ, hat, hslot⟩ | ⟨n, q, l', hn, rfl, hexact, hl'⟩
  · have hholds := h.depicts.wf.holds hat
    rw [hslot] at hholds
    exact hholds.1
  · obtain rfl : l = l' := by simpa using hl'
    have hmap := (h.depicts.wf.node hn).exact
    rw [hexact] at hmap
    rw [h.depicts.wf.key hmap]

/-- **Valid trees**: whenever no call is in progress, the tree of a verified map passes the
checks. -/
theorem valid_of_safe (hM : M.Safe) (hfull : M.roomy → ∀ i, full i = false)
    (hc : Reachable full c) (hq : c.Quiescent) : Valid c.mem := by
  obtain ⟨w, h⟩ := behind hM hfull hc
  obtain ⟨E, hE⟩ := exists_vacating hc
  have hempty : ∀ {p n}, Linked c.mem.tree p (.node n) → ¬ Emptied c.mem.tree n := fun hn =>
    ((emptyDue_of_safe hM hfull hE).quiet hq _ _ hn).1
  have hexact : ∀ {p n}, Linked c.mem.tree p (.node n) →
      c.mem.tree.fields n .exactLeaf = Slot.ofOption ((shadow w).forest.cont n).exact := fun hn =>
    (h.place_of_linked hq hn).2.2.exact_eq
  refine
    { leaf_live := fun {p l} hl => ?_
      leaf_key := h.leaf_key hq
      free := fun hn => (h.place_of_linked hq hn).2.1
      prefix_le := fun hn => ?_
      not_empty := hempty
      exact_leaf := fun {p n c'} hn hs => ?_
      exact_key := fun {p n l pre} hn hpre hs => ?_
      sorted := fun hn => (h.place_of_linked hq hn).2.2.sorted
      root_null := ⟨fun hroot p l hl => ?_, fun hno => ?_⟩
      len := h.len_quiescent hq }
  · have hst := (h.linked_state hq).mpr ⟨p, hl⟩
    have hremoved : c.mem.leafs.removed l = true ↔ (w.ghost.2.st l).Removed := by
      rw [← h.mem]
      exact h.inv.client.leaf.removed l
    rw [hst] at hremoved
    exact Bool.eq_false_iff.mpr hremoved.mp
  · obtain ⟨-, -, hrepr⟩ := h.place_of_linked hq hn
    exact hrepr.pre_len.trans_le hrepr.pre_fits
  · rw [hexact hn] at hs
    cases hc' : ((shadow w).forest.cont n).exact <;> simp [hc', Slot.ofOption] at hs
  · obtain ⟨hplace, hfree, -⟩ := h.place_of_linked hq hn
    rw [hexact hn] at hs
    have hmap := (h.depicts.wf.node hplace).exact
    rw [h.depicts.prefix_eq hplace hfree hpre]
    cases hc' : ((shadow w).forest.cont n).exact with
    | none => simp [hc', Slot.ofOption] at hs
    | some l' =>
      obtain rfl : l' = l := by simpa [hc', Slot.ofOption] using hs
      rw [hc'] at hmap
      exact h.depicts.wf.key hmap
  · have hmap := (h.linked_iff hq).mp ⟨p, hl⟩
    have hholds := h.depicts.wf.holds (Forest.at_root (shadow w).cur)
    rw [show (shadow w).forest.slot (.root (shadow w).cur) = .null from
      h.depicts.root.symm.trans hroot] at hholds
    rw [hholds l.key (List.nil_prefix)] at hmap
    cases hmap
  · cases hroot : c.mem.tree.root with
    | null => rfl
    | leaf l => exact absurd (hroot ▸ Reads.root) (hno [] l)
    | node r =>
      exfalso
      have hr := (h.place_of_linked hq (hroot ▸ Reads.root : Linked c.mem.tree [] (.node r))).1
      have hlt : ∀ n q, (shadow w).forest.place n = some ((shadow w).cur, q) →
          n < (tree w).next := fun n q hn =>
        h.inv.tree.pub_lt (h.inv.tree.pub_placed (hn ▸ Option.some_ne_none _))
      obtain ⟨k, l, hl⟩ := h.depicts.wf.exists_leaf hr hlt fun n q hn hem => hempty
        (h.depicts.sees_node (h.free hq) hn).linked
        ((h.depicts.repr hn (h.free hq n q hn)).empty_iff.mpr hem)
      have hkey := h.depicts.wf.key hl
      obtain ⟨p, hp⟩ := (h.linked_iff hq).mpr (hkey ▸ hl)
      exact hno p l hp

end Interface

/-! ## The heap map -/

namespace ArtMap

open Interface

variable {L : List (Op × Ret)} {m : Mem}

/-- Leaves stand at their own keys. -/
def Keyed (f : Key → Option Leaf) : Prop :=
  ∀ k l, f k = some l → l.key = k

lemma Keyed.update {f : Key → Option Leaf} (hf : Keyed f) {key : Key} {o : Option Leaf}
    (ho : ∀ l, o = some l → l.key = key) : Keyed (Function.update f key o) := by
  intro k l hl
  by_cases hk : k = key
  · subst hk
    exact ho l (by simpa using hl)
  · exact hf k l (by simpa [hk] using hl)

lemma Keyed.step {f : Key → Option Leaf} (hf : Keyed f) (op : Op) : Keyed (step f op).1 := by
  cases op with
  | insert l mode =>
    have hput : Keyed (Function.update f l.key (some l)) := hf.update (by simp)
    cases mode with
    | replace => exact hput
    | insertIfAbsent =>
      simp only [ArtMap.step, insertStep]
      split
      · exact hput
      · exact hf
  | removeKey key => exact hf.update (by simp)
  | removeLeaf l =>
    simp only [ArtMap.step]
    split
    · exact hf.update (by simp)
    · exact hf
  | clear => exact fun _ _ h => by cases h
  | _ => exact hf

lemma Keyed.final {f : Key → Option Leaf} (hf : Keyed f) (ops : List Op) :
    Keyed (interface.spec.final f ops) := by
  induction ops generalizing f with
  | nil => exact hf
  | cons op ops ih => exact ih (hf.step op)

/-- **Valid trees** of the heap map: operations that are executed one at a time leave a tree that
passes the checks, and whose root is null exactly when they leave no key. -/
theorem executes_valid (hs : Executes L m) : Valid m ∧
    (m.tree.root = .null ↔
      ∀ k, interface.spec.final interface.spec.init (L.map Prod.fst) k = none) := by
  have hvalid : Valid m := valid_of_safe safe heap_roomy (Serial.reachable hs) fun _ => rfl
  refine ⟨hvalid, hvalid.root_null.trans ⟨fun hno k => ?_, fun hnone p l hl => ?_⟩⟩
  · by_contra hk
    obtain ⟨l, hl⟩ := Option.ne_none_iff_exists'.mp hk
    obtain rfl : l.key = k := Keyed.final (fun _ _ h => by cases h) _ k l hl
    obtain ⟨p, hp⟩ := (serial_linked safe heap_roomy no_fails hs).mpr hl
    exact hno p l hp
  · have hfinal := (serial_linked safe heap_roomy no_fails hs).mp ⟨p, hl⟩
    rw [hnone l.key] at hfinal
    cases hfinal

/-- The tree is valid after two inserts and a replacement. -/
theorem executes_valid_replaced : Executes replacedOps replacedMem ∧ Valid replacedMem ∧
    replacedMem.tree.root = .node 0 :=
  ⟨executes_replaced, (executes_valid executes_replaced).1, by decide +kernel⟩

end ArtMap

end Artmap
