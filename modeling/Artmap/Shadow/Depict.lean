import Artmap.Shadow.Home

/-!
# What can be read off the memory

`Reads` follows the slots from the root of a tree, by the loads of a reader.  It is a matter of the
memory alone; the shadow says what is seen through nodes whose latch is free (`Depicts`): the
leaves of the current map at their keys, and nothing where there is none.  When all latches are
free, that is everything that is linked.

A node that is being rewritten can be misread, but not so far as to lead out of the tree: its
cells hold the entries of its content at every moment.  So what is attached to the root, cell by
cell, through latched nodes or not, is the current tree (`Depicts.attached_node`) and the current
map (`Depicts.attached_leaf`), and whatever a reader is led to is attached (`Linked.attached`).
-/

namespace Artmap

open scoped List

/-- The slots that are reached from the root through nodes that are `ok`, each with the path of
prefixes and branch bytes that leads to it. -/
inductive Reads (m : TreeMem) (ok : NodeId → Prop) : List Byte → Slot → Prop where
  | root : Reads m ok [] m.root
  | exact {p : List Byte} {n : NodeId} {pre : PrefixSnapshot} {l : Leaf}
      (hn : Reads m ok p (.node n)) (hok : ok n)
      (hpre : loadPrefix.run (m.fields n) = some (pre, m.fields n))
      (hl : exactLeaf.run (m.fields n) = some (.leaf l, m.fields n)) :
      Reads m ok (p ++ pre.asSlice) (.leaf l)
  | child {p : List Byte} {n : NodeId} {pre : PrefixSnapshot} {b : Byte} {s : Slot}
      (hn : Reads m ok p (.node n)) (hok : ok n)
      (hpre : loadPrefix.run (m.fields n) = some (pre, m.fields n))
      (hs : (findChild (m.ty n) b).run (m.fields n) = some (s, m.fields n)) :
      Reads m ok (p ++ pre.asSlice ++ [b]) s

/-- What is linked from the root. -/
abbrev Linked (m : TreeMem) : List Byte → Slot → Prop :=
  Reads m fun _ => True

/-- What is attached to the root: it is there, or in a cell of a node that is attached. -/
inductive Attached (m : TreeMem) : Slot → Prop where
  | root : Attached m m.root
  | exact {n : NodeId} (hn : Attached m (.node n)) : Attached m (m.fields n .exactLeaf)
  | child {n : NodeId} (hn : Attached m (.node n)) (i : ℕ) : Attached m (m.fields n (.child i))

/-- What a reader is led to is attached. -/
lemma Linked.attached {m : TreeMem} {p : List Byte} {s : Slot} (hs : Linked m p s)
    (hne : s ≠ .null) : Attached m s := by
  induction hs with
  | root => exact .root
  | @exact p n pre l hn _ hpre hl ih =>
    have hl' : m.fields n .exactLeaf = .leaf l := by
      simpa [Artmap.exactLeaf] using congrArg (Option.map Prod.fst) hl
    exact hl' ▸ .exact (ih (by simp))
  | @child p n pre b s hn _ hpre hs ih =>
    obtain ⟨-, i, rfl⟩ := findChild_cell hs hne
    exact .child (ih (by simp)) i

/-- What is seen from the root while some nodes may be latched: those are not looked into. -/
abbrev Visible (m : TreeMem) : List Byte → Slot → Prop :=
  Reads m fun n => Free (m.latch (.node n))

/-- A map from keys to leaves agrees with what is seen in memory. -/
structure Agrees (m : TreeMem) (f : Key → Option Leaf) : Prop where
  leaf : ∀ {p l}, Visible m p (.leaf l) → f l.key = some l
  null : ∀ {p k}, Visible m p .null → p <+: k → f k = none
  /-- A key that leaves the path of a node within its prefix is absent. -/
  off : ∀ {p n k} {pre : PrefixSnapshot}, Visible m p (.node n) → Free (m.latch (.node n)) →
    loadPrefix.run (m.fields n) = some (pre, m.fields n) → p <+: k →
    ¬ p ++ pre.asSlice <+: k → f k = none
  /-- So is the key of a node without an exact leaf. -/
  exact : ∀ {p n} {pre : PrefixSnapshot}, Visible m p (.node n) → Free (m.latch (.node n)) →
    loadPrefix.run (m.fields n) = some (pre, m.fields n) →
    exactLeaf.run (m.fields n) = some (.null, m.fields n) → f (p ++ pre.asSlice) = none

/-- The memory stands for a forest, of which it holds the tree of epoch `e`; of what a node
stands for while its latch is held, its cells show the entries. -/
structure Depicts (m : TreeMem) (F : Forest) (e : ℕ) : Prop where
  wf : F.WF
  root : m.root = F.root e
  repr : ∀ {n p}, F.place n = some (e, p) → Free (m.latch (.node n)) →
    Repr (m.ty n) (m.fields n) (F.cont n)
  shows : ∀ {n p}, F.place n = some (e, p) → Shows (m.fields n) (F.cont n)

namespace Depicts

variable {m : TreeMem} {F : Forest} {e : ℕ} {p : List Byte} {s : Slot} {n : NodeId} {l : Leaf}
  {k : Key} {pre : PrefixSnapshot} {ℓ : Loc}

lemma prefix_eq (h : Depicts m F e) (hn : F.place n = some (e, p))
    (hfree : Free (m.latch (.node n)))
    (hpre : loadPrefix.run (m.fields n) = some (pre, m.fields n)) : pre.asSlice = F.pre n := by
  obtain ⟨pre', hrun, hof⟩ := (h.repr hn hfree).run_loadPrefix
  obtain rfl : pre = pre' := by simpa [hpre] using hrun
  exact hof.asSlice

/-- What is seen at the end of a path is in a location there, or is an exact leaf. -/
lemma seen (h : Depicts m F e) (hs : Visible m p s) :
    (∃ ℓ, F.At ℓ e p ∧ F.slot ℓ = s) ∨
      ∃ n q l, F.place n = some (e, q) ∧ p = q ++ F.pre n ∧ (F.cont n).exact = some l ∧
        s = .leaf l := by
  have hnode : ∀ {p n}, (∃ ℓ, F.At ℓ e p ∧ F.slot ℓ = .node n) ∨
      (∃ n' q l, F.place n' = some (e, q) ∧ p = q ++ F.pre n' ∧ (F.cont n').exact = some l ∧
        Slot.node n = .leaf l) → F.place n = some (e, p) := by
    rintro p n (⟨ℓ, hat, hs⟩ | ⟨_, _, _, _, _, _, hs⟩)
    · exact h.wf.place_of_slot hat hs
    · cases hs
  induction hs with
  | root => exact .inl ⟨.root e, Forest.at_root e, h.root.symm⟩
  | @exact p n pre l hn hfree hpre hl ih =>
    have hq := hnode ih
    have hex := (h.repr hq hfree).run_exactLeaf
    rw [hl] at hex
    refine .inr ⟨n, p, l, hq, by rw [h.prefix_eq hq hfree hpre], ?_, rfl⟩
    cases hc : (F.cont n).exact <;> simp [hc, Slot.ofOption] at hex
    rw [hex]
  | @child p n pre b s hn hfree hpre hs ih =>
    have hq := hnode ih
    have hchild := (h.repr hq hfree).run_findChild b
    rw [hs] at hchild
    refine .inl ⟨.child n b, ?_, by simpa [Forest.slot, eq_comm] using hchild⟩
    rw [h.prefix_eq hq hfree hpre]
    exact Forest.at_child hq b

lemma seen_node (h : Depicts m F e) (hs : Visible m p (.node n)) : F.place n = some (e, p) := by
  rcases h.seen hs with ⟨ℓ, hat, hs⟩ | ⟨_, _, _, _, _, _, hs⟩
  · exact h.wf.place_of_slot hat hs
  · cases hs

/-- What is seen is what the keys are mapped to. -/
lemma agrees (h : Depicts m F e) : Agrees m (F.map e) where
  leaf hs := by
    rcases h.seen hs with ⟨ℓ, hat, hs⟩ | ⟨n, q, l', hq, -, hl, hs⟩
    · obtain ⟨h1, h2⟩ : _ ∧ _ := by simpa [hs, Forest.Holds] using h.wf.holds hat
      simp [h2 _ h1]
    · obtain rfl : _ = l' := by simpa using hs
      have hmap := (h.wf.node hq).exact
      rw [hl] at hmap
      rwa [h.wf.key hmap]
  null hs hk := by
    rcases h.seen hs with ⟨ℓ, hat, hs⟩ | ⟨_, _, _, _, _, _, hs⟩
    · have hholds := h.wf.holds hat
      rw [hs] at hholds
      exact hholds _ hk
    · cases hs
  off hs hfree hpre hk hoff := by
    have hq := h.seen_node hs
    rw [h.prefix_eq hq hfree hpre] at hoff
    exact (h.wf.node hq).off _ hk hoff
  exact hs hfree hpre hex := by
    have hq := h.seen_node hs
    rw [h.prefix_eq hq hfree hpre, (h.wf.node hq).exact]
    have hex' := (h.repr hq hfree).run_exactLeaf
    rw [hex] at hex'
    cases hc : (F.cont _).exact <;> simp [hc, Slot.ofOption] at hex' ⊢

/-- What is attached is in a location of the tree, or is an exact leaf. -/
lemma attached (h : Depicts m F e) (hs : Attached m s) (hne : s ≠ .null) :
    (∃ ℓ q, F.At ℓ e q ∧ F.slot ℓ = s) ∨
      ∃ n q l, F.place n = some (e, q) ∧ (F.cont n).exact = some l ∧ s = .leaf l := by
  have hnode : ∀ {n}, (∃ ℓ q, F.At ℓ e q ∧ F.slot ℓ = .node n) ∨
      (∃ n' q l, F.place n' = some (e, q) ∧ (F.cont n').exact = some l ∧ Slot.node n = .leaf l) →
      ∃ q, F.place n = some (e, q) := by
    rintro n (⟨ℓ, q, hat, hs⟩ | ⟨_, _, _, _, _, hs⟩)
    · exact ⟨q, h.wf.place_of_slot hat hs⟩
    · cases hs
  induction hs with
  | root => exact .inl ⟨.root e, [], Forest.at_root e, h.root.symm⟩
  | @exact n hn ih =>
    obtain ⟨q, hq⟩ := hnode (ih (by simp))
    rw [(h.shows hq).exact_eq] at hne ⊢
    cases hc : (F.cont n).exact with
    | none => exact absurd (by rw [hc]; rfl) hne
    | some l => exact .inr ⟨n, q, l, hq, hc, rfl⟩
  | @child n hn i ih =>
    obtain ⟨q, hq⟩ := hnode (ih (by simp))
    have hcell : m.fields n (.child i) ∈ cells (m.fields n) := ⟨hne, i, rfl⟩
    rw [(h.shows hq).children] at hcell
    obtain ⟨-, b, hb⟩ := hcell
    exact .inl ⟨.child n b, _, Forest.at_child hq b, hb⟩

/-- Every location of the tree is attached, by induction on its depth. -/
lemma attached_slot (h : Depicts m F e) (hat : F.At ℓ e p) (hne : F.slot ℓ ≠ .null) :
    Attached m (F.slot ℓ) := by
  induction hi : p.length using Nat.strongRecOn generalizing ℓ p with
  | _ i ih =>
    cases ℓ with
    | root e' =>
      obtain ⟨rfl, rfl⟩ := hat
      show Attached m (F.root e')
      exact h.root ▸ .root
    | child n b =>
      obtain ⟨q, hq, rfl⟩ := hat
      obtain ⟨ℓ', hat', hs'⟩ := h.wf.placed hq
      have hlt : q.length < i := by
        simp only [← hi, List.length_append, List.length_cons, List.length_nil]
        omega
      have hn : Attached m (.node n) := hs' ▸ ih _ hlt hat' (by simp [hs']) rfl
      obtain ⟨-, j, hj⟩ : F.slot (.child n b) ∈ cells (m.fields n) := by
        rw [(h.shows hq).children]
        exact ⟨hne, b, rfl⟩
      exact hj ▸ .child hn j

/-- The nodes that are attached are those of the tree. -/
lemma attached_node (h : Depicts m F e) : Attached m (.node n) ↔ ∃ q, F.place n = some (e, q) := by
  constructor
  · intro hs
    rcases h.attached hs (by simp) with ⟨ℓ, q, hat, hs⟩ | ⟨_, _, _, _, _, hs⟩
    · exact ⟨q, h.wf.place_of_slot hat hs⟩
    · cases hs
  · rintro ⟨q, hq⟩
    obtain ⟨ℓ, hat, hs⟩ := h.wf.placed hq
    exact hs ▸ h.attached_slot hat (by simp [hs])

/-- The leaves that are attached are those that their keys are mapped to. -/
lemma attached_leaf (h : Depicts m F e) : Attached m (.leaf l) ↔ F.map e l.key = some l := by
  constructor
  · intro hs
    rcases h.attached hs (by simp) with ⟨ℓ, q, hat, hs⟩ | ⟨n, q, l', hq, hl, hs⟩
    · obtain ⟨h1, h2⟩ : _ ∧ _ := by simpa [hs, Forest.Holds] using h.wf.holds hat
      simp [h2 _ h1]
    · obtain rfl : _ = l' := by simpa using hs
      have hmap := (h.wf.node hq).exact
      rw [hl] at hmap
      rwa [h.wf.key hmap]
  · intro hk
    have hholds : F.Holds (F.slot (.root e)) e [] := h.wf.holds (Forest.at_root e)
    cases hr : F.root e with
    | null =>
      rw [show F.slot (.root e) = .null from hr] at hholds
      rw [hholds _ List.nil_prefix] at hk
      cases hk
    | leaf l' =>
      rw [show F.slot (.root e) = .leaf l' from hr] at hholds
      rw [hholds.2 _ List.nil_prefix] at hk
      obtain ⟨-, rfl⟩ : _ ∧ l' = l := by simpa using hk
      rw [← hr, ← h.root]
      exact .root
    | node r =>
      obtain ⟨n, q, rest, hq, hl⟩ := Shadow.leaf_of_map h.wf hr hk
      have hn := h.attached_node.mpr ⟨q, hq⟩
      cases rest with
      | nil =>
        rw [← show (F.cont n).slotAt [] = .leaf l from hl]
        show Attached m (Slot.ofOption (F.cont n).exact)
        rw [← (h.shows hq).exact_eq]
        exact .exact hn
      | cons b rest =>
        have hs := h.attached_slot (Forest.at_child hq b) (by simp [Forest.slot, show
          (F.cont n).child b = .leaf l from hl])
        rwa [show F.slot (.child n b) = .leaf l from hl] at hs

/-- When the latches of its nodes are free, all that is linked is seen. -/
lemma seen_of_linked (h : Depicts m F e)
    (hfree : ∀ n p, F.place n = some (e, p) → Free (m.latch (.node n))) (hs : Linked m p s) :
    Visible m p s := by
  induction hs with
  | root => exact .root
  | exact _ _ hpre hl ih => exact .exact ih (hfree _ _ (h.seen_node ih)) hpre hl
  | child _ _ hpre hs ih => exact .child ih (hfree _ _ (h.seen_node ih)) hpre hs

section Open

/-! And all of the tree is linked. -/

variable (h : Depicts m F e)
  (hfree : ∀ n p, F.place n = some (e, p) → Free (m.latch (.node n)))
include h hfree

lemma sees_child (hn : F.place n = some (e, p)) (hs : Visible m p (.node n)) (b : Byte) :
    Visible m (p ++ F.pre n ++ [b]) ((F.cont n).child b) := by
  have hr := h.repr hn (hfree n p hn)
  obtain ⟨pre, hpre, hof⟩ := hr.run_loadPrefix
  have := Reads.child hs (hfree n p hn) hpre (hr.run_findChild b)
  rwa [hof.asSlice] at this

lemma sees_exact (hn : F.place n = some (e, p)) (hs : Visible m p (.node n))
    (hl : (F.cont n).exact = some l) : Visible m (p ++ F.pre n) (.leaf l) := by
  have hr := h.repr hn (hfree n p hn)
  obtain ⟨pre, hpre, hof⟩ := hr.run_loadPrefix
  have := Reads.exact (l := l) hs (hfree n p hn) hpre (by rw [hr.run_exactLeaf, hl]; rfl)
  rwa [hof.asSlice] at this

/-- Every location is seen, by induction on its depth. -/
lemma sees (hat : F.At ℓ e p) : Visible m p (F.slot ℓ) := by
  induction hi : p.length using Nat.strongRecOn generalizing ℓ p with
  | _ i ih =>
    cases ℓ with
    | root e' =>
      obtain ⟨rfl, rfl⟩ := hat
      have hroot : Visible m [] m.root := .root
      rwa [h.root] at hroot
    | child n b =>
      obtain ⟨q, hq, rfl⟩ := hat
      obtain ⟨ℓ', hat', hs'⟩ := h.wf.placed hq
      have hlt : q.length < i := by
        simp only [← hi, List.length_append, List.length_cons, List.length_nil]
        omega
      have hn : Visible m q (.node n) := hs' ▸ ih _ hlt hat' rfl
      exact h.sees_child hfree hq hn b

lemma sees_node (hn : F.place n = some (e, p)) : Visible m p (.node n) := by
  obtain ⟨ℓ, hat, hs⟩ := h.wf.placed hn
  exact hs ▸ h.sees hfree hat

/-- The leaves that keys are mapped to are seen. -/
lemma sees_leaf (hk : F.map e k = some l) : ∃ p, Visible m p (.leaf l) := by
  cases hr : F.root e with
  | null =>
    have hholds : F.Holds (F.slot (.root e)) e [] := h.wf.holds (Forest.at_root e)
    rw [show F.slot (.root e) = .null from hr] at hholds
    rw [hholds k List.nil_prefix] at hk
    cases hk
  | leaf l' =>
    have hholds : F.Holds (F.slot (.root e)) e [] := h.wf.holds (Forest.at_root e)
    rw [show F.slot (.root e) = .leaf l' from hr] at hholds
    rw [hholds.2 k List.nil_prefix] at hk
    obtain ⟨-, rfl⟩ : _ ∧ l' = l := by simpa using hk
    exact ⟨[], hr ▸ h.sees hfree (Forest.at_root e)⟩
  | node r =>
    obtain ⟨n, q, rest, hq, hl⟩ := Shadow.leaf_of_map h.wf hr hk
    cases rest with
    | nil =>
      refine ⟨_, h.sees_exact hfree hq (h.sees_node hfree hq) ?_⟩
      cases hex : (F.cont n).exact <;> simp [Content.slotAt, hex, Slot.ofOption] at hl
      rw [hl]
    | cons b rest =>
      have hseen := h.sees_child hfree hq (h.sees_node hfree hq) b
      rw [show (F.cont n).child b = .leaf l from hl] at hseen
      exact ⟨_, hseen⟩

end Open

end Depicts

lemma Visible.linked {m : TreeMem} {p : List Byte} {s : Slot} (hs : Visible m p s) :
    Linked m p s := by
  induction hs with
  | root => exact .root
  | exact _ _ hpre hl ih => exact .exact ih trivial hpre hl
  | child _ _ hpre hs ih => exact .child ih trivial hpre hs

namespace Shadow

variable {m : TreeMem} {S : Shadow}

lemma Inv.depicts (hi : S.Inv m) : Depicts m S.forest S.cur where
  wf := hi.wf
  root := hi.root
  repr {n} p hn hfree := by
    refine hi.repr (by rw [hn]; simp) ?_
    have hw := hi.word (.node n)
    unfold WordOk at hw
    unfold Free at hfree
    split at hw
    · assumption
    · omega
  shows hn := hi.shows (by rw [hn]; simp)

/-- Nothing is in the trees to come. -/
lemma Inv.map_future (hi : S.Inv m) {e : ℕ} (he : S.cur < e) (k : Key) :
    S.forest.map e k = none := by
  have hholds : S.forest.Holds (S.forest.slot (.root e)) e [] := hi.wf.holds (Forest.at_root e)
  rw [show S.forest.slot (.root e) = .null from hi.future e he] at hholds
  exact hholds k List.nil_prefix

/-- Where no latch is held, the nodes of the current tree are free. -/
lemma Inv.free_of_idle (hi : S.Inv m) (ho : ∀ l, S.owner l = none) {n : NodeId} {p : List Byte}
    (hn : S.forest.place n = some (S.cur, p)) : Free (m.latch (.node n)) := by
  have hw := hi.word (.node n)
  simp only [WordOk, ho] at hw
  exact hw.resolve_right fun hob => lt_irrefl _ (hi.obsolete_past hob hn)

end Shadow

end Artmap
