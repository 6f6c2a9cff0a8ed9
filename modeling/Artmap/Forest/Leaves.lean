import Artmap.Forest.Surgery

/-!
# Leaves in nodes

A key whose path reaches a node is kept by that node, as the exact leaf if the key ends below
the prefix, and as a child otherwise.  `setLeaf` is the change of one key in its node, the
common form of `setExact` and `put`.
-/

namespace Artmap

open scoped List

/-- The content with another leaf, or none, for a key that goes on with `rest`. -/
def Content.setAt (c : Content) (rest : List Byte) (x : Option Leaf) : Content :=
  match rest with
  | [] => { c with exact := x }
  | b :: _ => c.setChild b (Slot.ofOption x)

@[simp] lemma Content.setAt_pre (c : Content) (rest : List Byte) (x : Option Leaf) :
    (c.setAt rest x).pre = c.pre := by
  cases rest <;> rfl

lemma Content.not_empty_setAt (c : Content) (rest : List Byte) (l : Leaf) :
    ¬ (c.setAt rest (some l)).Empty := by
  intro h
  cases rest with
  | nil => simp [Content.setAt, Content.Empty] at h
  | cons b rest =>
    have := h.2 b
    simp [Content.setAt, Slot.ofOption] at this

namespace Forest

variable {F : Forest} {ℓ : Loc} {e : ℕ} {p rest : List Byte} {n c : NodeId} {b : Byte}
  {x : Option Leaf} {k : Key}

/-- The key that reaches node `n` of epoch `e` and goes on with `rest` takes another leaf, or
none. -/
def setLeaf (F : Forest) (n : NodeId) (e : ℕ) (p : List Byte) (rest : List Byte)
    (x : Option Leaf) : Forest :=
  match rest with
  | [] => F.setExact n e p x
  | b :: _ => F.put (.child n b) e (p ++ F.pre n ++ [b]) (Slot.ofOption x)

@[simp] lemma setLeaf_place : (F.setLeaf n e p rest x).place = F.place := by
  cases rest <;> rfl

@[simp] lemma setLeaf_root : (F.setLeaf n e p rest x).root = F.root := by
  cases rest <;> rfl

lemma setLeaf_cont :
    (F.setLeaf n e p rest x).cont = Function.update F.cont n ((F.cont n).setAt rest x) := by
  cases rest <;> rfl

@[simp] lemma setLeaf_pre : (F.setLeaf n e p rest x).pre c = F.pre c := by
  simp only [pre, setLeaf_cont]
  by_cases h : c = n
  · subst h
    simp
  · simp [h]

theorem WF.setLeaf (hF : F.WF) (hn : F.place n = some (e, p))
    (hs : ∀ c, (F.cont n).slotAt rest ≠ .node c)
    (hx : ∀ l, x = some l → l.key = p ++ F.pre n ++ rest) : (F.setLeaf n e p rest x).WF := by
  cases rest with
  | nil => exact hF.setExact hn fun l hl => by simpa using hx l hl
  | cons b rest =>
    refine hF.put (at_child hn b) hs ?_ ?_
    · cases x <;> simp [Slot.ofOption]
    · intro l hl
      have hxl : x = some l := by
        cases x with
        | none => simp [Slot.ofOption] at hl
        | some l' =>
          simp only [Slot.ofOption, Slot.leaf.injEq] at hl
          rw [hl]
      rw [hx l hxl]
      exact ⟨rest, by simp⟩

/-- The map changes at one key. -/
lemma WF.setLeaf_map (hF : F.WF) (hn : F.place n = some (e, p))
    (hk : k = p ++ F.pre n ++ rest)
    (hs : ∀ c, (F.cont n).slotAt rest ≠ .node c)
    (hold : ∀ l, (F.cont n).slotAt rest = .leaf l → l.key = k)
    (hx : ∀ l, x = some l → l.key = k) :
    (F.setLeaf n e p rest x).map =
      Function.update F.map e (Function.update (F.map e) k x) := by
  funext e' k'
  by_cases he : e' = e
  · subst he
    rw [Function.update_self]
    cases rest with
    | nil =>
      rw [List.append_nil] at hk
      by_cases hkk : k' = k
      · simp [Forest.setLeaf, Forest.setExact, hkk, hk]
      · have : k' ≠ p ++ F.pre n := fun h => hkk (h.trans hk.symm)
        simp [Forest.setLeaf, Forest.setExact, hkk, this]
    | cons b rest =>
      show (F.put (.child n b) e' (p ++ F.pre n ++ [b]) (Slot.ofOption x)).map e' k' = _
      rw [put_map]
      by_cases hkk : k' = k
      · subst hkk
        have hpre : p ++ F.pre n ++ [b] <+: k' := by
          rw [hk]
          exact ⟨rest, by simp⟩
        simp only [true_and, if_pos hpre, Function.update_self]
        cases x with
        | none => rfl
        | some l => simp [Slot.ofOption, Slot.map, hx l rfl]
      · rw [Function.update_of_ne hkk]
        simp only [true_and]
        split
        · rename_i hpre
          -- Below the slot, only `k` can be present, before and after.
          have hmap := hF.map_slot (at_child hn b) hs hpre
          have hb : F.slot (.child n b) = (F.cont n).slotAt (b :: rest) := rfl
          rw [hmap, hb]
          have h1 : (Slot.ofOption x).map k' = none := by
            cases x with
            | none => rfl
            | some l => simp [Slot.ofOption, Slot.map, hx l rfl, hkk]
          rw [h1]
          cases hsl : (F.cont n).slotAt (b :: rest) with
          | null => rfl
          | leaf l => simp [Slot.map, hold l hsl, hkk]
          | node c => exact absurd hsl (hs c)
        · rfl
  · rw [Function.update_of_ne he]
    cases rest with
    | nil => simp [Forest.setLeaf, Forest.setExact, he]
    | cons b rest =>
      show (F.put (.child n b) e (p ++ F.pre n ++ [b]) (Slot.ofOption x)).map e' k' = _
      rw [put_map]
      simp [he]

/-- The map changes at one key, for a leaf at the root. -/
lemma WF.put_root_map (hF : F.WF) (hs : ∀ c, F.root e ≠ .node c)
    (hold : ∀ l, F.root e = .leaf l → l.key = k) (hx : ∀ l, x = some l → l.key = k) :
    (F.put (.root e) e [] (Slot.ofOption x)).map =
      Function.update F.map e (Function.update (F.map e) k x) := by
  funext e' k'
  rw [put_map]
  by_cases he : e' = e
  · subst he
    rw [Function.update_self]
    simp only [true_and, List.nil_prefix, if_true]
    by_cases hkk : k' = k
    · subst hkk
      rw [Function.update_self]
      cases x with
      | none => rfl
      | some l => simp [Slot.ofOption, Slot.map, hx l rfl]
    · rw [Function.update_of_ne hkk, hF.map_slot (at_root e') hs List.nil_prefix]
      have h1 : (Slot.ofOption x).map k' = none := by
        cases x with
        | none => rfl
        | some l => simp [Slot.ofOption, Slot.map, hx l rfl, hkk]
      rw [h1]
      show none = (F.root e').map k'
      cases hsl : F.root e' with
      | null => rfl
      | leaf l => simp [Slot.map, hold l hsl, hkk]
      | node c => exact absurd hsl (hs c)
  · rw [Function.update_of_ne he]
    simp [he]

/-! ## Nodes with a single leaf -/

/-- A leaf of a node is below it, and is what its key is mapped to. -/
lemma WF.map_leaf {l : Leaf} (hF : F.WF) (hn : F.place n = some (e, p))
    (hl : (F.cont n).slotAt rest = .leaf l) : F.map e l.key = some l ∧ p <+: l.key := by
  cases rest with
  | nil =>
    have hex : (F.cont n).exact = some l := by
      cases hex : (F.cont n).exact <;> simp [Content.slotAt, hex, Slot.ofOption] at hl ⊢
      exact hl
    have hmap := (hF.node hn).exact.trans hex
    rw [hF.key hmap]
    exact ⟨hmap, List.prefix_append _ _⟩
  | cons b rest =>
    have hholds := hF.holds (at_child hn b)
    rw [show F.slot (.child n b) = .leaf l from hl] at hholds
    obtain ⟨h1, h2⟩ := hholds
    refine ⟨by simpa using h2 l.key h1, List.IsPrefix.trans ?_ h1⟩
    rw [List.append_assoc]
    exact List.prefix_append _ _

/-- Nothing but the leaves of a node without inner children is below it. -/
lemma WF.map_of_leaves (hF : F.WF) (hn : F.place n = some (e, p)) {o : Option Leaf}
    (honly : ∀ rest, (F.cont n).slotAt rest = .null ∨
      ∃ l, o = some l ∧ (F.cont n).slotAt rest = .leaf l) {k : Key} (hk : p <+: k) :
    F.map e k = none ∨ ∃ l, o = some l ∧ k = l.key ∧ F.map e k = some l := by
  obtain ⟨rest, rfl⟩ := hk
  by_cases hoff : F.pre n <+: rest
  · obtain ⟨rest', rfl⟩ := hoff
    have hno : ∀ c, (F.cont n).slotAt rest' ≠ .node c := by
      rcases honly rest' with h | ⟨l, -, h⟩ <;> simp [h]
    rw [hF.map_node hn (List.append_assoc p _ _).symm hno]
    rcases honly rest' with h | ⟨l, rfl, h⟩
    · simp [h, Slot.map]
    · rw [h]
      by_cases hkey : p ++ (F.pre n ++ rest') = l.key
      · exact .inr ⟨l, rfl, hkey, if_pos hkey⟩
      · exact .inl (if_neg hkey)
  · exact .inl (hF.map_off hn rfl hoff)

/-- An empty node stands for nothing. -/
lemma WF.holds_null (hF : F.WF) (hn : F.place n = some (e, p)) (hem : (F.cont n).Empty) :
    F.Holds .null e p := by
  intro k hk
  have honly : ∀ rest, (F.cont n).slotAt rest = .null ∨
      ∃ l, (none : Option Leaf) = some l ∧ (F.cont n).slotAt rest = .leaf l := by
    intro rest
    left
    cases rest with
    | nil => simp [Content.slotAt, hem.1, Slot.ofOption]
    | cons b rest => exact hem.2 b
  rcases hF.map_of_leaves hn honly hk with h | ⟨l, h, -⟩
  · exact h
  · simp at h

/-- A node with a single leaf stands for the leaf. -/
lemma WF.holds_leaf {l : Leaf} (hF : F.WF) (hn : F.place n = some (e, p))
    (hl : (F.cont n).slotAt rest = .leaf l)
    (honly : ∀ rest, (F.cont n).slotAt rest = .null ∨ (F.cont n).slotAt rest = .leaf l) :
    F.Holds (.leaf l) e p := by
  obtain ⟨hmap, hpre⟩ := hF.map_leaf hn hl
  refine ⟨hpre, fun k hk => ?_⟩
  by_cases hkl : k = l.key
  · rw [if_pos hkl, hkl, hmap]
  · rw [if_neg hkl]
    rcases hF.map_of_leaves (o := some l) hn (fun rest => (honly rest).imp_right fun h =>
      ⟨l, rfl, h⟩) hk with h | ⟨l', h1, h2, -⟩
    · exact h
    · obtain rfl : l = l' := by simpa using h1
      exact absurd h2 hkl

end Forest

end Artmap
