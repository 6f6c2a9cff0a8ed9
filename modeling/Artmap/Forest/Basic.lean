import Artmap.Layout.Content

/-!
# Forests

What a tree is for: a finite map from keys to leaves, spread over nodes by path.  Because a
clear detaches a whole tree that other operations may still be working on, there is one tree
per *epoch*, the stretch between two clears, and the epochs together form a `Forest`.

Every node that is in some tree has a place: its epoch and the path of bytes that leads to it,
before its own prefix.  A location is a place for a slot, a root or a child slot of a placed
node.  `Forest.WF` ties slots, places and the map together location by location: a node in a
slot is placed there, a leaf in a slot is the map of all the keys through it, and so on.

The main fact about well-formed forests is `WF.chain`: of two locations of one epoch whose
paths are comparable, the upper one holds a node whose prefix and branch byte go on along the
lower path.  Hence a location is determined by its path, and a node is in only one slot.
-/

namespace Artmap

open scoped List

/-- One tree per epoch, by places. -/
structure Forest where
  root : ℕ → Slot
  /-- The epoch and the path of a node, before its prefix. -/
  place : NodeId → Option (ℕ × List Byte)
  cont : NodeId → Content
  /-- What the tree of an epoch maps a key to. -/
  map : ℕ → Key → Option Leaf

/-- A place for a slot. -/
inductive Loc where
  | root (e : ℕ)
  | child (n : NodeId) (b : Byte)
  deriving DecidableEq

/-- What a slot that is no node maps a key to. -/
def Slot.map : Slot → Key → Option Leaf
  | .leaf l, k => if k = l.key then some l else none
  | _, _ => none

/-- The slot that a key goes on to below the prefix of a node. -/
def Content.slotAt (c : Content) : List Byte → Slot
  | [] => Slot.ofOption c.exact
  | b :: _ => c.child b

namespace Forest

/-- Before the first operation. -/
def empty : Forest where
  root := fun _ => .null
  place := fun _ => none
  cont := fun _ => Content.fresh
  map := fun _ _ => none

variable (F : Forest)

/-- What a location holds. -/
def slot : Loc → Slot
  | .root e => F.root e
  | .child n b => (F.cont n).child b

/-- The prefix of a node. -/
def pre (n : NodeId) : List Byte :=
  (F.cont n).pre

/-- A location of epoch `e`, at the end of the path `p`. -/
def At : Loc → ℕ → List Byte → Prop
  | .root e', e, p => e' = e ∧ p = []
  | .child n b, e, p => ∃ q, F.place n = some (e, q) ∧ p = q ++ F.pre n ++ [b]

/-- A slot is right for the end of the path `p`. -/
def Holds (s : Slot) (e : ℕ) (p : List Byte) : Prop :=
  match s with
  | .null => ∀ k, p <+: k → F.map e k = none
  | .leaf l => p <+: l.key ∧ ∀ k, p <+: k → F.map e k = if k = l.key then some l else none
  | .node c => F.place c = some (e, p)

/-- The map and the own entries of a node agree. -/
structure NodeOk (n : NodeId) (e : ℕ) (p : List Byte) : Prop where
  len : (F.pre n).length ≤ 16
  /-- Keys that leave the prefix are absent. -/
  off : ∀ k, p <+: k → ¬ p ++ F.pre n <+: k → F.map e k = none
  exact : F.map e (p ++ F.pre n) = (F.cont n).exact

/-- A well-formed forest. -/
structure WF : Prop where
  holds : ∀ {ℓ e p}, F.At ℓ e p → F.Holds (F.slot ℓ) e p
  placed : ∀ {n e p}, F.place n = some (e, p) → ∃ ℓ, F.At ℓ e p ∧ F.slot ℓ = .node n
  node : ∀ {n e p}, F.place n = some (e, p) → F.NodeOk n e p
  key : ∀ {e k l}, F.map e k = some l → l.key = k

lemma empty_wf : empty.WF where
  holds := by
    intro ℓ e p h
    cases ℓ with
    | root e' => exact fun _ _ => rfl
    | child n b =>
      obtain ⟨q, hq, -⟩ := h
      simp [empty] at hq
  placed h := by simp [empty] at h
  node h := by simp [empty] at h
  key h := by simp [empty] at h

variable {F} {ℓ ℓ' : Loc} {e e' : ℕ} {p p' : List Byte} {n c : NodeId} {b : Byte}

lemma At.functional (h : F.At ℓ e p) (h' : F.At ℓ e' p') : e = e' ∧ p = p' := by
  cases ℓ with
  | root e₀ =>
    obtain ⟨rfl, rfl⟩ := h
    obtain ⟨rfl, rfl⟩ := h'
    exact ⟨rfl, rfl⟩
  | child n b =>
    obtain ⟨q, hq, rfl⟩ := h
    obtain ⟨q', hq', rfl⟩ := h'
    rw [hq] at hq'
    simp only [Option.some.injEq, Prod.mk.injEq] at hq'
    obtain ⟨rfl, rfl⟩ := hq'
    exact ⟨rfl, rfl⟩

lemma at_child (h : F.place n = some (e, p)) (b : Byte) :
    F.At (.child n b) e (p ++ F.pre n ++ [b]) :=
  ⟨p, h, rfl⟩

lemma at_root (e : ℕ) : F.At (.root e) e [] := ⟨rfl, rfl⟩

/-! ## Chains -/

lemma prefix_eq_of_length {α : Type} {x y z : List α} (hx : x <+: z) (hy : y <+: z)
    (h : x.length = y.length) : x = y := by
  rw [List.prefix_iff_eq_take.mp hx, List.prefix_iff_eq_take.mp hy, h]

/-- Of two locations on one path, the upper one is the lower one, or it holds a node that the
path goes through, if every node that has a place is in a slot there. -/
theorem chain_of_placed
    (hF : ∀ {n e p}, F.place n = some (e, p) → ∃ ℓ, F.At ℓ e p ∧ F.slot ℓ = .node n)
    (h : F.At ℓ e p) (h' : F.At ℓ' e p') (hp : p <+: p') :
    ℓ = ℓ' ∨ ∃ c b, F.slot ℓ = .node c ∧ p ++ F.pre c ++ [b] <+: p' := by
  -- By induction on the length of the lower path.
  induction hN : p'.length using Nat.strongRecOn generalizing ℓ ℓ' p p' with
  | _ N ih =>
    cases ℓ' with
    | root e₀ =>
      obtain ⟨rfl, rfl⟩ := h'
      obtain rfl := List.prefix_nil.mp hp
      cases ℓ with
      | root e₁ =>
        obtain ⟨rfl, -⟩ := h
        exact .inl rfl
      | child n b =>
        obtain ⟨q, -, hq⟩ := h
        simp at hq
    | child n' b' =>
      obtain ⟨q', hq', rfl⟩ := h'
      obtain ⟨ℓ'', hat'', hslot''⟩ := hF hq'
      have hlen : q'.length < N := by
        rw [← hN]
        simp
      have hq'p : q' <+: q' ++ F.pre n' ++ [b'] := by
        rw [List.append_assoc]
        exact List.prefix_append _ _
      rcases le_or_gt p.length q'.length with hle | hgt
      · -- The upper location is at or above the node of the lower one.
        have hpq : p <+: q' := List.prefix_of_prefix_length_le hp hq'p hle
        rcases ih q'.length hlen h hat'' hpq rfl with rfl | ⟨c, b, hs, hc⟩
        · obtain ⟨-, rfl⟩ := h.functional hat''
          exact .inr ⟨n', b', hslot'', List.prefix_rfl⟩
        · exact .inr ⟨c, b, hs, hc.trans hq'p⟩
      · cases ℓ with
        | root e₁ =>
          obtain ⟨-, rfl⟩ := h
          simp at hgt
        | child n b =>
          obtain ⟨q, hq, rfl⟩ := h
          obtain ⟨ℓn, hatn, hslotn⟩ := hF hq
          have hqp : q <+: q' ++ F.pre n' ++ [b'] := by
            refine List.IsPrefix.trans ?_ hp
            rw [List.append_assoc]
            exact List.prefix_append _ _
          have hsame : ℓn = ℓ'' → Loc.child n b = Loc.child n' b' := by
            rintro rfl
            have hnn : n = n' := by
              have := hslotn.symm.trans hslot''
              simpa using this
            subst hnn
            rw [hq] at hq'
            simp only [Option.some.injEq, Prod.mk.injEq, true_and] at hq'
            subst hq'
            have := prefix_eq_of_length hp List.prefix_rfl (by simp)
            simpa using this
          have hqlen : q.length < N := by
            have := hp.length_le
            simp only [List.length_append, List.length_singleton] at this hN
            omega
          rcases le_or_gt q.length q'.length with hle | hgt'
          · have hqq : q <+: q' := List.prefix_of_prefix_length_le hqp hq'p hle
            rcases ih q'.length hlen hatn hat'' hqq rfl with heq | ⟨c, b₂, hs, hc⟩
            · exact .inl (hsame heq)
            · have hcn : c = n := by
                have := hs.symm.trans hslotn
                simpa using this
              subst hcn
              have := hc.length_le
              simp only [List.length_append, List.length_singleton] at this hgt
              omega
          · have hqq : q' <+: q := List.prefix_of_prefix_length_le hq'p hqp hgt'.le
            rcases ih q.length hqlen hat'' hatn hqq rfl with heq | ⟨c, b₂, hs, hc⟩
            · exact .inl (hsame heq.symm)
            · have hcn : c = n' := by
                have := hs.symm.trans hslot''
                simpa using this
              subst hcn
              have h1 := hc.length_le
              have h2 := hp.length_le
              simp only [List.length_append, List.length_singleton] at h1 h2
              omega

theorem WF.chain (hF : F.WF) (h : F.At ℓ e p) (h' : F.At ℓ' e p') (hp : p <+: p') :
    ℓ = ℓ' ∨ ∃ c b, F.slot ℓ = .node c ∧ p ++ F.pre c ++ [b] <+: p' :=
  chain_of_placed hF.placed h h' hp

/-- A location is determined by its path. -/
lemma WF.at_inj (hF : F.WF) (h : F.At ℓ e p) (h' : F.At ℓ' e p) : ℓ = ℓ' := by
  rcases hF.chain h h' List.prefix_rfl with heq | ⟨c, b, -, hc⟩
  · exact heq
  · have := hc.length_le
    simp at this

/-- Nothing is below a location that holds no node. -/
lemma WF.chain_leaf (hF : F.WF) (h : F.At ℓ e p) (h' : F.At ℓ' e p') (hp : p <+: p')
    (hs : ∀ c, F.slot ℓ ≠ .node c) : ℓ = ℓ' := by
  rcases hF.chain h h' hp with heq | ⟨c, b, hc, -⟩
  · exact heq
  · exact absurd hc (hs c)

/-- A node is in one location only. -/
lemma WF.slot_inj (hF : F.WF) (h : F.At ℓ e p) (h' : F.At ℓ' e' p') (hs : F.slot ℓ = .node c)
    (hs' : F.slot ℓ' = .node c) : ℓ = ℓ' := by
  have h1 : F.place c = some (e, p) := by
    have := hF.holds h
    rw [hs] at this
    exact this
  have h2 : F.place c = some (e', p') := by
    have := hF.holds h'
    rw [hs'] at this
    exact this
  rw [h1] at h2
  simp only [Option.some.injEq, Prod.mk.injEq] at h2
  obtain ⟨rfl, rfl⟩ := h2
  exact hF.at_inj h h'

lemma WF.place_of_slot (hF : F.WF) (h : F.At ℓ e p) (hs : F.slot ℓ = .node c) :
    F.place c = some (e, p) := by
  have := hF.holds h
  rw [hs] at this
  exact this

/-- A location whose path goes through a placed node is below it. -/
lemma WF.through (hF : F.WF) (hn : F.place n = some (e, p)) (h' : F.At ℓ' e p')
    (hp : p <+: p') : F.slot ℓ' = .node n ∧ p' = p ∨ ∃ b, p ++ F.pre n ++ [b] <+: p' := by
  obtain ⟨ℓ, hat, hs⟩ := hF.placed hn
  rcases hF.chain hat h' hp with rfl | ⟨c, b, hc, hpre⟩
  · exact .inl ⟨hs, (h'.functional hat).2⟩
  · have hcn : c = n := by
      have := hc.symm.trans hs
      simpa using this
    subst hcn
    exact .inr ⟨b, hpre⟩

/-! ## Reading a forest -/

section Read

variable {k : Key} {l : Leaf}

/-- The map below a location that holds a leaf or nothing. -/
lemma WF.map_slot (hF : F.WF) (h : F.At ℓ e p) (hs : ∀ c, F.slot ℓ ≠ .node c)
    (hk : p <+: k) : F.map e k = (F.slot ℓ).map k := by
  have hh := hF.holds h
  cases hsl : F.slot ℓ with
  | null =>
    rw [hsl] at hh
    exact hh k hk
  | leaf l =>
    rw [hsl] at hh
    exact hh.2 k hk
  | node c => exact absurd hsl (hs c)

/-- The map at a key whose path ends at a placed node, in a leaf or in nothing. -/
lemma WF.map_node (hF : F.WF) (hn : F.place n = some (e, p)) {rest : List Byte}
    (hk : k = p ++ F.pre n ++ rest) (hs : ∀ c, (F.cont n).slotAt rest ≠ .node c) :
    F.map e k = ((F.cont n).slotAt rest).map k := by
  cases rest with
  | nil =>
    have hex : F.map e k = (F.cont n).exact := by
      rw [hk, List.append_nil]
      exact (hF.node hn).exact
    rw [hex]
    cases hx : (F.cont n).exact with
    | none => simp [Content.slotAt, hx, Slot.ofOption, Slot.map]
    | some l =>
      have hl := hF.key (hex.trans hx)
      simp [Content.slotAt, hx, Slot.ofOption, Slot.map, hl]
  | cons b rest =>
    refine hF.map_slot (at_child hn b) hs ?_
    rw [hk]
    exact ⟨rest, by simp⟩

/-- A key that leaves the prefix of a placed node is absent. -/
lemma WF.map_off (hF : F.WF) (hn : F.place n = some (e, p)) {rest : List Byte}
    (hk : k = p ++ rest) (hoff : ¬ F.pre n <+: rest) : F.map e k = none := by
  refine (hF.node hn).off k ⟨rest, hk.symm⟩ fun h => hoff ?_
  rw [hk] at h
  exact (List.prefix_append_right_inj p).mp h

end Read

end Forest

end Artmap
