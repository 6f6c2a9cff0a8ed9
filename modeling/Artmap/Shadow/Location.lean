import Artmap.Shadow.Commit

/-!
# Commits at a location

Every change of the forest but that of an exact leaf is made by a store to one location, the
root or a child slot, whose latch the thread holds.  Besides, the thread may change or move
nodes below the location, if it has latched them too, and publish new ones.  `LocCommit` says
so in terms of the forest alone.
-/

namespace Artmap

open scoped List

namespace Shadow

variable {t : ℕ} {m m' : TreeMem} {S : Shadow} {F : Forest} {new : List NodeId}
  {f : Option (ℕ × Key)} {n : NodeId} {e : ℕ} {ℓ : Loc} {s : Slot} {p : List Byte}
  {touched : NodeId → Prop}

/-- Thread `t` holds the latch of location `ℓ`. -/
def HoldsLoc (S : Shadow) (t : ℕ) : Loc → Prop
  | .root e => S.owner .root = some t ∧ e = S.cur
  | .child n _ => S.owner (.node n) = some t

/-- The forest `F` comes from that of `S` by a store of `s` to location `ℓ` of epoch `e`, by
changes to the nodes `touched`, and by the publication of the nodes `new`. -/
structure LocCommit (t : ℕ) (S : Shadow) (ℓ : Loc) (e : ℕ) (s : Slot) (F : Forest)
    (new : List NodeId) (touched : NodeId → Prop) : Prop where
  wf : F.WF
  loc : ∃ p, S.forest.At ℓ e p
  holds : S.HoldsLoc t ℓ
  root : F.root = (S.forest.setSlot ℓ s).root
  other : ∀ n, ¬ touched n → n ∉ new →
    F.cont n = (S.forest.setSlot ℓ s).cont n ∧ F.place n = S.forest.place n
  held : ∀ n, touched n → S.owner (.node n) = some t
  old : ∀ n, touched n → S.forest.place n ≠ none
  /-- What is touched is below the location, and what is above it is touched too. -/
  below : ∀ n ℓ' e' p', touched n → S.forest.At ℓ' e' p' → S.forest.slot ℓ' = .node n →
    ℓ' = ℓ ∨ ∃ x b, ℓ' = .child x b ∧ touched x
  /-- A node that stays keeps its entries. -/
  kept : ∀ n, touched n → F.place n ≠ none →
    (F.cont n).exact = ((S.forest.setSlot ℓ s).cont n).exact ∧
      (F.cont n).child = ((S.forest.setSlot ℓ s).cont n).child
  placed : ∀ n e' p', touched n ∨ n ∈ new → F.place n = some (e', p') → e' = e
  new_priv : ∀ n, n ∈ new → S.priv n = some t ∧ F.place n ≠ none

/-- The epoch of a location whose latch is held is current, or still to be cleared. -/
lemma HoldsLoc.epoch (h : S.HoldsLoc t ℓ) (hi : S.Inv m) (hat : S.forest.At ℓ e p) :
    e ≤ S.cur ∧ (e < S.cur → S.clearer e ≠ none) := by
  cases ℓ with
  | root e' =>
    obtain ⟨rfl, -⟩ := hat
    obtain ⟨-, rfl⟩ := h
    exact ⟨le_rfl, fun hlt => absurd hlt (lt_irrefl _)⟩
  | child x b =>
    obtain ⟨q, hq, -⟩ := hat
    refine ⟨hi.place_le hq, fun hlt => hi.clearer_of_held hq hlt ?_⟩
    have := hi.word_held h
    unfold Obsolete
    omega

lemma LocCommit.commit (h : LocCommit t S ℓ e s F new touched) (hi : S.Inv m)
    (hmem : m' = { m with root := m'.root, fields := m'.fields })
    (hroot : m'.root = F.root S.cur)
    (hfields : ∀ n, S.owner (.node n) ≠ some t → m'.fields n = m.fields n)
    (hrepr : ∀ n, n ∈ new → Repr (m.ty n) (m.fields n) (F.cont n))
    (hshows : ∀ n, S.owner (.node n) = some t → S.forest.place n ≠ none →
      Shows (m'.fields n) ((S.forest.setSlot ℓ s).cont n))
    (hcover : ∀ n p, F.place n = some (S.cur, p) → (F.cont n).Empty →
      ∃ t' k, Function.update S.follow t f t' = some (S.cur, k) ∧ p ++ F.pre n <+: k) :
    Commit t m S m' F new f where
  mem := hmem
  fields := hfields
  wf := h.wf
  root := hroot
  roots e' he := by
    rw [h.root]
    cases hℓ : ℓ with
    | root e₀ =>
      have hh := h.holds
      rw [hℓ] at hh
      have hne : e' ≠ e₀ := by
        rintro rfl
        exact he hh.2 hh.1
      simp [Forest.setSlot, hne]
    | child x b => rfl
  same n ho hn := by
    have hnt : ¬ touched n := fun ht => ho (h.held n ht)
    obtain ⟨h1, h2⟩ := h.other n hnt hn
    refine ⟨?_, h2⟩
    rw [h1]
    cases hℓ : ℓ with
    | root e₀ => rfl
    | child x b =>
      have hh := h.holds
      rw [hℓ] at hh
      have hnx : n ≠ x := by
        rintro rfl
        exact ho hh
      simp [Forest.setSlot, hnx]
  moved n ℓ' e' p' hat hslot := by
    by_cases hplace : F.place n = S.forest.place n
    · exact .inl hplace
    · right
      have hpl := hi.wf.place_of_slot hat hslot
      have hpub := hi.pub_placed (n := n) (by simp [hpl])
      have hnew : n ∉ new := by
        intro hn
        have := hi.priv_of_pub hpub
        simp [(h.new_priv n hn).1] at this
      have ht : touched n := by
        by_contra ht
        exact hplace (h.other n ht hnew).2
      rcases h.below n ℓ' e' p' ht hat hslot with rfl | ⟨x, b, rfl, hx⟩
      · have hh := h.holds
        cases ℓ' with
        | root e₀ => exact hh.2
        | child x b => exact hh
      · exact h.held x hx
  placed n hn hpl := by
    by_cases ht : touched n
    · exact h.old n ht
    · rwa [(h.other n ht hn).2] at hpl
  new_ok n hn := ⟨(h.new_priv n hn).1, (h.new_priv n hn).2, hrepr n hn⟩
  shows n ho hpl := by
    have hnew : n ∉ new := by
      intro hn
      have := hi.priv_of_pub (hi.pub_of_owner (n := n) (by simp [ho]))
      simp [(h.new_priv n hn).1] at this
    by_cases ht : touched n
    · obtain ⟨h1, h2⟩ := h.kept n ht hpl
      exact (hshows n ho (h.old n ht)).congr h1 h2
    · obtain ⟨h1, h2⟩ := h.other n ht hnew
      rw [h1]
      exact hshows n ho (by rwa [← h2])
  epoch n e' p' hn hpl := by
    obtain ⟨p, hat⟩ := h.loc
    by_cases hmine : touched n ∨ n ∈ new
    · obtain rfl := h.placed n e' p' hmine hpl
      exact h.holds.epoch hi hat
    · rw [not_or] at hmine
      have ho := hn.resolve_right hmine.2
      rw [(h.other n hmine.1 hmine.2).2] at hpl
      refine ⟨hi.place_le hpl, fun hlt => hi.clearer_of_held hpl hlt ?_⟩
      have := hi.word_held ho
      unfold Obsolete
      omega
  cover := hcover

end Shadow

end Artmap
