import Artmap.Layout.Node

/-!
# What a node keeps, and reads without a latch

`emptied_by` and `rest` on the content of a node, and the list of the node programs that only
load.  A program that only loads answers whatever the fields hold, so an optimistic reader
never fails; what it answers means something only once the node's version is validated.
-/

namespace Artmap

open NodeM Content

variable {ty : NodeType} {F : Fields} {c : Content} {b : Byte}

/-- The content without the entry that `taken` takes out. -/
def Content.without (c : Content) : Taken → Content
  | .exact => { c with exact := none }
  | .child b => c.setChild b .null
  | .nothing => c

/-- The entry that `taken` takes out is there. -/
def Taken.In (taken : Taken) (c : Content) : Prop :=
  match taken with
  | .exact => c.exact ≠ none
  | .child b => c.child b ≠ .null
  | .nothing => True

/-- The number of entries of a node. -/
def Content.entries (c : Content) : ℕ :=
  (bytes c.child).card + if c.exact = none then 0 else 1

lemma Content.entries_eq_zero : c.entries = 0 ↔ c.Empty := by
  simp only [entries, Nat.add_eq_zero_iff, bytes_eq_empty, Empty]
  constructor
  · rintro ⟨h1, h2⟩
    refine ⟨?_, h1⟩
    by_contra hne
    simp [hne] at h2
  · rintro ⟨h1, h2⟩
    exact ⟨h2, by simp [h1]⟩

lemma ofOption_eq_null {e : Option Leaf} : Slot.ofOption e = .null ↔ e = none := by
  cases e <;> simp [Slot.ofOption]

lemma Taken.In.child {taken : Taken} (h : taken.In c) (hb : taken = .child b) :
    c.child b ≠ .null := by
  subst hb
  exact h

lemma Taken.nothing_child (b : Byte) (hb : Taken.nothing = .child b) : c.child b ≠ .null := by
  cases hb

/-- An entry that is not there is counted all the same if it is a child. -/
lemma Content.le_entries_without (taken : Taken) :
    (bytes c.child).card + (decide (Slot.ofOption c.exact ≠ .null ∧ taken ≠ .exact)).toNat -
      taken.children ≤ (c.without taken).entries := by
  cases taken with
  | exact => simp [entries, without, Taken.children]
  | child b =>
    have hcard : (bytes c.child).card - 1 ≤ (bytes (Function.update c.child b .null)).card := by
      rw [bytes_update_null]
      exact Finset.pred_card_le_card_erase
    simp only [entries, without, Taken.children, setChild_child, setChild_exact, ne_eq,
      ofOption_eq_null]
    by_cases he : c.exact = none
    · simpa [he] using hcard
    · simp [he]
      omega
  | nothing =>
    by_cases he : c.exact = none <;> simp [entries, without, Taken.children, ofOption_eq_null, he]

lemma Content.entries_without {taken : Taken} (ht : ∀ b, taken = .child b → c.child b ≠ .null) :
    (bytes c.child).card + (decide (Slot.ofOption c.exact ≠ .null ∧ taken ≠ .exact)).toNat -
      taken.children = (c.without taken).entries := by
  cases taken with
  | exact => simp [entries, without, Taken.children]
  | child b =>
    have hb : c.child b ≠ .null := ht b rfl
    have hpos : (bytes c.child).card ≠ 0 :=
      Finset.card_ne_zero_of_mem (a := b) (by simpa using hb)
    simp only [entries, without, Taken.children, setChild_child, setChild_exact,
      card_clearChild hb, ne_eq, ofOption_eq_null]
    by_cases he : c.exact = none
    · simp [he]
    · simp [he]
      omega
  | nothing =>
    by_cases he : c.exact = none <;> simp [entries, without, Taken.children, ofOption_eq_null, he]

/-- `emptied_by` decides whether taking out an entry empties the node. -/
lemma Repr.run_emptiedBy (h : Repr ty F c) {taken : Taken}
    (ht : ∀ b, taken = .child b → c.child b ≠ .null) :
    ∃ r, (emptiedBy ty taken).run F = some (r, F) ∧ (r = true ↔ (c.without taken).Empty) := by
  refine ⟨_, by
    simp only [emptiedBy, bind_eq, run_bind, h.run_exactLeaf, Option.bind_some,
      h.run_numChildren, pure_eq, run_ret, c.entries_without ht]
    rfl, ?_⟩
  simp [Content.entries_eq_zero]

/-! ## `rest` -/

/-- `rest` describes what a node holds. -/
def Rest.Of (c : Content) : Rest → Prop
  | .empty => c.Empty
  | .leaf s => s.isLeaf = true ∧
      ((s = Slot.ofOption c.exact ∧ ∀ b, c.child b = .null) ∨
        (c.exact = none ∧ ∃ b, c.child b = s ∧ ∀ x, x ≠ b → c.child x = .null))
  | .inner b s => s.isLeaf = false ∧ s ≠ .null ∧ c.exact = none ∧ c.child b = s ∧
      ∀ x, x ≠ b → c.child x = .null
  | .many => 2 ≤ c.entries

/-- The entries of a content below a byte. -/
def Content.below (c : Content) (start : ℕ) : Content :=
  { c with child := fun b => if b.val < start then c.child b else .null }

lemma Content.below_eq {start start' : ℕ} (hle : start ≤ start')
    (h : ∀ b : Byte, start ≤ b.val → b.val < start' → c.child b = .null) :
    c.below start' = c.below start := by
  simp only [below, mk.injEq, true_and]
  funext b
  by_cases h1 : b.val < start
  · simp [h1, lt_of_lt_of_le h1 hle]
  · by_cases h2 : b.val < start'
    · simp [h1, h2, h b (not_lt.mp h1) h2]
    · simp [h1, h2]

lemma Content.below_all {start : ℕ} (h : ∀ b : Byte, start ≤ b.val → c.child b = .null) :
    c.below start = c := by
  cases c with
  | mk pre exact child =>
    simp only [below, mk.injEq, true_and]
    funext b
    by_cases h1 : b.val < start
    · simp [h1]
    · simp [h1, (h b (not_lt.mp h1)).symm]

/-- The next child, added to those below it. -/
lemma Content.below_next {start : ℕ} {s : Slot} (h : nextOf c.child start = some (b, s)) :
    (c.below start).child b = .null ∧ (c.below start).setChild b s = c.below (b.val + 1) ∧
      (bytes (c.below start).child).card < (bytes c.child).card := by
  obtain ⟨h1, h2, h3, h4⟩ := nextOf_eq_some.mp h
  have hnull : (c.below start).child b = .null := by
    simp [below, Nat.not_lt.mpr h1]
  refine ⟨hnull, ?_, ?_⟩
  · have hbelow : c.below b.val = c.below start :=
      below_eq h1 fun x hx hxb => h4 x hx hxb
    rw [← hbelow]
    simp only [below, setChild]
    congr 1
    funext x
    by_cases hx : x = b
    · subst hx
      simp [h2]
    · have : x.val < b.val + 1 ↔ x.val < b.val := by
        have : x.val ≠ b.val := fun he => hx (Fin.ext he)
        omega
      simp [hx, this]
  · refine Finset.card_lt_card ⟨fun x hx => ?_, fun hsub => ?_⟩
    · simp only [mem_bytes, below] at hx ⊢
      split at hx
      · exact hx
      · simp at hx
    · have hb : b ∈ bytes (c.below start).child := hsub (by simpa [h2] using h3)
      simp [hnull] at hb

/-- A second entry makes many. -/
lemma two_le_entries {rest : Rest} {start : ℕ} (hr : rest.Of (c.below start))
    (hne : rest ≠ .empty) (hb : c.child b ≠ .null) (hs : start ≤ b.val) : 2 ≤ c.entries := by
  have hlow : ∀ {x : Byte}, (c.below start).child x ≠ .null → x ≠ b ∧ c.child x ≠ .null := by
    intro x hx
    simp only [below] at hx
    split at hx
    · rename_i hlt
      exact ⟨fun he => by rw [he] at hlt; omega, hx⟩
    · simp at hx
  have hpair : ∀ {x : Byte}, x ≠ b → c.child x ≠ .null → 2 ≤ (bytes c.child).card := by
    intro x hxb hx
    have hsub : {x, b} ⊆ bytes c.child := by
      intro y hy
      rcases Finset.mem_insert.mp hy with rfl | hy
      · simpa using hx
      · rw [Finset.mem_singleton.mp hy]
        simpa using hb
    have := Finset.card_le_card hsub
    rwa [Finset.card_pair hxb] at this
  have hone : 1 ≤ (bytes c.child).card :=
    Finset.card_pos.mpr ⟨b, by simpa using hb⟩
  have hexact : c.exact ≠ none → 2 ≤ c.entries := by
    intro he
    simp only [entries, he, if_false]
    omega
  have hchild : ∀ {x : Byte}, (c.below start).child x ≠ .null → 2 ≤ c.entries := by
    intro x hx
    obtain ⟨h1, h2⟩ := hlow hx
    have := hpair h1 h2
    simp only [entries]
    omega
  cases rest with
  | empty => exact absurd rfl hne
  | leaf s =>
    obtain ⟨hl, ⟨he, -⟩ | ⟨-, x, hx, -⟩⟩ := hr
    · apply hexact
      intro hnone
      simp only [below, hnone, Slot.ofOption] at he
      simp [he, Slot.isLeaf] at hl
    · apply hchild (x := x)
      rw [hx]
      rintro rfl
      simp [Slot.isLeaf] at hl
  | inner x s =>
    obtain ⟨-, hs', -, hx, -⟩ := hr
    exact hchild (x := x) (by rw [hx]; exact hs')
  | many =>
    have hle : (bytes (c.below start).child).card ≤ (bytes c.child).card - 1 := by
      have hsub : bytes (c.below start).child ⊆ (bytes c.child).erase b := by
        intro x hx
        obtain ⟨h1, h2⟩ := hlow (by simpa using hx)
        simpa using ⟨h1, h2⟩
      have := Finset.card_le_card hsub
      rwa [Finset.card_erase_of_mem (by simpa using hb)] at this
    have hr' : 2 ≤ (bytes (c.below start).child).card + if c.exact = none then 0 else 1 := hr
    show 2 ≤ (bytes c.child).card + if c.exact = none then 0 else 1
    split at hr'
    · rename_i he
      rw [if_pos he]
      omega
    · rename_i he
      rw [if_neg he]
      omega

/-- The first entry found is a leaf or an inner child. -/
lemma rest_first {start : ℕ} (hr : Rest.Of (c.below start) .empty) (hb : c.child b ≠ .null)
    (hno : ∀ x : Byte, start ≤ x.val → x < b → c.child x = .null) :
    Rest.Of (c.below (b.val + 1))
      (if (c.child b).isLeaf then .leaf (c.child b) else .inner b (c.child b)) := by
  have hexact : c.exact = none := hr.1
  have hself : (c.below (b.val + 1)).child b = c.child b := by simp [below]
  have hother : ∀ x, x ≠ b → (c.below (b.val + 1)).child x = .null := by
    intro x hxb
    simp only [below]
    split
    · rename_i hlt
      have hlt' : x < b := lt_of_le_of_ne (Nat.lt_succ_iff.mp hlt) hxb
      by_cases hxs : start ≤ x.val
      · exact hno x hxs hlt'
      · have := hr.2 x
        simpa [below, not_le.mp hxs] using this
    · rfl
  split
  · rename_i hl
    exact ⟨hl, .inr ⟨hexact, b, hself, hother⟩⟩
  · rename_i hl
    exact ⟨by simpa using hl, hb, hexact, hself, hother⟩

/-- The loop of `rest`. -/
lemma Repr.run_restFrom (h : Repr ty F c) {taken : Taken} (fuel start : ℕ) (rest : Rest)
    (hfuel : 257 ≤ fuel + start) (hr : rest.Of ((c.without taken).below start))
    (hmany : rest ≠ .many) :
    ∃ r, (restFrom ty taken fuel start rest).run F = some (r, F) ∧
      r.Of (c.without taken) := by
  have hchild : ∀ x, taken ≠ .child x → (c.without taken).child x = c.child x := by
    intro x hx
    cases taken with
    | exact => rfl
    | child y =>
      have hxy : x ≠ y := fun he => hx (by rw [he])
      simp [Content.without, hxy]
    | nothing => rfl
  have htaken : ∀ x, c.child x = .null → (c.without taken).child x = .null := by
    intro x hx
    by_cases hxt : taken = .child x
    · simp [hxt, Content.without]
    · rw [hchild x hxt, hx]
  induction fuel generalizing start rest with
  | zero =>
    refine ⟨rest, rfl, ?_⟩
    rwa [Content.below_all] at hr
    intro x hx
    have := x.isLt
    omega
  | succ fuel ih =>
    simp only [restFrom, bind_eq, run_bind, h.run_nextChild, Option.bind_some]
    cases hn : nextOf c.child start with
    | none =>
      refine ⟨rest, rfl, ?_⟩
      rw [nextOf_eq_none] at hn
      rwa [Content.below_all fun x hx => htaken x (hn x hx)] at hr
    | some p =>
      obtain ⟨x, s⟩ := p
      obtain ⟨hx1, rfl, hx3, hx4⟩ := nextOf_eq_some.mp hn
      have hskip : ∀ y : Byte, start ≤ y.val → y < x → (c.without taken).child y = .null :=
        fun y hy hlt => htaken y (hx4 y hy hlt)
      by_cases ht : taken = .child x
      · simp only [ht, ↓reduceIte]
        rw [← ht]
        refine ih (x.val + 1) rest (by omega) ?_ hmany
        rwa [Content.below_eq (show start ≤ x.val + 1 by omega)]
        intro y hy hlt
        rcases Nat.lt_or_eq_of_le (Nat.lt_succ_iff.mp hlt) with hlt' | heq
        · exact hskip y hy hlt'
        · rw [Fin.ext heq, ht]
          simp [Content.without]
      · have hxc : (c.without taken).child x = c.child x := hchild x ht
        simp only [ht, ↓reduceIte]
        by_cases he : rest = .empty
        · subst he
          simp only [↓reduceIte]
          have hfirst := rest_first hr (by rw [hxc]; exact hx3) hskip
          rw [hxc] at hfirst
          refine ih (x.val + 1) _ (by omega) hfirst ?_
          split <;> simp
        · simp only [he, ↓reduceIte, pure_eq, run_ret]
          exact ⟨.many, rfl, two_le_entries hr he (by rw [hxc]; exact hx3) hx1⟩

/-- `rest` answers with what the node holds besides the taken entry. -/
lemma Repr.run_restOf (h : Repr ty F c) (taken : Taken) :
    ∃ r, (restOf ty taken).run F = some (r, F) ∧ r.Of (c.without taken) := by
  simp only [restOf, bind_eq, run_bind, h.run_exactLeaf, Option.bind_some, h.run_numChildren]
  have hle := c.le_entries_without taken
  by_cases h2 : 2 ≤ (bytes c.child).card +
      (decide (Slot.ofOption c.exact ≠ .null ∧ taken ≠ .exact)).toNat - taken.children
  · rw [if_pos h2]
    exact ⟨.many, rfl, h2.trans hle⟩
  · rw [if_neg h2]
    have hnull : ∀ b, ((c.without taken).below 0).child b = .null := by
      intro b
      simp [Content.below]
    have hexact : (c.without taken).exact = if taken = .exact then none else c.exact := by
      cases taken <;> rfl
    refine h.run_restFrom 257 0 _ (by omega) ?_ ?_
    · by_cases he : Slot.ofOption c.exact ≠ .null ∧ taken ≠ .exact
      · rw [if_pos (by simpa using he)]
        refine ⟨?_, .inl ⟨?_, hnull⟩⟩
        · cases hc : c.exact with
          | none => simp [hc, Slot.ofOption] at he
          | some l => rfl
        · simp [Content.below, hexact, he.2]
      · rw [if_neg (by simpa using he)]
        refine ⟨?_, hnull⟩
        simp only [Content.below, hexact]
        by_cases hte : taken = .exact
        · simp [hte]
        · rw [if_neg hte]
          by_contra hne
          exact he ⟨by rwa [ne_eq, ofOption_eq_null], hte⟩
    · split <;> simp

/-! ## Programs that only load -/

lemma readOnly_exactLeaf : exactLeaf.ReadOnly := fun _ => trivial

lemma readOnly_numChildrenMax (cap : ℕ) : (numChildrenMax cap).ReadOnly := fun _ => trivial

lemma readOnly_numChildren : (numChildren ty).ReadOnly := readOnly_numChildrenMax _

lemma readOnly_isFull : (isFull ty).ReadOnly :=
  readOnly_numChildren.bind fun _ => trivial

lemma readOnly_prefixLen : prefixLen.ReadOnly := fun _ => trivial

lemma readOnly_loadPrefix : loadPrefix.ReadOnly := by
  refine readOnly_prefixLen.bind fun n => ?_
  split
  · trivial
  · exact fun _ _ => trivial

lemma readOnly_loadKeys : (loadKeys ty).ReadOnly := by
  cases ty
  · exact fun _ => trivial
  all_goals exact fun _ _ => trivial

lemma readOnly_findSorted : (findSorted ty b).ReadOnly := by
  refine (readOnly_numChildrenMax _).bind fun n => readOnly_loadKeys.bind fun keys => ?_
  split
  · trivial
  · exact fun _ => trivial

lemma readOnly_findChild : (findChild ty b).ReadOnly := by
  cases ty
  · exact readOnly_findSorted
  · exact readOnly_findSorted
  · refine (readOnly_load (.childIndex b)).bind fun i => ?_
    split
    · trivial
    · exact fun _ => trivial
  · exact fun _ => trivial

lemma readOnly_scanSorted (keys : ℕ → Byte) (ok : Byte → Bool) (is : List ℕ) :
    (scanSorted keys ok is).ReadOnly := by
  induction is with
  | nil => trivial
  | cons i is ih =>
    unfold scanSorted
    split
    · refine (readOnly_load (.child i)).bind fun s => ?_
      split
      · exact ih
      · trivial
    · exact ih

lemma readOnly_bitmapNextFrom (n : ℕ) (w : BitVec 64) : (bitmapNextFrom n w).ReadOnly := by
  induction n generalizing w with
  | zero => trivial
  | succ n ih =>
    unfold bitmapNextFrom
    split
    · exact (readOnly_load (.bitmap _)).bind fun w => ih w
    · trivial

lemma readOnly_bitmapNext (start : ℕ) : (bitmapNext start).ReadOnly := by
  unfold bitmapNext
  split
  · trivial
  · exact (readOnly_load (.bitmap _)).bind fun w => readOnly_bitmapNextFrom _ _

lemma readOnly_tableSlot : (tableSlot ty b).ReadOnly := by
  unfold tableSlot
  split
  · refine (readOnly_load (.childIndex b)).bind fun i => ?_
    split
    · exact fun _ => trivial
    · trivial
  · exact fun _ => trivial

lemma readOnly_nextTable (fuel start : ℕ) : (nextTable ty fuel start).ReadOnly := by
  induction fuel generalizing start with
  | zero => trivial
  | succ fuel ih =>
    refine (readOnly_bitmapNext start).bind fun r => ?_
    cases r with
    | none => trivial
    | some x =>
      refine readOnly_tableSlot.bind fun s => ?_
      split
      · exact ih _
      · trivial

lemma readOnly_nextChild (start : ℕ) : (nextChild ty start).ReadOnly := by
  unfold nextChild
  split
  · trivial
  · split
    all_goals first
      | exact readOnly_nextTable _ _
      | exact readOnly_numChildren.bind fun _ =>
          readOnly_loadKeys.bind fun _ => readOnly_scanSorted _ _ _

lemma readOnly_emptiedBy (taken : Taken) : (emptiedBy ty taken).ReadOnly :=
  readOnly_exactLeaf.bind fun _ => readOnly_numChildren.bind fun _ => trivial

lemma readOnly_restFrom (taken : Taken) (fuel start : ℕ) (rest : Rest) :
    (restFrom ty taken fuel start rest).ReadOnly := by
  induction fuel generalizing start rest with
  | zero => trivial
  | succ fuel ih =>
    refine (readOnly_nextChild start).bind fun r => ?_
    cases r with
    | none => trivial
    | some x =>
      obtain ⟨x, s⟩ := x
      dsimp only
      split
      · exact ih _ _
      · split
        · exact ih _ _
        · trivial

lemma readOnly_restOf (taken : Taken) : (restOf ty taken).ReadOnly := by
  refine readOnly_exactLeaf.bind fun e => readOnly_numChildren.bind fun n => ?_
  split
  · trivial
  · exact readOnly_restFrom _ _ _ _

end Artmap
