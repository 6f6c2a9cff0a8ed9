import Artmap.Layout.Rest

/-!
# The cells of a node, store by store

A node that is being rewritten does not stand for a content by the letter of `Repr`: its keys
are half shifted, its count is late.  What a walk from the root can see of it are its cells,
the child slots and the exact leaf, and those show the entries of a content at every moment.
`Shows` says so: nothing is in a cell that is not an entry, and every entry is in some cell.

`Keeps` says of a node program that every store of it leaves a property of the fields true,
and `Turns` that it does so up to one store, which makes another property true, kept from
there on.  A writer of children turns the cells at one store: the one that puts the new child
in place, or the first one that overwrites the child to be removed.  The stores before and
after it move entries that another cell holds as well.
-/

namespace Artmap

open NodeM Content

namespace NodeM

variable {α β : Type} {Q Q' : Fields → Prop} {F F' : Fields}

/-- Every store of the program leaves `Q` true. -/
def Keeps (Q : Fields → Prop) : NodeM α → Fields → Prop
  | ret _, _ => True
  | ld f k, F => (k (F f)).Keeps Q F
  | st f v k, F => Q (Function.update F f v) ∧ k.Keeps Q (Function.update F f v)
  | fail, _ => True

/-- The stores of the program leave `Q` true up to one, from which on they leave `Q'` true. -/
def Turns (Q Q' : Fields → Prop) : NodeM α → Fields → Prop
  | ret _, _ => False
  | ld f k, F => (k (F f)).Turns Q Q' F
  | st f v k, F =>
    (Q' (Function.update F f v) ∧ k.Keeps Q' (Function.update F f v)) ∨
      (Q (Function.update F f v) ∧ k.Turns Q Q' (Function.update F f v))
  | fail, _ => False

lemma Keeps.bind {p : NodeM α} {f : α → NodeM β} {a : α} (hp : p.Keeps Q F)
    (hrun : p.run F = some (a, F')) (hf : (f a).Keeps Q F') : (p.bind f).Keeps Q F := by
  induction p generalizing F with
  | ret a' =>
    obtain ⟨rfl, rfl⟩ : a' = a ∧ F = F' := by simpa using hrun
    exact hf
  | ld fl k ih => exact ih _ hp hrun
  | st fl v k ih => exact ⟨hp.1, ih hp.2 hrun⟩
  | fail => trivial

lemma Turns.bind {p : NodeM α} {f : α → NodeM β} {a : α} (hp : p.Keeps Q F)
    (hrun : p.run F = some (a, F')) (hf : (f a).Turns Q Q' F') : (p.bind f).Turns Q Q' F := by
  induction p generalizing F with
  | ret a' =>
    obtain ⟨rfl, rfl⟩ : a' = a ∧ F = F' := by simpa using hrun
    exact hf
  | ld fl k ih => exact ih _ hp hrun
  | st fl v k ih => exact .inr ⟨hp.1, ih hp.2 hrun⟩
  | fail => simp at hrun

lemma Turns.bind_keeps {p : NodeM α} {f : α → NodeM β} {a : α} (hp : p.Turns Q Q' F)
    (hrun : p.run F = some (a, F')) (hf : (f a).Keeps Q' F') : (p.bind f).Turns Q Q' F := by
  induction p generalizing F with
  | ret a => exact hp.elim
  | ld fl k ih => exact ih _ hp hrun
  | st fl v k ih =>
    rcases hp with ⟨h1, h2⟩ | ⟨h1, h2⟩
    · exact .inl ⟨h1, h2.bind hrun hf⟩
    · exact .inr ⟨h1, ih h2 hrun⟩
  | fail => exact hp.elim

/-- A property that is kept is true at the end. -/
lemma Keeps.run {p : NodeM α} {a : α} (hp : p.Keeps Q F) (hF : Q F)
    (hrun : p.run F = some (a, F')) : Q F' := by
  induction p generalizing F with
  | ret a' =>
    obtain ⟨-, rfl⟩ : a' = a ∧ F = F' := by simpa using hrun
    exact hF
  | ld fl k ih => exact ih _ hp hF hrun
  | st fl v k ih => exact ih hp.2 hp.1 hrun
  | fail => simp at hrun

lemma Turns.run {p : NodeM α} {a : α} (hp : p.Turns Q Q' F) (hrun : p.run F = some (a, F')) :
    Q' F' := by
  induction p generalizing F with
  | ret a => exact hp.elim
  | ld fl k ih => exact ih _ hp hrun
  | st fl v k ih =>
    rcases hp with ⟨h1, h2⟩ | ⟨-, h2⟩
    · exact h2.run h1 hrun
    · exact ih h2 hrun
  | fail => exact hp.elim

@[simp] lemma keeps_store {f : Field} {v : f.Val} :
    (store f v).Keeps Q F ↔ Q (Function.update F f v) := by
  simp [store, Keeps]

@[simp] lemma turns_store {f : Field} {v : f.Val} :
    (store f v).Turns Q Q' F ↔ Q' (Function.update F f v) := by
  simp [store, Keeps, Turns]

lemma ReadOnly.keeps {p : NodeM α} (hp : p.ReadOnly) : p.Keeps Q F := by
  induction p with
  | ret a => trivial
  | ld f k ih => exact ih _ (hp _)
  | st f v k => exact hp.elim
  | fail => exact hp.elim

end NodeM

/-! ## What the cells hold -/

/-- The children in an array of slots. -/
def inside (slot : ℕ → Slot) : Set Slot :=
  {s | s ≠ .null ∧ ∃ i, slot i = s}

/-- The children of a node, by its slots. -/
def cells (F : Fields) : Set Slot :=
  inside fun i => F (.child i)

/-- The children of a content. -/
def Content.children (c : Content) : Set Slot :=
  {s | s ≠ .null ∧ ∃ b, c.child b = s}

/-- The cells of a node show the entries of a content. -/
structure Shows (F : Fields) (c : Content) : Prop where
  exact_eq : F .exactLeaf = Slot.ofOption c.exact
  children : cells F = c.children

/-- Overwriting slot `i` loses nothing. -/
def Spare (slot : ℕ → Slot) (i : ℕ) : Prop :=
  slot i = .null ∨ ∃ j, j ≠ i ∧ slot j = slot i

variable {slot : ℕ → Slot} {i : ℕ} {s v : Slot} {F F' : Fields} {c : Content} {b : Byte}
  {ty : NodeType}

lemma mem_inside_update :
    s ∈ inside (Function.update slot i v) ↔
      s ≠ .null ∧ (v = s ∨ ∃ j, j ≠ i ∧ slot j = s) := by
  constructor
  · rintro ⟨hs, j, hj⟩
    by_cases hji : j = i
    · subst hji
      exact ⟨hs, .inl (by simpa using hj)⟩
    · exact ⟨hs, .inr ⟨j, hji, by simpa [hji] using hj⟩⟩
  · rintro ⟨hs, rfl | ⟨j, hji, hj⟩⟩
    · exact ⟨hs, i, by simp⟩
    · exact ⟨hs, j, by simpa [hji] using hj⟩

lemma cells_update (F : Fields) (i : ℕ) (v : Slot) :
    cells (Function.update F (.child i) v) =
      inside (Function.update (fun i => F (.child i)) i v) := by
  unfold cells
  congr 1
  funext j
  rw [update_child_apply, Function.update_apply]

lemma mem_cells_update :
    s ∈ cells (Function.update F (.child i) v) ↔
      s ≠ .null ∧ (v = s ∨ ∃ j, j ≠ i ∧ F (.child j) = s) := by
  rw [cells_update]
  exact mem_inside_update

lemma mem_children_setChild :
    s ∈ (c.setChild b v).children ↔ s ≠ .null ∧ (v = s ∨ ∃ b', b' ≠ b ∧ c.child b' = s) := by
  constructor
  · rintro ⟨hs, b', hb'⟩
    by_cases hbb : b' = b
    · subst hbb
      exact ⟨hs, .inl (by simpa using hb')⟩
    · exact ⟨hs, .inr ⟨b', hbb, by simpa [hbb] using hb'⟩⟩
  · rintro ⟨hs, rfl | ⟨b', hbb, hb'⟩⟩
    · exact ⟨hs, b, by simp⟩
    · exact ⟨hs, b', by simpa [hbb] using hb'⟩

lemma Spare.exists_ne (h : Spare slot i) (hs : s ≠ .null) :
    (∃ j, j ≠ i ∧ slot j = s) ↔ ∃ j, slot j = s := by
  constructor
  · rintro ⟨j, -, hj⟩
    exact ⟨j, hj⟩
  · rintro ⟨j, rfl⟩
    by_cases hji : j = i
    · subst hji
      rcases h with h | ⟨k, hk, he⟩
      · exact absurd h hs
      · exact ⟨k, hk, he⟩
    · exact ⟨j, hji, rfl⟩

namespace Shows

/-- A store to a field that is not a cell. -/
lemma update (h : Shows F c) {f : Field} (v : f.Val) (he : f ≠ .exactLeaf)
    (hc : ∀ i, f ≠ .child i) : Shows (Function.update F f v) c where
  exact_eq := by
    rw [Function.update_of_ne (Ne.symm he)]
    exact h.exact_eq
  children := by
    rw [← h.children]
    unfold cells
    congr 1
    funext i
    rw [Function.update_of_ne (Ne.symm (hc i))]

/-- A store to a spare slot that puts nothing new there. -/
lemma move (h : Shows F c) (hi : Spare (fun i => F (.child i)) i)
    (hv : v = .null ∨ ∃ j, j ≠ i ∧ F (.child j) = v) :
    Shows (Function.update F (.child i) v) c where
  exact_eq := by simpa using h.exact_eq
  children := by
    rw [← h.children]
    ext s
    rw [mem_cells_update]
    refine and_congr_right fun hs => ?_
    rw [hi.exists_ne hs]
    refine or_iff_right_of_imp ?_
    rintro rfl
    rcases hv with hv | ⟨j, -, hj⟩
    · exact absurd hv hs
    · exact ⟨j, hj⟩

/-- The store of a new child to a spare slot. -/
lemma insert (h : Shows F c) (hi : Spare (fun i => F (.child i)) i) (hb : c.child b = .null) :
    Shows (Function.update F (.child i) s) (c.setChild b s) where
  exact_eq := by simpa using h.exact_eq
  children := by
    ext s'
    rw [mem_cells_update, mem_children_setChild]
    refine and_congr_right fun hs => or_congr_right ?_
    have hmem : s' ∈ cells F ↔ s' ∈ c.children := by rw [h.children]
    have hcell : (∃ i, F (.child i) = s') ↔ ∃ b, c.child b = s' := by
      simpa [cells, inside, Content.children, hs] using hmem
    rw [hi.exists_ne hs, hcell]
    constructor
    · rintro ⟨b', rfl⟩
      exact ⟨b', fun hbb => hs (hbb ▸ hb), rfl⟩
    · rintro ⟨b', -, hb'⟩
      exact ⟨b', hb'⟩

/-- The store of an exact leaf. -/
lemma setExact (h : Shows F c) (e : Option Leaf) :
    Shows (Function.update F .exactLeaf (Slot.ofOption e)) { c with exact := e } where
  exact_eq := by simp
  children := h.children

/-- The prefix is in no cell. -/
lemma congr {c' : Content} (h : Shows F c) (he : c'.exact = c.exact) (hc : c'.child = c.child) :
    Shows F c' where
  exact_eq := by rw [he]; exact h.exact_eq
  children := by
    rw [h.children, Content.children, Content.children, hc]

end Shows

/-- Slot `i` is that of byte `b`: the others hold the other children. -/
def SlotOf (F : Fields) (c : Content) (b : Byte) (i : ℕ) : Prop :=
  ∀ s, s ≠ .null → ((∃ j, j ≠ i ∧ F (.child j) = s) ↔ ∃ b', b' ≠ b ∧ c.child b' = s)

namespace SlotOf

/-- The store that replaces a child. -/
lemma replace (h : SlotOf F c b i) (hF : Shows F c) (s : Slot) :
    Shows (Function.update F (.child i) s) (c.setChild b s) where
  exact_eq := by simpa using hF.exact_eq
  children := by
    ext s'
    rw [mem_cells_update, mem_children_setChild]
    exact and_congr_right fun hs => or_congr_right (h s' hs)

/-- The store that removes a child may put there what another slot holds. -/
lemma remove (h : SlotOf F c b i) (hF : Shows F c)
    (hv : v = .null ∨ ∃ j, j ≠ i ∧ F (.child j) = v) :
    Shows (Function.update F (.child i) v) (c.setChild b .null) where
  exact_eq := by simpa using hF.exact_eq
  children := by
    ext s'
    rw [mem_cells_update, mem_children_setChild]
    refine and_congr_right fun hs => ?_
    rw [← h s' hs, or_iff_right (Ne.symm hs)]
    refine or_iff_right_of_imp ?_
    rintro rfl
    exact hv.resolve_left hs

lemma congr (h : SlotOf F c b i) (hF : ∀ j, F' (.child j) = F (.child j)) : SlotOf F' c b i := by
  simpa only [SlotOf, hF] using h

end SlotOf

/-! ## A node that stands for a content -/

lemma SortedRep.slotOf {keys : ℕ → Byte} {n : ℕ} (h : SortedRep keys (fun i => F (.child i)) n
    c.child) (hi : i < n) (hk : keys i = b) : SlotOf F c b i := by
  intro s hs
  constructor
  · rintro ⟨j, hji, rfl⟩
    have hj : j < n := by
      by_contra hn
      exact hs (h.free j (not_lt.mp hn))
    exact ⟨keys j, fun he => hji (h.keys_inj hj hi (he.trans hk.symm)), (h.slot_eq j hj).symm⟩
  · rintro ⟨b', hbb, rfl⟩
    obtain ⟨j, hj, rfl⟩ := h.complete b' hs
    exact ⟨j, fun hji => hbb (by rw [hji, hk]), h.slot_eq j hj⟩

lemma IndexRep.slotOf {idx : Byte → ℕ} {bit : Byte → Bool}
    (h : IndexRep idx (fun i => F (.child i)) bit c.child) (hb : c.child b ≠ .null) :
    SlotOf F c b (idx b) := by
  intro s hs
  constructor
  · rintro ⟨j, hji, rfl⟩
    have hused : ∃ b', c.child b' ≠ .null ∧ idx b' = j := by
      by_contra hno
      push Not at hno
      exact hs (h.free j hno)
    obtain ⟨b', hb', rfl⟩ := hused
    exact ⟨b', fun he => hji (by rw [he]), (h.present b' hb').2.symm⟩
  · rintro ⟨b', hbb, rfl⟩
    exact ⟨idx b', fun he => hbb (h.inj b' b hs hb he), (h.present b' hs).2⟩

lemma DirectRep.slotOf {bit : Byte → Bool}
    (h : DirectRep (fun i => F (.child i)) bit c.child) (b : Byte) : SlotOf F c b b.val := by
  intro s hs
  constructor
  · rintro ⟨j, hjb, rfl⟩
    have hj : j < 256 := by
      by_contra hn
      exact hs (h.free j (not_lt.mp hn))
    exact ⟨⟨j, hj⟩, fun he => hjb (congrArg Fin.val he), (h.slot_eq ⟨j, hj⟩).symm⟩
  · rintro ⟨b', hbb, rfl⟩
    exact ⟨b'.val, fun he => hbb (Fin.ext he), h.slot_eq b'⟩

/-- A node that stands for a content shows it. -/
lemma Repr.shows (h : Repr ty F c) : Shows F c where
  exact_eq := h.exact_eq
  children := by
    have hsorted : ty.Sorted → cells F = c.children := by
      intro hty
      have hrep := h.sortedRep hty
      ext s
      refine and_congr_right fun hs => ⟨?_, ?_⟩
      · rintro ⟨i, rfl⟩
        have hi : i < (bytes c.child).card := by
          by_contra hn
          exact hs (hrep.free i (not_lt.mp hn))
        exact ⟨_, (hrep.slot_eq i hi).symm⟩
      · rintro ⟨b, rfl⟩
        obtain ⟨i, hi, rfl⟩ := hrep.complete b hs
        exact ⟨i, hrep.slot_eq i hi⟩
    cases ty with
    | node4 => exact hsorted (.inl rfl)
    | node16 => exact hsorted (.inr rfl)
    | node48 =>
      have hrep : IndexRep _ _ _ _ := h.layout
      ext s
      refine and_congr_right fun hs => ⟨?_, ?_⟩
      · rintro ⟨i, rfl⟩
        have hused : ∃ b, c.child b ≠ .null ∧ F (.childIndex b) = i := by
          by_contra hno
          push Not at hno
          exact hs (hrep.free i hno)
        obtain ⟨b, hb, rfl⟩ := hused
        exact ⟨b, (hrep.present b hb).2.symm⟩
      · rintro ⟨b, rfl⟩
        exact ⟨_, (hrep.present b hs).2⟩
    | node256 =>
      have hrep : DirectRep _ _ _ := h.layout
      ext s
      refine and_congr_right fun hs => ⟨?_, ?_⟩
      · rintro ⟨i, rfl⟩
        have hi : i < 256 := by
          by_contra hn
          exact hs (hrep.free i (not_lt.mp hn))
        exact ⟨⟨i, hi⟩, (hrep.slot_eq ⟨i, hi⟩).symm⟩
      · rintro ⟨b, rfl⟩
        exact ⟨b.val, hrep.slot_eq b⟩

/-! ## The writers -/

lemma storeKeys_keeps (ty : NodeType) (hF : Shows F c) (keys : ℕ → Byte) :
    (storeKeys ty keys).Keeps (Shows · c) F := by
  cases ty with
  | node4 => exact keeps_store.mpr (hF.update _ (by simp) (by simp))
  | _ =>
    have h1 := hF.update (f := .keys16 0) (pack16 keys 0) (by simp) (by simp)
    exact ⟨h1, h1.update (f := .keys16 1) (pack16 keys 1) (by simp) (by simp), trivial⟩

lemma setNumChildren_keeps (hF : Shows F c) (n : ℕ) : (setNumChildren n).Keeps (Shows · c) F :=
  keeps_store.mpr (hF.update _ (by simp) (by simp))

lemma bitmapSet_keeps (hF : Shows F c) (b : Byte) : (bitmapSet b).Keeps (Shows · c) F :=
  ⟨hF.update _ (by simp) (by simp), trivial⟩

lemma bitmapClear_keeps (hF : Shows F c) (b : Byte) : (bitmapClear b).Keeps (Shows · c) F :=
  ⟨hF.update _ (by simp) (by simp), trivial⟩

lemma decNumChildren_keeps (hF : Shows F c) : (decNumChildren ty).Keeps (Shows · c) F := by
  refine readOnly_numChildren.keeps.bind (run_numChildrenMax _) ?_
  split
  · trivial
  · exact setNumChildren_keeps hF _

lemma writePrefix_keeps (hF : Shows F c) (pre : List Byte) :
    (writePrefix pre).Keeps (Shows · c) F := by
  have h1 := hF.update (f := .prefixWord 0)
  have h2 := fun v => (h1 v (by simp) (by simp)).update (f := .prefixWord 1)
  have h3 := fun v w => (h2 v w (by simp) (by simp)).update (f := .prefixLen)
  exact ⟨h1 _ (by simp) (by simp), h2 _ _ (by simp) (by simp), h3 _ _ _ (by simp) (by simp),
    trivial⟩

lemma freeSlot_keeps (is : List ℕ) : (freeSlot is).Keeps (Shows · c) F := by
  induction is with
  | nil => trivial
  | cons i is ih =>
    show (if F (.child i) = Slot.null then _ else _ : NodeM ℕ).Keeps _ F
    split
    · trivial
    · exact ih

/-- Shifting up overwrites a spare slot at every step, and leaves the first one spare. -/
lemma shiftUp_keeps {pos k : ℕ} (keys : ℕ → Byte) (hF : Shows F c)
    (hsp : Spare (fun i => F (.child i)) (pos + k)) :
    (shiftUp pos k keys).Keeps (Shows · c) F := by
  induction k generalizing keys F with
  | zero => trivial
  | succ k ih =>
    have h1 : Shows (Function.update F (.child (pos + k + 1)) (F (.child (pos + k)))) c :=
      hF.move hsp (.inr ⟨pos + k, by omega, rfl⟩)
    refine ⟨h1, ih _ h1 (.inr ⟨pos + k + 1, by omega, ?_⟩)⟩
    simp

/-- Shifting down overwrites a spare slot at every step. -/
lemma shiftDown_keeps {pos k : ℕ} (keys : ℕ → Byte) (hF : Shows F c)
    (hsp : Spare (fun i => F (.child i)) pos) :
    (shiftDown pos k keys).Keeps (Shows · c) F := by
  induction k generalizing pos keys F with
  | zero => trivial
  | succ k ih =>
    have h1 : Shows (Function.update F (.child pos) (F (.child (pos + 1)))) c :=
      hF.move hsp (.inr ⟨pos + 1, by omega, rfl⟩)
    refine ⟨h1, ih _ h1 (.inr ⟨pos, by omega, ?_⟩)⟩
    simp

lemma Repr.insertSorted_turns (h : Repr ty F c) (hty : ty.Sorted) (hb : c.child b = .null)
    (hroom : (bytes c.child).card < ty.capacity) :
    (Artmap.insertSorted ty b s).Turns (Shows · c) (Shows · (c.setChild b s)) F := by
  have hrep := h.sortedRep hty
  set n := (bytes c.child).card with hn
  obtain ⟨hle, -, -⟩ := hrep.partitionPoint hb
  obtain ⟨pos, hpos⟩ : ∃ pos, partitionPoint (keysOf ty F) n b = pos := ⟨_, rfl⟩
  rw [hpos] at hle
  obtain ⟨F₁, hrun₁, -, hch₁⟩ := shiftUp_run pos (n - pos) (keysOf ty F) F
  obtain ⟨F₂, hrun₂, honly₂, -⟩ := run_storeKeys hty
    (Function.update (shiftedUp pos (n - pos) (keysOf ty F)) pos b) F₁
  have hfree : Spare (fun i => F (.child i)) (pos + (n - pos)) :=
    .inl (hrep.free _ (by omega))
  have hkeep₁ := shiftUp_keeps (keysOf ty F) h.shows hfree
  have hF₁ := hkeep₁.run h.shows hrun₁
  have hkeep₂ := storeKeys_keeps ty hF₁
    (Function.update (shiftedUp pos (n - pos) (keysOf ty F)) pos b)
  have hF₂ := hkeep₂.run hF₁ hrun₂
  have hslot : ∀ i, F₂ (.child i) = shiftedUp pos (n - pos) (fun i => F (.child i)) i :=
    fun i => (honly₂ _ (by simp) (by simp)).trans (hch₁ i)
  -- The entry at the place of the new one has been moved, if there was one.
  have hsp : Spare (fun i => F₂ (.child i)) pos := by
    by_cases hpn : pos = n
    · left
      simp only [hslot, shiftedUp]
      rw [if_neg (by omega)]
      exact hrep.free pos (by omega)
    · refine .inr ⟨pos + 1, by omega, ?_⟩
      simp only [hslot, shiftedUp]
      rw [if_pos (by omega), if_neg (by omega)]
      rfl
  simp only [Artmap.insertSorted, bind_eq]
  refine Turns.bind readOnly_numChildren.keeps h.run_numChildren ?_
  rw [if_pos hroom]
  refine Turns.bind readOnly_loadKeys.keeps (run_loadKeys hty) ?_
  rw [← hn, hpos]
  refine Turns.bind hkeep₁ hrun₁ ?_
  refine Turns.bind hkeep₂ hrun₂ ?_
  have hF₃ := hF₂.insert (s := s) hsp hb
  exact Turns.bind_keeps (turns_store.mpr hF₃) rfl (setNumChildren_keeps hF₃ _)

/-- `insert_child` of an absent byte turns the cells as it stores the child. -/
theorem Repr.insertChild_turns (h : Repr ty F c) (hb : c.child b = .null)
    (hroom : (bytes c.child).card < ty.capacity) :
    (Artmap.insertChild ty b s).Turns (Shows · c) (Shows · (c.setChild b s)) F := by
  cases ty with
  | node4 => exact h.insertSorted_turns (.inl rfl) hb hroom
  | node16 => exact h.insertSorted_turns (.inr rfl) hb hroom
  | node48 =>
    have hrep : IndexRep _ _ _ _ := h.layout
    have h48 : (bytes c.child).card < 48 := hroom
    obtain ⟨i, -, hnull, hrun⟩ := run_freeSlot (hrep.exists_free h48)
    simp only [Artmap.insertChild, bind_eq]
    refine Turns.bind readOnly_numChildren.keeps h.run_numChildren ?_
    rw [if_pos h48]
    refine Turns.bind (freeSlot_keeps _) hrun ?_
    have hF₁ := h.shows.insert (s := s) (.inl hnull) hb
    have hF₂ := hF₁.update (f := .childIndex b) i (by simp) (by simp)
    have hkeep := bitmapSet_keeps hF₂ b
    refine Turns.bind_keeps (turns_store.mpr hF₁) rfl ?_
    refine Keeps.bind (keeps_store.mpr hF₂) rfl ?_
    exact Keeps.bind hkeep rfl (setNumChildren_keeps (hkeep.run hF₂ rfl) _)
  | node256 =>
    have hrep : DirectRep _ _ _ := h.layout
    simp only [Artmap.insertChild, bind_eq]
    refine Turns.bind readOnly_numChildren.keeps h.run_numChildren ?_
    have hF₁ := h.shows.insert (s := s) (.inl ((hrep.slot_eq b).trans hb)) hb
    have hkeep := bitmapSet_keeps hF₁ b
    refine Turns.bind_keeps (turns_store.mpr hF₁) rfl ?_
    exact Keeps.bind hkeep rfl (setNumChildren_keeps (hkeep.run hF₁ rfl) _)

lemma Repr.replaceSorted_turns (h : Repr ty F c) (hty : ty.Sorted) (hb : c.child b ≠ .null) :
    (Artmap.replaceSorted ty b s).Turns (Shows · c) (Shows · (c.setChild b s)) F := by
  have hrep := h.sortedRep hty
  obtain ⟨pos, hp, hlt, hk⟩ := hrep.position_present hb
  simp only [Artmap.replaceSorted, bind_eq]
  refine Turns.bind readOnly_numChildren.keeps h.run_numChildren ?_
  refine Turns.bind readOnly_loadKeys.keeps (run_loadKeys hty) ?_
  rw [hp]
  exact turns_store.mpr ((hrep.slotOf hlt hk).replace h.shows s)

/-- `replace_child` of a present byte turns the cells at its only store. -/
theorem Repr.replaceChild_turns (h : Repr ty F c) (hb : c.child b ≠ .null) :
    (Artmap.replaceChild ty b s).Turns (Shows · c) (Shows · (c.setChild b s)) F := by
  cases ty with
  | node4 => exact h.replaceSorted_turns (.inl rfl) hb
  | node16 => exact h.replaceSorted_turns (.inr rfl) hb
  | node48 =>
    have hrep : IndexRep _ _ _ _ := h.layout
    have hlt : F (.childIndex b) < node48Empty := (hrep.present b hb).1
    simp only [Artmap.replaceChild, bind_eq]
    refine Turns.bind (readOnly_load _).keeps (run_load_childIndex _ _) ?_
    rw [if_pos hlt]
    exact turns_store.mpr ((hrep.slotOf hb).replace h.shows s)
  | node256 =>
    have hrep : DirectRep _ _ _ := h.layout
    exact turns_store.mpr ((hrep.slotOf b).replace h.shows s)

lemma Repr.removeSorted_turns (h : Repr ty F c) (hty : ty.Sorted) (hb : c.child b ≠ .null) :
    (Artmap.removeSorted ty b).Turns (Shows · c) (Shows · (c.setChild b .null)) F := by
  have hrep := h.sortedRep hty
  set n := (bytes c.child).card with hn
  obtain ⟨pos, hp, hlt, hk⟩ := hrep.position_present hb
  have hslotOf := hrep.slotOf hlt hk
  simp only [Artmap.removeSorted, bind_eq]
  refine Turns.bind readOnly_numChildren.keeps h.run_numChildren ?_
  refine Turns.bind readOnly_loadKeys.keeps (run_loadKeys hty) ?_
  rw [← hn, hp]
  dsimp only
  have htail : ∀ {F' : Fields} (keys : ℕ → Byte), Shows F' (c.setChild b .null) →
      ((storeKeys ty keys).bind fun _ => setNumChildren (n - 1)).Keeps
        (Shows · (c.setChild b .null)) F' := by
    intro F' keys hF'
    obtain ⟨F₂, hrun₂, -⟩ := run_storeKeys hty keys F'
    have hkeep := storeKeys_keeps ty hF' keys
    exact hkeep.bind hrun₂ (setNumChildren_keeps (hkeep.run hF' hrun₂) _)
  obtain ⟨F₁, hrun₁, -, hch₁⟩ := shiftDown_run pos (n - 1 - pos) (keysOf ty F) F
  by_cases hlast : n - 1 - pos = 0
  · -- The last entry goes: its slot is cleared.
    have hpn : pos = n - 1 := by omega
    rw [hlast] at hrun₁ ⊢
    obtain ⟨-, rfl⟩ : keysOf ty F = shiftedDown pos 0 (keysOf ty F) ∧ F = F₁ := by
      simpa [shiftDown] using hrun₁
    refine Turns.bind (readOnly_ret _).keeps (run_ret _ _) ?_
    have hF₁ := hslotOf.remove h.shows (.inl rfl)
    rw [hpn] at hF₁
    exact Turns.bind_keeps (turns_store.mpr hF₁) rfl (htail _ hF₁)
  · -- The first shift overwrites the entry; the last slot is held once more below it.
    obtain ⟨k, hk'⟩ : ∃ k, n - 1 - pos = k + 1 := ⟨n - 1 - pos - 1, by omega⟩
    have hF₁ := hslotOf.remove h.shows (v := F (.child (pos + 1))) (.inr ⟨pos + 1, by omega, rfl⟩)
    have hturn : (shiftDown pos (n - 1 - pos) (keysOf ty F)).Turns (Shows · c)
        (Shows · (c.setChild b .null)) F := by
      rw [hk']
      refine .inl ⟨hF₁, shiftDown_keeps _ hF₁ (.inr ⟨pos, by omega, ?_⟩)⟩
      simp
    have hF₂ := hturn.run hrun₁
    have hF₃ := hF₂.move (i := n - 1) (v := .null) (.inr ⟨n - 1 - 1, by omega, ?_⟩) (.inl rfl)
    · exact Turns.bind_keeps hturn hrun₁
        (Keeps.bind (keeps_store.mpr hF₃) rfl (htail _ hF₃))
    · simp only [hch₁, shiftedDown]
      rw [if_pos (by omega), if_neg (by omega), show n - 1 - 1 + 1 = n - 1 by omega]

/-- `remove_child` of a present byte turns the cells as it overwrites the child. -/
theorem Repr.removeChild_turns (h : Repr ty F c) (hb : c.child b ≠ .null) :
    (Artmap.removeChild ty b).Turns (Shows · c) (Shows · (c.setChild b .null)) F := by
  cases ty with
  | node4 => exact h.removeSorted_turns (.inl rfl) hb
  | node16 => exact h.removeSorted_turns (.inr rfl) hb
  | node48 =>
    have hrep : IndexRep _ _ _ _ := h.layout
    have hlt : ¬ node48Empty ≤ F (.childIndex b) := not_le.mpr (hrep.present b hb).1
    simp only [Artmap.removeChild, bind_eq]
    refine Turns.bind (readOnly_load _).keeps (run_load_childIndex _ _) ?_
    rw [if_neg hlt]
    have hF₁ := h.shows.update (f := .childIndex b) node48Empty (by simp) (by simp)
    have hF₂ := bitmapClear_keeps hF₁ b
    refine Turns.bind (keeps_store.mpr hF₁) rfl (Turns.bind hF₂ rfl ?_)
    have hF₃ := SlotOf.remove ((hrep.slotOf hb).congr fun j => by simp) (hF₂.run hF₁ rfl)
      (.inl rfl)
    exact Turns.bind_keeps (turns_store.mpr hF₃) rfl (decNumChildren_keeps hF₃)
  | node256 =>
    have hrep : DirectRep _ _ _ := h.layout
    have hslot : F (.child b) ≠ Slot.null := by
      rw [show F (.child b) = c.child b from hrep.slot_eq b]
      exact hb
    simp only [Artmap.removeChild, bind_eq]
    refine Turns.bind (readOnly_load _).keeps (run_load_child _ _) ?_
    rw [if_neg hslot]
    have hF₁ := (hrep.slotOf b).remove h.shows (.inl rfl)
    have hkeep := bitmapClear_keeps hF₁ b
    refine Turns.bind_keeps (turns_store.mpr hF₁) rfl ?_
    exact hkeep.bind rfl (decNumChildren_keeps (hkeep.run hF₁ rfl))

/-- `set_exact_leaf` turns the cells at its only store. -/
lemma Shows.setExactLeaf_turns (h : Shows F c) (e : Option Leaf) :
    (Artmap.setExactLeaf (Slot.ofOption e)).Turns (Shows · c) (Shows · { c with exact := e }) F :=
  turns_store.mpr (h.setExact e)

/-! ## Reading the cells -/

lemma findSorted_cell {ty : NodeType} (h : (findSorted ty b).run F = some (s, F')) :
    s = .null ∨ ∃ i, F (.child i) = s := by
  have hro : (loadKeys ty).ReadOnly := readOnly_loadKeys
  obtain ⟨keys, hkeys⟩ := hro.run_eq F
  simp only [findSorted, bind_eq, run_bind, run_numChildrenMax, Option.bind_some, hkeys] at h
  cases hp : position keys (min (F .numChildren) ty.capacity) b with
  | none =>
    rw [hp] at h
    left
    simpa [eq_comm] using congrArg (Option.map Prod.fst) h
  | some i =>
    rw [hp] at h
    right
    exact ⟨i, by simpa using congrArg (Option.map Prod.fst) h⟩

/-- What a lookup in a node answers is in one of its cells. -/
lemma findChild_cell (h : (findChild ty b).run F = some (s, F')) (hs : s ≠ .null) :
    s ∈ cells F := by
  refine ⟨hs, ?_⟩
  cases ty with
  | node4 => exact (findSorted_cell h).resolve_left hs
  | node16 => exact (findSorted_cell h).resolve_left hs
  | node48 =>
    simp only [findChild, bind_eq, run_bind, run_load_childIndex, Option.bind_some] at h
    split at h
    · exact absurd (by simpa [eq_comm] using congrArg (Option.map Prod.fst) h) hs
    · exact ⟨_, by simpa using congrArg (Option.map Prod.fst) h⟩
  | node256 => exact ⟨_, by simpa [findChild] using congrArg (Option.map Prod.fst) h⟩

/-- A node whose cells hold nothing. -/
def HoldsNothing (F : Fields) : Prop :=
  F .exactLeaf = Slot.null ∧ ∀ i, F (.child i) = Slot.null

lemma Shows.holdsNothing_iff (h : Shows F c) : HoldsNothing F ↔ c.Empty := by
  have hex : F .exactLeaf = Slot.null ↔ c.exact = none := by
    rw [h.exact_eq]
    cases c.exact <;> simp [Slot.ofOption]
  have hmem : ∀ s, s ∈ cells F ↔ s ∈ c.children := fun s => by rw [h.children]
  refine and_congr hex ⟨fun hn b => ?_, fun hn i => ?_⟩
  · by_contra hb
    obtain ⟨-, i, hi⟩ := (hmem _).mpr ⟨hb, b, rfl⟩
    exact hb (hi ▸ hn i)
  · by_contra hi
    obtain ⟨-, b, hb⟩ := (hmem _).mp ⟨hi, i, rfl⟩
    exact hi (hb ▸ hn b)

end Artmap
