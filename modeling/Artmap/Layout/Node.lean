import Artmap.Layout.Table

/-!
# The four layouts together

Every operation of `NodeHeader` on the content that a node stands for, whatever its layout:
the reads answer with the content's lookup, successor, predecessor and remainder, and the
writes turn a representation of one content into a representation of the next.
-/

namespace Artmap

open NodeM Content

variable {ty : NodeType} {F : Fields} {c : Content} {b : Byte}

/-! ## Reads -/

lemma Repr.run_findChild (h : Repr ty F c) (b : Byte) :
    (findChild ty b).run F = some (c.child b, F) := by
  cases ty with
  | node4 => exact h.run_findSorted (.inl rfl) b
  | node16 => exact h.run_findSorted (.inr rfl) b
  | node48 =>
    have hrep : IndexRep _ _ _ _ := h.layout
    simp only [findChild, bind_eq, run_bind, run_load_childIndex, Option.bind_some]
    by_cases hb : c.child b = .null
    · have hidx : F (.childIndex b) = node48Empty := hrep.absent b hb
      simp [hidx, hb]
    · obtain ⟨hlt, hslot⟩ := hrep.present b hb
      rw [if_neg (not_le.mpr hlt)]
      simp only [run_load_child, hslot]
  | node256 =>
    have hrep : DirectRep _ _ _ := h.layout
    simp only [findChild, run_load_child, hrep.slot_eq b]

/-- The table layouts. -/
def NodeType.Table (ty : NodeType) : Prop :=
  ty = .node48 ∨ ty = .node256

lemma NodeType.sorted_or_table (ty : NodeType) : ty.Sorted ∨ ty.Table := by
  cases ty <;> simp [NodeType.Sorted, NodeType.Table]

lemma Repr.bits (h : Repr ty F c) (hty : ty.Table) (b : Byte) :
    bitOf F b = true ↔ c.child b ≠ .null := by
  rcases hty with rfl | rfl
  · exact IndexRep.bits h.layout b
  · exact DirectRep.bits h.layout b

lemma Repr.run_tableSlot (h : Repr ty F c) (hty : ty.Table) (b : Byte) :
    (tableSlot ty b).run F = some (c.child b, F) := by
  rcases hty with rfl | rfl
  · have hrep : IndexRep _ _ _ _ := h.layout
    simp only [tableSlot, bind_eq, run_bind, run_load_childIndex, Option.bind_some]
    by_cases hb : c.child b = .null
    · have hidx : F (.childIndex b) = node48Empty := hrep.absent b hb
      simp [hidx, hb]
    · obtain ⟨hlt, hslot⟩ := hrep.present b hb
      rw [if_pos hlt]
      simp only [run_load_child, hslot]
  · have hrep : DirectRep _ _ _ := h.layout
    simp only [tableSlot, run_load_child, hrep.slot_eq b]

lemma Repr.run_nextTable (h : Repr ty F c) (hty : ty.Table) (fuel start : ℕ) :
    (nextTable ty (fuel + 1) start).run F = some (nextOf c.child start, F) := by
  have hbits : (fun x : Byte => decide (start ≤ x.val) && bitOf F x) =
      fun x => decide (start ≤ x.val ∧ c.child x ≠ .null) := by
    funext x
    rw [Bool.decide_and]
    congr 1
    rw [Bool.eq_iff_iff, h.bits hty]
    simp
  simp only [nextTable, bind_eq, run_bind, bitmapNext_run, Option.bind_some, hbits, nextOf]
  cases hf : firstOf (fun x => decide (start ≤ x.val ∧ c.child x ≠ .null)) with
  | none =>
    simp only [pure_eq, run_ret]
    unfold firstOf at hf
    rw [hf, Option.map_none]
  | some x =>
    unfold firstOf at hf
    have hx := List.find?_some hf
    simp only [decide_eq_true_eq] at hx
    simp only [run_bind, h.run_tableSlot hty, Option.bind_some, hx.2, ↓reduceIte, pure_eq,
      run_ret]
    rw [hf, Option.map_some]

lemma Repr.run_prevTable (h : Repr ty F c) (hty : ty.Table) (fuel : ℕ) (upto : Byte) :
    (prevTable ty (fuel + 1) upto).run F = some (prevOf c.child upto, F) := by
  have hbits : (fun x : Byte => decide (x ≤ upto) && bitOf F x) =
      fun x => decide (x ≤ upto ∧ c.child x ≠ .null) := by
    funext x
    rw [Bool.decide_and]
    congr 1
    rw [Bool.eq_iff_iff, h.bits hty]
    simp
  simp only [prevTable, bind_eq, run_bind, bitmapPrev_run, Option.bind_some, hbits, prevOf]
  cases hf : lastOf (fun x => decide (x ≤ upto ∧ c.child x ≠ .null)) with
  | none =>
    simp only [pure_eq, run_ret]
    unfold lastOf at hf
    rw [hf, Option.map_none]
  | some x =>
    unfold lastOf at hf
    have hx := List.find?_some hf
    simp only [decide_eq_true_eq] at hx
    simp only [run_bind, h.run_tableSlot hty, Option.bind_some, hx.2, ↓reduceIte, pure_eq,
      run_ret]
    rw [hf, Option.map_some]

lemma nextOf_past {child : Byte → Slot} {start : ℕ} (hs : 255 < start) :
    nextOf child start = none := by
  rw [nextOf_eq_none]
  intro b hb
  have := b.isLt
  omega

/-- `next_child` answers with the first child in range. -/
lemma Repr.run_nextChild (h : Repr ty F c) (start : ℕ) :
    (nextChild ty start).run F = some (nextOf c.child start, F) := by
  by_cases hs : 255 < start
  · simp [nextChild, hs, nextOf_past hs]
  · rcases ty.sorted_or_table with hty | hty
    · have hrep := h.sortedRep hty
      have hscan := run_scanSorted hrep (fun k => decide (start ≤ k.val)) (List.range _)
        (fun i hi => by simpa using hi)
      have hbody : (nextChild ty start).run F =
          (scanSorted (keysOf ty F) (fun k => decide (start ≤ k.val))
            (List.range (bytes c.child).card)).run F := by
        rcases hty with rfl | rfl <;>
          simp only [nextChild, hs, ↓reduceIte, bind_eq, run_bind, h.run_numChildren,
            Option.bind_some, run_loadKeys (.inl rfl), run_loadKeys (.inr rfl)]
      rw [hbody, hscan, hrep.next]
    · have hbody : nextChild ty start = nextTable ty 256 start := by
        rcases hty with rfl | rfl <;> simp [nextChild, hs]
      rw [hbody]
      exact h.run_nextTable hty 255 start

/-- `prev_child` answers with the last child in range. -/
lemma Repr.run_prevChild (h : Repr ty F c) (upto : Byte) :
    (prevChild ty upto).run F = some (prevOf c.child upto, F) := by
  rcases ty.sorted_or_table with hty | hty
  · have hrep := h.sortedRep hty
    have hscan := run_scanSorted hrep (fun k => decide (k ≤ upto)) (List.range _).reverse
      (fun i hi => by simpa using hi)
    have hbody : (prevChild ty upto).run F =
        (scanSorted (keysOf ty F) (fun k => decide (k ≤ upto))
          (List.range (bytes c.child).card).reverse).run F := by
      rcases hty with rfl | rfl <;>
        simp only [prevChild, bind_eq, run_bind, h.run_numChildren,
          Option.bind_some, run_loadKeys (.inl rfl), run_loadKeys (.inr rfl)]
    rw [hbody, hscan, hrep.prev]
  · have hbody : prevChild ty upto = prevTable ty 256 upto := by
      rcases hty with rfl | rfl <;> rfl
    rw [hbody]
    exact h.run_prevTable hty 255 upto

/-! ## Writes of the table layouts -/

section Index

variable {idx idx' : Byte → ℕ} {slot slot' : ℕ → Slot} {bit bit' : Byte → Bool}
  {child : Byte → Slot}

/-- A node with room has a free slot. -/
lemma IndexRep.exists_free (h : IndexRep idx slot bit child) (hroom : (bytes child).card < 48) :
    ∃ i ∈ List.range 48, slot i = .null := by
  by_contra hno
  push Not at hno
  have hsub : Finset.range 48 ⊆ (bytes child).image idx := by
    intro i hi
    have hi48 : i < 48 := by simpa using hi
    by_contra hni
    refine hno i (by simpa using hi48) (h.free i fun b hb he => hni ?_)
    exact Finset.mem_image.mpr ⟨b, by simpa using hb, he⟩
  have h1 := Finset.card_le_card hsub
  have h2 := Finset.card_image_le (s := bytes child) (f := idx)
  simp only [Finset.card_range] at h1
  omega

lemma IndexRep.insert (h : IndexRep idx slot bit child) (hb : child b = .null) {s : Slot}
    (hs : s ≠ .null) {i : ℕ} (hi : i < node48Empty) (hfree : slot i = .null)
    (hidx : ∀ x, idx' x = if x = b then i else idx x)
    (hslot : ∀ j, slot' j = if j = i then s else slot j)
    (hbit : ∀ x, bit' x = (decide (x = b) || bit x)) :
    IndexRep idx' slot' bit' (Function.update child b s) := by
  have hused : ∀ x, child x ≠ .null → idx x ≠ i := by
    rintro x hx rfl
    exact hx ((h.present x hx).2 ▸ hfree)
  refine ⟨fun x hx => ?_, fun x hx => ?_, fun x y hx hy he => ?_, fun j hno => ?_,
    fun x => ?_⟩
  · by_cases hxb : x = b
    · simp [hxb, hs] at hx
    · rw [hidx, if_neg hxb]
      exact h.absent x (by simpa [hxb] using hx)
  · by_cases hxb : x = b
    · simp [hidx, hslot, hxb, hi]
    · have hx' : child x ≠ .null := by simpa [hxb] using hx
      rw [hidx, if_neg hxb, hslot, if_neg (hused x hx'), Function.update_of_ne hxb]
      exact h.present x hx'
  · rw [hidx, hidx] at he
    by_cases hxb : x = b <;> by_cases hyb : y = b
    · rw [hxb, hyb]
    · rw [if_pos hxb, if_neg hyb] at he
      exact absurd he.symm (hused y (by simpa [hyb] using hy))
    · rw [if_neg hxb, if_pos hyb] at he
      exact absurd he (hused x (by simpa [hxb] using hx))
    · rw [if_neg hxb, if_neg hyb] at he
      exact h.inj x y (by simpa [hxb] using hx) (by simpa [hyb] using hy) he
  · have hji : j ≠ i := by
      rintro rfl
      exact hno b (by simpa using hs) (by simp [hidx])
    rw [hslot, if_neg hji]
    refine h.free j fun x hx he => ?_
    have hxb : x ≠ b := by
      rintro rfl
      exact hx hb
    exact hno x (by simpa [hxb] using hx) (by rw [hidx, if_neg hxb, he])
  · rw [hbit]
    by_cases hxb : x = b
    · simp [hxb, hs]
    · simpa [hxb] using h.bits x

lemma IndexRep.replace (h : IndexRep idx slot bit child) (hb : child b ≠ .null) {s : Slot}
    (hs : s ≠ .null) (hidx : ∀ x, idx' x = idx x)
    (hslot : ∀ j, slot' j = if j = idx b then s else slot j) (hbit : ∀ x, bit' x = bit x) :
    IndexRep idx' slot' bit' (Function.update child b s) := by
  have hsame : ∀ x, Function.update child b s x ≠ .null ↔ child x ≠ .null := by
    intro x
    by_cases hxb : x = b
    · simp [hxb, hs, hb]
    · simp [hxb]
  refine ⟨fun x hx => ?_, fun x hx => ?_, fun x y hx hy he => ?_, fun j hno => ?_,
    fun x => ?_⟩
  · rw [hidx]
    exact h.absent x (not_not.mp fun hne => (hsame x).mpr hne hx)
  · have hx' := (hsame x).mp hx
    rw [hidx, hslot]
    by_cases hxb : x = b
    · subst hxb
      simp [(h.present x hx').1]
    · rw [if_neg fun he => hxb (h.inj x b hx' hb he), Function.update_of_ne hxb]
      exact h.present x hx'
  · rw [hidx, hidx] at he
    exact h.inj x y ((hsame x).mp hx) ((hsame y).mp hy) he
  · have hji : j ≠ idx b := by
      rintro rfl
      exact hno b ((hsame b).mpr hb) (hidx b)
    rw [hslot, if_neg hji]
    refine h.free j fun x hx he => ?_
    exact hno x ((hsame x).mpr hx) (by rw [hidx, he])
  · rw [hbit, h.bits, hsame]

lemma IndexRep.remove (h : IndexRep idx slot bit child) (hb : child b ≠ .null)
    (hidx : ∀ x, idx' x = if x = b then node48Empty else idx x)
    (hslot : ∀ j, slot' j = if j = idx b then .null else slot j)
    (hbit : ∀ x, bit' x = (!decide (x = b) && bit x)) :
    IndexRep idx' slot' bit' (Function.update child b .null) := by
  have hother : ∀ {x}, Function.update child b .null x ≠ .null → x ≠ b ∧ child x ≠ .null := by
    intro x hx
    have hxb : x ≠ b := by
      rintro rfl
      simp at hx
    exact ⟨hxb, by simpa [hxb] using hx⟩
  refine ⟨fun x hx => ?_, fun x hx => ?_, fun x y hx hy he => ?_, fun j hno => ?_,
    fun x => ?_⟩
  · rw [hidx]
    by_cases hxb : x = b
    · rw [if_pos hxb]
    · rw [if_neg hxb]
      exact h.absent x (by simpa [hxb] using hx)
  · obtain ⟨hxb, hx'⟩ := hother hx
    rw [hidx, if_neg hxb, hslot, if_neg fun he => hxb (h.inj x b hx' hb he),
      Function.update_of_ne hxb]
    exact h.present x hx'
  · obtain ⟨hxb, hx'⟩ := hother hx
    obtain ⟨hyb, hy'⟩ := hother hy
    rw [hidx, hidx, if_neg hxb, if_neg hyb] at he
    exact h.inj x y hx' hy' he
  · rw [hslot]
    by_cases hji : j = idx b
    · rw [if_pos hji]
    · rw [if_neg hji]
      refine h.free j fun x hx he => ?_
      have hxb : x ≠ b := by
        rintro rfl
        exact hji he.symm
      exact hno x (by simpa [hxb] using hx) (by rw [hidx, if_neg hxb, he])
  · rw [hbit]
    by_cases hxb : x = b
    · simp [hxb]
    · simpa [hxb] using h.bits x

end Index

lemma run_freeSlot {is : List ℕ} (h : ∃ i ∈ is, F (.child i) = Slot.null) :
    ∃ i ∈ is, F (.child i) = Slot.null ∧ (freeSlot is).run F = some (i, F) := by
  induction is with
  | nil => simp at h
  | cons j is ih =>
    by_cases hj : F (.child j) = Slot.null
    · exact ⟨j, by simp, hj, by simp [freeSlot, hj]⟩
    · obtain ⟨i, hi, hnull⟩ := h
      have hmem : i ∈ is := by
        rcases List.mem_cons.mp hi with rfl | hmem
        · exact absurd hnull hj
        · exact hmem
      obtain ⟨k, hk, hknull, hrun⟩ := ih ⟨i, hmem, hnull⟩
      exact ⟨k, by simp [hk], hknull, by simp [freeSlot, hj, hrun]⟩

/-- The fields that the writers of children leave alone. -/
lemma update_child_apply (F : Fields) (i j : ℕ) (s : Slot) :
    Function.update F (.child i) s (.child j) = if j = i then s else F (.child j) := by
  by_cases h : j = i
  · subst h
    simp
  · simp [h]

lemma update_childIndex_apply (F : Fields) (x y : Byte) (i : ℕ) :
    Function.update F (.childIndex x) i (.childIndex y) =
      if y = x then i else F (.childIndex y) := by
  by_cases h : y = x
  · subst h
    simp
  · simp [h]

@[simp] lemma bitOf_update_child (i : ℕ) (s : Slot) :
    bitOf (Function.update F (.child i) s) = bitOf F := by
  funext x
  simp [bitOf, wordOf]

@[simp] lemma bitOf_update_childIndex (x : Byte) (i : ℕ) :
    bitOf (Function.update F (.childIndex x) i) = bitOf F := by
  funext y
  simp [bitOf, wordOf]

@[simp] lemma bitOf_update_numChildren (i : ℕ) :
    bitOf (Function.update F .numChildren i) = bitOf F := by
  funext y
  simp [bitOf, wordOf]

lemma card_setChild (hb : c.child b = .null) {s : Slot} (hs : s ≠ .null) :
    (bytes (Function.update c.child b s)).card = (bytes c.child).card + 1 := by
  rw [bytes_update_of_ne hs, Finset.card_insert_of_notMem (by simp [hb])]

lemma bytes_replace (hb : c.child b ≠ .null) {s : Slot} (hs : s ≠ .null) :
    bytes (Function.update c.child b s) = bytes c.child := by
  rw [bytes_update_of_ne hs, Finset.insert_eq_of_mem (by simpa using hb)]

lemma card_clearChild (hb : c.child b ≠ .null) :
    (bytes (Function.update c.child b .null)).card = (bytes c.child).card - 1 := by
  rw [bytes_update_null, Finset.card_erase_of_mem (by simpa using hb)]

/-- `insert_child` of an absent byte into a node with room. -/
theorem Repr.insertChild (h : Repr ty F c) (hb : c.child b = .null) {s : Slot} (hs : s ≠ .null)
    (hroom : (bytes c.child).card < ty.capacity) :
    ∃ F', (insertChild ty b s).run F = some ((), F') ∧ Repr ty F' (c.setChild b s) := by
  have hcard := card_setChild hb hs
  cases ty with
  | node4 => exact h.insertSorted (.inl rfl) hb hs hroom
  | node16 => exact h.insertSorted (.inr rfl) hb hs hroom
  | node48 =>
    have hrep : IndexRep _ _ _ _ := h.layout
    have h48 : (bytes c.child).card < 48 := hroom
    obtain ⟨i, hi, hnull, hrun⟩ := run_freeSlot (hrep.exists_free h48)
    have hi48 : i < 48 := by simpa using hi
    refine ⟨_, by simp only [Artmap.insertChild, bind_eq, run_bind, h.run_numChildren,
      Option.bind_some, h48, ↓reduceIte, hrun, run_store, bitmapSet, run_load_bitmap,
      setNumChildren]; rfl, ?_⟩
    refine h.of_children (by simp [hcard]) (by rw [hcard]; exact h48) (by simp) (by simp)
      (by simp) ?_
    refine hrep.insert (i := i) hb hs hi48 hnull (fun x => ?_) (fun j => ?_) (fun x => ?_)
    · simp [update_childIndex_apply]
    · simp [update_child_apply]
    · simp only [bitOf_update_numChildren]
      have hset := bitOf_set (Function.update (Function.update F (.child i) s) (.childIndex b) i)
        b x
      simpa [wordOf] using hset
  | node256 =>
    have hrep : DirectRep _ _ _ := h.layout
    refine ⟨_, by simp only [Artmap.insertChild, bind_eq, run_bind, h.run_numChildren,
      Option.bind_some, run_store, bitmapSet, run_load_bitmap, setNumChildren]; rfl, ?_⟩
    refine h.of_children (by simp [hcard]) (by rw [hcard]; exact hroom) (by simp) (by simp)
      (by simp) ?_
    refine ⟨fun x => ?_, fun x => ?_, fun i hi => ?_⟩
    · by_cases hxb : x = b
      · subst hxb
        simp
      · have hne : ¬ x.val = b.val := fun he => hxb (Fin.ext he)
        simp only [ne_eq, reduceCtorEq, not_false_eq_true, Function.update_of_ne,
          update_child_apply, hne, ↓reduceIte, hxb]
        exact hrep.slot_eq x
    · simp only [bitOf_update_numChildren]
      have hset := bitOf_set (Function.update F (.child b) s) b x
      rw [bitOf_update_child] at hset
      refine (Eq.congr_left hset).trans ?_
      by_cases hxb : x = b
      · simp [hxb, hs]
      · simpa [hxb] using hrep.bits x
    · have hib : i ≠ b.val := by omega
      simp only [ne_eq, reduceCtorEq, not_false_eq_true, Function.update_of_ne,
        update_child_apply, hib, ↓reduceIte]
      exact hrep.free i hi

/-- `replace_child` of a present byte. -/
theorem Repr.replaceChild (h : Repr ty F c) (hb : c.child b ≠ .null) {s : Slot}
    (hs : s ≠ .null) :
    ∃ F', (replaceChild ty b s).run F = some ((), F') ∧ Repr ty F' (c.setChild b s) := by
  have hbytes := bytes_replace hb hs
  cases ty with
  | node4 => exact h.replaceSorted (.inl rfl) hb hs
  | node16 => exact h.replaceSorted (.inr rfl) hb hs
  | node48 =>
    have hrep : IndexRep _ _ _ _ := h.layout
    have hlt : F (.childIndex b) < node48Empty := (hrep.present b hb).1
    refine ⟨_, by simp only [Artmap.replaceChild, bind_eq, run_bind, run_load_childIndex,
      Option.bind_some, hlt, ↓reduceIte, run_store]; rfl, ?_⟩
    refine h.of_children (by rw [hbytes]; simpa using h.count) (by rw [hbytes]; exact h.fits)
      (by simp) (by simp) (by simp) ?_
    refine hrep.replace hb hs (fun x => by simp) (fun j => ?_) (fun x => by simp)
    simp [update_child_apply]
  | node256 =>
    have hrep : DirectRep _ _ _ := h.layout
    refine ⟨_, rfl, ?_⟩
    refine h.of_children (by rw [hbytes]; simpa using h.count) (by rw [hbytes]; exact h.fits)
      (by simp) (by simp) (by simp) ?_
    refine ⟨fun x => ?_, fun x => ?_, fun i hi => ?_⟩
    · by_cases hxb : x = b
      · subst hxb
        simp
      · have hne : ¬ x.val = b.val := fun he => hxb (Fin.ext he)
        simp only [update_child_apply, hne, ↓reduceIte, ne_eq, hxb, not_false_eq_true,
          Function.update_of_ne]
        exact hrep.slot_eq x
    · rw [bitOf_update_child]
      by_cases hxb : x = b
      · simpa [hxb, hs] using (hrep.bits b).mpr hb
      · simpa [hxb] using hrep.bits x
    · have hib : i ≠ b.val := by omega
      simp only [update_child_apply, hib, ↓reduceIte]
      exact hrep.free i hi

/-- `remove_child` of a present byte. -/
theorem Repr.removeChild (h : Repr ty F c) (hb : c.child b ≠ .null) :
    ∃ F', (removeChild ty b).run F = some ((), F') ∧ Repr ty F' (c.setChild b .null) := by
  have hcard := card_clearChild hb
  have hfits := h.fits
  have hpos : (bytes c.child).card ≠ 0 := Finset.card_ne_zero_of_mem (a := b) (by simpa using hb)
  have hmin : min (bytes c.child).card ty.capacity = (bytes c.child).card := min_eq_left h.fits
  have hcount := h.count
  cases ty with
  | node4 => exact h.removeSorted (.inl rfl) hb
  | node16 => exact h.removeSorted (.inr rfl) hb
  | node48 =>
    have hrep : IndexRep _ _ _ _ := h.layout
    have hlt : ¬ node48Empty ≤ F (.childIndex b) := not_le.mpr (hrep.present b hb).1
    refine ⟨_, by
      simp only [Artmap.removeChild, bind_eq, run_bind, run_load_childIndex, Option.bind_some,
        hlt, ↓reduceIte, run_store, bitmapClear, run_load_bitmap, decNumChildren, numChildren,
        run_numChildrenMax, ne_eq, reduceCtorEq, not_false_eq_true, Function.update_of_ne,
        hcount, hmin, hpos, setNumChildren]
      rfl, ?_⟩
    refine h.of_children (by simp [hcard]) (by omega) (by simp) (by simp) (by simp) ?_
    refine hrep.remove hb (fun x => ?_) (fun j => ?_) (fun x => ?_)
    · simp [update_childIndex_apply]
    · simp [update_child_apply]
    · simp only [bitOf_update_numChildren, bitOf_update_child]
      have hclear := bitOf_clear (Function.update F (.childIndex b) node48Empty) b x
      simpa [wordOf] using hclear
  | node256 =>
    have hrep : DirectRep _ _ _ := h.layout
    have hslot : F (.child b) ≠ Slot.null := by
      rw [show F (.child b) = c.child b from hrep.slot_eq b]
      exact hb
    refine ⟨_, by
      simp only [Artmap.removeChild, bind_eq, run_bind, run_load_child, Option.bind_some,
        hslot, ↓reduceIte, run_store, bitmapClear, run_load_bitmap, decNumChildren, numChildren,
        run_numChildrenMax, ne_eq, reduceCtorEq, not_false_eq_true, Function.update_of_ne,
        hcount, hmin, hpos, setNumChildren]
      rfl, ?_⟩
    refine h.of_children (by simp [hcard]) (by omega) (by simp) (by simp) (by simp) ?_
    refine ⟨fun x => ?_, fun x => ?_, fun i hi => ?_⟩
    · by_cases hxb : x = b
      · subst hxb
        simp
      · have hne : ¬ x.val = b.val := fun he => hxb (Fin.ext he)
        simp only [ne_eq, reduceCtorEq, not_false_eq_true, Function.update_of_ne,
          update_child_apply, hne, ↓reduceIte, hxb]
        exact hrep.slot_eq x
    · simp only [bitOf_update_numChildren]
      have hclear := bitOf_clear (Function.update F (.child b) Slot.null) b x
      rw [bitOf_update_child] at hclear
      refine (Eq.congr_left hclear).trans ?_
      by_cases hxb : x = b
      · simp [hxb]
      · simpa [hxb] using hrep.bits x
    · have hib : i ≠ b.val := by omega
      simp only [ne_eq, reduceCtorEq, not_false_eq_true, Function.update_of_ne,
        update_child_apply, hib, ↓reduceIte]
      exact hrep.free i hi

/-- `remove_child` of an absent byte changes nothing. -/
lemma Repr.removeChild_absent (h : Repr ty F c) (hb : c.child b = .null) :
    (Artmap.removeChild ty b).run F = some ((), F) := by
  have hsorted : ty.Sorted → (Artmap.removeSorted ty b).run F = some ((), F) := by
    intro hty
    simp only [Artmap.removeSorted, bind_eq, run_bind, h.run_numChildren, Option.bind_some,
      run_loadKeys hty, (h.sortedRep hty).position_absent hb, pure_eq, run_ret]
  cases ty with
  | node4 => exact hsorted (.inl rfl)
  | node16 => exact hsorted (.inr rfl)
  | node48 =>
    have hrep : IndexRep _ _ _ _ := h.layout
    have hidx : F (.childIndex b) = node48Empty := hrep.absent b hb
    simp [Artmap.removeChild, hidx]
  | node256 =>
    have hrep : DirectRep _ _ _ := h.layout
    have hslot : F (.child b) = Slot.null := (hrep.slot_eq b).trans hb
    simp [Artmap.removeChild, hslot]

end Artmap
