import Artmap.Layout.Repr

/-!
# The sorted layouts

`Node4` and `Node16` keep their keys sorted and their slots dense.  Each operation of the
source is shown to read or rewrite the content that the node stands for; the shifting loops
are described by what they leave at each index (`shiftUp_run`, `shiftDown_run`).
-/

namespace Artmap

open NodeM Content

/-- The layouts with sorted keys. -/
def NodeType.Sorted (ty : NodeType) : Prop :=
  ty = .node4 ∨ ty = .node16

variable {keys : ℕ → Byte} {slot : ℕ → Slot} {n : ℕ} {child : Byte → Slot} {b : Byte}
  {ty : NodeType} {F : Fields} {c : Content}

/-! ## Searching -/

lemma position_eq_none : position keys n b = none ↔ ∀ i < n, keys i ≠ b := by
  simp [position]

lemma position_eq_some {i : ℕ} (h : position keys n b = some i) : i < n ∧ keys i = b := by
  have h1 := List.find?_some h
  have h2 := List.mem_of_find?_eq_some h
  simp only [beq_iff_eq] at h1
  exact ⟨by simpa using h2, h1⟩

lemma SortedRep.keys_inj (h : SortedRep keys slot n child) {i j : ℕ} (hi : i < n) (hj : j < n)
    (he : keys i = keys j) : i = j := by
  rcases lt_trichotomy i j with hlt | heq | hgt
  · exact absurd he (ne_of_lt (h.mono i j hlt hj))
  · exact heq
  · exact absurd he.symm (ne_of_lt (h.mono j i hgt hi))

lemma SortedRep.position_present (h : SortedRep keys slot n child) (hb : child b ≠ .null) :
    ∃ i, position keys n b = some i ∧ i < n ∧ keys i = b := by
  obtain ⟨i, hi, hk⟩ := h.complete b hb
  cases hp : position keys n b with
  | none => exact absurd hk (position_eq_none.mp hp i hi)
  | some j => exact ⟨j, rfl, position_eq_some hp⟩

lemma SortedRep.position_absent (h : SortedRep keys slot n child) (hb : child b = .null) :
    position keys n b = none := by
  rw [position_eq_none]
  rintro i hi rfl
  exact h.present i hi hb

/-- Where a byte goes among sorted keys. -/
lemma SortedRep.partitionPoint (h : SortedRep keys slot n child) (hb : child b = .null) :
    partitionPoint keys n b ≤ n ∧ (∀ i < partitionPoint keys n b, keys i < b) ∧
      ∀ i, partitionPoint keys n b ≤ i → i < n → b < keys i := by
  set pos := Artmap.partitionPoint keys n b with hpos
  have hle : pos ≤ n := by
    have hlen := @List.findIdx_le_length _ (fun i => !decide (keys i < b)) (List.range n)
    rwa [List.length_range] at hlen
  refine ⟨hle, fun i hi => ?_, fun i hi hin => ?_⟩
  · have hbefore := List.not_of_lt_findIdx hi
    rw [List.getElem_range] at hbefore
    simpa using hbefore
  · have hlt : pos < n := lt_of_le_of_lt hi hin
    have hge : ¬ keys pos < b := by
      have hlen : (List.range n).findIdx (fun i => !decide (keys i < b)) <
          (List.range n).length := by
        rw [List.length_range]
        exact hlt
      have hfound := List.findIdx_getElem (w := hlen)
      rw [List.getElem_range hlen] at hfound
      simp only [Bool.not_eq_true', decide_eq_false_iff_not] at hfound
      exact hfound
    have hne : keys pos ≠ b := by
      intro he
      exact h.present pos hlt (he ▸ hb)
    have hpos' : b < keys pos := lt_of_le_of_ne (not_lt.mp hge) hne.symm
    rcases Nat.lt_or_eq_of_le hi with hlt' | heq
    · exact hpos'.trans (h.mono pos i hlt' hin)
    · rw [← heq]
      exact hpos'

lemma run_loadKeys (hty : ty.Sorted) : (loadKeys ty).run F = some (keysOf ty F, F) := by
  rcases hty with rfl | rfl <;> simp [loadKeys, keysOf]

lemma Repr.sortedRep (h : Repr ty F c) (hty : ty.Sorted) :
    SortedRep (keysOf ty F) (fun i => F (.child i)) (bytes c.child).card c.child := by
  rcases hty with rfl | rfl <;> exact h.layout

lemma Repr.run_findSorted (h : Repr ty F c) (hty : ty.Sorted) (b : Byte) :
    (findSorted ty b).run F = some (c.child b, F) := by
  have hs := h.sortedRep hty
  have hmin : min (F .numChildren) ty.capacity = (bytes c.child).card := by
    rw [h.count, min_eq_left h.fits]
  simp only [findSorted, bind_eq, run_bind, run_numChildrenMax, Option.bind_some,
    run_loadKeys hty, hmin]
  by_cases hb : c.child b = .null
  · rw [hs.position_absent hb]
    simp [hb]
  · obtain ⟨i, hp, hi, hk⟩ := hs.position_present hb
    simp [hp, hs.slot_eq i hi, hk]

/-! ## Scanning -/

/-- The loop of `next_child` and `prev_child` answers with the first listed index that
passes. -/
lemma run_scanSorted {F : Fields} (hs : SortedRep keys (fun i => F (.child i)) n child)
    (ok : Byte → Bool) (is : List ℕ) (his : ∀ i ∈ is, i < n) :
    (scanSorted keys ok is).run F =
      some ((is.find? fun i => ok (keys i)).map fun i => (keys i, child (keys i)), F) := by
  induction is with
  | nil => rfl
  | cons i is ih =>
    have hi : i < n := his i (by simp)
    have ih' := ih fun j hj => his j (by simp [hj])
    by_cases hok : ok (keys i) = true
    · have hne : F (.child i) ≠ Slot.null := by
        rw [show F (.child i) = child (keys i) from hs.slot_eq i hi]
        exact hs.present i hi
      simp only [scanSorted, hok, ↓reduceIte, bind_eq, run_bind, run_load_child,
        Option.bind_some, hne, pure_eq, run_ret, List.find?_cons_of_pos, Option.map_some]
      rw [show F (.child i) = child (keys i) from hs.slot_eq i hi]
    · simp only [scanSorted, hok, Bool.false_eq_true, ↓reduceIte, ih', not_false_eq_true,
        List.find?_cons_of_neg]

lemma SortedRep.next (hs : SortedRep keys slot n child) (start : ℕ) :
    ((List.range n).find? fun i => decide (start ≤ (keys i).val)).map
      (fun i => (keys i, child (keys i))) = nextOf child start := by
  cases hf : (List.range n).find? fun i => decide (start ≤ (keys i).val) with
  | none =>
    simp only [Option.map_none]
    symm
    rw [nextOf_eq_none]
    intro b hb
    by_contra hne
    obtain ⟨i, hi, rfl⟩ := hs.complete b hne
    have := List.find?_eq_none.mp hf i (by simpa using hi)
    simp [hb] at this
  | some i =>
    rw [List.find?_eq_some_iff_getElem] at hf
    obtain ⟨hp, j, hj, hji, hmin⟩ := hf
    simp only [List.length_range] at hj
    simp only [List.getElem_range] at hji
    subst hji
    simp only [decide_eq_true_eq] at hp
    simp only [Option.map_some]
    symm
    rw [nextOf_eq_some]
    refine ⟨hp, rfl, hs.present j hj, fun x hx hlt => ?_⟩
    by_contra hne
    obtain ⟨i, hi, rfl⟩ := hs.complete x hne
    have hij : i < j := by
      by_contra hge
      rcases Nat.lt_or_eq_of_le (not_lt.mp hge) with h1 | h1
      · exact absurd (hs.mono j i h1 hi) (not_lt.mpr hlt.le)
      · exact absurd hlt (by rw [h1]; exact lt_irrefl _)
    have := hmin i hij
    simp [hx] at this

lemma SortedRep.prev (hs : SortedRep keys slot n child) (upto : Byte) :
    ((List.range n).reverse.find? fun i => decide (keys i ≤ upto)).map
      (fun i => (keys i, child (keys i))) = prevOf child upto := by
  cases hf : (List.range n).reverse.find? fun i => decide (keys i ≤ upto) with
  | none =>
    simp only [Option.map_none]
    symm
    rw [prevOf_eq_none]
    intro b hb
    by_contra hne
    obtain ⟨i, hi, rfl⟩ := hs.complete b hne
    have := List.find?_eq_none.mp hf i (by simpa using hi)
    simp [hb] at this
  | some i =>
    rw [List.find?_eq_some_iff_getElem] at hf
    obtain ⟨hp, j, hj, hji, hmin⟩ := hf
    simp only [List.length_reverse, List.length_range] at hj
    simp only [List.getElem_reverse, List.length_range, List.getElem_range] at hji
    have hin : i < n := by omega
    simp only [decide_eq_true_eq] at hp
    simp only [Option.map_some]
    symm
    rw [prevOf_eq_some]
    refine ⟨hp, rfl, hs.present i hin, fun x hx hlt => ?_⟩
    by_contra hne
    obtain ⟨k, hk, rfl⟩ := hs.complete x hne
    have hik : i < k := by
      by_contra hge
      rcases Nat.lt_or_eq_of_le (not_lt.mp hge) with h1 | h1
      · exact absurd (hs.mono k i h1 hin) (not_lt.mpr hlt.le)
      · exact absurd hlt (by rw [h1]; exact lt_irrefl _)
    have := hmin (n - 1 - k) (by omega)
    simp only [List.getElem_reverse, List.length_range, List.getElem_range,
      Bool.not_eq_true', decide_eq_false_iff_not] at this
    rw [show n - 1 - (n - 1 - k) = k by omega] at this
    exact this hx

/-! ## Shifting -/

/-- What shifting the entries `pos, …, pos + k - 1` up by one leaves at index `i`. -/
def shiftedUp {α : Type} (pos k : ℕ) (f : ℕ → α) (i : ℕ) : α :=
  if pos < i ∧ i ≤ pos + k then f (i - 1) else f i

/-- What shifting the entries `pos + 1, …, pos + k` down by one leaves at index `i`. -/
def shiftedDown {α : Type} (pos k : ℕ) (f : ℕ → α) (i : ℕ) : α :=
  if pos ≤ i ∧ i < pos + k then f (i + 1) else f i

/-- A node program that writes only child slots. -/
def OnlyChildren (F F' : Fields) : Prop :=
  ∀ f, (∀ i, f ≠ .child i) → F' f = F f

lemma shiftUp_run (pos k : ℕ) (keys : ℕ → Byte) (F : Fields) :
    ∃ F', (shiftUp pos k keys).run F = some (shiftedUp pos k keys, F') ∧ OnlyChildren F F' ∧
      ∀ i, F' (.child i) = shiftedUp pos k (fun i => F (.child i)) i := by
  induction k generalizing keys F with
  | zero =>
    refine ⟨F, ?_, fun f _ => rfl, fun i => ?_⟩
    · have he : shiftedUp pos 0 keys = keys := by
        funext i
        simp only [shiftedUp, ite_eq_right_iff]
        omega
      simp [shiftUp, he]
    · simp only [shiftedUp]
      rw [if_neg (by omega)]
  | succ k ih =>
    obtain ⟨F', hrun, honly, hch⟩ :=
      ih (Function.update keys (pos + k + 1) (keys (pos + k)))
        (Function.update F (.child (pos + k + 1)) (F (.child (pos + k))))
    refine ⟨F', ?_, fun f hf => ?_, fun i => ?_⟩
    · simp only [shiftUp, bind_eq, run_bind, run_load_child, Option.bind_some, run_store, hrun]
      congr 2
      funext i
      simp only [shiftedUp, Function.update_apply]
      split_ifs <;> first | rfl | (congr 1; omega)
    · rw [honly f hf, Function.update_of_ne (hf _)]
    · rw [hch]
      have hupd : ∀ j, Function.update F (.child (pos + k + 1)) (F (.child (pos + k))) (.child j) =
          if j = pos + k + 1 then F (.child (pos + k)) else F (.child j) := by
        intro j
        by_cases hj : j = pos + k + 1
        · subst hj
          simp
        · simp [hj]
      simp only [shiftedUp, hupd]
      split_ifs <;> first | rfl | (congr 2; omega)

lemma shiftDown_run (pos k : ℕ) (keys : ℕ → Byte) (F : Fields) :
    ∃ F', (shiftDown pos k keys).run F = some (shiftedDown pos k keys, F') ∧
      OnlyChildren F F' ∧
      ∀ i, F' (.child i) = shiftedDown pos k (fun i => F (.child i)) i := by
  induction k generalizing pos keys F with
  | zero =>
    refine ⟨F, ?_, fun f _ => rfl, fun i => ?_⟩
    · have he : shiftedDown pos 0 keys = keys := by
        funext i
        simp only [shiftedDown, ite_eq_right_iff]
        omega
      simp [shiftDown, he]
    · simp only [shiftedDown]
      rw [if_neg (by omega)]
  | succ k ih =>
    obtain ⟨F', hrun, honly, hch⟩ :=
      ih (pos + 1) (Function.update keys pos (keys (pos + 1)))
        (Function.update F (.child pos) (F (.child (pos + 1))))
    refine ⟨F', ?_, fun f hf => ?_, fun i => ?_⟩
    · simp only [shiftDown, bind_eq, run_bind, run_load_child, Option.bind_some, run_store, hrun]
      congr 2
      funext i
      simp only [shiftedDown, Function.update_apply]
      split_ifs <;> first | rfl | (congr 1; omega)
    · rw [honly f hf, Function.update_of_ne (hf _)]
    · rw [hch]
      have hupd : ∀ j, Function.update F (.child pos) (F (.child (pos + 1))) (.child j) =
          if j = pos then F (.child (pos + 1)) else F (.child j) := by
        intro j
        by_cases hj : j = pos
        · subst hj
          simp
        · simp [hj]
      simp only [shiftedDown, hupd]
      split_ifs <;> first | rfl | (congr 2; omega)

/-! ## Writing -/

lemma SortedRep.congr {keys' : ℕ → Byte} {slot' : ℕ → Slot}
    (h : SortedRep keys slot n child) (hk : ∀ i < n, keys' i = keys i)
    (hs : ∀ i, slot' i = slot i) : SortedRep keys' slot' n child where
  mono i j hij hj := by rw [hk i (by omega), hk j hj]; exact h.mono i j hij hj
  slot_eq i hi := by rw [hs i, hk i hi]; exact h.slot_eq i hi
  present i hi := by rw [hk i hi]; exact h.present i hi
  complete b hb := by
    obtain ⟨i, hi, he⟩ := h.complete b hb
    exact ⟨i, hi, (hk i hi).trans he⟩
  free i hi := (hs i).trans (h.free i hi)

/-- Inserting a byte where it belongs. -/
lemma SortedRep.insert (h : SortedRep keys slot n child) (hb : child b = .null) {s : Slot}
    (hs : s ≠ .null) {pos : ℕ} (hpos : pos ≤ n) (hlo : ∀ i < pos, keys i < b)
    (hhi : ∀ i, pos ≤ i → i < n → b < keys i) :
    SortedRep (Function.update (shiftedUp pos (n - pos) keys) pos b)
      (Function.update (shiftedUp pos (n - pos) slot) pos s) (n + 1)
      (Function.update child b s) := by
  have hval : ∀ {α : Type} (f : ℕ → α) (a : α) (i : ℕ), i < n + 1 →
      Function.update (shiftedUp pos (n - pos) f) pos a i =
        if i < pos then f i else if i = pos then a else f (i - 1) := by
    intro α f a i hi
    simp only [Function.update_apply, shiftedUp]
    split_ifs <;> first | rfl | omega
  have hne : ∀ i < n, keys i ≠ b := fun i hi he => h.present i hi (he ▸ hb)
  refine ⟨fun i j hij hj => ?_, fun i hi => ?_, fun i hi => ?_, fun x hx => ?_, fun i hi => ?_⟩
  · rw [hval keys b i (by omega), hval keys b j hj]
    split_ifs with h1 h2 h3 h4 h5 h6 h7
    · exact h.mono i j hij (by omega)
    · exact hlo i h1
    · exact h.mono i (j - 1) (by omega) (by omega)
    · omega
    · omega
    · exact hhi (j - 1) (by omega) (by omega)
    · omega
    · omega
    · exact h.mono (i - 1) (j - 1) (by omega) (by omega)
  · rw [hval keys b i hi, hval slot s i hi]
    split_ifs with h1 h2
    · rw [Function.update_of_ne (hne i (by omega)), h.slot_eq i (by omega)]
    · rw [Function.update_self]
    · rw [Function.update_of_ne (hne (i - 1) (by omega)), h.slot_eq (i - 1) (by omega)]
  · rw [hval keys b i hi]
    split_ifs with h1 h2
    · rw [Function.update_of_ne (hne i (by omega))]
      exact h.present i (by omega)
    · rw [Function.update_self]
      exact hs
    · rw [Function.update_of_ne (hne (i - 1) (by omega))]
      exact h.present (i - 1) (by omega)
  · by_cases hxb : x = b
    · exact ⟨pos, by omega, by rw [hval keys b pos (by omega), if_neg (by omega), if_pos rfl, hxb]⟩
    · rw [Function.update_of_ne hxb] at hx
      obtain ⟨i, hi, he⟩ := h.complete x hx
      by_cases hip : i < pos
      · exact ⟨i, by omega, by rw [hval keys b i (by omega), if_pos hip, he]⟩
      · refine ⟨i + 1, by omega, ?_⟩
        rw [hval keys b (i + 1) (by omega), if_neg (by omega), if_neg (by omega)]
        exact he
  · rw [Function.update_of_ne (by omega), shiftedUp, if_neg (by omega)]
    exact h.free i (by omega)

/-- Removing the entry at an index. -/
lemma SortedRep.remove (h : SortedRep keys slot n child) {pos : ℕ} (hpos : pos < n)
    {keys' : ℕ → Byte} {slot' : ℕ → Slot}
    (hk : ∀ i < n - 1, keys' i = if i < pos then keys i else keys (i + 1))
    (hsl : ∀ i < n - 1, slot' i = if i < pos then slot i else slot (i + 1))
    (hfree : ∀ i, n - 1 ≤ i → slot' i = .null) :
    SortedRep keys' slot' (n - 1) (Function.update child (keys pos) .null) := by
  have hne : ∀ i < n, i ≠ pos → keys i ≠ keys pos := fun i hi hip he =>
    hip (h.keys_inj hi hpos he)
  refine ⟨fun i j hij hj => ?_, fun i hi => ?_, fun i hi => ?_, fun x hx => ?_, hfree⟩
  · rw [hk i (by omega), hk j hj]
    split_ifs with h1 h2 h3
    · exact h.mono i j hij (by omega)
    · exact h.mono i (j + 1) (by omega) (by omega)
    · omega
    · exact h.mono (i + 1) (j + 1) (by omega) (by omega)
  · rw [hk i hi, hsl i hi]
    split_ifs with h1
    · rw [Function.update_of_ne (hne i (by omega) (by omega)), h.slot_eq i (by omega)]
    · rw [Function.update_of_ne (hne (i + 1) (by omega) (by omega)),
        h.slot_eq (i + 1) (by omega)]
  · rw [hk i hi]
    split_ifs with h1
    · rw [Function.update_of_ne (hne i (by omega) (by omega))]
      exact h.present i (by omega)
    · rw [Function.update_of_ne (hne (i + 1) (by omega) (by omega))]
      exact h.present (i + 1) (by omega)
  · have hxb : x ≠ keys pos := by
      rintro rfl
      simp at hx
    rw [Function.update_of_ne hxb] at hx
    obtain ⟨i, hi, he⟩ := h.complete x hx
    have hip : i ≠ pos := by
      rintro rfl
      exact hxb he.symm
    by_cases hlt : i < pos
    · exact ⟨i, by omega, by rw [hk i (by omega), if_pos hlt, he]⟩
    · refine ⟨i - 1, by omega, ?_⟩
      rw [hk (i - 1) (by omega), if_neg (by omega), show i - 1 + 1 = i by omega, he]

/-- Writing the key array back. -/
lemma run_storeKeys (hty : ty.Sorted) (keys : ℕ → Byte) (F : Fields) :
    ∃ F', (storeKeys ty keys).run F = some ((), F') ∧
      (∀ f, f ≠ .keys4 → (∀ i, f ≠ .keys16 i) → F' f = F f) ∧
      ∀ i < ty.capacity, keysOf ty F' i = keys i := by
  rcases hty with rfl | rfl
  · refine ⟨_, rfl, fun f h4 _ => Function.update_of_ne h4 _ _, fun i hi => ?_⟩
    have hi4 : i < 4 := hi
    simp [keysOf, hi4]
  · refine ⟨_, rfl, fun f _ h16 => ?_, fun i hi => ?_⟩
    · rw [Function.update_of_ne (h16 _), Function.update_of_ne (h16 _)]
    · have hi16 : i < 16 := hi
      simp only [keysOf, ne_eq, Field.keys16.injEq, zero_ne_one, not_false_eq_true,
        Function.update_of_ne, Function.update_self]
      exact unpack16_pack16 keys hi16

/-- The parts of a representation that the writers of children keep. -/
lemma Repr.of_children (h : Repr ty F c) {F' : Fields} {child : Byte → Slot}
    (hcount : F' .numChildren = (bytes child).card) (hfits : (bytes child).card ≤ ty.capacity)
    (hexact : F' .exactLeaf = F .exactLeaf) (hlen : F' .prefixLen = F .prefixLen)
    (hword : ∀ i, F' (.prefixWord i) = F (.prefixWord i)) (hlay : LayoutRep ty F' child) :
    Repr ty F' { c with child := child } where
  count := hcount
  fits := hfits
  exact_eq := hexact.trans h.exact_eq
  pre_len := hlen.trans h.pre_len
  pre_fits := h.pre_fits
  pre_bytes := by simpa only [hword] using h.pre_bytes
  layout := hlay

lemma layoutRep_sorted (hty : ty.Sorted) :
    LayoutRep ty F child ↔
      SortedRep (keysOf ty F) (fun i => F (.child i)) (bytes child).card child := by
  rcases hty with rfl | rfl <;> rfl

lemma Repr.insertSorted (h : Repr ty F c) (hty : ty.Sorted) (hb : c.child b = .null) {s : Slot}
    (hs : s ≠ .null) (hroom : (bytes c.child).card < ty.capacity) :
    ∃ F', (insertSorted ty b s).run F = some ((), F') ∧ Repr ty F' (c.setChild b s) := by
  have hrep := h.sortedRep hty
  set n := (bytes c.child).card with hn
  obtain ⟨hle, hlo, hhi⟩ := hrep.partitionPoint hb
  obtain ⟨pos, hpos⟩ : ∃ pos, partitionPoint (keysOf ty F) n b = pos := ⟨_, rfl⟩
  rw [hpos] at hle hlo hhi
  obtain ⟨F₁, hrun₁, honly₁, hch₁⟩ := shiftUp_run pos (n - pos) (keysOf ty F) F
  obtain ⟨F₂, hrun₂, honly₂, hkeys₂⟩ := run_storeKeys hty
    (Function.update (shiftedUp pos (n - pos) (keysOf ty F)) pos b) F₁
  have hcard : (bytes (Function.update c.child b s)).card = n + 1 := by
    rw [bytes_update_of_ne hs, Finset.card_insert_of_notMem (by simp [hb])]
  have hrun : (Artmap.insertSorted ty b s).run F = some ((),
      Function.update (Function.update F₂ (.child pos) s) .numChildren (n + 1)) := by
    subst hpos
    simp only [Artmap.insertSorted, bind_eq, run_bind, h.run_numChildren, Option.bind_some,
      ← hn, hroom, ↓reduceIte, run_loadKeys hty, hrun₁, hrun₂, run_store,
      setNumChildren]
  refine ⟨_, hrun, ?_⟩
  have hother : ∀ f, f ≠ .numChildren → (∀ i, f ≠ .child i) → f ≠ .keys4 →
      (∀ i, f ≠ .keys16 i) →
      Function.update (Function.update F₂ (.child pos) s) .numChildren (n + 1) f = F f := by
    intro f h1 h2 h3 h4
    rw [Function.update_of_ne h1, Function.update_of_ne (h2 _), honly₂ f h3 h4, honly₁ f h2]
  refine h.of_children (by rw [hcard, Function.update_self]) (by omega)
    (hother _ (by simp) (by simp) (by simp) (by simp))
    (hother _ (by simp) (by simp) (by simp) (by simp))
    (fun i => hother _ (by simp) (by simp) (by simp) (by simp)) ?_
  rw [layoutRep_sorted hty, hcard]
  refine (hrep.insert hb hs hle hlo hhi).congr (fun i hi => ?_) (fun i => ?_)
  · have hk : keysOf ty (Function.update (Function.update F₂ (.child pos) s) .numChildren
        (n + 1)) = keysOf ty F₂ := by
      rcases hty with rfl | rfl <;> simp [keysOf]
    rw [hk, hkeys₂ i (by omega)]
  · by_cases hip : i = pos
    · subst hip
      simp
    · rw [Function.update_of_ne (by simp), Function.update_of_ne (by simpa using hip),
        honly₂ _ (by simp) (by simp), hch₁, Function.update_of_ne hip]

lemma Repr.replaceSorted (h : Repr ty F c) (hty : ty.Sorted) (hb : c.child b ≠ .null) {s : Slot}
    (hs : s ≠ .null) :
    ∃ F', (replaceSorted ty b s).run F = some ((), F') ∧ Repr ty F' (c.setChild b s) := by
  have hrep := h.sortedRep hty
  obtain ⟨pos, hp, hlt, hk⟩ := hrep.position_present hb
  have hbytes : bytes (Function.update c.child b s) = bytes c.child := by
    rw [bytes_update_of_ne hs, Finset.insert_eq_of_mem (by simpa using hb)]
  have hrun : (Artmap.replaceSorted ty b s).run F =
      some ((), Function.update F (.child pos) s) := by
    simp only [Artmap.replaceSorted, bind_eq, run_bind, h.run_numChildren, Option.bind_some,
      run_loadKeys hty, hp, run_store]
  refine ⟨_, hrun, ?_⟩
  refine h.of_children (by rw [hbytes]; simpa using h.count) (by rw [hbytes]; exact h.fits)
    (by simp) (by simp) (by simp) ?_
  have hkeys : keysOf ty (Function.update F (.child pos) s) = keysOf ty F := by
    rcases hty with rfl | rfl <;> simp [keysOf]
  rw [layoutRep_sorted hty, hbytes, hkeys]
  refine ⟨hrep.mono, fun i hi => ?_, fun i hi => ?_, fun x hx => ?_, fun i hi => ?_⟩
  · by_cases hip : i = pos
    · subst hip
      simp [hk]
    · have hne : keysOf ty F i ≠ b := fun he => hip (hrep.keys_inj hi hlt (he.trans hk.symm))
      simp only [ne_eq, Field.child.injEq, hip, not_false_eq_true, Function.update_of_ne, hne]
      exact hrep.slot_eq i hi
  · by_cases hkb : keysOf ty F i = b
    · simp [hkb, hs]
    · simpa [hkb] using hrep.present i hi
  · by_cases hxb : x = b
    · exact ⟨pos, hlt, hk.trans hxb.symm⟩
    · exact hrep.complete x (by simpa [hxb] using hx)
  · have hip : i ≠ pos := by omega
    simp only [ne_eq, Field.child.injEq, hip, not_false_eq_true, Function.update_of_ne]
    exact hrep.free i hi

lemma Repr.removeSorted (h : Repr ty F c) (hty : ty.Sorted) (hb : c.child b ≠ .null) :
    ∃ F', (removeSorted ty b).run F = some ((), F') ∧ Repr ty F' (c.setChild b .null) := by
  have hrep := h.sortedRep hty
  set n := (bytes c.child).card with hn
  obtain ⟨pos, hp, hlt, hk⟩ := hrep.position_present hb
  obtain ⟨F₁, hrun₁, honly₁, hch₁⟩ := shiftDown_run pos (n - 1 - pos) (keysOf ty F) F
  obtain ⟨F₂, hrun₂, honly₂, hkeys₂⟩ := run_storeKeys hty
    (Function.update (shiftedDown pos (n - 1 - pos) (keysOf ty F)) (n - 1) 0)
    (Function.update F₁ (.child (n - 1)) Slot.null)
  have hcard : (bytes (Function.update c.child b .null)).card = n - 1 := by
    rw [bytes_update_null, Finset.card_erase_of_mem (by simpa using hb)]
  have hfits := h.fits
  have hrun : (Artmap.removeSorted ty b).run F =
      some ((), Function.update F₂ .numChildren (n - 1)) := by
    simp only [Artmap.removeSorted, bind_eq, run_bind, h.run_numChildren, Option.bind_some,
      ← hn, run_loadKeys hty, hp, hrun₁, hrun₂, run_store, setNumChildren]
  refine ⟨_, hrun, ?_⟩
  have hother : ∀ f, f ≠ .numChildren → (∀ i, f ≠ .child i) → f ≠ .keys4 →
      (∀ i, f ≠ .keys16 i) → Function.update F₂ .numChildren (n - 1) f = F f := by
    intro f h1 h2 h3 h4
    rw [Function.update_of_ne h1, honly₂ f h3 h4, Function.update_of_ne (h2 _), honly₁ f h2]
  refine h.of_children (by rw [hcard, Function.update_self]) (by omega)
    (hother _ (by simp) (by simp) (by simp) (by simp))
    (hother _ (by simp) (by simp) (by simp) (by simp))
    (fun i => hother _ (by simp) (by simp) (by simp) (by simp)) ?_
  rw [layoutRep_sorted hty, hcard]
  rw [← hk]
  have hslot : ∀ i, Function.update F₂ .numChildren (n - 1) (.child i) =
      if i = n - 1 then .null else shiftedDown pos (n - 1 - pos) (fun i => F (.child i)) i := by
    intro i
    rw [Function.update_of_ne (by simp), honly₂ _ (by simp) (by simp)]
    by_cases hi : i = n - 1
    · subst hi
      simp
    · rw [Function.update_of_ne (by simpa using hi), hch₁, if_neg hi]
  refine hrep.remove hlt (fun i hi => ?_) (fun i hi => ?_) (fun i hi => ?_)
  · have hke : keysOf ty (Function.update F₂ .numChildren (n - 1)) = keysOf ty F₂ := by
      rcases hty with rfl | rfl <;> simp [keysOf]
    rw [hke, hkeys₂ i (by omega), Function.update_of_ne (by omega)]
    simp only [shiftedDown]
    split_ifs <;> first | rfl | omega
  · rw [hslot, if_neg (by omega)]
    simp only [shiftedDown]
    split_ifs <;> first | rfl | omega
  · rw [hslot]
    split_ifs with hin
    · rfl
    · rw [shiftedDown, if_neg (by omega)]
      exact hrep.free i (by omega)

end Artmap
