import Artmap.Layout.Sorted

/-!
# The table layouts

`Node48` and `Node256` find a child through a table indexed by the byte and scan with a
256-bit bitmap of four words.  `bitmapNext_run` and `bitmapPrev_run` say that the word-wise
scans find the first and the last marked byte in range.
-/

namespace Artmap

open NodeM Content

/-- The first byte that passes. -/
def firstOf (p : Byte → Bool) : Option Byte :=
  (List.finRange 256).find? p

/-- The last byte that passes. -/
def lastOf (p : Byte → Bool) : Option Byte :=
  (List.finRange 256).reverse.find? p

variable {p : Byte → Bool} {b : Byte} {F : Fields} {c : Content} {child : Byte → Slot}

lemma firstOf_none (h : ∀ x, p x = false) : firstOf p = none := by
  simp [firstOf, h]

lemma firstOf_some (hb : p b = true) (h : ∀ x < b, p x = false) : firstOf p = some b := by
  unfold firstOf
  rw [List.find?_eq_some_iff_getElem]
  refine ⟨hb, b.val, by simp, by simp, fun j hj => ?_⟩
  have hj' : j < 256 := lt_trans hj b.isLt
  simpa using h ⟨j, hj'⟩ hj

lemma lastOf_none (h : ∀ x, p x = false) : lastOf p = none := by
  simp [lastOf, h]

lemma lastOf_some (hb : p b = true) (h : ∀ x, b < x → p x = false) : lastOf p = some b := by
  unfold lastOf
  rw [List.find?_eq_some_iff_getElem]
  have hlt := b.isLt
  refine ⟨hb, 255 - b.val, by simp; omega, ?_, fun j hj => ?_⟩
  · apply Fin.ext
    simp
    omega
  · simp only [List.getElem_reverse, List.length_finRange, List.getElem_finRange, Fin.cast_mk,
      Bool.not_eq_true']
    refine h _ ?_
    show b.val < 256 - 1 - j
    omega

/-! ## Bits of a word -/

lemma trailingZeros_spec {w : BitVec 64} (hw : w ≠ 0#64) :
    trailingZeros w < 64 ∧ w.getLsbD (trailingZeros w) = true ∧
      ∀ i < trailingZeros w, w.getLsbD i = false := by
  have hex : ∃ i ∈ List.range 64, w.getLsbD i = true := by
    by_contra hno
    push Not at hno
    apply hw
    apply BitVec.eq_of_getLsbD_eq
    intro i hi
    simpa using hno i (by simpa using hi)
  have hlt : (List.range 64).findIdx (fun i => w.getLsbD i) < (List.range 64).length :=
    List.findIdx_lt_length.mpr hex
  refine ⟨by rw [List.length_range] at hlt; exact hlt, ?_, fun i hi => ?_⟩
  · have hfound := List.findIdx_getElem (w := hlt)
    rw [List.getElem_range hlt] at hfound
    exact hfound
  · have hmin := List.not_of_lt_findIdx hi
    rw [List.getElem_range] at hmin
    simpa using hmin

lemma highestBit_spec {w : BitVec 64} (hw : w ≠ 0#64) :
    highestBit w < 64 ∧ w.getLsbD (highestBit w) = true ∧
      ∀ i, highestBit w < i → i < 64 → w.getLsbD i = false := by
  have hex : ∃ i ∈ List.range 64, w.getLsbD (63 - i) = true := by
    by_contra hno
    push Not at hno
    apply hw
    apply BitVec.eq_of_getLsbD_eq
    intro i hi
    have h1 := hno (63 - i) (by simp; omega)
    rw [show 63 - (63 - i) = i by omega] at h1
    simpa using h1
  obtain ⟨k, hk⟩ : ∃ k, (List.range 64).findIdx (fun i => w.getLsbD (63 - i)) = k := ⟨_, rfl⟩
  have hlt : (List.range 64).findIdx (fun i => w.getLsbD (63 - i)) < (List.range 64).length :=
    List.findIdx_lt_length.mpr hex
  have hfound := List.findIdx_getElem (w := hlt)
  rw [List.getElem_range hlt] at hfound
  have hk64 : k < 64 := by
    rw [← hk]
    simpa using hlt
  rw [hk] at hfound
  have hdef : highestBit w = 63 - k := by rw [← hk]; rfl
  rw [hdef]
  refine ⟨by omega, hfound, fun i hi hi64 => ?_⟩
  have hi' : 63 - i < (List.range 64).findIdx (fun i => w.getLsbD (63 - i)) := by
    rw [hk]
    omega
  have hmin := List.not_of_lt_findIdx hi'
  rw [List.getElem_range, show 63 - (63 - i) = i by omega] at hmin
  simpa using hmin

lemma byte_eq_iff {x y : Byte} : x = y ↔ bitmapWord x = bitmapWord y ∧ x.val % 64 = y.val % 64 := by
  constructor
  · rintro rfl
    exact ⟨rfl, rfl⟩
  · rintro ⟨h1, h2⟩
    have h1' : x.val / 64 = y.val / 64 := congrArg Fin.val h1
    apply Fin.ext
    omega

lemma getLsbD_one_shift {i j : ℕ} (hi : i < 64) :
    (1#64 <<< j).getLsbD i = decide (i = j) := by
  simp only [BitVec.getLsbD_shiftLeft, BitVec.getLsbD_one, hi]
  by_cases h : i = j
  · simp [h]
  · by_cases hlt : i < j
    · simp [hlt, h]
    · have : ¬ (i - j = 0) := by omega
      simp [h, this]

lemma wordOf_update (F : Fields) (i j : Fin 4) (w : BitVec 64) :
    wordOf (Function.update F (.bitmap i) w) j = if j = i then w else wordOf F j := by
  by_cases h : j = i
  · subst h
    simp [wordOf]
  · simp [wordOf, h]

/-- Setting the bit of a byte. -/
lemma bitOf_set (F : Fields) (b x : Byte) :
    bitOf (Function.update F (.bitmap (bitmapWord b))
      (wordOf F (bitmapWord b) ||| 1#64 <<< (b.val % 64))) x =
      (decide (x = b) || bitOf F x) := by
  by_cases hw : bitmapWord x = bitmapWord b
  · simp only [bitOf, hw, wordOf_update, ↓reduceIte, BitVec.getLsbD_or,
      getLsbD_one_shift (Nat.mod_lt x.val (by norm_num))]
    by_cases hx : x = b
    · simp [hx]
    · have hne : ¬ x.val % 64 = b.val % 64 := fun he => hx (byte_eq_iff.mpr ⟨hw, he⟩)
      simp [hx, hne]
  · have hx : x ≠ b := fun he => hw (by rw [he])
    simp [bitOf, wordOf_update, hw, hx]

/-- Clearing the bit of a byte. -/
lemma bitOf_clear (F : Fields) (b x : Byte) :
    bitOf (Function.update F (.bitmap (bitmapWord b))
      (wordOf F (bitmapWord b) &&& ~~~(1#64 <<< (b.val % 64)))) x =
      (!decide (x = b) && bitOf F x) := by
  have h64 : x.val % 64 < 64 := Nat.mod_lt x.val (by norm_num)
  by_cases hw : bitmapWord x = bitmapWord b
  · simp only [bitOf, hw, wordOf_update, ↓reduceIte, BitVec.getLsbD_and, BitVec.getLsbD_not, h64,
      getLsbD_one_shift h64]
    by_cases hx : x = b
    · simp [hx]
    · have hne : ¬ x.val % 64 = b.val % 64 := fun he => hx (byte_eq_iff.mpr ⟨hw, he⟩)
      simp [hx, hne]
  · have hx : x ≠ b := fun he => hw (by rw [he])
    simp [bitOf, wordOf_update, hw, hx]

/-! ## Scanning a bitmap -/

/-- The bytes that `bitmap_next` has still to look at: those of `word`, which is what is left
of word `i`, and of the words after it. -/
def bitsFrom (F : Fields) (i : ℕ) (word : BitVec 64) (x : Byte) : Bool :=
  (decide (x.val / 64 = i) && word.getLsbD (x.val % 64)) || (decide (i < x.val / 64) && bitOf F x)

/-- The bytes that `bitmap_prev` has still to look at. -/
def bitsUpto (F : Fields) (i : ℕ) (word : BitVec 64) (x : Byte) : Bool :=
  (decide (x.val / 64 = i) && word.getLsbD (x.val % 64)) || (decide (x.val / 64 < i) && bitOf F x)

lemma firstOf_bitsFrom (i : ℕ) (hi : i ≤ 3) {word : BitVec 64} (hw : word ≠ 0#64) :
    firstOf (bitsFrom F i word) = some (Fin.ofNat 256 (i * 64 + trailingZeros word)) := by
  obtain ⟨h64, hbit, hmin⟩ := trailingZeros_spec hw
  have hval : (Fin.ofNat 256 (i * 64 + trailingZeros word)).val = i * 64 + trailingZeros word :=
    Nat.mod_eq_of_lt (by omega)
  have hdiv : (i * 64 + trailingZeros word) / 64 = i := by omega
  have hmod : (i * 64 + trailingZeros word) % 64 = trailingZeros word := by omega
  refine firstOf_some ?_ fun x hx => ?_
  · simp only [bitsFrom, hval, hdiv, hmod, hbit]
    simp
  · have hx' : x.val < i * 64 + trailingZeros word := by
      rw [← hval]
      exact hx
    have hnot : ¬ i < x.val / 64 := by omega
    by_cases hxi : x.val / 64 = i
    · have := hmin (x.val % 64) (by omega)
      simp [bitsFrom, hxi, this]
    · simp [bitsFrom, hxi, hnot]

lemma lastOf_bitsUpto (i : ℕ) (hi : i ≤ 3) {word : BitVec 64} (hw : word ≠ 0#64) :
    lastOf (bitsUpto F i word) = some (Fin.ofNat 256 (i * 64 + highestBit word)) := by
  obtain ⟨h64, hbit, hmax⟩ := highestBit_spec hw
  have hval : (Fin.ofNat 256 (i * 64 + highestBit word)).val = i * 64 + highestBit word :=
    Nat.mod_eq_of_lt (by omega)
  have hdiv : (i * 64 + highestBit word) / 64 = i := by omega
  have hmod : (i * 64 + highestBit word) % 64 = highestBit word := by omega
  refine lastOf_some ?_ fun x hx => ?_
  · simp only [bitsUpto, hval, hdiv, hmod, hbit]
    simp
  · have hx' : i * 64 + highestBit word < x.val := by
      rw [← hval]
      exact hx
    have hnot : ¬ x.val / 64 < i := by omega
    by_cases hxi : x.val / 64 = i
    · have := hmax (x.val % 64) (by omega) (by omega)
      simp [bitsUpto, hxi, this]
    · simp [bitsUpto, hxi, hnot]

lemma bitmapNextFrom_run (F : Fields) (n : ℕ) (hn : n ≤ 3) (word : BitVec 64) :
    (bitmapNextFrom n word).run F = some (firstOf (bitsFrom F (3 - n) word), F) := by
  induction n generalizing word with
  | zero =>
    by_cases hw : word = 0#64
    · have h0 : firstOf (bitsFrom F 3 word) = none := by
        refine firstOf_none fun x => ?_
        have := x.isLt
        have hnot : ¬ 3 < x.val / 64 := by omega
        simp [bitsFrom, hw, hnot]
      simp only [bitmapNextFrom, hw, ↓reduceIte, pure_eq, run_ret]
      rw [← hw, Nat.sub_zero, h0]
    · simp only [bitmapNextFrom, hw, ↓reduceIte, pure_eq, run_ret, Nat.sub_zero,
        firstOf_bitsFrom 3 le_rfl hw]
  | succ n ih =>
    by_cases hw : word = 0#64
    · have he : bitsFrom F (3 - (n + 1)) word =
          bitsFrom F (3 - n) (wordOf F (Fin.ofNat 4 (3 - n))) := by
        funext x
        have hx := x.isLt
        have hsucc : 3 - (n + 1) < x.val / 64 ↔ x.val / 64 = 3 - n ∨ 3 - n < x.val / 64 := by
          omega
        by_cases hxi : x.val / 64 = 3 - n
        · have hword : bitmapWord x = Fin.ofNat 4 (3 - n) := by
            apply Fin.ext
            simp only [bitmapWord, hxi, Fin.ofNat]
            omega
          have h1 : 3 - (n + 1) < 3 - n := by omega
          simp only [bitsFrom, hw, hxi, bitOf, hword, h1]
          simp
        · simp only [bitsFrom, hw, hxi, hsucc]
          simp
      simp only [bitmapNextFrom, hw, ↓reduceIte, bind_eq, run_bind, run_load_bitmap,
        Option.bind_some, ih (by omega)]
      rw [← hw, he]
      rfl
    · simp only [bitmapNextFrom, hw, ↓reduceIte, pure_eq, run_ret,
        firstOf_bitsFrom (3 - (n + 1)) (by omega) hw]

/-- `bitmap_next` finds the first marked byte that is `start` or more. -/
lemma bitmapNext_run (F : Fields) (start : ℕ) :
    (bitmapNext start).run F =
      some (firstOf fun x => decide (start ≤ x.val) && bitOf F x, F) := by
  by_cases hs : 255 < start
  · have h0 : firstOf (fun x => decide (start ≤ x.val) && bitOf F x) = none := by
      refine firstOf_none fun x => ?_
      have := x.isLt
      have hnot : ¬ start ≤ x.val := by omega
      simp [hnot]
    simp [bitmapNext, hs, h0]
  · have he : bitsFrom F (3 - (3 - start / 64))
        (wordOf F (Fin.ofNat 4 (start / 64)) &&& (BitVec.allOnes 64 <<< (start % 64))) =
        fun x => decide (start ≤ x.val) && bitOf F x := by
      funext x
      have hx := x.isLt
      have hi : 3 - (3 - start / 64) = start / 64 := by omega
      rw [hi]
      by_cases hxi : x.val / 64 = start / 64
      · have hword : bitmapWord x = Fin.ofNat 4 (start / 64) := by
          apply Fin.ext
          simp only [bitmapWord, hxi, Fin.ofNat]
          omega
        have h64 : x.val % 64 < 64 := Nat.mod_lt _ (by norm_num)
        have hle : start ≤ x.val ↔ ¬ x.val % 64 < start % 64 := by omega
        have h64' : x.val % 64 - start % 64 < 64 := by omega
        simp only [bitsFrom, hxi, decide_true, Bool.true_and, lt_irrefl, decide_false,
          Bool.false_and, Bool.or_false, BitVec.getLsbD_and, BitVec.getLsbD_shiftLeft, h64,
          BitVec.getLsbD_allOnes, h64', Bool.and_true, hle, bitOf, hword]
        rw [Bool.and_comm]
        simp only [decide_not]
      · have hlt : start / 64 < x.val / 64 ↔ start ≤ x.val := by omega
        simp [bitsFrom, hxi, hlt]
    simp only [bitmapNext, hs, ↓reduceIte, bind_eq, run_bind, run_load_bitmap,
      Option.bind_some, bitmapNextFrom_run F _ (Nat.sub_le _ _)]
    rw [← he]
    rfl

lemma bitmapPrevFrom_run (F : Fields) (n : ℕ) (hn : n ≤ 3) (word : BitVec 64) :
    (bitmapPrevFrom n word).run F = some (lastOf (bitsUpto F n word), F) := by
  induction n generalizing word with
  | zero =>
    by_cases hw : word = 0#64
    · have h0 : lastOf (bitsUpto F 0 word) = none := by
        refine lastOf_none fun x => ?_
        simp [bitsUpto, hw]
      simp only [bitmapPrevFrom, hw, ↓reduceIte, pure_eq, run_ret]
      rw [← hw, h0]
    · simp only [bitmapPrevFrom, hw, ↓reduceIte, pure_eq, run_ret,
        lastOf_bitsUpto 0 (by omega) hw, Nat.zero_mul, Nat.zero_add]
  | succ n ih =>
    by_cases hw : word = 0#64
    · have he : bitsUpto F (n + 1) word = bitsUpto F n (wordOf F (Fin.ofNat 4 n)) := by
        funext x
        have hx := x.isLt
        have hsucc : x.val / 64 < n + 1 ↔ x.val / 64 = n ∨ x.val / 64 < n := by omega
        by_cases hxi : x.val / 64 = n
        · have hword : bitmapWord x = Fin.ofNat 4 n := by
            apply Fin.ext
            simp only [bitmapWord, hxi, Fin.ofNat]
            omega
          simp only [bitsUpto, hw, hxi, bitOf, hword]
          simp
        · simp only [bitsUpto, hw, hxi, hsucc]
          simp
      simp only [bitmapPrevFrom, hw, ↓reduceIte, bind_eq, run_bind, run_load_bitmap,
        Option.bind_some, ih (by omega)]
      rw [← hw, he]
      rfl
    · simp only [bitmapPrevFrom, hw, ↓reduceIte, pure_eq, run_ret,
        lastOf_bitsUpto (n + 1) hn hw]

/-- The mask of the bits up to `k`. -/
lemma getLsbD_lowMask {k j : ℕ} (hk : k < 64) :
    (1#64 <<< k - 1#64).getLsbD j = decide (j < k) := by
  have hpow : (2 : ℕ) ^ k < 2 ^ 64 := Nat.pow_lt_pow_right (by norm_num) hk
  have hpos : 0 < (2 : ℕ) ^ k := Nat.pow_pos (by norm_num)
  have h1 : (1#64 <<< k).toNat = 2 ^ k := by
    rw [BitVec.toNat_shiftLeft, Nat.shiftLeft_eq]
    simpa using hpow
  have h2 : (1#64 <<< k - 1#64).toNat = 2 ^ k - 1 := by
    rw [BitVec.toNat_sub, h1]
    simp only [BitVec.toNat_ofNat]
    omega
  rw [BitVec.getLsbD, h2, Nat.testBit_two_pow_sub_one]

/-- `bitmap_prev` finds the last marked byte that is `upto` or less. -/
lemma bitmapPrev_run (F : Fields) (upto : Byte) :
    (bitmapPrev upto).run F = some (lastOf fun x => decide (x ≤ upto) && bitOf F x, F) := by
  obtain ⟨mask, hmask⟩ : ∃ mask, (if upto.val % 64 = 63 then BitVec.allOnes 64
    else 1#64 <<< (upto.val % 64 + 1) - 1#64) = mask := ⟨_, rfl⟩
  have hbits : ∀ j < 64, mask.getLsbD j = decide (j ≤ upto.val % 64) := by
    intro j hj
    rw [← hmask]
    split
    · rename_i h63
      have hle : j ≤ 63 := by omega
      simp only [BitVec.getLsbD_allOnes, hj, h63, hle]
    · rw [getLsbD_lowMask (by omega)]
      simp
  have he : bitsUpto F (upto.val / 64) (wordOf F (bitmapWord upto) &&& mask) =
      fun x => decide (x ≤ upto) && bitOf F x := by
    funext x
    have hx := x.isLt
    by_cases hxi : x.val / 64 = upto.val / 64
    · have hword : bitmapWord x = bitmapWord upto := Fin.ext hxi
      have h64 : x.val % 64 < 64 := Nat.mod_lt _ (by norm_num)
      have hle : x ≤ upto ↔ x.val % 64 ≤ upto.val % 64 := by
        rw [Fin.le_def]
        omega
      simp only [bitsUpto, hxi, decide_true, Bool.true_and, lt_irrefl, decide_false,
        Bool.false_and, Bool.or_false, BitVec.getLsbD_and, hbits _ h64, hle, bitOf, hword]
      rw [Bool.and_comm]
    · have hlt : x.val / 64 < upto.val / 64 ↔ x ≤ upto := by
        rw [Fin.le_def]
        omega
      simp [bitsUpto, hxi, hlt]
  have hup := upto.isLt
  simp only [bitmapPrev, bind_eq, run_bind, run_load_bitmap, Option.bind_some, hmask,
    bitmapPrevFrom_run F _ (show upto.val / 64 ≤ 3 by omega)]
  rw [← he]
  rfl

end Artmap
