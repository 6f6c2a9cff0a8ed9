import Artmap.Layout.Content

/-!
# The search of a `Node16` (`src/simd.rs`)

`find_child_node16` has three bodies, of which a build takes one: a loop over the keys, and two
that compare all sixteen keys at once, with the instructions of SSE2 and of NEON.  A vector
register is its sixteen byte lanes here, and the intrinsics do to the lanes what they are
documented to do.  The keys past the count hold whatever earlier children left there.

All three answer with the first index below the count whose key is the needle.
-/

namespace Artmap

namespace Simd

/-- The key bytes of a `Node16`. -/
abbrev Keys := Fin 16 → Byte

/-- A vector register, by its byte lanes. -/
abbrev Lanes := Fin 16 → BitVec 8

/-! ## The loop -/

/-- `find_child_scalar`. -/
def findChildScalar (keys : Keys) (numChildren : ℕ) (needle : Byte) : Option ℕ :=
  (((List.finRange 16).take numChildren).find? fun i => keys i == needle).map Fin.val

/-! ## Vectors -/

/-- A word, by its bits. -/
def ofBits (w : ℕ) (f : ℕ → Bool) : BitVec w :=
  (BitVec.ofBoolListLE ((List.range w).map f)).cast (by simp)

/-- `_mm_cmpeq_epi8` and `vceqq_u8`, against a vector whose lanes are all `needle`
(`_mm_set1_epi8`, `vdupq_n_u8`). -/
def compareEq (keys : Keys) (needle : Byte) : Lanes :=
  fun i => if keys i = needle then 0xFF#8 else 0x00#8

/-- `_mm_movemask_epi8`, as a `u32`: the top bits of the lanes. -/
def movemask (v : Lanes) : BitVec 32 :=
  ofBits 32 fun i => if h : i < 16 then (v ⟨i, h⟩).msb else false

/-- `vgetq_lane_u64` of `vreinterpretq_u64_u8`: eight lanes as a little-endian word. -/
def laneU64 (v : Lanes) (half : Fin 2) : BitVec 64 :=
  ofBits 64 fun z => (v (Fin.ofNat 16 (8 * half + z / 8))).getLsbD (z % 8)

/-! ## The two searches -/

/-- `find_child_x86_sse2`. -/
def findChildX86Sse2 (keys : Keys) (numChildren : ℕ) (needle : Byte) : Option ℕ :=
  let mask := movemask (compareEq keys needle)
  let validMask := 1#32 <<< numChildren - 1#32
  let found := mask &&& validMask
  if found ≠ 0#32 then some found.ctz.toNat else none

/-- `find_child_neon`. -/
def findChildNeon (keys : Keys) (numChildren : ℕ) (needle : Byte) : Option ℕ :=
  let cmp := compareEq keys needle
  let lo := laneU64 cmp 0
  let hi := laneU64 cmp 1
  if lo ≠ 0#64 then
    let idx := lo.ctz.toNat >>> 3
    if idx < numChildren then some idx else none
  else if hi ≠ 0#64 then
    let idx := 8 + hi.ctz.toNat >>> 3
    if idx < numChildren then some idx else none
  else none

/-! ## Lanes and bits -/

variable {keys : Keys} {numChildren : ℕ} {needle : Byte}

lemma getLsbD_ofBits (w : ℕ) (f : ℕ → Bool) (i : ℕ) :
    (ofBits w f).getLsbD i = (decide (i < w) && f i) := by
  unfold ofBits
  rw [BitVec.getLsbD_cast, BitVec.getLsbD_ofBoolListLE]
  by_cases hi : i < w
  · simp [hi]
  · simp [hi]

/-- The key at an index, if there is one, is the needle. -/
def Hit (keys : Keys) (needle : Byte) (i : ℕ) : Prop :=
  ∃ h : i < 16, keys ⟨i, h⟩ = needle

lemma getLsbD_compareEq (i : Fin 16) {z : ℕ} (hz : z < 8) :
    (compareEq keys needle i).getLsbD z = decide (keys i = needle) := by
  unfold compareEq
  split_ifs with h
  · have : (0xFF#8).getLsbD z = true := by
      interval_cases z <;> rfl
    simp [h, this]
  · simp [h]

/-- The mask has the bits of the keys that are the needle. -/
lemma getLsbD_movemask (i : ℕ) :
    (movemask (compareEq keys needle)).getLsbD i = true ↔ Hit keys needle i := by
  have hmsb : ∀ i : Fin 16, (compareEq keys needle i).msb = decide (keys i = needle) := fun i => by
    rw [BitVec.msb_eq_getLsbD_last]
    exact getLsbD_compareEq i (by norm_num)
  unfold movemask Hit
  rw [getLsbD_ofBits]
  by_cases h : i < 16
  · simp [h, hmsb, show i < 32 by omega]
  · simp [h]

/-- Each key is eight bits of a lane. -/
lemma getLsbD_laneU64 (half : Fin 2) {z : ℕ} (hz : z < 64) :
    (laneU64 (compareEq keys needle) half).getLsbD z = true ↔
      Hit keys needle (8 * half + z / 8) := by
  have hlt : 8 * half.val + z / 8 < 16 := by omega
  have hval : Fin.ofNat 16 (8 * half.val + z / 8) = ⟨8 * half + z / 8, hlt⟩ :=
    Fin.ext (Nat.mod_eq_of_lt hlt)
  unfold laneU64 Hit
  rw [getLsbD_ofBits, hval, getLsbD_compareEq _ (Nat.mod_lt _ (by norm_num))]
  simp [hz, hlt]

/-- A word that is not zero has its first bit where `ctz` says. -/
lemma ctz_first {w : ℕ} {x : BitVec w} (hx : x ≠ 0#w) :
    x.ctz.toNat < w ∧ x.getLsbD x.ctz.toNat = true ∧ ∀ j < x.ctz.toNat, x.getLsbD j = false := by
  have hbit := BitVec.getLsbD_true_ctz_of_ne_zero hx
  exact ⟨BitVec.lt_of_getLsbD hbit, hbit, fun j hj => BitVec.getLsbD_false_of_lt_ctz hj⟩

lemma eq_zero_iff {w : ℕ} {x : BitVec w} : x = 0#w ↔ ∀ i < w, x.getLsbD i = false := by
  constructor
  · rintro rfl i -
    exact BitVec.getLsbD_zero
  · intro h
    refine BitVec.eq_of_getLsbD_eq fun i hi => ?_
    rw [h i hi, BitVec.getLsbD_zero]

/-! ## The first hit -/

/-- The answer of a search for the first hit below the count. -/
def First (keys : Keys) (numChildren : ℕ) (needle : Byte) : Option ℕ → Prop
  | some i => i < numChildren ∧ Hit keys needle i ∧ ∀ j < i, ¬ Hit keys needle j
  | none => ∀ i < numChildren, ¬ Hit keys needle i

lemma First.unique {r r' : Option ℕ} (h : First keys numChildren needle r)
    (h' : First keys numChildren needle r') : r = r' := by
  cases r with
  | none =>
    cases r' with
    | none => rfl
    | some i => exact absurd h'.2.1 (h i h'.1)
  | some i =>
    cases r' with
    | none => exact absurd h.2.1 (h' i h.1)
    | some j =>
      rcases lt_trichotomy i j with hij | rfl | hij
      · exact absurd h.2.1 (h'.2.2 i hij)
      · rfl
      · exact absurd h'.2.1 (h.2.2 j hij)

lemma first_scalar (keys : Keys) (numChildren : ℕ) (needle : Byte) :
    First keys numChildren needle (findChildScalar keys numChildren needle) := by
  have hmem : ∀ i : Fin 16, i ∈ (List.finRange 16).take numChildren ↔ i.val < numChildren := by
    intro i
    rw [List.mem_take_iff_getElem]
    constructor
    · rintro ⟨j, hj, rfl⟩
      simp only [List.getElem_finRange]
      exact (lt_min_iff.mp hj).1
    · intro hi
      exact ⟨i, by simpa using hi, by simp⟩
  unfold findChildScalar
  cases hfind : ((List.finRange 16).take numChildren).find? fun i => keys i == needle with
  | none =>
    rintro i hi ⟨h16, heq⟩
    have := List.find?_eq_none.mp hfind ⟨i, h16⟩ ((hmem _).mpr hi)
    simp [heq] at this
  | some i =>
    obtain ⟨heq, k, hk, hi, hbefore⟩ := List.find?_eq_some_iff_getElem.mp hfind
    obtain rfl : i.val = k := by
      rw [← hi]
      simp
    refine ⟨(hmem i).mp (List.mem_of_find?_eq_some hfind), ⟨i.isLt, by simpa using heq⟩, ?_⟩
    rintro j hj ⟨h16, hjeq⟩
    have := hbefore j hj
    simp [hjeq] at this

lemma first_sse2 (hcount : numChildren ≤ 16) :
    First keys numChildren needle (findChildX86Sse2 keys numChildren needle) := by
  have hbits : ∀ i, (movemask (compareEq keys needle) &&&
      (1#32 <<< numChildren - 1#32)).getLsbD i = true ↔ i < numChildren ∧ Hit keys needle i := by
    intro i
    have hvalid : (1#32 <<< numChildren - 1#32).getLsbD i = decide (i < numChildren) := by
      have hpow : 2 ^ numChildren < 2 ^ 32 := Nat.pow_lt_pow_right (by norm_num) (by omega)
      have hnat : (1#32 <<< numChildren - 1#32).toNat = 2 ^ numChildren - 1 := by
        have hpos := Nat.one_le_two_pow (n := numChildren)
        rw [BitVec.toNat_sub, BitVec.toNat_shiftLeft, Nat.shiftLeft_eq]
        simp only [BitVec.toNat_ofNat]
        omega
      rw [← BitVec.testBit_toNat, hnat, Nat.testBit_two_pow_sub_one]
    rw [BitVec.getLsbD_and, Bool.and_eq_true, getLsbD_movemask, hvalid, decide_eq_true_eq]
    exact and_comm
  unfold findChildX86Sse2
  dsimp only
  split_ifs with hne
  · obtain ⟨-, hbit, hbefore⟩ := ctz_first hne
    obtain ⟨hlt, hhit⟩ := (hbits _).mp hbit
    refine ⟨hlt, hhit, fun j hj hhit' => ?_⟩
    have := (hbits j).mpr ⟨hj.trans hlt, hhit'⟩
    rw [hbefore j hj] at this
    exact Bool.false_ne_true this
  · intro i hi hhit
    have := (hbits i).mpr ⟨hi, hhit⟩
    rw [not_not.mp hne] at this
    simp at this

/-- The first hit of one half. -/
lemma lane_first (half : Fin 2) (hne : laneU64 (compareEq keys needle) half ≠ 0#64) :
    ∃ i, (laneU64 (compareEq keys needle) half).ctz.toNat >>> 3 = i ∧ i < 8 ∧
      Hit keys needle (8 * half + i) ∧ ∀ j < i, ¬ Hit keys needle (8 * half + j) := by
  obtain ⟨hlt, hbit, hbefore⟩ := ctz_first hne
  rw [getLsbD_laneU64 half hlt] at hbit
  refine ⟨_, Nat.shiftRight_eq_div_pow _ 3, by omega, hbit, fun j hj hhit => ?_⟩
  -- The lowest bit of an earlier hit would come first.
  have hfirst := hbefore (8 * j) (by omega)
  have : (laneU64 (compareEq keys needle) half).getLsbD (8 * j) = true := by
    rw [getLsbD_laneU64 half (by omega), Nat.mul_div_cancel_left j (by norm_num)]
    exact hhit
  rw [hfirst] at this
  exact Bool.false_ne_true this

lemma lane_zero (half : Fin 2) (h : laneU64 (compareEq keys needle) half = 0#64) {j : ℕ}
    (hj : j < 8) : ¬ Hit keys needle (8 * half + j) := by
  have := eq_zero_iff.mp h (8 * j) (by omega)
  rw [← Bool.not_eq_true, getLsbD_laneU64 half (by omega),
    Nat.mul_div_cancel_left j (by norm_num)] at this
  exact this

/-- An index that comes first is the answer, if it is below the count. -/
lemma first_of_index {i : ℕ} (hhit : Hit keys needle i) (hbefore : ∀ j < i, ¬ Hit keys needle j) :
    First keys numChildren needle (if i < numChildren then some i else none) := by
  split_ifs with hlt
  · exact ⟨hlt, hhit, hbefore⟩
  · exact fun j hj => hbefore j (by omega)

lemma first_neon (keys : Keys) (numChildren : ℕ) (needle : Byte) :
    First keys numChildren needle (findChildNeon keys numChildren needle) := by
  unfold findChildNeon
  by_cases hlo : laneU64 (compareEq keys needle) 0 = 0#64
  · have hnone : ∀ j < 8, ¬ Hit keys needle j := fun j hj => by
      simpa using lane_zero 0 hlo hj
    by_cases hhi : laneU64 (compareEq keys needle) 1 = 0#64
    · simp only [hlo, hhi, ne_eq, not_true_eq_false, if_false]
      rintro i hi ⟨h16, heq⟩
      by_cases h8 : i < 8
      · exact hnone i h8 ⟨h16, heq⟩
      · have := lane_zero 1 hhi (show i - 8 < 8 by omega)
        rw [show 8 * (1 : Fin 2).val + (i - 8) = i by simp; omega] at this
        exact this ⟨h16, heq⟩
    · obtain ⟨i, hi, hi8, hhit, hbefore⟩ := lane_first 1 hhi
      simp only [hlo, hhi, hi, ne_eq, not_true_eq_false, not_false_eq_true, if_false, if_true]
      refine first_of_index (by simpa using hhit) fun j hj => ?_
      by_cases h8 : j < 8
      · exact hnone j h8
      · have := hbefore (j - 8) (by omega)
        rwa [show 8 * (1 : Fin 2).val + (j - 8) = j by simp; omega] at this
  · obtain ⟨i, hi, -, hhit, hbefore⟩ := lane_first 0 hlo
    simp only [hlo, hi, ne_eq, not_false_eq_true, if_true]
    exact first_of_index (by simpa using hhit) fun j hj => by simpa using hbefore j hj

/-- The searches are what a `Node16` looks its keys up with. -/
lemma scalar_eq_position (keys : Keys) (numChildren : ℕ) (hcount : numChildren ≤ 16)
    (needle : Byte) : findChildScalar keys numChildren needle =
      position (fun i => if h : i < 16 then keys ⟨i, h⟩ else 0) numChildren needle := by
  refine (first_scalar keys numChildren needle).unique ?_
  unfold position
  cases hfind : (List.range numChildren).find?
      fun i => (if h : i < 16 then keys ⟨i, h⟩ else 0) == needle with
  | none =>
    rintro i hi ⟨h16, heq⟩
    have := List.find?_eq_none.mp hfind i (List.mem_range.mpr hi)
    simp [h16, heq] at this
  | some i =>
    obtain ⟨heq, k, hk, hi, hbefore⟩ := List.find?_eq_some_iff_getElem.mp hfind
    obtain rfl : k = i := by simpa using hi
    have hlt : k < numChildren := by simpa using hk
    have h16 : k < 16 := by omega
    refine ⟨hlt, ⟨h16, by simpa [h16] using heq⟩, ?_⟩
    rintro j hj ⟨hj16, hjeq⟩
    have := hbefore j hj
    simp [hj16, hjeq] at this

/-- **The three searches agree.**  For all keys, whatever stands past the count, they answer with
the first index below the count whose key is the needle. -/
theorem searches_agree (keys : Keys) (numChildren : ℕ) (hcount : numChildren ≤ 16)
    (needle : Byte) :
    findChildX86Sse2 keys numChildren needle = findChildScalar keys numChildren needle ∧
    findChildNeon keys numChildren needle = findChildScalar keys numChildren needle ∧
    First keys numChildren needle (findChildScalar keys numChildren needle) :=
  ⟨(first_sse2 hcount).unique (first_scalar _ _ _),
    (first_neon _ _ _).unique (first_scalar _ _ _), first_scalar _ _ _⟩

/-- A match past the count is none. -/
theorem searches_agree_stale : findChildNeon (fun i => if i.val < 9 then 1 else 7) 9 7 =
    findChildScalar (fun i => if i.val < 9 then 1 else 7) 9 7 :=
  (searches_agree _ 9 (by norm_num) 7).2.1

end Simd

end Artmap
