import Artmap.Layout.Content
import Mathlib.Data.List.GetD

/-!
# Comparing keys (`src/raw/cursor.rs`)

`cmp_keys` compares the bytes of two keys.  Keys with more than 64 bytes in common length go to
the comparison of slices in the standard library, which is lexicographic; shorter ones are
compared eight bytes at a time, as big-endian numbers, and then byte by byte.  All of them are the
lexicographic order of byte strings, in which a proper prefix comes first.
-/

namespace Artmap

/-- `u64::from_be_bytes`, of as many bytes as there are. -/
def fromBeBytes : List Byte → ℕ
  | [] => 0
  | b :: bs => b * 256 ^ bs.length + fromBeBytes bs

/-- `first_chunk::<8>`. -/
def firstChunk (l : List Byte) : Option (List Byte) :=
  if 8 ≤ l.length then some (l.take 8) else none

/-- The loop of `cmp_keys` over chunks of eight bytes, from `i` on: an answer, or where the loop
has ended.  Every round goes eight bytes on. -/
def cmpChunks (a b : Key) (n : ℕ) : ℕ → ℕ → Ordering ⊕ ℕ
  | 0, i => .inr i
  | fuel + 1, i =>
    if i + 8 ≤ n then
      match firstChunk (a.drop i), firstChunk (b.drop i) with
      | some x, some y =>
        if fromBeBytes x ≠ fromBeBytes y then .inl (compare (fromBeBytes x) (fromBeBytes y))
        else cmpChunks a b n fuel (i + 8)
      | _, _ => .inr i
    else .inr i

/-- The loop of `cmp_keys` over bytes, from `i` on; then the lengths decide. -/
def cmpTail (a b : Key) (n : ℕ) : ℕ → ℕ → Ordering
  | 0, _ => compare a.length b.length
  | fuel + 1, i =>
    if i < n then
      if a.getD i 0 ≠ b.getD i 0 then compare (a.getD i 0) (b.getD i 0)
      else cmpTail a b n fuel (i + 1)
    else compare a.length b.length

/-- `cmp_keys`.  The comparison of slices is `compare` of lists. -/
def cmpKeys (a b : Key) : Ordering :=
  let n := min a.length b.length
  if 64 < n then compare a b
  else match cmpChunks a b n n 0 with
    | .inl o => o
    | .inr i => cmpTail a b n n i

/-! ## The lexicographic order -/

variable {a b x y : Key} {n i : ℕ}

lemma compare_cons (p q : Byte) (a b : Key) :
    compare (p :: a) (q :: b) = (compare p q).then (compare a b) :=
  List.compareLex_cons_cons

/-- Equally long beginnings decide first. -/
lemma compare_append (h : x.length = y.length) (a b : Key) :
    compare (x ++ a) (y ++ b) = (compare x y).then (compare a b) := by
  induction x generalizing y with
  | nil =>
    obtain rfl : y = [] := List.length_eq_zero_iff.mp h.symm
    rfl
  | cons p x ih =>
    cases y with
    | nil => simp at h
    | cons q y =>
      rw [List.cons_append, List.cons_append, compare_cons, compare_cons, ih (by simpa using h),
        Ordering.then_assoc]

lemma compare_eq_iff : compare a b = .eq ↔ a = b := by
  induction a generalizing b with
  | nil => cases b <;> simp [compare, List.compareLex]
  | cons p a ih =>
    cases b with
    | nil => simp [compare, List.compareLex]
    | cons q b => rw [compare_cons, Ordering.then_eq_eq, compare_eq_iff_eq, ih, List.cons.injEq]

lemma compare_lt_iff : compare a b = .lt ↔ a < b := by
  induction a generalizing b with
  | nil => cases b <;> simp [compare, List.compareLex]
  | cons p a ih =>
    cases b with
    | nil => simp [compare, List.compareLex]
    | cons q b =>
      rw [compare_cons, Ordering.then_eq_lt, compare_lt_iff_lt, compare_eq_iff_eq, ih,
        List.cons_lt_cons_iff]

lemma compare_gt_iff : compare a b = .gt ↔ b < a := by
  induction a generalizing b with
  | nil => cases b <;> simp [compare, List.compareLex]
  | cons p a ih =>
    cases b with
    | nil => simp [compare, List.compareLex]
    | cons q b =>
      rw [compare_cons, Ordering.then_eq_gt, compare_gt_iff_gt, compare_eq_iff_eq, ih,
        List.cons_lt_cons_iff]
      exact or_congr_right (and_congr_left' eq_comm)

/-! ## Big-endian numbers -/

lemma fromBeBytes_lt (l : List Byte) : fromBeBytes l < 256 ^ l.length := by
  induction l with
  | nil => simp [fromBeBytes]
  | cons b l ih =>
    rw [fromBeBytes, List.length_cons, pow_succ]
    have hb : b.val + 1 ≤ 256 := b.isLt
    have := Nat.mul_le_mul_right (256 ^ l.length) hb
    rw [add_one_mul] at this
    omega

/-- Big-endian numbers of one length are compared like their bytes. -/
lemma compare_fromBeBytes (h : x.length = y.length) :
    compare (fromBeBytes x) (fromBeBytes y) = compare x y := by
  induction x generalizing y with
  | nil =>
    obtain rfl : y = [] := List.length_eq_zero_iff.mp h.symm
    rfl
  | cons p x ih =>
    cases y with
    | nil => simp at h
    | cons q y =>
      have hlen : x.length = y.length := by simpa using h
      have hx := fromBeBytes_lt x
      have hy := fromBeBytes_lt y
      rw [compare_cons, ← ih hlen, fromBeBytes, fromBeBytes, ← hlen]
      rw [← hlen] at hy
      rcases lt_trichotomy p q with hpq | rfl | hpq
      · have hle := Nat.mul_le_mul_right (256 ^ x.length) (Nat.succ_le_of_lt hpq)
        rw [Nat.succ_mul] at hle
        rw [compare_lt_iff_lt.mpr hpq, Ordering.lt_then, compare_lt_iff_lt]
        omega
      · rw [compare_eq_iff_eq.mpr rfl, Ordering.eq_then]
        rcases lt_trichotomy (fromBeBytes x) (fromBeBytes y) with h | h | h
        · rw [compare_lt_iff_lt.mpr h, compare_lt_iff_lt]
          omega
        · rw [h, compare_eq_iff_eq.mpr rfl]
          exact (compare_eq_iff_eq.mpr rfl).symm
        · rw [compare_gt_iff_gt.mpr h, compare_gt_iff_gt]
          omega
      · have hle := Nat.mul_le_mul_right (256 ^ x.length) (Nat.succ_le_of_lt hpq)
        rw [Nat.succ_mul] at hle
        rw [compare_gt_iff_gt.mpr hpq, Ordering.gt_then, compare_gt_iff_gt]
        omega

/-! ## The loops -/

/-- Past a byte that is the same, the rest decides. -/
lemma compare_drop_succ (ha : i < a.length) (hb : i < b.length) (h : a.getD i 0 = b.getD i 0) :
    compare (a.drop i) (b.drop i) = compare (a.drop (i + 1)) (b.drop (i + 1)) := by
  rw [List.getD_eq_getElem _ _ ha, List.getD_eq_getElem _ _ hb] at h
  rw [List.drop_eq_getElem_cons ha, List.drop_eq_getElem_cons hb, compare_cons, h,
    compare_eq_iff_eq.mpr rfl, Ordering.eq_then]

/-- The loop over chunks answers with the order, or ends where the rest decides. -/
lemma cmpChunks_spec (ha : n ≤ a.length) (hb : n ≤ b.length) (fuel : ℕ) (hi : i ≤ n) :
    match cmpChunks a b n fuel i with
    | .inl o => o = compare (a.drop i) (b.drop i)
    | .inr j => j ≤ n ∧ compare (a.drop j) (b.drop j) = compare (a.drop i) (b.drop i) := by
  induction fuel generalizing i with
  | zero => exact ⟨hi, rfl⟩
  | succ fuel ih =>
    rw [cmpChunks]
    by_cases h8 : i + 8 ≤ n
    · have hda : 8 ≤ (a.drop i).length := by
        rw [List.length_drop]
        omega
      have hdb : 8 ≤ (b.drop i).length := by
        rw [List.length_drop]
        omega
      have hlen : ((a.drop i).take 8).length = ((b.drop i).take 8).length := by
        rw [List.length_take, List.length_take, min_eq_left hda, min_eq_left hdb]
      have hsplit := compare_append hlen ((a.drop i).drop 8) ((b.drop i).drop 8)
      rw [List.take_append_drop, List.take_append_drop, List.drop_drop, List.drop_drop,
        ← compare_fromBeBytes hlen] at hsplit
      simp only [h8, if_true, firstChunk, hda, hdb]
      split_ifs with hne
      · show _ = _
        rw [hsplit]
        rcases lt_or_gt_of_ne hne with h | h
        · rw [compare_lt_iff_lt.mpr h, Ordering.lt_then]
        · rw [compare_gt_iff_gt.mpr h, Ordering.gt_then]
      · have hrest := ih (i := i + 8) h8
        rw [not_not.mp hne, compare_eq_iff_eq.mpr rfl, Ordering.eq_then] at hsplit
        rw [hsplit]
        exact hrest
    · rw [if_neg h8]
      exact ⟨hi, rfl⟩

/-- The loop over bytes answers with the order of the rest. -/
lemma cmpTail_spec (hn : n = min a.length b.length) (fuel : ℕ) (hi : i ≤ n)
    (hfuel : n ≤ i + fuel) : cmpTail a b n fuel i = compare (a.drop i) (b.drop i) := by
  have hends : compare a.length b.length = compare (a.drop n) (b.drop n) := by
    rcases lt_trichotomy a.length b.length with h | h | h
    · obtain rfl : n = a.length := by omega
      rw [compare_lt_iff_lt.mpr h, List.drop_length, List.drop_eq_getElem_cons h]
      rfl
    · obtain rfl : n = a.length := by omega
      rw [List.drop_length, h, List.drop_length, compare_eq_iff_eq.mpr rfl]
      rfl
    · obtain rfl : n = b.length := by omega
      rw [compare_gt_iff_gt.mpr h, List.drop_length, List.drop_eq_getElem_cons h]
      rfl
  induction fuel generalizing i with
  | zero =>
    obtain rfl : i = n := by omega
    exact hends
  | succ fuel ih =>
    rw [cmpTail]
    split_ifs with hlt hne
    · have ha : i < a.length := by omega
      have hb : i < b.length := by omega
      rw [List.drop_eq_getElem_cons ha, List.drop_eq_getElem_cons hb, compare_cons]
      rw [List.getD_eq_getElem _ _ ha, List.getD_eq_getElem _ _ hb] at hne ⊢
      rcases lt_or_gt_of_ne hne with h | h
      · rw [compare_lt_iff_lt.mpr h, Ordering.lt_then]
      · rw [compare_gt_iff_gt.mpr h, Ordering.gt_then]
    · rw [ih hlt (by omega)]
      exact (compare_drop_succ (by omega) (by omega) (not_not.mp hne)).symm
    · obtain rfl : i = n := by omega
      exact hends

/-- **`cmp_keys` is the lexicographic order** of byte strings, on all of its paths. -/
theorem cmpKeys_eq_compare (a b : Key) :
    cmpKeys a b = compare a b ∧ (cmpKeys a b = .lt ↔ a < b) ∧ (cmpKeys a b = .eq ↔ a = b) ∧
      (cmpKeys a b = .gt ↔ b < a) := by
  have key : cmpKeys a b = compare a b := by
    unfold cmpKeys
    dsimp only
    split_ifs with hlong
    · rfl
    · have hchunks := cmpChunks_spec (a := a) (b := b) (min_le_left a.length b.length)
        (min_le_right a.length b.length) (min a.length b.length) (Nat.zero_le _)
      split
      · rename_i o ho
        rw [ho] at hchunks
        simpa using hchunks
      · rename_i i hi
        rw [hi] at hchunks
        rw [cmpTail_spec rfl _ hchunks.1 (by omega), hchunks.2, List.drop_zero, List.drop_zero]
  rw [key]
  exact ⟨rfl, compare_lt_iff, compare_eq_iff, compare_gt_iff⟩

end Artmap
