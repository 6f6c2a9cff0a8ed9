import Artmap.Raw.Cursor
import Artmap.Tree.Build

/-!
# Keys in order

A tree keeps keys in the lexicographic order of byte strings: below a node, the key that ends
there comes first, and the others are ordered by the byte with which they go on.  A key that
leaves the prefix of a node is before or after all the keys below it.  The comparisons of the
cursor are comparisons in this order, and its checks of bounds are those of a range.
-/

namespace Artmap

open scoped List

variable {k key : Key} {p path : List Byte} {b c : Byte} {d : Dir} {bound : Bound Key}

/-! ## Prefixes -/

lemma lt_append_cons (p : List Byte) (b : Byte) (r : List Byte) : p < p ++ b :: r := by
  induction p with
  | nil => exact List.nil_lt_cons b r
  | cons x p ih => exact List.cons_lt_cons_iff.mpr (.inr ⟨rfl, ih⟩)

/-- Keys that go on with different bytes are ordered by them. -/
lemma append_lt_append (p : List Byte) (h : b < c) (r s : List Byte) :
    p ++ b :: r < p ++ c :: s := by
  induction p with
  | nil => exact List.cons_lt_cons_iff.mpr (.inl h)
  | cons x p ih => exact List.cons_lt_cons_iff.mpr (.inr ⟨rfl, ih⟩)

/-- A key below a byte of a node comes after the key of the node. -/
lemma lt_of_branch (h : p ++ [b] <+: k) : p < k := by
  obtain ⟨r, rfl⟩ := h
  rw [List.append_assoc]
  exact lt_append_cons p b r

/-- Keys below different bytes of a node. -/
lemma lt_of_branches {k' : Key} (hlt : b < c) (h : p ++ [b] <+: k) (h' : p ++ [c] <+: k') :
    k < k' := by
  obtain ⟨r, rfl⟩ := h
  obtain ⟨s, rfl⟩ := h'
  rw [List.append_assoc, List.append_assoc]
  exact append_lt_append p hlt r s

/-- Below a prefix, a key ends or goes on with some byte. -/
lemma eq_or_branch (h : p <+: k) : k = p ∨ ∃ b, p ++ [b] <+: k := by
  obtain ⟨r, rfl⟩ := h
  cases r with
  | nil => exact .inl (List.append_nil p)
  | cons b r => exact .inr ⟨b, r, by simp⟩

lemma prefix_of_branch (h : p ++ [b] <+: k) : p <+: k :=
  (List.prefix_append p [b]).trans h

/-- A search key that diverges inside the prefix of a node is on one side of all the keys below
it, and `subtreeAfterKey` tells which one. -/
lemma subtreeAfterKey_spec {snap : PrefixSnapshot} {pre rest : List Byte} (hs : snap.Of pre)
    (hm : commonPrefix pre rest < pre.length) (hk : path ++ pre <+: k) :
    (Cursor.subtreeAfterKey snap rest (commonPrefix pre rest) = true → path ++ rest < k) ∧
      (Cursor.subtreeAfterKey snap rest (commonPrefix pre rest) = false → k < path ++ rest) := by
  obtain ⟨tail, rfl⟩ := hk
  have hbyte := hs.bytes _ hm
  have htake := commonPrefix_take pre rest
  have hle := (commonPrefix_le pre rest).2
  have hhead := commonPrefix_head pre rest
  have hne : pre ≠ rest := by
    rintro rfl
    exact absurd hm (by rw [commonPrefix_self]; exact lt_irrefl _)
  generalize commonPrefix pre rest = m at hm hbyte htake hle hhead
  have hsplit : pre = rest.take m ++ pre[m] :: pre.drop (m + 1) := by
    rw [← htake, ← List.drop_eq_getElem_cons hm, List.take_append_drop]
  have hpre : path ++ pre ++ tail =
      (path ++ rest.take m) ++ pre[m] :: (pre.drop (m + 1) ++ tail) := by
    simpa only [List.append_assoc, List.cons_append] using
      congrArg (fun l => path ++ l ++ tail) hsplit
  rw [hpre]
  unfold Cursor.subtreeAfterKey
  rcases Nat.lt_or_eq_of_le hle with hlt | heq
  · have hrest : path ++ rest = (path ++ rest.take m) ++ rest[m] :: rest.drop (m + 1) := by
      conv_lhs => rw [← List.take_append_drop m rest, List.drop_eq_getElem_cons hlt]
      simp
    have hdiff : pre[m] ≠ rest[m] := by
      have := hhead.resolve_right hne
      rw [List.drop_eq_getElem_cons hm, List.drop_eq_getElem_cons hlt] at this
      exact fun h => this (by rw [List.head?_cons, List.head?_cons, h])
    rw [hrest, hbyte, List.getD_eq_getElem _ _ hlt]
    constructor
    · intro h
      rcases of_decide_eq_true h with h | h
      · omega
      · exact append_lt_append _ h _ _
    · intro h
      have hnot := not_or.mp (of_decide_eq_false h)
      exact append_lt_append _ (lt_of_le_of_ne (not_lt.mp hnot.2) hdiff) _ _
  · have hrest : path ++ rest = path ++ rest.take m := by
      rw [heq, List.take_length]
    rw [hrest]
    constructor
    · exact fun _ => lt_append_cons _ _ _
    · exact fun h => absurd (of_decide_eq_false h) (by simp [heq])

/-! ## Comparisons -/

/-- The comparison of keys, on all of its paths. -/
lemma cmpKeys_compare (k key : Key) : cmpKeys k key = compare k key := by
  unfold cmpKeys
  dsimp only
  by_cases hlong : 64 < min k.length key.length
  · rw [if_pos hlong]
  rw [if_neg hlong]
  have hchunks := cmpChunks_spec (a := k) (b := key) (min_le_left k.length key.length)
    (min_le_right k.length key.length) (min k.length key.length) (Nat.zero_le _)
  cases hc : cmpChunks k key (min k.length key.length) (min k.length key.length) 0 with
  | inl o =>
    rw [hc] at hchunks
    exact hchunks
  | inr i =>
    rw [hc] at hchunks
    obtain ⟨hi, heq⟩ := hchunks
    exact (cmpTail_spec rfl _ hi (by omega)).trans heq

lemma isGE_cmpKeys : (cmpKeys k key).isGE = true ↔ key = k ∨ key < k := by
  have heq : key = k ↔ compare k key = .eq := eq_comm.trans compare_eq_iff.symm
  rw [cmpKeys_compare, ← compare_gt_iff, heq]
  cases compare k key <;> simp

lemma isGT_cmpKeys : (cmpKeys k key).isGT = true ↔ key < k := by
  rw [cmpKeys_compare, ← compare_gt_iff]
  cases compare k key <;> simp

lemma isLE_cmpKeys : (cmpKeys k key).isLE = true ↔ key = k ∨ k < key := by
  have heq : key = k ↔ compare k key = .eq := eq_comm.trans compare_eq_iff.symm
  rw [cmpKeys_compare, ← compare_lt_iff, heq]
  cases compare k key <;> simp

lemma isLT_cmpKeys : (cmpKeys k key).isLT = true ↔ k < key := by
  rw [cmpKeys_compare, ← compare_lt_iff]
  cases compare k key <;> simp

lemma aboveStart_iff : aboveStart k bound = true ↔ bound.Admits .forward k := by
  cases bound with
  | included a => exact isGE_cmpKeys
  | excluded a => exact isGT_cmpKeys
  | unbounded => simp [aboveStart, Bound.Admits]

lemma belowEnd_iff : belowEnd k bound = true ↔ bound.Admits .backward k := by
  cases bound with
  | included a => exact isLE_cmpKeys
  | excluded a => exact isLT_cmpKeys
  | unbounded => simp [belowEnd, Bound.Admits]

namespace Cursor

variable {inclusive : Bool}

/-- A root that is a leaf is taken if it is inside the bound. -/
lemma takesRoot_iff : takesRoot bound k d = true ↔ bound.Admits d k := by
  cases d with
  | forward => exact aboveStart_iff
  | backward => exact belowEnd_iff

/-- What a bound with a key admits. -/
lemma admits_boundKey (h : boundKey bound = some (key, inclusive)) :
    bound.Admits d k ↔ d.Lt key k ∨ inclusive = true ∧ k = key := by
  cases bound with
  | included a =>
    obtain ⟨rfl, rfl⟩ : a = key ∧ true = inclusive := by simpa [boundKey] using h
    simp only [Bound.Admits, true_and, eq_comm, or_comm]
  | excluded a =>
    obtain ⟨rfl, rfl⟩ : a = key ∧ false = inclusive := by simpa [boundKey] using h
    simp [Bound.Admits]
  | unbounded => simp [boundKey] at h

/-- A leaf on the way of a search key is taken if it is inside the bound. -/
lemma takesLeaf_iff (h : boundKey bound = some (key, inclusive)) :
    takesLeaf key inclusive k d = true ↔ bound.Admits d k := by
  rw [admits_boundKey h]
  cases d <;> simp [takesLeaf]

end Cursor

end Artmap
