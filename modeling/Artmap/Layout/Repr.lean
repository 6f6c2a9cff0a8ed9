import Artmap.Layout.Content

/-!
# Representation of a content by a node, and the header

`Repr ty F c` says that the fields `F` of a node of layout `ty` stand for the content `c`:
sorted keys and dense slots for `Node4` and `Node16`, an injective index table with null free
slots for `Node48`, and direct slots for `Node256`; bitmaps that mark the present bytes; and
an exact count.

The prefix words are compared by `PrefixSnapshot::is_prefix_of` as one masked 128-bit word;
`isPrefixOf_iff` is that this decides the prefix relation.
-/

namespace Artmap

open NodeM Content

/-- The key array of a sorted layout. -/
def keysOf (ty : NodeType) (F : Fields) : ℕ → Byte :=
  match ty with
  | .node4 => fun i => if h : i < 4 then F .keys4 ⟨i, h⟩ else 0
  | _ => unpack16 (F (.keys16 0)) (F (.keys16 1))

/-- A word of the bitmap of a table layout. -/
def wordOf (F : Fields) (i : Fin 4) : BitVec 64 :=
  F (.bitmap i)

/-- The bit of a byte in the bitmap of a table layout. -/
def bitOf (F : Fields) (b : Byte) : Bool :=
  (wordOf F (bitmapWord b)).getLsbD (b.val % 64)

/-- Sorted keys over dense slots; the slots past them are free. -/
structure SortedRep (keys : ℕ → Byte) (slot : ℕ → Slot) (n : ℕ) (child : Byte → Slot) :
    Prop where
  mono : ∀ i j, i < j → j < n → keys i < keys j
  slot_eq : ∀ i < n, slot i = child (keys i)
  present : ∀ i < n, child (keys i) ≠ .null
  complete : ∀ b, child b ≠ .null → ∃ i < n, keys i = b
  free : ∀ i, n ≤ i → slot i = .null

/-- An index table over forty-eight slots. -/
structure IndexRep (idx : Byte → ℕ) (slot : ℕ → Slot) (bit : Byte → Bool)
    (child : Byte → Slot) : Prop where
  absent : ∀ b, child b = .null → idx b = node48Empty
  present : ∀ b, child b ≠ .null → idx b < node48Empty ∧ slot (idx b) = child b
  inj : ∀ b b', child b ≠ .null → child b' ≠ .null → idx b = idx b' → b = b'
  free : ∀ i, (∀ b, child b ≠ .null → idx b ≠ i) → slot i = .null
  bits : ∀ b, bit b = true ↔ child b ≠ .null

/-- A slot for every byte. -/
structure DirectRep (slot : ℕ → Slot) (bit : Byte → Bool) (child : Byte → Slot) : Prop where
  slot_eq : ∀ b : Byte, slot b = child b
  bits : ∀ b, bit b = true ↔ child b ≠ .null
  free : ∀ i, 256 ≤ i → slot i = .null

/-- The children of a node, by its layout. -/
def LayoutRep (ty : NodeType) (F : Fields) (child : Byte → Slot) : Prop :=
  match ty with
  | .node4 | .node16 =>
    SortedRep (keysOf ty F) (fun i => F (.child i)) (bytes child).card child
  | .node48 => IndexRep (fun b => F (.childIndex b)) (fun i => F (.child i)) (bitOf F) child
  | .node256 => DirectRep (fun i => F (.child i)) (bitOf F) child

/-- The fields `F` of a node of layout `ty` stand for the content `c`. -/
structure Repr (ty : NodeType) (F : Fields) (c : Content) : Prop where
  count : F .numChildren = (bytes c.child).card
  fits : (bytes c.child).card ≤ ty.capacity
  exact_eq : F .exactLeaf = Slot.ofOption c.exact
  pre_len : F .prefixLen = c.pre.length
  pre_fits : c.pre.length ≤ maxPrefixLen
  pre_bytes : ∀ i (h : i < c.pre.length),
    unpack16 (F (.prefixWord 0)) (F (.prefixWord 1)) i = c.pre[i]
  layout : LayoutRep ty F c.child

/-- The representation of the children reads only the key, index, bitmap and child fields. -/
lemma LayoutRep.congr {ty : NodeType} {F F' : Fields} {child : Byte → Slot}
    (h : LayoutRep ty F child) (h4 : F' .keys4 = F .keys4)
    (h16 : ∀ i, F' (.keys16 i) = F (.keys16 i)) (hi : ∀ b, F' (.childIndex b) = F (.childIndex b))
    (hb : ∀ i, F' (.bitmap i) = F (.bitmap i)) (hc : ∀ i, F' (.child i) = F (.child i)) :
    LayoutRep ty F' child := by
  have hbit : bitOf F' = bitOf F := by
    funext b
    simp only [bitOf, wordOf, hb]
  have hkeys : keysOf ty F' = keysOf ty F := by
    cases ty <;> simp only [keysOf, h4, h16]
  cases ty <;> simpa only [LayoutRep, hkeys, hbit, hi, hc] using h

/-! ## Fresh nodes and the fields of the header -/

lemma Repr.fresh (ty : NodeType) : Repr ty Fields.fresh Content.fresh := by
  have hnone : bytes Content.fresh.child = ∅ := by
    ext b
    simp [Content.fresh]
  have hword : ∀ i, wordOf Fields.fresh i = 0#64 := fun _ => rfl
  refine
    { count := by simp [hnone, Fields.fresh], fits := by simp [hnone], exact_eq := rfl,
      pre_len := rfl, pre_fits := by simp [Content.fresh, maxPrefixLen],
      pre_bytes := fun i h => by simp [Content.fresh] at h, layout := ?_ }
  cases ty with
  | node4 | node16 =>
    simp only [LayoutRep, hnone, Finset.card_empty]
    refine ⟨?_, ?_, ?_, ?_, fun _ _ => rfl⟩ <;> simp [Content.fresh]
  | node48 =>
    refine ⟨fun _ _ => rfl, ?_, ?_, fun _ _ => rfl, ?_⟩ <;>
      simp [Content.fresh, bitOf, hword]
  | node256 =>
    refine ⟨fun _ => rfl, ?_, fun _ _ => rfl⟩
    simp [Content.fresh, bitOf, hword]

lemma Repr.setExactLeaf {ty : NodeType} {F : Fields} {c : Content} (h : Repr ty F c)
    (e : Option Leaf) :
    ∃ F', (setExactLeaf (Slot.ofOption e)).run F = some ((), F') ∧
      Repr ty F' { c with exact := e } := by
  refine ⟨_, rfl, ?_⟩
  refine
    { count := by simpa using h.count, fits := h.fits, exact_eq := by simp,
      pre_len := by simpa using h.pre_len, pre_fits := h.pre_fits,
      pre_bytes := by simpa using h.pre_bytes,
      layout := h.layout.congr ?_ ?_ ?_ ?_ ?_ }
  all_goals simp

lemma unpack16_pack16 (bytes : ℕ → Byte) {i : ℕ} (hi : i < 16) :
    unpack16 (pack16 bytes 0) (pack16 bytes 1) i = bytes i := by
  unfold unpack16 pack16
  by_cases h : i < 8
  · simp [h]
  · have h8 : i - 8 < 8 := by omega
    have he : 8 + (i - 8) = i := by omega
    simp [h, h8, he]

lemma Repr.writePrefix {ty : NodeType} {F : Fields} {c : Content} (h : Repr ty F c)
    {pre : List Byte} (hp : pre.length ≤ maxPrefixLen) :
    ∃ F', (writePrefix pre).run F = some ((), F') ∧ Repr ty F' { c with pre := pre } := by
  refine ⟨_, rfl, ?_⟩
  have hmin : min pre.length maxPrefixLen = pre.length := min_eq_left hp
  refine
    { count := by simpa using h.count, fits := h.fits, exact_eq := by simpa using h.exact_eq,
      pre_len := by simpa using hp, pre_fits := hp, pre_bytes := ?_,
      layout := h.layout.congr ?_ ?_ ?_ ?_ ?_ }
  · intro i hi
    have hi16 : i < 16 := lt_of_lt_of_le hi hp
    simp only [ne_eq, reduceCtorEq, not_false_eq_true, Function.update_of_ne,
      Function.update_self, Field.prefixWord.injEq, zero_ne_one, hmin]
    rw [unpack16_pack16 _ hi16]
    simp [hi]
  all_goals simp

/-! ## Reading the header -/

variable {ty : NodeType} {F : Fields} {c : Content}

lemma run_numChildrenMax (cap : ℕ) :
    (numChildrenMax cap).run F = some (min (F .numChildren) cap, F) := rfl

lemma Repr.run_numChildren (h : Repr ty F c) :
    (numChildren ty).run F = some ((bytes c.child).card, F) := by
  simp only [numChildren, run_numChildrenMax, h.count, min_eq_left h.fits]

lemma Repr.run_isFull (h : Repr ty F c) :
    (isFull ty).run F = some (decide (ty.capacity ≤ (bytes c.child).card), F) := by
  simp [isFull, h.run_numChildren]

lemma Repr.run_exactLeaf (h : Repr ty F c) :
    exactLeaf.run F = some (Slot.ofOption c.exact, F) := by
  simp [exactLeaf, h.exact_eq]

lemma Repr.run_prefixLen (h : Repr ty F c) : prefixLen.run F = some (c.pre.length, F) := by
  simp [prefixLen, h.pre_len, h.pre_fits]

/-- A snapshot of a prefix: its bytes past the length are whatever was in the words. -/
structure PrefixSnapshot.Of (p : PrefixSnapshot) (pre : List Byte) : Prop where
  len : p.len = pre.length
  fits : pre.length ≤ maxPrefixLen
  bytes : ∀ i (h : i < pre.length), p.bytes i = pre[i]

lemma PrefixSnapshot.Of.asSlice {p : PrefixSnapshot} {pre : List Byte} (h : p.Of pre) :
    p.asSlice = pre := by
  apply List.ext_getElem
  · simp [PrefixSnapshot.asSlice, h.len]
  · intro i h1 h2
    simp [PrefixSnapshot.asSlice, h.bytes i h2]

lemma Repr.run_loadPrefix (h : Repr ty F c) :
    ∃ p : PrefixSnapshot, loadPrefix.run F = some (p, F) ∧ p.Of c.pre := by
  by_cases h0 : c.pre.length = 0
  · refine ⟨⟨0, fun _ => 0⟩, ?_, ?_⟩
    · simp [loadPrefix, h.run_prefixLen, h0]
    · exact ⟨h0.symm, h.pre_fits, fun i hi => by omega⟩
  · refine ⟨⟨c.pre.length, unpack16 (F (.prefixWord 0)) (F (.prefixWord 1))⟩, ?_, ?_⟩
    · simp [loadPrefix, h.run_prefixLen, h0]
    · exact ⟨rfl, h.pre_fits, h.pre_bytes⟩

/-- Whatever the words hold, a snapshot is at most sixteen bytes long. -/
lemma yields_loadPrefix : loadPrefix.Yields fun p => p.len ≤ maxPrefixLen := by
  intro (len : ℕ)
  show NodeM.Yields _ (if min len maxPrefixLen = 0 then _ else _)
  split
  · exact Nat.zero_le _
  · exact fun _ _ => min_le_right _ _

/-! ## Comparing a prefix -/

/-- `fromLeBytes` of sixteen bytes, masked to the first `n`, are the first `n` bytes. -/
lemma isPrefixOf_le {p : PrefixSnapshot} {rest : List Byte} (h : p.isPrefixOf rest = true) :
    p.len ≤ rest.length := by
  unfold PrefixSnapshot.isPrefixOf at h
  split at h
  · omega
  · split at h
    · simp at h
    · omega

lemma fromLeBytes_mod (l : List Byte) (n : ℕ) :
    fromLeBytes l % 2 ^ (n * 8) = fromLeBytes (l.take n) := by
  induction n generalizing l with
  | zero => simp [fromLeBytes, Nat.mod_one]
  | succ n ih =>
    cases l with
    | nil => simp [fromLeBytes]
    | cons b bs =>
      have hb := b.isLt
      have he : (2 : ℕ) ^ ((n + 1) * 8) = 256 * 2 ^ (n * 8) := by
        rw [show (n + 1) * 8 = n * 8 + 8 by ring, pow_add]
        ring
      simp only [fromLeBytes, List.take_succ_cons, ← ih bs, he]
      rw [Nat.mod_mul, Nat.add_mul_mod_self_left, Nat.mod_eq_of_lt hb]
      congr 2
      rw [Nat.add_mul_div_left _ _ (by norm_num), Nat.div_eq_of_lt hb, Nat.zero_add]

lemma fromLeBytes_inj {l l' : List Byte} (hlen : l.length = l'.length)
    (h : fromLeBytes l = fromLeBytes l') : l = l' := by
  induction l generalizing l' with
  | nil => exact (List.length_eq_zero_iff.mp hlen.symm).symm
  | cons b bs ih =>
    cases l' with
    | nil => simp at hlen
    | cons b' bs' =>
      simp only [fromLeBytes] at h
      have hb := b.isLt
      have hb' := b'.isLt
      have h1 : b.val = b'.val := by omega
      have h2 : fromLeBytes bs = fromLeBytes bs' := by omega
      rw [Fin.ext h1, ih (by simpa using hlen) h2]

/-- The mask of the first `n` of sixteen bytes. -/
lemma toNat_mask {n : ℕ} (hn : n ≤ maxPrefixLen) :
    (if n = maxPrefixLen then ~~~0#128 else (1#128 <<< (n * 8)) - 1#128).toNat =
      2 ^ (n * 8) - 1 := by
  have hlt : ∀ n < 16, ((1#128 <<< (n * 8)) - 1#128).toNat = 2 ^ (n * 8) - 1 := by decide
  split_ifs with h
  · rw [h]
    rfl
  · exact hlt n (lt_of_le_of_ne hn h)

/-- The masked comparison of two words decides whether their first `n` bytes agree. -/
lemma masked_eq_zero (x y : List Byte) {n : ℕ} (hn : n ≤ maxPrefixLen) (hx : n ≤ x.length)
    (hy : n ≤ y.length) :
    (u128FromLeBytes x ^^^ u128FromLeBytes y) &&&
      (if n = maxPrefixLen then ~~~0#128 else (1#128 <<< (n * 8)) - 1#128) = 0#128 ↔
      x.take n = y.take n := by
  have hdvd : (2 : ℕ) ^ (n * 8) ∣ 2 ^ 128 := pow_dvd_pow 2 (by unfold maxPrefixLen at hn; omega)
  rw [← BitVec.toNat_inj, BitVec.toNat_and, toNat_mask hn, BitVec.toNat_xor, u128FromLeBytes,
    u128FromLeBytes, BitVec.toNat_ofNat, BitVec.toNat_ofNat, BitVec.toNat_ofNat,
    Nat.and_two_pow_sub_one_eq_mod, Nat.xor_mod_two_pow, Nat.mod_mod_of_dvd _ hdvd,
    Nat.mod_mod_of_dvd _ hdvd, fromLeBytes_mod, fromLeBytes_mod, Nat.zero_mod]
  constructor
  · intro h
    refine fromLeBytes_inj (by simp [hx, hy]) ?_
    have h' := congrArg (· ^^^ fromLeBytes (y.take n)) h
    simpa [Nat.xor_assoc] using h'
  · intro h
    rw [h, Nat.xor_self]

/-- `is_prefix_of` decides the prefix relation, whatever stands past the length. -/
theorem isPrefixOf_iff {p : PrefixSnapshot} (hp : p.len ≤ maxPrefixLen) (rest : List Byte) :
    p.isPrefixOf rest = true ↔ p.asSlice <+: rest := by
  have hslice : p.asSlice.length = p.len := by simp [PrefixSnapshot.asSlice]
  have htake : p.asSlice = ((List.range maxPrefixLen).map p.bytes).take p.len := by
    simp [PrefixSnapshot.asSlice, List.take_range, hp, ← List.map_take]
  unfold PrefixSnapshot.isPrefixOf
  by_cases h0 : p.len = 0
  · simp [h0, PrefixSnapshot.asSlice]
  by_cases h1 : rest.length < p.len
  · simp only [h0, h1, ↓reduceIte, Bool.false_eq_true, false_iff]
    intro hpre
    have := hpre.length_le
    omega
  have hpre : p.asSlice <+: rest ↔ rest.take p.len = p.asSlice := by
    rw [List.prefix_iff_eq_take, hslice]
    exact eq_comm
  by_cases h2 : maxPrefixLen ≤ rest.length
  · simp only [h0, h1, h2, ↓reduceIte, beq_iff_eq]
    rw [masked_eq_zero _ _ hp (by simp [hp]; omega) (by simpa using hp), hpre, htake,
      List.take_take, min_eq_left hp]
  · simp only [h0, h1, h2, ↓reduceIte, List.all_eq_true, List.mem_range, beq_iff_eq]
    rw [hpre]
    constructor
    · intro h
      apply List.ext_getElem
      · simp [hslice]
        omega
      · intro i hi1 hi2
        have hi : i < p.len := by omega
        have := h i hi
        simp only [PrefixSnapshot.asSlice, List.getElem_take, List.getElem_map,
          List.getElem_range]
        rw [List.getElem?_eq_getElem (by omega)] at this
        exact Option.some.inj this
    · intro h i hi
      have h3 : i < (rest.take p.len).length := by simp; omega
      have h4 : (rest.take p.len)[i] = p.bytes i := by
        simp only [h, PrefixSnapshot.asSlice, List.getElem_map, List.getElem_range]
      rw [List.getElem?_eq_getElem (by omega), ← h4, List.getElem_take]

lemma PrefixSnapshot.Of.isPrefixOf_iff {p : PrefixSnapshot} {pre : List Byte} (h : p.Of pre)
    (rest : List Byte) : p.isPrefixOf rest = true ↔ pre <+: rest := by
  rw [Artmap.isPrefixOf_iff (h.len ▸ h.fits), h.asSlice]

end Artmap
