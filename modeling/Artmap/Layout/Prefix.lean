import Artmap.Layout.Repr

/-!
# Prefixes in two words (`src/raw/node.rs`)

A node keeps its prefix in two 64-bit words: sixteen bytes as a little-endian 128-bit number, cut
in the middle.  The model keeps the eight bytes of each word; here the words are numbers, packed
and unpacked as the source does, and the two views are the same.

A prefix that was written is what is loaded, and `is_prefix_of` of what is loaded tests for
exactly the written bytes, on each of its paths.
-/

namespace Artmap

open NodeM

/-! ## Words as numbers -/

/-- `u128::from_le_bytes`, of an array. -/
def u128FromLe (bytes : ℕ → Byte) : BitVec 128 :=
  u128FromLeBytes ((List.range 16).map bytes)

/-- `u128::to_le_bytes`. -/
def u128ToLe (w : BitVec 128) (i : ℕ) : Byte :=
  Fin.ofNat 256 (w >>> (8 * i)).toNat

/-- The words of `pack16`: `w as u64` and `(w >> 64) as u64`. -/
def packWords (bytes : ℕ → Byte) : BitVec 64 × BitVec 64 :=
  ((u128FromLe bytes).setWidth 64, (u128FromLe bytes >>> 64).setWidth 64)

/-- The bytes of `unpack16`. -/
def unpackWords (words : BitVec 64 × BitVec 64) : ℕ → Byte :=
  u128ToLe (words.2.setWidth 128 <<< 64 ||| words.1.setWidth 128)

/-- The number that a word of eight bytes is. -/
def Word8.toU64 (w : Word8) : BitVec 64 :=
  BitVec.ofNat 64 (fromLeBytes (List.ofFn w))

/-- The bits of a little-endian number are those of its bytes. -/
lemma testBit_fromLeBytes (l : List Byte) (z : ℕ) :
    (fromLeBytes l).testBit z = (l.getD (z / 8) 0).val.testBit (z % 8) := by
  induction l generalizing z with
  | nil => simp [fromLeBytes]
  | cons b l ih =>
    have hb : b.val < 2 ^ 8 := b.isLt
    have heq : fromLeBytes (b :: l) = 2 ^ 8 * fromLeBytes l + b.val := by
      rw [fromLeBytes]
      omega
    rw [heq, Nat.testBit_two_pow_mul_add _ hb]
    split_ifs with hz
    · rw [Nat.div_eq_of_lt hz, Nat.mod_eq_of_lt hz, List.getD_cons_zero]
    · obtain ⟨y, rfl⟩ := Nat.exists_eq_add_of_le (Nat.le_of_not_lt hz)
      rw [Nat.add_sub_cancel_left, ih, Nat.add_div_left _ (by norm_num), Nat.add_mod_left,
        List.getD_cons_succ]

lemma getLsbD_u128FromLe (bytes : ℕ → Byte) (z : ℕ) :
    (u128FromLe bytes).getLsbD z = (decide (z < 128) && (bytes (z / 8)).val.testBit (z % 8)) := by
  unfold u128FromLe u128FromLeBytes
  rw [BitVec.getLsbD_ofNat, testBit_fromLeBytes]
  by_cases hz : z < 128
  · have hlt : z / 8 < 16 := by omega
    simp [hz, hlt]
  · simp [hz]

/-- The bits of a word are those of its bytes. -/
lemma getLsbD_toU64 (w : Word8) {z : ℕ} (hz : z < 64) (hlt : z / 8 < 8) :
    w.toU64.getLsbD z = (w ⟨z / 8, hlt⟩).val.testBit (z % 8) := by
  have hlen : z / 8 < (List.ofFn w).length := by
    rw [List.length_ofFn]
    exact hlt
  unfold Word8.toU64
  rw [BitVec.getLsbD_ofNat, testBit_fromLeBytes, List.getD_eq_getElem?_getD,
    List.getElem?_eq_getElem hlen, Option.getD_some,
    List.getElem_ofFn, decide_eq_true hz, Bool.true_and]

/-- The words of `pack16` are the words of the model, as numbers. -/
lemma packWords_eq (bytes : ℕ → Byte) :
    packWords bytes = ((pack16 bytes 0).toU64, (pack16 bytes 1).toU64) := by
  unfold packWords
  refine Prod.ext (BitVec.eq_of_getLsbD_eq fun z hz => ?_)
    (BitVec.eq_of_getLsbD_eq fun z hz => ?_)
  · have h128 : z < 128 := by omega
    rw [BitVec.getLsbD_setWidth, getLsbD_u128FromLe, getLsbD_toU64 _ hz (by omega),
      decide_eq_true hz, decide_eq_true h128]
    simp only [Bool.true_and, pack16, Fin.val_zero, Nat.mul_zero, Nat.zero_add]
  · have h128 : 64 + z < 128 := by omega
    have hdiv : (64 + z) / 8 = 8 + z / 8 := by omega
    have hmod : (64 + z) % 8 = z % 8 := by omega
    rw [BitVec.getLsbD_setWidth, BitVec.getLsbD_ushiftRight, getLsbD_u128FromLe,
      getLsbD_toU64 _ hz (by omega), decide_eq_true hz, decide_eq_true h128, hdiv, hmod]
    simp only [Bool.true_and, pack16, Fin.val_one, Nat.mul_one]

/-- The bits of a byte that `u128::to_le_bytes` gives. -/
lemma testBit_u128ToLe (w : BitVec 128) (i : ℕ) {z : ℕ} (hz : z < 8) :
    (u128ToLe w i).val.testBit z = w.getLsbD (8 * i + z) := by
  have hval : (u128ToLe w i).val = (w >>> (8 * i)).toNat % 2 ^ 8 := rfl
  rw [hval, Nat.testBit_mod_two_pow, decide_eq_true hz, Bool.true_and, BitVec.testBit_toNat,
    BitVec.getLsbD_ushiftRight]

/-- A byte is what its eight bits are. -/
lemma byte_ext {b d : Byte} (h : ∀ z < 8, b.val.testBit z = d.val.testBit z) : b = d := by
  have hbig : ∀ (b : Byte) (z : ℕ), ¬ z < 8 → b.val.testBit z = false := fun b z hz =>
    Nat.testBit_lt_two_pow (lt_of_lt_of_le b.isLt
      (Nat.pow_le_pow_right (by norm_num) (Nat.le_of_not_lt hz) : 2 ^ 8 ≤ 2 ^ z))
  refine Fin.ext (Nat.eq_of_testBit_eq fun z => ?_)
  by_cases hz : z < 8
  · exact h z hz
  · rw [hbig b z hz, hbig d z hz]

/-- So are the bytes of `unpack16`. -/
lemma unpackWords_eq (lo hi : Word8) {i : ℕ} (hi16 : i < 16) :
    unpackWords (lo.toU64, hi.toU64) i = unpack16 lo hi i := by
  refine byte_ext fun z hz => ?_
  unfold unpackWords unpack16
  have h128 : 8 * i + z < 128 := by omega
  rw [testBit_u128ToLe _ _ hz, BitVec.getLsbD_or, BitVec.getLsbD_shiftLeft,
    BitVec.getLsbD_setWidth, BitVec.getLsbD_setWidth, decide_eq_true h128]
  by_cases h8 : i < 8
  · have hlt : 8 * i + z < 64 := by omega
    have hdiv : (8 * i + z) / 8 = i := by omega
    have hmod : (8 * i + z) % 8 = z := by omega
    rw [dif_pos h8, getLsbD_toU64 lo hlt (by omega), decide_eq_true hlt, hmod]
    simp only [hdiv, Bool.not_true, Bool.and_false, Bool.false_and, Bool.false_or, Bool.true_and]
  · have hge : ¬ 8 * i + z < 64 := by omega
    have hlt : 8 * i + z - 64 < 64 := by omega
    have hi8 : i - 8 < 8 := by omega
    have hdiv : (8 * i + z - 64) / 8 = i - 8 := by omega
    have hmod : (8 * i + z - 64) % 8 = z := by omega
    rw [dif_neg h8, dif_pos hi8, getLsbD_toU64 hi hlt (by omega), decide_eq_false hge, hmod,
      BitVec.getLsbD_of_ge lo.toU64 _ (Nat.le_of_not_lt hge),
      decide_eq_true (show 8 * i + z - 64 < 128 by omega)]
    simp only [hdiv, Bool.not_false, Bool.and_self,
      Bool.true_and, Bool.and_false, Bool.or_false]

/-! ## Writing, loading, testing -/

/-- What `write_prefix` leaves in the length and in the two words. -/
lemma run_writePrefix {p : List Byte} (hp : p.length ≤ maxPrefixLen) (F : Fields) :
    ∃ F', (writePrefix p).run F = some ((), F') ∧ F' .prefixLen = p.length ∧
      F' (.prefixWord 0) = pack16 (fun i => p.getD i 0) 0 ∧
      F' (.prefixWord 1) = pack16 (fun i => p.getD i 0) 1 := by
  have hmin : min p.length maxPrefixLen = p.length := min_eq_left hp
  -- past the end of the prefix both are zero
  have hbytes : (fun i => if i < min p.length maxPrefixLen then p.getD i 0 else 0) =
      fun i => p.getD i (0 : Byte) := by
    funext i
    rw [hmin]
    split_ifs with hi
    · rfl
    · rw [List.getD_eq_getElem?_getD, List.getElem?_eq_none (Nat.le_of_not_lt hi),
        Option.getD_none]
  refine ⟨_, rfl, ?_, ?_, ?_⟩
  · simpa using hp
  · simp only [hbytes, ne_eq, reduceCtorEq, not_false_eq_true, Function.update_of_ne,
      Function.update_self, Field.prefixWord.injEq, zero_ne_one]
  · simp only [hbytes, ne_eq, reduceCtorEq, not_false_eq_true, Function.update_of_ne,
      Function.update_self]

/-- And what `load_prefix` makes of them. -/
lemma run_loadPrefix_written {p : List Byte} (hp : p.length ≤ maxPrefixLen) {F : Fields}
    (hlen : F .prefixLen = p.length) (h0 : F (.prefixWord 0) = pack16 (fun i => p.getD i 0) 0)
    (h1 : F (.prefixWord 1) = pack16 (fun i => p.getD i 0) 1) :
    ∃ snap : PrefixSnapshot, loadPrefix.run F = some (snap, F) ∧ snap.Of p := by
  have hrun : prefixLen.run F = some (p.length, F) := by
    simp [prefixLen, hlen, hp]
  by_cases hz : p.length = 0
  · refine ⟨⟨0, fun _ => 0⟩, by simp [loadPrefix, hrun, hz], hz.symm, hp, fun i hi => ?_⟩
    omega
  · refine ⟨⟨p.length, unpack16 (F (.prefixWord 0)) (F (.prefixWord 1))⟩, ?_, rfl, hp,
      fun i hi => ?_⟩
    · simp [loadPrefix, hrun, hz]
    · show unpack16 (F (.prefixWord 0)) (F (.prefixWord 1)) i = p[i]
      rw [h0, h1, unpack16_pack16 _ (lt_of_lt_of_le hi hp), List.getD_eq_getElem?_getD,
        List.getElem?_eq_getElem hi, Option.getD_some]

/-- **A prefix survives.**  Whatever the node held, a prefix of at most sixteen bytes that is
written into it is the one that is loaded again, and `is_prefix_of` tests whether a byte string
starts with it.  The words that are stored are those of the source, and the bytes read back are
what the source unpacks from them. -/
theorem written_prefix_tests (p : List Byte) (hp : p.length ≤ maxPrefixLen) (F : Fields) :
    ∃ F' snap, (writePrefix p).run F = some ((), F') ∧ loadPrefix.run F' = some (snap, F') ∧
      snap.asSlice = p ∧ (∀ r, snap.isPrefixOf r = true ↔ p <+: r) ∧
      (Word8.toU64 (F' (.prefixWord 0)), Word8.toU64 (F' (.prefixWord 1))) =
        packWords (fun i => p.getD i 0) ∧
      ∀ i < p.length, unpackWords (Word8.toU64 (F' (.prefixWord 0)),
        Word8.toU64 (F' (.prefixWord 1))) i = p.getD i 0 := by
  obtain ⟨F', hrun, hlen, hw0, hw1⟩ := run_writePrefix hp F
  obtain ⟨snap, hload, hof⟩ := run_loadPrefix_written hp hlen hw0 hw1
  refine ⟨F', snap, hrun, hload, hof.asSlice, fun r => hof.isPrefixOf_iff r, ?_, ?_⟩
  · rw [hw0, hw1, packWords_eq]
  · intro i hi
    have h16 : i < 16 := lt_of_lt_of_le hi hp
    rw [hw0, hw1, unpackWords_eq _ _ h16, unpack16_pack16 _ h16]

/-- A prefix of sixteen bytes, the longest, written over whatever the node held. -/
theorem written_prefix_tests_full :
    ∃ F' snap, (writePrefix (List.replicate 16 7)).run Fields.fresh = some ((), F') ∧
      loadPrefix.run F' = some (snap, F') ∧ snap.asSlice = List.replicate 16 7 ∧
      (∀ r, snap.isPrefixOf r = true ↔ List.replicate 16 7 <+: r) :=
  let ⟨F', snap, hw, hl, hs, ht, _⟩ := written_prefix_tests (List.replicate 16 7)
    (by decide) Fields.fresh
  ⟨F', snap, hw, hl, hs, ht⟩

end Artmap
