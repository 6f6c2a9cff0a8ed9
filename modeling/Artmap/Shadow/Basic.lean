import Artmap.Forest.Surgery
import Artmap.Layout.Cells
import Artmap.Raw.Memory

/-!
# The shadow of a tree

The memory of a tree is only half of its state: who holds which latch, which nodes are still
unpublished, and which forest the nodes stand for can only be said in ghost state, the
`Shadow`.  `Shadow.Inv` ties a shadow to the memory, and `Shadow.Rely t` is what the steps of
other threads may do to thread `t`.

The idea behind both is the discipline of version latches.  The fields, the content and the
place of a node change only while its latch is held, and every release increases its word; so
if the word of a free node has not changed, nothing about the node has.  The place of a node
changes only while the latch of the location it is in is held as well.

Epochs are ended by clears.  The tree of a past epoch is still worked on by operations that
reached it before it was detached, and by the clear, which obsoletes its nodes from the top
down.  A key of a past epoch is `Frozen` once its home in that tree is out of reach of any
writer.
-/

namespace Artmap

open scoped List

/-! ## Latch words -/

/-- A free latch word. -/
def Free (w : ℕ) : Prop := w % 4 = 0

/-- The word of an obsolete node. -/
def Obsolete (w : ℕ) : Prop := w % 4 = 2

/-- How one step turns a latch word: not at all, or the latch is taken, or it is given up, for the
next version or for good. -/
def Turn (w w' : ℕ) : Prop :=
  w' = w ∨ (Free w ∧ w' = w + 1) ∨ (w % 4 = 1 ∧ (w' = w + 3 ∨ w' = w + 1))

lemma word_free_iff (w : ℕ) : w &&& (lockBit ||| obsoleteBit) = 0 ↔ Free w := by
  have h : lockBit ||| obsoleteBit = 2 ^ 2 - 1 := rfl
  rw [h, Nat.and_two_pow_sub_one_eq_mod]
  rfl

lemma and_two (w : ℕ) : w &&& 2 = w % 4 / 2 * 2 := by
  have h1 : w % 4 = w &&& 3 := (Nat.and_two_pow_sub_one_eq_mod w 2).symm
  have h2 : (w &&& 2) = (w &&& 3) &&& 2 := by
    rw [Nat.and_assoc]
    rfl
  rw [h2, ← h1]
  have hlt : w % 4 < 4 := Nat.mod_lt _ (by norm_num)
  interval_cases w % 4 <;> rfl

lemma word_obsolete_iff {w : ℕ} : w &&& obsoleteBit = 0 ↔ w % 4 < 2 := by
  show w &&& 2 = 0 ↔ _
  rw [and_two]
  omega

lemma word_unlocked_iff {w : ℕ} : w &&& lockBit = 0 ↔ w % 2 = 0 := by
  show w &&& 2 ^ 1 - 1 = 0 ↔ _
  rw [Nat.and_two_pow_sub_one_eq_mod]

lemma Free.or_lock {w : ℕ} (h : Free w) : w ||| lockBit = w + 1 := by
  obtain ⟨k, rfl⟩ : ∃ k, w = 2 ^ 2 * k := ⟨w / 4, by unfold Free at h; omega⟩
  exact (Nat.two_pow_add_eq_or_of_lt (i := 2) (b := 1) (by norm_num) k).symm

lemma Free.or_obsolete {w : ℕ} (h : Free w) : w ||| obsoleteBit = w + 2 := by
  obtain ⟨k, rfl⟩ : ∃ k, w = 2 ^ 2 * k := ⟨w / 4, by unfold Free at h; omega⟩
  exact (Nat.two_pow_add_eq_or_of_lt (i := 2) (b := 2) (by norm_num) k).symm

/-! ## Shadows -/

/-- The ghost state of a tree. -/
structure Shadow where
  forest : Forest
  /-- The current epoch. -/
  cur : ℕ
  /-- The thread that holds a latch. -/
  owner : LatchId → Option ℕ
  /-- The thread whose unpublished node this is. -/
  priv : NodeId → Option ℕ
  /-- The node has been published. -/
  pub : NodeId → Prop
  /-- The epoch and key of a thread's pending follow-up. -/
  follow : ℕ → Option (ℕ × Key)
  /-- The thread that is clearing a past epoch. -/
  clearer : ℕ → Option ℕ
  /-- The thread that has taken a node out of its tree and is to retire it. -/
  due : NodeId → Option ℕ

namespace Shadow

/-- The shadow of an empty tree. -/
def empty : Shadow where
  forest := Forest.empty
  cur := 0
  owner := fun _ => none
  priv := fun _ => none
  pub := fun _ => False
  follow := fun _ => none
  clearer := fun _ => none
  due := fun _ => none

variable (m : TreeMem) (S : Shadow)

/-- The word of a latch fits its owner. -/
def WordOk (l : LatchId) : Prop :=
  match S.owner l with
  | none => Free (m.latch l) ∨ Obsolete (m.latch l)
  | some _ => m.latch l % 4 = 1

/-- Where the nodes are that have been allocated: unpublished, in a tree, due to be retired,
retired or freed. -/
structure Ledger : Prop where
  fate : ∀ {n}, n < m.next → S.priv n ≠ none ∨ S.forest.place n ≠ none ∨ S.due n ≠ none ∨
    n ∈ m.retired ∨ n ∈ m.freed
  retired_nodup : m.retired.Nodup
  freed_nodup : m.freed.Nodup
  retired : ∀ {n}, n ∈ m.retired → S.pub n ∧ S.due n = none ∧ Obsolete (m.latch (.node n))
  freed : ∀ {n}, n ∈ m.freed → n < m.next ∧ ¬ S.pub n ∧ S.priv n = none
  due : ∀ {n t}, S.due n = some t → S.pub n ∧ S.forest.place n = none ∧
    (S.owner (.node n) = some t ∨ Obsolete (m.latch (.node n)))
  /-- The tree of a past epoch has been retired once it has been cleared. -/
  cleared : ∀ {n e p}, e < S.cur → S.clearer e = none → S.forest.place n = some (e, p) →
    n ∈ m.retired

/-- The memory of a tree and its shadow fit. -/
structure Inv : Prop where
  wf : S.forest.WF
  root : m.root = S.forest.root S.cur
  future : ∀ e, S.cur < e → S.forest.root e = .null
  word : ∀ l, S.WordOk m l
  root_word : ¬ Obsolete (m.latch .root)
  /-- A placed node whose latch is not held stands for its content. -/
  repr : ∀ {n}, S.forest.place n ≠ none → S.owner (.node n) = none →
    Repr (m.ty n) (m.fields n) (S.forest.cont n)
  /-- The cells of a placed node show its content, even while it is rewritten. -/
  shows : ∀ {n}, S.forest.place n ≠ none → Shows (m.fields n) (S.forest.cont n)
  pub_placed : ∀ {n}, S.forest.place n ≠ none → S.pub n
  /-- A free published node is in some tree. -/
  placed_free : ∀ {n}, S.pub n → Free (m.latch (.node n)) → S.forest.place n ≠ none
  /-- An obsolete node is not in the current tree. -/
  obsolete_past : ∀ {n e p}, Obsolete (m.latch (.node n)) →
    S.forest.place n = some (e, p) → e < S.cur
  place_le : ∀ {n e p}, S.forest.place n = some (e, p) → e ≤ S.cur
  pub_lt : ∀ {n}, S.pub n → n < m.next
  unpub : ∀ {n}, ¬ S.pub n → m.latch (.node n) = 0 ∧ S.owner (.node n) = none
  priv_lt : ∀ {n t}, S.priv n = some t → n < m.next ∧ ¬ S.pub n
  /-- An empty node of the current tree is on the path of a pending follow-up. -/
  cover : ∀ {n p}, S.forest.place n = some (S.cur, p) → (S.forest.cont n).Empty →
    ∃ t k, S.follow t = some (S.cur, k) ∧ p ++ S.forest.pre n <+: k
  /-- The tree of a past epoch is obsolete once it has been cleared. -/
  cleared : ∀ {n e p}, e < S.cur → S.clearer e = none → S.forest.place n = some (e, p) →
    Obsolete (m.latch (.node n))
  clearer_past : ∀ {e}, S.clearer e ≠ none → e < S.cur
  ledger : S.Ledger m
  sane : m.panicked = false

lemma empty_inv (full : ℕ → Bool) : empty.Inv { TreeMem.empty with full := full } where
  wf := Forest.empty_wf
  root := rfl
  future _ _ := rfl
  word l := .inl rfl
  root_word := by
    show ¬ (0 : ℕ) % 4 = 2
    norm_num
  repr h := absurd rfl h
  shows h := absurd rfl h
  pub_placed h := absurd rfl h
  placed_free h := h.elim
  obsolete_past _ h := by simp [empty, Forest.empty] at h
  place_le h := by simp [empty, Forest.empty] at h
  pub_lt h := h.elim
  unpub _ := ⟨rfl, rfl⟩
  priv_lt h := by simp [empty] at h
  cover h := by simp [empty, Forest.empty] at h
  cleared h := by simp [empty] at h
  clearer_past h := absurd rfl h
  ledger :=
    { fate := fun h => absurd h (Nat.not_lt_zero _), retired_nodup := List.nodup_nil
      freed_nodup := List.nodup_nil
      retired := fun h => by simp [TreeMem.empty] at h
      freed := fun h => by simp [TreeMem.empty] at h
      due := fun h => by simp [empty] at h
      cleared := fun h => by simp [empty] at h }
  sane := rfl

/-- Thread `t` holds no latch and no unpublished node, and has nothing pending. -/
structure Clean (t : ℕ) : Prop where
  owner : ∀ l, S.owner l ≠ some t
  priv : ∀ n, S.priv n ≠ some t
  follow : S.follow t = none
  clearer : ∀ e, S.clearer e ≠ some t
  due : ∀ n, S.due n ≠ some t

lemma empty_clean (t : ℕ) : empty.Clean t where
  owner _ h := by simp [empty] at h
  priv _ h := by simp [empty] at h
  follow := rfl
  clearer _ h := by simp [empty] at h
  due _ h := by simp [empty] at h

/-- The location of node `n` can no longer be written. -/
def Anchored (n : NodeId) : Prop :=
  ∃ ℓ e p, S.forest.At ℓ e p ∧ S.forest.slot ℓ = .node n ∧
    match ℓ with
    | .root _ => e < S.cur
    | .child x _ => Obsolete (m.latch (.node x))

/-- Node `n` of epoch `e` is where key `k` is, or would be. -/
def Home (F : Forest) (e : ℕ) (k : Key) (n : NodeId) : Prop :=
  ∃ q, F.place n = some (e, q) ∧
    (k = q ++ F.pre n ∨
      ∃ b, q ++ F.pre n ++ [b] <+: k ∧ ∀ c, (F.cont n).child b ≠ .node c)

/-- No writer but the clear can reach the home of key `k` in the past epoch `e`. -/
def Frozen (e : ℕ) (k : Key) : Prop :=
  e < S.cur ∧ (S.clearer e = none ∨ (∀ c, S.forest.root e ≠ .node c) ∨
    ∃ n, Home S.forest e k n ∧
      (Obsolete (m.latch (.node n)) ∨
        S.owner (.node n) ≠ none ∧ S.owner (.node n) = S.clearer e))

/-- As long as the word of node `n` is `v`, the keys below it in epoch `e` go on from the path
`p`. -/
structure Hinted (n : NodeId) (v e : ℕ) (p : List Byte) : Prop where
  pub : S.pub n
  free : Free v
  le : v ≤ m.latch (.node n)
  right : m.latch (.node n) = v →
    ∃ q, S.forest.place n = some (e, q) ∧ q ++ S.forest.pre n = p

/-! ## Interference -/

/-- Nothing about node `n` has changed. -/
structure Same (m : TreeMem) (S : Shadow) (m' : TreeMem) (S' : Shadow) (n : NodeId) : Prop where
  fields : m'.fields n = m.fields n
  cont : S'.forest.cont n = S.forest.cont n
  place : S'.forest.place n = S.forest.place n

lemma Same.trans {m m' m'' : TreeMem} {S S' S'' : Shadow} {n : NodeId} (h : Same m S m' S' n)
    (h' : Same m' S' m'' S'' n) : Same m S m'' S'' n :=
  ⟨h'.fields.trans h.fields, h'.cont.trans h.cont, h'.place.trans h.place⟩

/-- What the other threads may do to thread `t`. -/
structure Rely (t : ℕ) (m : TreeMem) (S : Shadow) (m' : TreeMem) (S' : Shadow) : Prop where
  latch_mono : ∀ l, m.latch l ≤ m'.latch l
  owner_iff : ∀ l, S'.owner l = some t ↔ S.owner l = some t
  held : ∀ l, S.owner l = some t → m'.latch l = m.latch l
  mine : ∀ n, S.owner (.node n) = some t ∨ S.priv n = some t → Same m S m' S' n
  /-- A free node whose word is the same is the same. -/
  still : ∀ n, S.pub n → S.owner (.node n) = none → m'.latch (.node n) = m.latch (.node n) →
    S'.owner (.node n) = none ∧ Same m S m' S' n
  root_held : S.owner .root = some t → m'.root = m.root ∧ S'.cur = S.cur
  root_still : S.owner .root = none → m'.latch .root = m.latch .root →
    S'.owner .root = none ∧ m'.root = m.root ∧ S'.cur = S.cur
  priv_iff : ∀ n, S'.priv n = some t ↔ S.priv n = some t
  pub_mono : ∀ n, S.pub n → S'.pub n
  ty : ∀ n, n < m.next → m'.ty n = m.ty n
  next : m.next ≤ m'.next
  cur_mono : S.cur ≤ S'.cur
  follow : S'.follow t = S.follow t
  clearer_iff : ∀ e, S'.clearer e = some t ↔ S.clearer e = some t
  due_iff : ∀ n, S'.due n = some t ↔ S.due n = some t
  full : m'.full = m.full
  /-- What is obsolete, and what is retired, stays so. -/
  dead : ∀ l, Obsolete (m.latch l) → m'.latch l = m.latch l
  retired_mono : ∀ n, n ∈ m.retired → n ∈ m'.retired
  roots : ∀ e, e < S.cur → S'.forest.root e = S.forest.root e
  anchored : ∀ n, Anchored m S n →
    S'.forest.place n = S.forest.place n ∧ Anchored m' S' n
  /-- Only the clearer of an epoch makes its nodes obsolete. -/
  swept : ∀ n e p, S.clearer e = some t → S'.forest.place n = some (e, p) →
    Obsolete (m'.latch (.node n)) →
    Obsolete (m.latch (.node n)) ∧ S.forest.place n = some (e, p)
  /-- Only its clearer retires an anchored node. -/
  anchored_retired : ∀ n e p, Anchored m S n → S.forest.place n = some (e, p) →
    S.clearer e = some t → n ∉ m.retired → n ∉ m'.retired

namespace Rely

variable {t : ℕ} {m m' m'' : TreeMem} {S S' S'' : Shadow}

lemma refl (t : ℕ) (m : TreeMem) (S : Shadow) : Rely t m S m S where
  latch_mono _ := le_rfl
  owner_iff _ := Iff.rfl
  held _ _ := rfl
  mine _ _ := ⟨rfl, rfl, rfl⟩
  still _ _ h _ := ⟨h, rfl, rfl, rfl⟩
  root_held _ := ⟨rfl, rfl⟩
  root_still h _ := ⟨h, rfl, rfl⟩
  priv_iff _ := Iff.rfl
  pub_mono _ h := h
  ty _ _ := rfl
  next := le_rfl
  cur_mono := le_rfl
  follow := rfl
  clearer_iff _ := Iff.rfl
  due_iff _ := Iff.rfl
  full := rfl
  dead _ _ := rfl
  retired_mono _ h := h
  roots _ _ := rfl
  anchored _ h := ⟨rfl, h⟩
  swept _ _ _ _ hp hw := ⟨hw, hp⟩
  anchored_retired _ _ _ _ _ _ h := h

lemma trans (h : Rely t m S m' S') (h' : Rely t m' S' m'' S'') : Rely t m S m'' S'' where
  latch_mono l := (h.latch_mono l).trans (h'.latch_mono l)
  owner_iff l := (h'.owner_iff l).trans (h.owner_iff l)
  held l hl := (h'.held l ((h.owner_iff l).mpr hl)).trans (h.held l hl)
  mine n hn := by
    refine (h.mine n hn).trans (h'.mine n ?_)
    exact hn.imp (h.owner_iff _).mpr (h.priv_iff n).mpr
  still n hp ho hw := by
    have h1 := h.latch_mono (.node n)
    have h2 := h'.latch_mono (.node n)
    obtain ⟨ho', hs⟩ := h.still n hp ho (by omega)
    obtain ⟨ho'', hs'⟩ := h'.still n (h.pub_mono n hp) ho' (by omega)
    exact ⟨ho'', hs.trans hs'⟩
  root_held ho := by
    obtain ⟨h1, h2⟩ := h.root_held ho
    obtain ⟨h3, h4⟩ := h'.root_held ((h.owner_iff _).mpr ho)
    exact ⟨h3.trans h1, h4.trans h2⟩
  root_still ho hw := by
    have h1 := h.latch_mono .root
    have h2 := h'.latch_mono .root
    obtain ⟨ho', hr, hc⟩ := h.root_still ho (by omega)
    obtain ⟨ho'', hr', hc'⟩ := h'.root_still ho' (by omega)
    exact ⟨ho'', hr'.trans hr, hc'.trans hc⟩
  priv_iff n := (h'.priv_iff n).trans (h.priv_iff n)
  pub_mono n hn := h'.pub_mono n (h.pub_mono n hn)
  ty n hn := (h'.ty n (lt_of_lt_of_le hn h.next)).trans (h.ty n hn)
  next := h.next.trans h'.next
  cur_mono := h.cur_mono.trans h'.cur_mono
  follow := h'.follow.trans h.follow
  clearer_iff e := (h'.clearer_iff e).trans (h.clearer_iff e)
  due_iff n := (h'.due_iff n).trans (h.due_iff n)
  full := h'.full.trans h.full
  dead l hl := by
    have h1 := h.dead l hl
    exact (h'.dead l (h1 ▸ hl)).trans h1
  retired_mono n hn := h'.retired_mono n (h.retired_mono n hn)
  roots e he := (h'.roots e (lt_of_lt_of_le he h.cur_mono)).trans (h.roots e he)
  anchored n hn := by
    obtain ⟨h1, h2⟩ := h.anchored n hn
    obtain ⟨h3, h4⟩ := h'.anchored n h2
    exact ⟨h3.trans h1, h4⟩
  swept n e p hc hp hw := by
    obtain ⟨h1, h2⟩ := h'.swept n e p ((h.clearer_iff e).mpr hc) hp hw
    exact h.swept n e p hc h2 h1
  anchored_retired n e p hn hpl hc hr := by
    obtain ⟨h1, h2⟩ := h.anchored n hn
    exact h'.anchored_retired n e p h2 (h1.trans hpl) ((h.clearer_iff e).mpr hc)
      (h.anchored_retired n e p hn hpl hc hr)

lemma clean (h : Rely t m S m' S') (hc : S.Clean t) : S'.Clean t where
  owner l hl := hc.owner l ((h.owner_iff l).mp hl)
  priv n hn := hc.priv n ((h.priv_iff n).mp hn)
  follow := h.follow.trans hc.follow
  clearer e he := hc.clearer e ((h.clearer_iff e).mp he)
  due n hn := hc.due n ((h.due_iff n).mp hn)

end Rely

end Shadow

end Artmap
