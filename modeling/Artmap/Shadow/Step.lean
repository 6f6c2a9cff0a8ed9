import Artmap.Shadow.Basic

/-!
# Steps of one thread

`Shadow.Own t` is what a step of thread `t` may do to the memory of a tree and its shadow: it
moves a latch word only to take or to give up that latch, changes only nodes that `t` has
latched or not yet published, and moves a node only while the location of the node is latched
too.  `Own.rely` says that the other threads can rely on that, and `Own.frozen` that what is
frozen stays frozen.

The lemmas about single steps come in pairs: the step keeps the invariant, and it is an own
step.  Steps that change the forest are in `Artmap.Shadow.Commit`.
-/

namespace Artmap

open scoped List

namespace Shadow

variable {t t' : ℕ} {m m' : TreeMem} {S S' : Shadow} {n : NodeId} {l : LatchId} {v e : ℕ}
  {p : List Byte}

/-! ## Reading the invariant -/

namespace Inv

lemma word_held (hi : S.Inv m) (h : S.owner l = some t) : m.latch l % 4 = 1 := by
  have := hi.word l
  simpa only [WordOk, h] using this

lemma word_none (hi : S.Inv m) (h : S.owner l = none) :
    Free (m.latch l) ∨ Obsolete (m.latch l) := by
  have := hi.word l
  simpa only [WordOk, h] using this

lemma owner_none (hi : S.Inv m) (h : m.latch l % 4 ≠ 1) : S.owner l = none := by
  cases ho : S.owner l with
  | none => rfl
  | some t => exact absurd (hi.word_held ho) h

lemma owner_of_free (hi : S.Inv m) (h : Free (m.latch l)) : S.owner l = none :=
  hi.owner_none (by unfold Free at h; omega)

/-- What a free word vouches for stands as long as the word does. -/
lemma hinted_rely {t : ℕ} {m' : TreeMem} {S' : Shadow} {v e : ℕ} {p : List Byte} (hi : S.Inv m)
    (hr : Rely t m S m' S') (hn : Hinted m S n v e p) : Hinted m' S' n v e p where
  pub := hr.pub_mono n hn.pub
  free := hn.free
  le := hn.le.trans (hr.latch_mono _)
  right hw := by
    have hle := hr.latch_mono (.node n)
    have hword : m.latch (.node n) = v := le_antisymm (hle.trans hw.le) hn.le
    have hsame := (hr.still n hn.pub (hi.owner_of_free (by rw [hword]; exact hn.free))
      (hw.trans hword.symm)).2
    obtain ⟨q, h1, h2⟩ := hn.right hword
    exact ⟨q, hsame.place.trans h1, by rwa [Forest.pre, hsame.cont]⟩

lemma owner_of_obsolete (hi : S.Inv m) (h : Obsolete (m.latch l)) : S.owner l = none :=
  hi.owner_none (by unfold Obsolete at h; omega)

lemma pub_of_owner (hi : S.Inv m) (h : S.owner (.node n) ≠ none) : S.pub n := by
  by_contra hp
  exact h (hi.unpub hp).2

lemma priv_of_pub (hi : S.Inv m) (h : S.pub n) : S.priv n = none := by
  cases hp : S.priv n with
  | none => rfl
  | some t => exact absurd h (hi.priv_lt hp).2

lemma place_of_priv (hi : S.Inv m) (h : S.priv n = some t) : S.forest.place n = none := by
  by_contra hp
  exact (hi.priv_lt h).2 (hi.pub_placed hp)

/-- A node of a past epoch that is not obsolete is still to be cleared. -/
lemma clearer_of_held (hi : S.Inv m) (hp : S.forest.place n = some (e, p)) (he : e < S.cur)
    (h : ¬ Obsolete (m.latch (.node n))) : S.clearer e ≠ none :=
  fun hc => h (hi.cleared he hc hp)

end Inv

/-! ## Own steps -/

/-- What a step of thread `t` may do. -/
structure Own (t : ℕ) (m : TreeMem) (S : Shadow) (m' : TreeMem) (S' : Shadow) : Prop where
  latch : ∀ l, (m'.latch l = m.latch l ∧ S'.owner l = S.owner l) ∨
    (m.latch l < m'.latch l ∧ (S.owner l = some t ∨ Free (m.latch l)) ∧
      (S'.owner l = some t ∨ S'.owner l = none))
  turn : ∀ l, Turn (m.latch l) (m'.latch l)
  node : ∀ n, S.owner (.node n) ≠ some t → S.priv n ≠ some t → (S.pub n ∨ S.priv n ≠ none) →
    Same m S m' S' n
  root : S.owner .root ≠ some t → m'.root = m.root ∧ S'.cur = S.cur
  priv : ∀ n t', t' ≠ t → (S'.priv n = some t' ↔ S.priv n = some t')
  pub : ∀ n, S.pub n → S'.pub n
  ty : ∀ n, n < m.next → m'.ty n = m.ty n
  next : m.next ≤ m'.next
  cur : S.cur ≤ S'.cur
  follow : ∀ t', t' ≠ t → S'.follow t' = S.follow t'
  clearer : ∀ e t', t' ≠ t → (S'.clearer e = some t' ↔ S.clearer e = some t')
  due : ∀ n t', t' ≠ t → (S'.due n = some t' ↔ S.due n = some t')
  full : m'.full = m.full
  retired : ∀ n, n ∈ m'.retired → n ∈ m.retired ∨ S.due n = some t ∨
    ∃ e p, S.forest.place n = some (e, p) ∧ S.clearer e = some t
  retired_mono : ∀ n, n ∈ m.retired → n ∈ m'.retired
  finished : ∀ e, e < S.cur → S.clearer e = none → S'.clearer e = none
  roots : ∀ e, e < S.cur → S'.forest.root e = S.forest.root e
  /-- A node moves only while its location is latched. -/
  moved : ∀ n ℓ e p, S.forest.At ℓ e p → S.forest.slot ℓ = .node n →
    S'.forest.place n = S.forest.place n ∨
      match ℓ with
      | .root e => e = S.cur
      | .child x _ => S.owner (.node x) = some t
  /-- Only its clearer makes a node obsolete that is still in a tree. -/
  obsoleted : ∀ n e p, S'.forest.place n = some (e, p) → Obsolete (m'.latch (.node n)) →
    Obsolete (m.latch (.node n)) ∧ S.forest.place n = some (e, p) ∨ S.clearer e = some t

namespace Own

/-- The other threads can rely on own steps. -/
theorem rely (h : Own t m S m' S') (hi : S.Inv m) (ht : t' ≠ t) : Rely t' m S m' S' where
  latch_mono l := by
    rcases h.latch l with ⟨h1, -⟩ | ⟨h1, -⟩ <;> omega
  owner_iff l := by
    rcases h.latch l with ⟨-, h1⟩ | ⟨-, h1, h2⟩
    · rw [h1]
    · have h3 : S.owner l ≠ some t' := by
        rcases h1 with h1 | h1
        · simp [h1, Ne.symm ht]
        · simp [hi.owner_of_free h1]
      have h4 : S'.owner l ≠ some t' := by
        rcases h2 with h2 | h2 <;> simp [h2, Ne.symm ht]
      exact ⟨fun hl => absurd hl h4, fun hl => absurd hl h3⟩
  held l hl := by
    rcases h.latch l with ⟨h1, -⟩ | ⟨-, h1, -⟩
    · exact h1
    · rcases h1 with h1 | h1
      · rw [hl, Option.some.injEq] at h1
        exact absurd h1 ht
      · simp [hi.owner_of_free h1] at hl
  mine n hn := by
    refine h.node n ?_ ?_ ?_
    · rcases hn with hn | hn
      · simp [hn, ht]
      · simp [(hi.unpub (hi.priv_lt hn).2).2]
    · rcases hn with hn | hn
      · simp [hi.priv_of_pub (hi.pub_of_owner (n := n) (by simp [hn]))]
      · simp [hn, ht]
    · exact hn.imp (fun hn => hi.pub_of_owner (by simp [hn])) (fun hn => by simp [hn])
  still n hp ho hw := by
    refine ⟨?_, h.node n (by simp [ho]) (by simp [hi.priv_of_pub hp]) (.inl hp)⟩
    rcases h.latch (.node n) with ⟨-, h1⟩ | ⟨h1, -⟩
    · rw [h1, ho]
    · omega
  root_held ho := h.root (by simp [ho, ht])
  root_still ho hw := by
    refine ⟨?_, h.root (by simp [ho])⟩
    rcases h.latch .root with ⟨-, h1⟩ | ⟨h1, -⟩
    · rw [h1, ho]
    · omega
  priv_iff n := h.priv n t' ht
  pub_mono := h.pub
  ty := h.ty
  next := h.next
  cur_mono := h.cur
  follow := h.follow t' ht
  clearer_iff e := h.clearer e t' ht
  due_iff n := h.due n t' ht
  full := h.full
  dead l hl := by
    rcases h.latch l with ⟨h1, -⟩ | ⟨-, h1, -⟩
    · exact h1
    · rcases h1 with h1 | h1
      · simp [hi.owner_of_obsolete hl] at h1
      · unfold Free at h1
        unfold Obsolete at hl
        omega
  retired_mono := h.retired_mono
  roots := h.roots
  anchored n hn := by
    obtain ⟨ℓ, e, p, hat, hs, hℓ⟩ := hn
    cases ℓ with
    | root e₀ =>
      obtain ⟨rfl, rfl⟩ := hat
      refine ⟨(h.moved n _ _ _ (Forest.at_root e₀) hs).resolve_right (Nat.ne_of_lt hℓ), ?_⟩
      exact ⟨.root e₀, e₀, [], Forest.at_root e₀, (h.roots e₀ hℓ).trans hs,
        lt_of_lt_of_le hℓ h.cur⟩
    | child x b =>
      have hox : S.owner (.node x) = none := hi.owner_of_obsolete hℓ
      refine ⟨(h.moved n _ _ _ hat hs).resolve_right (by simp [hox]), ?_⟩
      obtain ⟨q, hq, rfl⟩ := hat
      have hpub : S.pub x := hi.pub_placed (by simp [hq])
      have hsame := h.node x (by simp [hox]) (by simp [hi.priv_of_pub hpub]) (.inl hpub)
      refine ⟨.child x b, e, q ++ S.forest.pre x ++ [b], ⟨q, hsame.place.trans hq, ?_⟩, ?_, ?_⟩
      · simp only [Forest.pre, hsame.cont]
      · show (S'.forest.cont x).child b = .node n
        rw [hsame.cont]
        exact hs
      · rcases h.latch (.node x) with ⟨h1, -⟩ | ⟨-, h1, -⟩
        · show Obsolete _
          rw [h1]
          exact hℓ
        · rcases h1 with h1 | h1
          · simp [hox] at h1
          · have : Obsolete (m.latch (.node x)) := hℓ
            unfold Free at h1
            unfold Obsolete at this
            omega
  swept n e p hc hpl hw := by
    refine (h.obsoleted n e p hpl hw).resolve_right fun h1 => ?_
    rw [hc, Option.some.injEq] at h1
    exact ht h1
  anchored_retired n e p _ hpl hc hr hr' := by
    rcases h.retired n hr' with h1 | h1 | ⟨e', p', h1, h2⟩
    · exact hr h1
    · simp [(hi.ledger.due h1).2.1] at hpl
    · obtain ⟨rfl, rfl⟩ : e' = e ∧ p' = p := by simpa [hpl, eq_comm] using h1
      rw [hc, Option.some.injEq] at h2
      exact ht h2

/-- Frozen keys stay frozen, if a node that `t` has latched in order to clear it stays so or
becomes obsolete. -/
theorem frozen (h : Own t m S m' S') (hi : S.Inv m) {k : Key}
    (hkeep : ∀ n q, S.forest.place n = some (e, q) → S.owner (.node n) = some t →
      S.clearer e = some t → Same m S m' S' n ∧ (Obsolete (m'.latch (.node n)) ∨
        S'.owner (.node n) = some t ∧ S'.clearer e = some t))
    (hf : Frozen m S e k) : Frozen m' S' e k := by
  obtain ⟨he, hf⟩ := hf
  refine ⟨lt_of_lt_of_le he h.cur, hf.imp (h.finished e he) (Or.imp (fun hr c => ?_) ?_)⟩
  · rw [h.roots e he]
    exact hr c
  · rintro ⟨n, ⟨q, hq, hhome⟩, hw⟩
    have hpub : S.pub n := hi.pub_placed (by simp [hq])
    have hn : Same m S m' S' n ∧ (Obsolete (m'.latch (.node n)) ∨
        S'.owner (.node n) ≠ none ∧ S'.owner (.node n) = S'.clearer e) := by
      by_cases ho : S.owner (.node n) = some t
      · have hc : S.clearer e = some t := by
          rcases hw with hw | ⟨-, hw⟩
          · simp [hi.owner_of_obsolete hw] at ho
          · rw [← hw, ho]
        obtain ⟨h1, h2⟩ := hkeep n q hq ho hc
        exact ⟨h1, h2.imp id fun h2 => by simp [h2.1, h2.2]⟩
      · refine ⟨h.node n ho (by simp [hi.priv_of_pub hpub]) (.inl hpub), ?_⟩
        rcases hw with hw | ⟨hw1, hw2⟩
        · left
          rcases h.latch (.node n) with ⟨h1, -⟩ | ⟨-, h1, -⟩
          · rwa [h1]
          · rcases h1 with h1 | h1
            · exact absurd h1 ho
            · unfold Free at h1
              unfold Obsolete at hw
              omega
        · right
          rcases h.latch (.node n) with ⟨-, h1⟩ | ⟨-, h1, -⟩
          · obtain ⟨t₀, ht₀⟩ := Option.ne_none_iff_exists'.mp hw1
            have hne : t₀ ≠ t := by
              rintro rfl
              exact ho ht₀
            have hc := (h.clearer e t₀ hne).mpr (hw2 ▸ ht₀)
            rw [h1, ht₀, hc]
            simp
          · rcases h1 with h1 | h1
            · exact absurd h1 ho
            · exact absurd (hi.owner_of_free h1) hw1
    refine ⟨n, ⟨q, hn.1.place.trans hq, ?_⟩, hn.2⟩
    simpa only [Forest.pre, hn.1.cont] using hhome

lemma hinted (h : Own t m S m' S') (hi : S.Inv m) (hn : Hinted m S n v e p) :
    Hinted m' S' n v e p where
  pub := h.pub n hn.pub
  free := hn.free
  le := by
    have := hn.le
    rcases h.latch (.node n) with ⟨h1, -⟩ | ⟨h1, -⟩ <;> omega
  right hw := by
    have hle := hn.le
    have hw' : m.latch (.node n) = v := by
      rcases h.latch (.node n) with ⟨h1, -⟩ | ⟨h1, -⟩ <;> omega
    have ho : S.owner (.node n) = none := hi.owner_of_free (by rw [hw']; exact hn.free)
    have hsame := h.node n (by simp [ho]) (by simp [hi.priv_of_pub hn.pub]) (.inl hn.pub)
    obtain ⟨q, h1, h2⟩ := hn.right hw'
    exact ⟨q, hsame.place.trans h1, by rwa [Forest.pre, hsame.cont]⟩

/-- A step that leaves the forest, the root and the epoch alone. -/
lemma of_frame (hlatch : ∀ l, (m'.latch l = m.latch l ∧ S'.owner l = S.owner l) ∨
      (m.latch l < m'.latch l ∧ (S.owner l = some t ∨ Free (m.latch l)) ∧
        (S'.owner l = some t ∨ S'.owner l = none)))
    (hturn : ∀ l, Turn (m.latch l) (m'.latch l))
    (hfields : ∀ n, S.owner (.node n) ≠ some t → S.priv n ≠ some t → n < m.next →
      m'.fields n = m.fields n)
    (hpriv : ∀ n t', t' ≠ t → (S'.priv n = some t' ↔ S.priv n = some t'))
    (hty : ∀ n, n < m.next → m'.ty n = m.ty n) (hnext : m.next ≤ m'.next)
    (hobs : ∀ n e p, S.forest.place n = some (e, p) → Obsolete (m'.latch (.node n)) →
      Obsolete (m.latch (.node n)) ∨ S.clearer e = some t)
    (hroot : m'.root = m.root) (hforest : S'.forest = S.forest) (hcur : S'.cur = S.cur)
    (hpub : S'.pub = S.pub) (hfollow : S'.follow = S.follow) (hclearer : S'.clearer = S.clearer)
    (hdue : S'.due = S.due) (hfull : m'.full = m.full) (hretired : m'.retired = m.retired)
    (hi : S.Inv m) : Own t m S m' S' where
  latch := hlatch
  turn := hturn
  node n ho hp hpp := by
    have hn : n < m.next := by
      rcases hpp with hpp | hpp
      · exact hi.pub_lt hpp
      · obtain ⟨t₀, ht₀⟩ := Option.ne_none_iff_exists'.mp hpp
        exact (hi.priv_lt ht₀).1
    exact ⟨hfields n ho hp hn, by rw [hforest], by rw [hforest]⟩
  root _ := ⟨hroot, hcur⟩
  priv := hpriv
  pub n hn := by rwa [hpub]
  ty := hty
  next := hnext
  cur := hcur.ge
  follow _ _ := by rw [hfollow]
  clearer _ _ _ := by rw [hclearer]
  due _ _ _ := by rw [hdue]
  full := hfull
  retired n hn := .inl (by rwa [hretired] at hn)
  retired_mono n hn := by rwa [hretired]
  finished e _ hc := by rwa [hclearer]
  roots _ _ := by rw [hforest]
  moved _ _ _ _ _ _ := .inl (by rw [hforest])
  obsoleted n e p hpl hw := by
    rw [hforest] at hpl
    exact (hobs n e p hpl hw).imp (fun h => ⟨h, hpl⟩) id

lemma refl (hi : S.Inv m) : Own t m S m S :=
  of_frame (fun _ => .inl ⟨rfl, rfl⟩) (fun _ => .inl rfl) (fun _ _ _ _ => rfl)
    (fun _ _ _ => Iff.rfl) (fun _ _ => rfl) le_rfl (fun _ _ _ _ h => .inl h) rfl rfl rfl rfl rfl rfl
    rfl rfl rfl hi

end Own

/-! ## Latches -/

/-- Thread `t` holds the latch `l`. -/
def acquire (S : Shadow) (t : ℕ) (l : LatchId) : Shadow :=
  { S with owner := Function.update S.owner l (some t) }

/-- Nobody holds the latch `l`. -/
def release (S : Shadow) (l : LatchId) : Shadow :=
  { S with owner := Function.update S.owner l none }

/-- The memory with another latch word. -/
def setWord (m : TreeMem) (l : LatchId) (w : ℕ) : TreeMem :=
  { m with latch := Function.update m.latch l w }

/-- The step of a latch word that thread `t` takes or gives up. -/
lemma own_setWord (hi : S.Inv m) {w : ℕ} {o : Option ℕ} (hw : m.latch l < w)
    (hturn : Turn (m.latch l) w) (hl : S.owner l = some t ∨ Free (m.latch l))
    (ho : o = some t ∨ o = none)
    (hobs : ∀ n e p, l = .node n → S.forest.place n = some (e, p) → Obsolete w →
      S.clearer e = some t) :
    Own t m S (setWord m l w) { S with owner := Function.update S.owner l o } := by
  refine Own.of_frame ?_ ?_ (fun _ _ _ _ => rfl) (fun _ _ _ => Iff.rfl) (fun _ _ => rfl) le_rfl
    ?_ rfl rfl rfl rfl rfl rfl rfl rfl rfl hi
  · intro l'
    by_cases h : l' = l
    · subst h
      right
      simp only [setWord, Function.update_self]
      exact ⟨hw, hl, ho⟩
    · left
      simp [setWord, h]
  · intro l'
    by_cases h : l' = l
    · subst h
      simpa only [setWord, Function.update_self] using hturn
    · left
      simp [setWord, h]
  · intro n e p hp hw'
    by_cases h : LatchId.node n = l
    · right
      subst h
      simp only [setWord, Function.update_self] at hw'
      exact hobs n e p rfl hp hw'
    · left
      simpa [setWord, h] using hw'

/-- The ledger does not depend on latches, as long as what is obsolete stays so and what is due
stays held or becomes obsolete. -/
lemma Ledger.latch (h : S.Ledger m) {w : ℕ} {o : Option ℕ}
    (hobs : Obsolete (m.latch l) → Obsolete w)
    (hdue : ∀ n t', l = .node n → S.due n = some t' → o = some t' ∨ Obsolete w) :
    Ledger (setWord m l w) { S with owner := Function.update S.owner l o } := by
  have hkeep : ∀ {n}, Obsolete (m.latch (.node n)) →
      Obsolete ((setWord m l w).latch (.node n)) := by
    intro n hn
    by_cases hl : LatchId.node n = l
    · subst hl
      simpa [setWord] using hobs hn
    · simpa [setWord, hl] using hn
  refine
    { fate := h.fate, retired_nodup := h.retired_nodup, freed_nodup := h.freed_nodup
      retired := fun hn => ?_, freed := h.freed, due := fun {n t'} hn => ?_, cleared := h.cleared }
  · obtain ⟨h1, h2, h3⟩ := h.retired hn
    exact ⟨h1, h2, hkeep h3⟩
  · obtain ⟨h1, h2, h3⟩ := h.due hn
    refine ⟨h1, h2, ?_⟩
    by_cases hl : l = .node n
    · subst hl
      simpa [setWord] using hdue n t' rfl hn
    · refine h3.imp (fun h4 => ?_) hkeep
      simpa [Ne.symm hl] using h4

lemma Inv.acquire (hi : S.Inv m) (hl : Free (m.latch l)) (hp : ∀ n, l = .node n → S.pub n) :
    (S.acquire t l).Inv (setWord m l (m.latch l + 1)) := by
  have hword : ∀ {l' w}, w % 4 ≠ 1 → (setWord m l (m.latch l + 1)).latch l' = w →
      m.latch l' = w := by
    intro l' w hw h
    by_cases h' : l' = l
    · subst h'
      simp only [setWord, Function.update_self] at h
      unfold Free at hl
      omega
    · simpa [setWord, h'] using h
  refine
    { wf := hi.wf, root := hi.root, future := hi.future, word := ?_, root_word := ?_,
      repr := ?_, shows := hi.shows, pub_placed := hi.pub_placed, placed_free := ?_,
      obsolete_past := ?_,
      place_le := hi.place_le, pub_lt := hi.pub_lt, unpub := ?_, priv_lt := hi.priv_lt,
      cover := hi.cover, cleared := ?_, clearer_past := hi.clearer_past
      ledger := hi.ledger.latch ?_ ?_, sane := hi.sane }
  · intro l'
    by_cases h : l' = l
    · subst h
      unfold Free at hl
      simp only [WordOk, Shadow.acquire, setWord, Function.update_self]
      omega
    · simpa only [WordOk, Shadow.acquire, setWord, Function.update_of_ne h] using hi.word l'
  · intro h
    exact hi.root_word (by rwa [hword (by unfold Obsolete at h; omega) rfl])
  · intro n hn ho
    refine hi.repr hn ?_
    by_cases h : LatchId.node n = l
    · subst h
      simp [Shadow.acquire] at ho
    · simpa [Shadow.acquire, h] using ho
  · intro n hn hw
    exact hi.placed_free hn (by rwa [hword (by unfold Free at hw; omega) rfl])
  · intro n e p hw hn
    exact hi.obsolete_past (by rwa [hword (by unfold Obsolete at hw; omega) rfl]) hn
  · intro n hn
    have h : LatchId.node n ≠ l := fun h => hn (hp n h.symm)
    simpa [setWord, Shadow.acquire, h] using hi.unpub hn
  · intro n e p he hc hn
    have h : LatchId.node n ≠ l := by
      rintro rfl
      have := hi.cleared he hc hn
      unfold Obsolete at this
      unfold Free at hl
      omega
    simpa [setWord, h] using hi.cleared he hc hn
  · intro hobs
    unfold Obsolete at hobs
    unfold Free at hl
    omega
  · rintro n t' rfl hn
    rcases (hi.ledger.due hn).2.2 with h | h
    · simp [hi.owner_of_free hl] at h
    · unfold Obsolete at h
      unfold Free at hl
      omega

lemma own_acquire (hi : S.Inv m) (hl : Free (m.latch l)) :
    Own t m S (setWord m l (m.latch l + 1)) (S.acquire t l) :=
  own_setWord hi (by omega) (.inr (.inl ⟨hl, rfl⟩)) (.inr hl) (.inl rfl) fun n e p _ _ hw => by
    unfold Free at hl
    unfold Obsolete at hw
    omega

lemma frozen_acquire (hi : S.Inv m) (hl : Free (m.latch l)) {k : Key} (hf : Frozen m S e k) :
    Frozen (setWord m l (m.latch l + 1)) (S.acquire t l) e k := by
  refine (own_acquire (t := t) hi hl).frozen hi (fun n q _ ho hc => ?_) hf
  have hn : LatchId.node n ≠ l := by
    rintro rfl
    simp [hi.owner_of_free hl] at ho
  refine ⟨⟨rfl, rfl, rfl⟩, .inr ⟨?_, hc⟩⟩
  simpa [Shadow.acquire, hn] using ho

lemma Inv.release (hi : S.Inv m) (hv : Free v) (hl : S.owner l = some t)
    (hn : ∀ n, l = .node n → S.forest.place n ≠ none ∧
      Repr (m.ty n) (m.fields n) (S.forest.cont n)) :
    (S.release l).Inv (setWord m l (v + 4)) := by
  have hheld := hi.word_held hl
  have hne : ∀ {l'}, m.latch l' % 4 ≠ 1 → l' ≠ l := by
    rintro l' h rfl
    exact h hheld
  have hword : ∀ {l'}, ¬ Free ((setWord m l (v + 4)).latch l') →
      (setWord m l (v + 4)).latch l' = m.latch l' := by
    intro l' h
    have h' : l' ≠ l := by
      rintro rfl
      simp only [setWord, Function.update_self, Free] at h hv
      omega
    simp [setWord, h']
  refine
    { wf := hi.wf, root := hi.root, future := hi.future, word := ?_, root_word := ?_,
      repr := ?_, shows := hi.shows, pub_placed := hi.pub_placed, placed_free := ?_,
      obsolete_past := ?_,
      place_le := hi.place_le, pub_lt := hi.pub_lt, unpub := ?_, priv_lt := hi.priv_lt,
      cover := hi.cover, cleared := ?_, clearer_past := hi.clearer_past
      ledger := hi.ledger.latch ?_ ?_, sane := hi.sane }
  · intro l'
    by_cases h : l' = l
    · subst h
      simp only [WordOk, Shadow.release, setWord, Function.update_self]
      left
      unfold Free at hv ⊢
      omega
    · simpa only [WordOk, Shadow.release, setWord, Function.update_of_ne h] using hi.word l'
  · intro h
    exact hi.root_word (by rwa [hword (by unfold Obsolete at h; unfold Free; omega)] at h)
  · intro n hpl ho
    by_cases h : l = .node n
    · exact (hn n h).2
    · refine hi.repr hpl ?_
      simpa [Shadow.release, Ne.symm h] using ho
  · intro n hpub hw
    by_cases h : l = .node n
    · exact (hn n h).1
    · refine hi.placed_free hpub ?_
      simpa [setWord, Ne.symm h] using hw
  · intro n e p hw hpl
    exact hi.obsolete_past (by rwa [hword (by unfold Obsolete at hw; unfold Free; omega)] at hw)
      hpl
  · intro n hnp
    have h : LatchId.node n ≠ l := hne (by rw [(hi.unpub hnp).1]; omega)
    simpa [setWord, Shadow.release, h] using hi.unpub hnp
  · intro n e p he hc hpl
    have hobs := hi.cleared he hc hpl
    have h : LatchId.node n ≠ l := hne (by unfold Obsolete at hobs; omega)
    simpa [setWord, h] using hobs
  · intro hobs
    unfold Obsolete at hobs
    omega
  · intro n t' h hdue
    exact absurd (hi.ledger.due hdue).2.1 (hn n h).1

lemma own_release (hi : S.Inv m) (hv : Free v) (hl : S.owner l = some t)
    (hw : m.latch l = v + 1) : Own t m S (setWord m l (v + 4)) (S.release l) :=
  own_setWord hi (by omega) (.inr (.inr ⟨hi.word_held hl, .inl (by omega)⟩)) (.inl hl) (.inr rfl)
    fun n e p _ _ h => by
    unfold Free at hv
    unfold Obsolete at h
    omega

/-- A node may become obsolete once it is in no tree, or as its epoch is cleared. -/
lemma Inv.obsolete (hi : S.Inv m) (hv : Free v) (hl : S.owner (.node n) = some t)
    (hn : ∀ e p, S.forest.place n = some (e, p) → e < S.cur ∧
      Repr (m.ty n) (m.fields n) (S.forest.cont n)) :
    (S.release (.node n)).Inv (setWord m (.node n) (v + 2)) := by
  have hheld := hi.word_held hl
  have hne : ∀ {l'}, m.latch l' % 4 ≠ 1 → l' ≠ .node n := by
    rintro l' h rfl
    exact h hheld
  have hword : ∀ {l'}, ¬ Obsolete ((setWord m (.node n) (v + 2)).latch l') →
      (setWord m (.node n) (v + 2)).latch l' = m.latch l' := by
    intro l' h
    have h' : l' ≠ .node n := by
      rintro rfl
      simp only [setWord, Function.update_self, Obsolete] at h hv
      unfold Free at hv
      omega
    simp [setWord, h']
  refine
    { wf := hi.wf, root := hi.root, future := hi.future, word := ?_, root_word := ?_,
      repr := ?_, shows := hi.shows, pub_placed := hi.pub_placed, placed_free := ?_,
      obsolete_past := ?_,
      place_le := hi.place_le, pub_lt := hi.pub_lt, unpub := ?_, priv_lt := hi.priv_lt,
      cover := hi.cover, cleared := ?_, clearer_past := hi.clearer_past
      ledger := hi.ledger.latch ?_ ?_, sane := hi.sane }
  · intro l'
    by_cases h : l' = .node n
    · subst h
      simp only [WordOk, Shadow.release, setWord, Function.update_self]
      right
      unfold Free at hv
      unfold Obsolete
      omega
    · simpa only [WordOk, Shadow.release, setWord, Function.update_of_ne h] using hi.word l'
  · simpa [setWord] using hi.root_word
  · intro n' hpl ho
    by_cases h : n' = n
    · subst h
      obtain ⟨⟨e, p⟩, hep⟩ := Option.ne_none_iff_exists'.mp hpl
      exact (hn e p hep).2
    · refine hi.repr hpl ?_
      simpa [Shadow.release, h] using ho
  · intro n' hpub hw
    refine hi.placed_free hpub ?_
    rwa [hword (by unfold Free at hw; unfold Obsolete; omega)] at hw
  · intro n' e p hw hpl
    by_cases h : n' = n
    · subst h
      exact (hn e p hpl).1
    · refine hi.obsolete_past ?_ hpl
      simpa [setWord, h] using hw
  · intro n' hnp
    have h : LatchId.node n' ≠ .node n := hne (by rw [(hi.unpub hnp).1]; omega)
    have h' : n' ≠ n := fun hnn => h (by rw [hnn])
    simpa [setWord, Shadow.release, h'] using hi.unpub hnp
  · intro n' e p he hc hpl
    by_cases h : n' = n
    · subst h
      simp only [setWord, Function.update_self]
      unfold Free at hv
      unfold Obsolete
      omega
    · simpa [setWord, h] using hi.cleared he hc hpl
  · intro hobs
    unfold Obsolete at hobs
    omega
  · intro n' t' _ _
    right
    unfold Free at hv
    unfold Obsolete
    omega

lemma own_obsolete (hi : S.Inv m) (hl : S.owner (.node n) = some t)
    (hw : m.latch (.node n) = v + 1)
    (hn : ∀ e p, S.forest.place n = some (e, p) → S.clearer e = some t) :
    Own t m S (setWord m (.node n) (v + 2)) (S.release (.node n)) :=
  own_setWord hi (by omega) (.inr (.inr ⟨hi.word_held hl, .inr (by omega)⟩)) (.inl hl) (.inr rfl)
    fun n' e p hnn hpl _ => by
    obtain rfl : n' = n := by simpa using hnn.symm
    exact hn e p hpl

lemma frozen_obsolete (hi : S.Inv m) (hv : Free v) (hl : S.owner (.node n) = some t)
    (hw : m.latch (.node n) = v + 1)
    (hn : ∀ e p, S.forest.place n = some (e, p) → S.clearer e = some t) {k : Key}
    (hf : Frozen m S e k) :
    Frozen (setWord m (.node n) (v + 2)) (S.release (.node n)) e k := by
  refine (own_obsolete hi hl hw hn).frozen hi (fun n' q _ ho hc => ?_) hf
  refine ⟨⟨rfl, rfl, rfl⟩, ?_⟩
  by_cases hnn : n' = n
  · subst hnn
    left
    simp only [setWord, Function.update_self]
    unfold Free at hv
    unfold Obsolete
    omega
  · right
    refine ⟨?_, hc⟩
    simpa [Shadow.release, hnn] using ho

/-! ## Unpublished and latched nodes -/

/-- A step on the fields of nodes that nobody else may read, and on the nodes that thread `t`
has not published. -/
structure Scratch (t : ℕ) (m : TreeMem) (S : Shadow) (m' : TreeMem) (S' : Shadow) : Prop where
  latch : m'.latch = m.latch
  root : m'.root = m.root
  panicked : m'.panicked = m.panicked
  full : m'.full = m.full
  retired : m'.retired = m.retired
  shadow : S' = { S with priv := S'.priv }
  next : m.next ≤ m'.next
  ty : ∀ n, n < m.next → m'.ty n = m.ty n
  fields : ∀ n, S.owner (.node n) ≠ some t → S.priv n ≠ some t → n < m.next →
    m'.fields n = m.fields n
  priv : ∀ n, S'.priv n = S.priv n ∧ (n < m'.next → n < m.next) ∨
    (S.priv n = some t ∧ S'.priv n = none ∧ n ∈ m'.freed) ∨
      (S'.priv n = some t ∧ ¬ S.pub n ∧ S.priv n = none ∧ m.next ≤ n ∧ n < m'.next)
  /-- A node of a tree still shows its content. -/
  shows : ∀ n, S.owner (.node n) = some t → S.forest.place n ≠ none →
    Shows (m'.fields n) (S.forest.cont n)
  /-- What is freed was unpublished. -/
  freed : m'.freed = m.freed ∨
    ∃ n, m'.freed = m.freed ++ [n] ∧ S.priv n = some t ∧ S'.priv n = none

namespace Scratch

lemma own (h : Scratch t m S m' S') (hi : S.Inv m) : Own t m S m' S' := by
  have hS := h.shadow
  refine Own.of_frame ?_ (fun _ => .inl (by rw [h.latch])) h.fields ?_ h.ty h.next ?_ h.root
    ?_ ?_ ?_ ?_ ?_ ?_ h.full h.retired hi
  · exact fun l => .inl ⟨by rw [h.latch], by rw [hS]⟩
  · intro n t' ht
    rcases h.priv n with ⟨h1, -⟩ | ⟨h1, h2, -⟩ | ⟨h1, -, h3, -⟩
    · rw [h1]
    · simp [h1, h2, Ne.symm ht]
    · simp [h1, h3, Ne.symm ht]
  · intro n e p _ hw
    left
    rwa [h.latch] at hw
  all_goals rw [hS]

lemma ledger (h : Scratch t m S m' S') (hi : S.Inv m) : S'.Ledger m' := by
  have hS := h.shadow
  have hforest : S'.forest = S.forest := by rw [hS]
  have hcur : S'.cur = S.cur := by rw [hS]
  have hpub : S'.pub = S.pub := by rw [hS]
  have howner : S'.owner = S.owner := by rw [hS]
  have hclearer : S'.clearer = S.clearer := by rw [hS]
  have hdue : S'.due = S.due := by rw [hS]
  have hsub : ∀ {n}, n ∈ m.freed → n ∈ m'.freed := by
    intro n hn
    rcases h.freed with h1 | ⟨x, h1, -⟩
    · rwa [h1]
    · rw [h1]
      exact List.mem_append_left _ hn
  refine
    { fate := fun {n} hn => ?_
      retired_nodup := by rw [h.retired]; exact hi.ledger.retired_nodup
      freed_nodup := ?_
      retired := by rw [h.retired, hpub, hdue, h.latch]; exact hi.ledger.retired
      freed := fun {n} hn => ?_
      due := by rw [hdue, hpub, hforest, howner, h.latch]; exact hi.ledger.due
      cleared := by rw [hcur, hclearer, hforest, h.retired]; exact hi.ledger.cleared }
  · rw [hforest, hdue, h.retired]
    rcases h.priv n with ⟨h1, h2⟩ | ⟨-, -, h1⟩ | ⟨h1, -⟩
    · rw [h1]
      rcases hi.ledger.fate (h2 hn) with h3 | h3 | h3 | h3 | h3
      · exact .inl h3
      · exact .inr (.inl h3)
      · exact .inr (.inr (.inl h3))
      · exact .inr (.inr (.inr (.inl h3)))
      · exact .inr (.inr (.inr (.inr (hsub h3))))
    · exact .inr (.inr (.inr (.inr h1)))
    · exact .inl (by simp [h1])
  · rcases h.freed with h1 | ⟨x, h1, h2, -⟩
    · rw [h1]
      exact hi.ledger.freed_nodup
    · rw [h1, List.nodup_append]
      refine ⟨hi.ledger.freed_nodup, by simp, ?_⟩
      simp only [List.mem_singleton]
      rintro a ha _ rfl rfl
      simp [(hi.ledger.freed ha).2.2] at h2
  · rw [hpub]
    have hcase : n ∈ m.freed ∨ S.priv n = some t ∧ S'.priv n = none := by
      rcases h.freed with h1 | ⟨x, h1, h2, h3⟩
      · rw [h1] at hn
        exact .inl hn
      · rw [h1, List.mem_append, List.mem_singleton] at hn
        rcases hn with hn | rfl
        · exact .inl hn
        · exact .inr ⟨h2, h3⟩
    rcases hcase with hf | ⟨h1, h2⟩
    · obtain ⟨h1, h2, h3⟩ := hi.ledger.freed hf
      refine ⟨lt_of_lt_of_le h1 h.next, h2, ?_⟩
      rcases h.priv n with ⟨h4, -⟩ | ⟨-, h4, -⟩ | ⟨-, -, -, h4, -⟩
      · rw [h4, h3]
      · exact h4
      · exact absurd h1 (not_lt.mpr h4)
    · obtain ⟨h3, h4⟩ := hi.priv_lt h1
      exact ⟨lt_of_lt_of_le h3 h.next, h4, h2⟩

lemma inv (h : Scratch t m S m' S') (hi : S.Inv m) : S'.Inv m' := by
  have hS := h.shadow
  have hforest : S'.forest = S.forest := by rw [hS]
  have hcur : S'.cur = S.cur := by rw [hS]
  have hpub : S'.pub = S.pub := by rw [hS]
  have howner : S'.owner = S.owner := by rw [hS]
  have hfollow : S'.follow = S.follow := by rw [hS]
  have hclearer : S'.clearer = S.clearer := by rw [hS]
  refine
    { wf := by rw [hforest]; exact hi.wf
      root := by rw [h.root, hforest, hcur]; exact hi.root
      future := by rw [hforest, hcur]; exact hi.future
      word := ?_, root_word := by rw [h.latch]; exact hi.root_word
      repr := ?_, shows := ?_
      pub_placed := by rw [hforest, hpub]; exact hi.pub_placed
      placed_free := by rw [hforest, hpub, h.latch]; exact hi.placed_free
      obsolete_past := by rw [hforest, hcur, h.latch]; exact hi.obsolete_past
      place_le := by rw [hforest, hcur]; exact hi.place_le
      pub_lt := ?_
      unpub := by rw [hpub, h.latch, howner]; exact hi.unpub
      priv_lt := ?_
      cover := by rw [hforest, hcur, hfollow]; exact hi.cover
      cleared := by rw [hforest, hcur, hclearer, h.latch]; exact hi.cleared
      clearer_past := by rw [hclearer, hcur]; exact hi.clearer_past
      ledger := h.ledger hi
      sane := by rw [h.panicked]; exact hi.sane }
  · intro l
    have := hi.word l
    rwa [WordOk, howner, h.latch]
  · intro n hpl ho
    rw [hforest] at hpl
    rw [howner] at ho
    have hp := hi.pub_placed hpl
    have hlt := hi.pub_lt hp
    rw [h.ty n hlt, h.fields n (by simp [ho]) (by simp [hi.priv_of_pub hp]) hlt, hforest]
    exact hi.repr hpl ho
  · intro n hpl
    rw [hforest] at hpl ⊢
    by_cases ho : S.owner (.node n) = some t
    · exact h.shows n ho hpl
    · have hp := hi.pub_placed hpl
      rw [h.fields n ho (by simp [hi.priv_of_pub hp]) (hi.pub_lt hp)]
      exact hi.shows hpl
  · intro n hn
    rw [hpub] at hn
    exact lt_of_lt_of_le (hi.pub_lt hn) h.next
  · intro n t' hn
    rw [hpub]
    rcases h.priv n with ⟨h1, -⟩ | ⟨-, h1, -⟩ | ⟨-, h1, -, -, h2⟩
    · rw [h1] at hn
      obtain ⟨h2, h3⟩ := hi.priv_lt hn
      exact ⟨lt_of_lt_of_le h2 h.next, h3⟩
    · simp [h1] at hn
    · exact ⟨h2, h1⟩

end Scratch

/-- The memory with other fields of one node. -/
def setFields (m : TreeMem) (n : NodeId) (F : Fields) : TreeMem :=
  { m with fields := Function.update m.fields n F }

lemma scratch_write (hi : S.Inv m) (h : S.owner (.node n) = some t ∨ S.priv n = some t)
    {F : Fields} (hF : S.forest.place n ≠ none → Shows F (S.forest.cont n)) :
    Scratch t m S (setFields m n F) S where
  latch := rfl
  root := rfl
  panicked := rfl
  full := rfl
  retired := rfl
  shadow := rfl
  next := le_rfl
  ty _ _ := rfl
  freed := .inl rfl
  fields n' ho hp _ := by
    have hn : n' ≠ n := by
      rintro rfl
      exact h.elim ho hp
    simp [setFields, hn]
  shows n' _ hpl := by
    by_cases hn : n' = n
    · subst hn
      simpa [setFields] using hF hpl
    · simpa [setFields, hn] using hi.shows hpl
  priv _ := .inl ⟨rfl, id⟩

/-! ## Retirement -/

/-- The shadow after node `n` has been retired. -/
def retire (S : Shadow) (n : NodeId) : Shadow :=
  { S with due := Function.update S.due n none }

/-- The memory after node `n` has been retired. -/
def setRetired (m : TreeMem) (n : NodeId) : TreeMem :=
  { m with retired := m.retired ++ [n] }

/-- A node may be retired by the thread that took it out of its tree, or that clears it. -/
lemma own_retire (h : S.due n = some t ∨ ∃ e p, S.forest.place n = some (e, p) ∧
      S.clearer e = some t ∧ S.due n = none) :
    Own t m S (setRetired m n) (S.retire n) where
  latch _ := .inl ⟨rfl, rfl⟩
  turn _ := .inl rfl
  node _ _ _ _ := ⟨rfl, rfl, rfl⟩
  root _ := ⟨rfl, rfl⟩
  priv _ _ _ := Iff.rfl
  pub _ h := h
  ty _ _ := rfl
  next := le_rfl
  cur := le_rfl
  follow _ _ := rfl
  clearer _ _ _ := Iff.rfl
  due n' t' ht := by
    by_cases hn : n' = n
    · subst hn
      rcases h with h | ⟨-, -, -, -, h⟩
      · simp [retire, h, Ne.symm ht]
      · simp [retire, h]
    · simp [retire, hn]
  full := rfl
  retired n' hn := by
    simp only [setRetired, List.mem_append, List.mem_singleton] at hn
    rcases hn with hn | rfl
    · exact .inl hn
    · exact .inr (h.imp id fun ⟨e, p, h1, h2, _⟩ => ⟨e, p, h1, h2⟩)
  retired_mono n' hn := by simp [setRetired, hn]
  finished _ _ h := h
  roots _ _ := rfl
  moved _ _ _ _ _ _ := .inl rfl
  obsoleted _ _ _ hpl h := .inl ⟨h, hpl⟩

lemma Inv.retire (hi : S.Inv m) (hw : Obsolete (m.latch (.node n))) (hp : S.pub n)
    (hn : n ∉ m.retired) : (S.retire n).Inv (setRetired m n) := by
  have hl := hi.ledger
  have hmem : ∀ {n'}, n' ∈ m.retired → n' ∈ (setRetired m n).retired :=
    fun h => List.mem_append_left _ h
  refine
    { wf := hi.wf, root := hi.root, future := hi.future, word := hi.word
      root_word := hi.root_word, repr := hi.repr, shows := hi.shows
      pub_placed := hi.pub_placed
      placed_free := hi.placed_free, obsolete_past := hi.obsolete_past
      place_le := hi.place_le, pub_lt := hi.pub_lt, unpub := hi.unpub, priv_lt := hi.priv_lt
      cover := hi.cover, cleared := hi.cleared, clearer_past := hi.clearer_past
      sane := hi.sane
      ledger :=
        { fate := fun {n'} hn' => ?_, retired_nodup := ?_, freed_nodup := hl.freed_nodup
          retired := fun {n'} hn' => ?_, freed := hl.freed, due := fun {n' t'} hn' => ?_
          cleared := fun he hc hpl => hmem (hl.cleared he hc hpl) } }
  · by_cases hnn : n' = n
    · subst hnn
      exact .inr (.inr (.inr (.inl (by simp [setRetired]))))
    · simpa [Shadow.retire, setRetired, hnn] using hl.fate hn'
  · simp only [setRetired]
    rw [List.nodup_append]
    refine ⟨hl.retired_nodup, by simp, ?_⟩
    simp only [List.mem_singleton]
    rintro a ha _ rfl rfl
    exact hn ha
  · simp only [setRetired, List.mem_append, List.mem_singleton] at hn'
    rcases hn' with hn' | rfl
    · obtain ⟨h1, h2, h3⟩ := hl.retired hn'
      refine ⟨h1, ?_, h3⟩
      have hnn : n' ≠ n := by
        rintro rfl
        exact hn hn'
      simpa [Shadow.retire, hnn] using h2
    · exact ⟨hp, by simp [Shadow.retire], hw⟩
  · have hnn : n' ≠ n := by
      rintro rfl
      simp [Shadow.retire] at hn'
    exact hl.due (by simpa [Shadow.retire, hnn] using hn')

end Shadow

end Artmap
