import Artmap.Shadow.Step

/-!
# Steps that change the forest

A `Commit` is a step after which the memory stands for another forest: the store that links,
replaces or unlinks something, made by a thread that holds the latches of all the nodes that
change and of the locations of those that move.  It may publish nodes of the thread, and it
settles what the thread still has to follow up.

The other two are the steps of a clear: `detach`, which starts a new epoch, and `finish`, after
which the old one has been cleared.
-/

namespace Artmap

open scoped List

namespace Shadow

variable {t : ℕ} {m m' : TreeMem} {S : Shadow} {F : Forest} {new : List NodeId}
  {f : Option (ℕ × Key)} {n : NodeId} {e : ℕ}

/-- The shadow after a commit of thread `t` to the forest `F` that publishes the nodes `new`.
The nodes that it takes out of their trees are to be retired. -/
def commit (S : Shadow) (t : ℕ) (F : Forest) (new : List NodeId) (f : Option (ℕ × Key)) :
    Shadow :=
  { S with
    forest := F
    pub := fun n => S.pub n ∨ n ∈ new
    priv := fun n => if n ∈ new then none else S.priv n
    follow := Function.update S.follow t f
    due := fun n =>
      if S.forest.place n ≠ none ∧ F.place n = none then some t else S.due n }

/-- Thread `t` may commit to `F`. -/
structure Commit (t : ℕ) (m : TreeMem) (S : Shadow) (m' : TreeMem) (F : Forest)
    (new : List NodeId) (f : Option (ℕ × Key)) : Prop where
  mem : m' = { m with root := m'.root, fields := m'.fields }
  fields : ∀ n, S.owner (.node n) ≠ some t → m'.fields n = m.fields n
  wf : F.WF
  root : m'.root = F.root S.cur
  roots : ∀ e, (e = S.cur → S.owner .root ≠ some t) → F.root e = S.forest.root e
  same : ∀ n, S.owner (.node n) ≠ some t → n ∉ new →
    F.cont n = S.forest.cont n ∧ F.place n = S.forest.place n
  moved : ∀ n ℓ e p, S.forest.At ℓ e p → S.forest.slot ℓ = .node n →
    F.place n = S.forest.place n ∨
      match ℓ with
      | .root e => e = S.cur
      | .child x _ => S.owner (.node x) = some t
  /-- Nothing comes back into a tree. -/
  placed : ∀ n, n ∉ new → F.place n ≠ none → S.forest.place n ≠ none
  new_ok : ∀ n, n ∈ new → S.priv n = some t ∧ F.place n ≠ none ∧
    Repr (m.ty n) (m.fields n) (F.cont n)
  /-- The latched nodes of the forest show their contents. -/
  shows : ∀ n, S.owner (.node n) = some t → F.place n ≠ none → Shows (m'.fields n) (F.cont n)
  epoch : ∀ n e p, S.owner (.node n) = some t ∨ n ∈ new → F.place n = some (e, p) →
    e ≤ S.cur ∧ (e < S.cur → S.clearer e ≠ none)
  cover : ∀ n p, F.place n = some (S.cur, p) → (F.cont n).Empty →
    ∃ t' k, Function.update S.follow t f t' = some (S.cur, k) ∧ p ++ F.pre n <+: k

namespace Commit

lemma not_new (h : Commit t m S m' F new f) (hi : S.Inv m) (hp : S.pub n) : n ∉ new := by
  intro hn
  have := hi.priv_of_pub hp
  simp [(h.new_ok n hn).1] at this

lemma own (h : Commit t m S m' F new f) (hi : S.Inv m) :
    Own t m S m' (S.commit t F new f) where
  latch l := .inl ⟨by rw [h.mem], rfl⟩
  turn l := .inl (by rw [h.mem])
  node n ho hp hpp := by
    have hn : n ∉ new := fun hn => hp (h.new_ok n hn).1
    obtain ⟨h1, h2⟩ := h.same n ho hn
    exact ⟨h.fields n ho, h1, h2⟩
  root ho := by
    refine ⟨?_, rfl⟩
    rw [h.root, h.roots _ fun _ => ho, hi.root]
  priv n t' ht := by
    by_cases hn : n ∈ new
    · simp [commit, hn, (h.new_ok n hn).1, Ne.symm ht]
    · simp [commit, hn]
  pub n hn := .inl hn
  ty n _ := by rw [h.mem]
  next := by rw [h.mem]
  cur := le_rfl
  follow t' ht := by simp [commit, ht]
  clearer _ _ _ := Iff.rfl
  due n t' ht := by
    by_cases hn : S.forest.place n ≠ none ∧ F.place n = none
    · have hdue : S.due n ≠ some t' := fun hd => hn.1 (hi.ledger.due hd).2.1
      simp [commit, hn, hdue, Ne.symm ht]
    · simp only [commit, if_neg hn]
  full := by rw [h.mem]
  retired n hn := by
    left
    rwa [h.mem] at hn
  retired_mono n hn := by rwa [h.mem]
  finished _ _ h := h
  roots e he := h.roots e fun hc => by omega
  moved := h.moved
  obsoleted n e p hpl hw := by
    left
    rw [h.mem] at hw
    have hw' : Obsolete (m.latch (.node n)) := hw
    have hnew : n ∉ new := by
      intro hn
      obtain ⟨h1, -⟩ := hi.unpub (hi.priv_lt (h.new_ok n hn).1).2
      unfold Obsolete at hw'
      omega
    have hsame := h.same n (by simp [hi.owner_of_obsolete hw']) hnew
    exact ⟨hw', hsame.2.symm.trans hpl⟩

lemma ledger (h : Commit t m S m' F new f) (hi : S.Inv m) :
    (S.commit t F new f).Ledger m' := by
  have hl := hi.ledger
  have hlatch : m'.latch = m.latch := by rw [h.mem]
  have hnext : m'.next = m.next := by rw [h.mem]
  have hretired : m'.retired = m.retired := by rw [h.mem]
  have hfreed : m'.freed = m.freed := by rw [h.mem]
  have howner : ∀ {n}, Obsolete (m.latch (.node n)) → S.owner (.node n) ≠ some t := by
    intro n hw
    simp [hi.owner_of_obsolete hw]
  refine
    { fate := fun {n} hn => ?_
      retired_nodup := by rw [hretired]; exact hl.retired_nodup
      freed_nodup := by rw [hfreed]; exact hl.freed_nodup
      retired := fun {n} hn => ?_, freed := fun {n} hn => ?_, due := fun {n t'} hn => ?_
      cleared := fun {n e p} he hc hpl => ?_ }
  · rw [hnext] at hn
    rw [hretired, hfreed]
    by_cases hnew : n ∈ new
    · exact .inr (.inl (h.new_ok n hnew).2.1)
    · by_cases hgone : S.forest.place n ≠ none ∧ F.place n = none
      · exact .inr (.inr (.inl (by simp [commit, hgone])))
      · simp only [commit, hnew, if_false, if_neg hgone]
        rcases hl.fate hn with h1 | h1 | h1
        · exact .inl h1
        · exact .inr (.inl fun h2 => hgone ⟨h1, h2⟩)
        · exact .inr (.inr h1)
  · rw [hretired] at hn
    obtain ⟨h1, h2, h3⟩ := hl.retired hn
    refine ⟨.inl h1, ?_, by rwa [hlatch]⟩
    have hsame := (h.same n (howner h3) (h.not_new hi h1)).2
    simp only [commit, hsame]
    rw [if_neg fun hc => hc.1 hc.2]
    exact h2
  · rw [hfreed] at hn
    obtain ⟨h1, h2, h3⟩ := hl.freed hn
    have hnew : n ∉ new := by
      intro hnew
      simp [(h.new_ok n hnew).1] at h3
    refine ⟨by rwa [hnext], fun hp => hp.elim h2 hnew, ?_⟩
    simpa only [commit, hnew, if_false] using h3
  · rw [hlatch]
    by_cases hgone : S.forest.place n ≠ none ∧ F.place n = none
    · simp only [commit, if_pos hgone, Option.some.injEq] at hn
      subst hn
      refine ⟨.inl (hi.pub_placed hgone.1), hgone.2, .inl ?_⟩
      by_contra ho
      have hnew := h.not_new hi (hi.pub_placed hgone.1)
      exact hgone.1 ((h.same n ho hnew).2.symm.trans hgone.2)
    · simp only [commit, if_neg hgone] at hn
      obtain ⟨h1, h2, h3⟩ := hl.due hn
      refine ⟨.inl h1, ?_, h3⟩
      by_contra hpl
      exact h.placed n (h.not_new hi h1) hpl h2
  · rw [hretired]
    by_cases hmine : S.owner (.node n) = some t ∨ n ∈ new
    · exact absurd hc ((h.epoch n e p hmine hpl).2 he)
    · rw [not_or] at hmine
      refine hl.cleared he hc (p := p) ?_
      rw [← (h.same n hmine.1 hmine.2).2]
      exact hpl

lemma inv (h : Commit t m S m' F new f) (hi : S.Inv m) : (S.commit t F new f).Inv m' := by
  have hlatch : m'.latch = m.latch := by rw [h.mem]
  have hty : m'.ty = m.ty := by rw [h.mem]
  have hnext : m'.next = m.next := by rw [h.mem]
  refine
    { wf := h.wf, root := h.root, future := ?_, word := ?_
      root_word := by rw [hlatch]; exact hi.root_word
      repr := ?_, shows := ?_, pub_placed := ?_, placed_free := ?_, obsolete_past := ?_
      place_le := ?_
      pub_lt := ?_, unpub := ?_, priv_lt := ?_, cover := fun h1 h2 => h.cover _ _ h1 h2
      cleared := ?_, clearer_past := hi.clearer_past, ledger := h.ledger hi
      sane := by rw [h.mem]; exact hi.sane }
  · intro e he
    have hne : e ≠ S.cur := Nat.ne_of_gt he
    exact (h.roots e fun hc => absurd hc hne).trans (hi.future e he)
  · intro l
    have := hi.word l
    rwa [WordOk, hlatch]
  · intro n hpl ho
    have ho' : S.owner (.node n) ≠ some t := by
      have : S.owner (.node n) = none := ho
      simp [this]
    rw [hty, h.fields n ho']
    by_cases hn : n ∈ new
    · exact (h.new_ok n hn).2.2
    · obtain ⟨h1, h2⟩ := h.same n ho' hn
      have hpl' : S.forest.place n ≠ none := by
        rw [← h2]
        exact hpl
      show Repr _ _ (F.cont n)
      rw [h1]
      exact hi.repr hpl' ho
  · intro n hpl
    by_cases ho : S.owner (.node n) = some t
    · exact h.shows n ho hpl
    · rw [h.fields n ho]
      by_cases hn : n ∈ new
      · exact (h.new_ok n hn).2.2.shows
      · obtain ⟨h1, h2⟩ := h.same n ho hn
        show Shows _ (F.cont n)
        rw [h1]
        refine hi.shows ?_
        rw [← h2]
        exact hpl
  · intro n hpl
    by_cases ho : S.owner (.node n) = some t
    · exact .inl (hi.pub_of_owner (by simp [ho]))
    · by_cases hn : n ∈ new
      · exact .inr hn
      · left
        refine hi.pub_placed ?_
        rw [← (h.same n ho hn).2]
        exact hpl
  · intro n hp hw
    rw [hlatch] at hw
    have ho : S.owner (.node n) ≠ some t := by simp [hi.owner_of_free hw]
    by_cases hn : n ∈ new
    · exact (h.new_ok n hn).2.1
    · show F.place n ≠ none
      rw [(h.same n ho hn).2]
      exact hi.placed_free (hp.resolve_right hn) hw
  · intro n e p hw hpl
    rw [hlatch] at hw
    have ho : S.owner (.node n) ≠ some t := by simp [hi.owner_of_obsolete hw]
    have hn : n ∉ new := by
      intro hn
      rw [(hi.unpub (hi.priv_lt (h.new_ok n hn).1).2).1] at hw
      simp [Obsolete] at hw
    refine hi.obsolete_past (p := p) hw ?_
    rw [← (h.same n ho hn).2]
    exact hpl
  · intro n e p hpl
    by_cases hmine : S.owner (.node n) = some t ∨ n ∈ new
    · exact (h.epoch n e p hmine hpl).1
    · rw [not_or] at hmine
      refine hi.place_le (n := n) (p := p) ?_
      rw [← (h.same n hmine.1 hmine.2).2]
      exact hpl
  · intro n hp
    rw [hnext]
    rcases hp with hp | hn
    · exact hi.pub_lt hp
    · exact (hi.priv_lt (h.new_ok n hn).1).1
  · intro n hp
    rw [hlatch]
    exact hi.unpub fun hp' => hp (.inl hp')
  · intro n t' hp
    rw [hnext]
    by_cases hn : n ∈ new
    · simp [commit, hn] at hp
    · simp only [commit, hn, if_false] at hp
      obtain ⟨h1, h2⟩ := hi.priv_lt hp
      exact ⟨h1, fun hpub => hpub.elim h2 hn⟩
  · intro n e p he hc hpl
    rw [hlatch]
    by_cases hmine : S.owner (.node n) = some t ∨ n ∈ new
    · exact absurd hc ((h.epoch n e p hmine hpl).2 he)
    · rw [not_or] at hmine
      refine hi.cleared he hc (p := p) ?_
      rw [← (h.same n hmine.1 hmine.2).2]
      exact hpl

/-- What is frozen stays frozen when a thread commits that is not clearing. -/
lemma frozen (h : Commit t m S m' F new f) (hi : S.Inv m) (hc : S.clearer e ≠ some t) {k : Key}
    (hf : Frozen m S e k) : Frozen m' (S.commit t F new f) e k :=
  (h.own hi).frozen hi (fun _ _ _ _ hce => absurd hce hc) hf

end Commit

/-- A thread whose follow-up has nothing left to do. -/
lemma commit_idle (hi : S.Inv m)
    (hf : ∀ k n p, S.follow t = some (S.cur, k) → f ≠ S.follow t →
      S.forest.place n = some (S.cur, p) → (S.forest.cont n).Empty →
      ¬ p ++ S.forest.pre n <+: k) :
    Commit t m S m S.forest [] f where
  mem := rfl
  fields _ _ := rfl
  wf := hi.wf
  root := hi.root
  roots _ _ := rfl
  same _ _ _ := ⟨rfl, rfl⟩
  moved _ _ _ _ _ _ := .inl rfl
  placed _ _ hpl := hpl
  new_ok n hn := by simp at hn
  shows _ _ hpl := hi.shows hpl
  epoch n e p hn hpl := by
    have ho : S.owner (.node n) = some t := by simpa using hn
    refine ⟨hi.place_le hpl, fun he => hi.clearer_of_held hpl he ?_⟩
    have := hi.word_held ho
    unfold Obsolete
    omega
  cover n p hpl hn := by
    obtain ⟨t', k, h1, h2⟩ := hi.cover hpl hn
    refine ⟨t', k, ?_, h2⟩
    by_cases ht : t' = t
    · subst ht
      rw [Function.update_self]
      by_contra hne
      exact hf k n p h1 (fun heq => hne (heq.trans h1)) hpl hn h2
    · rwa [Function.update_of_ne ht]

/-! ## Epochs -/

/-- The shadow after the root has been detached; `o` is to clear the detached tree. -/
def detach (S : Shadow) (o : Option ℕ) : Shadow :=
  { S with
    cur := S.cur + 1
    clearer := Function.update S.clearer S.cur o }

/-- The shadow after epoch `e` has been cleared. -/
def finish (S : Shadow) (e : ℕ) : Shadow :=
  { S with clearer := Function.update S.clearer e none }

lemma clearer_cur (hi : S.Inv m) : S.clearer S.cur = none := by
  by_contra h
  exact lt_irrefl _ (hi.clearer_past h)

lemma own_detach {o : Option ℕ} (hi : S.Inv m) (hr : S.owner .root = some t)
    (ho : o = some t ∨ o = none) :
    Own t m S { m with root := .null } (S.detach o) where
  latch _ := .inl ⟨rfl, rfl⟩
  turn _ := .inl rfl
  node _ _ _ _ := ⟨rfl, rfl, rfl⟩
  root h := absurd hr h
  priv _ _ _ := Iff.rfl
  pub _ h := h
  ty _ _ := rfl
  next := le_rfl
  cur := Nat.le_succ _
  follow _ _ := rfl
  clearer e t' ht := by
    by_cases he : e = S.cur
    · subst he
      rcases ho with rfl | rfl <;> simp [detach, clearer_cur hi, Ne.symm ht]
    · simp [detach, he]
  due _ _ _ := Iff.rfl
  full := rfl
  retired _ h := .inl h
  retired_mono _ h := h
  finished e he h := by simpa [detach, Nat.ne_of_lt he] using h
  roots _ _ := rfl
  moved _ _ _ _ _ _ := .inl rfl
  obsoleted _ _ _ hpl h := .inl ⟨h, hpl⟩

/-- Somebody has to clear the detached tree, unless it has no node. -/
lemma inv_detach {o : Option ℕ} (hi : S.Inv m)
    (ho : o = none → ∀ n p, S.forest.place n ≠ some (S.cur, p)) :
    (S.detach o).Inv { m with root := .null } where
  wf := hi.wf
  root := (hi.future _ (Nat.lt_succ_self _)).symm
  future e he := hi.future e (lt_trans (Nat.lt_succ_self _) he)
  word := hi.word
  root_word := hi.root_word
  repr := hi.repr
  shows := hi.shows
  pub_placed := hi.pub_placed
  placed_free := hi.placed_free
  obsolete_past hw hpl := lt_trans (hi.obsolete_past hw hpl) (Nat.lt_succ_self _)
  place_le hpl := (hi.place_le hpl).trans (Nat.le_succ _)
  pub_lt := hi.pub_lt
  unpub := hi.unpub
  priv_lt := hi.priv_lt
  cover hpl _ := by
    have := hi.place_le hpl
    simp only [detach] at this
    omega
  cleared {n e p} he hc hpl := by
    by_cases hec : e = S.cur
    · subst hec
      exact absurd hpl (ho (by simpa [detach] using hc) n p)
    · have hlt : e < S.cur + 1 := he
      refine hi.cleared (by omega) ?_ hpl
      simpa [detach, hec] using hc
  clearer_past {e} hc := by
    show e < S.cur + 1
    by_cases hec : e = S.cur
    · omega
    · have := hi.clearer_past (e := e) (by simpa [detach, hec] using hc)
      omega
  ledger :=
    { hi.ledger with
      fate := hi.ledger.fate, retired := hi.ledger.retired, freed := hi.ledger.freed
      due := hi.ledger.due
      cleared := fun {n e p} he hc hpl => by
        by_cases hec : e = S.cur
        · subst hec
          exact absurd hpl (ho (by simpa [detach] using hc) n p)
        · have hlt : e < S.cur + 1 := he
          refine hi.ledger.cleared (by omega) ?_ hpl
          simpa [detach, hec] using hc }
  sane := hi.sane

lemma own_finish (hc : S.clearer e = some t) : Own t m S m (S.finish e) where
  latch _ := .inl ⟨rfl, rfl⟩
  turn _ := .inl rfl
  node _ _ _ _ := ⟨rfl, rfl, rfl⟩
  root _ := ⟨rfl, rfl⟩
  priv _ _ _ := Iff.rfl
  pub _ h := h
  ty _ _ := rfl
  next := le_rfl
  cur := le_rfl
  follow _ _ := rfl
  clearer e' t' ht := by
    by_cases he : e' = e
    · subst he
      simp [finish, hc, Ne.symm ht]
    · simp [finish, he]
  due _ _ _ := Iff.rfl
  full := rfl
  retired _ h := .inl h
  retired_mono _ h := h
  finished e' _ h := by
    by_cases he : e' = e
    · simp [finish, he]
    · simpa [finish, he] using h
  roots _ _ := rfl
  moved _ _ _ _ _ _ := .inl rfl
  obsoleted _ _ _ hpl h := .inl ⟨h, hpl⟩

lemma inv_finish (hi : S.Inv m)
    (hret : ∀ n p, S.forest.place n = some (e, p) → n ∈ m.retired) :
    (S.finish e).Inv m where
  wf := hi.wf
  root := hi.root
  future := hi.future
  word := hi.word
  root_word := hi.root_word
  repr := hi.repr
  shows := hi.shows
  pub_placed := hi.pub_placed
  placed_free := hi.placed_free
  obsolete_past := hi.obsolete_past
  place_le := hi.place_le
  pub_lt := hi.pub_lt
  unpub := hi.unpub
  priv_lt := hi.priv_lt
  cover := hi.cover
  cleared {n e' p} he hc hpl := by
    by_cases hee : e' = e
    · subst hee
      exact (hi.ledger.retired (hret n p hpl)).2.2
    · exact hi.cleared he (by simpa [finish, hee] using hc) hpl
  clearer_past {e'} hc := by
    refine hi.clearer_past (e := e') ?_
    intro hn
    by_cases hee : e' = e
    · subst hee
      simp [finish] at hc
    · simp [finish, hee, hn] at hc
  ledger :=
    { hi.ledger with
      fate := hi.ledger.fate, retired := hi.ledger.retired, freed := hi.ledger.freed
      due := hi.ledger.due
      cleared := fun {n e' p} he hc hpl => by
        by_cases hee : e' = e
        · subst hee
          exact hret n p hpl
        · exact hi.ledger.cleared he (by simpa [finish, hee] using hc) hpl }
  sane := hi.sane

end Shadow

/-! ## Nodes that become empty -/

/-- A node has lost its last entry. -/
def Vacates (m m' : TreeMem) : Prop :=
  ∃ n, ¬ HoldsNothing (m.fields n) ∧ HoldsNothing (m'.fields n)

namespace Forest

/-- A node that is placed in both forests has lost its last entry. -/
def Vacates (F G : Forest) : Prop :=
  ∃ n, F.place n ≠ none ∧ G.place n ≠ none ∧ ¬ (F.cont n).Empty ∧ (G.cont n).Empty

lemma Vacates.vacates {m m' : TreeMem} {S S' : Shadow} (h : S.forest.Vacates S'.forest)
    (hi : S.Inv m) (hi' : S'.Inv m') : Artmap.Vacates m m' := by
  obtain ⟨n, h1, h2, h3, h4⟩ := h
  exact ⟨n, mt (hi.shows h1).holdsNothing_iff.mp h3, (hi'.shows h2).holdsNothing_iff.mpr h4⟩

end Forest

end Artmap
