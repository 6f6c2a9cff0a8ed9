import Artmap.Tree.Know

/-!
# Rules for loads, latches and node programs

The rules speak about worlds in which thread `t` knows `Γ` about the tree and the assertion `P`
about the client's side (`Client.At`).  A load may come with a step of the client, which is how
an operation takes effect at the moment of a load.

A node program on a node that was only *seen* reads at different moments, and its answer is
right only if the node has not changed in between.  `Promise n v φ` says that `φ` holds if the
word of node `n` is still `v`; it is redeemed by a validation.
-/

namespace Artmap

open scoped List

namespace Client

open Shadow (Knows Seen Grasped)

variable {C : Client} {live : Bool} {t : ℕ} {Γ : Know} {P R : C.Assertion t} {x y : C.W}
  {α : Type} {n : NodeId} {s : Sight} {g : Grasp} {v : ℕ} {φ : Prop}

/-- Thread `t` knows `Γ` about the tree, and `P` holds. -/
structure At (live : Bool) (t : ℕ) (Γ : Know) (P : C.Assertion t) (x : C.W) : Prop where
  knows : Knows live t Γ (tree x) (shadow x)
  client : P (scene x)

lemma At.later {m : TreeMem} {S : Shadow} (hk : Knows live t Γ m S) (hi : S.Inv m)
    (hy : Later live t m S y) (hP : P (scene y)) : C.At live t Γ P y :=
  ⟨hk.rely hi hy.rely hy.alone, hP⟩

lemma ok_tree (hok : C.rg.Ok live t x) : (shadow x).Inv (tree x) :=
  WInv.tree hok.inv

lemma ok_client (hok : C.rg.Ok live t x) : C.Inv (scene x) :=
  WInv.client hok.inv

/-- Alone, the thread itself holds whatever is held. -/
lemma ok_owner (hok : C.rg.Ok live t x) (hl : live = true) {l : LatchId} {t' : ℕ}
    (h : (shadow x).owner l = some t') : t' = t := by
  by_contra ht
  exact (WInv.idle hok.inv t' (hok.calm hl t' ht)).owner l h

lemma ok_clearer (hok : C.rg.Ok live t x) (hl : live = true) {e t' : ℕ}
    (h : (shadow x).clearer e = some t') : t' = t := by
  by_contra ht
  exact (WInv.idle hok.inv t' (hok.calm hl t' ht)).clearer e h

/-! ## Loads -/

/-- A load, with a step of the client. -/
lemma wp_load {a : TreeAct} (hx : C.At live t Γ P x) (ha : (execTree a (tree x)).2 = tree x)
    (hupd : C.Inv (scene x) → Upd t (scene x) (scene x).leafs (scene x).view R) :
    C.rg.wp live t (onTree a) (fun r y => r = (execTree a (tree x)).1 ∧ C.At live t Γ R y ∧
      Later live t (tree x) (shadow x) y) x := by
  refine RG.wp_intro fun hok => ?_
  have hi := ok_tree hok
  have hown : Shadow.Own t (tree x) (shadow x) (tree x) (shadow x) := .refl hi
  refine wp_tree (S := shadow x) (P := R) hok (by rwa [ha]) (by rwa [ha]) ?_ ?_ ?_ ?_
  · exact hupd (ok_client hok)
  · rw [ha]
    exact fun _ _ h => h
  · exact fun e k h1 h2 => absurd h1 h2
  · intro y hy hP
    rw [ha] at hy
    exact ⟨rfl, .later hx.knows hi hy hP, hy⟩

/-- A load. -/
lemma wp_load' {a : TreeAct} (hx : C.At live t Γ P x) (ha : (execTree a (tree x)).2 = tree x) :
    C.rg.wp live t (onTree a) (fun r y => r = (execTree a (tree x)).1 ∧ C.At live t Γ P y ∧
      Later live t (tree x) (shadow x) y) x :=
  wp_load hx ha fun hi => .rfl hi hx.client

lemma wp_loadLatch (hx : C.At live t Γ P x) (l : LatchId) :
    C.rg.wp live t (onTree (.loadLatch l)) (fun r y => r = (tree x).latch l ∧
      C.At live t Γ P y ∧ Later live t (tree x) (shadow x) y) x :=
  wp_load' hx rfl

lemma wp_loadRoot (hx : C.At live t Γ P x) :
    C.rg.wp live t (onTree .loadRoot) (fun r y => r = (tree x).root ∧
      C.At live t Γ P y ∧ Later live t (tree x) (shadow x) y) x :=
  wp_load' hx rfl

lemma wp_nodeType (hx : C.At live t Γ P x) (n : NodeId) :
    C.rg.wp live t (onTree (.nodeType n)) (fun r y => r = (tree x).ty n ∧
      C.At live t Γ P y ∧ Later live t (tree x) (shadow x) y) x :=
  wp_load' hx rfl

/-! ## Steps that the client does not see -/

/-- A step on the tree that leaves the maps alone. -/
lemma wp_quiet_later {a : TreeAct} {Δ : Know} {S : Shadow} (hx : C.At live t Γ P x)
    (hok : C.rg.Ok live t x)
    (hown : Shadow.Own t (tree x) (shadow x) (execTree a (tree x)).2 S)
    (hinv : S.Inv (execTree a (tree x)).2) (hcur : S.cur = (shadow x).cur)
    (hmap : S.forest.map = (shadow x).forest.map) (hfollow : S.follow = (shadow x).follow)
    (hfrozen : ∀ e k, (shadow x).Frozen (tree x) e k → S.Frozen (execTree a (tree x)).2 e k)
    (hk : Knows live t Δ (execTree a (tree x)).2 S)
    (hclearer : S.clearer = (shadow x).clearer := by rfl) :
    C.rg.wp live t (onTree a) (fun r y => r = (execTree a (tree x)).1 ∧ C.At live t Δ P y ∧
      Later live t (execTree a (tree x)).2 S y) x := by
  have hupd : Upd t (scene x) (scene x).leafs
      { (scene x).view with cur := S.cur, map := S.forest.map } P := by
    rw [hcur, hmap]
    exact Upd.rfl (ok_client hok) hx.client
  refine wp_tree (S := S) (P := P) hok hown hinv hupd hfrozen ?_ ?_ hclearer
  · intro e k h1 h2
    rw [hfollow] at h1
    exact absurd h1 h2
  · exact fun y hy hP => ⟨rfl, .later hk hinv hy hP, hy⟩

lemma wp_quiet {a : TreeAct} {Δ : Know} {S : Shadow} (hx : C.At live t Γ P x)
    (hok : C.rg.Ok live t x)
    (hown : Shadow.Own t (tree x) (shadow x) (execTree a (tree x)).2 S)
    (hinv : S.Inv (execTree a (tree x)).2) (hcur : S.cur = (shadow x).cur)
    (hmap : S.forest.map = (shadow x).forest.map) (hfollow : S.follow = (shadow x).follow)
    (hfrozen : ∀ e k, (shadow x).Frozen (tree x) e k → S.Frozen (execTree a (tree x)).2 e k)
    (hk : Knows live t Δ (execTree a (tree x)).2 S)
    (hclearer : S.clearer = (shadow x).clearer := by rfl) :
    C.rg.wp live t (onTree a) (fun r y => r = (execTree a (tree x)).1 ∧ C.At live t Δ P y) x :=
  RG.wp_mono (wp_quiet_later hx hok hown hinv hcur hmap hfollow hfrozen hk hclearer)
    fun _ _ _ h => ⟨h.1, h.2.1⟩

/-- What is frozen stays frozen when a thread steps that is not clearing. -/
lemma frozen_of_own {m : TreeMem} {S : Shadow} (hx : C.At live t Γ P x)
    (hok : C.rg.Ok live t x) (hc : Γ.clear = none)
    (hown : Shadow.Own t (tree x) (shadow x) m S) {e : ℕ} {k : Key}
    (hf : (shadow x).Frozen (tree x) e k) : S.Frozen m e k := by
  refine hown.frozen (ok_tree hok) (fun n q _ _ hce => ?_) hf
  have := (hx.knows.clear e).mp hce
  simp [hc] at this

/-! ## Latches -/

lemma wp_readVersion (hx : C.At live t Γ P x) (l : LatchId) :
    C.rg.wp live t (readVersion l) (fun r y => (∀ v, r = some v → Free v ∧ v = (tree x).latch l) ∧
      (r = none → ¬ Free ((tree x).latch l)) ∧ C.At live t Γ P y ∧
      Later live t (tree x) (shadow x) y) x := by
  refine RG.wp_seq (wp_load' hx rfl) ?_
  rintro r y - ⟨rfl, hy, hlater⟩
  refine RG.wp_ret ⟨?_, ?_, hy, hlater⟩
  · intro v hv
    split at hv
    · rename_i h
      rw [word_free_iff] at h
      simp only [Option.some.injEq] at hv
      exact ⟨hv ▸ h, hv.symm⟩
    · simp at hv
  · intro hv
    split at hv
    · simp at hv
    · rename_i h
      rwa [word_free_iff] at h

/-- Upgrading a node that is published, at a word that vouches for its place. -/
lemma wp_upgrade (hx : C.At live t Γ P x) (hc : Γ.clear = none) (hpub : (shadow x).pub n)
    (hfree : Free v)
    (hplace : (tree x).latch (.node n) = v → (shadow x).forest.place n ≠ none) :
    C.rg.wp live t (tryUpgrade (.node n) v) (fun r y =>
      (r = none → (tree x).latch (.node n) ≠ v ∧ C.At live t Γ P y ∧
        Later live t (tree x) (shadow x) y) ∧
      ∀ w, r = some w → w = v ∧ (tree x).latch (.node n) = v ∧
        Repr ((tree x).ty n) ((tree x).fields n) ((shadow x).forest.cont n) ∧
        C.At live t (Γ.latch n v ⟨(tree x).ty n, (tree x).fields n, (shadow x).forest.cont n,
          (shadow x).forest.place n⟩) P y) x := by
  refine RG.wp_intro fun hok => ?_
  have hi := ok_tree hok
  unfold tryUpgrade
  rw [if_neg (by simpa using (word_free_iff _).mpr hfree)]
  by_cases hw : (tree x).latch (.node n) = v
  · have hexec : execTree (.casLatch (.node n) v (v ||| lockBit)) (tree x) =
        (true, Shadow.setWord (tree x) (.node n) ((tree x).latch (.node n) + 1)) := by
      simp only [execTree, hw, if_true, hfree.or_lock]
      rfl
    have hfree' : Free ((tree x).latch (.node n)) := hw ▸ hfree
    have hown := Shadow.own_acquire (t := t) hi hfree'
    refine RG.wp_seq (wp_quiet (S := (shadow x).acquire t (.node n))
      (Δ := Γ.latch n v ⟨(tree x).ty n, (tree x).fields n, (shadow x).forest.cont n,
        (shadow x).forest.place n⟩) hx hok (by rwa [hexec]) ?_ rfl rfl rfl (fun e k hf => ?_) ?_) ?_
    · rw [hexec]
      exact hi.acquire hfree' fun n' hn' => by
        obtain rfl : n = n' := by simpa using hn'
        exact hpub
    · rw [hexec]
      exact frozen_of_own hx hok hc hown hf
    · rw [hexec, hw]
      have := hx.knows.latch hfree'
      rwa [hw] at this
    · rintro r y - ⟨rfl, hy⟩
      rw [hexec]
      refine RG.wp_ret ⟨fun h => by simp at h, fun w h => ?_⟩
      obtain rfl : v = w := by simpa using h
      exact ⟨rfl, hw, hi.repr (hplace hw) (hi.owner_of_free hfree'), hy⟩
  · have hexec : execTree (.casLatch (.node n) v (v ||| lockBit)) (tree x) =
        (false, tree x) := by
      simp [execTree, hw]
    refine RG.wp_seq (wp_load' hx (by rw [hexec])) ?_
    rintro r y - ⟨rfl, hy, hlater⟩
    rw [hexec]
    exact RG.wp_ret ⟨fun _ => ⟨hw, hy, hlater⟩, fun w h => by simp at h⟩

/-- Alone, a latch that the thread does not hold is free, unless it is obsolete. -/
lemma live_free (hx : C.At live t Γ P x) (hok : C.rg.Ok live t x) (hl : live = true)
    {l : LatchId} (hh : Γ.held l = none) (ho : ¬ Obsolete ((tree x).latch l)) :
    Free ((tree x).latch l) := by
  cases hown : (shadow x).owner l with
  | none => exact ((ok_tree hok).word_none hown).resolve_right ho
  | some t' =>
    rw [ok_owner hok hl hown] at hown
    exact absurd hh (hx.knows.owns l hown)

/-- Waiting for a latch. -/
lemma wp_wait_idle {l : LatchId} (hx : C.At live t Γ P x) (hh : ∀ l, Γ.held l = none) :
    C.rg.wp live t (Prog.perform (Act.wait l)) (fun _ y => C.At live t Γ P y ∧
      Later live t (tree x) (shadow x) y) x := by
  refine RG.wp_intro fun hok => wp_wait (fun l => hx.knows.not_held (hh l)) fun y hy => ?_
  have hlater : Later live t (tree x) (shadow x) y := by
    refine ⟨hy.1.1, fun hl => ?_⟩
    rw [hy.2 hl]
    exact ⟨rfl, rfl⟩
  exact ⟨.later hx.knows (ok_tree hok) hlater (P.stable hy.1.2 hx.client), hlater⟩

/-- Taking a latch by the blocking loop. -/
lemma wp_lock {l : LatchId} (hh : ∀ l, Γ.held l = none) (hp : ∀ n, l = .node n → Γ.Pub n)
    {Q : Option ℕ → C.W → Prop} (hx : C.At live t Γ P x) {I : C.W → Prop} (hI : I x)
    (hstable : ∀ y z, C.rg.Ok live t y → C.rg.Ok live t z → Later live t (tree y) (shadow y) z →
      I y → I z)
    (hobs : ∀ y z, C.rg.Ok live t y → I y → Obsolete ((tree y).latch l) → C.At live t Γ P z →
      Later live t (tree y) (shadow y) z → Q none z)
    (htake : ∀ y z, C.At live t Γ P y → C.rg.Ok live t y → I y → Free ((tree y).latch l) →
      Later live t (Shadow.setWord (tree y) l ((tree y).latch l + 1)) ((shadow y).acquire t l) z →
      P (scene z) → Q (some ((tree y).latch l)) z) :
    C.rg.wp live t (lock l) Q x := by
  refine RG.wp_iter (δ := ℕ) (fun _ y => C.At live t Γ P y ∧ I y) (fun _ _ => 0)
    (fun _ y hy => ?_) ⟨hx, hI⟩
  obtain ⟨hy, hIy⟩ := hy
  refine RG.wp_intro fun hok => RG.wp_seq (wp_loadLatch hy l) ?_
  rintro (w : ℕ) z hokz ⟨hwy, hz, hlater⟩
  have hIz := hstable y z hok hokz hlater hIy
  have hword : live = true → (tree z).latch l = w := by
    intro hl
    rw [(hlater.alone hl).1, hwy]
  have hobsz : live = true → w % 4 = 1 → False := by
    intro hl hw
    have hf := live_free hy hok hl (hh l) (by rw [← hwy]; unfold Obsolete; omega)
    rw [← hwy] at hf
    unfold Free at hf
    omega
  have hmod : w % 4 < 2 ∨ Obsolete w := by
    have := (ok_tree hok).word l
    unfold Shadow.WordOk at this
    unfold Free Obsolete at *
    rw [hwy]
    split at this <;> omega
  by_cases ho : w &&& obsoleteBit ≠ 0
  · rw [if_pos ho]
    refine RG.wp_ret (hobs y z hok hIy ?_ hz hlater)
    rw [← hwy]
    exact hmod.resolve_left fun h => ho (word_obsolete_iff.mpr h)
  · rw [if_neg ho]
    have hlt := word_obsolete_iff.mp (not_not.mp ho)
    by_cases hlock : w &&& lockBit = 0
    · have hfree : Free w := by
        have := word_unlocked_iff.mp hlock
        unfold Free
        omega
      rw [if_pos hlock]
      unfold tryUpgrade
      rw [if_neg (by simpa using (word_free_iff _).mpr hfree), hfree.or_lock]
      by_cases hw : (tree z).latch l = w
      · have hexec : execTree (.casLatch l w (w + 1)) (tree z) =
            (true, Shadow.setWord (tree z) l ((tree z).latch l + 1)) := by
          simp only [execTree, hw, if_true]
          rfl
        have hi := ok_tree hokz
        have hfree' : Free ((tree z).latch l) := hw ▸ hfree
        refine RG.wp_bind (RG.wp_seq (K := fun b u => b = true ∧ Q (some w) u) ?_ ?_)
        · refine wp_tree (S := (shadow z).acquire t l) (P := P) hokz ?_ ?_ ?_ ?_ ?_ ?_
          · rw [hexec]
            exact Shadow.own_acquire hi hfree'
          · rw [hexec]
            exact hi.acquire hfree' fun n hn => hz.knows.pub (hp n hn)
          · exact Upd.rfl (ok_client hokz) hz.client
          · intro e k hf
            rw [hexec]
            exact Shadow.frozen_acquire hi hfree' hf
          · exact fun e k h1 h2 => absurd h1 h2
          · intro u hu hP
            rw [hexec] at hu ⊢
            refine ⟨rfl, ?_⟩
            have := htake z u hz hokz hIz hfree' hu hP
            rwa [hw] at this
        · rintro b u - ⟨rfl, hu⟩
          exact RG.wp_ret (RG.wp_ret hu)
      · have hexec : execTree (.casLatch l w (w + 1)) (tree z) = (false, tree z) := by
          simp [execTree, hw]
        refine RG.wp_bind (RG.wp_seq (wp_load' hz (by rw [hexec])) ?_)
        rintro r u hoku ⟨hr, hu, hzu⟩
        rw [hexec] at hr
        subst hr
        refine RG.wp_ret (RG.wp_seq (wp_wait_idle hu hh) ?_)
        rintro _ y' hoky ⟨hy', huy⟩
        exact RG.wp_ret ⟨⟨hy', hstable u y' hoku hoky huy (hstable z u hokz hoku hzu hIz)⟩,
          fun hl => absurd (hword hl) hw⟩
    · rw [if_neg hlock]
      refine RG.wp_seq (wp_wait_idle hz hh) ?_
      rintro _ y' hoky ⟨hy', hzy⟩
      refine RG.wp_ret ⟨⟨hy', hstable z y' hokz hoky hzy hIz⟩, fun hl => (hobsz hl ?_).elim⟩
      by_contra h
      exact hlock (word_unlocked_iff.mpr (by omega))

/-- Taking the latch of a node. -/
lemma wp_lockNode (hx : C.At live t Γ P x) (hh : ∀ l, Γ.held l = none) (hp : Γ.Pub n) :
    C.rg.wp live t (lock (.node n)) (fun r y =>
      (r = none → C.At live t Γ P y ∧ (live = true → Obsolete ((tree y).latch (.node n)))) ∧
      ∀ v, r = some v → ∃ g e p, g.place = some (e, p) ∧ Repr g.ty g.fields g.cont ∧
        C.At live t (Γ.latch n v g) P y ∧ (live = true → ∀ s, Γ.seen n = some s →
          g.ty = s.ty ∧ g.cont = s.cont ∧ e = s.epoch ∧ p = s.path)) x := by
  refine wp_lock (I := fun _ => True) hh ?_ hx trivial (fun _ _ _ _ _ _ => trivial)
    (fun y z _ _ hobs hz hlater => ⟨fun _ => ⟨hz, fun hl => ?_⟩, fun v h => ?_⟩) ?_
  · intro n' hn'
    obtain rfl : n = n' := by simpa using hn'
    exact hp
  · rw [(hlater.alone hl).1]
    exact hobs
  · simp at h
  · intro y z hy hok _ hfree hz hP
    have hi := ok_tree hok
    refine ⟨fun h => by simp at h, fun v hv => ?_⟩
    obtain rfl : (tree y).latch (.node n) = v := by simpa using hv
    have hpl := hi.placed_free (hy.knows.pub hp) hfree
    obtain ⟨⟨e, p⟩, hep⟩ := Option.ne_none_iff_exists'.mp hpl
    have hinv := hi.acquire (t := t) hfree (l := .node n) fun n' hn' => by
      obtain rfl : n = n' := by simpa using hn'
      exact hy.knows.pub hp
    refine ⟨⟨(tree y).ty n, (tree y).fields n, _, _⟩, e, p, hep,
      hi.repr hpl (hi.owner_of_free hfree), .later (hy.knows.latch hfree) hinv hz hP, ?_⟩
    intro hl s hs
    have hseen := hy.knows.seen n s hs
    obtain ⟨h1, h2⟩ := hseen.right (hseen.alone hl)
    rw [hep] at h2
    simp only [Option.some.injEq, Prod.mk.injEq] at h2
    exact ⟨hseen.ty, h1, h2.1, h2.2⟩

/-- Taking the latch of the root, which is never obsolete. -/
lemma wp_lockRoot (hx : C.At live t Γ P x) (hh : ∀ l, Γ.held l = none) :
    C.rg.wp live t (lock .root) (fun r y => ∃ v rt e, r = some v ∧
      C.At live t (Γ.latchRoot v rt e) P y ∧
      (live = true → ∀ rt' e', Γ.top = some (rt', e') → rt = rt' ∧ e = e')) x := by
  refine RG.wp_mono (wp_lock (I := fun _ => True) hh (by simp) hx trivial
    (fun _ _ _ _ _ _ => trivial)
    (Q := fun r y => (r = none → False) ∧ ∀ v, r = some v → ∃ rt e,
      C.At live t (Γ.latchRoot v rt e) P y ∧
      (live = true → ∀ rt' e', Γ.top = some (rt', e') → rt = rt' ∧ e = e')) ?_ ?_) ?_
  · exact fun y z hok _ hobs _ _ => absurd hobs (ok_tree hok).root_word
  · intro y z hy hok _ hfree hz hP
    have hi := ok_tree hok
    refine ⟨fun h => by simp at h, fun v hv => ?_⟩
    obtain rfl : (tree y).latch .root = v := by simpa using hv
    have hinv := hi.acquire (t := t) hfree (l := .root) (by simp)
    refine ⟨_, _, .later (hy.knows.latchRoot hfree) hinv hz hP, fun hl rt' e' htop => ?_⟩
    exact hy.knows.top rt' e' htop (.inl hl)
  · rintro r y - ⟨h1, h2⟩
    cases r with
    | none => exact (h1 rfl).elim
    | some v =>
      obtain ⟨rt, e, h3, h4⟩ := h2 v rfl
      exact ⟨v, rt, e, rfl, h3, h4⟩

/-- Releasing a node that stays in its tree. -/
lemma wp_unlock (hx : C.At live t Γ P x) (hc : Γ.clear = none) (hh : Γ.held (.node n) = some v)
    (hg : Γ.grasp n = some g) {e : ℕ} {p : List Byte} (hp : g.place = some (e, p))
    (hr : Repr g.ty g.fields g.cont) :
    C.rg.wp live t (unlock (.node n) v) (fun r y => r = v + 4 ∧
      C.At live t (Γ.unlatch n (some ⟨v + 4, g.ty, g.cont, e, p⟩)) P y) x := by
  refine RG.wp_intro fun hok => ?_
  have hi := ok_tree hok
  obtain ⟨hfree, ho, hw⟩ := hx.knows.held _ v hh
  have hn := hx.knows.grasp n g hg
  have hown := Shadow.own_release hi hfree ho hw
  have hinv := hi.release hfree ho fun n' hn' => by
    obtain rfl : n = n' := by simpa using hn'
    rw [hn.place, hp, hn.ty, hn.fields, hn.cont]
    exact ⟨by simp, hr⟩
  refine RG.wp_seq (wp_quiet (S := (shadow x).release (.node n))
    (Δ := Γ.unlatch n (some ⟨v + 4, g.ty, g.cont, e, p⟩)) hx hok hown hinv rfl rfl rfl
    (fun e k hf => frozen_of_own hx hok hc hown hf) ?_) ?_
  · refine hx.knows.unlatch fun s hs => ?_
    simp only [Option.some.injEq] at hs
    subst hs
    refine ⟨hi.pub_of_owner (by simp [ho]), hn.ty, by unfold Free at hfree ⊢; simp; omega,
      by simp [Shadow.setWord, versionStep], fun _ => by simp [Shadow.setWord, versionStep],
      fun _ => ⟨hn.cont, ?_⟩⟩
    exact hn.place.trans hp
  · rintro r y - ⟨-, hy⟩
    exact RG.wp_ret ⟨rfl, hy⟩

/-- Releasing the root. -/
lemma wp_unlockRoot_later (hx : C.At live t Γ P x) (hh : Γ.held .root = some v) :
    C.rg.wp live t (unlock .root v) (fun _ y => C.At live t Γ.unlatchRoot P y ∧
      ((shadow x).release .root).Inv (Shadow.setWord (tree x) .root (v + 4)) ∧
      Later live t (Shadow.setWord (tree x) .root (v + 4)) ((shadow x).release .root) y) x := by
  refine RG.wp_intro fun hok => ?_
  have hi := ok_tree hok
  obtain ⟨hfree, ho, hw⟩ := hx.knows.held _ v hh
  have hown := Shadow.own_release hi hfree ho hw
  have hinv := hi.release hfree ho fun n hn => by simp at hn
  refine RG.wp_seq (wp_quiet_later (S := (shadow x).release .root) (Δ := Γ.unlatchRoot) hx hok
    hown hinv rfl rfl rfl (fun e k hf => ?_) hx.knows.unlatchRoot) ?_
  · refine hown.frozen hi (fun n q _ ho' hce => ⟨⟨rfl, rfl, rfl⟩, .inr ⟨?_, hce⟩⟩) hf
    simpa [Shadow.release] using ho'
  · rintro r y - ⟨-, hy, hlater⟩
    exact RG.wp_ret ⟨hy, hinv, hlater⟩

lemma wp_unlockRoot (hx : C.At live t Γ P x) (hh : Γ.held .root = some v) :
    C.rg.wp live t (unlock .root v) (fun _ y => C.At live t Γ.unlatchRoot P y) x :=
  RG.wp_mono (wp_unlockRoot_later hx hh) fun _ _ _ hy => hy.1

/-- Making a node obsolete that is in no tree any more. -/
lemma wp_markObsolete (hx : C.At live t Γ P x) (hh : Γ.held (.node n) = some v)
    (hd : Γ.due n) :
    C.rg.wp live t (markObsolete (.node n) v)
      (fun _ y => C.At live t (Γ.unlatch n none) P y) x := by
  refine RG.wp_intro fun hok => ?_
  have hi := ok_tree hok
  obtain ⟨hfree, ho, hw⟩ := hx.knows.held _ v hh
  have hpl : (shadow x).forest.place n = none :=
    (hi.ledger.due ((hx.knows.due n).mpr hd)).2.1
  have hown := Shadow.own_obsolete hi ho hw (by simp [hpl])
  have hinv := hi.obsolete hfree ho (by simp [hpl])
  unfold markObsolete
  rw [hfree.or_obsolete]
  refine RG.wp_mono (wp_quiet (S := (shadow x).release (.node n)) (Δ := Γ.unlatch n none) hx hok
    hown hinv rfl rfl rfl (fun e k hf => ?_) (hx.knows.unlatch (by simp))) ?_
  · exact Shadow.frozen_obsolete hi hfree ho hw (by simp [hpl]) hf
  · exact fun _ y _ hy => hy.2

/-- Retiring a node that the thread took out of its tree. -/
lemma wp_retireNode (hx : C.At live t Γ P x) (hd : Γ.due n) (hh : Γ.held (.node n) = none) :
    C.rg.wp live t (onTree (.retireNode n)) (fun _ y => C.At live t (Γ.retire n) P y) x := by
  refine RG.wp_intro fun hok => ?_
  have hi := ok_tree hok
  have hdue := (hx.knows.due n).mpr hd
  obtain ⟨hpub, -, hw⟩ := hi.ledger.due hdue
  have hobs := hw.resolve_left (hx.knows.not_held hh)
  have hnot : n ∉ (tree x).retired := by
    intro hr
    simp [(hi.ledger.retired hr).2.1] at hdue
  refine RG.wp_mono (wp_quiet (S := (shadow x).retire n) (Δ := Γ.retire n) hx hok
    (Shadow.own_retire (.inl hdue)) (hi.retire hobs hpub hnot) rfl rfl rfl
    (fun e k hf => hf) hx.knows.retire) fun _ y _ hy => hy.2

/-! ## Promises -/

/-- If the word of node `n` is still `v`, then `φ`. -/
structure Promise (live : Bool) (n : NodeId) (v : ℕ) (φ : Prop) (m : TreeMem) : Prop where
  le : v ≤ m.latch (.node n)
  alone : live = true → m.latch (.node n) = v
  right : m.latch (.node n) = v → φ

lemma Promise.mono {φ' : Prop} {m : TreeMem} (h : Promise live n v φ m) (hφ : φ → φ') :
    Promise live n v φ' m :=
  ⟨h.le, h.alone, fun hw => hφ (h.right hw)⟩

lemma Promise.later {m : TreeMem} {S : Shadow} (h : Promise live n v φ m)
    (hy : Later live t m S y) : Promise live n v φ (tree y) where
  le := h.le.trans (hy.rely.latch_mono _)
  alone hl := by
    rw [(hy.alone hl).1]
    exact h.alone hl
  right hw := by
    have := hy.rely.latch_mono (.node n)
    have := h.le
    exact h.right (by omega)

lemma Promise.of_live {m : TreeMem} (h : Promise live n v φ m) (hl : live = true) : φ :=
  h.right (h.alone hl)

/-- What was seen is promised. -/
lemma promise_of_seen {m : TreeMem} {S : Shadow} (h : Seen live m S n s) :
    Promise live n s.v True m :=
  ⟨h.le, h.alone, fun _ => trivial⟩

/-! ## Reading a node that was seen -/

lemma onNode_ld (n : NodeId) (f : Field) (k : f.Val → NodeM α) :
    onNode n (.ld f k) = (onTree (.loadField n f)).bind fun v => onNode n (k v) := rfl

lemma onNode_st (n : NodeId) (f : Field) (v : f.Val) (k : NodeM α) :
    onNode n (.st f v k) = (onTree (.storeField n f v)).bind fun _ => onNode n k := rfl

lemma wp_onNode_seen_from {F : Fields} {p : NodeM α} {A : α → Prop} (hp : p.Yields A)
    (hs : Γ.seen n = some s) (hx : C.At live t Γ P x)
    (hφ : Promise live n s.v φ (tree x))
    (hF : (tree x).latch (.node n) = s.v → (tree x).fields n = F) :
    C.rg.wp live t (onNode n p) (fun a y => C.At live t Γ P y ∧ A a ∧
      Promise live n s.v (φ ∧ p.run F = some (a, F)) (tree y)) x := by
  induction p generalizing x φ with
  | ret a => exact RG.wp_ret ⟨hx, hp, hφ.mono fun h => ⟨h, rfl⟩⟩
  | ld f k ih =>
    rw [onNode_ld]
    refine RG.wp_intro fun hok => RG.wp_seq (wp_load' hx rfl) ?_
    rintro r y hok' ⟨rfl, hy, hlater⟩
    have hi := ok_tree hok
    have hseen := hx.knows.seen n s hs
    -- The loaded value is the promised one if the word has not changed so far.
    have hφ' : Promise live n s.v (φ ∧ (tree x).fields n f = F f) (tree y) := by
      refine Promise.later ⟨hφ.le, hφ.alone, fun hw => ⟨hφ.right hw, ?_⟩⟩ hlater
      rw [hF hw]
    refine RG.wp_mono (ih _ (hp _) hy hφ' ?_) ?_
    · intro hw
      have h1 := hlater.rely.latch_mono (.node n)
      have h2 := hseen.le
      have hw' : (tree x).latch (.node n) = s.v := by omega
      have ho := hi.owner_of_free (l := .node n) (by rw [hw']; exact hseen.free)
      rw [(hlater.rely.still n hseen.pub ho (by omega)).2.fields]
      exact hF hw'
    · rintro a z - ⟨hz, ha, hφz⟩
      refine ⟨hz, ha, hφz.mono ?_⟩
      rintro ⟨⟨h1, h2⟩, h3⟩
      refine ⟨h1, ?_⟩
      show NodeM.run (k (F f)) F = _
      rw [← h2]
      exact h3
  | st f v k => exact hp.elim
  | fail => exact hp.elim

/-- A read-only program on a node that was seen. -/
lemma wp_onNode_seen {p : NodeM α} {A : α → Prop} (hp : p.Yields A) (hs : Γ.seen n = some s)
    (hx : C.At live t Γ P x) (hφ : Promise live n s.v φ (tree x)) :
    C.rg.wp live t (onNode n p) (fun a y => C.At live t Γ P y ∧ A a ∧
      Promise live n s.v (φ ∧ ∃ F, Repr s.ty F s.cont ∧ p.run F = some (a, F)) (tree y)) x := by
  refine RG.wp_intro fun hok => ?_
  have hi := ok_tree hok
  have hseen := hx.knows.seen n s hs
  have hrepr : (tree x).latch (.node n) = s.v →
      Repr s.ty ((tree x).fields n) s.cont := by
    intro hw
    obtain ⟨h1, h2⟩ := hseen.right hw
    have ho := hi.owner_of_free (l := .node n) (by rw [hw]; exact hseen.free)
    have := hi.repr (n := n) (by simp [h2]) ho
    rwa [hseen.ty, h1] at this
  have hφ' : Promise live n s.v (φ ∧ Repr s.ty ((tree x).fields n) s.cont) (tree x) :=
    ⟨hφ.le, hφ.alone, fun hw => ⟨hφ.right hw, hrepr hw⟩⟩
  refine RG.wp_mono (wp_onNode_seen_from hp hs hx hφ' fun _ => rfl) ?_
  rintro a y - ⟨hy, ha, hφy⟩
  exact ⟨hy, ha, hφy.mono fun h => ⟨h.1.1, _, h.1.2, h.2⟩⟩

/-- A read-only program on a node that was seen, by its type. -/
lemma wp_typed_seen {p : NodeType → NodeM α} (hp : ∀ ty, (p ty).ReadOnly)
    (hs : Γ.seen n = some s) (hx : C.At live t Γ P x) (hφ : Promise live n s.v φ (tree x)) :
    C.rg.wp live t (typed n p) (fun a y => C.At live t Γ P y ∧
      Promise live n s.v (φ ∧ ∃ F, Repr s.ty F s.cont ∧ (p s.ty).run F = some (a, F)) (tree y))
      x := by
  refine RG.wp_seq (wp_load' hx rfl) ?_
  rintro r y - ⟨rfl, hy, hlater⟩
  have hty : (tree x).ty n = s.ty := (hx.knows.seen n s hs).ty
  show C.rg.wp live t (onNode n (p ((tree x).ty n))) _ _
  rw [hty]
  refine RG.wp_mono (wp_onNode_seen (hp _).yields hs hy (hφ.later hlater)) ?_
  exact fun a z _ hz => ⟨hz.1, hz.2.2⟩

/-! ## Validations -/

/-- A validation, at which the client may take a step. -/
lemma wp_validate_upd (hx : C.At live t Γ P x) (hφ : Promise live n v φ (tree x))
    (hupd : (tree x).latch (.node n) = v → φ → C.Inv (scene x) →
      Upd t (scene x) (scene x).leafs (scene x).view R) :
    C.rg.wp live t (validate (.node n) v) (fun ok y => (ok = true → φ ∧ C.At live t Γ R y) ∧
      (ok = false → live = false ∧ C.At live t Γ P y)) x := by
  by_cases hw : (tree x).latch (.node n) = v
  · refine RG.wp_seq (wp_load hx rfl (hupd hw (hφ.right hw))) ?_
    rintro r y - ⟨rfl, hy, -⟩
    refine RG.wp_ret ⟨fun _ => ⟨hφ.right hw, hy⟩, fun h => ?_⟩
    exact absurd hw (of_decide_eq_false h)
  · refine RG.wp_seq (wp_load' hx rfl) ?_
    rintro r y - ⟨rfl, hy, -⟩
    refine RG.wp_ret ⟨fun h => absurd (of_decide_eq_true h) hw, fun _ => ⟨?_, hy⟩⟩
    cases live with
    | false => rfl
    | true => exact absurd (hφ.alone rfl) hw

/-- A validation. -/
lemma wp_validate (hx : C.At live t Γ P x) (hφ : Promise live n v φ (tree x)) :
    C.rg.wp live t (validate (.node n) v) (fun ok y => C.At live t Γ P y ∧ (ok = true → φ) ∧
      (ok = false → live = false) ∧ Later live t (tree x) (shadow x) y) x := by
  refine RG.wp_seq (wp_load' hx rfl) ?_
  rintro r y - ⟨rfl, hy, hlater⟩
  refine RG.wp_ret ⟨hy, fun h => hφ.right (of_decide_eq_true h), fun h => ?_, hlater⟩
  cases live with
  | false => rfl
  | true => exact absurd (hφ.alone rfl) (of_decide_eq_false h)

/-- Upgrading a node that was seen. -/
lemma wp_tryUpgrade (hx : C.At live t Γ P x) (hc : Γ.clear = none) (hs : Γ.seen n = some s)
    (hφ : Promise live n s.v φ (tree x)) :
    C.rg.wp live t (tryUpgrade (.node n) s.v) (fun r y =>
      (r = none → live = false ∧ C.At live t Γ P y) ∧
      ∀ w, r = some w → w = s.v ∧ φ ∧ ∃ F, Repr s.ty F s.cont ∧
        C.At live t (Γ.latch n s.v ⟨s.ty, F, s.cont, some (s.epoch, s.path)⟩) P y) x := by
  have hseen := hx.knows.seen n s hs
  refine RG.wp_mono (wp_upgrade hx hc hseen.pub hseen.free fun hw => by
    simp [(hseen.right hw).2]) fun r y _ h => ⟨fun hr => ?_, fun w hr => ?_⟩
  · obtain ⟨hw, hy, -⟩ := h.1 hr
    cases live with
    | false => exact ⟨rfl, hy⟩
    | true => exact absurd (hφ.alone rfl) hw
  · obtain ⟨rfl, hw, hF, hy⟩ := h.2 w hr
    obtain ⟨h1, h2⟩ := hseen.right hw
    rw [hseen.ty, h1] at hF
    rw [hseen.ty, h1, h2] at hy
    exact ⟨rfl, hφ.right hw, _, hF, hy⟩

end Client

end Artmap
