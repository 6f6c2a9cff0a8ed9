import Artmap.Tree.Client

/-!
# What a thread knows

Between two steps of a thread the others may do as they like, so what it has read may be out
of date.  `Know` collects what thread `t` does know about the tree, `Knows` says that it is so,
and `Knows.rely` that the steps of others do not change it:

* a node that was *seen* at a version is still as it was then, if its word has not changed;
* a node whose latch the thread holds, or that it has not published, is what the thread has
  made of it;
* epochs only increase, and published nodes stay published.

When the thread runs alone (`live`), a node that was seen has not changed, nor has the whole
tree as long as the thread has not touched it (`base`).

The lemmas about own steps say how knowledge changes along with them.
-/

namespace Artmap

open scoped List

/-- What was seen of a node: its version, and what it is at that version. -/
structure Sight where
  v : ℕ
  ty : NodeType
  cont : Content
  epoch : ℕ
  path : List Byte

/-- What is known of a latched node. -/
structure Grasp where
  ty : NodeType
  fields : Fields
  cont : Content
  place : Option (ℕ × List Byte)

/-- The knowledge of a thread. -/
structure Know where
  /-- An epoch that has begun. -/
  lo : ℕ
  /-- Published nodes. -/
  known : NodeId → Prop
  seen : NodeId → Option Sight
  /-- The root and its epoch, while the root is latched or the thread is alone. -/
  top : Option (Slot × ℕ)
  /-- The version at which a latch was taken. -/
  held : LatchId → Option ℕ
  grasp : NodeId → Option Grasp
  priv : NodeId → Option (NodeType × Fields)
  follow : Option (ℕ × Key)
  clear : Option ℕ
  /-- The nodes that the thread is to retire. -/
  due : NodeId → Prop
  /-- The tree as it was, as long as the thread has not touched it. -/
  base : Option (TreeMem × Shadow)
  /-- What the forest is like, as long as the thread is alone. -/
  aim : Option (Forest → Prop)

/-- A node that is known to be published. -/
def Know.Pub (Γ : Know) (n : NodeId) : Prop :=
  Γ.known n ∨ Γ.seen n ≠ none

/-- What a thread knows that has just started. -/
def Know.start (m : TreeMem) (S : Shadow) : Know where
  lo := S.cur
  known := fun _ => False
  seen := fun _ => none
  top := none
  held := fun _ => none
  grasp := fun _ => none
  priv := fun _ => none
  follow := none
  clear := none
  due := fun _ => False
  base := some (m, S)
  aim := none

namespace Shadow

variable {live : Bool} {t : ℕ} {Γ : Know} {m m' : TreeMem} {S S' : Shadow} {n : NodeId}
  {l : LatchId} {v : ℕ} {s : Sight}

/-- A sight is right as long as the word of the node has not changed. -/
structure Seen (live : Bool) (m : TreeMem) (S : Shadow) (n : NodeId) (s : Sight) : Prop where
  pub : S.pub n
  ty : m.ty n = s.ty
  free : Free s.v
  le : s.v ≤ m.latch (.node n)
  alone : live = true → m.latch (.node n) = s.v
  right : m.latch (.node n) = s.v →
    S.forest.cont n = s.cont ∧ S.forest.place n = some (s.epoch, s.path)

/-- Thread `t` has latched node `n`, and it is as known. -/
structure Grasped (t : ℕ) (m : TreeMem) (S : Shadow) (n : NodeId) (g : Grasp) : Prop where
  owner : S.owner (.node n) = some t
  ty : m.ty n = g.ty
  fields : m.fields n = g.fields
  cont : S.forest.cont n = g.cont
  place : S.forest.place n = g.place

/-- Nothing that has been published has changed. -/
structure Untouched (m₀ : TreeMem) (S₀ : Shadow) (m : TreeMem) (S : Shadow) : Prop where
  root : m.root = m₀.root
  latch : m.latch = m₀.latch
  retired : m.retired = m₀.retired
  forest : S.forest = S₀.forest
  cur : S.cur = S₀.cur
  pub : S.pub = S₀.pub
  fields : ∀ n, S₀.pub n → m.ty n = m₀.ty n ∧ m.fields n = m₀.fields n

/-- Thread `t` knows what `Γ` says. -/
structure Knows (live : Bool) (t : ℕ) (Γ : Know) (m : TreeMem) (S : Shadow) : Prop where
  lo : Γ.lo ≤ S.cur
  known : ∀ n, Γ.known n → S.pub n
  seen : ∀ n s, Γ.seen n = some s → Seen live m S n s
  top : ∀ r e, Γ.top = some (r, e) → live = true ∨ Γ.held .root ≠ none →
    m.root = r ∧ S.cur = e
  held : ∀ l v, Γ.held l = some v → Free v ∧ S.owner l = some t ∧ m.latch l = v + 1
  owns : ∀ l, S.owner l = some t → Γ.held l ≠ none
  grasp : ∀ n g, Γ.grasp n = some g → Grasped t m S n g
  priv : ∀ n ty F, Γ.priv n = some (ty, F) → S.priv n = some t ∧ m.ty n = ty ∧ m.fields n = F
  privs : ∀ n, S.priv n = some t → Γ.priv n ≠ none
  follow : S.follow t = Γ.follow
  clear : ∀ e, S.clearer e = some t ↔ Γ.clear = some e
  due : ∀ n, S.due n = some t ↔ Γ.due n
  base : ∀ m₀ S₀, Γ.base = some (m₀, S₀) → live = true → Untouched m₀ S₀ m S
  aim : ∀ A, Γ.aim = some A → live = true → A S.forest

namespace Knows

lemma start (hc : S.Clean t) : Knows live t (Know.start m S) m S where
  lo := le_rfl
  known _ h := h.elim
  seen _ _ h := by simp [Know.start] at h
  top _ _ h := by simp [Know.start] at h
  held _ _ h := by simp [Know.start] at h
  owns l h := absurd h (hc.owner l)
  grasp _ _ h := by simp [Know.start] at h
  priv _ _ _ h := by simp [Know.start] at h
  privs n h := absurd h (hc.priv n)
  follow := hc.follow
  clear e := by simp [Know.start, hc.clearer e]
  due n := by simp [Know.start, hc.due n]
  base m₀ S₀ h _ := by
    obtain ⟨rfl, rfl⟩ : m = m₀ ∧ S = S₀ := by simpa [Know.start] using h
    exact ⟨rfl, rfl, rfl, rfl, rfl, rfl, fun _ _ => ⟨rfl, rfl⟩⟩
  aim _ h := by simp [Know.start] at h

/-- Nothing is left to do. -/
lemma clean (h : Knows live t Γ m S) (hh : ∀ l, Γ.held l = none) (hp : ∀ n, Γ.priv n = none)
    (hf : Γ.follow = none) (hc : Γ.clear = none) (hd : ∀ n, ¬ Γ.due n) : S.Clean t where
  owner l hl := h.owns l hl (hh l)
  priv n hn := h.privs n hn (hp n)
  follow := h.follow.trans hf
  clearer e he := by simpa [hc] using (h.clear e).mp he
  due n hn := hd n ((h.due n).mp hn)

lemma pub (h : Knows live t Γ m S) (hn : Γ.Pub n) : S.pub n := by
  rcases hn with hn | hn
  · exact h.known n hn
  · obtain ⟨s, hs⟩ := Option.ne_none_iff_exists'.mp hn
    exact (h.seen n s hs).pub

lemma not_held (h : Knows live t Γ m S) (hl : Γ.held l = none) : S.owner l ≠ some t :=
  fun ho => h.owns l ho hl

/-- Knowledge survives the steps of others. -/
theorem rely (h : Knows live t Γ m S) (hi : S.Inv m) (hr : Rely t m S m' S')
    (hl : live = true → m' = m ∧ S' = S) : Knows live t Γ m' S' where
  lo := h.lo.trans hr.cur_mono
  known n hn := hr.pub_mono n (h.known n hn)
  seen n s hs := by
    have hn := h.seen n s hs
    refine ⟨hr.pub_mono n hn.pub, (hr.ty n (hi.pub_lt hn.pub)).trans hn.ty, hn.free,
      hn.le.trans (hr.latch_mono _), ?_, ?_⟩
    · intro hlive
      rw [(hl hlive).1]
      exact hn.alone hlive
    · intro hw
      have hle := hr.latch_mono (.node n)
      have hle' := hn.le
      have hw' : m.latch (.node n) = s.v := by omega
      have ho : S.owner (.node n) = none := hi.owner_of_free (by rw [hw']; exact hn.free)
      obtain ⟨-, hsame⟩ := hr.still n hn.pub ho (by omega)
      obtain ⟨h1, h2⟩ := hn.right hw'
      exact ⟨hsame.cont.trans h1, hsame.place.trans h2⟩
  top r e hre hor := by
    obtain ⟨h1, h2⟩ := h.top r e hre hor
    rcases hor with hlive | hheld
    · rw [(hl hlive).1, (hl hlive).2]
      exact ⟨h1, h2⟩
    · obtain ⟨v, hv⟩ := Option.ne_none_iff_exists'.mp hheld
      obtain ⟨h3, h4⟩ := hr.root_held (h.held _ v hv).2.1
      exact ⟨h3.trans h1, h4.trans h2⟩
  held l v hv := by
    obtain ⟨h1, h2, h3⟩ := h.held l v hv
    exact ⟨h1, (hr.owner_iff l).mpr h2, (hr.held l h2).trans h3⟩
  owns l hl := h.owns l ((hr.owner_iff l).mp hl)
  grasp n g hg := by
    have hn := h.grasp n g hg
    have hsame := hr.mine n (.inl hn.owner)
    have hlt := hi.pub_lt (hi.pub_of_owner (n := n) (by simp [hn.owner]))
    exact ⟨(hr.owner_iff _).mpr hn.owner, (hr.ty n hlt).trans hn.ty,
      hsame.fields.trans hn.fields, hsame.cont.trans hn.cont, hsame.place.trans hn.place⟩
  priv n ty F hn := by
    obtain ⟨h1, h2, h3⟩ := h.priv n ty F hn
    exact ⟨(hr.priv_iff n).mpr h1, (hr.ty n (hi.priv_lt h1).1).trans h2,
      (hr.mine n (.inr h1)).fields.trans h3⟩
  privs n hn := h.privs n ((hr.priv_iff n).mp hn)
  follow := hr.follow.trans h.follow
  clear e := (hr.clearer_iff e).trans (h.clear e)
  due n := (hr.due_iff n).trans (h.due n)
  base m₀ S₀ hb hlive := by
    rw [(hl hlive).1, (hl hlive).2]
    exact h.base m₀ S₀ hb hlive
  aim A hA hlive := by
    rw [(hl hlive).2]
    exact h.aim A hA hlive

end Knows

end Shadow

/-! ## Own steps -/

namespace Know

/-- A later epoch has begun. -/
def since (Γ : Know) (e : ℕ) : Know :=
  { Γ with lo := e }

/-- Node `n` is known to be published. -/
def learn (Γ : Know) (n : NodeId) : Know :=
  { Γ with known := fun n' => n' = n ∨ Γ.known n' }

/-- Further nodes are known to be published. -/
def learns (Γ : Know) (p : NodeId → Prop) : Know :=
  { Γ with known := fun n => p n ∨ Γ.known n }

/-- A node has been seen. -/
def see (Γ : Know) (n : NodeId) (s : Sight) : Know :=
  { Γ with seen := Function.update Γ.seen n (some s) }

/-- The root has been seen. -/
def seeTop (Γ : Know) (r : Slot) (e : ℕ) : Know :=
  { Γ with top := some (r, e) }

/-- Node `n` has been latched. -/
def latch (Γ : Know) (n : NodeId) (v : ℕ) (g : Grasp) : Know :=
  { Γ with
    held := Function.update Γ.held (.node n) (some v)
    seen := Function.update Γ.seen n none
    grasp := Function.update Γ.grasp n (some g)
    base := none }

/-- The root has been latched. -/
def latchRoot (Γ : Know) (v : ℕ) (r : Slot) (e : ℕ) : Know :=
  { Γ with
    held := Function.update Γ.held .root (some v)
    top := some (r, e)
    base := none }

/-- Node `n` has been released. -/
def unlatch (Γ : Know) (n : NodeId) (s : Option Sight) : Know :=
  { Γ with
    held := Function.update Γ.held (.node n) none
    seen := Function.update Γ.seen n s
    grasp := Function.update Γ.grasp n none
    base := none }

/-- The root has been released. -/
def unlatchRoot (Γ : Know) : Know :=
  { Γ with
    held := Function.update Γ.held .root none
    base := none }

/-- The fields of a latched node have changed. -/
def write (Γ : Know) (n : NodeId) (g : Grasp) (F : Fields) : Know :=
  { Γ with
    grasp := Function.update Γ.grasp n (some { g with fields := F })
    base := none }

/-- An unpublished node. -/
def own (Γ : Know) (n : NodeId) (ty : NodeType) (F : Fields) : Know :=
  { Γ with priv := Function.update Γ.priv n (some (ty, F)) }

/-- Node `n` has been retired. -/
def retire (Γ : Know) (n : NodeId) : Know :=
  { Γ with
    due := fun n' => n' ≠ n ∧ Γ.due n'
    base := none }

/-- The forest is like this now. -/
def aimed (Γ : Know) (A : Option (Forest → Prop)) : Know :=
  { Γ with aim := A }

/-- An unpublished node has been given up. -/
def disown (Γ : Know) (n : NodeId) : Know :=
  { Γ with priv := Function.update Γ.priv n none }

end Know

namespace Shadow

namespace Knows

variable {live : Bool} {t : ℕ} {Γ : Know} {m m' : TreeMem} {S S' : Shadow} {n : NodeId}
  {l : LatchId} {v e : ℕ} {s : Sight} {g : Grasp} {p : List Byte}

lemma aimed (h : Knows live t Γ m S) {A : Option (Forest → Prop)}
    (hA : ∀ B, A = some B → live = true → B S.forest) : Knows live t (Γ.aimed A) m S :=
  { h with aim := hA }

/-- An earlier epoch has begun as well. -/
lemma before (h : Knows live t Γ m S) (he : e ≤ S.cur) : Knows live t (Γ.since e) m S :=
  { h with lo := he }

lemma learn (h : Knows live t Γ m S) (hp : S.pub n) : Knows live t (Γ.learn n) m S :=
  { h with
    known := fun n' hn' => by
      rcases hn' with rfl | hn'
      · exact hp
      · exact h.known n' hn' }

lemma learns (h : Knows live t Γ m S) {p : NodeId → Prop} (hp : ∀ n, p n → S.pub n) :
    Knows live t (Γ.learns p) m S :=
  { h with known := fun n hn => hn.elim (hp n) (h.known n) }

lemma see (h : Knows live t Γ m S) (hs : Seen live m S n s) :
    Knows live t (Γ.see n s) m S where
  lo := h.lo
  known := h.known
  seen n' s' hs' := by
    by_cases hn : n' = n
    · subst hn
      simp only [Know.see, Function.update_self, Option.some.injEq] at hs'
      rwa [← hs']
    · exact h.seen n' s' (by simpa [Know.see, hn] using hs')
  top := h.top
  held := h.held
  owns := h.owns
  grasp := h.grasp
  priv := h.priv
  privs := h.privs
  follow := h.follow
  clear := h.clear
  due := h.due
  base := h.base
  aim := h.aim

lemma seeTop (h : Knows live t Γ m S) : Knows live t (Γ.seeTop m.root S.cur) m S :=
  { h with
    top := fun r e hre _ => by
      simp only [Know.seeTop, Option.some.injEq, Prod.mk.injEq] at hre
      exact hre }

/-! ### Latches -/

@[simp] lemma setWord_self (m : TreeMem) (l : LatchId) (w : ℕ) : (setWord m l w).latch l = w := by
  simp [setWord]

lemma setWord_of_ne (m : TreeMem) {l l' : LatchId} (w : ℕ) (h : l' ≠ l) :
    (setWord m l w).latch l' = m.latch l' := by
  simp [setWord, h]

/-- A sight is not affected by another latch. -/
lemma seen_setWord (hs : Seen live m S n s) (hl : LatchId.node n ≠ l) (w : ℕ)
    (hpub : S'.pub = S.pub) (hforest : S'.forest = S.forest) :
    Seen live (setWord m l w) S' n s := by
  have hw := setWord_of_ne m w hl
  refine ⟨by rw [hpub]; exact hs.pub, hs.ty, hs.free, by rw [hw]; exact hs.le,
    by rw [hw]; exact hs.alone, ?_⟩
  rw [hw, hforest]
  exact hs.right

lemma latch (h : Knows live t Γ m S) (hfree : Free (m.latch (.node n))) :
    Knows live t (Γ.latch n (m.latch (.node n))
        ⟨m.ty n, m.fields n, S.forest.cont n, S.forest.place n⟩)
      (setWord m (.node n) (m.latch (.node n) + 1)) (S.acquire t (.node n)) where
  lo := h.lo
  known := h.known
  seen n' s hs := by
    have hn : n' ≠ n := by
      rintro rfl
      simp [Know.latch] at hs
    exact seen_setWord (h.seen n' s (by simpa [Know.latch, hn] using hs)) (by simpa using hn) _
      rfl rfl
  top r e hre hor := h.top r e hre (hor.imp id fun hh => by simpa [Know.latch] using hh)
  held l v hv := by
    by_cases hl : l = .node n
    · subst hl
      simp only [Know.latch, Function.update_self, Option.some.injEq] at hv
      subst hv
      exact ⟨hfree, by simp [acquire], by simp⟩
    · obtain ⟨h1, h2, h3⟩ := h.held l v (by simpa [Know.latch, hl] using hv)
      exact ⟨h1, by simpa [acquire, hl] using h2, by rw [setWord_of_ne m _ hl]; exact h3⟩
  owns l ho := by
    by_cases hl : l = .node n
    · subst hl
      simp [Know.latch]
    · simpa [Know.latch, hl] using h.owns l (by simpa [acquire, hl] using ho)
  grasp n' g hg := by
    by_cases hn : n' = n
    · subst hn
      simp only [Know.latch, Function.update_self, Option.some.injEq] at hg
      subst hg
      exact ⟨by simp [acquire], rfl, rfl, rfl, rfl⟩
    · have hg' := h.grasp n' g (by simpa [Know.latch, hn] using hg)
      exact ⟨by simpa [acquire, hn] using hg'.owner, hg'.ty, hg'.fields, hg'.cont, hg'.place⟩
  priv := h.priv
  privs := h.privs
  follow := h.follow
  clear := h.clear
  due := h.due
  base _ _ hb := by simp [Know.latch] at hb
  aim := h.aim

lemma latchRoot (h : Knows live t Γ m S) (hfree : Free (m.latch .root)) :
    Knows live t (Γ.latchRoot (m.latch .root) m.root S.cur)
      (setWord m .root (m.latch .root + 1)) (S.acquire t .root) where
  lo := h.lo
  known := h.known
  seen n s hs := seen_setWord (h.seen n s hs) (by simp) _ rfl rfl
  top r e hre _ := by
    simp only [Know.latchRoot, Option.some.injEq, Prod.mk.injEq] at hre
    exact hre
  held l v hv := by
    by_cases hl : l = .root
    · subst hl
      simp only [Know.latchRoot, Function.update_self, Option.some.injEq] at hv
      subst hv
      exact ⟨hfree, by simp [acquire], by simp⟩
    · obtain ⟨h1, h2, h3⟩ := h.held l v (by simpa [Know.latchRoot, hl] using hv)
      exact ⟨h1, by simpa [acquire, hl] using h2, by rw [setWord_of_ne m _ hl]; exact h3⟩
  owns l ho := by
    by_cases hl : l = .root
    · subst hl
      simp [Know.latchRoot]
    · simpa [Know.latchRoot, hl] using h.owns l (by simpa [acquire, hl] using ho)
  grasp n g hg := by
    have hg' := h.grasp n g hg
    exact ⟨by simpa [acquire] using hg'.owner, hg'.ty, hg'.fields, hg'.cont, hg'.place⟩
  priv := h.priv
  privs := h.privs
  follow := h.follow
  clear := h.clear
  due := h.due
  base _ _ hb := by simp [Know.latchRoot] at hb
  aim := h.aim

/-- A node is released, or becomes obsolete, with a new word. -/
lemma unlatch (h : Knows live t Γ m S) {w : ℕ} {o : Option Sight}
    (ho : ∀ s, o = some s → Seen live (setWord m (.node n) w) (S.release (.node n)) n s) :
    Knows live t (Γ.unlatch n o) (setWord m (.node n) w) (S.release (.node n)) where
  lo := h.lo
  known := h.known
  seen n' s hs := by
    by_cases hn : n' = n
    · subst hn
      exact ho s (by simpa [Know.unlatch] using hs)
    · exact seen_setWord (h.seen n' s (by simpa [Know.unlatch, hn] using hs)) (by simpa using hn)
        _ rfl rfl
  top r e hre hor := h.top r e hre (hor.imp id fun hh => by simpa [Know.unlatch] using hh)
  held l v hv := by
    have hl : l ≠ .node n := by
      rintro rfl
      simp [Know.unlatch] at hv
    obtain ⟨h1, h2, h3⟩ := h.held l v (by simpa [Know.unlatch, hl] using hv)
    exact ⟨h1, by simpa [release, hl] using h2, by rw [setWord_of_ne m _ hl]; exact h3⟩
  owns l hl := by
    have hne : l ≠ .node n := by
      rintro rfl
      simp [release] at hl
    simpa [Know.unlatch, hne] using h.owns l (by simpa [release, hne] using hl)
  grasp n' g hg := by
    have hn : n' ≠ n := by
      rintro rfl
      simp [Know.unlatch] at hg
    have hg' := h.grasp n' g (by simpa [Know.unlatch, hn] using hg)
    exact ⟨by simpa [release, hn] using hg'.owner, hg'.ty, hg'.fields, hg'.cont, hg'.place⟩
  priv := h.priv
  privs := h.privs
  follow := h.follow
  clear := h.clear
  due := h.due
  base _ _ hb := by simp [Know.unlatch] at hb
  aim := h.aim

lemma unlatchRoot (h : Knows live t Γ m S) {w : ℕ} :
    Knows live t Γ.unlatchRoot (setWord m .root w) (S.release .root) where
  lo := h.lo
  known := h.known
  seen n s hs := seen_setWord (h.seen n s hs) (by simp) _ rfl rfl
  top r e hre hor := h.top r e hre (hor.imp id fun hh => by simp [Know.unlatchRoot] at hh)
  held l v hv := by
    have hl : l ≠ .root := by
      rintro rfl
      simp [Know.unlatchRoot] at hv
    obtain ⟨h1, h2, h3⟩ := h.held l v (by simpa [Know.unlatchRoot, hl] using hv)
    exact ⟨h1, by simpa [release, hl] using h2, by rw [setWord_of_ne m _ hl]; exact h3⟩
  owns l hl := by
    have hne : l ≠ .root := by
      rintro rfl
      simp [release] at hl
    simpa [Know.unlatchRoot, hne] using h.owns l (by simpa [release, hne] using hl)
  grasp n g hg := by
    have hg' := h.grasp n g hg
    exact ⟨by simpa [release] using hg'.owner, hg'.ty, hg'.fields, hg'.cont, hg'.place⟩
  priv := h.priv
  privs := h.privs
  follow := h.follow
  clear := h.clear
  due := h.due
  base _ _ hb := by simp [Know.unlatchRoot] at hb
  aim := h.aim

/-! ### Fields -/

lemma write (h : Knows live t Γ m S) (hi : S.Inv m) (hg : Γ.grasp n = some g) (F : Fields) :
    Knows live t (Γ.write n g F) (setFields m n F) S where
  lo := h.lo
  known := h.known
  seen n' s hs := by
    have h1 := h.seen n' s hs
    exact ⟨h1.pub, h1.ty, h1.free, h1.le, h1.alone, h1.right⟩
  top := h.top
  held := h.held
  owns := h.owns
  grasp n' g' hg' := by
    by_cases hn : n' = n
    · subst hn
      simp only [Know.write, Function.update_self, Option.some.injEq] at hg'
      have h1 := h.grasp n' g hg
      subst hg'
      exact ⟨h1.owner, h1.ty, by simp [setFields], h1.cont, h1.place⟩
    · have h1 := h.grasp n' g' (by simpa [Know.write, hn] using hg')
      exact ⟨h1.owner, h1.ty, by simpa [setFields, hn] using h1.fields, h1.cont, h1.place⟩
  priv n' ty F' hp := by
    obtain ⟨h1, h2, h3⟩ := h.priv n' ty F' hp
    have hn : n' ≠ n := by
      rintro rfl
      have := (hi.unpub (hi.priv_lt h1).2).2
      simp [(h.grasp n' g hg).owner] at this
    exact ⟨h1, h2, by simpa [setFields, hn] using h3⟩
  privs := h.privs
  follow := h.follow
  clear := h.clear
  due := h.due
  base _ _ hb := by simp [Know.write] at hb
  aim := h.aim

/-- Unpublished nodes are written, taken and given up. -/
lemma scratch (h : Knows live t Γ m S) (hi : S.Inv m) (hs : Scratch t m S m' S') {Γ' : Know}
    (hΓ : Γ' = { Γ with priv := Γ'.priv })
    (hfields : ∀ n, S.owner (.node n) = some t → m'.fields n = m.fields n)
    (hpriv : ∀ n ty F, Γ'.priv n = some (ty, F) →
      S'.priv n = some t ∧ m'.ty n = ty ∧ m'.fields n = F)
    (hprivs : ∀ n, S'.priv n = some t → Γ'.priv n ≠ none) : Knows live t Γ' m' S' := by
  have hS := hs.shadow
  rw [hΓ, hS]
  rw [hS] at hpriv hprivs
  refine
    { lo := h.lo, known := h.known, seen := ?_, top := ?_, held := ?_, owns := h.owns,
      grasp := ?_, priv := hpriv, privs := hprivs, follow := h.follow, clear := h.clear
      due := h.due, base := ?_, aim := h.aim }
  · intro n s hn
    have h1 := h.seen n s hn
    refine ⟨h1.pub, (hs.ty n (hi.pub_lt h1.pub)).trans h1.ty, h1.free, ?_, ?_, ?_⟩
    all_goals rw [hs.latch]
    exacts [h1.le, h1.alone, h1.right]
  · intro r e hre hor
    rw [hs.root]
    exact h.top r e hre hor
  · intro l v hv
    rw [hs.latch]
    exact h.held l v hv
  · intro n g hg
    have h1 := h.grasp n g hg
    have hlt := hi.pub_lt (hi.pub_of_owner (n := n) (by simp [h1.owner]))
    exact ⟨h1.owner, (hs.ty n hlt).trans h1.ty, (hfields n h1.owner).trans h1.fields, h1.cont,
      h1.place⟩
  · intro m₀ S₀ hb hl
    have h1 := h.base m₀ S₀ hb hl
    refine ⟨hs.root.trans h1.root, hs.latch.trans h1.latch, hs.retired.trans h1.retired,
      h1.forest, h1.cur, h1.pub, fun n hn => ?_⟩
    have hpub : S.pub n := by rwa [h1.pub]
    have hlt := hi.pub_lt hpub
    refine ⟨(hs.ty n hlt).trans (h1.fields n hn).1, Eq.trans ?_ (h1.fields n hn).2⟩
    by_cases ho : S.owner (.node n) = some t
    · exact hfields n ho
    · exact hs.fields n ho (by simp [hi.priv_of_pub hpub]) hlt

/-- A node is retired. -/
lemma retire (h : Knows live t Γ m S) :
    Knows live t (Γ.retire n) (setRetired m n) (S.retire n) where
  lo := h.lo
  known := h.known
  seen n' s hs := by
    have h1 := h.seen n' s hs
    exact ⟨h1.pub, h1.ty, h1.free, h1.le, h1.alone, h1.right⟩
  top := h.top
  held := h.held
  owns := h.owns
  grasp n' g hg := by
    have h1 := h.grasp n' g hg
    exact ⟨h1.owner, h1.ty, h1.fields, h1.cont, h1.place⟩
  priv := h.priv
  privs := h.privs
  follow := h.follow
  clear := h.clear
  due n' := by
    by_cases hn : n' = n
    · subst hn
      simp [Shadow.retire, Know.retire]
    · simpa [Shadow.retire, Know.retire, hn] using h.due n'
  base _ _ hb := by simp [Know.retire] at hb
  aim := h.aim

/-! ### Commits -/

/-- A commit.  What becomes of the latched nodes is for the caller to say. -/
lemma commit (h : Knows live t Γ m S) {F : Forest} {new : List NodeId} {f : Option (ℕ × Key)}
    (hc : Commit t m S m' F new f) {Γ' : Know}
    (hΓ : Γ' = { Γ with
      grasp := Γ'.grasp
      top := Γ'.top
      priv := fun n => if n ∈ new then none else Γ.priv n
      follow := f
      due := Γ'.due
      base := none
      aim := Γ'.aim })
    (hdue : ∀ n, Γ'.due n ↔ Γ.due n ∨ S.forest.place n ≠ none ∧ F.place n = none)
    (htop : ∀ r e, Γ'.top = some (r, e) → live = true ∨ Γ.held .root ≠ none →
      m'.root = r ∧ S.cur = e)
    (hgrasp : ∀ n g, Γ'.grasp n = some g → S.owner (.node n) = some t ∧ m.ty n = g.ty ∧
      m'.fields n = g.fields ∧ F.cont n = g.cont ∧ F.place n = g.place)
    (haim : ∀ A, Γ'.aim = some A → live = true → A F)
    (hi : S.Inv m) : Knows live t Γ' m' (S.commit t F new f) := by
  have hlatch : m'.latch = m.latch := by rw [hc.mem]
  have hty : m'.ty = m.ty := by rw [hc.mem]
  rw [hΓ]
  refine
    { lo := h.lo, known := fun n hn => .inl (h.known n hn), seen := ?_, top := htop, held := ?_,
      owns := h.owns, grasp := ?_, priv := ?_, privs := ?_, follow := ?_, clear := h.clear
      due := fun n => ?_, base := fun _ _ hb => by simp at hb, aim := haim }
  · intro n s hn
    have h1 := h.seen n s hn
    refine ⟨.inl h1.pub, by rw [hty]; exact h1.ty, h1.free, by rw [hlatch]; exact h1.le,
      by rw [hlatch]; exact h1.alone, ?_⟩
    intro hw
    rw [hlatch] at hw
    obtain ⟨h3, h4⟩ := h1.right hw
    have ho : S.owner (.node n) ≠ some t := by
      simp [hi.owner_of_free (l := .node n) (by rw [hw]; exact h1.free)]
    obtain ⟨h5, h6⟩ := hc.same n ho (hc.not_new hi h1.pub)
    exact ⟨h5.trans h3, h6.trans h4⟩
  · intro l v hv
    rw [hlatch]
    exact h.held l v hv
  · intro n g hg
    obtain ⟨h1, h2, h3, h4, h5⟩ := hgrasp n g hg
    exact ⟨h1, by rw [hty]; exact h2, h3, h4, h5⟩
  · intro n ty F' hn
    by_cases hnew : n ∈ new
    · simp [hnew] at hn
    · simp only [hnew, if_false] at hn
      obtain ⟨h1, h2, h3⟩ := h.priv n ty F' hn
      have ho : S.owner (.node n) ≠ some t := by
        simp [(hi.unpub (hi.priv_lt h1).2).2]
      refine ⟨?_, by rw [hty]; exact h2, (hc.fields n ho).trans h3⟩
      simpa [Shadow.commit, hnew] using h1
  · intro n hn
    by_cases hnew : n ∈ new
    · simp [Shadow.commit, hnew] at hn
    · simpa [hnew] using h.privs n (by simpa [Shadow.commit, hnew] using hn)
  · simp [Shadow.commit]
  · rw [hdue n, ← h.due n]
    by_cases hn : S.forest.place n ≠ none ∧ F.place n = none
    · simp [Shadow.commit, hn]
    · simp only [Shadow.commit, hn, if_false, or_false]

end Knows

end Shadow

end Artmap
