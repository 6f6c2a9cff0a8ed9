import Artmap.Ops.Unlink

/-!
# Following up an unlinked node

`unlinkEmptied` goes down the path of a removed key to its last inner node, with the ancestors
on a stack.  If that node is empty, it unlinks from there upwards, as long as a parent is left
empty; if a latch cannot be had, it starts over.  The follow-up ends at a moment at which no
node on the path of the key is empty: then it has nothing to account for any more.
-/

namespace Artmap

open scoped List

namespace Know

/-- The thread holds and owes what it held and owed before, but for its follow-up. -/
structure Stays (Γ Δ : Know) : Prop where
  lo : Γ.lo ≤ Δ.lo
  held : Δ.held = Γ.held
  priv : Δ.priv = Γ.priv
  clear : Δ.clear = Γ.clear
  due : Δ.due = Γ.due

variable {Γ Δ Δ' : Know}

lemma Stays.trans (h : Γ.Stays Δ) (h' : Δ.Stays Δ') : Γ.Stays Δ' :=
  ⟨h.lo.trans h'.lo, h'.held.trans h.held, h'.priv.trans h.priv, h'.clear.trans h.clear,
    h'.due.trans h.due⟩

lemma Idle.stays (h : Γ.Idle Δ) : Γ.Stays Δ :=
  ⟨h.lo.ge, h.held, h.priv, h.clear, h.due⟩

lemma Scan.learn {n : NodeId} (h : Γ.Scan Δ) : Γ.Scan (Δ.learn n) where
  lo := h.lo
  held := h.held
  grasp := h.grasp
  priv := h.priv
  follow := h.follow
  clear := h.clear
  due := h.due
  base := h.base
  pub n' hn := (h.pub n' hn).imp .inr id

end Know

namespace Client

variable {C : Client} {live : Bool} {t : ℕ} {Γ Δ Δ' : Know} {P : C.Assertion t} {x y : C.W}
  {c n : NodeId} {s : Sight} {v e : ℕ} {path : Ancestors} {key : Key} {d : ℕ}

/-! ## Ancestors -/

/-- The ancestors of node `c`, as they were seen. -/
def Trail (Γ : Know) : Ancestors → NodeId → Prop
  | [], c => ∃ e, Γ.top = some (.node c, e)
  | (p, v, b) :: path, c => ∃ s, Γ.seen p = some s ∧ s.v = v ∧ s.cont.child b = .node c ∧
      Trail Γ path p

lemma Trail.congr (h : Trail Γ path c) (ht : Δ.top = Γ.top)
    (hs : ∀ q ∈ path.map Prod.fst, Δ.seen q = Γ.seen q) : Trail Δ path c := by
  induction path generalizing c with
  | nil => rwa [Trail, ht]
  | cons a path ih =>
    obtain ⟨p, v, b⟩ := a
    obtain ⟨s, h1, h2, h3, h4⟩ := h
    exact ⟨s, (hs p (by simp)).trans h1, h2, h3, ih h4 fun q hq => hs q (by simp [hq])⟩

/-- Alone, the ancestors of a node are above it. -/
lemma Trail.above (h : Trail Γ path c) (hx : C.At true t Γ P x) (hok : C.rg.Ok true t x) :
    ∀ q ∈ path.map Prod.fst, ∃ sq e p, Γ.seen q = some sq ∧
      (shadow x).forest.place c = some (e, p) ∧ sq.path.length < p.length := by
  induction path generalizing c with
  | nil => simp
  | cons a path ih =>
    obtain ⟨p, v, b⟩ := a
    obtain ⟨s, h1, -, h3, h4⟩ := h
    have hseen := hx.knows.seen p s h1
    have hw := hseen.alone rfl
    have hpl := place_of_seen hx hok h1 hw h3
    intro q hq
    rcases List.mem_cons.mp hq with rfl | hq
    · refine ⟨s, _, _, h1, hpl, ?_⟩
      simp only [List.length_append, List.length_cons, List.length_nil]
      omega
    · obtain ⟨sq, e, p', h5, h6, h7⟩ := ih h4 q hq
      rw [(hseen.right hw).2] at h6
      obtain ⟨-, rfl⟩ : s.epoch = e ∧ s.path = p' := by simpa using h6
      refine ⟨sq, _, _, h5, hpl, ?_⟩
      simp only [List.length_append]
      omega

lemma Trail.not_mem (h : Trail Γ path c) (hx : C.At true t Γ P x) (hok : C.rg.Ok true t x) :
    c ∉ path.map Prod.fst := by
  intro hc
  obtain ⟨s, e, p, h1, h2, h3⟩ := h.above hx hok c hc
  have hseen := hx.knows.seen c s h1
  rw [(hseen.right (hseen.alone rfl)).2] at h2
  obtain ⟨-, rfl⟩ : s.epoch = e ∧ s.path = p := by simpa using h2
  omega

lemma Trail.coupled (h : Trail Γ path c) (hx : C.At true t Γ P x) (hok : C.rg.Ok true t x)
    (hs : Γ.seen c = some s) : Coupled true Γ (parentOf path) c s := by
  have hi := ok_tree hok
  have hseen := hx.knows.seen c s hs
  have hpl := (hseen.right (hseen.alone rfl)).2
  cases path with
  | nil =>
    obtain ⟨e, he⟩ := h
    obtain ⟨h1, rfl⟩ := hx.knows.top _ _ he (.inl rfl)
    have hroot := hi.root
    rw [h1] at hroot
    have hpl' := hi.wf.place_of_slot (Forest.at_root _) hroot.symm
    rw [hpl] at hpl'
    obtain ⟨h2, h3⟩ : s.epoch = (shadow x).cur ∧ s.path = [] := by simpa using hpl'
    exact ⟨h3, fun _ => h2 ▸ he⟩
  | cons a path =>
    have hne := h.not_mem hx hok
    obtain ⟨p, v, b⟩ := a
    obtain ⟨sp, h1, h2, h3, -⟩ := h
    have hpl' := place_of_seen hx hok h1 ((hx.knows.seen p sp h1).alone rfl) h3
    rw [hpl] at hpl'
    obtain ⟨h4, h5⟩ : s.epoch = sp.epoch ∧ s.path = sp.path ++ sp.cont.pre ++ [b] := by
      simpa using hpl'
    exact ⟨fun hpc => hne (by simp [hpc]), sp, h1, h2, h4.symm, h5, h3⟩

/-! ## The way down -/

/-- The byte that a path below a node goes on with. -/
lemma byte_of_path {b : Byte} (hd : d ≤ key.length) (hpath : s.path = key.take d)
    (h : s.path ++ s.cont.pre ++ [b] <+: key) :
    s.cont.pre <+: key.drop d ∧ key[d + s.cont.pre.length]? = some b := by
  have hlen : s.path.length = d := by simp [hpath, hd]
  obtain ⟨rest, rfl⟩ := h
  have hdrop : (s.path ++ s.cont.pre ++ [b] ++ rest).drop d = s.cont.pre ++ ([b] ++ rest) := by
    rw [← hlen, List.append_assoc, List.append_assoc, List.drop_left]
  refine ⟨hdrop ▸ List.prefix_append _ _, ?_⟩
  have hget := congrArg (fun l : List Byte => l[s.cont.pre.length]?) hdrop
  simpa [List.getElem?_drop] using hget

/-- `nextOnPath` finds the inner child on the path of the key. -/
lemma wp_nextOnPath {φ : Prop} {pre : PrefixSnapshot} (hs : Γ.seen n = some s)
    (hx : C.At live t Γ P x) (hφ : Promise live n s.v φ (tree x))
    (hof : φ → pre.Of s.cont.pre) (hpath : s.path = key.take d) (hd : d ≤ key.length) :
    C.rg.wp live t (nextOnPath n key d pre) (fun r y => C.At live t Γ P y ∧
      match r with
      | some (b, c) => d + pre.len + 1 ≤ key.length ∧ Promise live n s.v
          (key.take (d + pre.len + 1) = s.path ++ s.cont.pre ++ [b] ∧
            s.cont.child b = .node c ∧ d + pre.len + 1 ≤ key.length) (tree y)
      | none => Promise live n s.v
          (φ ∧ ∀ b c, s.path ++ s.cont.pre ++ [b] <+: key → s.cont.child b ≠ .node c)
          (tree y)) x := by
  cases hb : key[d + pre.len]? with
  | none =>
    simp only [nextOnPath, hb]
    refine RG.wp_ret ⟨hx, hφ.mono fun h => ⟨h, fun b c hbc => ?_⟩⟩
    have hget := (byte_of_path hd hpath hbc).2
    rw [← (hof h).len, hb] at hget
    simp at hget
  | some byte =>
    have hlt := (List.getElem?_eq_some_iff.mp hb).1
    by_cases hpre : pre.isPrefixOf (key.drop d) = true
    · simp only [nextOnPath, hb, hpre, if_true]
      refine RG.wp_seq (wp_findChild byte hs hx hφ) ?_
      rintro r y - ⟨hy, hpr⟩
      have hnone : (∀ c, r ≠ .node c) → Promise live n s.v
          (φ ∧ ∀ b c, s.path ++ s.cont.pre ++ [b] <+: key → s.cont.child b ≠ .node c)
          (tree y) := by
        refine fun hr => hpr.mono fun ⟨h, hchild⟩ => ⟨h, fun b c hbc => ?_⟩
        have hget := (byte_of_path hd hpath hbc).2
        rw [← (hof h).len, hb] at hget
        obtain rfl : byte = b := by simpa using hget
        exact hchild ▸ hr c
      cases r with
      | null => exact RG.wp_ret ⟨hy, hnone (by simp)⟩
      | leaf l => exact RG.wp_ret ⟨hy, hnone (by simp)⟩
      | node c =>
        refine RG.wp_ret ⟨hy, hlt, hpr.mono fun ⟨h, hchild⟩ => ⟨?_, hchild.symm, hlt⟩⟩
        rw [(hof h).len] at hb ⊢
        exact path_step hpath (((hof h).isPrefixOf_iff _).mp hpre) hb
    · simp only [nextOnPath, hb, hpre]
      refine RG.wp_ret ⟨hx, hφ.mono fun h => ⟨h, fun b c hbc => ?_⟩⟩
      exact absurd (((hof h).isPrefixOf_iff _).mpr (byte_of_path hd hpath hbc).1) hpre

/-- The descent has read node `c` at the end of the first `d` bytes of the key, below the
ancestors `path`. -/
def Seeking (live : Bool) (t : ℕ) (Γ : Know) (P : C.Assertion t) (key : Key) (path : Ancestors)
    (c : NodeId) (d : ℕ) (y : C.W) : Prop :=
  ∃ Δ, Γ.Scan Δ ∧ C.At live t Δ P y ∧
    Linked live Δ (parentOf path) c (key.take d) (d ≤ key.length) (tree y) ∧
    (∀ q ∈ path.map Prod.fst, Δ.known q) ∧ (live = true → Trail Δ path c)

/-- The empty node `c` was seen on the path of the key at version `v`, below the ancestors
`path`. -/
structure Poised (live : Bool) (Γ Δ : Know) (key : Key) (path : Ancestors) (c : NodeId) (v e : ℕ)
    (s : Sight) : Prop where
  stays : Γ.Stays Δ
  follow : Δ.follow = some (e, key)
  lo : e ≤ Δ.lo
  epoch : e ≤ s.epoch
  seen : Δ.seen c = some s
  version : s.v = v
  empty : s.cont.Empty
  on_key : s.path <+: key
  known : ∀ q ∈ path.map Prod.fst, Δ.known q
  trail : live = true → Trail Δ path c

/-- The follow-up is pending. -/
def Pending (live : Bool) (t : ℕ) (Γ : Know) (P : C.Assertion t) (key : Key) (y : C.W) : Prop :=
  ∃ Δ e, Γ.Stays Δ ∧ Δ.follow = some (e, key) ∧ e ≤ Δ.lo ∧ C.At live t Δ P y

/-- The follow-up is done. -/
def Done (live : Bool) (t : ℕ) (Γ : Know) (P : C.Assertion t) (y : C.W) : Prop :=
  ∃ Δ, Γ.Stays Δ ∧ Δ.follow = none ∧ C.At live t Δ P y

/-- How one level of the descent from depth `d` ends. -/
def SeekEnds (live : Bool) (t : ℕ) (Γ : Know) (P : C.Assertion t) (key : Key) (d : ℕ)
    (r : (Ancestors × NodeId × ℕ) ⊕ Option (Option (Ancestors × NodeId × ℕ))) (y : C.W) :
    Prop :=
  match r with
  | .inl (path, c, d') => d < d' ∧ d' ≤ key.length ∧ Seeking live t Γ P key path c d' y
  | .inr none => live = false ∧ Pending live t Γ P key y
  | .inr (some none) => Done live t Γ P y
  | .inr (some (some (path, c, v))) =>
      ∃ Δ e s, Poised live Γ Δ key path c v e s ∧ C.At live t Δ P y

lemma pending_of_scan (h : Γ.Scan Δ) (hf : Γ.follow = some (e, key)) (he : e ≤ Γ.lo)
    (hx : C.At live t Δ P x) : Pending live t Γ P key x :=
  ⟨Δ, e, h.idle.stays, h.follow.trans hf, h.lo.symm ▸ he, hx⟩

/-- The last inner node on the path of the key is not empty: nothing is left to unlink. -/
lemma settled_of_seen (hx : C.At live t Γ P x) (hok : C.rg.Ok live t x)
    (hf : Γ.follow = some (e, key)) (he : e ≤ s.epoch) (hs : Γ.seen n = some s)
    (hw : (tree x).latch (.node n) = s.v) (hpath : s.path <+: key) (hne : ¬ s.cont.Empty)
    (hlast : ∀ b c, s.path ++ s.cont.pre ++ [b] <+: key → s.cont.child b ≠ .node c) :
    Settled Γ (shadow x) := by
  have hi := ok_tree hok
  obtain ⟨h1, h2⟩ := (hx.knows.seen n s hs).right hw
  intro k n' p hk hp hem hpre
  rw [hf] at hk
  obtain ⟨rfl, rfl⟩ : e = (shadow x).cur ∧ key = k := by simpa using hk
  have hcur : s.epoch = (shadow x).cur := le_antisymm (hi.place_le h2) he
  rw [hcur] at h2
  have hlast' : ∀ b c, s.path ++ (shadow x).forest.pre n ++ [b] <+: key →
      ((shadow x).forest.cont n).child b ≠ .node c := by
    rw [Forest.pre, h1]
    exact hlast
  rcases Shadow.on_path hi.wf h2 hpath hlast' hp
    ((List.prefix_append _ _).trans hpre) with rfl | ⟨b, c, hb⟩
  · exact hne (h1 ▸ hem)
  · simp [hem.2 b] at hb

/-- One level of the descent. -/
lemma wp_emptiedLevel (hh : ∀ l, Γ.held l = none) (hc : Γ.clear = none)
    (hf : Γ.follow = some (e, key)) (he : e ≤ Γ.lo)
    (hx : Seeking live t Γ P key path c d x) :
    C.rg.wp live t (emptiedLevel key (path, c, d)) (SeekEnds live t Γ P key d) x := by
  obtain ⟨Δ, hΔ, hx, hlink, hknown, htrail⟩ := hx
  refine RG.wp_seq (wp_readVersion_linked hx (hΔ.clear.trans hc)
    (by rw [hΔ.held]; exact hh _) hlink) ?_
  rintro (_ | v) y hok ⟨hy, hlink, hnone, hsome⟩
  · exact RG.wp_ret ⟨hnone rfl, pending_of_scan hΔ hf he hy⟩
  obtain ⟨hv, hpr⟩ := hsome v rfl
  refine RG.wp_seq (wp_stillParent hy hlink hv hpr) ?_
  rintro (_ | _) z hokz ⟨hfalse, htrue⟩
  · exact RG.wp_ret ⟨(hfalse rfl).1, pending_of_scan hΔ hf he (hfalse rfl).2⟩
  obtain ⟨hd, s, rfl, hpath, hlo, -, hz, hpr⟩ := htrue rfl
  have hs : (Δ.see c s).seen c = some s := by simp [Know.see]
  rw [hΔ.lo] at hlo
  have htrail' : live = true → Trail (Δ.see c s) path c := by
    rintro rfl
    refine (htrail rfl).congr rfl fun q hq => ?_
    have hqc : q ≠ c := fun h => (htrail rfl).not_mem hy hok (h ▸ hq)
    simp [Know.see, hqc]
  have hcs : (Δ.see c s).clear = none := hΔ.clear.trans hc
  refine RG.wp_seq (wp_loadPrefix hs hz hpr) ?_
  rintro pre u - ⟨hu, -, hpr⟩
  refine RG.wp_seq (wp_nextOnPath hs hu hpr (fun h => h.2) hpath hd) ?_
  rintro (_ | ⟨b, c'⟩) u hoku ⟨hu, hpr⟩
  · -- The last inner node on the path.
    refine RG.wp_seq (wp_typed_spec (R := fun a => a = true ↔ s.cont.Empty)
      (fun _ => readOnly_emptiedBy _) (fun F a hF ha => ?_) hs hu hpr) ?_
    · obtain ⟨r, hr, hiff⟩ := hF.run_emptiedBy Taken.nothing_child
      obtain rfl : r = a := by simpa [hr] using ha
      simpa [Content.without] using hiff
    rintro (_ | _) w - ⟨hw, hpr⟩
    · refine RG.wp_seq (wp_validate_settle hw hcs hpr ?_) ?_
      · rintro hokw hword ⟨⟨-, hlast⟩, hem⟩
        exact settled_of_seen hw hokw (hΔ.follow.trans hf) (he.trans hlo) hs hword
          (hpath ▸ List.take_prefix _ _) (by simpa using hem) hlast
      · rintro (_ | _) z - ⟨h1, h2⟩
        · exact RG.wp_ret ⟨(h2 rfl).1, pending_of_scan hΔ.see hf he (h2 rfl).2⟩
        · refine RG.wp_ret ⟨{ Δ.see c s with follow := none, base := none }, ?_, rfl, h1 rfl⟩
          exact ⟨hΔ.lo.ge, hΔ.held, hΔ.priv, hΔ.clear, hΔ.due⟩
    · refine RG.wp_seq (wp_validate hw hpr) ?_
      rintro (_ | _) z - ⟨hz, h1, h2, -⟩
      · exact RG.wp_ret ⟨h2 rfl, pending_of_scan hΔ.see hf he hz⟩
      · exact RG.wp_ret ⟨_, e, s, ⟨hΔ.see.idle.stays, hΔ.follow.trans hf, hΔ.lo.symm ▸ he,
          he.trans hlo, hs, rfl, (h1 rfl).2.mp rfl, hpath ▸ List.take_prefix _ _, hknown,
          htrail'⟩, hz⟩
  · obtain ⟨hlen, hpr⟩ := hpr
    have hu' : C.At live t ((Δ.see c s).learn c) P u :=
      ⟨hu.knows.learn (hu.knows.pub (.inr (by simp [hs]))), hu.client⟩
    refine RG.wp_ret ⟨by omega, hlen, _, hΔ.see.learn, hu', ⟨s, hs, rfl, hΔ.lo ▸ hlo, hpr⟩, ?_, ?_⟩
    · intro q hq
      rcases List.mem_cons.mp hq with rfl | hq
      · exact .inl rfl
      · exact .inr (hknown q hq)
    · intro hl
      exact ⟨s, hs, rfl, (hpr.of_live hl).2.1, (htrail' hl).congr rfl fun _ _ => rfl⟩

/-! ## The way up -/

/-- How one step up ends. -/
def ClimbEnds (live : Bool) (t : ℕ) (Γ : Know) (P : C.Assertion t) (key : Key)
    (path : Ancestors) (r : (Ancestors × NodeId × ℕ) ⊕ Bool) (y : C.W) : Prop :=
  match r with
  | .inl (path', c, v) => path'.length < path.length ∧
      ∃ Δ e s, Poised live Γ Δ key path' c v e s ∧ C.At live t Δ P y
  | .inr false => live = false ∧ Pending live t Γ P key y
  | .inr true => Done live t Γ P y

/-- What is owed after an unlinked node has been retired. -/
lemma Parted.stays {pg : ParentGuard} {p : List Byte} {above : Bool}
    (h : Parted Γ Δ pg c e p key above) (hd : ¬ Γ.due c) : Γ.Stays (Δ.retire c) := by
  refine ⟨h.lo.ge, h.held, h.priv, h.clear, funext fun n => propext ?_⟩
  show (n ≠ c ∧ Δ.due n) ↔ Γ.due n
  rw [h.due n]
  exact ⟨fun h' => h'.2.resolve_right h'.1, fun h' => ⟨fun hn => hd (hn ▸ h'), .inl h'⟩⟩

lemma At.since (hx : C.At live t Γ P x) (he : e ≤ (shadow x).cur) :
    C.At live t (Γ.since e) P x :=
  ⟨hx.knows.before he, hx.client⟩

lemma Paired.since {pg : ParentGuard} {F : Fields} (h : Paired Γ Δ pg n s F) (e : ℕ) :
    Paired (Γ.since e) (Δ.since e) pg n s F :=
  { h with lo := rfl, guard := h.guard.congr rfl (fun _ => rfl) fun _ _ => rfl }

/-- One step up. -/
lemma wp_unlinkLevel (hh : ∀ l, Γ.held l = none) (hc : Γ.clear = none)
    (hp : Poised live Γ Δ key path c v e s) (hx : C.At live t Δ P x) :
    C.rg.wp live t (unlinkLevel (path, c, v)) (ClimbEnds live t Γ P key path) x := by
  obtain rfl := hp.version
  have hh' : ∀ l, Δ.held l = none := by
    rw [hp.stays.held]
    exact hh
  have hc' : Δ.clear = none := hp.stays.clear.trans hc
  have hpub : ParentPub Δ (parentOf path) := by
    cases path with
    | nil => trivial
    | cons a path => exact .inl (hp.known a.1 (by simp))
  refine RG.wp_intro fun hok => wp_couple hx hc' hh' hp.seen hpub (fun hl => ?_) ?_ ?_
  · subst hl
    exact (hp.trail rfl).coupled hx hok hp.seen
  · intro y Δ' hl hidle hy
    exact ⟨hl, Δ', e, hp.stays.trans hidle.stays, hidle.follow.trans hp.follow,
      hidle.lo.symm ▸ hp.lo, hy⟩
  intro y Δ₀ pg F hoky hfor hpair hy
  have hdue : ¬ Δ.due c := hpair.due ▸ hy.not_due hoky hpair.grasp (by simp)
  have hnm : live = true → c ∉ path.map Prod.fst := by
    rintro rfl
    exact (hp.trail rfl).not_mem hx hok
  -- The epoch of the node has begun, so the follow-up of the next step can rely on it.
  have hle : max Δ.lo s.epoch ≤ (shadow y).cur :=
    max_le (hpair.lo ▸ hy.knows.lo)
      ((ok_tree hoky).place_le (hy.knows.grasp c _ hpair.grasp).place)
  replace hy := hy.since hle
  replace hpair := hpair.since (max Δ.lo s.epoch)
  have hstays : Γ.Stays (Δ.since (max Δ.lo s.epoch)) :=
    ⟨hp.stays.lo.trans (le_max_left _ _), hp.stays.held, hp.stays.priv, hp.stays.clear,
      hp.stays.due⟩
  refine RG.wp_seq (wp_pruneNode hy (hpair.clear.trans hc') hpair.guard hpair.ne hpair.grasp
    hp.empty (hpair.follow.trans hp.follow) hp.epoch hp.on_key) ?_
  rintro _ z - ⟨Δ₁, hcut, hz⟩
  refine wp_part (Γ := Δ.since (max Δ.lo s.epoch)) hh' hc' hpair hcut hz
    fun u Δ₂ above hpart hu => ?_
  refine RG.wp_seq (wp_retireNode hu ((hpart.due c).mpr (.inr rfl))
    (by rw [hpart.held]; exact hh' _)) ?_
  intro _ w _ hw
  have hstays' := hstays.trans (hpart.stays hdue)
  cases above with
  | false => exact RG.wp_ret ⟨_, hstays', hpart.settled rfl, hw⟩
  | true =>
    obtain ⟨hfol, p, s', hown, hseen, hv, hem, hep, hpre⟩ := hpart.pending rfl
    cases path with
    | nil => cases pg <;> simp [ParentGuard.owner?, ParentGuard.For, parentOf] at hown hfor
    | cons a path =>
      cases pg with
      | root pv => simp [ParentGuard.owner?] at hown
      | node p' pv b' =>
        obtain ⟨q, v', b⟩ := a
        obtain ⟨rfl, rfl⟩ : p' = q ∧ b' = b := hfor
        obtain rfl : p' = p := by simpa [ParentGuard.owner?] using hown
        refine RG.wp_ret ⟨by simp, Δ₂.retire c, s.epoch, s', ⟨hstays', hfol, ?_, hep.ge, hseen, hv,
          hem, hpre.trans hp.on_key, ?_, ?_⟩, hw⟩
        · rw [show (Δ₂.retire c).lo = _ from hpart.lo]
          exact le_max_right _ _
        · intro q hq
          show Δ₂.known q
          rw [hpart.known]
          exact hp.known q (by simp [hq])
        · intro hl
          subst hl
          obtain ⟨sp, h1, h2, h3, h4⟩ := hp.trail rfl
          have hnp := h4.not_mem hx hok
          refine h4.congr (hpart.top (by simp [ParentGuard.owner?])) fun q hq => ?_
          refine hpart.seen q (fun hqc => hnm rfl (by simp [← hqc, hq])) fun hqp => ?_
          obtain rfl : p' = q := by simpa [ParentGuard.owner?] using hqp
          exact hnp hq

/-! ## The follow-up -/

/-- **The follow-up** ends, and nothing is left for it to account for. -/
theorem wp_unlinkEmptied (hh : ∀ l, Γ.held l = none) (hc : Γ.clear = none)
    (hx : Pending live t Γ P key x) :
    C.rg.wp live t (unlinkEmptied key) (fun _ y => Done live t Γ P y) x := by
  refine RG.wp_iter (δ := ℕ) (fun _ y => Pending live t Γ P key y) (fun _ _ => 0) ?_ hx
  rintro _ y ⟨Δ, e, hstays, hfol, he, hy⟩
  have hh' : ∀ l, Δ.held l = none := by
    rw [hstays.held]
    exact hh
  have hc' : Δ.clear = none := hstays.clear.trans hc
  refine RG.wp_intro fun hok => ?_
  have hi := ok_tree hok
  -- Without an inner node at the root, no node is placed in the current epoch.
  have hnow : (∀ n, (tree y).root ≠ .node n) → Settled Δ (shadow y) := by
    intro hn k n p _ hp _ _
    obtain ⟨c, hroot⟩ := Shadow.root_of_placed hi.wf hp
    exact hn c (hi.root.trans hroot)
  have hend : (∀ n, (tree y).root ≠ .node n) → C.rg.wp live t (onTree .loadRoot)
      (fun r z => r = (tree y).root ∧ Done live t Γ P z) y := by
    intro hn
    refine RG.wp_mono (wp_settle hy hc' rfl fun _ => hnow hn) ?_
    rintro r z - ⟨hr, hz⟩
    exact ⟨hr, { Δ with follow := none, base := none },
      ⟨hstays.lo, hstays.held, hstays.priv, hstays.clear, hstays.due⟩, rfl, hz⟩
  cases hr : (tree y).root with
  | null =>
    refine RG.wp_seq (hend (by simp [hr])) ?_
    rintro (r : Slot) z - ⟨rfl, hz⟩
    rw [hr]
    exact RG.wp_ret hz
  | leaf l =>
    refine RG.wp_seq (hend (by simp [hr])) ?_
    rintro (r : Slot) z - ⟨rfl, hz⟩
    rw [hr]
    exact RG.wp_ret hz
  | node n =>
    refine RG.wp_seq (wp_load' hy rfl) ?_
    rintro (r : Slot) z - ⟨rfl, hz, hlater⟩
    rw [show (execTree .loadRoot (tree y)).1 = .node n from hr]
    have hz' : C.At live t (Δ.seeTop (.node n) (shadow y).cur) P z :=
      .later (hr ▸ hy.knows.seeTop) hi hlater hz.client
    refine RG.wp_seq (K := fun r u => SeekEnds live t Δ P key 0 (.inr r) u) ?_ ?_
    · refine RG.wp_iter (δ := ℕ)
        (fun s u => s.2.2 ≤ key.length ∧ Seeking live t Δ P key s.1 s.2.1 s.2.2 u)
        (fun s _ => key.length - s.2.2) ?_ (s := ([], n, 0)) ?_
      · rintro ⟨path, c, d⟩ u ⟨hd, hu⟩
        refine RG.wp_mono (wp_emptiedLevel hh' hc' hfol he hu) ?_
        rintro (⟨path', c', d'⟩ | _ | _ | _) w - hw
        · obtain ⟨h1, h2, h3⟩ := hw
          refine ⟨⟨h2, h3⟩, fun _ => ?_⟩
          simp only
          omega
        · exact hw
        · exact hw
        · exact hw
      · exact ⟨Nat.zero_le _, _, Know.Scan.rfl.seeTop, hz', ⟨by simp, Nat.zero_le _, _, rfl⟩,
          by simp, fun _ => ⟨_, rfl⟩⟩
    rintro (_ | _ | ⟨path, c, v⟩) u - hu
    · obtain ⟨hl, Δ', e', h1, h2, h3, h4⟩ := hu
      exact RG.wp_ret ⟨⟨Δ', e', hstays.trans h1, h2, h3, h4⟩, fun hl' => by simp [hl] at hl'⟩
    · obtain ⟨Δ', h1, h2, h3⟩ := hu
      exact RG.wp_ret ⟨Δ', hstays.trans h1, h2, h3⟩
    · refine RG.wp_seq (K := fun r w => ClimbEnds live t Δ P key [] (.inr r) w) ?_ ?_
      · refine RG.wp_iter (δ := ℕ)
          (fun (s : Ancestors × NodeId × ℕ) w => SeekEnds live t Δ P key 0 (.inr (some (some s))) w)
          (fun s _ => s.1.length) ?_ hu
        rintro ⟨path, c, v⟩ w ⟨Δ', e', s', hp, hw⟩
        refine RG.wp_mono (wp_unlinkLevel hh' hc' hp hw) ?_
        rintro (⟨path', c', v'⟩ | _ | _) w' - hw'
        · exact ⟨hw'.2, fun _ => hw'.1⟩
        · exact hw'
        · exact hw'
      rintro (_ | _) w - hw
      · obtain ⟨hl, Δ', e', h1, h2, h3, h4⟩ := hw
        exact RG.wp_ret ⟨⟨Δ', e', hstays.trans h1, h2, h3, h4⟩, fun hl' => by simp [hl] at hl'⟩
      · obtain ⟨Δ', h1, h2, h3⟩ := hw
        exact RG.wp_ret ⟨Δ', hstays.trans h1, h2, h3⟩

end Client

end Artmap
