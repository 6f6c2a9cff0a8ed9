import Artmap.Versioned.Walks

/-!
# The chain writers

What an operation does with the lock of a leaf in its hands: it takes effect at one store, which
places its call with the answer that the specification gives, and at the end the lock is free and
every node that has left the chain has been retired or left to its leaf.
-/

namespace Artmap

namespace Versioned

variable {V : Type} {live : Bool} {t l p v lo : ℕ} {x y : W V} {H : Hand V} {S : Scene V}
  {b : Option V} {r : Ret V} {pre post mid tail : List (Cell V)} {d e : Cell V}

/-- The thread has nothing in its hands but its call. -/
structure Hand.Clean (H : Hand V) : Prop where
  placed : H.placed = none
  lock : H.lock = none
  nodes : H.nodes = []
  bag : H.bag = []
  draft : H.draft = none
  owed : H.owed = none

lemma liveCount_cases (a : Bool) : liveCount a = 0 ∨ liveCount a = 1 := by
  cases a
  · exact .inr rfl
  · exact .inl rfl

/-! ## The end of a writer -/

/-- The lock is let go once the count is right. -/
lemma wp_countAndUnlock (hx : Holds t H x) (hlock : H.lock = some l) (hnodes : H.nodes = [])
    (hl : Locked t l S x) (hc : S.cells = d :: post) (hloose : S.loose = []) {k : ℤ}
    (hk : S.counted + k = liveCount d.value.isNone) {α : Type} {p : ChainM V α}
    {Q : α → W V → Prop}
    (hQ : ∀ y, Later x y → (rg V).Ok live t y → Holds t { H with lock := none } y →
      (rg V).wp live t p Q y) :
    (rg V).wp live t ((on (.lenAdd k)).bind fun _ => (unlock l).bind fun _ => p) Q x := by
  refine RG.wp_intro fun hok => ?_
  have hlive : S.counted + k = (versionsOf S.cells).live := by
    have hdesc := hl.desc hok.inv
    rw [hc] at hdesc
    rw [hc, hk, live_versionsOf hdesc]
  refine RG.wp_bind (wp_lenAdd hx hl k hlive fun y hy hoky hxy hly => ?_)
  exact RG.wp_bind (wp_unlock hxy hlock hnodes hly hlive hloose fun z hz hokz hxz =>
    hQ z (hy.trans hz) hokz hxz)

lemma wp_countEdit (hx : Holds t H x) (hlock : H.lock = some l) (hnodes : H.nodes = [])
    (hl : Locked t l S x) (hc : S.cells = d :: post) (hloose : S.loose = []) {old : Bool}
    (hold : S.counted = liveCount old) {Q : ℤ → W V → Prop}
    (hQ : ∀ y, Later x y → (rg V).Ok live t y → Holds t { H with lock := none } y →
      Q (liveCount d.value.isNone - liveCount old) y) :
    (rg V).wp live t (countEdit l old) Q x := by
  refine RG.wp_bind (wp_head_locked hl fun y hy hoky => ?_)
  rw [hc, firstAddr_cons]
  refine RG.wp_bind (wp_tombstone_locked (hx.rely hy) (hl.rely hy) (by simp [hc])
    fun z hz hokz => ?_)
  refine wp_countAndUnlock ((hx.rely hy).rely hz) hlock hnodes ((hl.rely hy).rely hz) hc hloose
    (by rw [hold]; omega) fun u hu hoku hxu => RG.wp_ret (hQ u ?_ hoku hxu)
  exact hy.later.trans (hz.later.trans hu)

/-- The end of a writer that has unlinked the cell `e`, or nothing. -/
lemma wp_finishEdit (hx : Holds t H x) (hlock : H.lock = some l) (hnodes : H.nodes = [])
    (hbag : H.bag = []) (hl : Locked t l S x) (hc : S.cells = d :: post) {cur : ℕ}
    {unlinked old : Bool} (hold : S.counted = liveCount old)
    (hun : unlinked = true → ∃ e, cur = e.addr ∧ S.loose = [e.addr] ∧
      Seen H.since l (fun c => e ∈ c.cells) x)
    (hno : unlinked = false → S.loose = []) {Q : ℤ → W V → Prop}
    (hQ : ∀ y, Later x y → (rg V).Ok live t y → Holds t { H with lock := none } y →
      Q (liveCount d.value.isNone - liveCount old) y) :
    (rg V).wp live t (finishEdit l cur unlinked old) Q x := by
  cases unlinked with
  | false => exact wp_countEdit hx hlock hnodes hl hc (hno rfl) hold hQ
  | true =>
    obtain ⟨e, rfl, hloose, hs⟩ := hun rfl
    refine RG.wp_bind (wp_mark [] hx hl (by simp [hloose]) hs (by simp [hloose])
      fun y hy hoky hxy hly _ => ?_)
    refine RG.wp_bind (wp_countEdit hxy hlock hnodes hly hc rfl hold fun z hz hokz hxz => ?_)
    refine RG.wp_bind (wp_retireVersion [] hxz List.mem_cons_self
      (hs.later (hy.trans hz)) (fun q l' => ?_) fun u hu hoku hxu => RG.wp_ret ?_)
    · rw [hbag]
      simp only [List.not_mem_nil, List.mem_singleton, Prod.mk.injEq, false_iff, not_and, not_not]
      exact And.left
    · refine hQ u (hy.trans (hz.trans hu)) hoku ?_
      rw [← hbag] at hxu
      exact hxu

/-! ## Putting a version -/

/-- What leaves a chain, if `mid` is taken out of it and `new` comes in. -/
lemma Locked.removed (new : List (Cell V)) (hi : Inv x.mem x.hist x.ghost) (hl : Locked t l S x)
    (hc : S.cells = pre ++ mid ++ tail) (hnew : ∀ e ∈ new, e.addr ∉ addrs S.cells) (q : ℕ) :
    q ∈ addrs mid ↔ q ∈ addrs S.cells ∧ q ∉ addrs (pre ++ new ++ tail) := by
  have hdesc := hl.desc hi
  rw [hc, List.append_assoc] at hdesc
  obtain ⟨-, hrest, hpre⟩ := List.pairwise_append.mp hdesc
  obtain ⟨-, -, htail⟩ := List.pairwise_append.mp hrest
  simp only [mem_addrs]
  constructor
  · rintro ⟨e, he, rfl⟩
    have hec : e ∈ S.cells := by simp [hc, he]
    refine ⟨⟨e, hec, rfl⟩, ?_⟩
    rintro ⟨e', he', ha⟩
    simp only [List.mem_append] at he'
    rcases he' with (he' | he') | he'
    · obtain rfl := hl.addr_inj hi (by simp [hc, he']) hec ha
      exact absurd (hpre e' he' e' (List.mem_append_left _ he)) (lt_irrefl _)
    · exact hnew e' he' (mem_addrs.mpr ⟨e, hec, ha.symm⟩)
    · obtain rfl := hl.addr_inj hi (by simp [hc, he']) hec ha
      exact absurd (htail e' he e' he') (lt_irrefl _)
  · rintro ⟨⟨e, he, rfl⟩, hout⟩
    rw [hc] at he
    simp only [List.mem_append] at he
    rcases he with (he | he) | he
    · exact absurd ⟨e, by simp [he], rfl⟩ hout
    · exact ⟨e, he, rfl⟩
    · exact absurd ⟨e, by simp [he], rfl⟩ hout

/-- A search for a version stops at its node, or where it belongs. -/
lemma wp_isVersion (hx : Holds t H x) (hl : Locked t l S x) (hc : S.cells = pre ++ post)
    (hpost : ∀ d ∈ post, d.version ≤ v) {Q : Bool → W V → Prop}
    (hhit : ∀ y e tail, Rely t x y → (rg V).Ok live t y → post = e :: tail → e.version = v →
      (∀ d ∈ tail, d.version < v) → Q true y)
    (hmiss : ∀ y, Rely t x y → (rg V).Ok live t y → (∀ d ∈ post, d.version < v) → Q false y) :
    (rg V).wp live t (isVersion v (firstAddr post)) Q x := by
  refine RG.wp_intro fun hok => ?_
  have hdesc := hl.desc hok.inv
  rw [hc] at hdesc
  cases post with
  | nil => exact RG.wp_ret (hmiss x (Rely.refl t x) hok (by simp))
  | cons e tail =>
    have he : e ∈ S.cells := by simp [hc]
    rw [firstAddr_cons, isVersion, if_neg (hl.addr_ok hok.inv he).1]
    refine RG.wp_bind (wp_version_locked hx hl he fun y hy hoky => RG.wp_ret ?_)
    have hlt : ∀ d ∈ tail, d.version < e.version := fun d hd => hdesc.lt_of_mem_post hd
    by_cases hv : e.version = v
    · rw [decide_eq_true hv]
      exact hhit y e tail hy hoky rfl hv fun d hd => hv ▸ hlt d hd
    · rw [decide_eq_false hv]
      have hev := lt_of_le_of_ne (hpost e (by simp)) hv
      refine hmiss y hy hoky fun d hd => ?_
      rcases List.mem_cons.mp hd with rfl | hd
      · exact hev
      · exact (hlt d hd).trans hev

/-- The new node is linked between the newer cells and the older ones, in place of `mid`. -/
lemma wp_putNode {n : VersionNode V} (hx : Holds t H x) (hplaced : H.placed = none)
    (hlock : H.lock = some l) (hnodes : H.nodes = [p]) (hl : Locked t l S x)
    (hloose : S.loose = []) (hc : S.cells = pre ++ mid ++ tail)
    (hpre : ∀ e ∈ pre, v < e.version) (hmid : ∀ e ∈ mid, e.version = v)
    (htail : ∀ e ∈ tail, e.version < v) (ho : Owned t p n x) (hn : Matches n ⟨p, v, b⟩)
    (hready : Ready S.leaf p n)
    (hstep : ∀ s : MapState V, s l = some ⟨versionsOf S.cells, false⟩ →
      Step s H.op r (Function.update s l (some ⟨(versionsOf S.cells).put v b, false⟩)))
    {Q : Unit → W V → Prop}
    (hQ : ∀ y leaf, Later x y → (rg V).Ok live t y →
      Holds t { H with placed := some r, nodes := [] } y →
      Locked t l ⟨pre ++ ⟨p, v, b⟩ :: tail, S.counted, addrs mid, leaf⟩ y → Q () y) :
    (rg V).wp live t ((storeNext p (firstAddr tail)).bind fun _ => link l (lastAddr pre) p)
      Q x := by
  refine RG.wp_bind (wp_initNext hx hl ho (firstAddr tail) fun y hy hoky hxy hly hoy => ?_)
  refine RG.wp_intro fun _ => ?_
  have hi := hoky.inv
  have hdesc := hly.desc hi
  have h8 : 8 ∣ firstAddr tail := by
    cases tail with
    | nil => simp
    | cons e tail => exact (hly.addr_ok hi (d := e) (by simp [hc])).2
  have hflag : ∀ flag, hasFlag (retag n.next (firstAddr tail)) flag = hasFlag n.next flag :=
    fun flag => hasFlag_retag h8
  have hlinked : Linked y.mem.node (firstAddr tail) tail := by
    have hl := hly.linked hi
    rw [hc] at hl
    cases hs : tail with
    | nil => rfl
    | cons e tail =>
      rw [hs] at hl
      exact ⟨rfl, hl.after⟩
  have hp : p ∉ addrs S.cells := by
    rintro hp
    obtain ⟨e, he, rfl⟩ := mem_addrs.mp hp
    have := hly.whose hi he
    rw [hoy.owner] at this
    simp at this
  have hr : Relink t S pre (mid ++ tail) (⟨p, v, b⟩ :: tail) y := by
    refine ⟨by rw [hc, List.append_assoc], by simp, ?_, ⟨rfl, ?_⟩, fun e he => ?_⟩
    · rw [hc] at hdesc
      exact hdesc.replace hpre htail
    · rw [firstAddr_cons, hoy.node, linkOf_retag h8]
      exact hlinked
    · rcases List.mem_cons.mp he with rfl | he
      · refine .inr ⟨_, hoy, ⟨hn.version, hn.value, ?_⟩, ?_⟩
        · exact (hflag _).trans hn.tombstone
        · exact ⟨(hflag _).trans hready.unmarked, by rw [hflag]; exact hready.inline_iff,
            hready.used⟩
      · exact .inl (List.mem_append_right _ he)
  have hput : versionsOf (pre ++ ⟨p, v, b⟩ :: tail) = (versionsOf S.cells).put v b := by
    rw [hc] at hdesc ⊢
    exact versionsOf_put hdesc hpre hmid htail
  refine wp_link [] (addrs mid) hxy hplaced hlock hly hloose hr (fun s hs => ?_) (fun q => ?_)
    (fun q => ?_) fun z leaf hz hokz hxz hlz _ => hQ z leaf (hy.trans hz) hokz hxz hlz
  · rw [hput]
    exact hstep s hs
  · rw [hnodes]
    simp only [List.not_mem_nil, List.mem_singleton, false_iff, not_and, not_not]
    rintro rfl
    simp [addrs]
  · have := hly.removed [⟨p, v, b⟩] hi hc (by simpa using hp) q
    simpa using this

/-- `apply_locked` puts the version. -/
lemma wp_applyLocked (ans : ℤ → Ret V) (hx : Holds t H x) (hplaced : H.placed = none)
    (hlock : H.lock = some l) (hnodes : H.nodes = []) (hbag : H.bag = []) (hl : Locked t l S x)
    (hS : S.Fresh) (v : ℕ) (b : Option V)
    (hstep : ∀ (s : MapState V) M, s l = some ⟨M, false⟩ →
      Step s H.op (ans ((M.put v b).live - M.live))
        (Function.update s l (some ⟨M.put v b, false⟩)))
    {Q : ℤ → W V → Prop}
    (hQ : ∀ y k, Later x y → (rg V).Ok live t y →
      Holds t { H with placed := some (ans k), lock := none } y → Q k y) :
    (rg V).wp live t (applyLocked l v b) Q x := by
  obtain ⟨d, rest, hd⟩ := List.exists_cons_of_ne_nil hS.nonempty
  refine RG.wp_bind (wp_head_locked hl fun y hy hoky => ?_)
  rw [hd, firstAddr_cons]
  refine RG.wp_bind (wp_tombstone_locked (hx.rely hy) (hl.rely hy) (by simp [hd])
    fun z hz hokz => ?_)
  have hxz := (hx.rely hy).rely hz
  have hlz := (hl.rely hy).rely hz
  have hold : S.counted = liveCount d.value.isNone := by
    have hdesc := hS.desc
    rw [hS.counted]
    rw [hd] at hdesc ⊢
    exact live_versionsOf hdesc
  rw [← firstAddr_cons d rest, ← hd]
  refine RG.wp_bind (wp_position hxz hlz v fun u pre post hu hoku hc hpre hpost => ?_)
  refine RG.wp_bind (wp_allocVersion (hxz.rely hu) hnodes (hlz.rely hu) v b
    fun w p n leaf hw hokw hxw hlw how hnw hrw => ?_)
  have hxw' : Later x w := hy.later.trans (hz.later.trans (hu.later.trans hw))
  -- Linking the node in place of `mid`, and the end of the writer.
  have hlast : ∀ (q : W V) (mid tail : List (Cell V)) (cur : ℕ) (replaced : Bool),
      Rely t w q → (rg V).Ok live t q → post = mid ++ tail → (∀ e ∈ mid, e.version = v) →
      (∀ e ∈ tail, e.version < v) →
      (replaced = true → ∃ e, cur = e.addr ∧ mid = [e]) → (replaced = false → mid = []) →
      (rg V).wp live t ((storeNext p (firstAddr tail)).bind fun _ =>
        (link l (lastAddr pre) p).bind fun _ => finishEdit l cur replaced d.value.isNone) Q q := by
    intro q mid tail cur replaced hq hokq hmt hmid htail hrep hno
    have hlq := hlw.rely hq
    have hcs : S.cells = pre ++ mid ++ tail := by rw [hc, hmt, List.append_assoc]
    have hdesc : Desc (pre ++ mid ++ tail) := hcs ▸ hS.desc
    have hput := versionsOf_put (d := ⟨p, v, b⟩) hdesc hpre hmid htail
    obtain ⟨d', rest', hd'⟩ : ∃ d' rest', pre ++ ⟨p, v, b⟩ :: tail = d' :: rest' :=
      List.exists_cons_of_ne_nil (by simp)
    have hlive : ((versionsOf S.cells).put v b).live - (versionsOf S.cells).live =
        liveCount d'.value.isNone - liveCount d.value.isNone := by
      have hdesc' : Desc (pre ++ ⟨p, v, b⟩ :: tail) := hdesc.replace hpre htail
      rw [← hS.counted, hold, hcs, ← hput]
      rw [hd'] at hdesc' ⊢
      rw [live_versionsOf hdesc']
    have hxq : Holds t { H with nodes := [p] } q := hxw.rely hq
    have hseen : ∀ e ∈ mid, Seen H.since l (fun c => e ∈ c.cells) q := by
      intro e he
      have hs := hlq.seen_mem hokq.inv hxq (d := e) (by simp [hcs, he])
      exact hs
    rw [← Prog.bind_assoc]
    refine RG.wp_bind (wp_putNode hxq hplaced hlock rfl hlq hS.loose hcs hpre hmid htail
      (how.rely hq) hnw hrw (fun s hs => hlive ▸ hstep s _ hs) fun a leaf' ha hoka hxa hla => ?_)
    refine wp_finishEdit hxa hlock rfl hbag hla hd' hold (fun hr => ?_) (fun hr => ?_)
      fun b' hb' hokb' hxb' => hQ b' _ (hxw'.trans (hq.later.trans (ha.trans hb'))) hokb' ?_
    · obtain ⟨e, rfl, rfl⟩ := hrep hr
      exact ⟨e, rfl, rfl, (hseen e (by simp)).later ha⟩
    · rw [hno hr]
      rfl
    · rw [← hnodes] at hxb'
      exact hxb'
  refine RG.wp_bind (wp_isVersion hxw hlw hc hpost (fun q e tail hq hokq hpe hev htl => ?_)
    fun q hq hokq hlt => ?_)
  · subst hpe
    rw [if_pos rfl, firstAddr_cons]
    refine RG.wp_bind (wp_next_locked (hxw.rely hq) (hlw.rely hq) hc fun a ha hoka => ?_)
    exact hlast a [e] tail e.addr true (hq.trans ha) hoka rfl (by simpa using hev) htl
      (fun _ => ⟨e, rfl, rfl⟩) (by simp)
  · rw [if_neg (by simp)]
    exact hlast q [] post _ false hq hokq rfl (by simp) hlt (by simp) fun _ => rfl

/-! ## Taking a version out -/

lemma lastAddr_eq_zero (hi : Inv x.mem x.hist x.ghost) (hl : Locked t l S x)
    (hc : S.cells = pre ++ post) : lastAddr pre = 0 ↔ pre = [] := by
  rcases List.eq_nil_or_concat' pre with rfl | ⟨pre, d, rfl⟩
  · simp
  · rw [lastAddr_concat]
    have := (hl.addr_ok hi (d := d) (by simp [hc])).1
    simp [this]

lemma firstAddr_eq_zero (hi : Inv x.mem x.hist x.ghost) (hl : Locked t l S x)
    (hc : S.cells = pre ++ post) : firstAddr post = 0 ↔ post = [] := by
  cases post with
  | nil => simp
  | cons d post =>
    have := (hl.addr_ok hi (d := d) (by simp [hc])).1
    simp [this]

/-- `remove_head` replaces a live head by a tombstone. -/
lemma wp_replaceHead {a : V} (hx : Holds t H x) (hplaced : H.placed = none)
    (hlock : H.lock = some l) (hnodes : H.nodes = []) (hbag : H.bag = []) (hl : Locked t l S x)
    (hS : S.Fresh) (hc : S.cells = d :: post) (ha : d.value = some a)
    (hstep : ∀ s : MapState V, s l = some ⟨versionsOf S.cells, false⟩ →
      Step s H.op r (Function.update s l
        (some ⟨(versionsOf S.cells).put d.version none, false⟩)))
    {Q : Unit → W V → Prop}
    (hQ : ∀ y, Later x y → (rg V).Ok live t y →
      Holds t { H with placed := some r, lock := none } y → Q () y) :
    (rg V).wp live t (replaceHead l d.addr) Q x := by
  have hd : d ∈ S.cells := by simp [hc]
  have hcs : S.cells = [] ++ [d] ++ post := by simp [hc]
  have hdesc : Desc ([] ++ d :: post) := by
    rw [List.nil_append, ← hc]
    exact hS.desc
  refine RG.wp_bind (wp_version_locked hx hl hd fun y hy hoky => ?_)
  refine RG.wp_bind (wp_allocVersion (hx.rely hy) hnodes (hl.rely hy) d.version none
    fun z p n leaf hz hokz hxz hlz hoz hnz hrz => ?_)
  have hcons : S.cells = [] ++ d :: post := hc
  refine RG.wp_bind (wp_next_locked hxz hlz hcons fun u hu hoku => ?_)
  have hxu : Holds t { H with nodes := [p] } u := hxz.rely hu
  have hlu := hlz.rely hu
  have hseen : Seen H.since l (fun c => d ∈ c.cells) u := by
    have hs := hlu.seen_mem hoku.inv hxu hd
    exact hs
  show (rg V).wp live t ((storeNext p (firstAddr post)).bind fun _ =>
    (link l (lastAddr ([] : List (Cell V))) p).bind fun _ => _) Q u
  rw [← Prog.bind_assoc]
  refine RG.wp_bind (wp_putNode hxu hplaced hlock rfl hlu hS.loose hcs (by simp) (by simp)
    (fun e he => hdesc.lt_of_mem_post he) (hoz.rely hu) hnz hrz hstep
    fun v leaf' hv hokv hxv hlv => ?_)
  refine RG.wp_bind (wp_mark [] hxv hlv (by simp [addrs]) (hseen.later hv) (by simp [addrs])
    fun w hw hokw hxw hlw _ => ?_)
  have hcount : S.counted = 1 := by
    have := hS.desc
    rw [hS.counted]
    rw [hc] at this ⊢
    rw [live_versionsOf this, ha]
    rfl
  refine wp_countAndUnlock hxw hlock rfl hlw rfl rfl (by rw [hcount]; rfl)
    fun q hq hokq hxq => ?_
  refine wp_retireVersion [] hxq List.mem_cons_self (hseen.later (hv.trans (hw.trans hq)))
    (fun q l' => ?_) fun o ho hoko hxo => hQ o ?_ hoko ?_
  · rw [hbag]
    simp only [List.not_mem_nil, List.mem_singleton, Prod.mk.injEq, false_iff, not_and, not_not]
    exact And.left
  · exact hy.later.trans (hz.trans (hu.later.trans (hv.trans (hw.trans (hq.trans ho)))))
  · rw [← hbag, ← hnodes] at hxo
    exact hxo

/-- The chain has one cell, of version `v`. -/
def Lone (v : ℕ) (cs : List (Cell V)) : Prop :=
  ∃ d : Cell V, cs = [d] ∧ d.version = v

/-- `remove_version` takes one version of several out. -/
lemma wp_removeLocked (hx : Holds t H x) (hplaced : H.placed = none) (hlock : H.lock = some l)
    (hnodes : H.nodes = []) (hbag : H.bag = []) (hl : Locked t l S x) (hS : S.Fresh) (v : ℕ)
    (hstep : ∀ (s : MapState V) M w, s l = some ⟨M, false⟩ → (M v).isSome → (M w).isSome → w ≠ v →
      Step s H.op r (Function.update s l (some ⟨M.erase v, false⟩)))
    {Q : Option Bool → W V → Prop}
    (hdone : ∀ y, Later x y → (rg V).Ok live t y →
      Holds t { H with placed := some r, lock := none } y → Q (some true) y)
    (hnone : ∀ y, Later x y → (rg V).Ok live t y → Holds t { H with lock := none } y →
      Seen H.since l (fun c => c.dead = false ∧ versionsOf c.cells v = none) y → Q (some false) y)
    (honly : ∀ y, Later x y → (rg V).Ok live t y → Holds t { H with lock := none } y →
      Seen H.since l (fun c => c.dead = false ∧ Lone v c.cells) y →
      Q none y) :
    (rg V).wp live t (removeLocked l v) Q x := by
  obtain ⟨d, rest, hd⟩ := List.exists_cons_of_ne_nil hS.nonempty
  refine RG.wp_bind (wp_head_locked hl fun y hy hoky => ?_)
  refine RG.wp_bind (wp_position (hx.rely hy) (hl.rely hy) v
    fun z pre post hz hokz hc hpre hpost => ?_)
  have hxz := (hx.rely hy).rely hz
  have hlz := (hl.rely hy).rely hz
  have hxz' := hy.later.trans hz.later
  refine RG.wp_bind (wp_isVersion hxz hlz hc hpost (fun u e tail hu hoku hpe hev htl => ?_)
    fun u hu hoku hlt => ?_)
  · subst hpe
    have hxu := hxz.rely hu
    have hlu := hlz.rely hu
    rw [if_pos rfl, firstAddr_cons]
    refine RG.wp_bind (wp_next_locked hxu hlu hc fun w hw hokw => ?_)
    have hxw := hxu.rely hw
    have hlw := hlu.rely hw
    have htail : S.cells = (pre ++ [e]) ++ tail := by simp [hc]
    have hcond := and_congr (lastAddr_eq_zero hokw.inv hlw hc)
      (firstAddr_eq_zero hokw.inv hlw htail)
    by_cases halone : pre = [] ∧ tail = []
    · rw [if_pos (hcond.mpr halone)]
      refine RG.wp_bind (wp_unlock hxw hlock hnodes hlw hS.counted hS.loose fun o ho hoko hxo =>
        RG.wp_ret (honly o (hxz'.trans (hu.later.trans (hw.later.trans ho))) hoko hxo ?_))
      refine Seen.later ho ((hlw.seen (hxw.since_le hokw.inv)).mono fun c hcs => ?_)
      rw [hcs]
      refine ⟨rfl, e, ?_, hev⟩
      show S.cells = [e]
      rw [hc, halone.1, halone.2]
      rfl
    · rw [if_neg (mt hcond.mp halone), hd, firstAddr_cons]
      refine RG.wp_bind (wp_tombstone_locked hxw hlw (d := d) (by simp [hd]) fun a ha hoka => ?_)
      refine RG.wp_bind (wp_next_locked (hxw.rely ha) (hlw.rely ha) hc fun b hb hokb => ?_)
      have hxb := (hxw.rely ha).rely hb
      have hlb := (hlw.rely ha).rely hb
      have hxb' := hxz'.trans (hu.later.trans (hw.later.trans (ha.later.trans hb.later)))
      have hdesc : Desc (pre ++ e :: tail) := hc ▸ hS.desc
      have hne : pre ++ tail ≠ [] := by simpa using halone
      have hr : Relink t S pre (e :: tail) tail b := by
        refine ⟨hc, hne, hdesc.drop, ?_, fun c hc => .inl (List.mem_cons_of_mem e hc)⟩
        have hlink := hlb.linked hokb.inv
        rw [hc] at hlink
        have := hlink.after
        rwa [this.first] at this
      obtain ⟨c, hcin⟩ := List.exists_mem_of_ne_nil _ hne
      have hcv : c.version ≠ v := by
        rcases List.mem_append.mp hcin with hm | hm
        · exact (hpre c hm).ne'
        · exact (htl c hm).ne
      have hcm : c ∈ S.cells := by
        rw [hc]
        exact ((List.sublist_cons_self e tail).append_left pre).subset hcin
      have hmid : S.cells = pre ++ [e] ++ tail := by simp [hc]
      have herase : ∀ s : MapState V, s l = some ⟨versionsOf S.cells, false⟩ →
          Step s H.op r (Function.update s l (some ⟨versionsOf (pre ++ tail), false⟩)) := by
        intro s hs
        rw [versionsOf_erase hdesc, hev, ← hc]
        refine hstep s _ c.version hs ?_ ?_ hcv
        · exact (versionsOf_isSome hS.desc).mpr ⟨e, by simp [hc], hev⟩
        · exact (versionsOf_isSome hS.desc).mpr ⟨c, hcm, rfl⟩
      refine RG.wp_bind (wp_link [] [e.addr] hxb hplaced hlock hlb hS.loose hr herase
        (by simp [hnodes]) (fun q => ?_) fun o leaf ho hoko hxo hlo _ => ?_)
      · have := hlb.removed [] hokb.inv hmid (by simp) q
        simpa [addrs] using this
      · obtain ⟨d', rest', hd'⟩ := List.exists_cons_of_ne_nil hne
        have hold : S.counted = liveCount d.value.isNone := by
          have := hS.desc
          rw [hS.counted]
          rw [hd] at this ⊢
          exact live_versionsOf this
        refine RG.wp_bind (wp_finishEdit hxo hlock rfl hbag hlo hd' hold (fun _ => ?_) (by simp)
          fun q hq hokq hxq => RG.wp_ret (hdone q (hxb'.trans (ho.trans hq)) hokq ?_))
        · exact ⟨e, rfl, rfl, (hlb.seen_mem hokb.inv hxb (by simp [hc])).later ho⟩
        · rw [← hnodes] at hxq
          exact hxq
  · rw [if_neg (by simp)]
    have hxu := hxz.rely hu
    have hlu := hlz.rely hu
    refine RG.wp_bind (wp_unlock hxu hlock hnodes hlu hS.counted hS.loose fun o ho hoko hxo =>
      RG.wp_ret (hnone o (hxz'.trans (hu.later.trans ho)) hoko hxo ?_))
    refine Seen.later ho ((hlu.seen (hxu.since_le hoku.inv)).mono fun c hcs => ?_)
    subst hcs
    refine ⟨rfl, ?_⟩
    rw [← Option.not_isSome_iff_eq_none, versionsOf_isSome hS.desc, hc]
    rintro ⟨e, he, rfl⟩
    rcases List.mem_append.mp he with he | he
    · exact absurd (hpre e he) (lt_irrefl _)
    · exact absurd (hlt e he) (lt_irrefl _)

end Versioned

end Artmap
