import Artmap.Versioned.Edits

/-!
# Building, publishing and killing leaves

Rules for the steps that bring a leaf of a versioned map into the tree and out of it.
-/

namespace Artmap

namespace Versioned

variable {V : Type} {live : Bool} {t l l' p v : ℕ} {x y : W V} {H : Hand V} {S : Scene V}
  {b : Option V} {r : Ret V}

/-! ## Killing -/

/-- The holder of a lock kills the leaf, and the call takes effect. -/
lemma wp_kill (hx : Holds t H x) (hplaced : H.placed = none)
    (hlock : H.lock = some l) (hnodes : H.nodes = []) (howed : H.owed = none)
    (hl : Locked t l S x) (hloose : S.loose = [])
    (hstep : ∀ s : MapState V, s l = some ⟨versionsOf S.cells, false⟩ →
      Step s H.op r (Function.update s l (some ⟨versionsOf S.cells, true⟩)))
    {Q : Unit → W V → Prop}
    (hQ : ∀ y, Later x y → (rg V).Ok live t y →
      Holds t { H with placed := some r, lock := none, owed := some l } y →
      y.ghost.counted l = S.counted → Q () y) :
    (rg V).wp live t (kill l) Q x := by
  have hcall := hx.run
  rw [hplaced] at hcall
  have hseen : seen x.ghost.now l = some ⟨versionsOf S.cells, false⟩ := by
    simp [seen, hl.now, ChainState.seen]
  have hnl : ∀ p, x.ghost.whose p ≠ .loose l := by
    intro p hp
    have := (hl.loose p).mp hp
    simp [hloose] at this
  have hnt : ∀ p, x.ghost.whose p ≠ .thread t := by
    intro p hp
    have := (hx.thread p).mp hp
    simp [hnodes] at this
  refine RG.wp_intro fun hok => wp_write
    ((x.ghost.commit t l ⟨S.cells, true⟩ H.id H.op r).bury t l) rfl hl.holder
    (fun t' ht' => kill_rely hok.inv hl.holder hl.now ht') ?_
    (kill_inv hok.inv hcall hl.holder (hx.one_lock hlock) hl.now hnl hnt (hstep _ hseen))
    (fun y hy hoky => ?_) (.commit ⟨rfl, rfl⟩ (Function.update_self ..)
      fun l' => .inl ⟨rfl, fun hn => ?_⟩)
  · simp [Ghost.bury, Ghost.commit, hcall]
  rotate_left
  · have hll : l' ≠ l := by
      rintro rfl
      simp [hl.now] at hn
    show (x.ghost.commit t l ⟨S.cells, true⟩ H.id H.op r).now l' = none
    simpa [hll] using hn
  have hlater : Later x ⟨x.mem.setLatch l chainDead, x.hist,
      (x.ghost.commit t l ⟨S.cells, true⟩ H.id H.op r).bury t l⟩ :=
    (kill_rely hok.inv hl.holder hl.now (Nat.succ_ne_self t)).later
  have hwhose : (x.ghost.commit t l ⟨S.cells, true⟩ H.id H.op r).whose = x.ghost.whose :=
    commit_whose_same hok.inv hl.now
  have hholds : Holds t { H with placed := some r, lock := none, owed := some l }
      ⟨x.mem.setLatch l chainDead, x.hist,
        (x.ghost.commit t l ⟨S.cells, true⟩ H.id H.op r).bury t l⟩ := by
    refine
      { run := Function.update_self .., since := hx.since, holder := fun l' => ?_
        thread := fun p => ?_, carried := fun p l' => ?_, draft := hx.draft, owed := fun l' => ?_ }
    · by_cases hll : l' = l
      · subst hll
        simp [Ghost.bury]
      · simp only [Ghost.bury, Function.update_of_ne hll, reduceCtorEq, iff_false]
        exact fun h => hll (hx.one_lock hlock l' h)
    · rw [← hx.thread p]
      exact Eq.congr_left (congrFun hwhose p)
    · rw [← hx.carried p l']
      exact Eq.congr_left (congrFun hwhose p)
    · have hone := hx.owed l'
      rw [howed] at hone
      by_cases hll : l' = l
      · subst hll
        simp [Ghost.bury]
      · simp only [Ghost.bury, Function.update_of_ne hll, Option.some.injEq, Ne.symm hll, iff_false]
        exact fun h => by simpa using hone.mp h
  refine hQ y (hlater.trans hy.1.later) hoky (hholds.rely hy.1) ?_
  rw [hy.1.owedCount l ((hholds.owed l).mpr rfl)]
  exact hl.counted

lemma wp_unlink (hx : Holds t H x) (howed : H.owed = some l) {Q : Unit → W V → Prop}
    (hQ : ∀ y, Rely t x y → (rg V).Ok live t y → y.mem.unlinked l = true → Q () y) :
    (rg V).wp live t (on (.unlink l)) Q x := by
  refine RG.wp_intro fun hok => wp_write x.ghost rfl trivial (fun t' _ => unlink_rely l) rfl
    (unlink_inv hok.inv ((hx.owed l).mpr howed)) fun y hy hoky => ?_
  exact hQ y ((unlink_rely l).trans hy.1) hoky (hy.1.later.unlinked l (Function.update_self ..))

/-! ## Building -/

/-- A leaf is built. -/
lemma wp_newLeaf (hx : Holds t H x) (hnodes : H.nodes = []) (hdraft : H.draft = none) (v : ℕ)
    (b : Option V) {Q : ℕ → W V → Prop}
    (hQ : ∀ y l p, Later x y → (rg V).Ok live t y →
      Holds t { H with nodes := [p], draft := some l } y → Drafted t l v b y.mem y.ghost →
      (y.mem.leaf l).slot0 = p → y.ghost.counted l = 0 → Q l y) :
    (rg V).wp live t (on (.newLeaf v b)) Q x := by
  refine RG.wp_intro fun hok => wp_write (x.ghost.build x.mem.nextLeaf t x.mem.nextAddr) rfl trivial
    (fun t' ht' => newLeaf_rely hok.inv ht' v b) rfl
    (newLeaf_inv hok.inv (by rw [hx.run]; simp) v b) fun y hy hoky => ?_
  have hself :
      (x.ghost.build x.mem.nextLeaf t x.mem.nextAddr).whose x.mem.nextAddr = .thread t := by
    simp [Ghost.build, Ghost.give]
  have hfree : ∀ q, x.mem.nextAddr ≤ q → x.ghost.whose q = .free := fun q hq =>
    hok.inv.nodes.free hq
  have hd : Drafted t x.mem.nextLeaf v b (x.mem.addLeaf v b)
      (x.ghost.build x.mem.nextLeaf t x.mem.nextAddr) := by
    refine ⟨Function.update_self .., ?_, ?_, ?_, ?_, ?_⟩ <;> rw [addLeaf_leaf_self]
    · exact hself
    · exact Function.update_self ..
  have hholds : Holds t { H with nodes := [x.mem.nextAddr], draft := some x.mem.nextLeaf }
      ⟨x.mem.addLeaf v b, x.hist, x.ghost.build x.mem.nextLeaf t x.mem.nextAddr⟩ := by
    refine { hx with thread := fun q => ?_, carried := fun q l' => ?_, draft := fun l' => ?_ }
    · have hone := hx.thread q
      rw [hnodes] at hone
      by_cases h8 : q = x.mem.nextAddr + 8
      · subst h8
        simp [Ghost.build, Ghost.give]
      · by_cases h0 : q = x.mem.nextAddr
        · subst h0
          simp [hself]
        · rw [build_whose_ne h0 h8, hone]
          simp [h0]
    · rw [← hx.carried q l']
      by_cases h8 : q = x.mem.nextAddr + 8
      · subst h8
        simp [Ghost.build, Ghost.give, hfree (x.mem.nextAddr + 8) (by omega)]
      · by_cases h0 : q = x.mem.nextAddr
        · subst h0
          simp [hself, hfree x.mem.nextAddr le_rfl]
        · rw [build_whose_ne h0 h8]
    · have hone := hx.draft l'
      rw [hdraft] at hone
      by_cases hll : l' = x.mem.nextLeaf
      · subst hll
        simp [Ghost.build]
      · simp [Ghost.build, hll, hone, Ne.symm hll]
  have hlater : Later x ⟨x.mem.addLeaf v b, x.hist,
      x.ghost.build x.mem.nextLeaf t x.mem.nextAddr⟩ :=
    (newLeaf_rely hok.inv (Nat.succ_ne_self t) v b).later
  refine hQ y x.mem.nextLeaf x.mem.nextAddr (hlater.trans hy.1.later) hoky (hholds.rely hy.1)
    (hd.rely hy.1) ?_ ?_
  · rw [(hy.1.draftLeaf _ hd.draft).1]
    show ((x.mem.addLeaf v b).leaf x.mem.nextLeaf).slot0 = _
    rw [addLeaf_leaf_self]
  · rw [(hy.1.draftLeaf _ hd.draft).2]
    exact (hok.inv.unbuilt le_rfl).2.2

/-! ## Publishing -/

/-- The leaf that the thread has built is published, and the call takes effect. -/
lemma wp_publish (hx : Holds t H x) (hplaced : H.placed = none) (hlock : H.lock = none)
    (hnodes : H.nodes = [p]) (hdraft : H.draft = some l) (hd : Drafted t l v b x.mem x.ghost)
    (hp : (x.mem.leaf l).slot0 = p) (hc : x.ghost.counted l = liveCount b.isNone)
    (hstep : ∀ s : MapState V, s l = none →
      Step s H.op r (Function.update s l (some ⟨versionsOf [⟨p, v, b⟩], false⟩)))
    {Q : Unit → W V → Prop}
    (hQ : ∀ y, Later x y → (rg V).Ok live t y →
      Holds t { H with placed := some r, nodes := [], draft := none } y → Q () y) :
    (rg V).wp live t (on (.publish l)) Q x := by
  subst hp
  have hcall := hx.run
  rw [hplaced] at hcall
  have hone : ∀ l', x.ghost.holder l' ≠ some t := by
    intro l' hl'
    have := (hx.holder l').mp hl'
    simp [hlock] at this
  set c : ChainState V := ⟨[⟨(x.mem.leaf l).slot0, v, b⟩], false⟩ with hc'
  refine RG.wp_intro fun hok => ?_
  have hnow := (hok.inv.leafs.draft l t hd.draft).1
  refine wp_write ((x.ghost.commit t l c H.id H.op r).undraft l) rfl hd.draft
    (fun t' ht' => publish_rely hok.inv hd ht') ?_
    (publish_inv hok.inv hd hcall hone hc (hstep _ (by simp [seen, hnow])))
    (fun y hy hoky => ?_) (.commit ⟨rfl, rfl⟩ (Function.update_self ..) fun l' => ?_)
  · simp [Ghost.undraft, Ghost.commit, hcall]
  rotate_left
  · by_cases hll : l' = l
    · subst hll
      refine .inr (.inl fun c' hc' => ?_)
      have hc' : (x.ghost.commit t l' c H.id H.op r).now l' = some c' := hc'
      obtain rfl : c = c' := by simpa using hc'
      exact hc.trans (live_versionsOf (d := ⟨(x.mem.leaf l').slot0, v, b⟩)
        (List.pairwise_singleton _ _)).symm
    · refine .inl ⟨rfl, fun hn => ?_⟩
      show (x.ghost.commit t l c H.id H.op r).now l' = none
      simpa [hll] using hn
  have hr : Renews x.mem x.mem x.ghost t l c.cells := { Renews.publish hd with }
  have hin : (x.mem.leaf l).slot0 ∈ addrs c.cells := by simp [addrs, hc']
  have hholds : Holds t { H with placed := some r, nodes := [], draft := none }
      ⟨{ x.mem with published := Function.update x.mem.published l true }, x.hist,
        (x.ghost.commit t l c H.id H.op r).undraft l⟩ := by
    refine
      { run := Function.update_self .., since := hx.since, holder := hx.holder
        thread := fun q => ?_, carried := fun q l' => ?_, draft := fun l' => ?_, owed := hx.owed }
    · show (x.ghost.commit t l c H.id H.op r).whose q = _ ↔ _
      by_cases hq : q = (x.mem.leaf l).slot0
      · subst hq
        rw [commit_whose_mem hin]
        simp
      · have hthread := hx.thread q
        rw [hnodes] at hthread
        have hout : q ∉ addrs c.cells := by simpa [addrs, hc'] using hq
        by_cases hw : x.ghost.whose q = .linked l
        · rw [commit_whose_left hout hw]
          simp
        · rw [commit_whose_other hout hw, hthread]
          simpa using hq
    · rw [← hx.carried q l']
      show (x.ghost.commit t l c H.id H.op r).whose q = _ ↔ _
      exact hr.whose_iff (by simp) (by simp) (by simp)
    · have hone := hx.draft l'
      rw [hdraft] at hone
      by_cases hll : l' = l
      · subst hll
        simp [Ghost.undraft]
      · simp [Ghost.undraft, Ghost.commit, hll, hone, Ne.symm hll]
  have hlater : Later x ⟨{ x.mem with published := Function.update x.mem.published l true },
      x.hist, (x.ghost.commit t l c H.id H.op r).undraft l⟩ :=
    (publish_rely hok.inv hd (Nat.succ_ne_self t)).later
  exact hQ y (hlater.trans hy.1.later) hoky (hholds.rely hy.1)

/-- The version of a leaf that was not published is moved out of it. -/
lemma wp_takeFirst {e : ℕ} (hx : Holds t H x) (hnodes : H.nodes = [p]) (hdraft : H.draft = some l)
    (hd : Drafted t l v b x.mem x.ghost) (hp : (x.mem.leaf l).slot0 = p)
    (hc : x.ghost.counted l = 0) (hl : Locked t e S x) {Q : ℕ × Option V → W V → Prop}
    (hQ : ∀ y, Later x y → (rg V).Ok live t y → Holds t { H with nodes := [], draft := none } y →
      Locked t e S y → Q (v, b) y) :
    (rg V).wp live t (takeFirst l) Q x := by
  subst hp
  set p := (x.mem.leaf l).slot0 with hp
  -- The slot and its node stay as they are.
  have hnode : ∀ {y}, Rely t x y → (y.mem.leaf l).slot0 = p ∧ y.mem.node p = .new v b true ∧
      y.ghost.whose p = .thread t := by
    intro y hy
    have hleaf := (hy.draftLeaf l hd.draft).1
    have hdy := hd.rely hy
    rw [hp, ← hleaf]
    exact ⟨rfl, hdy.node, hdy.owner⟩
  refine RG.wp_bind (wp_read (fun _ => rfl) trivial fun y hy hoky => ?_)
  refine RG.wp_bind (wp_read (fun _ => rfl) (.inl (hnode hy.1).2.2) fun z hz hokz => ?_)
  have hxz := hy.1.trans hz.1
  rw [show (execChain (.readVersion (execChain (.slot0 l) x.mem).1) y.mem).1 = v from
    congrArg VersionNode.version (hnode hy.1).2.1]
  refine RG.wp_bind (RG.wp_bind (RG.wp_bind (wp_read (fun _ => rfl) (.inl (hnode hxz).2.2)
    fun u hu hoku => RG.wp_ret ?_)))
  have hxu := hxz.trans hu.1
  have htomb : hasFlag (execChain (.loadNext p) z.mem).1 tombstoneFlag = b.isNone := by
    show hasFlag (z.mem.node p).next tombstoneFlag = b.isNone
    rw [(hnode hxz).2.1]
    exact (new_matches p v b true).tombstone
  rw [show (execChain (.slot0 l) x.mem).1 = p from rfl, htomb]
  -- Emptying the draft.
  have hscrap : ∀ {u : W V}, Rely t x u → (rg V).Ok live t u →
      (rg V).wp live t (on (.storeSlots l 0)) (fun _ => Q (v, b)) u := by
    intro u hxu hoku
    have hdu := hd.rely hxu
    have hcu := ((hxu.draftLeaf l hd.draft).2).trans hc
    have hslot : (u.mem.leaf l).slot0 = p := (hnode hxu).1
    have hholds := hx.rely hxu
    refine wp_write (u.ghost.scrap l (u.mem.leaf l).slot0) rfl (.inr hdu.draft)
      (fun t' ht' => scrap_rely hoku.inv hdu.draft hdu.owner ht') rfl
      (scrap_inv hoku.inv hdu.draft hdu.owner hcu) fun q hq hokq => ?_
    rw [hslot] at hq
    have hpw : u.ghost.whose p = .thread t := (hnode hxu).2.2
    have hlater : Later u ⟨u.mem.setSlots l 0, u.hist, u.ghost.scrap l p⟩ := by
      have := (scrap_rely hoku.inv hdu.draft hdu.owner (Nat.succ_ne_self t)).later
      rwa [hslot] at this
    have hnext : Holds t { H with nodes := [], draft := none }
        ⟨u.mem.setSlots l 0, u.hist, u.ghost.scrap l p⟩ := by
      refine { hholds with
        thread := fun q => ?_, carried := fun q l' => ?_, draft := fun l' => ?_ }
      · have hthread := hholds.thread q
        rw [hnodes] at hthread
        by_cases hqp : q = p
        · rw [hqp]
          simp [Ghost.scrap, Ghost.give]
        · simp only [List.mem_singleton, hqp, iff_false] at hthread
          simpa [Ghost.scrap, Ghost.give, hqp] using hthread
      · rw [← hholds.carried q l']
        by_cases hqp : q = p
        · rw [hqp, hpw]
          simp [Ghost.scrap, Ghost.give]
        · simp [Ghost.scrap, Ghost.give, hqp]
      · have hone := hholds.draft l'
        rw [hdraft] at hone
        by_cases hll : l' = l
        · subst hll
          simp [Ghost.scrap]
        · simp [Ghost.scrap, hll, hone, Ne.symm hll]
    have hle := hl.rely hxu
    have hlock : Locked t e S ⟨u.mem.setSlots l 0, u.hist, u.ghost.scrap l p⟩ := by
      have hne : e ≠ l := (hoku.inv.draft_ne hdu.draft hle.published).symm
      refine { hle with loose := fun q => ?_, leaf := ?_ }
      · rw [← hle.loose q]
        by_cases hqp : q = p
        · rw [hqp, hpw]
          simp [Ghost.scrap, Ghost.give]
        · simp [Ghost.scrap, Ghost.give, hqp]
      · rw [← hle.leaf]
        exact ChainMem.setSlots_ne hne
    exact hQ q (hxu.later.trans (hlater.trans hq.1.later)) hokq (hnext.rely hq.1)
      (hlock.rely hq.1)
  cases hb : b with
  | none =>
    subst hb
    refine RG.wp_ret (RG.wp_bind (RG.wp_mono (hscrap hxu hoku) fun _ q _ hq => RG.wp_ret hq))
  | some a =>
    subst hb
    refine wp_read (fun _ => rfl) (.inl (hnode hxu).2.2) fun q hq hokq => ?_
    rw [show (execChain (.readValue p) u.mem).1 = some a from
      congrArg VersionNode.value (hnode hxu).2.1]
    exact RG.wp_bind (RG.wp_mono (hscrap (hxu.trans hq.1) hokq) fun _ q _ hq => RG.wp_ret hq)

end Versioned

end Artmap
