import Artmap.Versioned.Writers

/-!
# Removing keys and pruning

The chain writers that let a leaf die, with all its versions, and the one that detaches the
versions that no reader can see.
-/

namespace Artmap

namespace Versioned

variable {V : Type} {live : Bool} {t l p v lo : ℕ} {x y : W V} {H : Hand V} {S : Scene V}
  {r : Ret V} {pre post ms rest : List (Cell V)} {d e : Cell V}

/-! ## Unlinking a leaf -/

/-- `unlink_leaf`: the leaf dies if the check accepts its chain.  It refuses a leaf that is dead,
or that the check has not accepted. -/
lemma wp_unlinkLeaf (P F : List (Cell V) → Prop) (ans : ℕ → Ret V) {check : ChainM V Bool}
    {reached : Bool} (hx : Holds t H x) (hplaced : H.placed = none) (hlock : H.lock = none)
    (hnodes : H.nodes = []) (howed : H.owed = none) (hp : Published l x)
    (hcheck : ∀ y S, Later x y → Holds t { H with lock := some l } y → Locked t l S y → S.Fresh →
      ∀ R : Bool → W V → Prop, (∀ z b, Rely t y z → (rg V).Ok live t z → (b = true → P S.cells) →
        (b = false → F S.cells) → R b z) → (rg V).wp live t check R y)
    (hstep : ∀ (s : MapState V) cs, Desc cs → P cs → s l = some ⟨versionsOf cs, false⟩ →
      Step s H.op (ans cs.length) (Function.update s l (some ⟨versionsOf cs, true⟩)))
    {Q : Unlinked → W V → Prop}
    (hdone : ∀ y n, Later x y → (rg V).Ok live t y →
      Holds t { H with placed := some (ans n) } y → Q (.done n) y)
    (hrefused : ∀ y, Later x y → (rg V).Ok live t y → Holds t H y →
      Dead l y ∨ Seen H.since l (fun c => c.dead = false ∧ F c.cells) y → Q .refused y)
    (hmissing : ∀ y, reached = false → Later x y → (rg V).Ok live t y → Holds t H y →
      Q .missing y) :
    (rg V).wp live t (unlinkLeaf reached l check) Q x := by
  cases reached with
  | false =>
    refine RG.wp_bind (wp_isDead hp fun y b hy hoky hd _ => ?_)
    cases b with
    | false => exact RG.wp_ret (hmissing y rfl hy.later hoky (hx.rely hy))
    | true => exact RG.wp_ret (hrefused y hy.later hoky (hx.rely hy) (.inl (hd rfl)))
  | true =>
    refine RG.wp_bind (wp_lock hx hlock hp (fun y hy hoky hd => ?_)
      fun y S hy hoky hxy hl hS _ => ?_)
    · exact RG.wp_ret (hrefused y hy.later hoky (hx.rely hy) (.inl hd))
    · refine RG.wp_bind (hcheck y S hy hxy hl hS _ fun z b hz hokz hb hf => ?_)
      have hxz := hxy.rely hz
      have hlz := hl.rely hz
      cases b with
      | false =>
        refine RG.wp_bind (wp_unlock hxz rfl hnodes hlz hS.counted hS.loose fun u hu hoku hxu =>
          RG.wp_ret (hrefused u (hy.trans (hz.later.trans hu)) hoku ?_ (.inr ?_)))
        · rw [← hlock] at hxu
          exact hxu
        · refine Seen.later hu ((hlz.seen (hxz.since_le hokz.inv)).mono fun c hc => ?_)
          rw [hc]
          exact ⟨rfl, hf rfl⟩
      | true =>
        obtain ⟨d, post, hc⟩ := List.exists_cons_of_ne_nil hS.nonempty
        refine RG.wp_bind (wp_head_locked hlz fun u hu hoku => ?_)
        refine RG.wp_bind (wp_count_locked (hxz.rely hu) (hlz.rely hu) fun w hw hokw => ?_)
        have hxw := (hxz.rely hu).rely hw
        have hlw := (hlz.rely hu).rely hw
        refine RG.wp_bind (wp_head_locked hlw fun a ha hoka => ?_)
        rw [hc, firstAddr_cons]
        refine RG.wp_bind (wp_tombstone_locked (hxw.rely ha) (hlw.rely ha) (d := d)
          (by simp [hc]) fun b hb' hokb => ?_)
        have hxb := (hxw.rely ha).rely hb'
        have hlb := (hlw.rely ha).rely hb'
        have hlen : (addrs (d :: post)).length = S.cells.length := by simp [addrs, hc]
        refine RG.wp_bind (wp_kill (r := ans S.cells.length) hxb hplaced rfl hnodes howed hlb
          hS.loose (fun s hs => hstep s _ hS.desc (hb rfl) hs) fun o ho hoko hxo hco => ?_)
        refine RG.wp_bind (wp_unlink hxo rfl fun q hq hokq hu' => ?_)
        have hcq : q.ghost.counted l + -liveCount d.value.isNone = 0 := by
          have hdesc := hS.desc
          rw [hq.owedCount l ((hxo.owed l).mpr rfl), hco, hS.counted]
          rw [hc] at hdesc ⊢
          rw [live_versionsOf hdesc]
          omega
        refine RG.wp_bind (wp_settle (hxo.rely hq) rfl hcq (.inl hu') fun i hi hoki hxi =>
          RG.wp_ret ?_)
        rw [hlen]
        refine hdone i _ ?_ hoki ?_
        · exact hy.trans (hz.later.trans (hu.later.trans (hw.later.trans (ha.later.trans
            (hb'.later.trans (ho.trans (hq.later.trans hi)))))))
        · rw [hlock, howed]
          exact hxi

/-- `clear` kills the chain of a leaf that it has detached, and counts it out. -/
lemma wp_clearLeaf (hx : Holds t H x) (hop : H.op = .clearLeaf l) (hplaced : H.placed = none)
    (hlock : H.lock = none) (hnodes : H.nodes = []) (howed : H.owed = none) (hp : Published l x)
    (hstep : ∀ (s : MapState V) M, s l = some ⟨M, false⟩ →
      Step s H.op (.counted M.live) (Function.update s l (some ⟨M, true⟩)))
    {Q : ℤ → W V → Prop}
    (hdone : ∀ y k, Later x y → (rg V).Ok live t y →
      Holds t { H with placed := some (.counted k) } y → Q k y)
    (hdead : ∀ y, Later x y → (rg V).Ok live t y → Holds t H y → Dead l y → Q 0 y) :
    (rg V).wp live t (clearLeaf l) Q x := by
  refine RG.wp_bind (RG.wp_bind (wp_lock hx hlock hp (fun y hy hoky hd => RG.wp_ret ?_)
    fun y S hy hoky hxy hl hS _ => ?_))
  · -- Nothing is counted for a leaf that has died before.
    refine RG.wp_bind (wp_read (fun m => ?_) trivial fun z hz hokz => RG.wp_ret ?_)
    · simp [execChain]
    · exact hdead z (hy.later.trans hz.1.later) hokz ((hx.rely hy).rely hz.1) (hd.later hz.1.later)
  · obtain ⟨d, post, hc⟩ := List.exists_cons_of_ne_nil hS.nonempty
    have hlive : (versionsOf S.cells).live = liveCount d.value.isNone := by
      have hdesc := hS.desc
      rw [hc] at hdesc ⊢
      exact live_versionsOf hdesc
    refine RG.wp_bind (wp_head_locked hl fun z hz hokz => ?_)
    rw [hc, firstAddr_cons]
    refine RG.wp_bind (wp_tombstone_locked (hxy.rely hz) (hl.rely hz) (d := d) (by simp [hc])
      fun u hu hoku => ?_)
    have hxu := (hxy.rely hz).rely hu
    have hlu := (hl.rely hz).rely hu
    refine RG.wp_bind (wp_kill hxu hplaced rfl hnodes howed hlu hS.loose
      (fun s hs => hstep s _ hs) fun w hw hokw hxw hcw => RG.wp_ret ?_)
    refine RG.wp_bind (wp_settle hxw rfl (k := -liveCount d.value.isNone) ?_ (.inr ⟨H.id, ?_⟩)
      fun q hq hokq hxq => RG.wp_ret ?_)
    · rw [hcw, hS.counted, hlive]
      omega
    · rw [← hop]
      exact hokw.inv.calls.invoked t _ hxw.run
    · rw [hlive] at hxq
      refine hdone q _ ?_ hokq ?_
      · exact hy.trans (hz.later.trans (hu.later.trans (hw.trans hq)))
      · rw [hlock, howed]
        exact hxq

/-! ## Detaching the old versions -/

/-- The nodes of a chain are at different addresses. -/
lemma Locked.nodup_addrs (hi : Inv x.mem x.hist x.ghost) (hl : Locked t l S x) :
    (addrs S.cells).Nodup := by
  refine List.pairwise_map.mpr ((hl.desc hi).imp_of_mem fun {c d} hc hd hlt ha => ?_)
  rw [hl.addr_inj hi hc hd ha] at hlt
  exact absurd hlt (lt_irrefl _)

/-- The nodes that a thread is to retire. -/
def bagOf (l : ℕ) (cs : List (Cell V)) : List (ℕ × ℕ) :=
  (cs.map fun e => (e.addr, l)).reverse

lemma mem_bagOf {cs : List (Cell V)} {q l' : ℕ} :
    (q, l') ∈ bagOf l cs ↔ q ∈ addrs cs ∧ l' = l := by
  simp only [bagOf, List.mem_reverse, List.mem_map, mem_addrs, Prod.mk.injEq]
  constructor
  · rintro ⟨e, he, rfl, rfl⟩
    exact ⟨⟨e, he, rfl⟩, rfl⟩
  · rintro ⟨⟨e, he, rfl⟩, rfl⟩
    exact ⟨e, he, rfl, rfl⟩

lemma bagOf_concat : bagOf l (ms ++ [e]) = (e.addr, l) :: bagOf l ms := by
  simp [bagOf]

/-- The link of a node, at this moment. -/
lemma wp_next_here (hx : Holds t H x) (hs : Seen H.since l (fun c => e ∈ c.cells) x)
    {Q : ℕ → W V → Prop}
    (hQ : ∀ y, Rely t x y → (rg V).Ok live t y → Q (linkOf (x.mem.node e.addr).next) y) :
    (rg V).wp live t (next e.addr) Q x :=
  RG.wp_bind (wp_read (fun _ => rfl) (hx.reach hs) fun y hy hoky => RG.wp_ret (hQ y hy.1 hoky))

/-- The detached nodes are marked, one after the other. -/
lemma wp_markAll {cs : List (Cell V)} {k : ℤ} {leaf : VersionedLeaf} (hx : Holds t H x)
    (hbag : H.bag = []) (hl : Locked t l ⟨cs, k, addrs post, leaf⟩ x)
    (hnodup : (addrs post).Nodup)
    (hlink : Linked x.mem.node (firstAddr post) post)
    (hs : Seen H.since l (fun c => c.cells = pre ++ post) x) {Q : List ℕ → W V → Prop}
    (hQ : ∀ y, Later x y → (rg V).Ok live t y → Holds t { H with bag := bagOf l post } y →
      Locked t l ⟨cs, k, [], leaf⟩ y → Q (addrs post) y) :
    (rg V).wp live t (markAll (firstAddr post)) Q x := by
  refine RG.wp_iter (δ := ℕ)
    (fun s (y : W V) => Later x y ∧ ∃ ms rest, post = ms ++ rest ∧ s = (firstAddr rest, addrs ms) ∧
      Holds t { H with bag := bagOf l ms } y ∧ Locked t l ⟨cs, k, addrs rest, leaf⟩ y ∧
      Linked y.mem.node (firstAddr rest) rest)
    (fun s y => rank s.1 y) ?_
    ⟨Later.refl x, [], post, rfl, rfl, by rw [show bagOf l [] = H.bag from hbag.symm]; exact hx,
      hl, hlink⟩
  rintro s y ⟨hy, ms, rest, hpost, rfl, hxy, hly, hlinky⟩
  refine RG.wp_intro fun hok => ?_
  cases rest with
  | nil =>
    rw [List.append_nil] at hpost
    refine RG.wp_ret ?_
    rw [← hpost] at hxy ⊢
    exact hQ y hy hok hxy hly
  | cons e rest =>
    have hsy : Seen H.since l (fun c => c.cells = (pre ++ ms) ++ e :: rest) y :=
      (hs.later hy).mono fun c hc => by rw [hc, hpost, List.append_assoc]
    have hseen : Seen H.since l (fun c => e ∈ c.cells) y := hsy.mono fun c hc => by simp [hc]
    rw [firstAddr_cons, if_neg (hseen.addr_ne hok.inv)]
    have hne : ∀ q ∈ addrs rest, q ≠ e.addr := by
      rw [hpost, addrs, List.map_append, List.nodup_append] at hnodup
      have := (List.nodup_cons.mp hnodup.2.1).1
      rintro q hq rfl
      exact this hq
    refine RG.wp_bind (wp_mark (addrs rest) hxy hly (by simp [addrs]) hseen (fun q => ?_)
      fun z hz hokz hxz hlz hlinkz => ?_)
    · constructor
      · exact fun hq => ⟨List.mem_cons_of_mem _ hq, hne q hq⟩
      · rintro ⟨hq, hqe⟩
        exact (List.mem_cons.mp hq).resolve_left hqe
    obtain ⟨-, hlinky⟩ := hlinky
    have hfirst : linkOf (z.mem.node e.addr).next = firstAddr rest := by
      rw [hlinkz e.addr (.inl rfl)]
      exact hlinky.first
    refine RG.wp_bind (wp_next_here hxz (hseen.later hz) fun u hu hoku => RG.wp_ret ?_)
    rw [hfirst]
    refine ⟨⟨hy.trans (hz.trans hu.later), ms ++ [e], rest, by simp [hpost], by simp [addrs], ?_,
      hlz.rely hu, ?_⟩, fun _ => ?_⟩
    · rw [bagOf_concat]
      exact hxz.rely hu
    · rw [hlinky.first] at hlinky
      refine hlinky.congr fun c hc => ?_
      have hcr : c.addr ∈ addrs rest := mem_addrs.mpr ⟨c, hc, rfl⟩
      rw [(hu.heldNode l hlz.holder c.addr (.inr ((hlz.loose _).mpr hcr))).2]
      exact hlinkz c.addr (.inr hcr)
    · rw [hseen.rank hok.inv]
      exact (hsy.later (hz.trans hu.later)).rank_lt hoku.inv

/-- The detached nodes are retired, one after the other. -/
lemma wp_retireAll (hx : Holds t H x) (hbag : ∀ q l', (q, l') ∈ H.bag ↔ q ∈ addrs ms ∧ l' = l)
    (hnodup : (addrs ms).Nodup) (hs : ∀ e ∈ ms, Seen H.since l (fun c => e ∈ c.cells) x)
    {Q : Unit → W V → Prop}
    (hQ : ∀ y, Later x y → (rg V).Ok live t y → Holds t { H with bag := [] } y → Q () y) :
    (rg V).wp live t (retireAll (addrs ms)) Q x := by
  induction ms generalizing x H with
  | nil =>
    refine RG.wp_intro fun hok => RG.wp_ret (hQ x (Later.refl x) hok ?_)
    have hnil : H.bag = [] := List.eq_nil_iff_forall_not_mem.mpr fun ⟨q, l'⟩ hq => by
      simpa [addrs] using (hbag q l').mp hq
    rw [← hnil]
    exact hx
  | cons e ms ih =>
    obtain ⟨hout, hnodup⟩ := List.nodup_cons.mp hnodup
    refine RG.wp_bind (wp_retireVersion (bagOf l ms) hx ((hbag _ _).mpr ⟨by simp [addrs], rfl⟩)
      (hs e List.mem_cons_self) (fun q l' => ?_) fun y hy hoky hxy => ?_)
    · rw [mem_bagOf, hbag]
      constructor
      · rintro ⟨hq, rfl⟩
        refine ⟨⟨List.mem_cons_of_mem _ hq, rfl⟩, ?_⟩
        rintro rfl
        exact hout hq
      · rintro ⟨⟨hq, rfl⟩, hne⟩
        exact ⟨(List.mem_cons.mp hq).resolve_left hne, rfl⟩
    · exact ih hxy (fun q l' => mem_bagOf) hnodup
        (fun e he => (hs e (List.mem_cons_of_mem _ he)).later hy)
        fun z hz hokz hxz => hQ z (hy.trans hz) hokz hxz

/-- Versions that are detached do not count. -/
lemma live_versionsOf_append {cs : List (Cell V)} (h : Desc (cs ++ post)) (hne : cs ≠ []) :
    (versionsOf (cs ++ post)).live = (versionsOf cs).live := by
  obtain ⟨d, rest, rfl⟩ := List.exists_cons_of_ne_nil hne
  have hcs : Desc (d :: rest) := h.sublist (List.sublist_append_left _ _)
  rw [List.cons_append] at h ⊢
  rw [live_versionsOf h, live_versionsOf hcs]

/-- The versions older than that of `d` are detached, marked and retired. -/
lemma wp_detach (hx : Holds t H x) (hplaced : H.placed = none) (hlock : H.lock = some l)
    (hnodes : H.nodes = []) (hbag : H.bag = []) (hl : Locked t l S x) (hS : S.Fresh)
    (hc : S.cells = pre ++ d :: post)
    (hstep : ∀ s : MapState V, s l = some ⟨versionsOf S.cells, false⟩ →
      Step s H.op (.pruned post.length)
        (Function.update s l (some ⟨versionsOf (pre ++ [d]), false⟩)))
    {Q : Option ℕ → W V → Prop}
    (hQ : ∀ y, Later x y → (rg V).Ok live t y →
      Holds t { H with placed := some (.pruned post.length), lock := none } y →
      Q (some post.length) y) :
    (rg V).wp live t (do
      let cur ← next d.addr
      storeNext d.addr 0
      let gone ← markAll cur
      unlock l
      retireAll gone
      return some gone.length) Q x := by
  have hdesc : Desc (pre ++ d :: post) := hc ▸ hS.desc
  have hcs : S.cells = (pre ++ [d]) ++ post := by simp [hc]
  have hcount : S.counted = (versionsOf (pre ++ [d])).live := by
    have := hS.desc
    rw [hS.counted]
    rw [hcs] at this ⊢
    exact live_versionsOf_append this (by simp)
  refine RG.wp_bind (wp_next_locked hx hl hc fun y hy hoky => ?_)
  have hxy := hx.rely hy
  have hly := hl.rely hy
  have hcut : storeNext d.addr 0 =
      link (V := V) l (lastAddr (pre ++ [d])) (firstAddr ([] : List (Cell V))) := by
    rw [lastAddr_concat, link, if_neg (hly.addr_ok hoky.inv (d := d) (by simp [hc])).1]
    rfl
  have hr : Relink t S (pre ++ [d]) post [] y :=
    ⟨hcs, by simp, by simpa using hdesc.cut, rfl, by simp⟩
  have hnodup : (addrs post).Nodup := by
    have := hly.nodup_addrs hoky.inv
    rw [hcs, addrs, List.map_append] at this
    exact this.of_append_right
  have hseen : Seen H.since l (fun c => c.cells = (pre ++ [d]) ++ post) y :=
    (hly.seen (hxy.since_le hoky.inv)).mono fun c h => by rw [h, hcs]
  have hlinked : Linked y.mem.node (firstAddr post) post := by
    have hlink := hly.linked hoky.inv
    rw [hc] at hlink
    have := hlink.after
    rwa [this.first] at this
  rw [hcut]
  refine RG.wp_bind (wp_link (r := .pruned post.length) [] (addrs post) hxy hplaced hlock hly
    hS.loose hr (fun s hs => ?_) (by simp [hnodes]) (fun q => ?_)
    fun z leaf hz hokz hxz hlz hnode => ?_)
  · rw [List.append_nil]
    exact hstep s hs
  · have hsplit : S.cells = (pre ++ [d]) ++ post ++ [] := by simp [hc]
    have := hly.removed [] hoky.inv hsplit (by simp) q
    simpa using this
  · rw [List.append_nil] at hlz
    have hlinkz : Linked z.mem.node (firstAddr post) post := hlinked.congr fun e he => by
      rw [hnode e.addr (mem_addrs.mpr ⟨e, he, rfl⟩)]
    refine RG.wp_bind (wp_markAll hxz hbag hlz hnodup hlinkz (hseen.later hz)
      fun u hu hoku hxu hlu => ?_)
    refine RG.wp_bind (wp_unlock hxu hlock rfl hlu hcount rfl fun w hw hokw hxw => ?_)
    have hsw : ∀ e ∈ post, Seen H.since l (fun c => e ∈ c.cells) w := fun e he =>
      (hseen.later (hz.trans (hu.trans hw))).mono fun c h => by simp [h, he]
    refine RG.wp_bind (wp_retireAll hxw (fun q l' => mem_bagOf) hnodup hsw
      fun a ha hoka hxa => RG.wp_ret ?_)
    rw [show (addrs post).length = post.length by simp [addrs]]
    refine hQ a (hy.later.trans (hz.trans (hu.trans (hw.trans ha)))) hoka ?_
    rw [hnodes, hbag]
    exact hxa

/-- A prune that gives up on leaf `l` has seen it alive, and its chain has moved. -/
def Stuck (lo l : ℕ) (x : W V) : Prop :=
  Seen lo l (fun c => c.dead = false) x ∧ Moved lo l x

lemma Stuck.later (hr : Later x y) (h : Stuck lo l x) : Stuck lo l y :=
  ⟨h.1.later hr, h.2.later hr⟩

/-- The lock is taken on a chain that is not as it has been. -/
lemma Locked.stuck {P : ChainState V → Prop} (hl : Locked t l S x) (hlo : lo ≤ x.ghost.time.now)
    (hs : Seen lo l P x) (hP : ¬ P ⟨S.cells, false⟩) : Stuck lo l x := by
  have hnow := hl.seen hlo
  refine ⟨hnow.mono fun c hc => by rw [hc], hs.moved hnow fun c hc he => hP ?_⟩
  rwa [← he]

/-- `trim` detaches the versions that no reader from `min` on can see. -/
lemma wp_trim {min : ℕ} (hx : Holds t H x) (hplaced : H.placed = none) (hlock : H.lock = none)
    (hnodes : H.nodes = []) (hbag : H.bag = []) (hp : Published l x)
    (hd : Seen H.since l (fun c => Hit min d c.cells) x)
    (hstep : ∀ (s : MapState V) M v, s l = some ⟨M, false⟩ → M.NewestLe min v →
      Step s H.op (.pruned (M.countBelow v)) (Function.update s l (some ⟨M.since v, false⟩)))
    {Q : Option ℕ → W V → Prop}
    (hdead : ∀ y, Later x y → (rg V).Ok live t y → Holds t H y → Dead l y → Q (some 0) y)
    (hmoved : ∀ y, Later x y → (rg V).Ok live t y → Holds t H y → Stuck H.since l y → Q none y)
    (hdone : ∀ y n, Later x y → (rg V).Ok live t y →
      Holds t { H with placed := some (.pruned n) } y → Q (some n) y) :
    (rg V).wp live t (trim l d.addr min) Q x := by
  refine RG.wp_bind (wp_lock hx hlock hp (fun y hy hoky hd => ?_) fun y S hy hoky hxy hl hS _ => ?_)
  · exact RG.wp_ret (hdead y hy.later hoky (hx.rely hy) hd)
  have hdy : Seen H.since l (fun c => Hit min d c.cells) y := hd.later hy
  -- The chain has moved.
  have hleave : ∀ z, Rely t y z → ¬ Hit min d S.cells → (rg V).wp live t
      ((unlock l).bind fun _ => Prog.ret (none : Option ℕ)) Q z := by
    intro z hz hno
    have hlo := hxy.since_le hoky.inv
    have hstuck : Stuck H.since l y := hl.stuck hlo hdy hno
    refine RG.wp_bind (wp_unlock (hxy.rely hz) rfl hnodes (hl.rely hz) hS.counted hS.loose
      fun u hu hoku hxu => RG.wp_ret (hmoved u (hy.trans (hz.later.trans hu)) hoku ?_ ?_))
    · rw [← hlock] at hxu
      exact hxu
    · exact hstuck.later (hz.later.trans hu)
  refine RG.wp_bind (wp_head_locked hl fun z hz hokz => ?_)
  have hxz := hxy.rely hz
  have hlz := hl.rely hz
  refine RG.wp_bind (wp_findLe_locked hxz hlz min (fun u hu hoku hnone => ?_)
    fun u e hu hoku hhit => ?_)
  · exact RG.wp_bind (RG.wp_ret (hleave u (hz.trans hu) fun hit =>
      absurd (hnone d hit.mem) (by obtain ⟨_, _, _, _, hle⟩ := hit; omega)))
  by_cases hdp : e.addr = d.addr
  · have hme := (hl.rely (hz.trans hu)).matches hoku.inv hhit.mem
    have hmd : Seen H.since l (fun c => d ∈ c.cells) u :=
      (hdy.later (hz.trans hu).later).mono fun c hc => hc.mem
    obtain rfl : e = d := hme.unique (hdp ▸ hmd.matches hoku.inv) hdp
    obtain ⟨pre, post, hc, hpre, hle⟩ := hhit
    have hdesc : Desc (pre ++ e :: post) := hc ▸ hS.desc
    rw [if_neg (by simp)]
    refine RG.wp_bind (RG.wp_bind (wp_loadNext_locked (hxz.rely hu) (hlz.rely hu) hc
      fun w a hw hokw ha _ => RG.wp_ret ?_))
    have hyw := hz.trans (hu.trans hw)
    cases hflag : hasFlag a supersededFlag with
    | true =>
      -- No node of a chain has been marked.
      have hlw := hl.rely hyw
      have hun := hokw.inv.nodes.unmarked e.addr l (.inl (hlw.whose hokw.inv (by simp [hc])))
      rw [← ha, hflag] at hun
      simp at hun
    | false =>
      refine wp_detach (hxy.rely hyw) hplaced rfl hnodes hbag (hl.rely hyw) hS hc
        (fun s hs => ?_) fun q hq hokq hxq => ?_
      · rw [versionsOf_since hdesc, ← countBelow_versionsOf hdesc]
        rw [hc] at hs
        exact hstep s _ e.version hs (newestLe_versionsOf hdesc hpre hle)
      · refine hdone q _ (hy.trans (hyw.later.trans hq)) hokq ?_
        rw [hlock]
        exact hxq
  · rw [if_pos (by simpa using hdp)]
    exact RG.wp_bind (RG.wp_ret (hleave u (hz.trans hu) fun hit =>
      hdp (congrArg Cell.addr (hhit.unique hS.desc hit))))

end Versioned

end Artmap
