import Artmap.Versioned.Leaves

/-!
# Walks along version chains

A reader follows the links of a chain without a lock, while the chain changes under it.  What it
finds is what it would have found in one state of the chain since its call began (`wp_findLe`); a
walk to the end of the chain finds at each step the next version in some later state
(`wp_chain`).  With the lock held, a walk sees the chain as it is.
-/

namespace Artmap

namespace Versioned

variable {V β : Type} {live : Bool} {t l p lo max : ℕ} {x y : W V} {H : Hand V} {S : Scene V}
  {P : ChainState V → Prop} {pre post : List (Cell V)} {d : Cell V} {M : Versions V}

/-! ## States that have been seen -/

lemma Seen.full (hi : Inv x.mem x.hist x.ghost) (hs : Seen lo l P x) :
    Seen lo l (fun c => P c ∧ Desc c.cells ∧ c.cells ≠ []) x := by
  obtain ⟨i, hlo, hi', c, hc, hP⟩ := hs
  exact ⟨i, hlo, hi', c, hc, hP, hi.chains.desc i hi' l c hc, hi.chains.nonempty i hi' l c hc⟩

lemma Seen.addr_ne (hi : Inv x.mem x.hist x.ghost) (hs : Seen lo l (fun c => d ∈ c.cells) x) :
    d.addr ≠ 0 := by
  obtain ⟨i, -, hi', c, hc, hd⟩ := hs
  have hhome := hi.chains.home i hi' l c hc d hd
  refine (hi.nodes.alloc d.addr fun he => ?_).1
  rw [he] at hhome
  simp [Owner.home] at hhome

lemma Seen.rank (hi : Inv x.mem x.hist x.ghost) (hs : Seen lo l (fun c => d ∈ c.cells) x) :
    rank d.addr x = d.version + 1 := by
  rw [Versioned.rank, if_neg (hs.addr_ne hi), (hs.matches hi).version]

/-- A walk goes down, wherever it is. -/
lemma Seen.rank_lt (hi : Inv x.mem x.hist x.ghost)
    (hs : Seen lo l (fun c => c.cells = pre ++ d :: post) x) :
    Versioned.rank (firstAddr post) x < d.version + 1 := by
  cases post with
  | nil => simp [Versioned.rank]
  | cons e post =>
    have he : Seen lo l (fun c => e ∈ c.cells) x := hs.mono fun c hc => by simp [hc]
    rw [firstAddr_cons, he.rank hi]
    obtain ⟨_, _, _, c, _, hc, hdesc, -⟩ := hs.full hi
    rw [hc] at hdesc
    have := hdesc.lt_of_mem_post (c := e) (by simp)
    omega

/-! ## The newest version up to a bound -/

/-- The cell that a search for `max` finds. -/
def Hit (max : ℕ) (d : Cell V) (cs : List (Cell V)) : Prop :=
  ∃ pre post, cs = pre ++ d :: post ∧ (∀ e ∈ pre, max < e.version) ∧ d.version ≤ max

lemma Hit.mem {cs : List (Cell V)} (h : Hit max d cs) : d ∈ cs := by
  obtain ⟨pre, post, rfl, -⟩ := h
  simp

/-- There is one such cell at most. -/
lemma Hit.unique {cs : List (Cell V)} {e : Cell V} (h : Hit max d cs) (hdesc : Desc cs)
    (h' : Hit max e cs) : d = e := by
  obtain ⟨pre, post, rfl, hpre, hle⟩ := h
  obtain ⟨pre', post', hcs, hpre', hle'⟩ := h'
  have hmem : e ∈ pre ++ d :: post := by simp [hcs]
  rcases List.mem_append.mp hmem with he | he
  · exact absurd (hpre e he) (by omega)
  · rcases List.mem_cons.mp he with rfl | he
    · rfl
    · have hmem' : d ∈ pre' ++ e :: post' := by simp [← hcs]
      have hlt := hdesc.lt_of_mem_post he
      rw [hcs] at hdesc
      rcases List.mem_append.mp hmem' with hd | hd
      · exact absurd (hpre' d hd) (by omega)
      · rcases List.mem_cons.mp hd with rfl | hd
        · rfl
        · exact absurd (hdesc.lt_of_mem_post hd) (by omega)

/-- A search finds what it would have found in one state since the call began. -/
lemma wp_findLe (hx : Holds t H x) (max : ℕ) {head : ℕ}
    (hs : Seen H.since l (fun c => firstAddr c.cells = head) x) {Q : Option ℕ → W V → Prop}
    (hnone : ∀ y, Rely t x y → (rg V).Ok live t y →
      Seen H.since l (fun c => ∀ d ∈ c.cells, max < d.version) y → Q none y)
    (hsome : ∀ y d, Rely t x y → (rg V).Ok live t y →
      Seen H.since l (fun c => Hit max d c.cells) y → Q (some d.addr) y) :
    (rg V).wp live t (findLe head max) Q x := by
  refine RG.wp_iter (δ := ℕ)
    (fun cur (y : W V) => Rely t x y ∧ ∃ pre post,
      Seen H.since l (fun c => c.cells = pre ++ post) y ∧ cur = firstAddr post ∧
        ∀ e ∈ pre, max < e.version)
    (fun cur y => Versioned.rank cur y) ?_ ?_
  · rintro cur y ⟨hy, pre, post, hsy, rfl, hpre⟩
    refine RG.wp_intro fun hok => ?_
    have hxy := hx.rely hy
    cases post with
    | nil =>
      refine RG.wp_ret (hnone y hy hok (hsy.mono fun c hc e he => ?_))
      rw [hc, List.append_nil] at he
      exact hpre e he
    | cons d post =>
      have hd : Seen H.since l (fun c => d ∈ c.cells) y := hsy.mono fun c hc => by simp [hc]
      rw [firstAddr_cons, if_neg (hd.addr_ne hok.inv)]
      refine RG.wp_bind (wp_readVersion hxy hd fun z hz hokz => ?_)
      by_cases hle : d.version ≤ max
      · rw [if_pos hle]
        refine RG.wp_ret (hsome z d (hy.trans hz) hokz ((hsy.later hz.later).mono fun c hc => ?_))
        exact ⟨pre, post, hc, hpre, hle⟩
      · rw [if_neg hle]
        refine RG.wp_bind (wp_next (hxy.rely hz) (hd.later hz.later) fun u q hu hoku hq => ?_)
        obtain ⟨i, hlo, hi, c, hc, ⟨pre', post', hcs, rfl⟩, hdesc, -⟩ :=
          (hq H.since (hd.later hz.later)).full hoku.inv
        have hsu : Seen H.since l (fun c => c.cells = pre' ++ d :: post') u :=
          ⟨i, hlo, hi, c, hc, hcs⟩
        refine RG.wp_ret ⟨⟨hy.trans (hz.trans hu), pre' ++ [d], post',
          hsu.mono fun c hc => by simp [hc], rfl, fun e he => ?_⟩, fun _ => ?_⟩
        · rcases List.mem_append.mp he with he | he
          · rw [hcs] at hdesc
            have := hdesc.lt_of_mem_pre he
            omega
          · rw [List.mem_singleton.mp he]
            omega
        · rw [hd.rank hok.inv]
          exact hsu.rank_lt hoku.inv
  · obtain ⟨i, hlo, hi, c, hc, hhead⟩ := hs
    exact ⟨Rely.refl t x, [], c.cells, ⟨i, hlo, hi, c, hc, rfl⟩, hhead.symm, by simp⟩

/-- With the lock held, a search is exact. -/
lemma wp_findLe_locked (hx : Holds t H x) (hl : Locked t l S x) (max : ℕ)
    {Q : Option ℕ → W V → Prop}
    (hnone : ∀ y, Rely t x y → (rg V).Ok live t y → (∀ d ∈ S.cells, max < d.version) → Q none y)
    (hsome : ∀ y d, Rely t x y → (rg V).Ok live t y → Hit max d S.cells → Q (some d.addr) y) :
    (rg V).wp live t (findLe (firstAddr S.cells) max) Q x := by
  refine RG.wp_iter (δ := ℕ)
    (fun cur (y : W V) => Rely t x y ∧ ∃ pre post, S.cells = pre ++ post ∧ cur = firstAddr post ∧
      ∀ e ∈ pre, max < e.version)
    (fun cur y => Versioned.rank cur y) ?_ ⟨Rely.refl t x, [], S.cells, rfl, rfl, by simp⟩
  rintro cur y ⟨hy, pre, post, hc, rfl, hpre⟩
  refine RG.wp_intro fun hok => ?_
  have hxy := hx.rely hy
  have hly := hl.rely hy
  cases post with
  | nil => exact RG.wp_ret (hnone y hy hok (by rw [hc, List.append_nil]; exact hpre))
  | cons d post =>
    have hd : d ∈ S.cells := by simp [hc]
    rw [firstAddr_cons, if_neg (hly.addr_ok hok.inv hd).1]
    refine RG.wp_bind (wp_version_locked hxy hly hd fun z hz hokz => ?_)
    by_cases hle : d.version ≤ max
    · rw [if_pos hle]
      exact RG.wp_ret (hsome z d (hy.trans hz) hokz ⟨pre, post, hc, hpre, hle⟩)
    · rw [if_neg hle]
      refine RG.wp_bind (wp_next_locked (hxy.rely hz) (hly.rely hz) hc fun u hu hoku => ?_)
      refine RG.wp_ret ⟨⟨hy.trans (hz.trans hu), pre ++ [d], post, by simp [hc], rfl, ?_⟩,
        fun _ => ?_⟩
      · intro e he
        rcases List.mem_append.mp he with he | he
        · exact hpre e he
        · rw [List.mem_singleton.mp he]
          omega
      · rw [rank_cell hok.inv hly hd]
        exact rank_first_lt hoku.inv ((hly.rely hz).rely hu) hc

/-! ## Walks to the end -/

/-- With the lock held, counting the chain is exact. -/
lemma wp_count_locked (hx : Holds t H x) (hl : Locked t l S x) {Q : List ℕ → W V → Prop}
    (hQ : ∀ y, Rely t x y → (rg V).Ok live t y → Q (addrs S.cells) y) :
    (rg V).wp live t (chain (fun p => return p) (firstAddr S.cells)) Q x := by
  refine RG.wp_iter (δ := ℕ)
    (fun s (y : W V) => Rely t x y ∧ ∃ pre post, S.cells = pre ++ post ∧ s.1 = firstAddr post ∧
      s.2 = addrs pre)
    (fun s y => Versioned.rank s.1 y) ?_ ⟨Rely.refl t x, [], S.cells, rfl, rfl, rfl⟩
  rintro ⟨cur, acc⟩ y ⟨hy, pre, post, hc, rfl, rfl⟩
  refine RG.wp_intro fun hok => ?_
  have hxy := hx.rely hy
  have hly := hl.rely hy
  cases post with
  | nil =>
    refine RG.wp_ret ?_
    have hQ := hQ y hy hok
    rwa [hc, List.append_nil] at hQ
  | cons d post =>
    have hd : d ∈ S.cells := by simp [hc]
    rw [firstAddr_cons, if_neg (hly.addr_ok hok.inv hd).1]
    refine RG.wp_bind (wp_next_locked hxy hly hc fun u hu hoku => ?_)
    refine RG.wp_ret ⟨⟨hy.trans hu, pre ++ [d], post, by simp [hc], rfl, by simp [addrs]⟩,
      fun _ => ?_⟩
    rw [rank_cell hok.inv hly hd]
    exact rank_first_lt hoku.inv (hly.rely hu) hc

/-- What a cell says. -/
def Cell.entry (d : Cell V) : ℕ × Option V :=
  (d.version, d.value)

lemma Scan.mono {state : ℕ → MapState V} {hi i j : ℕ} {bound : Option ℕ}
    {r : List (ℕ × Option V)} (h : Scan state l hi j bound r) (hij : i ≤ j) :
    Scan state l hi i bound r := by
  cases h with
  | done hj hhi hs hn => exact .done (hij.trans hj) hhi hs hn
  | next hj hs hv hx rest => exact .next (hij.trans hj) hs hv hx rest

/-- The first of the cells below a bound is the newest of them. -/
lemma newestBelow_versionsOf {bound : Option ℕ} (h : Desc (pre ++ d :: post))
    (hpre : ∀ e ∈ pre, ∃ b, bound = some b ∧ b ≤ e.version)
    (hd : ∀ b, bound = some b → d.version < b) :
    (versionsOf (pre ++ d :: post)).NewestBelow bound d.version := by
  constructor
  · exact ⟨hd, (versionsOf_isSome h).mpr ⟨d, by simp, rfl⟩⟩
  · rintro w ⟨hw, hs⟩
    obtain ⟨c, hc, rfl⟩ := (versionsOf_isSome h).mp hs
    rcases List.mem_append.mp hc with hc | hc
    · obtain ⟨b, hb, hle⟩ := hpre c hc
      exact absurd (hw b hb) (by omega)
    · rcases List.mem_cons.mp hc with rfl | hc
      · exact le_rfl
      · exact (h.lt_of_mem_post hc).le

/-- A walk has listed the versions `vs` of leaf `l`, in states from `lo` on. -/
def Listed (lo l : ℕ) (vs : List (ℕ × Option V)) (x : W V) : Prop :=
  ∀ state : ℕ → MapState V, (∀ j ≤ x.ghost.time.now, state j = seen (x.ghost.past j)) →
    Scan state l x.ghost.time.now lo none vs

/-- The walk stands before the cells `post`, and has listed `ds`. -/
structure Walking (l i : ℕ) (ds : List (Cell V)) (cur : ℕ) (x : W V) : Prop where
  here : ∃ j bound c pre post, i ≤ j ∧ j ≤ x.ghost.time.now ∧ x.ghost.past j l = some c ∧
    c.cells = pre ++ post ∧ cur = firstAddr post ∧
    (∀ e ∈ pre, ∃ b, bound = some b ∧ b ≤ e.version) ∧
    (∀ e ∈ post, ∀ b, bound = some b → e.version < b) ∧
    (∀ e ∈ ds, ∃ b, bound = some b ∧ b ≤ e.version) ∧
    ∀ state : ℕ → MapState V, (∀ k ≤ x.ghost.time.now, state k = seen (x.ghost.past k)) →
      ∀ hi r, Scan state l hi j bound r → Scan state l hi i none (ds.map Cell.entry ++ r)
  down : (ds.map Cell.entry).Pairwise fun a b => b.1 < a.1

lemma seen_of_past {i : ℕ} {c : ChainState V} {g : Ghost V} (hc : g.past i l = some c) :
    seen (g.past i) l = some ⟨versionsOf c.cells, c.dead⟩ := by
  simp [seen, hc, ChainState.seen]

/-- At the end of the chain, the listing is complete. -/
lemma Walking.listed {i : ℕ} {ds : List (Cell V)} (hi : Inv x.mem x.hist x.ghost)
    (hw : Walking l i ds 0 x) : Listed i l (ds.map Cell.entry) x := by
  intro state hstate
  obtain ⟨j, bound, c, pre, post, -, hj, hc, hcs, hcur, hpre, -, -, hscan⟩ := hw.here
  have hnil : post = [] := by
    cases post with
    | nil => rfl
    | cons d post =>
      have hd : Seen j l (fun c => d ∈ c.cells) x := ⟨j, le_rfl, hj, c, hc, by simp [hcs]⟩
      exact absurd hcur.symm (hd.addr_ne hi)
  subst hnil
  have hdone : Scan state l x.ghost.time.now j bound [] := by
    have hs : state j l = some ⟨versionsOf c.cells, c.dead⟩ := by
      rw [hstate j hj]
      exact seen_of_past hc
    refine .done le_rfl hj hs fun v hv => ?_
    · rw [← Option.not_isSome_iff_eq_none, versionsOf_isSome (hi.chains.desc j hj l c hc)]
      rintro ⟨d, hd, rfl⟩
      rw [hcs, List.append_nil] at hd
      obtain ⟨b, hb, hle⟩ := hpre d hd
      exact absurd (hv b hb) (by omega)
  simpa using hscan state hstate _ _ hdone

lemma Later.state {state : ℕ → MapState V} (hy : Later x y)
    (h : ∀ k ≤ y.ghost.time.now, state k = seen (y.ghost.past k)) :
    ∀ k ≤ x.ghost.time.now, state k = seen (x.ghost.past k) := fun k hk => by
  rw [h k (hk.trans hy.now), hy.past k hk]

lemma Walking.later {i : ℕ} {ds : List (Cell V)} (hw : Walking l i ds p x) (hy : Later x y) :
    Walking l i ds p y := by
  obtain ⟨j, bound, c, pre, post, hij, hj, hc, hcs, hcur, hpre, hpost, hds, hscan⟩ := hw.here
  exact ⟨⟨j, bound, c, pre, post, hij, hj.trans hy.now, by rw [hy.past j hj]; exact hc, hcs, hcur,
    hpre, hpost, hds, fun state hstate => hscan state (hy.state hstate)⟩, hw.down⟩

/-- The node that the walk stands at has been in the chain. -/
lemma Walking.seen {i : ℕ} {ds : List (Cell V)} (hw : Walking l i ds p x) (hp : p ≠ 0) :
    ∃ d, d.addr = p ∧ Seen i l (fun c => d ∈ c.cells) x := by
  obtain ⟨j, bound, c, pre, post, hij, hj, hc, hcs, rfl, -⟩ := hw.here
  cases post with
  | nil => exact absurd rfl hp
  | cons d post => exact ⟨d, rfl, j, hij, hj, c, hc, by simp [hcs]⟩

lemma Walking.rank_later {i : ℕ} {ds : List (Cell V)} (hw : Walking l i ds p x)
    (hi : Inv x.mem x.hist x.ghost) (hi' : Inv y.mem y.hist y.ghost) (hy : Later x y) :
    Versioned.rank p y = Versioned.rank p x := by
  by_cases hp : p = 0
  · simp [Versioned.rank, hp]
  · obtain ⟨d, rfl, hd⟩ := hw.seen hp
    rw [hd.rank hi, (hd.later hy).rank hi']

/-- The walk steps over a cell. -/
lemma Walking.step {i q : ℕ} {ds : List (Cell V)} (hi : Inv y.mem y.hist y.ghost)
    (hw : Walking l i ds d.addr x) (hix : Inv x.mem x.hist x.ghost)
    (hd : Seen lo l (fun c => d ∈ c.cells) x) (hy : Later x y)
    (hq : ∀ lo, Seen lo l (fun c => d ∈ c.cells) x →
      Seen lo l (fun c => ∃ pre post, c.cells = pre ++ d :: post ∧ q = firstAddr post) y) :
    Walking l i (ds ++ [d]) q y ∧ Versioned.rank q y < Versioned.rank d.addr x := by
  obtain ⟨j, bound, c, pre, post, hij, hj, hc, hcs, hcur, hpre, hpost, hds, hscan⟩ := hw.here
  have hrank : Versioned.rank d.addr x = d.version + 1 := hd.rank hix
  cases post with
  | nil => exact absurd hcur (hd.addr_ne hix)
  | cons e post =>
    have he : Seen j l (fun c => e ∈ c.cells) x := ⟨j, le_rfl, hj, c, hc, by simp [hcs]⟩
    obtain rfl : d = e := (hd.matches hix).unique (by
      rw [show d.addr = e.addr from hcur]
      exact he.matches hix) hcur
    obtain ⟨k, hjk, hk, c', hc', ⟨pre', post', hcs', rfl⟩, hdesc', -⟩ := (hq j he).full hi
    have hsu : Seen j l (fun c => c.cells = pre' ++ d :: post') y := ⟨k, hjk, hk, c', hc', hcs'⟩
    have hlt := hsu.rank_lt hi
    rw [hcs'] at hdesc'
    refine ⟨⟨⟨k, some d.version, c', pre' ++ [d], post', hij.trans hjk, hk, hc',
      by simp [hcs'], rfl, ?_, ?_, ?_, ?_⟩, ?_⟩, ?_⟩
    · intro e he
      rcases List.mem_append.mp he with he | he
      · exact ⟨_, rfl, (hdesc'.lt_of_mem_pre he).le⟩
      · rw [List.mem_singleton.mp he]
        exact ⟨_, rfl, le_rfl⟩
    · rintro e he b hb
      obtain rfl := Option.some.inj hb
      exact hdesc'.lt_of_mem_post he
    · intro e he
      refine ⟨_, rfl, ?_⟩
      rcases List.mem_append.mp he with he | he
      · obtain ⟨b, hb, hle⟩ := hds e he
        exact (hpost d (by simp) b hb).le.trans hle
      · rw [List.mem_singleton.mp he]
    · intro state hstate hi' r hr
      have hdesc := hix.chains.desc j hj l c hc
      have hseen : state j l = some ⟨versionsOf c.cells, c.dead⟩ := by
        rw [hy.state hstate j hj]
        exact seen_of_past hc
      rw [hcs] at hdesc hseen
      have hnext : Scan state l hi' j bound (d.entry :: r) :=
        .next le_rfl hseen (newestBelow_versionsOf hdesc hpre (hpost d (by simp)))
          (versionsOf_of_mem hdesc (by simp)) (hr.mono hjk)
      simpa using hscan state (hy.state hstate) hi' _ hnext
    · rw [List.map_append, List.pairwise_append]
      refine ⟨hw.down, List.pairwise_singleton _ _, fun a ha b hb => ?_⟩
      obtain ⟨e, he, rfl⟩ := List.mem_map.mp ha
      have hb : b = d.entry := by simpa using hb
      obtain ⟨b', hb', hle⟩ := hds e he
      rw [hb]
      exact (hpost d (by simp) b' hb').trans_le hle
    · rw [hrank]
      exact hlt

lemma Scan.le {state : ℕ → MapState V} {hi i : ℕ} {bound : Option ℕ} {r : List (ℕ × Option V)}
    (h : Scan state l hi i bound r) : i ≤ hi := by
  induction h with
  | done hij hj => exact hij.trans hj
  | next hij _ _ _ _ ih => exact hij.trans ih

lemma newestBelow_none {v : ℕ} : M.NewestBelow none v ↔ M.Newest v := by
  simp [Versions.NewestBelow, Versions.Newest]

/-- A listing starts with what was the newest version in some state. -/
lemma Listed.head (hi : Inv x.mem x.hist x.ghost) {vs : List (ℕ × Option V)}
    (h : Listed lo l vs x) : ∃ v b r, vs = (v, b) :: r ∧ Seen lo l (fun c =>
      (versionsOf c.cells).Newest v ∧ versionsOf c.cells v = some b) x := by
  have hcell : ∀ {j M dead}, seen (x.ghost.past j) l = some ⟨M, dead⟩ →
      ∃ c, x.ghost.past j l = some c ∧ M = versionsOf c.cells := by
    intro j M dead hs
    obtain ⟨c, hc, hM⟩ := Option.map_eq_some_iff.mp hs
    exact ⟨c, hc, (congrArg LeafState.versions hM).symm⟩
  cases h (fun j => seen (x.ghost.past j)) fun _ _ => rfl with
  | @done _ j _ M _ _ hj hs hnone =>
    obtain ⟨c, hc, rfl⟩ := hcell hs
    obtain ⟨d, post, hd⟩ := List.exists_cons_of_ne_nil (hi.chains.nonempty j hj l c hc)
    have hsome := versionsOf_of_mem (hi.chains.desc j hj l c hc) (d := d) (by simp [hd])
    rw [hnone d.version (by simp)] at hsome
    simp at hsome
  | @next _ j _ M _ v b r hij hs hv hx rest =>
    obtain ⟨c, hc, rfl⟩ := hcell hs
    exact ⟨v, b, r, rfl, j, hij, rest.le, c, hc, newestBelow_none.mp hv, hx⟩

/-- A walk to the end of the chain, without the lock. -/
lemma wp_chain (hx : Holds t H x) {visit : ℕ → ChainM V β} {f : Cell V → β}
    (hvisit : ∀ d y, Rely t x y → Seen H.since l (fun c => d ∈ c.cells) y →
      ∀ R : β → W V → Prop, (∀ z, Rely t y z → (rg V).Ok live t z → R (f d) z) →
        (rg V).wp live t (visit d.addr) R y)
    {i : ℕ} {c : ChainState V} (hlo : H.since ≤ i) (hi : i ≤ x.ghost.time.now)
    (hc : x.ghost.past i l = some c) {Q : List β → W V → Prop}
    (hQ : ∀ y (ds : List (Cell V)), Rely t x y → (rg V).Ok live t y →
      Listed i l (ds.map Cell.entry) y →
      (ds.map Cell.entry).Pairwise (fun a b => b.1 < a.1) → Q (ds.map f) y) :
    (rg V).wp live t (chain visit (firstAddr c.cells)) Q x := by
  refine RG.wp_iter (δ := ℕ)
    (fun s (y : W V) => Rely t x y ∧ ∃ ds, Walking l i ds s.1 y ∧ s.2 = ds.map f)
    (fun s y => Versioned.rank s.1 y) ?_ ?_
  · rintro ⟨cur, acc⟩ y ⟨hy, ds, hw, rfl⟩
    refine RG.wp_intro fun hok => ?_
    by_cases hcur : cur = 0
    · subst hcur
      exact RG.wp_ret (hQ y ds hy hok (hw.listed hok.inv) hw.down)
    · rw [if_neg hcur]
      obtain ⟨d, rfl, hd⟩ := hw.seen hcur
      have hd' : Seen H.since l (fun c => d ∈ c.cells) y := by
        obtain ⟨j, hij, hj, e, he, hde⟩ := hd
        exact ⟨j, hlo.trans hij, hj, e, he, hde⟩
      refine RG.wp_bind (wp_next (hx.rely hy) hd' fun z q hz hokz hq => ?_)
      obtain ⟨hstep, hlt⟩ := hw.step hokz.inv hok.inv hd hz.later hq
      refine RG.wp_bind (hvisit d z (hy.trans hz) (hd'.later hz.later) _ fun u hu hoku => ?_)
      refine RG.wp_ret ⟨⟨hy.trans (hz.trans hu), ds ++ [d], hstep.later hu.later, by simp⟩,
        fun _ => ?_⟩
      rw [hstep.rank_later hokz.inv hoku.inv hu.later]
      exact hlt
  · refine ⟨Rely.refl t x, [], ⟨⟨i, none, c, [], c.cells, le_rfl, hi, hc, rfl, rfl, by simp,
      by simp, by simp, fun _ _ _ _ h => by simpa using h⟩, List.Pairwise.nil⟩, rfl⟩

/-! ## Entries -/

/-- The entry that a reader makes of a cell. -/
def Cell.ref (l : ℕ) (d : Cell V) : Option (EntryRef V) :=
  d.value.map (EntryRef.mk l d.addr d.version)

lemma wp_entryRef (hx : Holds t H x) (hs : Seen H.since l (fun c => d ∈ c.cells) x) (l' : ℕ)
    {Q : Option (EntryRef V) → W V → Prop}
    (hQ : ∀ y, Rely t x y → (rg V).Ok live t y → Q (d.ref l') y) :
    (rg V).wp live t (entryRef l' d.addr) Q x :=
  RG.wp_bind (wp_value hx hs fun _ hy _ =>
    RG.wp_bind (wp_readVersion (hx.rely hy) (hs.later hy.later) fun z hz hokz =>
      RG.wp_ret (hQ z (hy.trans hz) hokz)))

/-- A reader that has found the one version it looks for makes an entry of it. -/
lemma reads_ref {Q : ℕ → Prop} (hM : M d.version = some d.value) (hQ : Q d.version)
    (hone : ∀ v, Q v → v = d.version) (l : ℕ) : M.Reads l Q (d.ref l) := by
  constructor
  · intro e he
    obtain ⟨a, ha, rfl⟩ := Option.map_eq_some_iff.mp he
    exact ⟨rfl, hQ, by rw [hM, ha]⟩
  · intro hnone v a hv hva
    obtain rfl := hone v hv
    rw [hM] at hva
    have hd : d.value = none := by simpa [Cell.ref] using hnone
    simp [hd] at hva

lemma reads_hit {cs : List (Cell V)} (h : Desc cs) (hd : Hit max d cs) (l : ℕ) :
    (versionsOf cs).Reads l ((versionsOf cs).NewestLe max) (d.ref l) := by
  have hmem := hd.mem
  obtain ⟨pre, post, rfl, hpre, hle⟩ := hd
  have hn := newestLe_versionsOf h hpre hle
  exact reads_ref (versionsOf_of_mem h hmem) hn (fun v hv => hv.unique hn) l

lemma reads_miss {cs : List (Cell V)} (h : Desc cs) (hd : ∀ d ∈ cs, max < d.version) (l : ℕ) :
    (versionsOf cs).Reads l ((versionsOf cs).NewestLe max) none := by
  refine ⟨fun e he => by simp at he, fun _ v a hv _ => ?_⟩
  obtain ⟨hle, hs⟩ := hv.1
  obtain ⟨e, he, rfl⟩ := (versionsOf_isSome h).mp hs
  exact absurd (hd e he) (by omega)

lemma reads_newest (h : Desc (d :: post)) (l : ℕ) :
    (versionsOf (d :: post)).Reads l (versionsOf (d :: post)).Newest (d.ref l) :=
  reads_ref (versionsOf_of_mem h List.mem_cons_self) (newest_versionsOf h)
    (fun _ hv => hv.unique (newest_versionsOf h)) l

end Versioned

end Artmap
