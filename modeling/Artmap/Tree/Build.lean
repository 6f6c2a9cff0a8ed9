import Artmap.Forest.Chain
import Artmap.Forest.Leaves
import Artmap.Tree.Pool

/-!
# Building unpublished nodes

The nodes that a writer builds before it publishes them: the copy of a latched node, and the
chain of nodes above two leaves whose keys share more than a prefix can hold.
-/

namespace Artmap

open scoped List

/-! ## Common prefixes and segments -/

lemma commonPrefix_cons (x y : Byte) (a b : List Byte) :
    commonPrefix (x :: a) (y :: b) = if x = y then commonPrefix a b + 1 else 0 := by
  unfold commonPrefix
  by_cases h : x = y <;> simp [h]

lemma commonPrefix_self (a : List Byte) : commonPrefix a a = a.length := by
  induction a with
  | nil => rfl
  | cons x a ih => rw [commonPrefix_cons, if_pos rfl, ih, List.length_cons]

lemma commonPrefix_le (a b : List Byte) :
    commonPrefix a b ≤ a.length ∧ commonPrefix a b ≤ b.length := by
  induction a generalizing b with
  | nil => simp [commonPrefix]
  | cons x a ih =>
    cases b with
    | nil => simp [commonPrefix]
    | cons y b =>
      rw [commonPrefix_cons]
      have := ih b
      split
      · simp only [List.length_cons]
        omega
      · simp

lemma commonPrefix_take (a b : List Byte) :
    a.take (commonPrefix a b) = b.take (commonPrefix a b) := by
  induction a generalizing b with
  | nil => simp [commonPrefix]
  | cons x a ih =>
    cases b with
    | nil => simp [commonPrefix]
    | cons y b =>
      rw [commonPrefix_cons]
      split
      · rename_i h
        simp [h, ih b]
      · simp

lemma commonPrefix_lt {a b : List Byte} (h : ¬ a <+: b) : commonPrefix a b < a.length := by
  refine lt_of_le_of_ne (commonPrefix_le a b).1 fun heq => h ?_
  have := commonPrefix_take a b
  rw [heq, List.take_length] at this
  rw [this]
  exact List.take_prefix _ _

/-- After their common prefix, two lists differ or both end. -/
lemma commonPrefix_head (a b : List Byte) :
    (a.drop (commonPrefix a b)).head? ≠ (b.drop (commonPrefix a b)).head? ∨ a = b := by
  induction a generalizing b with
  | nil =>
    cases b with
    | nil => exact .inr rfl
    | cons y b => simp [commonPrefix]
  | cons x a ih =>
    cases b with
    | nil => simp [commonPrefix]
    | cons y b =>
      rw [commonPrefix_cons]
      split
      · rename_i h
        rcases ih b with h' | h'
        · exact .inl (by simpa using h')
        · exact .inr (by rw [h, h'])
      · rename_i h
        exact .inl (by simpa using h)

/-- The bytes of some segments. -/
def spell : List (List Byte × Byte) → List Byte
  | [] => []
  | (seg, y) :: segs => seg ++ y :: spell segs

/-- A cut spells what was cut, in pieces that fit a node. -/
lemma segments_spec (fuel : ℕ) (rest : List Byte) (hfuel : rest.length ≤ fuel) :
    spell (segments fuel rest).1 ++ (segments fuel rest).2 = rest ∧
      (∀ s ∈ (segments fuel rest).1, s.1.length ≤ maxPrefixLen) ∧
      (segments fuel rest).2.length ≤ maxPrefixLen := by
  induction fuel generalizing rest with
  | zero =>
    have : rest.length = 0 := by omega
    simp [segments, spell, this]
  | succ fuel ih =>
    unfold segments
    split
    · rename_i hlen
      obtain ⟨h1, h2, h3⟩ := ih (rest.drop (maxPrefixLen + 1)) (by simp; omega)
      refine ⟨?_, ?_, h3⟩
      · simp only [spell, List.append_assoc, List.cons_append, h1]
        have hget : rest.getD maxPrefixLen 0 = rest[maxPrefixLen] := by
          simp [List.getD_eq_getElem?_getD, List.getElem?_eq_getElem hlen]
        rw [hget, List.getElem_cons_drop, List.take_append_drop]
      · intro s hs
        rcases List.mem_cons.mp hs with rfl | hs
        · simp
        · exact h2 s hs
    · rename_i hlen
      simp [spell]
      omega

/-- The number of segments: each takes seventeen bytes. -/
lemma length_segments (fuel : ℕ) (rest : List Byte) (hfuel : rest.length ≤ fuel) :
    (segments fuel rest).1.length = rest.length / 17 := by
  induction fuel generalizing rest with
  | zero =>
    have : rest.length = 0 := by omega
    simp [segments, this]
  | succ fuel ih =>
    unfold segments
    have hmax : maxPrefixLen = 16 := rfl
    split_ifs with hlen
    · have hdrop : (rest.drop (maxPrefixLen + 1)).length = rest.length - 17 := by
        rw [List.length_drop, hmax]
      simp only [List.length_cons]
      rw [ih _ (by omega), hdrop]
      omega
    · simp only [List.length_nil]
      omega

lemma spell_map (L : Forest.Links) : spell (L.map Prod.snd) = Forest.along L := by
  induction L with
  | nil => rfl
  | cons i L ih =>
    obtain ⟨m, seg, y⟩ := i
    simp [spell, Forest.along, ih]

/-! ## Chains -/

namespace Know

/-- Only the unpublished nodes have changed. -/
def Builds (Γ Δ : Know) : Prop :=
  Δ = { Γ with priv := Δ.priv }

lemma Builds.rfl {Γ : Know} : Γ.Builds Γ := Eq.refl _

lemma Builds.own {Γ Δ : Know} (h : Γ.Builds Δ) {n : NodeId} {ty : NodeType} {F : Fields} :
    Γ.Builds (Δ.own n ty F) := by
  unfold Builds at h ⊢
  rw [h]
  rfl

lemma Builds.trans {Γ Δ Δ' : Know} (h : Γ.Builds Δ) (h' : Δ.Builds Δ') : Γ.Builds Δ' := by
  unfold Builds at h h' ⊢
  rw [h', h]

/-- An unpublished node stands for `c`. -/
def Built (Γ : Know) (n : NodeId) (ty : NodeType) (c : Content) : Prop :=
  ∃ F, Γ.priv n = some (ty, F) ∧ Repr ty F c

lemma Built.own {Γ : Know} {n n' : NodeId} {ty ty' : NodeType} {c : Content} {F : Fields}
    (h : Γ.Built n ty c) (hn : n ≠ n') : (Γ.own n' ty' F).Built n ty c := by
  obtain ⟨F₀, h1, h2⟩ := h
  exact ⟨F₀, by simpa [Know.own, hn] using h1, h2⟩

/-- The unpublished nodes of a chain. -/
def Chain (Γ : Know) : Forest.Links → NodeId → Prop
  | [], _ => True
  | (m, seg, y) :: L, bottom =>
    Γ.Built m .node4 (Forest.link seg y (.node (Forest.topOf L bottom))) ∧ Γ.Chain L bottom

lemma Chain.own {Γ : Know} {L : Forest.Links} {bottom n : NodeId} {ty : NodeType} {F : Fields}
    (h : Γ.Chain L bottom) (hn : n ∉ L.map Prod.fst) : (Γ.own n ty F).Chain L bottom := by
  induction L with
  | nil => trivial
  | cons i L ih =>
    obtain ⟨m, seg, y⟩ := i
    simp only [List.map_cons, List.mem_cons, not_or] at hn
    exact ⟨h.1.own (Ne.symm hn.1), ih h.2 hn.2⟩

end Know

namespace Client

variable {C : Client} {live : Bool} {t : ℕ} {Γ Δ : Know} {P : C.Assertion t} {x y : C.W}
  {n bottom : NodeId} {F : Fields} {ty : NodeType} {p : Pool} {c : Content}

/-- A prefix is written to an unpublished node. -/
lemma wp_writePrefix_built (hx : C.At live t Γ P x) (hc : Γ.clear = none)
    (hb : Γ.Built n ty c) {pre : List Byte} (hp : pre.length ≤ maxPrefixLen) :
    C.rg.wp live t (onNode n (writePrefix pre)) (fun _ y => ∃ F,
      Repr ty F { c with pre := pre } ∧ C.At live t (Γ.own n ty F) P y) x := by
  obtain ⟨F₀, h1, h2⟩ := hb
  obtain ⟨F, hrun, hF⟩ := h2.writePrefix hp
  exact RG.wp_mono (wp_onNode_priv hx hc h1 hrun) fun _ y _ hy => ⟨F, hF, hy.2⟩

/-- A leaf goes to an unpublished node, below its prefix. -/
lemma wp_forkLeaf (suffix : List Byte) (common : ℕ) (l : Leaf) (hx : C.At live t Γ P x)
    (hc : Γ.clear = none) (hb : Γ.Built n ty c) (hslot : c.slotAt (suffix.drop common) = .null)
    (hroom : (Content.bytes c.child).card < ty.capacity) :
    C.rg.wp live t (forkLeaf n suffix common (.leaf l)) (fun _ y => ∃ F,
      Repr ty F (c.setAt (suffix.drop common) (some l)) ∧ C.At live t (Γ.own n ty F) P y) x := by
  obtain ⟨F₀, h1, h2⟩ := hb
  unfold forkLeaf
  cases hs : suffix[common]? with
  | none =>
    have hd : suffix.drop common = [] := by
      rw [List.drop_eq_nil_iff]
      exact List.getElem?_eq_none_iff.mp hs
    obtain ⟨F, hrun, hF⟩ := h2.setExactLeaf (some l)
    refine RG.wp_mono (wp_onNode_priv hx hc h1 hrun) fun _ y _ hy => ⟨F, ?_, hy.2⟩
    rw [hd]
    exact hF
  | some b =>
    have hd : suffix.drop common = b :: suffix.drop (common + 1) := by
      obtain ⟨hlt, hget⟩ := List.getElem?_eq_some_iff.mp hs
      rw [← hget, List.getElem_cons_drop]
    rw [hd] at hslot
    obtain ⟨F, hrun, hF⟩ := h2.insertChild (s := .leaf l) hslot (by simp) hroom
    refine RG.wp_mono (wp_typed_priv hx hc h1 hrun) fun _ y _ hy => ⟨F, ?_, hy.2⟩
    rw [hd]
    exact hF

/-- What a chain in the making is: its links, and the nodes that are in use for it. -/
structure Making (Γ : Know) (p : Pool) (L : Forest.Links) (bottom : NodeId) (c : Content) :
    Prop where
  pool : PoolOk Γ p
  used : ∀ n, (n, true) ∈ p ↔ n = bottom ∨ n ∈ L.map Prod.fst
  nodup : (L.map Prod.fst).Nodup
  fresh : bottom ∉ L.map Prod.fst
  chain : Γ.Chain L bottom
  bottom_built : Γ.Built bottom .node4 c
  short : ∀ i ∈ L, i.2.1.length ≤ maxPrefixLen

lemma Making.congr {L : Forest.Links} (h : Making Γ p L bottom c) (hp : Δ.priv = Γ.priv) :
    Making Δ p L bottom c := by
  have hb : ∀ {m ty c'}, Γ.Built m ty c' → Δ.Built m ty c' := fun ⟨F, h1, h2⟩ =>
    ⟨F, by rw [hp, h1], h2⟩
  refine ⟨h.pool.congr hp, h.used, h.nodup, h.fresh, ?_, hb h.bottom_built, h.short⟩
  have hch := h.chain
  clear h
  induction L with
  | nil => trivial
  | cons i L ih => exact ⟨hb hch.1, ih hch.2⟩

/-- One more link. -/
lemma Making.link {L : Forest.Links} {p' : Pool} {seg : List Byte} {b : Byte}
    (h : Making Γ p L bottom c) (hn : (n, true) ∉ p) (hpool : PoolOk (Γ.own n .node4 F) p')
    (hused : ∀ n', (n', true) ∈ p' ↔ n' = n ∨ (n', true) ∈ p)
    (hF : Repr .node4 F (Forest.link seg b (.node (Forest.topOf L bottom))))
    (hseg : seg.length ≤ maxPrefixLen) :
    Making (Γ.own n .node4 F) p' ((n, seg, b) :: L) bottom c := by
  have hnb : n ≠ bottom ∧ n ∉ L.map Prod.fst := by
    have := mt (h.used n).mpr hn
    simpa only [not_or] using this
  refine ⟨hpool, fun n' => ?_, ?_, ?_, ⟨⟨F, Know.own_priv, hF⟩, h.chain.own hnb.2⟩,
    h.bottom_built.own hnb.1.symm, ?_⟩
  · rw [hused, h.used]
    simp only [List.map_cons, List.mem_cons]
    tauto
  · exact List.nodup_cons.mpr ⟨hnb.2, h.nodup⟩
  · exact fun hmem => (List.mem_cons.mp hmem).elim hnb.1.symm h.fresh
  · intro i hi
    rcases List.mem_cons.mp hi with rfl | hi
    · exact hseg
    · exact h.short i hi

/-- The links of a chain. -/
lemma wp_buildLinks (segs : List (List Byte × Byte)) {L : Forest.Links}
    (hx : C.At live t Γ P x) (hc : Γ.clear = none) (hm : Making Γ p L bottom c)
    (hsegs : ∀ s ∈ segs, s.1.length ≤ maxPrefixLen) :
    C.rg.wp live t (buildLinks segs p (.node (Forest.topOf L bottom))) (fun r y => ∃ Δ,
      Γ.Builds Δ ∧ PoolOk Δ r.2 ∧ C.At live t Δ P y ∧
      (r.1 = none → ¬ (scene y).view.roomy) ∧
      ∀ s, r.1 = some s → ∃ L', s = .node (Forest.topOf L' bottom) ∧
        L'.map Prod.snd = segs.reverse ++ L.map Prod.snd ∧ Making Δ r.2 L' bottom c) x := by
  induction segs generalizing Γ p L x with
  | nil =>
    refine RG.wp_ret ⟨Γ, .rfl, hm.pool, hx, by simp, fun s hs => ⟨L, ?_, by simp, hm⟩⟩
    simpa using hs.symm
  | cons i segs ih =>
    obtain ⟨seg, b⟩ := i
    have hseg : seg.length ≤ maxPrefixLen := hsegs (seg, b) List.mem_cons_self
    refine RG.wp_seq (wp_poolNode .node4 hx hc hm.pool) ?_
    rintro ⟨_ | n, p'⟩ x₁ - ⟨hnone, hsome⟩
    · obtain ⟨rfl, hfull, hx₁⟩ := hnone rfl
      exact RG.wp_ret ⟨Γ, .rfl, hm.pool, hx₁, fun _ => hfull, by simp⟩
    · obtain ⟨hpool, hn, hused, hx₁⟩ := hsome n rfl
      have hbuilt : (Γ.own n .node4 Fields.fresh).Built n .node4 Content.fresh :=
        ⟨_, Know.own_priv, Repr.fresh _⟩
      refine RG.wp_seq (wp_writePrefix_built hx₁ hc hbuilt hseg) ?_
      rintro _ x₂ - ⟨F₂, hF₂, hx₂⟩
      rw [Know.own_own] at hx₂
      obtain ⟨F₃, hrun, hF₃⟩ := hF₂.insertChild (b := b) (s := .node (Forest.topOf L bottom)) rfl
        (by simp) (by simp [Content.fresh, Content.bytes, NodeType.capacity])
      refine RG.wp_seq (wp_typed_priv hx₂ hc Know.own_priv hrun) ?_
      rintro _ x₃ - ⟨-, hx₃⟩
      rw [Know.own_own] at hx₃
      have hm' : Making (Γ.own n .node4 F₃) p' ((n, seg, b) :: L) bottom c :=
        hm.link hn (hpool.rewrite F₃) hused hF₃ hseg
      refine RG.wp_mono (ih hx₃ hc hm' fun s hs => hsegs s (List.mem_cons_of_mem _ hs)) ?_
      rintro r y - ⟨Δ, h1, h2, h3, h4, h5⟩
      refine ⟨Δ, Know.Builds.rfl.own.trans h1, h2, h3, h4, fun s hs => ?_⟩
      obtain ⟨L', rfl, h6, h7⟩ := h5 s hs
      exact ⟨L', rfl, by simpa using h6, h7⟩

/-- What two leaves have in common below a location, and what the fork of them is made of. -/
structure Forked (pre es ns : List Byte) (old l : Leaf) (c : Content) (L : Forest.Links)
    (rest : List Byte) : Prop where
  spelled : Forest.along L ++ rest = pre
  short : rest.length ≤ maxPrefixLen
  fork : c = (Forest.lone rest es old).setAt ns (some l)
  apart : (Forest.lone rest es old).slotAt ns = .null

lemma lone_eq (rest es : List Byte) (old : Leaf) :
    Forest.lone rest es old = { Content.fresh with pre := rest }.setAt es (some old) := by
  cases es with
  | nil => rfl
  | cons b tl => rfl

/-- Two keys that go on differently are in different slots. -/
lemma lone_slotAt {rest es ns : List Byte} {old : Leaf} (h : es.head? ≠ ns.head?) :
    (Forest.lone rest es old).slotAt ns = .null := by
  cases es with
  | nil =>
    cases ns with
    | nil => simp at h
    | cons b tl => rfl
  | cons a tl =>
    cases ns with
    | nil => rfl
    | cons b tl' =>
      have hab : b ≠ a := fun hab => h (by simp [hab])
      simp [Forest.lone, Forest.link, Content.slotAt, hab]

lemma card_lone (rest es : List Byte) (old : Leaf) :
    (Content.bytes (Forest.lone rest es old).child).card ≤ 1 := by
  cases es with
  | nil => simp [Forest.lone, Content.bytes]
  | cons b tl =>
    have : Content.bytes (Forest.lone rest (b :: tl) old).child ⊆ {b} := by
      intro x hx
      by_contra hne
      simp only [Finset.mem_singleton] at hne
      simp [Forest.lone, Forest.link, hne] at hx
    exact (Finset.card_le_card this).trans (by simp)

/-- `RawTree::build_chain`. -/
lemma wp_buildChain {pre es ns : List Byte} {old l : Leaf} {common : ℕ}
    (hx : C.At live t Γ P x) (hc : Γ.clear = none) (hp : PoolOk Γ p) (hu : p.Unused)
    (hhead : (es.drop common).head? ≠ (ns.drop common).head?) :
    C.rg.wp live t (buildChain p pre (es, .leaf old) (ns, .leaf l) common) (fun r y => ∃ Δ,
      Γ.Builds Δ ∧ PoolOk Δ r.2 ∧ C.At live t Δ P y ∧
      (r.1 = none → ¬ (scene y).view.roomy) ∧
      ∀ s bottom, r.1 = some (s, bottom) → ∃ L rest c, s = .node (Forest.topOf L bottom) ∧
        Forked pre (es.drop common) (ns.drop common) old l c L rest ∧
        Making Δ r.2 L bottom c) x := by
  obtain ⟨h1, h2, h3⟩ := segments_spec pre.length pre le_rfl
  unfold buildChain
  set segs := (segments pre.length pre).1 with hsegs
  set rest := (segments pre.length pre).2 with hrest
  have hsplit : segments pre.length pre = (segs, rest) := rfl
  simp only [hsplit]
  refine RG.wp_seq (wp_poolNode .node4 hx hc hp) ?_
  rintro ⟨_ | bottom, p'⟩ x₁ - ⟨hnone, hsome⟩
  · obtain ⟨rfl, hfull, hx₁⟩ := hnone rfl
    exact RG.wp_ret ⟨Γ, .rfl, hp, hx₁, fun _ => hfull, by simp⟩
  · obtain ⟨hpool, -, hused, hx₁⟩ := hsome bottom rfl
    have hbuilt : (Γ.own bottom .node4 Fields.fresh).Built bottom .node4 Content.fresh :=
      ⟨_, Know.own_priv, Repr.fresh _⟩
    refine RG.wp_seq (wp_writePrefix_built hx₁ hc hbuilt h3) ?_
    rintro _ x₂ - ⟨F₂, hF₂, hx₂⟩
    rw [Know.own_own] at hx₂
    refine RG.wp_seq (wp_forkLeaf es common old hx₂ hc
      ⟨F₂, Know.own_priv, hF₂⟩ ?_ ?_) ?_
    · cases es.drop common <;> rfl
    · simp [Content.fresh, Content.bytes, NodeType.capacity]
    rintro _ x₃ - ⟨F₃, hF₃, hx₃⟩
    rw [Know.own_own] at hx₃
    have hlone := lone_eq rest (es.drop common) old
    rw [← hlone] at hF₃
    refine RG.wp_seq (wp_forkLeaf ns common l hx₃ hc
      ⟨F₃, Know.own_priv, hF₃⟩ (lone_slotAt hhead) ?_) ?_
    · have := card_lone rest (es.drop common) old
      simp only [NodeType.capacity]
      omega
    rintro _ x₄ - ⟨F₄, hF₄, hx₄⟩
    rw [Know.own_own] at hx₄
    have hm : Making (Γ.own bottom .node4 F₄) p' [] bottom
        ((Forest.lone rest (es.drop common) old).setAt (ns.drop common) (some l)) :=
      ⟨hpool.rewrite F₄, fun n => by simpa [hu n] using hused n, by simp, by simp, trivial,
        ⟨F₄, Know.own_priv, hF₄⟩, by simp⟩
    refine RG.wp_seq (wp_buildLinks segs.reverse hx₄ hc hm
      fun s hs => h2 s (List.mem_reverse.mp hs)) ?_
    rintro ⟨top, p''⟩ x₅ - ⟨Δ, h4, h5, h6, h7, h8⟩
    refine RG.wp_ret ⟨Δ, Know.Builds.rfl.own.trans h4, h5, h6, fun h => h7 (by simpa using h), ?_⟩
    intro s bot hs
    obtain ⟨top', htop, hbot⟩ : ∃ top', top = some top' ∧ (top', bottom) = (s, bot) := by
      simpa using hs
    obtain ⟨rfl, rfl⟩ : top' = s ∧ bottom = bot := by simpa using hbot
    obtain ⟨L, rfl, hL, hmk⟩ := h8 top' htop
    refine ⟨L, rest, _, rfl, ⟨?_, h3, rfl, lone_slotAt hhead⟩, hmk⟩
    rw [← spell_map, hL]
    simpa using h1

/-! ## Copies -/

variable {src dst : NodeId} {g : Grasp}

/-- The children of a latched node are copied to an unpublished one. -/
lemma wp_copyChildren (fuel start : ℕ) (hx : C.At live t Γ P x) (hc : Γ.clear = none)
    (hg : Γ.grasp src = some g) (hr : Repr g.ty g.fields g.cont)
    (hfit : (Content.bytes g.cont.child).card ≤ ty.capacity) (hfuel : 257 ≤ fuel + start)
    (hd : Γ.priv dst = some (ty, F)) (hF : Repr ty F (g.cont.below start)) :
    C.rg.wp live t (copyChildren src dst fuel start) (fun _ y => ∃ F',
      Repr ty F' g.cont ∧ C.At live t (Γ.own dst ty F') P y) x := by
  induction fuel generalizing Γ start F x with
  | zero =>
    refine RG.wp_ret ⟨F, ?_, by rwa [Know.own_self hd]⟩
    rwa [Content.below_all fun b hb => absurd b.isLt (by omega)] at hF
  | succ fuel ih =>
    refine RG.wp_seq (wp_typed_read (fun ty => readOnly_nextChild start) hx hg) ?_
    rintro r x₁ - ⟨hrun, hx₁⟩
    obtain rfl : Content.nextOf g.cont.child start = r := by
      have := (hr.run_nextChild start).symm.trans hrun
      simpa using this
    cases hnext : Content.nextOf g.cont.child start with
    | none =>
      refine RG.wp_ret ⟨F, ?_, by rwa [Know.own_self hd]⟩
      rwa [Content.below_all (Content.nextOf_eq_none.mp hnext)] at hF
    | some bs =>
      obtain ⟨b, s⟩ := bs
      obtain ⟨h1, h2, h3⟩ := g.cont.below_next hnext
      obtain ⟨h4, -, h5, -⟩ := Content.nextOf_eq_some.mp hnext
      obtain ⟨F', hrun', hF'⟩ := hF.insertChild h1 h5 (h3.trans_le hfit)
      rw [h2] at hF'
      refine RG.wp_seq (wp_typed_priv hx₁ hc hd hrun') ?_
      rintro _ x₂ - ⟨-, hx₂⟩
      refine RG.wp_mono (ih (b.val + 1) hx₂ hc hg (by omega) Know.own_priv hF') ?_
      rintro _ y - ⟨F'', h6, h7⟩
      exact ⟨F'', h6, by rwa [Know.own_own] at h7⟩

/-- `NodeHeader::copy_into`. -/
lemma wp_copyInto (hx : C.At live t Γ P x) (hc : Γ.clear = none) (hg : Γ.grasp src = some g)
    (hr : Repr g.ty g.fields g.cont)
    (hfit : (Content.bytes g.cont.child).card ≤ ty.capacity)
    (hd : Γ.priv dst = some (ty, Fields.fresh)) :
    C.rg.wp live t (copyInto src dst) (fun _ y => ∃ F,
      Repr ty F g.cont ∧ C.At live t (Γ.own dst ty F) P y) x := by
  refine RG.wp_seq (wp_onNode_read readOnly_loadPrefix hx hg) ?_
  rintro pre x₁ - ⟨hpre, hx₁⟩
  have hslice : pre.asSlice = g.cont.pre := by
    obtain ⟨pre', hrun, hof⟩ := hr.run_loadPrefix
    obtain rfl : pre' = pre := by simpa using hrun.symm.trans hpre
    exact hof.asSlice
  rw [hslice]
  refine RG.wp_seq (wp_writePrefix_built hx₁ hc ⟨_, hd, Repr.fresh ty⟩ hr.pre_fits) ?_
  rintro _ x₂ - ⟨F₂, hF₂, hx₂⟩
  refine RG.wp_seq (wp_onNode_read readOnly_exactLeaf hx₂ hg) ?_
  rintro ex x₃ - ⟨hex, hx₃⟩
  obtain rfl : Slot.ofOption g.cont.exact = ex := by simpa using hr.run_exactLeaf.symm.trans hex
  obtain ⟨F₄, hrun, hF₄⟩ := hF₂.setExactLeaf g.cont.exact
  refine RG.wp_seq (wp_onNode_priv hx₃ hc Know.own_priv hrun) ?_
  rintro _ x₄ - ⟨-, hx₄⟩
  rw [Know.own_own] at hx₄
  refine RG.wp_mono (wp_copyChildren 257 0 hx₄ hc hg hr hfit (by omega) Know.own_priv ?_) ?_
  · have : g.cont.below 0 = ⟨g.cont.pre, g.cont.exact, fun _ => .null⟩ := by
      simp [Content.below]
    rw [this]
    exact hF₄
  · rintro _ y - ⟨F', h1, h2⟩
    exact ⟨F', h1, by rwa [Know.own_own] at h2⟩

end Client

end Artmap
