import Artmap.Forest.Chain
import Artmap.Forest.Leaves
import Artmap.Shadow.Home

/-!
# Clearing a detached tree

The thread that clears a past epoch goes through the nodes of its tree from the root
downwards.  A node is cleared once it is obsolete; then nobody can change it any more, so its
children stay where they are and nobody but the clearer can make them obsolete.  `Sweep` says
how far the clearer has come: `D` are the nodes that it has cleared, `W` those that it is to
clear next, and `T` the keys whose leaves it has taken.  When `W` is empty, the whole tree has
been cleared, and the leaf of every key has been taken.
-/

namespace Artmap

open scoped List

namespace Shadow

variable {t e v : ℕ} {m m' : TreeMem} {S S' : Shadow} {n c : NodeId} {D : NodeId → Prop}
  {late : Option NodeId} {W kids : List NodeId} {T : Key → Prop} {k : Key} {l : Leaf}
  {q rest : List Byte}

/-- How far thread `t` has come with clearing epoch `e`.  The node `late` has been cleared, but
not retired. -/
structure Sweep (t e : ℕ) (D : NodeId → Prop) (late : Option NodeId) (W : List NodeId)
    (T : Key → Prop) (m : TreeMem) (S : Shadow) : Prop where
  clearer : S.clearer e = some t
  top : ∃ r, S.forest.root e = .node r ∧ (D r ∨ r ∈ W)
  nodup : W.Nodup
  done : ∀ {n}, D n → Obsolete (m.latch (.node n))
  retired : ∀ {n}, D n → late ≠ some n → n ∈ m.retired
  late : ∀ {n}, late = some n → D n ∧ n ∉ m.retired
  fresh : ∀ {n}, n ∈ W → ¬ D n
  /-- The clearer, and nobody else, has made nodes of the epoch obsolete. -/
  only : ∀ {n p}, S.forest.place n = some (e, p) → Obsolete (m.latch (.node n)) → D n
  linked : ∀ {n}, D n ∨ n ∈ W → ∃ ℓ p, S.forest.At ℓ e p ∧ S.forest.slot ℓ = .node n ∧
    ∀ x b, ℓ = .child x b → D x
  below : ∀ {n b c}, D n → (S.forest.cont n).child b = .node c → D c ∨ c ∈ W
  taken : ∀ {n rest l}, D n → (S.forest.cont n).slotAt rest = .leaf l → T l.key
  home : ∀ {k}, T k → ∃ n, D n ∧ Home S.forest e k n

namespace Sweep

lemma past (h : Sweep t e D late W T m S) (hi : S.Inv m) : e < S.cur :=
  hi.clearer_past (by simp [h.clearer])

lemma placed (h : Sweep t e D late W T m S) (hi : S.Inv m) (hn : D n ∨ n ∈ W) :
    ∃ p, S.forest.place n = some (e, p) := by
  obtain ⟨ℓ, p, h1, h2, -⟩ := h.linked hn
  exact ⟨p, hi.wf.place_of_slot h1 h2⟩

lemma anchored (h : Sweep t e D late W T m S) (hi : S.Inv m) (hn : D n ∨ n ∈ W) :
    Anchored m S n := by
  obtain ⟨ℓ, p, h1, h2, h3⟩ := h.linked hn
  refine ⟨ℓ, e, p, h1, h2, ?_⟩
  cases ℓ with
  | root e' =>
    obtain ⟨rfl, -⟩ := h1
    exact h.past hi
  | child x b => exact h.done (h3 x b rfl)

/-- A cleared node stays as it is. -/
lemma same (h : Sweep t e D late W T m S) (hi : S.Inv m) (hr : Rely t m S m' S') (hn : D n) :
    m'.latch (.node n) = m.latch (.node n) ∧ Same m S m' S' n := by
  obtain ⟨p, hp⟩ := h.placed hi (.inl hn)
  have hw := hr.dead _ (h.done hn)
  exact ⟨hw, (hr.still n (hi.pub_placed (by simp [hp])) (hi.owner_of_obsolete (h.done hn)) hw).2⟩

/-- The others do not get in the way. -/
theorem rely (h : Sweep t e D late W T m S) (hi : S.Inv m) (hr : Rely t m S m' S') :
    Sweep t e D late W T m' S' where
  clearer := (hr.clearer_iff e).mpr h.clearer
  top := by
    rw [hr.roots e (h.past hi)]
    exact h.top
  nodup := h.nodup
  done hn := by
    rw [(h.same hi hr hn).1]
    exact h.done hn
  retired hn hl := hr.retired_mono _ (h.retired hn hl)
  late {n} hl := by
    obtain ⟨h1, h2⟩ := h.late hl
    obtain ⟨p, hp⟩ := h.placed hi (.inl h1)
    exact ⟨h1, hr.anchored_retired n e p (h.anchored hi (.inl h1)) hp h.clearer h2⟩
  fresh := h.fresh
  only {n p} hp hw := by
    obtain ⟨h1, h2⟩ := hr.swept n e p h.clearer hp hw
    exact h.only h2 h1
  linked hn := by
    obtain ⟨ℓ, p, h1, h2, h3⟩ := h.linked hn
    refine ⟨ℓ, p, ?_, ?_, h3⟩
    · cases ℓ with
      | root e' => exact h1
      | child x b =>
        have hs := (h.same hi hr (h3 x b rfl)).2
        obtain ⟨q, hq, hp⟩ := h1
        exact ⟨q, hs.place.trans hq, by rw [hp, Forest.pre, Forest.pre, hs.cont]⟩
    · cases ℓ with
      | root e' =>
        obtain ⟨rfl, -⟩ := h1
        exact (hr.roots e' (h.past hi)).trans h2
      | child x b =>
        show (S'.forest.cont x).child b = _
        rw [(h.same hi hr (h3 x b rfl)).2.cont]
        exact h2
  below hn hc := by
    rw [(h.same hi hr hn).2.cont] at hc
    exact h.below hn hc
  taken hn hl := by
    rw [(h.same hi hr hn).2.cont] at hl
    exact h.taken hn hl
  home hk := by
    obtain ⟨n, hn, q, hq, hhome⟩ := h.home hk
    have hs := (h.same hi hr hn).2
    exact ⟨n, hn, q, hs.place.trans hq, by rwa [Forest.pre, hs.cont]⟩

/-! ## Steps -/

/-- The tree has been detached. -/
lemma start (hc : S.clearer e = some t) (hr : S.forest.root e = .node n)
    (hw : ∀ n p, S.forest.place n = some (e, p) → ¬ Obsolete (m.latch (.node n))) :
    Sweep t e (fun _ => False) none [n] (fun _ => False) m S where
  clearer := hc
  top := ⟨n, hr, .inr (by simp)⟩
  nodup := by simp
  done h := h.elim
  retired h := h.elim
  late h := by simp at h
  fresh _ := id
  only hp hw' := hw _ _ hp hw'
  linked hn := by
    obtain rfl := List.mem_singleton.mp (hn.resolve_left id)
    exact ⟨.root e, [], Forest.at_root e, hr, by simp⟩
  below h := h.elim
  taken h := h.elim
  home h := h.elim

lemma work (h : Sweep t e D late W T m S) (hi : S.Inv m) (hn : n ∈ W) :
    ¬ Obsolete (m.latch (.node n)) := by
  intro hw
  obtain ⟨p, hp⟩ := h.placed hi (.inr hn)
  exact h.fresh hn (h.only hp hw)

/-- A latch has been taken. -/
lemma acquire (h : Sweep t e D late W T m S) {l : LatchId} (hl : Free (m.latch l)) :
    Sweep t e D late W T (setWord m l (m.latch l + 1)) (S.acquire t l) :=
  { h with
    done := fun {n} hn => by
      have hne : LatchId.node n ≠ l := by
        rintro rfl
        have := h.done hn
        unfold Obsolete at this
        unfold Free at hl
        omega
      simpa [setWord, hne] using h.done hn
    only := fun {n p} hp hw => by
      have hne : LatchId.node n ≠ l := by
        rintro rfl
        simp only [setWord, Function.update_self] at hw
        unfold Obsolete at hw
        unfold Free at hl
        omega
      exact h.only hp (by simpa [setWord, hne] using hw) }

/-- The leaves of a node are at home there. -/
lemma home_of_leaf (hi : S.Inv m) (hq : S.forest.place n = some (e, q))
    (hl : (S.forest.cont n).slotAt rest = .leaf l) : Home S.forest e l.key n := by
  refine ⟨q, hq, ?_⟩
  cases rest with
  | nil =>
    left
    have hex : (S.forest.cont n).exact = some l := by
      cases hex : (S.forest.cont n).exact <;> simp [Content.slotAt, hex, Slot.ofOption] at hl ⊢
      exact hl
    exact hi.wf.key ((hi.wf.node hq).exact.trans hex)
  | cons b rest =>
    have hb : (S.forest.cont n).child b = .leaf l := hl
    exact .inr ⟨b, (hi.wf.alone (Forest.at_child hq b) hb).1, by simp [hb]⟩

/-- The next node becomes obsolete, with its inner children `kids` and its leaves. -/
lemma obsolete (T' : Key → Prop) (h : Sweep t e D none (n :: W) T m S) (hi : S.Inv m)
    (hv : Free v) (hkids : ∀ c, c ∈ kids ↔ ∃ b, (S.forest.cont n).child b = .node c)
    (hnodup : kids.Nodup) (hq : S.forest.place n = some (e, q))
    (hT : ∀ k, T' k ↔ T k ∨ ∃ rest l, (S.forest.cont n).slotAt rest = .leaf l ∧ l.key = k) :
    Sweep t e (fun x => D x ∨ x = n) (some n) (kids ++ W) T' (Shadow.setWord m (.node n) (v + 2))
      (S.release (.node n)) where
  clearer := h.clearer
  top := by
    obtain ⟨r, h1, h2⟩ := h.top
    refine ⟨r, h1, ?_⟩
    rcases h2 with h2 | h2
    · exact .inl (.inl h2)
    · rcases List.mem_cons.mp h2 with rfl | h2
      · exact .inl (.inr rfl)
      · exact .inr (by simp [h2])
  nodup := by
    have hnd := List.nodup_cons.mp h.nodup
    refine List.nodup_append.mpr ⟨hnodup, hnd.2, fun a ha c hc hac => ?_⟩
    subst hac
    -- A child of the node that is on the worklist would have a cleared parent.
    obtain ⟨b, hb⟩ := (hkids a).mp ha
    obtain ⟨ℓ, p, h1, h2, h3⟩ := h.linked (n := a) (.inr (by simp [hc]))
    obtain rfl := hi.wf.slot_inj h1 (Forest.at_child hq b) h2 hb
    exact h.fresh (by simp) (h3 n b rfl)
  done {x} hx := by
    by_cases hxn : x = n
    · subst hxn
      simp only [Shadow.setWord, Function.update_self]
      unfold Free at hv
      unfold Obsolete
      omega
    · simpa [Shadow.setWord, hxn] using h.done (hx.resolve_right hxn)
  retired {x} hx hl := by
    refine h.retired (hx.resolve_right fun hxn => hl (by rw [hxn])) (by simp)
  late {x} hx := by
    obtain rfl : n = x := by simpa using hx
    exact ⟨.inr rfl, fun hr => h.work hi (by simp) (hi.ledger.retired hr).2.2⟩
  fresh {x} hx := by
    have hxn : x ≠ n := by
      rintro rfl
      rcases List.mem_append.mp hx with hx | hx
      · obtain ⟨b, hb⟩ := (hkids x).mp hx
        have hpl := hi.wf.place_of_slot (Forest.at_child hq b) hb
        rw [hq] at hpl
        simp at hpl
      · exact (List.nodup_cons.mp h.nodup).1 hx
    rintro (hD | hD)
    · rcases List.mem_append.mp hx with hx | hx
      · obtain ⟨b, hb⟩ := (hkids x).mp hx
        obtain ⟨ℓ, p, h1, h2, h3⟩ := h.linked (.inl hD)
        obtain rfl := hi.wf.slot_inj h1 (Forest.at_child hq b) h2 hb
        exact h.fresh (by simp) (h3 n b rfl)
      · exact h.fresh (by simp [hx]) hD
    · exact hxn hD
  only {x p} hp hw := by
    by_cases hxn : x = n
    · exact .inr hxn
    · exact .inl (h.only hp (by simpa [Shadow.setWord, hxn] using hw))
  linked {x} hx := by
    by_cases hold : D x ∨ x ∈ n :: W
    · obtain ⟨ℓ, p, h1, h2, h3⟩ := h.linked hold
      exact ⟨ℓ, p, h1, h2, fun y b hy => .inl (h3 y b hy)⟩
    · have hk : x ∈ kids := by
        rcases hx with (hx | rfl) | hx
        · exact absurd (.inl hx) hold
        · exact absurd (.inr (by simp)) hold
        · rcases List.mem_append.mp hx with hx | hx
          · exact hx
          · exact absurd (.inr (by simp [hx])) hold
      obtain ⟨b, hb⟩ := (hkids x).mp hk
      refine ⟨.child n b, _, Forest.at_child hq b, hb, fun y b' hy => ?_⟩
      simp only [Loc.child.injEq] at hy
      exact .inr hy.1.symm
  below {x b c} hx hc := by
    rcases hx with hx | rfl
    · rcases h.below hx hc with h1 | h1
      · exact .inl (.inl h1)
      · rcases List.mem_cons.mp h1 with rfl | h1
        · exact .inl (.inr rfl)
        · exact .inr (by simp [h1])
    · exact .inr (by simp [(hkids c).mpr ⟨b, hc⟩])
  taken {x rest l} hx hl := by
    rw [hT]
    rcases hx with hx | rfl
    · exact .inl (h.taken hx hl)
    · exact .inr ⟨rest, l, hl, rfl⟩
  home {k} hk := by
    rcases (hT k).mp hk with hk | ⟨rest, l, hl, rfl⟩
    · obtain ⟨x, h1, h2⟩ := h.home hk
      exact ⟨x, .inl h1, h2⟩
    · exact ⟨n, .inr rfl, home_of_leaf (S := S) hi hq hl⟩

/-- The node is retired. -/
lemma retire (h : Sweep t e D (some n) W T m S) :
    Sweep t e D none W T (setRetired m n) (S.retire n) :=
  { h with
    retired := fun {x} hx _ => by
      by_cases hxn : x = n
      · simp [setRetired, hxn]
      · simp [setRetired, h.retired hx (by simpa using Ne.symm hxn)]
    late := by simp }

/-! ## The end -/

/-- When nothing is left to do, every node of the epoch has been cleared. -/
lemma all_done (h : Sweep t e D late [] T m S) (hi : S.Inv m)
    (hq : S.forest.place n = some (e, q)) : D n := by
  induction hlen : q.length using Nat.strongRecOn generalizing n q with
  | _ i ih =>
    obtain ⟨ℓ, h1, h2⟩ := hi.wf.placed hq
    cases ℓ with
    | root e' =>
      obtain ⟨rfl, -⟩ := h1
      obtain ⟨r, h3, h4⟩ := h.top
      obtain rfl : r = n := by simpa using h3.symm.trans h2
      simpa using h4
    | child x b =>
      obtain ⟨q', hq', rfl⟩ := h1
      have hx : D x := by
        refine ih q'.length ?_ hq' rfl
        simp only [← hlen, List.length_append, List.length_cons, List.length_nil]
        omega
      simpa using h.below hx h2

lemma all_retired (h : Sweep t e D none [] T m S) (hi : S.Inv m)
    (hq : S.forest.place n = some (e, q)) : n ∈ m.retired :=
  h.retired (h.all_done hi hq) (by simp)

lemma all_taken (h : Sweep t e D none [] T m S) (hi : S.Inv m)
    (hk : S.forest.map e k = some l) : T k := by
  obtain ⟨r, hr, -⟩ := h.top
  obtain ⟨n, q, rest, h1, h2⟩ := leaf_of_map hi.wf hr hk
  exact hi.wf.key hk ▸ h.taken (h.all_done hi h1) h2

/-! ## The node at hand -/

/-- The leaves of a node that has not been cleared have not been taken. -/
lemma not_taken (h : Sweep t e D late W T m S) (hi : S.Inv m) (hn : ¬ D n)
    (hq : S.forest.place n = some (e, q)) (hl : (S.forest.cont n).slotAt rest = .leaf l) :
    ¬ T l.key := by
  intro hT
  obtain ⟨n', h1, h2⟩ := h.home hT
  exact hn (home_unique hi.wf (home_of_leaf hi hq hl) h2 ▸ h1)

end Sweep

/-- The leaves of a node that its clearer has latched are frozen. -/
lemma frozen_of_latched (hi : S.Inv m) (hc : S.clearer e = some t)
    (ho : S.owner (.node n) = some t) (hq : S.forest.place n = some (e, q))
    (hl : (S.forest.cont n).slotAt rest = .leaf l) : Frozen m S e l.key :=
  ⟨hi.clearer_past (by simp [hc]), .inr (.inr ⟨n, Sweep.home_of_leaf hi hq hl,
    .inr ⟨by simp [ho], by rw [ho, hc]⟩⟩)⟩

/-- A leaf of a node is what its key is mapped to. -/
lemma map_of_leaf (hi : S.Inv m) (hq : S.forest.place n = some (e, q))
    (hl : (S.forest.cont n).slotAt rest = .leaf l) : S.forest.map e l.key = some l :=
  (hi.wf.map_leaf hq hl).1

end Shadow

end Artmap
