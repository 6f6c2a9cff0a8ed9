import Artmap.Ops.Place
import Artmap.Shadow.Sweep

/-!
# Clearing

`clear` takes the whole tree out by one store to the root; this is where it takes effect.  What
remains is to make the nodes of the detached tree obsolete, from the root downwards, and to
count and retire their leaves.  Writers that were under way when the tree was detached may
still change it; but a node that the clear has latched, or made obsolete, they cannot change
any more, so the clear takes every leaf exactly once (`Shadow.Sweep`).
-/

namespace Artmap

open scoped List

/-! ## The children of a node -/

/-- The list `cs` has the children of a node from byte `start` on. -/
structure ChildList (child : Byte → Slot) (start : ℕ) (cs : List (Byte × Slot)) : Prop where
  mem : ∀ b s, (b, s) ∈ cs ↔ start ≤ b.val ∧ child b = s ∧ s ≠ .null
  nodup : (cs.map Prod.fst).Nodup

namespace ChildList

open Content (nextOf nextOf_eq_none nextOf_eq_some)

variable {child : Byte → Slot} {start : ℕ} {b : Byte} {s : Slot} {cs : List (Byte × Slot)}

lemma nil (h : nextOf child start = none) : ChildList child start [] where
  mem b s := by
    rw [nextOf_eq_none] at h
    simp only [List.not_mem_nil, false_iff, not_and]
    rintro hb rfl hs
    exact hs (h b hb)
  nodup := by simp

lemma cons (h : nextOf child start = some (b, s)) (hcs : ChildList child (b.val + 1) cs) :
    ChildList child start ((b, s) :: cs) where
  mem b' s' := by
    obtain ⟨h1, h2, h3, h4⟩ := nextOf_eq_some.mp h
    simp only [List.mem_cons, Prod.mk.injEq, hcs.mem]
    constructor
    · rintro (⟨rfl, rfl⟩ | ⟨h5, h6, h7⟩)
      · exact ⟨h1, h2, h3⟩
      · exact ⟨by omega, h6, h7⟩
    · rintro ⟨h5, h6, h7⟩
      rcases lt_trichotomy b' b with hlt | rfl | hlt
      · exact absurd (h4 b' h5 hlt) (h6 ▸ h7)
      · exact .inl ⟨rfl, h6.symm.trans h2⟩
      · exact .inr ⟨hlt, h6, h7⟩
  nodup := by
    rw [List.map_cons, List.nodup_cons]
    refine ⟨fun hb => ?_, hcs.nodup⟩
    obtain ⟨⟨b', s'⟩, h1, rfl⟩ := List.mem_map.mp hb
    have h2 := ((hcs.mem b' s').mp h1).1
    exact absurd h2 (by simp)

end ChildList

/-! ## The entries of a node -/

section Entries

variable {c : Content} {cs : List (Byte × Slot)} {l : Leaf} {q : List Byte} {F : Forest}
  {n : NodeId} {e : ℕ}

lemma mem_leavesOf {slots : List Slot} : l ∈ leavesOf slots ↔ .leaf l ∈ slots := by
  unfold leavesOf
  rw [List.mem_filterMap]
  constructor
  · rintro ⟨s, h1, h2⟩
    cases s <;> simp at h2
    rwa [← h2]
  · exact fun h => ⟨_, h, rfl⟩

lemma mem_nodesOf {slots : List Slot} {k : NodeId} : k ∈ nodesOf slots ↔ .node k ∈ slots := by
  unfold nodesOf
  rw [List.mem_filterMap]
  constructor
  · rintro ⟨s, h1, h2⟩
    cases s <;> simp at h2
    rwa [← h2]
  · exact fun h => ⟨_, h, rfl⟩

/-- The leaves that a clear finds at a node. -/
lemma ChildList.mem_leaves (h : ChildList c.child 0 cs) :
    l ∈ leavesOf (Slot.ofOption c.exact :: cs.map Prod.snd) ↔
      ∃ rest, c.slotAt rest = .leaf l := by
  rw [mem_leavesOf, List.mem_cons, List.mem_map]
  constructor
  · rintro (hl | ⟨⟨b, s⟩, h1, rfl⟩)
    · exact ⟨[], hl.symm⟩
    · exact ⟨[b], ((h.mem b _).mp h1).2.1⟩
  · rintro ⟨_ | ⟨b, rest⟩, hl⟩
    · exact .inl hl.symm
    · exact .inr ⟨(b, .leaf l), (h.mem b _).mpr ⟨Nat.zero_le _, hl, by simp⟩, rfl⟩

lemma ChildList.mem_nodes (h : ChildList c.child 0 cs) {k : NodeId} :
    k ∈ nodesOf (cs.map Prod.snd) ↔ ∃ b, c.child b = .node k := by
  rw [mem_nodesOf, List.mem_map]
  constructor
  · rintro ⟨⟨b, s⟩, h1, rfl⟩
    exact ⟨b, ((h.mem b _).mp h1).2.1⟩
  · rintro ⟨b, hb⟩
    exact ⟨(b, .node k), (h.mem b _).mpr ⟨Nat.zero_le _, hb, by simp⟩, rfl⟩

lemma ChildList.nodup_nodes (h : ChildList (F.cont n).child 0 cs) (hwf : F.WF)
    (hq : F.place n = some (e, q)) : (nodesOf (cs.map Prod.snd)).Nodup := by
  have hpw := List.pairwise_map.mp h.nodup
  unfold nodesOf
  rw [List.filterMap_map]
  refine List.Pairwise.filterMap _ ?_ (List.Pairwise.and_mem.mp hpw)
  rintro ⟨b, s⟩ ⟨b', s'⟩ ⟨h1, h2, hne⟩ k hk k' hk' rfl
  cases s <;> simp at hk
  cases s' <;> simp at hk'
  subst hk hk'
  have hb := ((h.mem b _).mp h1).2.1
  have hb' := ((h.mem b' _).mp h2).2.1
  have := hwf.slot_inj (Forest.at_child hq b) (Forest.at_child hq b') hb hb'
  exact hne (by simpa using this)

/-- The leaves of a node have different keys. -/
lemma ChildList.nodup_leaves (h : ChildList (F.cont n).child 0 cs) (hwf : F.WF)
    (hq : F.place n = some (e, q)) :
    ((leavesOf (Slot.ofOption (F.cont n).exact :: cs.map Prod.snd)).map Leaf.key).Nodup := by
  have hkey : ∀ b l, (F.cont n).child b = .leaf l → q ++ F.pre n ++ [b] <+: l.key :=
    fun b l hb => (hwf.alone (Forest.at_child hq b) hb).1
  have hpw := List.pairwise_map.mp h.nodup
  have hcs : ((leavesOf (cs.map Prod.snd)).map Leaf.key).Nodup := by
    unfold leavesOf
    rw [List.filterMap_map, List.nodup_iff_pairwise_ne, List.pairwise_map]
    refine List.Pairwise.filterMap _ ?_ (List.Pairwise.and_mem.mp hpw)
    rintro ⟨b, s⟩ ⟨b', s'⟩ ⟨h1, h2, hne⟩ l hl l' hl' heq
    cases s <;> simp at hl
    cases s' <;> simp at hl'
    subst hl hl'
    obtain ⟨r, hr⟩ := hkey b _ ((h.mem b _).mp h1).2.1
    obtain ⟨r', hr'⟩ := hkey b' _ ((h.mem b' _).mp h2).2.1
    rw [heq, ← hr'] at hr
    simp only [List.append_assoc, List.append_cancel_left_eq] at hr
    exact hne (by simpa using congrArg List.head? hr)
  cases hex : (F.cont n).exact with
  | none => exact hcs
  | some l =>
    show (l.key :: (leavesOf (cs.map Prod.snd)).map Leaf.key).Nodup
    refine List.nodup_cons.mpr ⟨fun hmem => ?_, hcs⟩
    obtain ⟨l', h1, h2⟩ := List.mem_map.mp hmem
    obtain ⟨⟨b, s⟩, h3, h4⟩ := List.mem_map.mp (mem_leavesOf.mp h1)
    obtain rfl : s = .leaf l' := h4
    obtain ⟨r, hr⟩ := hkey b l' ((h.mem b _).mp h3).2.1
    rw [h2, hwf.key ((hwf.node hq).exact.trans hex)] at hr
    simpa using congrArg List.length hr

end Entries

/-! ## What the clearing thread knows -/

/-- The tree of epoch `e` has been detached; `o` is to clear it. -/
def Know.detached (Γ : Know) (e : ℕ) (o : Option ℕ) : Know :=
  { Γ with
    top := some (.null, e + 1)
    clear := o.map fun _ => e
    base := none }

/-- The clear is over. -/
def Know.cleared (Γ : Know) : Know :=
  { Γ with clear := none }

namespace Shadow

variable {live : Bool} {t e : ℕ} {Γ : Know} {m : TreeMem} {S : Shadow} {n : NodeId}
  {D : NodeId → Prop} {late : Option NodeId} {W : List NodeId} {T : Key → Prop}

lemma Knows.detached {o : Option ℕ} (h : Knows live t Γ m S) (hc : Γ.clear = none)
    (ho : o = some t ∨ o = none) :
    Knows live t (Γ.detached S.cur o) { m with root := .null } (S.detach o) :=
  { h with
    lo := h.lo.trans (Nat.le_succ _)
    seen := fun n s hs =>
      let hn := h.seen n s hs
      ⟨hn.pub, hn.ty, hn.free, hn.le, hn.alone, hn.right⟩
    grasp := fun n g hg =>
      let hn := h.grasp n g hg
      ⟨hn.owner, hn.ty, hn.fields, hn.cont, hn.place⟩
    top := fun r e hre _ => by
      simpa [Know.detached, Shadow.detach] using hre
    clear := fun e => by
      have hno : S.clearer e ≠ some t := fun hce => by simpa [hc] using (h.clear e).mp hce
      by_cases he : e = S.cur
      · subst he
        rcases ho with rfl | rfl <;> simp [Know.detached, Shadow.detach]
      · rcases ho with rfl | rfl <;> simp [Know.detached, Shadow.detach, he, hno, Ne.symm he]
    base := fun _ _ hb => by simp [Know.detached] at hb }

lemma Knows.finished (h : Knows live t Γ m S) (hc : Γ.clear = some e) :
    Knows live t Γ.cleared m (S.finish e) :=
  { h with
    seen := fun n s hs =>
      let hn := h.seen n s hs
      ⟨hn.pub, hn.ty, hn.free, hn.le, hn.alone, hn.right⟩
    grasp := fun n g hg =>
      let hn := h.grasp n g hg
      ⟨hn.owner, hn.ty, hn.fields, hn.cont, hn.place⟩
    clear := fun e' => by
      by_cases he : e' = e
      · simp [Know.cleared, finish, he]
      · have hno : S.clearer e' ≠ some t := fun hce => by
          have := (h.clear e').mp hce
          rw [hc] at this
          exact he (by simpa using this.symm)
        simp [Know.cleared, finish, he, hno]
    base := fun m₀ S₀ hb hl =>
      let hu := h.base m₀ S₀ hb hl
      ⟨hu.root, hu.latch, hu.retired, hu.forest, hu.cur, hu.pub, hu.fields⟩ }

/-- The root latch does not matter to the clearing thread. -/
lemma Sweep.releaseRoot (h : Sweep t e D late W T m S) (w : ℕ) :
    Sweep t e D late W T (setWord m .root w) (S.release .root) :=
  { h with
    done := fun {n} hn => by simpa [setWord] using h.done hn
    only := fun {n p} hp hw => h.only hp (by simpa [setWord] using hw) }

end Shadow

namespace Client

open Shadow (Sweep)
open Content (nextOf nextOf_eq_none nextOf_eq_some)

variable {C : Client} {live : Bool} {t : ℕ} {Γ Δ : Know} {P Q R : C.Assertion t} {x y : C.W}
  {n : NodeId} {g : Grasp} {v e : ℕ} {kind : LeafKind} {count : Leaf → TreeM ℤ}
  {D : NodeId → Prop} {W : List NodeId} {T : Key → Prop} {l : Leaf}

/-- The children of a latched node. -/
lemma wp_childrenFrom (hr : Repr g.ty g.fields g.cont) (fuel : ℕ) {start : ℕ}
    (hf : 257 ≤ start + fuel) (hx : C.At live t Γ P x) (hg : Γ.grasp n = some g) :
    C.rg.wp live t (childrenFrom n fuel start) (fun cs y => ChildList g.cont.child start cs ∧
      C.At live t Γ P y ∧ Later live t (tree x) (shadow x) y) x := by
  induction fuel generalizing start x with
  | zero =>
    refine RG.wp_ret ⟨.nil (nextOf_eq_none.mpr fun b hb => ?_), hx, .refl x⟩
    have := b.isLt
    omega
  | succ fuel ih =>
    refine RG.wp_seq (wp_typed_later (fun _ => readOnly_nextChild _) hx hg) ?_
    rintro r y - ⟨hrun, hy, hlater⟩
    rw [hr.run_nextChild] at hrun
    obtain rfl : nextOf g.cont.child start = r := by simpa using hrun
    cases hnext : nextOf g.cont.child start with
    | none => exact RG.wp_ret ⟨.nil hnext, hy, hlater⟩
    | some a =>
      obtain ⟨b, s⟩ := a
      have hb := (nextOf_eq_some.mp hnext).1
      refine RG.wp_seq (ih (by omega) hy) ?_
      rintro cs z - ⟨hcs, hz, hlater'⟩
      exact RG.wp_ret ⟨.cons hnext hcs, hz, hlater.trans hlater'⟩

/-! ## What the client brings -/

/-- What a client brings to a clear: `walk e T U c` holds when the leaves of the keys `T` of the
detached epoch `e` have been taken and have counted for `c`, and the leaves `U` of them have
not been retired yet. -/
structure ClearHooks (live : Bool) (t : ℕ) (kind : LeafKind) (count : Leaf → TreeM ℤ)
    (P Q : C.Assertion t) where
  walk : ℕ → (Key → Prop) → List Leaf → ℤ → C.Assertion t
  counted : ℕ → (Key → Prop) → List Leaf → ℤ → Leaf → ℤ → C.Assertion t
  can_detach : ∀ x, C.Inv x → P x → (∀ k, x.view.map (x.view.cur + 1) k = none) →
    Upd t x x.leafs x.view.detach (walk x.view.cur (fun _ => False) [] 0)
  can_skip : ∀ x v, C.Inv x → P x → (∀ k, x.view.map (x.view.cur + 1) k = none) →
    (∀ k, x.view.map x.view.cur k = none) → x.view.detach.Freezes v →
    (∀ k, v.frozen x.view.cur k) → Upd t x x.leafs v Q
  can_count : ∀ {e T U c l Γ x}, C.At live t Γ (walk e T U c) x →
    (scene x).view.map e l.key = some l → (scene x).view.frozen e l.key → ¬ T l.key →
    C.rg.wp live t (count l) (fun c' y => C.At live t Γ (counted e T U c l c') y ∧
      Later live t (tree x) (shadow x) y) x
  can_mark : ∀ e T U c l c', C.MarkStep t kind l (counted e T U c l c')
    (walk e (fun k => T k ∨ k = l.key) (U ++ [l]) (c + c'))
  can_retire : ∀ e T U c l, C.LeafStep t (.retireLeaf l) (walk e T (l :: U) c) (walk e T U c)
  can_finish : ∀ e T c x v, C.Inv x → walk e T [] c x →
    (∀ k l, x.view.map e k = some l → T k) → x.view.Freezes v → (∀ k, v.frozen e k) →
    C.Allowed t (.lenAdd (-c)) x ∧ Upd t x (execLeaf t (.lenAdd (-c)) x.leafs).2 v Q
  clearing : ∀ {y : C.W}, P (scene y) → C.Clearing y.ghost.2 t

/-! ## One node -/

section Node

variable {c : ℤ} {U ls : List Leaf} {q : List Byte} {late : Option NodeId}

lemma sweep_later (h : Sweep t e D late W T (tree x) (shadow x)) (hok : C.rg.Ok live t x)
    (hy : Later live t (tree x) (shadow x) y) : Sweep t e D late W T (tree y) (shadow y) :=
  h.rely (ok_tree hok) hy.rely

/-- The leaves of a latched node of a detached tree. -/
lemma wp_countLeaves (h : C.ClearHooks live t kind count P Q)
    (hx : C.At live t Γ (h.walk e T U c) x) (hclear : Γ.clear = some e)
    (hg : Γ.grasp n = some g) (hq : g.place = some (e, q))
    (hls : ∀ l ∈ ls, ∃ rest, g.cont.slotAt rest = .leaf l)
    (hnodup : (ls.map Leaf.key).Nodup) (hT : ∀ l ∈ ls, ¬ T l.key) :
    C.rg.wp live t (countLeaves kind count ls) (fun c' y =>
      C.At live t Γ (h.walk e (fun k => T k ∨ ∃ l ∈ ls, l.key = k) (U ++ ls) (c + c')) y ∧
      Later live t (tree x) (shadow x) y) x := by
  induction ls generalizing T U c x with
  | nil =>
    refine RG.wp_ret ⟨?_, .refl x⟩
    simpa using hx
  | cons l ls ih =>
    refine RG.wp_intro fun hok => ?_
    have hi := ok_tree hok
    have hG := hx.knows.grasp n g hg
    have hpl : (shadow x).forest.place n = some (e, q) := hG.place.trans hq
    obtain ⟨rest, hrest⟩ := hls l (by simp)
    have hrest' : ((shadow x).forest.cont n).slotAt rest = .leaf l := by rw [hG.cont, hrest]
    have hfrozen := Shadow.frozen_of_latched hi ((hx.knows.clear e).mpr hclear) hG.owner hpl hrest'
    have hkeys := List.nodup_cons.mp hnodup
    refine RG.wp_seq (h.can_count hx (Shadow.map_of_leaf hi hpl hrest') hfrozen
      (hT l (by simp))) ?_
    rintro c₁ y - ⟨hy, hlater⟩
    refine RG.wp_seq (wp_markRemoved_later (h.can_mark e T U c l c₁) hy) ?_
    rintro - z - ⟨hz, hlater'⟩
    refine RG.wp_seq (ih hz (fun l' hl' => hls l' (by simp [hl'])) hkeys.2 ?_) ?_
    · rintro l' hl' (hT' | hkey)
      · exact hT l' (by simp [hl']) hT'
      · exact hkeys.1 (List.mem_map.mpr ⟨l', hl', hkey⟩)
    · rintro c₂ w - ⟨hw, hlater''⟩
      refine RG.wp_ret ⟨?_, (hlater.trans hlater').trans hlater''⟩
      have hset : (fun k => (T k ∨ k = l.key) ∨ ∃ l' ∈ ls, l'.key = k) =
          fun k => T k ∨ ∃ l' ∈ l :: ls, l'.key = k := by
        funext k
        simp only [List.mem_cons, exists_eq_or_imp, or_assoc, eq_comm (a := k)]
      rw [hset, List.append_assoc, add_assoc] at hw
      exact hw

lemma wp_retireLeaves (h : C.ClearHooks live t kind count P Q)
    (hx : C.At live t Γ (h.walk e T ls c) x) :
    C.rg.wp live t (retireLeaves ls) (fun _ y => C.At live t Γ (h.walk e T [] c) y ∧
      Later live t (tree x) (shadow x) y) x := by
  induction ls generalizing x with
  | nil => exact RG.wp_ret ⟨hx, .refl x⟩
  | cons l ls ih =>
    refine RG.wp_seq (wp_leafStep_later (h.can_retire e T ls c l) hx) ?_
    rintro - y - ⟨hy, hlater⟩
    refine RG.wp_mono (ih hy) fun _ z _ hz => ⟨hz.1, hlater.trans hz.2⟩

/-- Making a node of a detached tree obsolete, with its entries `cs`. -/
lemma wp_markCleared {cs : List (Byte × Slot)} (hx : C.At live t Γ P x)
    (hclear : Γ.clear = some e) (hh : Γ.held (.node n) = some v) (hg : Γ.grasp n = some g)
    (hq : g.place = some (e, q)) (hr : Repr g.ty g.fields g.cont)
    (hs : Sweep t e D none (n :: W) T (tree x) (shadow x)) (hcs : ChildList g.cont.child 0 cs) :
    C.rg.wp live t (markObsolete (.node n) v) (fun _ y =>
      C.At live t (Γ.unlatch n none) P y ∧
      Sweep t e (fun k => D k ∨ k = n) (some n) ((nodesOf (cs.map Prod.snd)).reverse ++ W)
        (fun k => T k ∨ ∃ l ∈ leavesOf (Slot.ofOption g.cont.exact :: cs.map Prod.snd),
          l.key = k) (tree y) (shadow y) ∧
      (live = true → (tree y).next = (tree x).next ∧ (tree y).retired = (tree x).retired)) x := by
  refine RG.wp_intro fun hok => ?_
  have hi := ok_tree hok
  obtain ⟨hfree, ho, hw⟩ := hx.knows.held _ v hh
  have hG := hx.knows.grasp n g hg
  have hpl : (shadow x).forest.place n = some (e, q) := hG.place.trans hq
  have hclearer := (hx.knows.clear e).mpr hclear
  have hn : ∀ e' p, (shadow x).forest.place n = some (e', p) →
      (shadow x).clearer e' = some t := by
    intro e' p hp
    obtain ⟨rfl, -⟩ : e = e' ∧ q = p := by simpa using hpl.symm.trans hp
    exact hclearer
  have hinv := hi.obsolete hfree ho fun e' p hp => by
    refine ⟨hi.clearer_past (by simp [hn e' p hp]), ?_⟩
    rwa [hG.ty, hG.fields, hG.cont]
  have hcs' : ChildList ((shadow x).forest.cont n).child 0 cs := by rwa [hG.cont]
  have hsweep := hs.obsolete (fun k => T k ∨
      ∃ l ∈ leavesOf (Slot.ofOption g.cont.exact :: cs.map Prod.snd), l.key = k)
    hi hfree
    (fun k => by rw [List.mem_reverse, hcs'.mem_nodes])
    (List.nodup_reverse.mpr (hcs'.nodup_nodes hi.wf hpl)) hpl (fun k => by
      rw [hG.cont]
      refine or_congr_right ?_
      simp only [hcs.mem_leaves]
      exact ⟨fun ⟨l, ⟨rest, h1⟩, h2⟩ => ⟨rest, l, h1, h2⟩,
        fun ⟨rest, l, h1, h2⟩ => ⟨l, ⟨rest, h1⟩, h2⟩⟩)
  unfold markObsolete
  rw [hfree.or_obsolete]
  refine RG.wp_mono (wp_quiet_later (S := (shadow x).release (.node n)) (Δ := Γ.unlatch n none)
    hx hok (Shadow.own_obsolete hi ho hw hn) hinv rfl rfl rfl (fun e k hf => ?_)
    (hx.knows.unlatch (by simp))) ?_
  · exact Shadow.frozen_obsolete hi hfree ho hw hn hf
  · rintro _ y - ⟨-, hy, hlater⟩
    refine ⟨hy, hsweep.rely hinv hlater.rely, fun hl => ?_⟩
    rw [(hlater.alone hl).1]
    exact ⟨rfl, rfl⟩

/-- Retiring a node of a detached tree. -/
lemma wp_retireCleared (hx : C.At live t Γ P x)
    (hs : Sweep t e D (some n) W T (tree x) (shadow x)) :
    C.rg.wp live t (onTree (.retireNode n)) (fun _ y => C.At live t (Γ.retire n) P y ∧ ¬ Γ.due n ∧
      Sweep t e D none W T (tree y) (shadow y) ∧ (live = true →
        (tree y).next = (tree x).next ∧ (tree y).retired = (tree x).retired ++ [n])) x := by
  refine RG.wp_intro fun hok => ?_
  have hi := ok_tree hok
  obtain ⟨hD, hnot⟩ := hs.late rfl
  obtain ⟨p, hp⟩ := hs.placed hi (.inl hD)
  have hdue : (shadow x).due n = none := by
    cases hd : (shadow x).due n with
    | none => rfl
    | some t' => simp [(hi.ledger.due hd).2.1] at hp
  have hinv := hi.retire (hs.done hD) (hi.pub_placed (by simp [hp])) hnot
  refine RG.wp_mono (wp_quiet_later (S := (shadow x).retire n) (Δ := Γ.retire n) hx hok
    (Shadow.own_retire (.inr ⟨e, p, hp, hs.clearer, hdue⟩)) hinv rfl rfl rfl
    (fun e k hf => hf) hx.knows.retire) ?_
  rintro _ y - ⟨-, hy, hlater⟩
  refine ⟨hy, fun hd => ?_, hs.retire.rely hinv hlater.rely, fun hl => ?_⟩
  · simpa [hdue] using (hx.knows.due n).mpr hd
  · rw [(hlater.alone hl).1]
    exact ⟨rfl, rfl⟩

/-- The node at hand is latched, and is as it was found. -/
structure Gripped (live : Bool) (t : ℕ) (Γ : Know) (P : C.Assertion t) (e : ℕ)
    (D : NodeId → Prop) (W : List NodeId) (T : Key → Prop) (n : NodeId) (m : TreeMem) (v : ℕ)
    (g : Grasp) (q : List Byte) (y : C.W) : Prop where
  place : g.place = some (e, q)
  repr : Repr g.ty g.fields g.cont
  here : C.At live t ((Γ.learn n).latch n v g) P y
  sweep : Sweep t e D none (n :: W) T (tree y) (shadow y)
  alone : live = true → (tree y).next = m.next ∧ (tree y).retired = m.retired

/-- A node of a detached tree can always be latched. -/
lemma wp_grip (hx : C.At live t Γ P x) (hh : ∀ l, Γ.held l = none)
    (hs : Sweep t e D none (n :: W) T (tree x) (shadow x)) :
    C.rg.wp live t (lock (.node n)) (fun r y => ∃ v g q, r = some v ∧
      C.Gripped live t Γ P e D W T n (tree x) v g q y) x := by
  refine RG.wp_intro fun hok => ?_
  obtain ⟨p, hp⟩ := hs.placed (ok_tree hok) (.inr (by simp) : D n ∨ n ∈ n :: W)
  have hpub := (ok_tree hok).pub_placed (n := n) (by simp [hp])
  have hx' : C.At live t (Γ.learn n) P x := ⟨hx.knows.learn hpub, hx.client⟩
  refine wp_lock (Γ := Γ.learn n) (I := fun y => Sweep t e D none (n :: W) T (tree y) (shadow y) ∧
    (live = true → (tree y).next = (tree x).next ∧ (tree y).retired = (tree x).retired)) hh
    (fun n' hn => .inl (.inl (by simpa using hn.symm))) hx' ⟨hs, fun _ => ⟨rfl, rfl⟩⟩ ?_ ?_ ?_
  · rintro y z hoky - hlater ⟨h1, h2⟩
    refine ⟨sweep_later h1 hoky hlater, fun hl => ?_⟩
    rw [(hlater.alone hl).1]
    exact h2 hl
  · intro y z hoky hI hobs
    exact absurd hobs (hI.1.work (ok_tree hoky) (by simp))
  · rintro y z hy hoky ⟨h1, h2⟩ hfree hlater hP
    have hi := ok_tree hoky
    have hinv := hi.acquire (t := t) hfree fun n' hn => by
      obtain rfl : n = n' := by simpa using hn
      exact hy.knows.pub (.inl (.inl rfl))
    obtain ⟨q, hq⟩ := h1.placed hi (.inr (by simp) : D n ∨ n ∈ n :: W)
    refine ⟨_, ⟨(tree y).ty n, (tree y).fields n, (shadow y).forest.cont n,
      (shadow y).forest.place n⟩, q, rfl, hq, ?_, ?_, ?_, ?_⟩
    · exact hi.repr (by simp [hq]) (hi.owner_of_free hfree)
    · exact .later (hy.knows.latch hfree) hinv hlater hP
    · exact (h1.acquire hfree).rely hinv hlater.rely
    · intro hl
      rw [(hlater.alone hl).1]
      exact h2 hl

/-- The node at hand has been cleared. -/
structure NodeCleared (h : C.ClearHooks live t kind count P Q) (Γ : Know) (e : ℕ)
    (W : List NodeId) (n : NodeId) (c : ℤ) (m : TreeMem) (r : ℤ × List NodeId) (Δ : Know)
    (D : NodeId → Prop) (T : Key → Prop) (y : C.W) : Prop where
  idle : Γ.Idle Δ
  here : C.At live t Δ (h.walk e T [] (c + r.1)) y
  sweep : Sweep t e D none (r.2.reverse ++ W) T (tree y) (shadow y)
  alone : live = true → (tree y).next = m.next ∧ (tree y).retired = m.retired ++ [n]

lemma wp_clearGripped {c : ℤ} {m : TreeMem} {q : List Byte}
    (h : C.ClearHooks live t kind count P Q) (hh : ∀ l, Γ.held l = none)
    (hclear : Γ.clear = some e)
    (hx : C.Gripped live t Γ (h.walk e T [] c) e D W T n m v g q x) :
    C.rg.wp live t (do
      let exact ← onNode n exactLeaf
      let cs ← children n
      let leaves := leavesOf (exact :: cs.map Prod.snd)
      let c ← countLeaves kind count leaves
      markObsolete (.node n) v
      retireLeaves leaves
      onTree (.retireNode n)
      return (c, nodesOf (cs.map Prod.snd)))
      (fun r y => ∃ Δ D' T', NodeCleared h Γ e W n c m r Δ D' T' y) x := by
  refine RG.wp_intro fun hok => ?_
  have hg : ((Γ.learn n).latch n v g).grasp n = some g := by simp [Know.latch]
  have hheld : ((Γ.learn n).latch n v g).held (.node n) = some v := by simp [Know.latch]
  refine RG.wp_seq (wp_onNode_later readOnly_exactLeaf hx.here hg) ?_
  rintro ex y hoky ⟨hrun, hy, hlater⟩
  rw [hx.repr.run_exactLeaf] at hrun
  obtain rfl : Slot.ofOption g.cont.exact = ex := by simpa using hrun
  refine RG.wp_seq (wp_childrenFrom hx.repr 257 (by simp) hy hg) ?_
  rintro cs z hokz ⟨hcs, hz, hlater'⟩
  have hsz := sweep_later (sweep_later hx.sweep hok hlater) hoky hlater'
  have hi := ok_tree hokz
  have hG := hz.knows.grasp n g hg
  have hpl : (shadow z).forest.place n = some (e, q) := hG.place.trans hx.place
  have hcs' : ChildList ((shadow z).forest.cont n).child 0 cs := by rwa [hG.cont]
  have hfresh : ¬ D n := hsz.fresh (by simp)
  have hleaf : ∀ l, l ∈ leavesOf (Slot.ofOption g.cont.exact :: cs.map Prod.snd) ↔
      ∃ rest, g.cont.slotAt rest = .leaf l := fun l => hcs.mem_leaves
  have hnd := hcs'.nodup_leaves hi.wf hpl
  rw [hG.cont] at hnd
  refine RG.wp_seq (wp_countLeaves h hz hclear hg hx.place
    (fun l hl => (hleaf l).mp hl) hnd fun l hl => ?_) ?_
  · obtain ⟨rest, hrest⟩ := (hleaf l).mp hl
    exact hsz.not_taken hi hfresh hpl (by rw [hG.cont, hrest])
  rintro c' w hokw ⟨hw, hlater''⟩
  have hsw := sweep_later hsz hokz hlater''
  refine RG.wp_seq (wp_markCleared hw hclear hheld hg hx.place hx.repr hsw hcs) ?_
  rintro - u hoku ⟨hu, hsu, halone⟩
  refine RG.wp_seq (wp_retireLeaves h hu) ?_
  rintro - r hokr ⟨hr, hlaterr⟩
  refine RG.wp_seq (wp_retireCleared hr (sweep_later hsu hoku hlaterr)) ?_
  rintro - s - ⟨hs, hdue, hss, halone'⟩
  have hidle : Γ.Idle ((((Γ.learn n).latch n v g).unlatch n none).retire n) := by
    refine ⟨rfl, ?_, rfl, rfl, rfl, ?_⟩
    · funext l
      by_cases hl : l = .node n <;>
        simp [Know.retire, Know.unlatch, Know.latch, Know.learn, hl, hh]
    · funext k
      refine propext ⟨And.right, fun hk => ⟨fun hkn => hdue ?_, hk⟩⟩
      exact hkn ▸ hk
  refine RG.wp_ret ⟨_, _, _, hidle, hs, hss, fun hl => ?_⟩
  obtain ⟨h1, h2⟩ := hx.alone hl
  obtain ⟨h3, h4⟩ := halone hl
  obtain ⟨h5, h6⟩ := halone' hl
  rw [(hlaterr.alone hl).1] at h5 h6
  rw [h5, h6, h3, h4, (hlater''.alone hl).1, (hlater'.alone hl).1, (hlater.alone hl).1, h1, h2]
  exact ⟨rfl, rfl⟩

lemma wp_clearNode {c : ℤ} (h : C.ClearHooks live t kind count P Q)
    (hx : C.At live t Γ (h.walk e T [] c) x) (hh : ∀ l, Γ.held l = none)
    (hclear : Γ.clear = some e) (hs : Sweep t e D none (n :: W) T (tree x) (shadow x)) :
    C.rg.wp live t (clearNode kind count n)
      (fun r y => ∃ Δ D' T', NodeCleared h Γ e W n c (tree x) r Δ D' T' y) x := by
  refine RG.wp_seq (wp_grip hx hh hs) ?_
  rintro _ y - ⟨v, g, q, rfl, hy⟩
  exact wp_clearGripped h hh hclear hy

end Node

/-! ## The walk -/

/-- Between two nodes of the walk. -/
structure Walking (h : C.ClearHooks live t kind count P Q) (Γ : Know) (e : ℕ)
    (s : List NodeId × ℤ) (y : C.W) : Prop where
  ends : ∃ Δ D T, Γ.Idle Δ ∧ C.At live t Δ (h.walk e T [] s.2) y ∧
    Sweep t e D none s.1 T (tree y) (shadow y)

/-- The nodes that have not been retired. -/
def unretired (m : TreeMem) : ℕ :=
  m.next - m.retired.length

lemma unretired_lt {m m' : TreeMem} {S : Shadow} (hi : S.Inv m') (hnext : m'.next = m.next)
    (hret : m'.retired = m.retired ++ [n]) : unretired m' < unretired m := by
  have hsub : m'.retired ⊆ List.range m'.next := by
    intro k hk
    exact List.mem_range.mpr (hi.pub_lt (hi.ledger.retired hk).1)
  have hle := (List.subperm_of_subset hi.ledger.retired_nodup hsub).length_le
  rw [List.length_range, hret, List.length_append, List.length_singleton, hnext] at hle
  unfold unretired
  rw [hret, hnext, List.length_append, List.length_singleton]
  omega

/-- The whole detached tree is walked. -/
lemma wp_clearWalk (h : C.ClearHooks live t kind count P Q) (hh : ∀ l, Γ.held l = none)
    (hclear : Γ.clear = some e) (hx : Walking h Γ e ([n], 0) x) :
    C.rg.wp live t (clearWalk kind count n) (fun total y => Walking h Γ e ([], total) y) x := by
  refine RG.wp_iter (δ := ℕ) (fun s y => Walking h Γ e s y) (fun _ y => unretired (tree y)) ?_ hx
  rintro ⟨work, total⟩ y ⟨Δ, D, T, hidle, hy, hs⟩
  cases work with
  | nil => exact RG.wp_ret ⟨Δ, D, T, hidle, hy, hs⟩
  | cons n work =>
    refine RG.wp_seq (wp_clearNode h hy (fun l => by rw [hidle.held, hh])
      (hidle.clear.trans hclear) hs) ?_
    rintro ⟨c, below⟩ z hokz ⟨Δ', D', T', hz⟩
    refine RG.wp_ret ⟨⟨Δ', D', T', hidle.trans hz.idle, hz.here, hz.sweep⟩, fun hl => ?_⟩
    obtain ⟨h1, h2⟩ := hz.alone hl
    exact unretired_lt (ok_tree hokz) h1 h2

/-! ## Detaching the tree -/

variable {r : Slot} {o : Option ℕ}

lemma map_future (hok : C.rg.Ok live t x) (k : Key) :
    (scene x).view.map ((scene x).view.cur + 1) k = none := by
  have hi := ok_tree hok
  have hnull := hi.future ((shadow x).cur + 1) (Nat.lt_succ_self _)
  have hholds := hi.wf.holds (Forest.at_root ((shadow x).cur + 1))
  rw [Forest.slot, hnull] at hholds
  exact hholds k List.nil_prefix

lemma freezes_detach (hx : C.At live t Γ P x) (hok : C.rg.Ok live t x) (hc : Γ.clear = none)
    (hr : (shadow x).owner .root = some t) (ho : o = some t ∨ o = none) :
    (scene x).view.detach.Freezes
      (viewOf { tree x with root := .null } ((shadow x).detach o)) where
  cur := rfl
  map := rfl
  frozen _ _ hf := frozen_of_own hx hok hc (Shadow.own_detach (ok_tree hok) hr ho) hf
  hinted _ _ _ _ h := (Shadow.own_detach (ok_tree hok) hr ho).hinted (ok_tree hok) h
  roomy := rfl

/-- The root is swapped out. -/
lemma wp_detachRoot (hx : C.At live t (Γ.latchRoot v r e) P x) (hok : C.rg.Ok live t x)
    (hc : Γ.clear = none) (ho : o = some t ∨ o = none) (hnode : o = none → ∀ c, r ≠ .node c)
    (hupd : Upd t (scene x) (scene x).leafs
      (viewOf { tree x with root := .null } ((shadow x).detach o)) R)
    (hclearing : C.Clearing x.ghost.2 t) :
    C.rg.wp live t (onTree (.swapRoot .null)) (fun a y => a = r ∧
      C.At live t ((Γ.latchRoot v r e).detached e o) R y ∧
      Later live t { tree x with root := .null } ((shadow x).detach o) y) x := by
  have hi := ok_tree hok
  have hheld : (Γ.latchRoot v r e).held .root = some v := by simp [Know.latchRoot]
  obtain ⟨hroot, hcur⟩ := hx.knows.top r e rfl (.inr (by simp [hheld]))
  have hown := (hx.knows.held _ v hheld).2.1
  have hinv : ((shadow x).detach o).Inv { tree x with root := .null } := by
    refine Shadow.inv_detach hi fun hnone n p hp => ?_
    obtain ⟨c, hcr⟩ := Shadow.root_of_placed hi.wf hp
    exact hnode hnone c (by rw [← hroot, hi.root, hcr])
  refine wp_tree_view (S := (shadow x).detach o) (P := R) hok (Shadow.own_detach hi hown ho) hinv
    hupd (fun e k h1 h2 => absurd h1 h2) (fun _ _ _ => hclearing) fun y hy hR => ⟨hroot, ?_, hy⟩
  refine .later ?_ hinv hy hR
  rw [← hcur]
  exact hx.knows.detached hc ho

/-- The root of the past epoch `e` is the leaf `l`. -/
structure RootLeaf (e : ℕ) (l : Leaf) (y : C.W) : Prop where
  past : e < (shadow y).cur
  root : (shadow y).forest.root e = .leaf l

lemma RootLeaf.later (h : RootLeaf e l x) (hy : Later live t (tree x) (shadow x) y) :
    RootLeaf e l y :=
  ⟨h.past.trans_le hy.rely.cur_mono, (hy.rely.roots e h.past).trans h.root⟩

lemma RootLeaf.map (h : RootLeaf e l x) (hok : C.rg.Ok live t x) (k : Key) :
    (scene x).view.map e k = if k = l.key then some l else none := by
  have hholds := (ok_tree hok).wf.holds (Forest.at_root e)
  rw [Forest.slot, h.root] at hholds
  exact hholds.2 k List.nil_prefix

lemma RootLeaf.frozen (h : RootLeaf e l x) (k : Key) : (scene x).view.frozen e k :=
  ⟨h.past, .inr (.inl fun c => by simp [h.root])⟩

/-- A detached tree that is a single leaf. -/
lemma wp_clearLeaf (h : C.ClearHooks live t kind count P Q)
    (hx : C.At live t Γ (h.walk e (fun _ => False) [] 0) x) (hl : RootLeaf e l x) :
    C.rg.wp live t (do
      let c ← count l
      markRemoved kind l
      onLeaf (.retireLeaf l)
      onLeaf (.lenAdd (-c))) (fun _ y => C.At live t Γ Q y) x := by
  refine RG.wp_intro fun hok => ?_
  have hmap : (scene x).view.map e l.key = some l := by rw [hl.map hok, if_pos rfl]
  refine RG.wp_seq (h.can_count hx hmap (hl.frozen l.key) id) ?_
  rintro c y - ⟨hy, hlater⟩
  refine RG.wp_seq (wp_markRemoved_later (h.can_mark e _ [] 0 l c) hy) ?_
  rintro - z - ⟨hz, hlater'⟩
  refine RG.wp_seq (wp_leafStep_later (h.can_retire e _ [] _ l) hz) ?_
  rintro - w hokw ⟨hw, hlater''⟩
  have hlw := ((hl.later hlater).later hlater').later hlater''
  rw [zero_add] at hw
  obtain ⟨h1, h2⟩ := h.can_finish e _ c (scene w) (scene w).view (ok_client hokw) hw.client
    (fun k l' hk => by
      rw [hlw.map hokw] at hk
      by_contra hne
      rw [if_neg fun heq => hne (.inr heq)] at hk
      simp at hk) ⟨rfl, rfl, fun _ _ h => h, fun _ _ _ _ h => h, rfl⟩ hlw.frozen
  exact wp_leaf hokw h1 h2 fun u hu hQ => .later hw.knows (ok_tree hokw) hu hQ

/-- The end of a clear. -/
lemma wp_finish (h : C.ClearHooks live t kind count P Q) {total : ℤ} (hclear : Γ.clear = some e)
    (hx : Walking h Γ e ([], total) x) :
    C.rg.wp live t (onLeaf (.lenAdd (-total)))
      (fun _ y => ∃ Δ, Γ.cleared.Idle Δ ∧ C.At live t Δ Q y) x := by
  refine RG.wp_intro fun hok => ?_
  have hi := ok_tree hok
  obtain ⟨Δ, D, T, hidle, hx, hs⟩ := hx
  have hown := Shadow.own_finish (m := tree x) hs.clearer
  have hinv := Shadow.inv_finish (e := e) hi fun n p hp => hs.all_retired hi hp
  have hfrozen : ∀ k, ((shadow x).finish e).Frozen (tree x) e k := fun k =>
    ⟨hs.past hi, .inl (by simp [Shadow.finish])⟩
  have hfreezes : (scene x).view.Freezes (viewOf (tree x) ((shadow x).finish e)) :=
    { cur := rfl, map := rfl
      frozen := fun e' k hf => by
        by_cases he : e' = e
        · subst he
          exact hfrozen k
        · refine hown.frozen hi (fun n q _ ho hce => ?_) hf
          have := (hx.knows.clear e').mp hce
          rw [hidle.clear, hclear] at this
          exact absurd (by simpa using this.symm) he
      hinted := fun n w e p hh => hown.hinted hi hh
      roomy := rfl }
  obtain ⟨h1, h2⟩ := h.can_finish e T total (scene x) _ (ok_client hok) hx.client
    (fun k l hk => hs.all_taken hi hk) hfreezes hfrozen
  refine wp_leaf_shadow hok h1 hown hinv rfl (fun e' he' => ?_) h2
    fun y hy hQ => ⟨Δ.cleared, ?_, ?_⟩
  · by_cases hee : e' = e
    · simp [Shadow.finish, hee] at he'
    · simpa [Shadow.finish, hee] using he'
  · exact ⟨hidle.lo, hidle.held, hidle.priv, hidle.follow, rfl, hidle.due⟩
  · exact .later (hx.knows.finished (hidle.clear.trans hclear)) hinv hy hQ

/-- What is left of a clear once the root has been swapped out. -/
lemma idle_detached (hh : Γ.held .root = none) (hc : Γ.clear = none) :
    Γ.Idle ((Γ.latchRoot v r e).detached e o).unlatchRoot.cleared where
  lo := rfl
  held := by
    funext l
    by_cases hl : l = .root <;>
      simp [Know.cleared, Know.unlatchRoot, Know.detached, Know.latchRoot, hl, hh]
  priv := rfl
  follow := rfl
  clear := hc.symm
  due := rfl

/-- `clear` ends with what the client makes of it. -/
theorem wp_clearCounting (h : C.ClearHooks live t kind count P Q) (hx : C.At live t Γ P x)
    (hh : ∀ l, Γ.held l = none) (hc : Γ.clear = none) :
    C.rg.wp live t (clearCounting kind count)
      (fun _ y => ∃ Δ, Γ.Idle Δ ∧ C.At live t Δ Q y) x := by
  refine RG.wp_seq (wp_lockRoot hx hh) ?_
  rintro _ y hoky ⟨v, r, e, rfl, hy, -⟩
  have hi := ok_tree hoky
  have hheld : (Γ.latchRoot v r e).held .root = some v := by simp [Know.latchRoot]
  have hown := (hy.knows.held _ v hheld).2.1
  obtain ⟨hroot, hcur⟩ := hy.knows.top r e rfl (.inr (by simp [hheld]))
  have hfuture := map_future hoky
  have hroot' : (shadow y).forest.root e = r := by rw [← hcur, ← hi.root, hroot]
  have hstate : ∀ {o} (_ : o = some t ∨ o = none), (scene y).view.detach.Freezes
      (viewOf { tree y with root := .null } ((shadow y).detach o)) :=
    freezes_detach hy hoky hc hown
  cases r with
  | null =>
    have hnone : ∀ k, (scene y).view.map (scene y).view.cur k = none := by
      intro k
      have hholds := hi.wf.holds (Forest.at_root (shadow y).cur)
      rw [Forest.slot, hcur, hroot', ← hcur] at hholds
      exact hholds k List.nil_prefix
    refine RG.wp_seq (wp_detachRoot (o := none) (R := Q) hy hoky hc (.inr rfl) (by simp) ?_
      (h.clearing hy.client)) ?_
    · refine h.can_skip (scene y) _ (ok_client hoky) hy.client hfuture hnone (hstate (.inr rfl))
        fun k => ⟨Nat.lt_succ_self _, .inr (.inl fun c => ?_)⟩
      show (shadow y).forest.root (shadow y).cur ≠ _
      simp [hcur, hroot']
    rintro (a : Slot) z - ⟨rfl, hz, -⟩
    refine RG.wp_seq (wp_unlockRoot hz hheld) ?_
    rintro - w - hw
    exact RG.wp_ret ⟨_, idle_detached (o := none) (hh _) hc, hw⟩
  | leaf l =>
    refine RG.wp_seq (wp_detachRoot (o := none) (R := h.walk (scene y).view.cur _ [] 0) hy hoky hc
      (.inr rfl) (by simp) ((h.can_detach (scene y) (ok_client hoky) hy.client hfuture).freeze
        (hstate (.inr rfl))) (h.clearing hy.client)) ?_
    rintro (a : Slot) z - ⟨rfl, hz, hlater⟩
    refine RG.wp_seq (wp_unlockRoot_later hz hheld) ?_
    rintro - w - ⟨hw, -, hlater'⟩
    have hlz : RootLeaf (C := C) e l z := by
      have hlt : e < ((shadow y).detach none).cur := hcur ▸ Nat.lt_succ_self _
      exact ⟨hlt.trans_le hlater.rely.cur_mono, (hlater.rely.roots e hlt).trans hroot'⟩
    have hlw : RootLeaf (C := C) e l w :=
      ⟨hlz.past.trans_le hlater'.rely.cur_mono,
        (hlater'.rely.roots e hlz.past).trans hlz.root⟩
    rw [show (scene y).view.cur = e from hcur] at hw
    refine RG.wp_mono (wp_clearLeaf h hw hlw) fun _ u _ hu => ?_
    exact ⟨_, idle_detached (o := none) (hh _) hc, hu⟩
  | node n =>
    refine RG.wp_seq (wp_detachRoot (o := some t) (R := h.walk (scene y).view.cur _ [] 0) hy hoky
      hc (.inl rfl) (by simp) ((h.can_detach (scene y) (ok_client hoky) hy.client hfuture).freeze
        (hstate (.inl rfl))) (h.clearing hy.client)) ?_
    rintro (a : Slot) z hokz ⟨rfl, hz, hlater⟩
    have hsz : Sweep t e (fun _ => False) none [n] (fun _ => False) (tree z) (shadow z) := by
      refine (Sweep.start (S := (shadow y).detach (some t)) (by simp [Shadow.detach, hcur]) hroot'
        fun n p hp hw => ?_).rely (Shadow.inv_detach hi (by simp)) hlater.rely
      have := hi.obsolete_past hw hp
      omega
    refine RG.wp_seq (wp_unlockRoot_later hz hheld) ?_
    rintro - w - ⟨hw, hinv, hlater'⟩
    have hsw := (hsz.releaseRoot _).rely hinv hlater'.rely
    rw [show (scene y).view.cur = e from hcur] at hw
    have hidle := idle_detached (v := v) (r := .node n) (e := e) (o := some t) (hh _) hc
    have hclear : ((Γ.latchRoot v (.node n) e).detached e (some t)).unlatchRoot.clear = some e :=
      rfl
    refine RG.wp_seq (wp_clearWalk h (fun l => ?_) hclear ⟨_, _, _, .rfl, hw, hsw⟩) ?_
    · exact (congrFun hidle.held l).trans (hh l)
    rintro total u - hu
    refine RG.wp_mono (wp_finish h hclear hu) ?_
    rintro _ a - ⟨Δ, h1, h2⟩
    exact ⟨Δ, hidle.trans h1, h2⟩

end Client

end Artmap
