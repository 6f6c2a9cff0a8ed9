import Artmap.Ops.Insert
import Artmap.Raw.Inserter

/-!
# Inserts at a cached node

An inserter goes back to the node of its last insert when the next key goes on from the path of
that node.  What vouches for the path is the version that the inserter's own unlock has left: as
long as the word of the node has not changed, the node is where it was, and the compare-exchange
that latches the node fails otherwise.
-/

namespace Artmap

open scoped List

namespace Client

open Shadow (Knows Seen Hinted)

variable {C : Client} {live : Bool} {t : ℕ} {Γ Δ : Know} {P : C.Assertion t}
  {Q : Option Outcome → C.Assertion t} {x y : C.W} {l : Leaf} {kind : LeafKind} {mode : Mode}
  {count : ℤ} {h : Hint} {e : ℕ} {p : List Byte} {m : TreeMem} {S : Shadow} {key : Key}

/-- What a hint says about its node is right. -/
abbrev Leads (x : C.W) (h : Hint) (e : ℕ) (p : List Byte) : Prop :=
  Hinted (tree x) (shadow x) h.node h.version e p

lemma leads_later (hok : C.rg.Ok live t x) (hl : Leads x h e p)
    (hy : Later live t (tree x) (shadow x) y) : Leads y h e p :=
  (ok_tree hok).hinted_rely hy.rely hl

lemma hinted_of_seen {n : NodeId} {s : Sight} (hs : Seen live m S n s) :
    Hinted m S n s.v s.epoch (s.path ++ s.cont.pre) where
  pub := hs.pub
  free := hs.free
  le := hs.le
  right hw := by
    obtain ⟨h1, h2⟩ := hs.right hw
    exact ⟨s.path, h2, by rw [Forest.pre, h1]⟩

/-- The hint that an insert leaves behind is right. -/
lemma Points.leads (hx : C.At live t Δ P x) (hp : Points Δ h key) :
    ∃ e, Δ.lo ≤ e ∧ Leads x h e (key.take h.depth) := by
  obtain ⟨s, hs, hv, hlo, hpath, -⟩ := hp
  have := hinted_of_seen (hx.knows.seen _ s hs)
  rw [hv, hpath] at this
  exact ⟨s.epoch, hlo, this⟩

/-- How an insert at a hint ends: the leaf has been inserted, or nothing has happened. -/
def HintEnds (live : Bool) (t : ℕ) (Γ : Know) (P : C.Assertion t)
    (Q : Option Outcome → C.Assertion t) (l : Leaf) (h : Hint) (e : ℕ)
    (r : Option Outcome × Hint) (y : C.W) : Prop :=
  r.2.depth = h.depth ∧ Leads y r.2 e (l.key.take h.depth) ∧ ∃ Δ, Γ.Quiet Δ ∧ Δ.priv = Γ.priv ∧
    match r.1 with
    | none => C.At live t Δ P y
    | some o => o = .inserted l ∧ C.At live t Δ (Q (some o)) y

section Latched

variable {s : Sight} {F : Fields}

/-- The node of a hint is released as it was. -/
lemma wp_hintBack (hc : Γ.clear = none) (hh : ∀ l, Γ.held l = none) (hF : Repr s.ty F s.cont)
    (hpath : s.path ++ s.cont.pre = l.key.take h.depth)
    (hx : C.At live t (Γ.latch h.node s.v (graspOf s F)) P x) :
    C.rg.wp live t (do
      let nv ← unlock (.node h.node) s.v
      return (none, { h with version := nv })) (HintEnds live t Γ P Q l h s.epoch) x := by
  refine RG.wp_seq (wp_unlock (g := graspOf s F) hx hc (by simp [Know.latch])
    (by simp [Know.latch]) rfl hF) ?_
  rintro nv y - ⟨rfl, hy⟩
  refine RG.wp_ret ⟨rfl, ?_, _, Know.Quiet.unlatch .rfl (hh _), rfl, hy⟩
  rw [← hpath]
  exact hinted_of_seen (hy.knows.seen h.node ⟨s.v + 4, s.ty, s.cont, s.epoch, s.path⟩
    (by simp [Know.unlatch]))

/-- The node of a hint has been latched. -/
lemma wp_insertLatched {byte : Byte} (H : C.InsertHooks t Γ.lo kind l mode count P Q)
    (hh : ∀ l, Γ.held l = none) (hc : Γ.clear = none) (hlo : Γ.lo ≤ s.epoch)
    (hF : Repr s.ty F s.cont) (hpath : s.path ++ s.cont.pre = l.key.take h.depth)
    (hb : l.key[h.depth]? = some byte)
    (hx : C.At live t (Γ.latch h.node s.v (graspOf s F)) P x) :
    C.rg.wp live t (do
      let child ← typed h.node (findChild · byte)
      let full ← if child ≠ .null then pure true else typed h.node isFull
      if full then
        let nv ← unlock (.node h.node) s.v
        return (none, { h with version := nv })
      else insertHere l count h byte s.v) (HintEnds live t Γ P Q l h s.epoch) x := by
  have hg : (Γ.latch h.node s.v (graspOf s F)).grasp h.node = some (graspOf s F) := by
    simp [Know.latch]
  refine RG.wp_seq (wp_typed_read (fun _ => readOnly_findChild) hx hg) ?_
  rintro child y - ⟨hrun, hy⟩
  rw [hF.run_findChild] at hrun
  obtain rfl : s.cont.child byte = child := by simpa using hrun
  by_cases hnull : s.cont.child byte = .null
  swap
  · simp only [hnull, ne_eq, not_false_eq_true, if_true]
    exact wp_hintBack hc hh hF hpath hy
  simp only [hnull, ne_eq, not_true_eq_false, if_false]
  refine RG.wp_seq (wp_typed_read (fun _ => readOnly_isFull) hy hg) ?_
  rintro full z - ⟨hrun, hz⟩
  rw [hF.run_isFull] at hrun
  obtain rfl : decide (s.ty.capacity ≤ (Content.bytes s.cont.child).card) = full := by
    simpa using hrun
  by_cases hroom : (Content.bytes s.cont.child).card < s.ty.capacity
  swap
  · rw [if_pos (by simpa using hroom)]
    exact wp_hintBack hc hh hF hpath hz
  rw [if_neg (by simpa using hroom)]
  have hrest := drop_eq_cons hb
  have hslot : s.cont.slotAt (l.key.drop h.depth) = .null := by
    rw [hrest]
    exact hnull
  have hput := puts_insert (n := h.node) (l := l) (l.key.drop (h.depth + 1)) hnull hroom
  rw [← hrest] at hput
  refine wp_putHere H rfl hput ⟨hlo, ?_, by simp [hslot], by simp [hslot]⟩ hslot hz hc (hh _) hF ?_
  · rw [hpath, List.take_append_drop]
  · intro u Δ h1 h2 h3 hu
    refine RG.wp_ret ⟨rfl, ?_, Δ, h1, h2, rfl, hu⟩
    have hseen := hinted_of_seen (hu.knows.seen h.node _ h3)
    rw [← hpath]
    simpa using hseen

end Latched

/-- **The insert at a hint** takes effect once, or leaves everything as it was. -/
theorem wp_insertAtHint (H : C.InsertHooks t Γ.lo kind l mode count P Q)
    (hh : ∀ l, Γ.held l = none) (hc : Γ.clear = none) (hlo : Γ.lo ≤ e) (hx : C.At live t Γ P x)
    (hl : Leads x h e (l.key.take h.depth)) :
    C.rg.wp live t (insertAtHint l count h) (HintEnds live t Γ P Q l h e) x := by
  unfold insertAtHint
  cases hb : l.key[h.depth]? with
  | none => exact RG.wp_ret ⟨rfl, hl, Γ, .rfl, rfl, hx⟩
  | some byte =>
    refine RG.wp_intro fun hok => ?_
    refine RG.wp_seq (wp_upgrade hx hc hl.pub hl.free fun hw => ?_) ?_
    · obtain ⟨q, hq, -⟩ := hl.right hw
      simp [hq]
    rintro (_ | w) y - ⟨hnone, hsome⟩
    · obtain ⟨-, hy, hlater⟩ := hnone rfl
      exact RG.wp_ret ⟨rfl, leads_later hok hl hlater, Γ, .rfl, rfl, hy⟩
    obtain ⟨rfl, hw, hF, hy⟩ := hsome w rfl
    obtain ⟨q, hq, hpre⟩ := hl.right hw
    rw [hq] at hy
    exact wp_insertLatched
      (s := ⟨h.version, (tree x).ty h.node, (shadow x).forest.cont h.node, e, q⟩) H hh hc hlo hF
      hpre hb hy

/-! ## Caches -/

section Caches

variable {c : InserterCache} {i : ℕ}

/-- What a client brings to inserts through caches. -/
structure CacheHooks (C : Client) (t : ℕ) : Prop where
  inv : ∀ x, C.Inv x → CacheInv x.leafs x.view
  can_load : ∀ i P, C.LeafStep t (.loadCache i) P P
  can_store : ∀ i c x (P : C.Assertion t), C.Inv x → P x → x.view.Vouches c →
    C.Allowed t (.storeCache i c) x ∧
      Upd t x (execLeaf t (.storeCache i c) x.leafs).2 x.view P

/-- What a cache says is right. -/
def Fresh (c : InserterCache) (x : C.W) : Prop :=
  ∀ h, c.hint = some h → ∃ e, Leads x h e (c.path.take h.depth)

lemma fresh_later (hok : C.rg.Ok live t x) (hc : Fresh c x)
    (hy : Later live t (tree x) (shadow x) y) : Fresh c y := by
  intro h hh
  obtain ⟨e, he⟩ := hc h hh
  exact ⟨e, leads_later hok he hy⟩

/-- An inserter reads its cache. -/
lemma wp_loadCache (K : C.CacheHooks t) (hx : C.At live t Γ P x) :
    C.rg.wp live t (onLeaf (.loadCache i)) (fun (c : InserterCache) y =>
      C.At live t Γ P y ∧ Fresh c y) x := by
  refine RG.wp_intro fun hok => ?_
  obtain ⟨h1, h2⟩ := K.can_load i P (scene x) (ok_client hok) hx.client
  refine wp_leaf hok h1 h2 fun y hy hP =>
    ⟨.later hx.knows (ok_tree hok) hy hP, fresh_later hok (fun h hh => ?_) hy⟩
  exact K.inv _ (ok_client hok) i h hh

/-- An inserter writes its cache. -/
lemma wp_storeCache (K : C.CacheHooks t) (hc : Fresh c x) (hx : C.At live t Γ P x) :
    C.rg.wp live t (onLeaf (.storeCache i c)) (fun _ y => C.At live t Γ P y) x := by
  refine RG.wp_intro fun hok => ?_
  obtain ⟨h1, h2⟩ := K.can_store i c (scene x) P (ok_client hok) hx.client hc
  exact wp_leaf hok h1 h2 fun y hy hP => .later hx.knows (ok_tree hok) hy hP

lemma matching_eq (hm : c.matching key = some h) :
    c.hint = some h ∧ key.take h.depth = c.path.take h.depth := by
  obtain ⟨h1, h2⟩ := Option.filter_eq_some_iff.mp hm
  exact ⟨h1, (of_decide_eq_true h2).2.2⟩

/-- The fast path: the leaf has been inserted, or nothing has happened. -/
lemma wp_tryFast (H : C.InsertHooks t Γ.lo kind l mode count P Q) (hh : ∀ l, Γ.held l = none)
    (hc : Γ.clear = none) (hlo : Γ.lo = 0) (hf : Fresh c x) (hx : C.At live t Γ P x) :
    C.rg.wp live t (tryFast c l count) (fun r y => Fresh r.2 y ∧ ∃ Δ, Γ.Quiet Δ ∧
      Δ.priv = Γ.priv ∧ match r.1 with
        | none => C.At live t Δ P y
        | some o => o = .inserted l ∧ C.At live t Δ (Q (some o)) y) x := by
  unfold tryFast
  cases hm : c.matching l.key with
  | none => exact RG.wp_ret ⟨hf, Γ, .rfl, rfl, hx⟩
  | some h =>
    obtain ⟨hhint, hpath⟩ := matching_eq hm
    obtain ⟨e, he⟩ := hf h hhint
    rw [← hpath] at he
    refine RG.wp_seq (wp_insertAtHint H hh hc (hlo ▸ Nat.zero_le e) hx he) ?_
    rintro ⟨r, h'⟩ y - ⟨hdepth, hleads, hΔ⟩
    refine RG.wp_ret ⟨fun h₁ hh₁ => ?_, hΔ⟩
    obtain rfl : h' = h₁ := by simpa using hh₁
    refine ⟨e, ?_⟩
    have hd : h'.depth = h.depth := hdepth
    rw [hd, ← hpath]
    exact hleads

/-- What an inserter remembers is right. -/
lemma fresh_remember {hint : Option Hint}
    (hp : ∀ h, hint = some h → ∃ e, Leads x h e (key.take h.depth)) :
    Fresh (c.remember hint key) x := by
  intro h hh
  unfold InserterCache.remember at hh ⊢
  cases hint with
  | none => simp at hh
  | some h' =>
    simp only at hh ⊢
    split at hh
    · rename_i hd
      obtain rfl : h' = h := by simpa using hh
      obtain ⟨e, he⟩ := hp h' rfl
      refine ⟨e, ?_⟩
      simp only [hd, and_self, dif_pos]
      rwa [List.take_append_of_le_length (by simp [hd.2]), List.take_take, min_self]
    · simp at hh

end Caches

end Client

end Artmap
