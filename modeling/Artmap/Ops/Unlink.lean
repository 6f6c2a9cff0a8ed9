import Artmap.Ops.Place
import Artmap.Raw.Remove

/-!
# Unlinking empty nodes

A node that becomes empty is unlinked from its parent.  If that leaves the parent empty, the
thread has a follow-up pending: it goes down the path of the removed key once more, and unlinks
from the last inner node of the path upwards.  As long as the follow-up is pending it accounts
for every empty node on its path; it is done once there is none.
-/

namespace Artmap

open scoped List

namespace ParentGuard

/-- The node behind the guard is left empty if its child is unlinked. -/
def Empties (Γ : Know) : ParentGuard → Prop
  | .root _ => False
  | .node p _ b => ∃ g, Γ.grasp p = some g ∧ (g.cont.setChild b .null).Empty

/-- The node behind the guard is empty. -/
def Bare (Γ : Know) : ParentGuard → Prop
  | .root _ => False
  | .node p _ _ => ∃ g, Γ.grasp p = some g ∧ g.cont.Empty

/-- What is to be followed up after the child has been unlinked, in epoch `e`. -/
lemma exists_follow (pg : ParentGuard) (Γ : Know) (e : ℕ) (key : Key) :
    ∃ f, (pg.Empties Γ → f = some (e, key)) ∧ (¬ pg.Empties Γ → f = none) := by
  by_cases h : pg.Empties Γ
  · exact ⟨some (e, key), fun _ => rfl, fun h' => absurd h h'⟩
  · exact ⟨none, fun h' => absurd h' h, fun _ => rfl⟩

end ParentGuard

namespace Client

open Shadow (LocCommit)

variable {C : Client} {live : Bool} {t : ℕ} {Γ Δ : Know} {P R : C.Assertion t} {x y : C.W}
  {c n : NodeId} {s : Sight} {g : Grasp} {v e : ℕ} {pg : ParentGuard} {path : List Byte}
  {key : Key} {f : Option (ℕ × Key)}

/-! ## The store -/

/-- What the thread knows after it has unlinked node `c`. -/
structure Unlinked (Γ Δ : Know) (pg : ParentGuard) (c : NodeId) (f : Option (ℕ × Key)) :
    Prop where
  lo : Δ.lo = Γ.lo
  held : Δ.held = Γ.held
  priv : Δ.priv = Γ.priv
  follow : Δ.follow = f
  clear : Δ.clear = Γ.clear
  due : ∀ n, Δ.due n ↔ Γ.due n ∨ n = c
  seen : Δ.seen = Γ.seen
  known : Δ.known = Γ.known
  top : pg.owner? ≠ none → Δ.top = Γ.top
  bare : pg.Bare Δ ↔ pg.Empties Γ

/-- Node `c` has been unlinked, and the follow-up is pending if it is needed. -/
structure Severed (Γ Δ : Know) (pg : ParentGuard) (c : NodeId) (e : ℕ) (path : List Byte)
    (key : Key) : Prop where
  cut : Unlinked Γ Δ pg c Δ.follow
  bare : pg.Bare Δ → Δ.follow = some (e, key)
  kept : ¬ pg.Bare Δ → Δ.follow = none
  guard : Guarded Δ pg .null e path

lemma Unlinked.severed (h : Unlinked Γ Δ pg c f) (hf : pg.Empties Γ → f = some (e, key))
    (hf' : ¬ pg.Empties Γ → f = none) (hg : Guarded Δ pg .null e path) :
    Severed Γ Δ pg c e path key := by
  obtain rfl := h.follow
  exact ⟨h, fun hb => hf (h.bare.mp hb), fun hb => hf' fun hE => hb (h.bare.mpr hE), hg⟩

/-- The store that unlinks node `c` from its location. -/
lemma wp_unlinkNode (hx : C.At live t Γ P x) (hc : Γ.clear = none)
    (hg : Guarded Γ pg (.node c) e path) (hne : pg.owner? ≠ some c)
    (h : ∀ y, C.rg.Ok live t y → Ready live t Γ pg.owner? (tree y) (shadow y) → P (scene y) →
      ∃ G, LocCommit t (shadow y) (pg.loc e) e .null G [] (fun n => n = c) ∧
        G.place c = none ∧
        (∀ n p, G.place n = some ((shadow y).cur, p) → (G.cont n).Empty →
          ∃ t' k, Function.update (shadow y).follow t f t' = some ((shadow y).cur, k) ∧
            p ++ G.pre n <+: k) ∧
        (∀ e k, f = some (e, k) → Γ.follow ≠ f →
          C.Taking y.ghost.2 t k ∧ (shadow y).forest.Vacates G) ∧
        Upd t (scene y) (scene y).leafs { (scene y).view with map := G.map } R) :
    C.rg.wp live t (unlinkInParent pg) (fun _ y => ∃ Δ, Unlinked Γ Δ pg c f ∧
      Guarded Δ pg .null e path ∧ C.At live t Δ R y) x := by
  have howner : ∀ p, pg.owner? = some p →
      (if p = c then some none else none : Option (Option Grasp)) = none := by
    intro p hp
    have hpc : p ≠ c := fun h => hne (h ▸ hp)
    simp [hpc]
  have htouch : ∀ n, (if n = c then some none else none : Option (Option Grasp)) ≠ none ↔
      n = c := by
    intro n
    by_cases hn : n = c <;> simp [hn]
  refine RG.wp_mono (wp_publish [] (R := R) (f := f) (o := none) hx hc hg
    (stores_unlink (by simp) hg) howner ?_) ?_
  · intro y hok hr hP
    obtain ⟨G, h1, h2, h3, h4, h5⟩ := h y hok hr hP
    refine ⟨G, ⟨by simpa only [htouch] using h1, howner, ?_, ?_, by simp, h3⟩, trivial, h4, h5⟩
    · intro n hn
      by_cases hnc : n = c
      · rw [hnc, h2]
      · simp [hnc] at hn
    · intro n g' hn
      by_cases hnc : n = c <;> simp [hnc] at hn
  · rintro _ y - ⟨F, hF, hy⟩
    refine ⟨_, ⟨by simp, by simp, by rw [Know.spot_priv, Know.publish_priv]; simp, by simp,
      by simp, fun n => ?_, by simp [Know.spot], ?_, ?_, ?_⟩, hg.publish hF howner, hy⟩
    · by_cases hn : n = c <;> simp [hn]
    · cases pg <;> rfl
    · cases pg with
      | root v => exact fun h => absurd rfl h
      | node p v b => exact fun _ => rfl
    · cases pg with
      | root v => exact Iff.rfl
      | node p v b =>
        obtain ⟨-, g, q, h2, -⟩ := hg
        have hpc : p ≠ c := fun h => hne (h ▸ rfl)
        simp [ParentGuard.Bare, ParentGuard.Empties, Know.publish, ParentGuard.store, h2, hpc]

/-- Whether the node behind a guard is empty. -/
lemma wp_emptied {r : Slot} (hx : C.At live t Γ P x) (hg : Guarded Γ pg r e path) :
    C.rg.wp live t pg.emptied (fun a y => (a = true ↔ pg.Bare Γ) ∧ C.At live t Γ P y) x := by
  cases pg with
  | root v => exact RG.wp_ret ⟨by simp [ParentGuard.Bare], hx⟩
  | node p v b =>
    obtain ⟨-, g, q, h2, h3, h4, -⟩ := hg
    refine RG.wp_mono (wp_typed_read (fun _ => readOnly_emptiedBy _) hx h2) ?_
    rintro a y - ⟨hrun, hy⟩
    obtain ⟨r, hr, hiff⟩ := h4.run_emptiedBy Taken.nothing_child
    obtain rfl : r = a := by simpa [hr] using hrun
    refine ⟨?_, hy⟩
    rw [hiff]
    simp [ParentGuard.Bare, h2, Content.without]

/-- The node of a location that its guard leaves empty is on the path of the key. -/
lemma empties_of_location (hr : Ready live t Γ pg.owner? (tree y) (shadow y))
    (hg : Guarded Γ pg (.node c) e path) (hpath : path <+: key) {G : Forest}
    (h : LocCommit t (shadow y) (pg.loc e) e .null G [] fun n => n = c)
    (hne : pg.owner? ≠ some c) {p : NodeId} {b : Byte} {q : List Byte}
    (hp : pg.loc e = .child p b) (hq : (shadow y).forest.place p = some ((shadow y).cur, q))
    (hem : (G.cont p).Empty) :
    pg.Empties Γ ∧ e = (shadow y).cur ∧ q ++ (shadow y).forest.pre p <+: key := by
  cases pg with
  | root v => simp [ParentGuard.loc] at hp
  | node p' v b' =>
    obtain ⟨rfl, rfl⟩ : p' = p ∧ b' = b := by simpa [ParentGuard.loc] using hp
    obtain ⟨-, g, q', h2, h3, -, -, rfl⟩ := hg
    have hcont := hr.cont p' g h2
    have hplace := (hr.place p' g h2).trans h3
    rw [hq] at hplace
    obtain ⟨rfl, rfl⟩ : (shadow y).cur = e ∧ q = q' := by simpa using hplace
    refine ⟨⟨g, h2, ?_⟩, rfl, ?_⟩
    · have hpc : p' ≠ c := fun h => hne (by simp [ParentGuard.owner?, h])
      rw [(h.other p' hpc (by simp)).1] at hem
      simpa [Forest.setSlot, ParentGuard.loc, hcont] using hem
    · rw [Forest.pre, hcont]
      exact (List.prefix_append _ _).trans hpath

/-- A guard that leaves its node empty takes its last entry. -/
lemma vacates_of_empties (hr : Ready live t Γ pg.owner? (tree y) (shadow y))
    (hg : Guarded Γ pg (.node c) e path) {G : Forest}
    (h : LocCommit t (shadow y) (pg.loc e) e .null G [] fun n => n = c)
    (hne : pg.owner? ≠ some c) (hE : pg.Empties Γ) : (shadow y).forest.Vacates G := by
  cases pg with
  | root v => exact hE.elim
  | node p v b =>
    obtain ⟨-, g, q, h2, h3, -, hchild, -⟩ := hg
    obtain ⟨g', h2', hem⟩ := hE
    obtain rfl : g = g' := by simpa [h2] using h2'
    have hcont := hr.cont p g h2
    have hplace := (hr.place p g h2).trans h3
    have hpc : p ≠ c := fun h => hne (by simp [ParentGuard.owner?, h])
    obtain ⟨h4, h5⟩ := h.other p hpc (by simp)
    refine ⟨p, by simp [hplace], by simp [h5, hplace], fun hemp => ?_, ?_⟩
    · have := hemp.2 b
      rw [hcont, hchild] at this
      cases this
    · rw [h4]
      simpa [Forest.setSlot, ParentGuard.loc, hcont] using hem

/-- The follow-up of an empty node: the store that unlinks it. -/
lemma wp_pruneNode {e₁ : ℕ} (hx : C.At live t Γ P x) (hc : Γ.clear = none)
    (hg : Guarded Γ pg (.node c) e path) (hne : pg.owner? ≠ some c)
    (hgr : Γ.grasp c = some g) (hem : g.cont.Empty) (hfol : Γ.follow = some (e₁, key))
    (he : e₁ ≤ e) (hpath : path <+: key) :
    C.rg.wp live t (unlinkInParent pg) (fun _ y => ∃ Δ, Severed Γ Δ pg c e path key ∧
      C.At live t Δ P y) x := by
  obtain ⟨f, hf, hf'⟩ := pg.exists_follow Γ e key
  refine RG.wp_mono (wp_unlinkNode (R := P) (f := f) hx hc hg hne fun y hok hr hP => ?_) ?_
  rotate_left
  · rintro _ y - ⟨Δ, h1, h2, h3⟩
    exact ⟨Δ, h1.severed hf hf' h2, h3⟩
  have hi := ok_tree hok
  obtain ⟨h1, h2, h3⟩ := hg.loc hr hi
  have hcont := hr.cont c g hgr
  have hpl := hi.wf.place_of_slot h2 h3
  have hle : e ≤ (shadow y).cur := hi.place_le hpl
  obtain ⟨hloc, hmap, hgone⟩ := Shadow.locCommit_prune hi h1 h2 h3 (hr.owner c g hgr)
    (by simp [hcont, hem.2]) (by simp) (hi.wf.holds_null hpl (by rw [hcont]; exact hem))
  refine ⟨_, hloc, hgone, ?_, ?_, ?_⟩
  · refine hloc.cover_unlink hi hgone ?_ ?_
    · intro p b q hp hq hemp
      obtain ⟨h4, rfl, h5⟩ := empties_of_location hr hg hpath hloc hne hp hq hemp
      exact ⟨t, key, by rw [Function.update_self, hf h4], h5⟩
    · intro k n p hk hfk hn hp hemp hpre
      have hk' : Γ.follow = some ((shadow y).cur, k) := by
        rw [← hr.knows.follow]
        exact hk
      obtain ⟨rfl, rfl⟩ : e₁ = (shadow y).cur ∧ key = k := by simpa [hfol] using hk'
      obtain rfl : e = (shadow y).cur := le_antisymm hle he
      -- All nodes on the path of the key but its last one have an inner child.
      rcases Shadow.on_path hi.wf hpl hpath (fun b n _ => by simp [hcont, hem.2]) hp
        ((List.prefix_append _ _).trans hpre) with rfl | ⟨b, n', hb⟩
      · exact hn rfl
      · simp [hemp.2 b] at hb
  · intro e' k hk _
    by_cases hE : pg.Empties Γ
    · obtain ⟨rfl, rfl⟩ : e = e' ∧ key = k := by simpa [hf hE] using hk
      exact ⟨(hok.inv : C.WInv y).taking t e₁ key (hr.knows.follow.trans hfol),
        vacates_of_empties hr hg hloc hne hE⟩
    · simp [hf' hE] at hk
  · rw [hmap]
    exact .rfl (ok_client hok) hP

/-- The store that unlinks node `c` together with its last leaf. -/
lemma wp_unlinkLeaf {l : Leaf} {rest : List Byte} (hcan : C.CanSet t Γ.lo l.key (some l) none P R)
    (htake : ∀ y, P y → C.Taking y.ghost t l.key) (hx : C.At live t Γ P x) (hc : Γ.clear = none)
    (hg : Guarded Γ pg (.node c) e path) (hne : pg.owner? ≠ some c) (hlo : Γ.lo ≤ e)
    (hgr : Γ.grasp c = some g) (hfol : Γ.follow = none)
    (hl : l.key = path ++ g.cont.pre ++ rest) (hslot : g.cont.slotAt rest = .leaf l)
    (hem : (g.cont.setAt rest none).Empty) :
    C.rg.wp live t (unlinkInParent pg) (fun _ y => ∃ Δ, Severed Γ Δ pg c e path l.key ∧
      C.At live t Δ R y) x := by
  obtain ⟨f, hf, hf'⟩ := pg.exists_follow Γ e l.key
  refine RG.wp_mono (wp_unlinkNode (R := R) (f := f) hx hc hg hne fun y hok hr hP => ?_) ?_
  rotate_left
  · rintro _ y - ⟨Δ, h1, h2, h3⟩
    exact ⟨Δ, h1.severed hf hf' h2, h3⟩
  have hi := ok_tree hok
  obtain ⟨h1, h2, h3⟩ := hg.loc hr hi
  have hcont := hr.cont c g hgr
  have hpl := hi.wf.place_of_slot h2 h3
  have hkey : l.key = path ++ (shadow y).forest.pre c ++ rest := by rw [Forest.pre, hcont, hl]
  have hpath : path <+: l.key := ⟨g.cont.pre ++ rest, by rw [hl, List.append_assoc]⟩
  have hno : ∀ n, ((shadow y).forest.cont c).slotAt rest ≠ .node n := by simp [hcont, hslot]
  obtain ⟨G, hloc, hmap, hgone⟩ := Shadow.locCommit_unlink hi h1 h2 h3 (hr.owner c g hgr) hkey
    (by rw [hcont, hslot]) rfl (by rw [hcont]; exact hem)
  refine ⟨G, hloc, hgone, ?_, ?_, ?_⟩
  · refine hloc.cover_unlink hi hgone ?_ ?_
    · intro p b q hp hq hemp
      obtain ⟨h4, rfl, h5⟩ := empties_of_location hr hg hpath hloc hne hp hq hemp
      exact ⟨t, l.key, by rw [Function.update_self, hf h4], h5⟩
    · intro k n p hk
      have hk' : Γ.follow = some ((shadow y).cur, k) := by
        rw [← hr.knows.follow]
        exact hk
      simp [hfol] at hk'
  · intro e' k hk _
    by_cases hE : pg.Empties Γ
    · obtain ⟨rfl, rfl⟩ : e = e' ∧ l.key = k := by simpa [hf hE] using hk
      exact ⟨htake _ hP, vacates_of_empties hr hg hloc hne hE⟩
    · simp [hf' hE] at hk
  · have hcl : (shadow y).clearer e ≠ some t := by
      rw [Ne, hr.knows.clear e]
      show ¬ Γ.clear = some e
      simp [hc]
    refine hcan.upd hok hP hlo (hg.le_cur hok hr) ?_
      (not_frozen_of_slot hi hpl hkey hno (hr.owner c g hgr) hcl) hmap
    rw [hi.wf.map_node hpl hkey hno, hcont, hslot]
    simp [Slot.map]

/-! ## The end of a follow-up -/

/-- Nothing is left for the follow-up to unlink. -/
def Settled (Γ : Know) (S : Shadow) : Prop :=
  ∀ k n p, Γ.follow = some (S.cur, k) → S.forest.place n = some (S.cur, p) →
    (S.forest.cont n).Empty → ¬ p ++ S.forest.pre n <+: k

/-- A load at which the follow-up ends. -/
lemma wp_settle {a : TreeAct} (hx : C.At live t Γ P x) (hc : Γ.clear = none)
    (ha : (execTree a (tree x)).2 = tree x) (hdone : C.rg.Ok live t x → Settled Γ (shadow x)) :
    C.rg.wp live t (onTree a) (fun r y => r = (execTree a (tree x)).1 ∧
      C.At live t { Γ with follow := none, base := none } P y) x := by
  refine RG.wp_intro fun hok => wp_commit hx hok hc ?_
  have hi := ok_tree hok
  have hcom : Shadow.Commit t (tree x) (shadow x) (tree x) (shadow x).forest [] none := by
    refine Shadow.commit_idle hi fun k n p hk _ hp hem => ?_
    exact hdone hok k n p (hx.knows.follow.symm.trans hk) hp hem
  rw [ha]
  refine ⟨_, [], none, hcom, by simp, .rfl (ok_client hok) hx.client, ?_⟩
  refine hx.knows.commit hcom (by simp) (fun n => ?_) hx.knows.top (fun n g hn => ?_)
    hx.knows.aim hi
  · simp
  · have hgr := hx.knows.grasp n g hn
    exact ⟨hgr.owner, hgr.ty, hgr.fields, hgr.cont, hgr.place⟩

/-- A validation at which the follow-up ends. -/
lemma wp_validate_settle {φ : Prop} (hx : C.At live t Γ P x) (hc : Γ.clear = none)
    (hφ : Promise live n v φ (tree x))
    (hdone : C.rg.Ok live t x → (tree x).latch (.node n) = v → φ → Settled Γ (shadow x)) :
    C.rg.wp live t (validate (.node n) v) (fun ok y =>
      (ok = true → C.At live t { Γ with follow := none, base := none } P y) ∧
      (ok = false → live = false ∧ C.At live t Γ P y)) x := by
  by_cases hw : (tree x).latch (.node n) = v
  · refine RG.wp_seq (wp_settle hx hc rfl fun hok => hdone hok hw (hφ.right hw)) ?_
    rintro r y - ⟨rfl, hy⟩
    exact RG.wp_ret ⟨fun _ => hy, fun h => absurd hw (of_decide_eq_false h)⟩
  · refine RG.wp_seq (wp_load' hx rfl) ?_
    rintro r y - ⟨rfl, hy, -⟩
    refine RG.wp_ret ⟨fun h => absurd (of_decide_eq_true h) hw, fun _ => ⟨?_, hy⟩⟩
    cases live with
    | false => rfl
    | true => exact absurd (hφ.alone rfl) hw

/-! ## After the store -/

/-- Both latches have been given up after node `c` was unlinked; `above` says whether its
parent is empty. -/
structure Parted (Γ Δ : Know) (pg : ParentGuard) (c : NodeId) (e : ℕ) (path : List Byte)
    (key : Key) (above : Bool) : Prop where
  lo : Δ.lo = Γ.lo
  held : Δ.held = Γ.held
  priv : Δ.priv = Γ.priv
  clear : Δ.clear = Γ.clear
  due : ∀ n, Δ.due n ↔ Γ.due n ∨ n = c
  seen : ∀ n, n ≠ c → pg.owner? ≠ some n → Δ.seen n = Γ.seen n
  known : Δ.known = Γ.known
  top : pg.owner? ≠ none → Δ.top = Γ.top
  settled : above = false → Δ.follow = none
  pending : above = true → Δ.follow = some (e, key) ∧ ∃ p s, pg.owner? = some p ∧
    Δ.seen p = some s ∧ s.v = pg.version + 4 ∧ s.cont.Empty ∧ s.epoch = e ∧ s.path <+: path

/-- The unlinked node becomes obsolete, and its parent is released. -/
lemma wp_part {Δ₀ : Know} {F : Fields} {α : Type} {k : Bool → Option ℕ → TreeM α}
    {Q : α → C.W → Prop} (hh : ∀ l, Γ.held l = none) (hc : Γ.clear = none)
    (hp : Paired Γ Δ₀ pg n s F) (hcut : Severed Δ₀ Δ pg n s.epoch s.path key)
    (hx : C.At live t Δ P x)
    (hk : ∀ y Δ' above, Parted Γ Δ' pg n s.epoch s.path key above → C.At live t Δ' P y →
      C.rg.wp live t (k above (pg.owner?.map fun _ => pg.version + 4)) Q y) :
    C.rg.wp live t (do
      markObsolete (.node n) s.v
      let above ← pg.emptied
      let unlocked ← pg.unlock
      k above unlocked) Q x := by
  have hcl : Δ.clear = none := hcut.cut.clear.trans (hp.clear.trans hc)
  refine RG.wp_seq (wp_markObsolete (v := s.v) hx (by simp [hcut.cut.held, hp.held])
    ((hcut.cut.due n).mpr (.inr rfl))) ?_
  intro _ y _ hy
  have hg : Guarded (Δ.unlatch n none) pg .null s.epoch s.path :=
    hcut.guard.of_ne hp.ne rfl (fun lt hlt => by simp [Know.unlatch, hlt])
      fun p hpn => by simp [Know.unlatch, hpn]
  have hbare : pg.Bare (Δ.unlatch n none) ↔ pg.Bare Δ := by
    cases pg with
    | root v => exact Iff.rfl
    | node p v b =>
      have hpn : p ≠ n := fun h => hp.ne (by simp [ParentGuard.owner?, h])
      simp [ParentGuard.Bare, Know.unlatch, hpn]
  refine RG.wp_seq (wp_emptied hy hg) ?_
  rintro above z - ⟨habove, hz⟩
  rw [hbare] at habove
  refine RG.wp_seq (wp_guardUnlock hz hcl hg) ?_
  rintro _ u - ⟨Δ', hun, hu, rfl⟩
  refine hk u Δ' above ⟨hun.lo.trans (hcut.cut.lo.trans hp.lo), ?_,
    hun.priv.trans (hcut.cut.priv.trans hp.priv), hun.clear.trans (hcut.cut.clear.trans hp.clear),
    fun n' => ?_, fun n' hn' hne => ?_, hun.known.trans (hcut.cut.known.trans hp.known),
    fun ho => ?_, fun hf => ?_, fun ht => ⟨?_, ?_⟩⟩ hu
  · exact hp.released hh (by simp [Know.unlatch, hcut.cut.held]) hun.held
  · rw [hun.due, ← hp.due]
    exact hcut.cut.due n'
  · rw [hun.seen n' hne, ← hp.seen n' hn' hne, ← hcut.cut.seen]
    simp [Know.unlatch, hn']
  · exact hun.top.trans ((hcut.cut.top ho).trans (hp.top ho))
  · exact hun.follow.trans (hcut.kept fun hb => by simp [habove.mpr hb] at hf)
  · exact hun.follow.trans (hcut.bare (habove.mp ht))
  · have hb := habove.mp ht
    cases pg with
    | root v => exact hb.elim
    | node p v b =>
      obtain ⟨-, g, q, h2, h3, -, -, h6⟩ := hg
      refine ⟨p, _, rfl, hun.sight p g s.epoch q rfl h2 h3, rfl, ?_, rfl, ?_⟩
      · obtain ⟨g', h7, h8⟩ := hbare.mpr hb
        rw [h2] at h7
        obtain rfl : g = g' := by simpa using h7
        exact h8
      · rw [h6, List.append_assoc]
        exact List.prefix_append _ _

end Client

end Artmap
