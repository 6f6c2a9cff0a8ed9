import Artmap.Ops.Follow
import Artmap.Ops.Get

/-!
# Removes

A remove goes down to the slot of its key.  An accepted leaf is taken out under the latch of
its node; if it is the last entry of the node, the node is unlinked in the same critical
section, under the latch of its location as well.  As for inserts, a client brings what each of
these steps means to it (`RemoveHooks`).
-/

namespace Artmap

open scoped List

/-- A node that was latched is released. -/
lemma Know.Idle.unlatch {Γ Δ : Know} {n : NodeId} {v : ℕ} {g : Grasp} {o : Option Sight}
    (h : (Γ.latch n v g).Idle Δ) (hh : Γ.held (.node n) = none) : Γ.Idle (Δ.unlatch n o) :=
  have hq := h.quiet.unlatch (o := o) hh
  ⟨hq.lo, hq.held, h.priv, hq.follow, hq.clear, hq.due⟩

namespace Client

variable {C : Client} {live : Bool} {t : ℕ} {Γ Δ : Know} {P R : C.Assertion t} {x y : C.W}
  {n : NodeId} {s : Sight} {g : Grasp} {v e lo : ℕ} {path rest : List Byte} {key : Key}
  {l : Leaf} {kind : LeafKind} {accepts : Leaf → Bool} {confirm : Leaf → TreeM (Option ℤ)}
  {Q : Option Leaf → C.Assertion t} {par : Parent} {d : ℕ}

/-! ## What the client brings -/

/-- What a client brings to a remove of an accepted leaf of `key`: `taken` holds between the
confirmation and the store that takes the leaf out, `gone`, `marked` and `counted` between
that store, the mark, the count and the retirement. -/
structure RemoveHooks (live : Bool) (t lo : ℕ) (kind : LeafKind) (key : Key)
    (accepts : Leaf → Bool) (confirm : Leaf → TreeM (Option ℤ)) (P : C.Assertion t)
    (Q : Option Leaf → C.Assertion t) where
  taken : Leaf → ℤ → C.Assertion t
  gone : Leaf → ℤ → C.Assertion t
  marked : Leaf → ℤ → C.Assertion t
  counted : Leaf → C.Assertion t
  accepts_key : ∀ {l}, accepts l = true → l.key = key
  confirms : ∀ {l Γ x}, accepts l = true → C.At live t Γ P x →
    C.rg.wp live t (confirm l) (fun r y => (r = none → C.At live t Γ (Q none) y) ∧
      ∀ c, r = some c → C.At live t Γ (taken l c) y) x
  can_take : ∀ {l c}, accepts l = true → C.CanSet t lo key (some l) none (taken l c) (gone l c)
  can_mark : ∀ l c, C.MarkStep t kind l (gone l c) (marked l c)
  can_count : ∀ l c, C.LeafStep t (.lenAdd (-c)) (marked l c) (counted l)
  can_retire : ∀ l, C.LeafStep t (.retireLeaf l) (counted l) (Q (some l))
  can_miss : ∀ x e, C.Inv x → P x → lo ≤ e → e ≤ x.view.cur →
    (∀ l, x.view.map e key = some l → accepts l = false) → Upd t x x.leafs x.view (Q none)
  taking : ∀ {l c y}, taken l c y → C.Taking y.ghost t key

/-! ## A node that keeps an entry -/

/-- What a remove takes out of a node, for a key that goes on with `rest`. -/
def takenAt : List Byte → Taken
  | [] => .exact
  | b :: _ => .child b

lemma without_takenAt (c : Content) (rest : List Byte) :
    c.without (takenAt rest) = c.setAt rest none := by
  cases rest <;> rfl

lemma takenAt_in {c : Content} (h : c.slotAt rest = .leaf l) : (takenAt rest).In c := by
  cases rest with
  | nil =>
    intro hn
    simp [Content.slotAt, hn, Slot.ofOption] at h
  | cons b rest =>
    intro hn
    simp [Content.slotAt, hn] at h

/-- The leaf is taken out of a node that keeps an entry. -/
lemma wp_takeOut (hch : Changes Γ n g e path rest none key) (hx : C.At live t Γ P x)
    (hc : Γ.clear = none) (hlo : Γ.lo ≤ e) (hr : Repr g.ty g.fields g.cont)
    (hslot : g.cont.slotAt rest = .leaf l)
    (hcan : C.CanSet t Γ.lo key ((g.cont.slotAt rest).map key) none P R) :
    C.rg.wp live t (takeOut n (takenAt rest)) (fun _ y => ∃ F,
      Repr g.ty F (g.cont.setAt rest none) ∧
      C.At live t (Γ.setLeaf n g F rest none) R y) x := by
  cases rest with
  | nil =>
    obtain ⟨F, hrun, hF⟩ := hr.setExactLeaf none
    refine RG.wp_mono (wp_onNode_setLeaf hch hx hc hlo hrun (hr.shows.setExactLeaf_turns none)
      hcan) ?_
    exact fun _ y _ hy => ⟨F, hF, hy.2⟩
  | cons b rest =>
    have hb : g.cont.child b ≠ .null := by
      intro hn
      simp [Content.slotAt, hn] at hslot
    obtain ⟨F, hrun, hF⟩ := hr.removeChild hb
    refine RG.wp_mono (wp_typed_setLeaf hch hx hc hlo hrun (hr.removeChild_turns hb) hcan) ?_
    exact fun _ y _ hy => ⟨F, hF, hy.2⟩

/-- A leaf that can be taken out of a node that was seen. -/
structure Takes (lo : ℕ) (s : Sight) (rest : List Byte) (l : Leaf) : Prop where
  lo_le : lo ≤ s.epoch
  key_eq : l.key = s.path ++ s.cont.pre ++ rest
  slot : s.cont.slotAt rest = .leaf l

/-- How the latched part of a remove ends; `none` is a failed acquisition. -/
def TakeEnds (live : Bool) (t : ℕ) (Γ : Know) (P : C.Assertion t) (Q : Option Leaf → C.Assertion t)
    (r : Option (Option Leaf)) (y : C.W) : Prop :=
  match r with
  | none => live = false ∧ ∃ Δ, Γ.Idle Δ ∧ C.At live t Δ P y
  | some a => ∃ Δ, Γ.Idle Δ ∧ C.At live t Δ (Q a) y

/-- The latched node is released as it was. -/
lemma wp_unlockSame {F : Fields} (hx : C.At live t (Γ.latch n s.v (graspOf s F)) P x)
    (hc : Γ.clear = none) (hh : Γ.held (.node n) = none) (hF : Repr s.ty F s.cont) :
    C.rg.wp live t (unlock (.node n) s.v) (fun _ y => ∃ Δ, Γ.Idle Δ ∧ C.At live t Δ P y) x := by
  refine RG.wp_mono (wp_unlock (g := graspOf s F) hx hc (by simp [Know.latch])
    (by simp [Know.latch]) rfl hF) ?_
  rintro _ y - ⟨-, hy⟩
  exact ⟨_, Know.Idle.rfl.unlatch hh, hy⟩

/-- `N` keeps an entry. -/
lemma wp_removeKeeping (H : C.RemoveHooks live t Γ.lo kind key accepts confirm P Q)
    (hh : ∀ l, Γ.held l = none) (hc : Γ.clear = none) (ht : Takes Γ.lo s rest l)
    (hacc : accepts l = true) (hkept : ¬ (s.cont.setAt rest none).Empty)
    (hs : Γ.seen n = some s) (hx : C.At live t Γ P x) :
    C.rg.wp live t (removeKeeping kind confirm n s.v (takenAt rest) l)
      (TakeEnds live t Γ P Q) x := by
  have hkey := H.accepts_key hacc
  refine RG.wp_seq (wp_tryUpgrade hx hc hs (promise_of_seen (hx.knows.seen n s hs))) ?_
  rintro (_ | nw) y - ⟨hnone, hsome⟩
  · exact RG.wp_ret ⟨(hnone rfl).1, Γ, .rfl, (hnone rfl).2⟩
  obtain ⟨rfl, -, F, hF, hy⟩ := hsome nw rfl
  refine RG.wp_seq (H.confirms hacc hy) ?_
  rintro (_ | count) z - ⟨hnone, hsome⟩
  · refine RG.wp_seq (wp_unlockSame (hnone rfl) hc (hh _) hF) ?_
    exact fun _ u _ hu => RG.wp_ret hu
  have hch : Changes (Γ.latch n s.v (graspOf s F)) n (graspOf s F) s.epoch s.path rest none
      key :=
    { grasp := by simp [Know.latch], place := rfl, key_eq := hkey ▸ ht.key_eq
      slot := by simp [ht.slot], old_key := by simp [ht.slot, hkey], new_key := by simp
      kept := hkept }
  have hmap : (s.cont.slotAt rest).map key = some l := by simp [ht.slot, Slot.map, hkey]
  refine RG.wp_seq (wp_takeOut hch (hsome count rfl) hc ht.lo_le hF ht.slot
    (by rw [hmap]; exact H.can_take hacc)) ?_
  rintro _ u - ⟨F', hF', hu⟩
  refine RG.wp_seq (wp_markRemoved (H.can_mark l count) hu) ?_
  intro _ w _ hw
  refine RG.wp_seq (wp_leafStep (H.can_count l count) hw) ?_
  intro _ w₁ _ hw₁
  refine RG.wp_seq (wp_unlock (g := { graspOf s F with
    fields := F', cont := s.cont.setAt rest none }) hw₁ hc (by simp [Know.setLeaf, Know.latch])
    (by simp [Know.setLeaf]) rfl hF') ?_
  rintro _ w₂ - ⟨-, hw₂⟩
  refine RG.wp_seq (wp_leafStep (H.can_retire l) hw₂) ?_
  intro _ w₃ _ hw₃
  have hidle : (Γ.latch n s.v (graspOf s F)).Idle
      ((Γ.latch n s.v (graspOf s F)).setLeaf n (graspOf s F) F' rest none) :=
    ⟨rfl, rfl, rfl, rfl, rfl, rfl⟩
  exact RG.wp_ret ⟨_, hidle.unlatch (hh (.node n)), hw₃⟩

/-! ## A node that is left empty -/

lemma CanSet.mono {lo lo' : ℕ} {old new : Option Leaf} (h : C.CanSet t lo key old new P R)
    (hle : lo ≤ lo') : C.CanSet t lo' key old new P R :=
  fun x e hi hP hlo => h x e hi hP (hle.trans hlo)

/-- Both latches are released as they were. -/
lemma wp_uncouple {pg : ParentGuard} {F : Fields} {α : Type} {a : α} {Post : α → C.W → Prop}
    (hh : ∀ l, Γ.held l = none) (hc : Γ.clear = none) (hp : Paired Γ Δ pg n s F)
    (hx : C.At live t Δ P x)
    (hk : ∀ y Δ', Γ.Idle Δ' → C.At live t Δ' P y → Post a y) :
    C.rg.wp live t (do
      let _ ← unlock (.node n) s.v
      let _ ← pg.unlock
      return a) Post x := by
  have hc' := hp.clear.trans hc
  refine RG.wp_seq (wp_unlock hx hc' (by simp [hp.held]) hp.grasp rfl hp.repr) ?_
  rintro _ y - ⟨-, hy⟩
  refine RG.wp_seq (wp_guardUnlock hy hc' (hp.guard.of_ne hp.ne rfl
    (fun lt hlt => by simp [Know.unlatch, hlt]) fun p hpn => by simp [Know.unlatch, hpn])) ?_
  rintro _ z - ⟨Δ', hun, hz, -⟩
  exact RG.wp_ret (hk z Δ' ⟨hun.lo.trans hp.lo, hp.released hh rfl hun.held,
    hun.priv.trans hp.priv, hun.follow.trans hp.follow, hun.clear.trans hp.clear,
    hun.due.trans hp.due⟩ hz)

/-- How the latched part of an emptying remove ends. -/
def UnlinkEnds (live : Bool) (t : ℕ) (Γ : Know) (P : C.Assertion t)
    (Q : Option Leaf → C.Assertion t) (key : Key) (l : Leaf) (r : Unlink) (y : C.W) : Prop :=
  match r with
  | .retry => TakeEnds live t Γ P Q none y
  | .refused => TakeEnds live t Γ P Q (some none) y
  | .done false => TakeEnds live t Γ P Q (some (some l)) y
  | .done true => Pending live t Γ (Q (some l)) key y

/-- `N` is left empty, and unlinked. -/
lemma wp_removeUnlinking (H : C.RemoveHooks live t Γ.lo kind key accepts confirm P Q)
    (hh : ∀ l, Γ.held l = none) (hc : Γ.clear = none) (hf : Γ.follow = none)
    (ht : Takes Γ.lo s rest l) (hacc : accepts l = true)
    (hempty : (s.cont.setAt rest none).Empty) (hs : Γ.seen n = some s)
    (hcp : Coupled live Γ par n s) (hx : C.At live t Γ P x) :
    C.rg.wp live t (removeUnlinking kind confirm par n s.v l)
      (UnlinkEnds live t Γ P Q key l) x := by
  have hkey := H.accepts_key hacc
  refine wp_couple hx hc hh hs hcp.pub (fun _ => hcp) ?_ ?_
  · exact fun y Δ hl hidle hy => ⟨hl, Δ, hidle, hy⟩
  intro y Δ pg F hok _ hp hy
  refine RG.wp_seq (H.confirms hacc hy) ?_
  rintro (_ | count) z hokz ⟨hnone, hsome⟩
  · exact wp_uncouple hh hc hp (hnone rfl) fun u Δ' h1 h2 => ⟨Δ', h1, h2⟩
  have hz := hsome count rfl
  -- The epoch of the node has begun, so a follow-up can rely on it.
  have hle : s.epoch ≤ (shadow z).cur :=
    (ok_tree hokz).place_le (hz.knows.grasp n _ hp.grasp).place
  have hdue : ¬ Γ.due n := hp.due ▸ hz.not_due hokz hp.grasp (by simp)
  replace hz := hz.since hle
  replace hp := hp.since s.epoch
  subst hkey
  refine RG.wp_seq (wp_unlinkLeaf (R := H.gone l count)
    ((H.can_take hacc).mono ht.lo_le) (fun y hy => H.taking hy) hz (hp.clear.trans hc) hp.guard
    hp.ne le_rfl hp.grasp (hp.follow.trans hf) ht.key_eq ht.slot hempty) ?_
  rintro _ u - ⟨Δ₁, hcut, hu⟩
  refine RG.wp_seq (wp_markRemoved (H.can_mark l count) hu) ?_
  intro _ u₁ _ hu₁
  refine RG.wp_seq (wp_leafStep (H.can_count l count) hu₁) ?_
  intro _ u₂ _ hu₂
  refine wp_part (Γ := Γ.since s.epoch) hh hc hp hcut hu₂ fun w Δ₂ above hpart hw => ?_
  refine RG.wp_seq (wp_leafStep (H.can_retire l) hw) ?_
  intro _ w₁ _ hw₁
  refine RG.wp_seq (wp_retireNode hw₁ ((hpart.due n).mpr (.inr rfl))
    (by rw [hpart.held]; exact hh _)) ?_
  intro _ w₂ hok₂ hw₂
  have hst := hpart.stays hdue
  have hlo : (Δ₂.retire n).lo = s.epoch := hpart.lo
  cases above with
  | true =>
    refine RG.wp_ret ⟨_, s.epoch, ⟨?_, hst.held, hst.priv, hst.clear, hst.due⟩,
      (hpart.pending rfl).1, hlo.ge, hw₂⟩
    rw [hlo]
    exact ht.lo_le
  | false =>
    have hcur : Γ.lo ≤ (shadow w₂).cur := ht.lo_le.trans (hlo ▸ hw₂.knows.lo)
    exact RG.wp_ret ⟨(Δ₂.retire n).since Γ.lo, ⟨rfl, hst.held, hst.priv,
      (hpart.settled rfl).trans hf.symm, hst.clear, hst.due⟩, hw₂.since hcur⟩

/-! ## The descent -/

lemma wp_removeSlot {φ : Prop} (hd : d ≤ key.length) (hs : Γ.seen n = some s)
    (hx : C.At live t Γ P x) (hφ : Promise live n s.v φ (tree x)) :
    C.rg.wp live t (removeSlot n key d) (fun r y => C.At live t Γ P y ∧
      r.2 = takenAt (key.drop d) ∧
      Promise live n s.v (φ ∧ r.1 = s.cont.slotAt (key.drop d)) (tree y)) x := by
  by_cases hend : d = key.length
  · simp only [removeSlot, hend, if_true]
    refine RG.wp_seq (wp_exactLeaf hs hx hφ) ?_
    rintro r y - ⟨hy, hpr⟩
    exact RG.wp_ret ⟨hy, by simp [takenAt], hpr.mono fun h => ⟨h.1, by simp [h.2, Content.slotAt]⟩⟩
  · have hlt : d < key.length := by omega
    simp only [removeSlot, hend, if_false, List.getElem?_eq_getElem hlt]
    refine RG.wp_seq (wp_findChild _ hs hx hφ) ?_
    rintro r y - ⟨hy, hpr⟩
    rw [List.drop_eq_getElem_cons hlt]
    exact RG.wp_ret ⟨hy, rfl, hpr⟩

/-- How one level of the descent of a remove ends. -/
def RemoveEnds (live : Bool) (t : ℕ) (Γ : Know) (P : C.Assertion t)
    (Q : Option Leaf → C.Assertion t) (key : Key) (d : ℕ)
    (r : Search ⊕ Option (Option Leaf)) (y : C.W) : Prop :=
  match r with
  | .inl q => d < q.depth ∧ (live = true → q.depth ≤ key.length) ∧
      Descending live t Γ P key q.parent q.node q.depth y
  | .inr a => TakeEnds live t Γ P Q a y

/-- The remove ends at a validation, without an accepted leaf. -/
lemma wp_removeMiss {φ : Prop} (H : C.RemoveHooks live t Γ.lo kind key accepts confirm P Q)
    (hΔ : Γ.Scan Δ) (hs : Δ.seen n = some s) (hlo : Γ.lo ≤ s.epoch) (hx : C.At live t Δ P x)
    (hφ : Promise live n s.v φ (tree x))
    (hmap : C.rg.Ok live t x → (tree x).latch (.node n) = s.v → φ →
      ∀ l, (scene x).view.map s.epoch key = some l → accepts l = false) :
    C.rg.wp live t (validate (.node n) s.v) (fun ok y =>
      (ok = true → φ ∧ TakeEnds live t Γ P Q (some none) y) ∧
      (ok = false → TakeEnds live t Γ P Q none y)) x := by
  refine RG.wp_intro fun hok => RG.wp_mono (wp_validate_upd (R := Q none) hx hφ ?_) ?_
  · intro hw hφ' hi
    exact H.can_miss (scene x) s.epoch hi hx.client hlo (epoch_le_of_seen hx hok hs hw)
      (hmap hok hw hφ')
  · rintro ok y - ⟨h1, h2⟩
    exact ⟨fun h => ⟨(h1 h).1, Δ, hΔ.idle, (h1 h).2⟩, fun h => ⟨(h2 h).1, Δ, hΔ.idle, (h2 h).2⟩⟩

lemma TakeEnds.trans {r : Option (Option Leaf)} (h : TakeEnds live t Δ P Q r y)
    (hΔ : Γ.Idle Δ) : TakeEnds live t Γ P Q r y := by
  cases r with
  | none =>
    obtain ⟨hl, Δ', h1, h2⟩ := h
    exact ⟨hl, Δ', hΔ.trans h1, h2⟩
  | some a =>
    obtain ⟨Δ', h1, h2⟩ := h
    exact ⟨Δ', hΔ.trans h1, h2⟩

/-- An accepted leaf is taken out. -/
lemma wp_removeFound {empties : Bool} {d' : ℕ}
    (H : C.RemoveHooks live t Γ.lo kind key accepts confirm P Q)
    (hh : ∀ l, Γ.held l = none) (hc : Γ.clear = none) (hf : Γ.follow = none) (hΔ : Γ.Scan Δ)
    (ht : Takes Γ.lo s rest l) (hacc : accepts l = true)
    (hempty : empties = true ↔ (s.cont.setAt rest none).Empty) (hs : Δ.seen n = some s)
    (hcp : Coupled live Δ par n s) (hx : C.At live t Δ P x) :
    C.rg.wp live t (
      if empties then do
        match ← removeUnlinking kind confirm par n s.v l with
        | .retry => return .inr none
        | .refused => return .inr (some none)
        | .done followUp =>
          if followUp then unlinkEmptied key
          return .inr (some (some l))
      else do
        let r ← removeKeeping kind confirm n s.v (takenAt rest) l
        return .inr r) (RemoveEnds live t Γ P Q key d') x := by
  have hh' : ∀ l, Δ.held l = none := by
    rw [hΔ.held]
    exact hh
  have hc' : Δ.clear = none := hΔ.clear.trans hc
  have hf' : Δ.follow = none := hΔ.follow.trans hf
  rw [← hΔ.lo] at H ht
  cases empties with
  | true =>
    refine RG.wp_seq (wp_removeUnlinking H hh' hc' hf' ht hacc (hempty.mp rfl) hs hcp hx) ?_
    rintro (_ | _ | _ | _) y hok hy
    · exact RG.wp_ret (TakeEnds.trans (Q := Q) (r := none) hy hΔ.idle)
    · exact RG.wp_ret (TakeEnds.trans (P := P) (r := some none) hy hΔ.idle)
    · exact RG.wp_ret (TakeEnds.trans (P := P) (r := some (some l)) hy hΔ.idle)
    · refine RG.wp_seq (wp_unlinkEmptied hh' hc' hy) ?_
      rintro _ z - ⟨Δ', h1, h2, hz⟩
      have hcur : Δ.lo ≤ (shadow z).cur := h1.lo.trans hz.knows.lo
      have hidle : Δ.Idle (Δ'.since Δ.lo) :=
        ⟨rfl, h1.held, h1.priv, h2.trans hf'.symm, h1.clear, h1.due⟩
      exact RG.wp_ret ⟨_, hΔ.idle.trans hidle, hz.since hcur⟩
  | false =>
    have hkeeps : ¬ (s.cont.setAt rest none).Empty := by simpa using hempty
    refine RG.wp_seq (wp_removeKeeping H hh' hc' ht hacc hkeeps hs hx) ?_
    intro r y _ hy
    exact RG.wp_ret (TakeEnds.trans hy hΔ.idle)

/-- What a remove does with what it found below the prefix of a node. -/
lemma wp_removeAt {c : NodeId} {slot : Slot} {φ : Prop}
    (H : C.RemoveHooks live t Γ.lo kind key accepts confirm P Q)
    (hh : ∀ l, Γ.held l = none) (hc : Γ.clear = none) (hf : Γ.follow = none) (hΔ : Γ.Scan Δ)
    (hs : Δ.seen c = some s) (hlo : Γ.lo ≤ s.epoch) (hcp : Coupled live Δ par c s)
    (hx : C.At live t Δ P x) (hφ : Promise live c s.v φ (tree x))
    (hslot : φ → slot = s.cont.slotAt rest) (hkey : φ → key = s.path ++ s.cont.pre ++ rest)
    (hnode : ∀ n, slot = .node n → rest = []) :
    C.rg.wp live t (do
      let empties ← typed c (emptiedBy · (takenAt rest))
      if !(← validate (.node c) s.v) then return .inr none
      match slot with
      | .leaf leaf =>
        if !accepts leaf then return .inr (some none)
        if empties then
          match ← removeUnlinking kind confirm par c s.v leaf with
          | .retry => return .inr none
          | .refused => return .inr (some none)
          | .done followUp =>
            if followUp then unlinkEmptied key
            return .inr (some (some leaf))
        else
          let r ← removeKeeping kind confirm c s.v (takenAt rest) leaf
          return .inr r
      | _ => return .inr (some none)) (RemoveEnds live t Γ P Q key d) x := by
  have hno : φ → ∀ n, slot ≠ .node n := by
    intro h n hn
    obtain rfl := hnode n hn
    have := (hslot h).symm.trans hn
    cases hex : s.cont.exact <;> simp [Content.slotAt, hex, Slot.ofOption] at this
  -- What the slot means if the node has not changed.
  have hmap : ∀ y, C.At live t Δ P y → C.rg.Ok live t y → (tree y).latch (.node c) = s.v → φ →
      (scene y).view.map s.epoch key = slot.map key := by
    intro y hy hok hw h
    obtain ⟨h1, h2⟩ := (hy.knows.seen c s hs).right hw
    have := (ok_tree hok).wf.map_node (k := key) h2
      (by rw [Forest.pre, h1]; exact hkey h) (by rw [h1, ← hslot h]; exact hno h)
    rw [h1, ← hslot h] at this
    exact this
  refine RG.wp_seq (wp_typed_spec (R := fun a => ∀ l, s.cont.slotAt rest = .leaf l →
    (a = true ↔ (s.cont.setAt rest none).Empty)) (fun _ => readOnly_emptiedBy _)
    (fun F a hF ha l hl => ?_) hs hx hφ) ?_
  · obtain ⟨r, hr, hiff⟩ := hF.run_emptiedBy fun _ => (takenAt_in hl).child
    obtain rfl : r = a := by simpa [hr] using ha
    rwa [without_takenAt] at hiff
  rintro empties y - ⟨hy, hpr⟩
  have hmiss : (∀ l, slot = .leaf l → accepts l = false) → C.rg.wp live t
      (validate (.node c) s.v) (fun ok y => (ok = true → φ ∧ TakeEnds live t Γ P Q (some none) y) ∧
        (ok = false → TakeEnds live t Γ P Q none y)) y := by
    intro hacc
    refine wp_removeMiss H hΔ hs hlo hy (hpr.mono And.left) fun hok hw h l hl => ?_
    rw [hmap y hy hok hw h] at hl
    cases slot with
    | leaf l' =>
      by_cases hk : key = l'.key
      · obtain rfl : l' = l := by simpa [Slot.map, hk] using hl
        exact hacc l' rfl
      · simp [Slot.map, hk] at hl
    | null => simp [Slot.map] at hl
    | node n => simp [Slot.map] at hl
  cases slot with
  | null =>
    refine RG.wp_seq (hmiss (by simp)) ?_
    rintro (_ | _) z - ⟨h1, h2⟩
    · exact RG.wp_ret (h2 rfl)
    · exact RG.wp_ret (h1 rfl).2
  | node n =>
    refine RG.wp_seq (hmiss (by simp)) ?_
    rintro (_ | _) z - ⟨h1, h2⟩
    · exact RG.wp_ret (h2 rfl)
    · exact absurd rfl (hno (h1 rfl).1 n)
  | leaf leaf =>
    by_cases hacc : accepts leaf = true
    · refine RG.wp_seq (wp_validate hy hpr) ?_
      rintro (_ | _) z - ⟨hz, h1, h2, -⟩
      · exact RG.wp_ret ⟨h2 rfl, Δ, hΔ.idle, hz⟩
      · obtain ⟨h3, h4⟩ := h1 rfl
        have ht : Takes Γ.lo s rest leaf :=
          ⟨hlo, by rw [H.accepts_key hacc]; exact hkey h3, (hslot h3).symm⟩
        simp only [Bool.not_true, Bool.false_eq_true, if_false, hacc]
        exact wp_removeFound H hh hc hf hΔ ht hacc (h4 leaf ht.slot) hs hcp hz
    · refine RG.wp_seq (hmiss ?_) ?_
      · rintro l ⟨⟩
        simpa using hacc
      rintro (_ | _) z - ⟨h1, h2⟩
      · exact RG.wp_ret (h2 rfl)
      · simp only [Bool.not_true, Bool.false_eq_true, if_false, hacc, Bool.not_false, if_true]
        exact RG.wp_ret (h1 rfl).2

/-- One level of the descent. -/
lemma wp_removeLevel (H : C.RemoveHooks live t Γ.lo kind key accepts confirm P Q)
    (hh : ∀ l, Γ.held l = none) (hc : Γ.clear = none) (hf : Γ.follow = none) {c : NodeId}
    (hx : Descending live t Γ P key par c d x) :
    C.rg.wp live t (removeLevel kind key accepts confirm ⟨par, c, d⟩)
      (RemoveEnds live t Γ P Q key d) x := by
  obtain ⟨Δ, hΔ, hx, hlink⟩ := hx
  refine RG.wp_seq (wp_readVersion_linked hx (hΔ.clear.trans hc)
    (by rw [hΔ.held]; exact hh _) hlink) ?_
  rintro (_ | v) y - ⟨hy, hlink, hnone, hsome⟩
  · exact RG.wp_ret ⟨hnone rfl, Δ, hΔ.idle, hy⟩
  obtain ⟨hv, hpr⟩ := hsome v rfl
  refine RG.wp_seq (wp_stillParent hy hlink hv hpr) ?_
  rintro (_ | _) y - ⟨hfalse, htrue⟩
  · exact RG.wp_ret ⟨(hfalse rfl).1, Δ, hΔ.idle, (hfalse rfl).2⟩
  obtain ⟨hd, s, rfl, hpath, hlo, hcp, hy, hpr⟩ := htrue rfl
  have hs : (Δ.see c s).seen c = some s := by simp [Know.see]
  rw [hΔ.lo] at hlo
  refine RG.wp_seq (wp_loadPrefix hs hy hpr) ?_
  rintro pre y - ⟨hy, -, hpr⟩
  by_cases hpre : pre.isPrefixOf (key.drop d) = true
  · have hd' : d + pre.len ≤ key.length := by
      have := isPrefixOf_le hpre
      rw [List.length_drop] at this
      omega
    simp only [hpre, Bool.not_true, Bool.false_eq_true, if_false]
    refine RG.wp_seq (wp_removeSlot hd' hs hy hpr) ?_
    rintro ⟨slot, taken⟩ y - ⟨hy, rfl, hpr⟩
    have hat : ∀ rest, key.drop (d + pre.len) = rest → (∀ n, slot = .node n → rest = []) →
        C.rg.wp live t _ (RemoveEnds live t Γ P Q key d) y := fun rest hrest hnode =>
      wp_removeAt H hh hc hf hΔ.see hs hlo hcp.see hy hpr (fun h => hrest ▸ h.2)
        (fun h => by
          rw [← hrest, h.1.2.len]
          exact key_along hpath ((h.1.2.isPrefixOf_iff _).mp hpre)) hnode
    cases hrest : key.drop (d + pre.len) with
    | nil => cases slot <;> exact hat [] hrest fun _ _ => rfl
    | cons b tl =>
      cases slot with
      | null => exact hat _ hrest (by simp)
      | leaf l => exact hat _ hrest (by simp)
      | node c' =>
        have hb : key[d + pre.len]? = some b := by rw [← List.head?_drop, hrest, List.head?_cons]
        have hlt := (List.getElem?_eq_some_iff.mp hb).1
        refine RG.wp_ret ⟨by simp, fun _ => hlt, _, hΔ.see, hy, s, hs, rfl, hΔ.lo ▸ hlo,
          hpr.mono ?_⟩
        rintro ⟨⟨-, hof⟩, hslot⟩
        rw [hrest] at hslot
        rw [hof.len] at hb ⊢
        exact ⟨path_step hpath ((hof.isPrefixOf_iff _).mp hpre) hb, hslot.symm,
          (List.getElem?_eq_some_iff.mp hb).1⟩
  · simp only [hpre, Bool.not_false, if_true]
    refine RG.wp_seq (wp_removeMiss H hΔ.see hs hlo hy hpr ?_) ?_
    · rintro hok hw ⟨-, hof⟩ l hl
      rw [map_off_of_seen hy hok hs hw hpath fun hp => hpre ((hof.isPrefixOf_iff _).mpr hp)] at hl
      simp at hl
    · rintro (_ | _) z - ⟨h1, h2⟩
      · exact RG.wp_ret (h2 rfl)
      · exact RG.wp_ret (h1 rfl).2

/-! ## The root -/

/-- A leaf at the root is taken out. -/
lemma wp_removeRoot (H : C.RemoveHooks live t Γ.lo kind key accepts confirm P Q)
    (hh : ∀ l, Γ.held l = none) (hc : Γ.clear = none) (hacc : accepts l = true)
    (htop : ∃ e, Γ.top = some (.leaf l, e)) (hx : C.At live t Γ P x) :
    C.rg.wp live t (removeRoot kind confirm l) (TakeEnds live t Γ P Q) x := by
  have hkey := H.accepts_key hacc
  refine wp_lockedRoot hx hh ?_
  intro y v r e hok hy hlo hg hlive
  have hidle : ∀ Δ, (Γ.latchRoot v r e).Idle Δ → Γ.Idle Δ.unlatchRoot := by
    intro Δ h
    have hq := h.quiet.unlatchRoot (hh .root)
    exact ⟨hq.lo, hq.held, h.priv, hq.follow, hq.clear, hq.due⟩
  by_cases hr : r = .leaf l
  · subst hr
    simp only [ne_eq, not_true_eq_false, if_false]
    refine RG.wp_seq (H.confirms hacc hy) ?_
    rintro (_ | count) z - ⟨hnone, hsome⟩
    · refine RG.wp_seq (wp_unlockRoot (hnone rfl) hg.1) ?_
      exact fun _ u _ hu => RG.wp_ret ⟨_, hidle _ .rfl, hu⟩
    have hmap : (Slot.leaf l).map key = some l := by simp [Slot.map, hkey]
    refine RG.wp_seq (wp_putRoot (z := none) (R := H.gone l count)
      (by rw [hmap]; exact H.can_take hacc) (hsome count rfl) hc hg hlo (by simp)
      (by simp [hkey]) (by simp)) ?_
    rintro _ u - ⟨Δ, h1, h2, h3, hu⟩
    refine RG.wp_seq (wp_markRemoved (H.can_mark l count) hu) ?_
    intro _ u₁ _ hu₁
    refine RG.wp_seq (wp_leafStep (H.can_count l count) hu₁) ?_
    intro _ u₂ _ hu₂
    refine RG.wp_seq (wp_unlockRoot hu₂ h3.1) ?_
    intro _ u₃ _ hu₃
    refine RG.wp_seq (wp_leafStep (H.can_retire l) hu₃) ?_
    intro _ u₄ _ hu₄
    exact RG.wp_ret ⟨_, hidle Δ ⟨h1.lo, h1.held, h2, h1.follow, h1.clear, h1.due⟩, hu₄⟩
  · simp only [ne_eq, hr, not_false_eq_true, if_true]
    refine RG.wp_seq (wp_unlockRoot hy hg.1) ?_
    intro _ u _ hu
    refine RG.wp_ret ⟨?_, _, hidle _ .rfl, hu⟩
    obtain ⟨e', he'⟩ := htop
    by_contra hl
    exact hr (hlive (by simpa using hl) _ _ he')

/-- **A remove** takes out the accepted leaf of its key, or finds none. -/
theorem wp_removeConfirmed (H : C.RemoveHooks live t Γ.lo kind key accepts confirm P Q)
    (hh : ∀ l, Γ.held l = none) (hc : Γ.clear = none) (hf : Γ.follow = none)
    (hx : C.At live t Γ P x) :
    C.rg.wp live t (removeConfirmed kind key accepts confirm)
      (fun a y => ∃ Δ, Γ.Idle Δ ∧ C.At live t Δ (Q a) y) x := by
  refine RG.wp_iter (δ := ℕ) (fun _ y => ∃ Δ, Γ.Idle Δ ∧ C.At live t Δ P y) (fun _ _ => 0) ?_
    ⟨Γ, .rfl, hx⟩
  rintro _ y ⟨Δ, hΔ, hy⟩
  have hh' : ∀ l, Δ.held l = none := by
    rw [hΔ.held]
    exact hh
  have hc' : Δ.clear = none := hΔ.clear.trans hc
  have hf' : Δ.follow = none := hΔ.follow.trans hf
  rw [← hΔ.lo] at H
  refine RG.wp_intro fun hok => ?_
  have hi := ok_tree hok
  -- A root that is no inner node answers at once.
  have hmiss : (∀ n, (tree y).root ≠ .node n) →
      (∀ l, (tree y).root = .leaf l → accepts l = false) →
      Upd t (scene y) (scene y).leafs (scene y).view (Q none) := by
    intro hn hacc
    refine H.can_miss (scene y) (shadow y).cur (ok_client hok) hy.client hy.knows.lo le_rfl ?_
    intro l hl
    have hmap : (scene y).view.map (shadow y).cur key = (tree y).root.map key := by
      rw [hi.root] at hn ⊢
      exact hi.wf.map_slot (Forest.at_root _) hn List.nil_prefix
    rw [hmap] at hl
    cases hr : (tree y).root with
    | null => simp [hr, Slot.map] at hl
    | node n => exact absurd hr (hn n)
    | leaf l' =>
      by_cases hk : key = l'.key
      · obtain rfl : l' = l := by simpa [hr, Slot.map, hk] using hl
        exact hacc l' hr
      · simp [hr, Slot.map, hk] at hl
  have hend : ∀ r z, TakeEnds live t Δ P Q r z → C.rg.wp live t
      (match r with
        | none => (return .inl () : TreeM (Unit ⊕ Option Leaf))
        | some r => return .inr r)
      (fun r z => Sum.elim (fun _ => (∃ Δ, Γ.Idle Δ ∧ C.At live t Δ P z) ∧ (live = true → 0 < 0))
        (fun b => ∃ Δ, Γ.Idle Δ ∧ C.At live t Δ (Q b) z) r) z := by
    rintro (_ | a) z hz
    · obtain ⟨hl, Δ', h1, h2⟩ := hz
      exact RG.wp_ret ⟨⟨Δ', hΔ.trans h1, h2⟩, fun hl' => by simp [hl] at hl'⟩
    · obtain ⟨Δ', h1, h2⟩ := hz
      exact RG.wp_ret ⟨Δ', hΔ.trans h1, h2⟩
  cases hr : (tree y).root with
  | null =>
    refine RG.wp_seq (wp_load hy rfl fun _ => hmiss (by simp [hr]) (by simp [hr])) ?_
    rintro (r : Slot) z - ⟨rfl, hz, -⟩
    rw [show (execTree .loadRoot (tree y)).1 = .null from hr]
    exact RG.wp_ret ⟨Δ, hΔ, hz⟩
  | leaf l =>
    by_cases hacc : accepts l = true
    · refine RG.wp_seq (wp_load' hy rfl) ?_
      rintro (r : Slot) z - ⟨rfl, hz, hlater⟩
      rw [show (execTree .loadRoot (tree y)).1 = .leaf l from hr]
      have hz' : C.At live t (Δ.seeTop (.leaf l) (shadow y).cur) P z :=
        .later (hr ▸ hy.knows.seeTop) hi hlater hz.client
      simp only [hacc, Bool.not_true, Bool.false_eq_true, if_false]
      refine RG.wp_seq (wp_removeRoot (Γ := Δ.seeTop (.leaf l) (shadow y).cur) H hh' hc' hacc
        ⟨_, rfl⟩ hz') fun r u _ hu => ?_
      exact hend r u (hu.trans Know.Scan.rfl.seeTop.idle)
    · refine RG.wp_seq (wp_load hy rfl fun _ => hmiss (by simp [hr]) ?_) ?_
      · intro l' hl'
        obtain rfl : l = l' := by simpa [hr] using hl'
        simpa using hacc
      rintro (r : Slot) z - ⟨rfl, hz, -⟩
      rw [show (execTree .loadRoot (tree y)).1 = .leaf l from hr]
      simp only [hacc, Bool.not_false, if_true]
      exact RG.wp_ret ⟨Δ, hΔ, hz⟩
  | node n =>
    refine RG.wp_seq (wp_load' hy rfl) ?_
    rintro (r : Slot) z - ⟨rfl, hz, hlater⟩
    rw [show (execTree .loadRoot (tree y)).1 = .node n from hr]
    have hz' : C.At live t (Δ.seeTop (.node n) (shadow y).cur) P z :=
      .later (hr ▸ hy.knows.seeTop) hi hlater hz.client
    refine RG.wp_seq (K := fun r u => TakeEnds live t Δ P Q r u) ?_ fun r u _ hu => hend r u hu
    refine RG.wp_iter (δ := ℕ)
      (fun (q : Search) u => (live = true → q.depth ≤ key.length) ∧
        Descending live t Δ P key q.parent q.node q.depth u)
      (fun q _ => key.length - q.depth) ?_ (s := ⟨.root, n, 0⟩) ?_
    · rintro ⟨par, c, d⟩ u ⟨hd, hu⟩
      refine RG.wp_mono (wp_removeLevel H hh' hc' hf' hu) ?_
      rintro (⟨par', c', d'⟩ | a) w - hw
      · obtain ⟨h1, h2, h3⟩ := hw
        refine ⟨⟨h2, h3⟩, fun hl => ?_⟩
        have := h2 hl
        simp only at this h1 ⊢
        omega
      · exact hw
    · exact ⟨fun _ => Nat.zero_le _, _, Know.Scan.rfl.seeTop, hz', by simp, Nat.zero_le _, _, rfl⟩

end Client

end Artmap
