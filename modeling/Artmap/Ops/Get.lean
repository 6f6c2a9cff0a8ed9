import Artmap.Tree.Descent

/-!
# The point lookup

A lookup takes effect at the validation of the last node of its descent, or at the load of the
root if the root is no inner node.  It may take effect on the tree of a past epoch, if it was
already in that tree when it was detached.
-/

namespace Artmap

open scoped List

namespace Client

variable {C : Client} {live : Bool} {t : ℕ} {Γ : Know} {P : C.Assertion t} {x : C.W} {key : Key}
  {Q : Option Leaf → C.Assertion t}

/-- What a client has to bring for a lookup of `key`: a step that answers what some epoch since
`lo` maps the key to. -/
def CanGet (t : ℕ) (lo : ℕ) (key : Key) (P : C.Assertion t)
    (Q : Option Leaf → C.Assertion t) : Prop :=
  ∀ x e, C.Inv x → P x → lo ≤ e → e ≤ x.view.cur →
    Upd t x x.leafs x.view (Q (x.view.map e key))

/-- The parent of the node at hand, with the byte that leads to it. -/
def parentFrom (b : Byte) : Option (NodeId × ℕ) → Parent
  | none => .root
  | some (p, v) => .node p v b

lemma stillLinked_eq (parent : Option (NodeId × ℕ)) (b : Byte) (c : NodeId) :
    stillLinked parent c = stillParent (parentFrom b parent) (.node c) := by
  cases parent <;> rfl

/-- The descent has read node `c` at the end of the first `d` bytes of the key. -/
def Descending (live : Bool) (t : ℕ) (Γ : Know) (P : C.Assertion t) (key : Key) (par : Parent)
    (c : NodeId) (d : ℕ) (y : C.W) : Prop :=
  ∃ Δ, Γ.Scan Δ ∧ C.At live t Δ P y ∧
    Linked live Δ par c (key.take d) (d ≤ key.length) (tree y)

/-- The descent has come to nothing, or the thread knows what it knew before. -/
def Back (live : Bool) (t : ℕ) (Γ : Know) (P : C.Assertion t) (y : C.W) : Prop :=
  ∃ Δ, Γ.Scan Δ ∧ C.At live t Δ P y

/-- How one level of the descent from depth `d` ends. -/
def GetNext (live : Bool) (t : ℕ) (Γ : Know) (P : C.Assertion t) (Q : Option Leaf → C.Assertion t)
    (key : Key) (d : ℕ) (r : (NodeId × Option (NodeId × ℕ) × ℕ) ⊕ Option (Option Leaf))
    (y : C.W) : Prop :=
  match r with
  | .inl (c, parent, d') => d < d' ∧ (live = true → d' ≤ key.length) ∧
      ∃ b, Descending live t Γ P key (parentFrom b parent) c d' y
  | .inr none => live = false ∧ Back live t Γ P y
  | .inr (some a) => Back live t Γ (Q a) y

/-- The answer `a` at a validation. -/
lemma wp_getAnswer {Δ : Know} {c : NodeId} {s : Sight} {d : ℕ} {φ : Prop} {a : Option Leaf}
    (hget : C.CanGet t Γ.lo key P Q) (hΔ : Γ.Scan Δ) (hs : Δ.seen c = some s)
    (hlo : Γ.lo ≤ s.epoch) (hx : C.At live t Δ P x) (hφ : Promise live c s.v φ (tree x))
    (hmap : C.rg.Ok live t x → (tree x).latch (.node c) = s.v → φ →
      (scene x).view.map s.epoch key = a) :
    C.rg.wp live t (do
      if ← validate (.node c) s.v then return .inr (some a) else return .inr none)
      (GetNext live t Γ P Q key d) x := by
  refine RG.wp_intro fun hok => RG.wp_seq (wp_validate_upd (R := Q a) hx hφ ?_) ?_
  · intro hw hφ' hi
    have := hget (scene x) s.epoch hi hx.client hlo (epoch_le_of_seen hx hok hs hw)
    rwa [hmap hok hw hφ'] at this
  · rintro (_ | _) y - ⟨h1, h2⟩
    · exact RG.wp_ret ⟨(h2 rfl).1, Δ, hΔ, (h2 rfl).2⟩
    · exact RG.wp_ret ⟨Δ, hΔ, (h1 rfl).2⟩

/-- One level of the descent. -/
lemma wp_getLevel (hget : C.CanGet t Γ.lo key P Q) (hh : ∀ l, Γ.held l = none)
    (hc : Γ.clear = none) {b : Byte} {c : NodeId} {parent : Option (NodeId × ℕ)} {d : ℕ}
    (hx : Descending live t Γ P key (parentFrom b parent) c d x) :
    C.rg.wp live t (getLevel key (c, parent, d)) (GetNext live t Γ P Q key d) x := by
  obtain ⟨Δ, hΔ, hx, hlink⟩ := hx
  refine RG.wp_seq (wp_readVersion_linked hx (hΔ.clear.trans hc)
    (by rw [hΔ.held]; exact hh _) hlink) ?_
  rintro (_ | v) y - ⟨hy, hlink, hnone, hsome⟩
  · exact RG.wp_ret ⟨hnone rfl, Δ, hΔ, hy⟩
  obtain ⟨hv, hpr⟩ := hsome v rfl
  rw [stillLinked_eq parent b]
  refine RG.wp_seq (wp_stillParent hy hlink hv hpr) ?_
  rintro (_ | _) y - ⟨hfalse, htrue⟩
  · exact RG.wp_ret ⟨(hfalse rfl).1, Δ, hΔ, (hfalse rfl).2⟩
  obtain ⟨hd, s, rfl, hpath, hlo, -, hy, hpr⟩ := htrue rfl
  have hs : (Δ.see c s).seen c = some s := by simp [Know.see]
  rw [hΔ.lo] at hlo
  refine RG.wp_seq (wp_loadPrefix hs hy hpr) ?_
  rintro pre y - ⟨hy, -, hpr⟩
  by_cases hpre : pre.isPrefixOf (key.drop d) = true
  · have hd' : d + pre.len ≤ key.length := by
      have := isPrefixOf_le hpre
      rw [List.length_drop] at this
      omega
    simp only [hpre, Bool.not_true, Bool.false_eq_true, if_false]
    refine RG.wp_seq (wp_slotFor hd' hs hy hpr) ?_
    rintro slot y - ⟨hy, hpr⟩
    -- What the slot means if the node has not changed.
    have hmap : (∀ c', slot ≠ .node c') → C.rg.Ok live t y →
        (tree y).latch (.node c) = s.v →
        (True ∧ pre.Of s.cont.pre) ∧ slot = s.cont.slotAt (key.drop (d + pre.len)) →
        (scene y).view.map s.epoch key = slot.map key := by
      rintro hslot hok hw ⟨⟨-, hof⟩, rfl⟩
      rw [hof.len] at hslot ⊢
      exact map_slot_of_seen hy hok hs hw hpath ((hof.isPrefixOf_iff _).mp hpre) hslot
    cases slot with
    | node c' =>
      have hprom : Promise live c s.v (key.take (d + pre.len + 1) = s.path ++ s.cont.pre ++
          [key.getD (d + pre.len) 0] ∧ s.cont.child (key.getD (d + pre.len) 0) = .node c' ∧
            d + pre.len + 1 ≤ key.length) (tree y) := by
        refine hpr.mono ?_
        rintro ⟨⟨-, hof⟩, hslot⟩
        obtain ⟨b', hb', hchild⟩ := slotAt_node hslot.symm
        rw [List.head?_drop] at hb'
        have hlt := (List.getElem?_eq_some_iff.mp hb').1
        rw [List.getD_eq_getElem?_getD, hb', hof.len]
        rw [hof.len] at hb'
        exact ⟨path_step hpath ((hof.isPrefixOf_iff _).mp hpre) hb', hchild, hof.len ▸ hlt⟩
      exact RG.wp_ret ⟨by omega, fun hl => (hprom.of_live hl).2.2, key.getD (d + pre.len) 0,
        Δ.see c s, hΔ.see, hy, s, hs, rfl, hΔ.lo ▸ hlo, hprom⟩
    | null => exact wp_getAnswer hget hΔ.see hs hlo hy hpr (hmap (by simp))
    | leaf l =>
      refine wp_getAnswer hget hΔ.see hs hlo hy hpr fun hok hw hφ => ?_
      rw [hmap (by simp) hok hw hφ]
      simp only [Slot.map, eq_comm]
  · simp only [hpre, Bool.not_false, if_true]
    refine wp_getAnswer hget hΔ.see hs hlo hy hpr ?_
    rintro hok hw ⟨-, hof⟩
    exact map_off_of_seen hy hok hs hw hpath fun hp => hpre ((hof.isPrefixOf_iff _).mpr hp)

/-- **The lookup** answers what some epoch since its start maps the key to. -/
theorem wp_get (hget : C.CanGet t Γ.lo key P Q) (hh : ∀ l, Γ.held l = none)
    (hc : Γ.clear = none) (hx : C.At live t Γ P x) :
    C.rg.wp live t (get key) (fun a y => Back live t Γ (Q a) y) x := by
  refine RG.wp_iter (δ := ℕ) (fun _ y => Back live t Γ P y) (fun _ _ => 0) (fun _ y hy => ?_)
    ⟨Γ, .rfl, hx⟩
  obtain ⟨Δ, hΔ, hy⟩ := hy
  refine RG.wp_intro fun hok => ?_
  have hi := ok_tree hok
  have hroot := hi.root
  -- A root that is no inner node answers at once.
  have hnow : (∀ n, (tree y).root ≠ .node n) →
      Upd t (scene y) (scene y).leafs (scene y).view (Q ((tree y).root.map key)) := by
    intro hn
    have := hget (scene y) (shadow y).cur (ok_client hok) hy.client
      (hΔ.lo ▸ hy.knows.lo) le_rfl
    have hmap : (scene y).view.map (shadow y).cur key = (tree y).root.map key := by
      rw [hroot] at hn ⊢
      exact hi.wf.map_slot (Forest.at_root _) hn List.nil_prefix
    rwa [hmap] at this
  cases hr : (tree y).root with
  | null =>
    rw [hr] at hnow
    refine RG.wp_seq (wp_load hy rfl fun _ => hnow (by simp)) ?_
    rintro (r : Slot) z - ⟨rfl, hz, -⟩
    rw [show (execTree .loadRoot (tree y)).1 = .null from hr]
    exact RG.wp_ret ⟨Δ, hΔ, hz⟩
  | leaf l =>
    rw [hr] at hnow
    refine RG.wp_seq (wp_load hy rfl fun _ => hnow (by simp)) ?_
    rintro (r : Slot) z - ⟨rfl, hz, -⟩
    rw [show (execTree .loadRoot (tree y)).1 = .leaf l from hr]
    refine RG.wp_ret ⟨Δ, hΔ, ?_⟩
    simpa only [Slot.map, eq_comm] using hz
  | node n =>
    refine RG.wp_seq (wp_load' hy rfl) ?_
    rintro (r : Slot) z hokz ⟨rfl, hz, hlater⟩
    rw [show (execTree .loadRoot (tree y)).1 = .node n from hr]
    have hz' : C.At live t (Δ.seeTop (.node n) (shadow y).cur) P z :=
      .later (hr ▸ hy.knows.seeTop) hi hlater hz.client
    refine RG.wp_seq (K := fun r u => (r = none → live = false ∧ Back live t Γ P u) ∧
      ∀ a, r = some a → Back live t Γ (Q a) u) ?_ ?_
    · refine RG.wp_iter (δ := ℕ)
        (fun s u => (live = true → s.2.2 ≤ key.length) ∧
          ∃ b, Descending live t Γ P key (parentFrom b s.2.1) s.1 s.2.2 u)
        (fun s _ => key.length - s.2.2) ?_ (s := (n, none, 0)) ?_
      · rintro ⟨c, parent, d⟩ u ⟨hd, b, hu⟩
        refine RG.wp_mono (wp_getLevel hget hh hc hu) ?_
        rintro (⟨c', parent', d'⟩ | _ | a) w - hw
        · obtain ⟨h1, h2, b', h3⟩ := hw
          refine ⟨⟨h2, b', h3⟩, fun hl => ?_⟩
          have := h2 hl
          simp only
          omega
        · exact ⟨fun _ => hw, fun a h => by simp at h⟩
        · refine ⟨fun h => by simp at h, fun a' h => ?_⟩
          obtain rfl : a = a' := by simpa using h
          exact hw
      · exact ⟨fun _ => Nat.zero_le _, 0, _, hΔ.seeTop, hz', by simp, Nat.zero_le _, _, rfl⟩
    · rintro (_ | a) u - ⟨h1, h2⟩
      · obtain ⟨hl, hu⟩ := h1 rfl
        exact RG.wp_ret ⟨hu, fun hl' => by simp [hl] at hl'⟩
      · exact RG.wp_ret (h2 a rfl)

end Client

end Artmap
