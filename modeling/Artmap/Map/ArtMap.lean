import Artmap.Map.Hooks

/-!
# `ArtMap` (`src/tree.rs`, `src/raw`)

The operations of the heap map, over one tree: lookups, inserts in both modes, removes by key
and of an exact leaf, `clear` and `shrink_to_fit`.  Their meaning is that of a finite map from
keys to leaves.
-/

namespace Artmap

namespace ArtMap

/-- The operations of the map. -/
inductive Op where
  | get (key : Key)
  /-- An insert of the leaf that it builds. -/
  | insert (l : Leaf) (mode : Mode)
  | removeKey (key : Key)
  | removeLeaf (l : Leaf)
  | clear
  | shrinkToFit
  deriving DecidableEq

/-- What they answer with. -/
inductive Ret where
  | entry (o : Option Leaf)
  | outcome (o : Outcome)
  | removed (b : Bool)
  | done
  /-- There was no room; this cannot happen on the heap. -/
  | full
  deriving DecidableEq

/-- The programs of the operations. -/
def code : Op → TreeM Ret
  | .get key => do
    let r ← Artmap.get key
    return .entry r
  | .insert l mode => do
    let (r, owner) ← Artmap.insert .plain l mode 1
    owner.drop
    return match r with
      | some o => .outcome o
      | none => .full
  | .removeKey key => do
    let r ← Artmap.removeKey key
    return .entry r
  | .removeLeaf l => do
    let r ← Artmap.removeLeaf l
    return .removed r
  | .clear => do
    Artmap.clear .plain
    return .done
  | .shrinkToFit => do
    Artmap.shrinkToFit
    return .done

/-- What an insert does to a finite map. -/
def insertStep (m : Key → Option Leaf) (l : Leaf) : Mode → (Key → Option Leaf) × Ret
  | .replace =>
    (Function.update m l.key (some l), .outcome (match m l.key with
      | none => .inserted l
      | some old => .replaced old))
  | .insertIfAbsent =>
    match m l.key with
    | none => (Function.update m l.key (some l), .outcome (.inserted l))
    | some old => (m, .outcome (.existing old))

/-- What the operations do to a finite map. -/
def step (m : Key → Option Leaf) : Op → (Key → Option Leaf) × Ret
  | .get key => (m, .entry (m key))
  | .insert l mode => insertStep m l mode
  | .removeKey key => (Function.update m key none, .entry (m key))
  | .removeLeaf l =>
    if m l.key = some l then (Function.update m l.key none, .removed true)
    else (m, .removed false)
  | .clear => (fun _ => none, .done)
  | .shrinkToFit => (m, .done)

/-- The heap map. -/
@[reducible] def interface : Interface where
  Op := Op
  Ret := Ret
  code := code
  step := step
  builds
    | .insert l _ => some l
    | _ => none
  takes
    | .removeKey key => some key
    | .removeLeaf l => some l.key
    | _ => none
  clears op := op = .clear
  puts
    | .insert l _, .outcome (.inserted _) => some l
    | .insert l _, .outcome (.replaced _) => some l
    | _, _ => none
  roomy := True

open Interface Client

variable {live : Bool} {t id lo : ℕ} {w : interface.client.W} {key : Key} {l old : Leaf}
  {mode : Mode} {op : Op}

/-- A call that was given no leaf. -/
abbrev waiting (t id : ℕ) (op : Op) (lo : ℕ) : interface.client.Assertion t :=
  Interface.waiting (M := interface) t id op lo

/-- A call that has taken effect and has nothing left in its hands. -/
abbrev answered (t id : ℕ) (op : Op) (a : Ret) (lo : ℕ) : interface.client.Assertion t :=
  Interface.answered (M := interface) t id op a lo

/-! ## The insert -/

/-- The answer of an insert. -/
def inserted : Option Outcome → Ret
  | some o => .outcome o
  | none => .full

lemma insert_inserts (l : Leaf) (mode : Mode) :
    Inserts interface (.insert l mode) l mode inserted where
  put m hm := by
    cases mode <;> simp [step, insertStep, hm, inserted]
  swap hmode m old hm := by
    subst hmode
    simp [step, insertStep, hm, inserted]
  find hmode m old hm := by
    subst hmode
    simp [step, insertStep, hm, inserted]
  puts o l' hl' := by
    rcases o with _ | _ | _ | _ <;> simp_all [inserted]
  puts_find _ _ := rfl
  fail h := absurd trivial h

/-! ## The removes -/

lemma removeKey_removes (key : Key) :
    Removes interface (.removeKey key) key (fun l => decide (l.key = key)) .entry where
  accepts_key := by simp
  takes := rfl
  take m l _ hm := by simp [step, hm]
  miss m hm := by
    cases hm' : m key with
    | none => simp [step, hm']
    | some l => simpa [(hm l hm').1] using (hm l hm').2
  puts _ := rfl

lemma removeLeaf_removes (l : Leaf) :
    Removes interface (.removeLeaf l) l.key (fun c => decide (c = l)) (fun o => .removed o.isSome)
    where
  accepts_key hl := by rw [of_decide_eq_true hl]
  takes := rfl
  take m l' hl' hm := by
    obtain rfl : l' = l := of_decide_eq_true hl'
    simp [step, hm]
  miss m hm := by
    have hno : m l.key ≠ some l := fun hl => by simpa using (hm l hl).2
    simp [step, hno]
  puts _ := rfl

/-- A remove of an exact leaf takes effect at once if the leaf has been removed already. -/
lemma wp_loadRemoved {Γ : Know}
    (hx : interface.client.At live t Γ (waiting t id (.removeLeaf l) lo) w) :
    interface.client.rg.wp live t (onLeaf (.loadRemoved l)) (fun (b : Bool) y =>
      (b = true → interface.client.At live t Γ
        (answered t id (.removeLeaf l) (.removed false) lo) y) ∧
      (b = false → interface.client.At live t Γ (waiting t id (.removeLeaf l) lo) y)) w := by
  refine RG.wp_intro fun hok => ?_
  have hi : Interface.Inv (M := interface) (scene w) := ok_client hok
  have hlater : ∀ (R : interface.client.Assertion t) y,
      Later live t (tree w) (shadow w) y → R (scene y) → interface.client.At live t Γ R y :=
    fun R y hy hR => .later hx.knows (ok_tree hok) hy hR
  by_cases hr : (scene w).leafs.removed l = true
  · refine wp_leaf (P := answered t id (.removeLeaf l) (.removed false) lo) hok trivial ?_
      fun y hy hR => ⟨fun _ => hlater _ y hy hR, fun hb => ?_⟩
    · refine can_answer (M := interface) hi hx.client (hi.since_le hx.client) le_rfl ?_ rfl
      -- A leaf that was removed is not in the current map.
      have hno : (scene w).view.map (scene w).view.cur l.key ≠ some l := by
        intro hl
        have hst := (hi.leaf.removed l).mp hr
        rcases hi.leaf.mapped _ _ _ hl with h | ⟨h, -⟩
        · simp [h, LeafState.Removed] at hst
        · exact lt_irrefl _ h
      simp [step, hno]
    · rw [show (execLeaf t (.loadRemoved l) (scene w).leafs).1 = _ from hr] at hb
      simp at hb
  · refine wp_leaf (P := waiting t id (.removeLeaf l) lo) hok trivial (.rfl hi hx.client)
      fun y hy hR => ⟨fun hb => absurd hb hr, fun _ => hlater _ y hy hR⟩

/-! ## The clear -/

/-- The steps of a clear. -/
def clearHooks (t id lo : ℕ) :
    ClearHooks (C := interface.client) live t .plain (fun _ => return 1) (waiting t id .clear lo)
      (answered t id .clear .done lo) where
  walk e T U c := sweeps (M := interface) t ⟨id, .clear, some .done⟩ lo e T U c
  counted e T U c l c' :=
    { holds := fun x => c' = 1 ∧
        counts (M := interface) t ⟨id, .clear, some .done⟩ lo e T U c l x
      stable := fun hr hx => ⟨hx.1, (counts (M := interface) t _ lo e T U c l).stable hr hx.2⟩ }
  can_detach x hi hx hnext := Interface.can_detach hi hx hnext (fun _ => rfl) rfl rfl
  can_skip x v hi hx hnext hnone hv hfr :=
    Interface.can_skip hi hx hnext hnone hv hfr (fun _ => rfl) rfl rfl
  can_count hx hmap hfr hT :=
    RG.wp_ret ⟨⟨hx.knows, rfl, hx.client, hmap, hfr, hT⟩, .refl _⟩
  can_mark e T U c l c' x hi hx := by
    obtain ⟨rfl, hx⟩ := hx
    exact step_sweep (M := interface) x hi hx
  can_retire e T U c l := step_discard (M := interface)
  can_finish e T c x v hi hx hall hv hfr :=
    ⟨trivial, Interface.can_finish (M := interface) hi hx hall hv hfr⟩
  clearing {y} hx := ⟨id, .clear, by
    show ((scene y).ghost.run t).map _ = _
    rw [hx.run]
    rfl, rfl⟩

/-! ## The operations -/

/-- **The operations of the heap map** run safely, take effect once and leave nothing
behind. -/
theorem code_ok (h : Starts (M := interface) t id op w) :
    interface.client.rg.wp live t (code op) (Ends (M := interface) t id op) w := by
  cases op with
  | get key =>
    refine RG.wp_seq (wp_get (can_get (M := interface) (f := .entry)
      (fun _ => rfl) fun _ => rfl) (fun _ => rfl) rfl (start_at h rfl)) ?_
    rintro a y - ⟨Δ, hΔ, hy⟩
    exact RG.wp_ret (ends_answered hΔ.idle hy)
  | insert l mode =>
    refine RG.wp_seq (wp_insert (insertHooks t id _ (insert_inserts l mode)) (fun _ => rfl) rfl
      (fun _ => rfl) (start_inserting h rfl)) ?_
    rintro ⟨o, owner⟩ y - ⟨ho, Δ, hq, hpriv, hy, -⟩
    obtain rfl : owner = ownerAfter l o := ho
    refine RG.wp_seq (wp_drop ⟨hy.knows, hy.client.1⟩) ?_
    rintro - z - hz
    cases o with
    | none => exact RG.wp_ret (ends_quiet hq hpriv hz)
    | some o => exact RG.wp_ret (ends_quiet hq hpriv hz)
  | removeKey key =>
    refine RG.wp_seq (wp_removeConfirmed (removeHooks t id _ (removeKey_removes key)) (fun _ => rfl)
      rfl rfl (start_at h rfl)) ?_
    rintro a y - ⟨Δ, hΔ, hy⟩
    exact RG.wp_ret (ends_answered hΔ hy)
  | removeLeaf l =>
    refine RG.wp_seq (RG.wp_seq (wp_loadRemoved (start_at h rfl)) ?_) fun b y _ hb => RG.wp_ret hb
    rintro (_ | _) y - ⟨h1, h2⟩
    · refine RG.wp_seq (wp_removeConfirmed (removeHooks t id _ (removeLeaf_removes l))
        (fun _ => rfl) rfl rfl (h2 rfl)) ?_
      rintro a z - ⟨Δ, hΔ, hz⟩
      exact RG.wp_ret (ends_answered hΔ hz)
    · exact RG.wp_ret (ends_answered .rfl (h1 rfl))
  | clear =>
    refine RG.wp_seq (wp_clearCounting (clearHooks t id _) (start_at h rfl) (fun _ => rfl) rfl) ?_
    rintro - y - ⟨Δ, hΔ, hy⟩
    exact RG.wp_ret (ends_answered hΔ hy)
  | shrinkToFit =>
    refine RG.wp_seq (wp_shrinkToFit (R := answered t id .shrinkToFit .done (shadow w).cur)
      (fun x hi hx => can_answer (M := interface) hi hx (hi.since_le hx) le_rfl rfl rfl)
      (fun _ => rfl) rfl (fun _ => rfl) (start_at h rfl)) ?_
    rintro - y - ⟨Δ, hΔ, hy⟩
    exact RG.wp_ret (ends_answered hΔ hy)

end ArtMap

end Artmap
