import Artmap.Forest.Basic

/-!
# Surgery on forests

The elementary changes that the operations of the tree are made of, each of which keeps a
forest well-formed:

* `put`: a location that holds no node takes another leaf, or none;
* `setExact`: a node takes another exact leaf, or none;
* `copy`: a fresh node takes the place of a node, with its content;
* `plant`: a fresh node without inner children takes the place of a leaf or of nothing;
* `prune`: a node without inner children gives way to a leaf or to nothing;
* `wrap`: a fresh node goes above a node and takes over the upper part of its prefix;
* `unwrap`: a node gives way to its only child, which takes over its prefix.

Only `put` and `setExact` change the map.  Growing a node is a `copy` and a `put`; a prefix
split is a `wrap` and a `put` or `setExact`; a chain of prefix nodes is a series of `plant`s;
a merge is an `unwrap` and a `copy`.
-/

namespace Artmap

open scoped List

namespace Forest

variable {F : Forest} {ℓ ℓ' : Loc} {e e' : ℕ} {p p' : List Byte} {n m c : NodeId} {b : Byte}
  {s : Slot}

/-- The forest with another slot at a location. -/
def setSlot (F : Forest) (ℓ : Loc) (s : Slot) : Forest :=
  match ℓ with
  | .root e => { F with root := Function.update F.root e s }
  | .child n b => { F with cont := Function.update F.cont n ((F.cont n).setChild b s) }

@[simp] lemma setSlot_place : (F.setSlot ℓ s).place = F.place := by
  cases ℓ <;> rfl

@[simp] lemma setSlot_map : (F.setSlot ℓ s).map = F.map := by
  cases ℓ <;> rfl

@[simp] lemma setSlot_pre : (F.setSlot ℓ s).pre n = F.pre n := by
  cases ℓ with
  | root e => rfl
  | child n' b =>
    by_cases h : n = n'
    · subst h
      simp [setSlot, pre]
    · simp [setSlot, pre, h]

@[simp] lemma setSlot_exact : ((F.setSlot ℓ s).cont n).exact = (F.cont n).exact := by
  cases ℓ with
  | root e => rfl
  | child n' b =>
    by_cases h : n = n'
    · subst h
      simp [setSlot]
    · simp [setSlot, h]

lemma setSlot_cont_of_ne (h : ∀ b, ℓ ≠ .child n b) : (F.setSlot ℓ s).cont n = F.cont n := by
  cases ℓ with
  | root e => rfl
  | child n' b =>
    have hn : n ≠ n' := fun hn => h b (by rw [hn])
    simp [setSlot, hn]

@[simp] lemma setSlot_at : (F.setSlot ℓ s).At ℓ' e p ↔ F.At ℓ' e p := by
  cases ℓ' <;> simp [At]

lemma setSlot_slot : (F.setSlot ℓ s).slot ℓ' = if ℓ' = ℓ then s else F.slot ℓ' := by
  cases ℓ with
  | root e =>
    cases ℓ' with
    | root e' =>
      by_cases h : e' = e
      · subst h
        simp [setSlot, slot]
      · simp [setSlot, slot, h]
    | child n b => simp [setSlot, slot]
  | child n b =>
    cases ℓ' with
    | root e' => simp [setSlot, slot]
    | child n' b' =>
      by_cases h : n' = n
      · subst h
        by_cases hb : b' = b
        · subst hb
          simp [setSlot, slot]
        · simp [setSlot, slot, hb]
      · simp [setSlot, slot, h]

/-! ## Leaves -/

/-- A location that holds no node takes `s`, a leaf or null. -/
def put (F : Forest) (ℓ : Loc) (e : ℕ) (p : List Byte) (s : Slot) : Forest :=
  { F.setSlot ℓ s with
    map := fun e' k => if e' = e ∧ p <+: k then s.map k else F.map e' k }

lemma put_map : (F.put ℓ e p s).map e' =
    fun k => if e' = e ∧ p <+: k then s.map k else F.map e' k := rfl

@[simp] lemma put_place : (F.put ℓ e p s).place = F.place := setSlot_place

@[simp] lemma put_cont : (F.put ℓ e p s).cont = (F.setSlot ℓ s).cont := rfl

@[simp] lemma put_pre : (F.put ℓ e p s).pre n = F.pre n := setSlot_pre

@[simp] lemma put_at : (F.put ℓ e p s).At ℓ' e' p' ↔ F.At ℓ' e' p' := by
  cases ℓ' <;> simp [At]

lemma put_slot : (F.put ℓ e p s).slot ℓ' = if ℓ' = ℓ then s else F.slot ℓ' := by
  rw [← setSlot_slot]
  cases ℓ' <;> rfl

theorem WF.put (hF : F.WF) (h : F.At ℓ e p) (hold : ∀ c, F.slot ℓ ≠ .node c)
    (hnew : ∀ c, s ≠ .node c) (hkey : ∀ l, s = .leaf l → p <+: l.key) :
    (F.put ℓ e p s).WF := by
  -- A key below the location is below no other location without a node.
  have hother : ∀ {ℓ' p' k}, F.At ℓ' e p' → (∀ c, F.slot ℓ' ≠ .node c) → ℓ' ≠ ℓ →
      p <+: k → ¬ p' <+: k := by
    intro ℓ' p' k h' hs' hne hk hk'
    rcases le_total p.length p'.length with hle | hle
    · exact hne (hF.chain_leaf h h' (List.prefix_of_prefix_length_le hk hk' hle) hold).symm
    · exact hne (hF.chain_leaf h' h (List.prefix_of_prefix_length_le hk' hk hle) hs')
  -- Nor does it leave a node.
  have hnode : ∀ {n q k}, F.place n = some (e, q) → p <+: k → q <+: k →
      ∃ b, q ++ F.pre n ++ [b] <+: p := by
    intro n q k hn hk hq
    rcases le_total p.length q.length with hle | hle
    · obtain ⟨ℓn, hatn, hsn⟩ := hF.placed hn
      have heq := hF.chain_leaf h hatn (List.prefix_of_prefix_length_le hk hq hle) hold
      subst heq
      exact absurd hsn (hold n)
    · rcases hF.through hn h (List.prefix_of_prefix_length_le hq hk hle) with ⟨hs, -⟩ | hb
      · exact absurd hs (hold n)
      · exact hb
  refine ⟨fun {ℓ' e' p'} h' => ?_, fun {n e' q} hn => ?_, fun {n e' q} hn => ?_,
    fun {e' k l} hk => ?_⟩
  · rw [put_at] at h'
    rw [put_slot]
    by_cases hℓ : ℓ' = ℓ
    · subst hℓ
      obtain ⟨rfl, rfl⟩ := h'.functional h
      rw [if_pos rfl]
      cases s with
      | null =>
        intro k hk
        simp [put_map, hk, Slot.map]
      | leaf l =>
        refine ⟨hkey l rfl, fun k hk => ?_⟩
        simp [put_map, hk, Slot.map]
      | node c => exact absurd rfl (hnew c)
    · rw [if_neg hℓ]
      have hh := hF.holds h'
      have hsame : (∀ c, F.slot ℓ' ≠ .node c) → ∀ k, p' <+: k →
          (F.put ℓ e p s).map e' k = F.map e' k := by
        intro hs' k hk
        simp only [put_map]
        rw [if_neg]
        rintro ⟨rfl, hpk⟩
        exact hother h' hs' hℓ hpk hk
      cases hs : F.slot ℓ' with
      | null =>
        rw [hs] at hh
        intro k hk
        rw [hsame (by simp [hs]) k hk]
        exact hh k hk
      | leaf l =>
        rw [hs] at hh
        refine ⟨hh.1, fun k hk => ?_⟩
        rw [hsame (by simp [hs]) k hk]
        exact hh.2 k hk
      | node c =>
        rw [hs] at hh
        simpa [Holds] using hh
  · rw [put_place] at hn
    obtain ⟨ℓn, hatn, hsn⟩ := hF.placed hn
    refine ⟨ℓn, put_at.mpr hatn, ?_⟩
    rw [put_slot, if_neg, hsn]
    rintro rfl
    exact hold n hsn
  · rw [put_place] at hn
    have hok := hF.node hn
    refine ⟨by simpa using hok.len, fun k hq hoff => ?_, ?_⟩
    · rw [put_pre] at hoff
      simp only [put_map]
      rw [if_neg]
      · exact hok.off k hq hoff
      · rintro ⟨rfl, hpk⟩
        obtain ⟨b, hb⟩ := hnode hn hpk hq
        exact hoff (((List.prefix_append _ _).trans hb).trans hpk)
    · rw [put_pre]
      simp only [put_map, put_cont, setSlot_exact]
      rw [if_neg]
      · exact hok.exact
      · rintro ⟨rfl, hpk⟩
        obtain ⟨b, hb⟩ := hnode hn hpk (List.prefix_append _ _)
        have := (hb.trans hpk).length_le
        simp at this
  · simp only [put_map] at hk
    split at hk
    · cases s with
      | leaf l' =>
        simp only [Slot.map, Option.ite_none_right_eq_some, Option.some.injEq] at hk
        obtain ⟨rfl, rfl⟩ := hk
        rfl
      | null => simp [Slot.map] at hk
      | node c => simp [Slot.map] at hk
    · exact hF.key hk

/-- Node `n`, placed at `(e, p)`, takes another exact leaf. -/
def setExact (F : Forest) (n : NodeId) (e : ℕ) (p : List Byte) (x : Option Leaf) : Forest :=
  { F with
    cont := Function.update F.cont n { F.cont n with exact := x }
    map := fun e' k => if e' = e ∧ k = p ++ F.pre n then x else F.map e' k }

@[simp] lemma setExact_pre {x : Option Leaf} : (F.setExact n e p x).pre m = F.pre m := by
  by_cases h : m = n
  · subst h
    simp [setExact, pre]
  · simp [setExact, pre, h]

@[simp] lemma setExact_at {x : Option Leaf} :
    (F.setExact n e p x).At ℓ e' p' ↔ F.At ℓ e' p' := by
  cases ℓ with
  | root e₀ => rfl
  | child m b => simp only [At, setExact_pre]; rfl

@[simp] lemma setExact_slot {x : Option Leaf} : (F.setExact n e p x).slot ℓ = F.slot ℓ := by
  cases ℓ with
  | root e => rfl
  | child m b =>
    by_cases h : m = n
    · subst h
      simp [setExact, slot]
    · simp [setExact, slot, h]

theorem WF.setExact (hF : F.WF) (hn : F.place n = some (e, p)) {x : Option Leaf}
    (hx : ∀ l, x = some l → l.key = p ++ F.pre n) : (F.setExact n e p x).WF := by
  obtain ⟨ℓn, hatn, hsn⟩ := hF.placed hn
  have hother : ∀ {ℓ' p'}, F.At ℓ' e p' → (∀ c, F.slot ℓ' ≠ .node c) →
      ¬ p' <+: p ++ F.pre n := by
    intro ℓ' p' h' hs' hk'
    rcases le_total p.length p'.length with hle | hle
    · have hpp := List.prefix_of_prefix_length_le (List.prefix_append p (F.pre n)) hk' hle
      rcases hF.through hn h' hpp with ⟨hs, -⟩ | ⟨b, hb⟩
      · exact hs' n hs
      · have := (hb.trans hk').length_le
        simp at this
    · have hpp := List.prefix_of_prefix_length_le hk' (List.prefix_append p (F.pre n)) hle
      have heq := hF.chain_leaf h' hatn hpp hs'
      subst heq
      exact hs' n hsn
  have hnode : ∀ {n' q}, F.place n' = some (e, q) → n' ≠ n → q <+: p ++ F.pre n →
      ∃ b, q ++ F.pre n' ++ [b] <+: p := by
    intro n' q hn' hne hq
    rcases le_total p.length q.length with hle | hle
    · have hpq := List.prefix_of_prefix_length_le (List.prefix_append p (F.pre n)) hq hle
      obtain ⟨ℓ', hat', hs'⟩ := hF.placed hn'
      rcases hF.through hn hat' hpq with ⟨hs, -⟩ | ⟨b, hb⟩
      · rw [hs'] at hs
        exact absurd (by simpa using hs) hne
      · have := (hb.trans hq).length_le
        simp at this
    · have hqp := List.prefix_of_prefix_length_le hq (List.prefix_append p (F.pre n)) hle
      rcases hF.through hn' hatn hqp with ⟨hs, -⟩ | hb
      · rw [hsn] at hs
        exact absurd (by simpa using hs.symm) hne
      · exact hb
  refine ⟨fun {ℓ' e' p'} h' => ?_, fun {n' e' q} hn' => ?_, fun {n' e' q} hn' => ?_,
    fun {e' k l} hk => ?_⟩
  · rw [setExact_at] at h'
    rw [setExact_slot]
    have hh := hF.holds h'
    have hsame : (∀ c, F.slot ℓ' ≠ .node c) → ∀ k, p' <+: k →
        (F.setExact n e p x).map e' k = F.map e' k := by
      intro hs' k hk
      show (if e' = e ∧ k = p ++ F.pre n then x else F.map e' k) = F.map e' k
      rw [if_neg]
      rintro ⟨rfl, rfl⟩
      exact hother h' hs' hk
    cases hs : F.slot ℓ' with
    | null =>
      rw [hs] at hh
      intro k hk
      rw [hsame (by simp [hs]) k hk]
      exact hh k hk
    | leaf l =>
      rw [hs] at hh
      refine ⟨hh.1, fun k hk => ?_⟩
      rw [hsame (by simp [hs]) k hk]
      exact hh.2 k hk
    | node c =>
      rw [hs] at hh
      exact hh
  · obtain ⟨ℓ', hat', hs'⟩ := hF.placed hn'
    exact ⟨ℓ', setExact_at.mpr hat', by rw [setExact_slot, hs']⟩
  · have hok := hF.node hn'
    refine ⟨by simpa using hok.len, fun k hq hoff => ?_, ?_⟩
    · rw [setExact_pre] at hoff
      show (if e' = e ∧ k = p ++ F.pre n then x else F.map e' k) = none
      rw [if_neg]
      · exact hok.off k hq hoff
      · rintro ⟨rfl, rfl⟩
        by_cases hne : n' = n
        · subst hne
          have hn'' : F.place n' = some (e', q) := hn'
          rw [hn] at hn''
          simp only [Option.some.injEq, Prod.mk.injEq, true_and] at hn''
          subst hn''
          exact hoff List.prefix_rfl
        · obtain ⟨b, hb⟩ := hnode hn' hne hq
          exact hoff (((List.prefix_append _ _).trans hb).trans (List.prefix_append _ _))
    · rw [setExact_pre]
      show (if e' = e ∧ q ++ F.pre n' = p ++ F.pre n then x else F.map e' (q ++ F.pre n')) = _
      by_cases hne : n' = n
      · subst hne
        have hn'' : F.place n' = some (e', q) := hn'
        rw [hn] at hn''
        simp only [Option.some.injEq, Prod.mk.injEq] at hn''
        obtain ⟨rfl, rfl⟩ := hn''
        simp [Forest.setExact]
      · rw [if_neg]
        · simpa [Forest.setExact, hne] using hok.exact
        · rintro ⟨rfl, heq⟩
          obtain ⟨b, hb⟩ := hnode hn' hne (heq ▸ List.prefix_append _ _)
          have h1 := hb.length_le
          have h2 := congrArg List.length heq
          simp only [List.length_append, List.length_singleton] at h1 h2
          omega
  · have hk' : (if e' = e ∧ k = p ++ F.pre n then x else F.map e' k) = some l := hk
    split at hk'
    · rename_i hc
      rw [hc.2]
      exact hx l hk'
    · exact hF.key hk'

/-! ## Nodes -/

/-- A slot that is right stays right when no node in it moves and the map stays. -/
lemma Holds.mono {F' : Forest} (h : F.Holds s e p) (hmap : F'.map = F.map)
    (hplace : ∀ c, s = .node c → F'.place c = F.place c) : F'.Holds s e p := by
  cases s with
  | null => simpa only [Holds, hmap] using h
  | leaf l => simpa only [Holds, hmap] using h
  | node c =>
    have h' : F.place c = some (e, p) := h
    show F'.place c = some (e, p)
    rw [hplace c rfl, h']

/-- A node is not in one of its own slots. -/
lemma WF.not_own_child (hF : F.WF) (h : F.At ℓ e p) (hs : F.slot ℓ = .node n) :
    ℓ ≠ .child n b := by
  rintro rfl
  obtain ⟨q, hq, rfl⟩ := h
  have hpl : F.place n = some (e, q ++ F.pre n ++ [b]) := hF.place_of_slot (at_child hq b) hs
  rw [hq] at hpl
  simp only [Option.some.injEq, Prod.mk.injEq, List.append_assoc,
    List.self_eq_append_right, List.append_eq_nil_iff, List.cons_ne_self, and_false] at hpl

/-- A node that is not placed has no locations. -/
lemma not_at_child (hm : F.place m = none) : ¬ F.At (.child m b) e p := by
  rintro ⟨q, hq, -⟩
  simp [hm] at hq

/-- A node that is not placed is in no slot. -/
lemma WF.slot_ne_unplaced (hF : F.WF) (h : F.At ℓ e p) (hm : F.place m = none) :
    F.slot ℓ ≠ .node m := by
  intro hs
  have := hF.place_of_slot h hs
  simp [hm] at this

/-- The fresh node `m` takes the place of node `n` at location `ℓ`, with its content. -/
def copy (F : Forest) (ℓ : Loc) (n m : NodeId) : Forest :=
  { F.setSlot ℓ (.node m) with
    place := Function.update (Function.update F.place m (F.place n)) n none
    cont := Function.update (F.setSlot ℓ (.node m)).cont m (F.cont n) }

section Copy

variable (h : F.At ℓ e p) (hs : F.slot ℓ = .node n) (hm : F.place m = none)

lemma copy_pre : (F.copy ℓ n m).pre c = if c = m then F.pre n else F.pre c := by
  by_cases hc : c = m
  · subst hc
    simp [copy, pre]
  · have := setSlot_pre (F := F) (ℓ := ℓ) (s := .node m) (n := c)
    simpa [copy, pre, hc] using this

lemma copy_slot_of_ne (hx : c ≠ m) : (F.copy ℓ n m).slot (.child c b) =
    (F.setSlot ℓ (.node m)).slot (.child c b) := by
  simp [copy, slot, hx]

lemma copy_slot_new : (F.copy ℓ n m).slot (.child m b) = F.slot (.child n b) := by
  simp [copy, slot]

include h hs hm

theorem WF.copy (hF : F.WF) : (F.copy ℓ n m).WF := by
  have hn : F.place n = some (e, p) := hF.place_of_slot h hs
  have hnm : n ≠ m := by
    rintro rfl
    simp [hm] at hn
  have hplace : ∀ {c}, c ≠ n → c ≠ m → (F.copy ℓ n m).place c = F.place c := by
    intro c h1 h2
    simp [Forest.copy, h1, h2]
  have hpm : (F.copy ℓ n m).place m = some (e, p) := by
    simp [Forest.copy, hnm.symm, hn]
  have hpn : (F.copy ℓ n m).place n = none := by simp [Forest.copy]
  have hℓm : ∀ b, ℓ ≠ .child m b := by
    rintro b rfl
    exact not_at_child hm h
  -- Slots of other locations do not hold `n` or `m`.
  have hkeep : ∀ {ℓ' e' p'}, F.At ℓ' e' p' → ℓ' ≠ ℓ →
      (F.copy ℓ n m).Holds (F.slot ℓ') e' p' := by
    intro ℓ' e' p' h' hne
    refine (hF.holds h').mono (by simp [Forest.copy]) fun c hc => hplace ?_ ?_
    · rintro rfl
      exact hne (hF.slot_inj h' h hc hs)
    · rintro rfl
      exact hF.slot_ne_unplaced h' hm hc
  -- Where a location of the copy comes from.
  have hat : ∀ {ℓ' e' p'}, (F.copy ℓ n m).At ℓ' e' p' →
      (∃ b, ℓ' = .child m b ∧ F.At (.child n b) e' p') ∨
        ((∀ b, ℓ' ≠ .child m b) ∧ F.At ℓ' e' p') := by
    intro ℓ' e' p' h'
    cases ℓ' with
    | root e₀ => exact .inr ⟨by simp, h'⟩
    | child c b =>
      obtain ⟨q, hq, rfl⟩ := h'
      by_cases hcm : c = m
      · subst hcm
        rw [hpm] at hq
        simp only [Option.some.injEq, Prod.mk.injEq] at hq
        obtain ⟨rfl, rfl⟩ := hq
        exact .inl ⟨b, rfl, p, hn, by rw [copy_pre, if_pos rfl]⟩
      · have hcn : c ≠ n := by
          rintro rfl
          simp [hpn] at hq
        rw [hplace hcn hcm] at hq
        exact .inr ⟨by simpa using hcm, q, hq, by rw [copy_pre, if_neg hcm]⟩
  refine ⟨fun {ℓ' e' p'} h' => ?_, fun {c e' q} hc => ?_, fun {c e' q} hc => ?_,
    fun {e' k l} hk => ?_⟩
  · rcases hat h' with ⟨b, rfl, hat'⟩ | ⟨hne, hat'⟩
    · rw [copy_slot_new]
      exact hkeep hat' (hF.not_own_child h hs).symm
    · have hsl : (F.copy ℓ n m).slot ℓ' = (F.setSlot ℓ (.node m)).slot ℓ' := by
        cases ℓ' with
        | root e₀ => rfl
        | child c b => exact copy_slot_of_ne (by rintro rfl; exact hne b rfl)
      rw [hsl, setSlot_slot]
      by_cases hℓ : ℓ' = ℓ
      · subst hℓ
        obtain ⟨rfl, rfl⟩ := hat'.functional h
        rw [if_pos rfl]
        exact hpm
      · rw [if_neg hℓ]
        exact hkeep hat' hℓ
  · by_cases hcm : c = m
    · subst hcm
      rw [hpm] at hc
      simp only [Option.some.injEq, Prod.mk.injEq] at hc
      obtain ⟨rfl, rfl⟩ := hc
      have hatℓ : (F.copy ℓ n c).At ℓ e p := by
        cases ℓ with
        | root e₀ => exact h
        | child x b =>
          obtain ⟨q, hq, rfl⟩ := h
          have hxn : x ≠ n := by
            rintro rfl
            exact hF.not_own_child (at_child hq b) hs rfl
          have hxm : x ≠ c := fun he => hℓm b (by rw [he])
          exact ⟨q, by rw [hplace hxn hxm, hq], by rw [copy_pre, if_neg hxm]⟩
      refine ⟨ℓ, hatℓ, ?_⟩
      have hsl : (F.copy ℓ n c).slot ℓ = (F.setSlot ℓ (.node c)).slot ℓ := by
        cases ℓ with
        | root e₀ => rfl
        | child x b => exact copy_slot_of_ne (by rintro rfl; exact hℓm b rfl)
      rw [hsl, setSlot_slot, if_pos rfl]
    · have hcn : c ≠ n := by
        rintro rfl
        simp [hpn] at hc
      rw [hplace hcn hcm] at hc
      obtain ⟨ℓc, hatc, hsc⟩ := hF.placed hc
      have hℓc : ℓc ≠ ℓ := by
        rintro rfl
        rw [hs] at hsc
        exact hcn (by simpa using hsc.symm)
      cases ℓc with
      | root e₀ => exact ⟨.root e₀, hatc, by
          show (F.setSlot ℓ (.node m)).slot (.root e₀) = _
          rw [setSlot_slot, if_neg hℓc, hsc]⟩
      | child x b =>
        by_cases hxn : x = n
        · subst hxn
          refine ⟨.child m b, ?_, by rw [copy_slot_new, hsc]⟩
          obtain ⟨q', hq', rfl⟩ := hatc
          rw [hn] at hq'
          simp only [Option.some.injEq, Prod.mk.injEq] at hq'
          obtain ⟨rfl, rfl⟩ := hq'
          exact ⟨p, hpm, by rw [copy_pre, if_pos rfl]⟩
        · have hxm : x ≠ m := by
            rintro rfl
            exact not_at_child hm hatc
          obtain ⟨q', hq', rfl⟩ := hatc
          refine ⟨.child x b, ⟨q', by rw [hplace hxn hxm, hq'], by rw [copy_pre, if_neg hxm]⟩, ?_⟩
          rw [copy_slot_of_ne hxm, setSlot_slot, if_neg hℓc, hsc]
  · have hmap : (F.copy ℓ n m).map = F.map := by simp [Forest.copy]
    by_cases hcm : c = m
    · subst hcm
      rw [hpm] at hc
      simp only [Option.some.injEq, Prod.mk.injEq] at hc
      obtain ⟨rfl, rfl⟩ := hc
      have hok := hF.node hn
      exact ⟨by rw [copy_pre, if_pos rfl]; exact hok.len,
        by rw [copy_pre, if_pos rfl, hmap]; exact hok.off,
        by rw [copy_pre, if_pos rfl, hmap]; simpa [Forest.copy] using hok.exact⟩
    · have hcn : c ≠ n := by
        rintro rfl
        simp [hpn] at hc
      rw [hplace hcn hcm] at hc
      have hok := hF.node hc
      exact ⟨by rw [copy_pre, if_neg hcm]; exact hok.len,
        by rw [copy_pre, if_neg hcm, hmap]; exact hok.off,
        by rw [copy_pre, if_neg hcm, hmap]; simpa [Forest.copy, hcm] using hok.exact⟩
  · have hmap : (F.copy ℓ n m).map = F.map := by simp [Forest.copy]
    rw [hmap] at hk
    exact hF.key hk

end Copy

/-- A forest is well-formed if it differs from a well-formed one in few places, and is right
there. -/
lemma WF.graft (hF : F.WF) {F' : Forest} (hmap : F'.map = F.map)
    (hold : ∀ {ℓ' e' p'}, F'.At ℓ' e' p' → F'.Holds (F'.slot ℓ') e' p' ∨
      (F.At ℓ' e' p' ∧ F'.slot ℓ' = F.slot ℓ' ∧ ∀ c, F.slot ℓ' = .node c → F'.place c = F.place c))
    (hplaced : ∀ {c e' q}, F'.place c = some (e', q) →
      ∃ ℓ', F'.At ℓ' e' q ∧ F'.slot ℓ' = .node c)
    (hnode : ∀ {c e' q}, F'.place c = some (e', q) → F'.NodeOk c e' q ∨
      (F.place c = some (e', q) ∧ F'.pre c = F.pre c ∧ (F'.cont c).exact = (F.cont c).exact)) :
    F'.WF := by
  refine ⟨fun h' => ?_, hplaced, fun {c e' q} hc => ?_, fun hk => hF.key (hmap ▸ hk)⟩
  · rcases hold h' with hh | ⟨hat, hsl, hpl⟩
    · exact hh
    · rw [hsl]
      exact (hF.holds hat).mono hmap hpl
  · rcases hnode hc with hok | ⟨hc', hpre, hex⟩
    · exact hok
    · have hok := hF.node hc'
      exact ⟨by rw [hpre]; exact hok.len, by rw [hpre, hmap]; exact hok.off,
        by rw [hpre, hmap, hex]; exact hok.exact⟩

/-- The location of a node is not moved by changes elsewhere. -/
lemma at_of_eq {F' : Forest} (h : F.At ℓ e p)
    (hpl : ∀ x b, ℓ = .child x b → F'.place x = F.place x ∧ F'.pre x = F.pre x) :
    F'.At ℓ e p := by
  cases ℓ with
  | root e₀ => exact h
  | child x b =>
    obtain ⟨q, hq, rfl⟩ := h
    obtain ⟨h1, h2⟩ := hpl x b rfl
    exact ⟨q, h1.trans hq, by rw [h2]⟩

/-- The fresh node `m`, with content `C`, takes the place of a leaf or of nothing. -/
def plant (F : Forest) (ℓ : Loc) (e : ℕ) (p : List Byte) (m : NodeId) (C : Content) : Forest :=
  { F.setSlot ℓ (.node m) with
    place := Function.update F.place m (some (e, p))
    cont := Function.update (F.setSlot ℓ (.node m)).cont m C }

theorem WF.plant (hF : F.WF) (h : F.At ℓ e p) (hs : ∀ c, F.slot ℓ ≠ .node c)
    (hm : F.place m = none) {C : Content} (hlen : C.pre.length ≤ 16)
    (hoff : ∀ k, p <+: k → ¬ p ++ C.pre <+: k → F.map e k = none)
    (hex : F.map e (p ++ C.pre) = C.exact) (hch : ∀ b c, C.child b ≠ .node c)
    (hhold : ∀ b, F.Holds (C.child b) e (p ++ C.pre ++ [b])) : (F.plant ℓ e p m C).WF := by
  have hmap : (F.plant ℓ e p m C).map = F.map := by simp [Forest.plant]
  have hplace : ∀ {c}, c ≠ m → (F.plant ℓ e p m C).place c = F.place c := by
    intro c hc
    simp [Forest.plant, hc]
  have hpm : (F.plant ℓ e p m C).place m = some (e, p) := by simp [Forest.plant]
  have hpre : ∀ {c}, c ≠ m → (F.plant ℓ e p m C).pre c = F.pre c := by
    intro c hc
    have := setSlot_pre (F := F) (ℓ := ℓ) (s := .node m) (n := c)
    simpa [Forest.plant, Forest.pre, hc] using this
  have hprem : (F.plant ℓ e p m C).pre m = C.pre := by simp [Forest.plant, Forest.pre]
  have hslot : ∀ {ℓ'}, (∀ b, ℓ' ≠ .child m b) →
      (F.plant ℓ e p m C).slot ℓ' = if ℓ' = ℓ then .node m else F.slot ℓ' := by
    intro ℓ' hne
    rw [← setSlot_slot]
    cases ℓ' with
    | root e₀ => rfl
    | child x b =>
      have hx : x ≠ m := fun he => hne b (by rw [he])
      simp [Forest.plant, slot, hx]
  have hℓm : ∀ b, ℓ ≠ .child m b := by
    rintro b rfl
    exact not_at_child hm h
  have hatℓ : (F.plant ℓ e p m C).At ℓ e p := by
    refine at_of_eq h fun x b hx => ?_
    have hxm : x ≠ m := fun he => hℓm b (by rw [hx, he])
    exact ⟨hplace hxm, hpre hxm⟩
  refine hF.graft hmap (fun {ℓ' e' p'} h' => ?_) (fun {c e' q} hc => ?_) (fun {c e' q} hc => ?_)
  · by_cases hnew : ∃ b, ℓ' = .child m b
    · obtain ⟨b, rfl⟩ := hnew
      obtain ⟨q, hq, rfl⟩ := h'
      rw [hpm] at hq
      simp only [Option.some.injEq, Prod.mk.injEq] at hq
      obtain ⟨rfl, rfl⟩ := hq
      left
      have hsl : (F.plant ℓ e p m C).slot (.child m b) = C.child b := by
        simp [Forest.plant, slot]
      rw [hsl, hprem]
      exact (hhold b).mono hmap fun c hc => absurd hc (hch b c)
    · push Not at hnew
      by_cases hℓ : ℓ' = ℓ
      · subst hℓ
        obtain ⟨rfl, rfl⟩ := h'.functional hatℓ
        left
        rw [hslot hnew, if_pos rfl]
        exact hpm
      · right
        have hat : F.At ℓ' e' p' := by
          refine at_of_eq h' fun x b hx => ?_
          have hxm : x ≠ m := fun he => hnew b (by rw [hx, he])
          exact ⟨(hplace hxm).symm, (hpre hxm).symm⟩
        refine ⟨hat, by rw [hslot hnew, if_neg hℓ], fun c hc => hplace ?_⟩
        rintro rfl
        exact hF.slot_ne_unplaced hat hm hc
  · by_cases hcm : c = m
    · subst hcm
      rw [hpm] at hc
      simp only [Option.some.injEq, Prod.mk.injEq] at hc
      obtain ⟨rfl, rfl⟩ := hc
      exact ⟨ℓ, hatℓ, by rw [hslot hℓm, if_pos rfl]⟩
    · rw [hplace hcm] at hc
      obtain ⟨ℓc, hatc, hsc⟩ := hF.placed hc
      have hne : ∀ b, ℓc ≠ .child m b := by
        rintro b rfl
        exact not_at_child hm hatc
      have hℓc : ℓc ≠ ℓ := by
        rintro rfl
        exact hs c hsc
      refine ⟨ℓc, at_of_eq hatc fun x b hx => ?_, by rw [hslot hne, if_neg hℓc, hsc]⟩
      have hxm : x ≠ m := fun he => hne b (by rw [hx, he])
      exact ⟨hplace hxm, hpre hxm⟩
  · by_cases hcm : c = m
    · subst hcm
      rw [hpm] at hc
      simp only [Option.some.injEq, Prod.mk.injEq] at hc
      obtain ⟨rfl, rfl⟩ := hc
      left
      exact ⟨by rw [hprem]; exact hlen, by rw [hprem, hmap]; exact hoff,
        by rw [hprem, hmap, hex]; simp [Forest.plant]⟩
    · right
      refine ⟨by rw [← hplace hcm]; exact hc, hpre hcm, ?_⟩
      simp [Forest.plant, hcm]

/-- Node `n` gives way to a leaf or to nothing. -/
def prune (F : Forest) (ℓ : Loc) (n : NodeId) (s : Slot) : Forest :=
  { F.setSlot ℓ s with place := Function.update F.place n none }

theorem WF.prune (hF : F.WF) (h : F.At ℓ e p) (hs : F.slot ℓ = .node n)
    (hch : ∀ b c, (F.cont n).child b ≠ .node c) (hnew : ∀ c, s ≠ .node c)
    (hhold : F.Holds s e p) : (F.prune ℓ n s).WF := by
  have hmap : (F.prune ℓ n s).map = F.map := by simp [Forest.prune]
  have hplace : ∀ {c}, c ≠ n → (F.prune ℓ n s).place c = F.place c := by
    intro c hc
    simp [Forest.prune, hc]
  have hpn : (F.prune ℓ n s).place n = none := by simp [Forest.prune]
  have hpre : ∀ {c}, (F.prune ℓ n s).pre c = F.pre c := by
    intro c
    exact setSlot_pre
  have hslot : ∀ {ℓ'}, (F.prune ℓ n s).slot ℓ' = if ℓ' = ℓ then s else F.slot ℓ' := by
    intro ℓ'
    rw [← setSlot_slot]
    cases ℓ' <;> rfl
  have hback : ∀ {ℓ' e' p'}, (F.prune ℓ n s).At ℓ' e' p' → F.At ℓ' e' p' := by
    intro ℓ' e' p' h'
    refine at_of_eq h' fun x b hx => ?_
    have hxn : x ≠ n := by
      rintro rfl
      rw [hx] at h'
      exact not_at_child hpn h'
    exact ⟨(hplace hxn).symm, hpre.symm⟩
  refine hF.graft hmap (fun {ℓ' e' p'} h' => ?_) (fun {c e' q} hc => ?_) (fun {c e' q} hc => ?_)
  · have hat := hback h'
    by_cases hℓ : ℓ' = ℓ
    · subst hℓ
      obtain ⟨rfl, rfl⟩ := hat.functional h
      left
      rw [hslot, if_pos rfl]
      exact hhold.mono hmap fun c hc => absurd hc (hnew c)
    · right
      refine ⟨hat, by rw [hslot, if_neg hℓ], fun c hc => hplace ?_⟩
      rintro rfl
      exact hℓ (hF.slot_inj hat h hc hs)
  · have hcn : c ≠ n := by
      rintro rfl
      simp [hpn] at hc
    rw [hplace hcn] at hc
    obtain ⟨ℓc, hatc, hsc⟩ := hF.placed hc
    have hℓc : ℓc ≠ ℓ := by
      rintro rfl
      rw [hs] at hsc
      exact hcn (by simpa using hsc.symm)
    refine ⟨ℓc, at_of_eq hatc fun x b hx => ⟨hplace ?_, hpre⟩, by rw [hslot, if_neg hℓc, hsc]⟩
    rintro rfl
    rw [hx] at hsc
    exact hch b c hsc
  · right
    have hcn : c ≠ n := by
      rintro rfl
      simp [hpn] at hc
    exact ⟨by rw [← hplace hcn]; exact hc, hpre, setSlot_exact⟩

/-- The content of a node that goes above node `n`. -/
def above (x : List Byte) (y : Byte) (n : NodeId) : Content where
  pre := x
  exact := none
  child := Function.update (fun _ => .null) y (.node n)

/-- The fresh node `m` goes above node `n` and takes over `x` and the branch byte `y` from
its prefix; `z` is what is left. -/
def wrap (F : Forest) (ℓ : Loc) (e : ℕ) (p : List Byte) (n m : NodeId) (x : List Byte)
    (y : Byte) (z : List Byte) : Forest :=
  { F.setSlot ℓ (.node m) with
    place := Function.update (Function.update F.place m (some (e, p))) n
      (some (e, p ++ x ++ [y]))
    cont := Function.update
      (Function.update (F.setSlot ℓ (.node m)).cont m (above x y n)) n
      { F.cont n with pre := z } }

theorem WF.wrap (hF : F.WF) (h : F.At ℓ e p) (hs : F.slot ℓ = .node n) (hm : F.place m = none)
    {x z : List Byte} {y : Byte} (hsplit : F.pre n = x ++ y :: z) :
    (F.wrap ℓ e p n m x y z).WF := by
  set F' := F.wrap ℓ e p n m x y z with hF'
  have hn : F.place n = some (e, p) := hF.place_of_slot h hs
  have hok := hF.node hn
  have hnm : n ≠ m := by
    rintro rfl
    simp [hm] at hn
  have hmap : F'.map = F.map := by simp [hF', Forest.wrap]
  have hplace : ∀ {c}, c ≠ m → c ≠ n → F'.place c = F.place c := by
    intro c h1 h2
    simp [hF', Forest.wrap, h1, h2]
  have hpm : F'.place m = some (e, p) := by simp [hF', Forest.wrap, hnm.symm]
  have hpn : F'.place n = some (e, p ++ x ++ [y]) := by simp [hF', Forest.wrap]
  have hpre : ∀ {c}, c ≠ m → c ≠ n → F'.pre c = F.pre c := by
    intro c h1 h2
    have := setSlot_pre (F := F) (ℓ := ℓ) (s := .node m) (n := c)
    simpa [hF', Forest.wrap, Forest.pre, h1, h2] using this
  have hprem : F'.pre m = x := by
    simp [hF', Forest.wrap, Forest.pre, hnm.symm, above]
  have hpren : F'.pre n = z := by simp [hF', Forest.wrap, Forest.pre]
  have hbase : p ++ x ++ [y] ++ z = p ++ F.pre n := by simp [hsplit]
  have hℓm : ∀ b, ℓ ≠ .child m b := by
    rintro b rfl
    exact not_at_child hm h
  have hℓn : ∀ b, ℓ ≠ .child n b := fun b => hF.not_own_child h hs
  have hslot : ∀ {ℓ'}, (∀ b, ℓ' ≠ .child m b) →
      F'.slot ℓ' = if ℓ' = ℓ then .node m else F.slot ℓ' := by
    intro ℓ' hne
    rw [← setSlot_slot]
    cases ℓ' with
    | root e₀ => rfl
    | child c b =>
      have hc : c ≠ m := fun he => hne b (by rw [he])
      by_cases hcn : c = n
      · subst hcn
        rw [setSlot_slot, if_neg (hℓn b).symm]
        simp [hF', Forest.wrap, slot]
      · simp [hF', Forest.wrap, slot, hc, hcn]
  -- The locations of `F'` are those of `F` and the new node's.
  have hback : ∀ {ℓ' e' p'}, (∀ b, ℓ' ≠ .child m b) → F'.At ℓ' e' p' → F.At ℓ' e' p' := by
    intro ℓ' e' p' hne h'
    cases ℓ' with
    | root e₀ => exact h'
    | child c b =>
      have hcm : c ≠ m := fun he => hne b (by rw [he])
      obtain ⟨q, hq, rfl⟩ := h'
      by_cases hcn : c = n
      · subst hcn
        rw [hpn] at hq
        simp only [Option.some.injEq, Prod.mk.injEq] at hq
        obtain ⟨rfl, rfl⟩ := hq
        exact ⟨p, hn, by rw [hpren, hbase]⟩
      · exact ⟨q, by rw [← hplace hcm hcn, hq], by rw [hpre hcm hcn]⟩
  have hforth : ∀ {ℓ' e' p'}, F.At ℓ' e' p' → F'.At ℓ' e' p' := by
    intro ℓ' e' p' h'
    cases ℓ' with
    | root e₀ => exact h'
    | child c b =>
      obtain ⟨q, hq, rfl⟩ := h'
      have hcm : c ≠ m := by
        rintro rfl
        simp [hm] at hq
      by_cases hcn : c = n
      · subst hcn
        rw [hn] at hq
        simp only [Option.some.injEq, Prod.mk.injEq] at hq
        obtain ⟨rfl, rfl⟩ := hq
        exact ⟨_, hpn, by rw [hpren, hbase]⟩
      · exact ⟨q, by rw [hplace hcm hcn, hq], by rw [hpre hcm hcn]⟩
  have hslotm : ∀ b, F'.slot (.child m b) = if b = y then .node n else .null := by
    intro b
    by_cases hb : b = y
    · simp [hF', Forest.wrap, slot, hnm.symm, above, hb]
    · simp [hF', Forest.wrap, slot, hnm.symm, above, hb]
  refine hF.graft hmap (fun {ℓ' e' p'} h' => ?_) (fun {c e' q} hc => ?_) (fun {c e' q} hc => ?_)
  · by_cases hnew : ∃ b, ℓ' = .child m b
    · obtain ⟨b, rfl⟩ := hnew
      obtain ⟨q, hq, rfl⟩ := h'
      rw [hpm] at hq
      simp only [Option.some.injEq, Prod.mk.injEq] at hq
      obtain ⟨rfl, rfl⟩ := hq
      left
      rw [hslotm, hprem]
      by_cases hb : b = y
      · rw [if_pos hb, hb]
        exact hpn
      · rw [if_neg hb]
        intro k hk
        rw [hmap]
        refine hok.off k (((List.prefix_append _ _).trans (List.prefix_append _ _)).trans hk) ?_
        intro hk'
        rw [hsplit] at hk'
        have h1 : p ++ x ++ [y] <+: k := by
          refine List.IsPrefix.trans ?_ hk'
          rw [List.append_assoc, List.prefix_append_right_inj, List.prefix_append_right_inj]
          simp
        have h2 := prefix_eq_of_length hk h1 (by simp)
        simp only [List.append_cancel_left_eq, List.cons.injEq, and_true] at h2
        exact hb h2
    · push Not at hnew
      have hat := hback hnew h'
      by_cases hℓ : ℓ' = ℓ
      · subst hℓ
        obtain ⟨rfl, rfl⟩ := hat.functional h
        left
        rw [hslot hnew, if_pos rfl]
        exact hpm
      · right
        refine ⟨hat, by rw [hslot hnew, if_neg hℓ], fun c hc => hplace ?_ ?_⟩
        · rintro rfl
          exact hF.slot_ne_unplaced hat hm hc
        · rintro rfl
          exact hℓ (hF.slot_inj hat h hc hs)
  · by_cases hcm : c = m
    · subst hcm
      rw [hpm] at hc
      simp only [Option.some.injEq, Prod.mk.injEq] at hc
      obtain ⟨rfl, rfl⟩ := hc
      exact ⟨ℓ, hforth h, by rw [hslot hℓm, if_pos rfl]⟩
    by_cases hcn : c = n
    · subst hcn
      rw [hpn] at hc
      simp only [Option.some.injEq, Prod.mk.injEq] at hc
      obtain ⟨rfl, rfl⟩ := hc
      exact ⟨.child m y, ⟨p, hpm, by rw [hprem]⟩, by rw [hslotm, if_pos rfl]⟩
    · rw [hplace hcm hcn] at hc
      obtain ⟨ℓc, hatc, hsc⟩ := hF.placed hc
      have hne : ∀ b, ℓc ≠ .child m b := by
        rintro b rfl
        exact not_at_child hm hatc
      have hℓc : ℓc ≠ ℓ := by
        rintro rfl
        rw [hs] at hsc
        exact hcn (by simpa using hsc.symm)
      exact ⟨ℓc, hforth hatc, by rw [hslot hne, if_neg hℓc, hsc]⟩
  · by_cases hcm : c = m
    · subst hcm
      rw [hpm] at hc
      simp only [Option.some.injEq, Prod.mk.injEq] at hc
      obtain ⟨rfl, rfl⟩ := hc
      left
      have hlen := hok.len
      rw [hsplit] at hlen
      refine ⟨?_, fun k hk hoff => ?_, ?_⟩
      · rw [hprem]
        simp only [List.length_append, List.length_cons] at hlen
        omega
      · rw [hmap]
        refine hok.off k hk fun hk' => hoff ?_
        rw [hprem]
        refine List.IsPrefix.trans ?_ hk'
        rw [hsplit, List.prefix_append_right_inj]
        exact List.prefix_append _ _
      · rw [hprem, hmap]
        have hnone : (F'.cont c).exact = none := by
          simp [hF', Forest.wrap, hnm.symm, above]
        rw [hnone]
        refine hok.off _ (List.prefix_append _ _) fun hk' => ?_
        have := hk'.length_le
        rw [hsplit] at this
        simp at this
    by_cases hcn : c = n
    · subst hcn
      rw [hpn] at hc
      simp only [Option.some.injEq, Prod.mk.injEq] at hc
      obtain ⟨rfl, rfl⟩ := hc
      left
      have hlen := hok.len
      rw [hsplit] at hlen
      refine ⟨?_, fun k hk hoff => ?_, ?_⟩
      · rw [hpren]
        simp only [List.length_append, List.length_cons] at hlen
        omega
      · rw [hmap]
        rw [hpren, hbase] at hoff
        refine hok.off k ?_ hoff
        refine List.IsPrefix.trans ?_ hk
        rw [List.append_assoc]
        exact List.prefix_append _ _
      · rw [hpren, hbase, hmap]
        simpa [hF', Forest.wrap] using hok.exact
    · right
      refine ⟨by rw [← hplace hcm hcn]; exact hc, hpre hcm hcn, ?_⟩
      simp [hF', Forest.wrap, hcm, hcn]

/-- Node `n` gives way to its only child `c`, at byte `y`, which takes over its prefix. -/
def unwrap (F : Forest) (ℓ : Loc) (e : ℕ) (p : List Byte) (n c : NodeId) (y : Byte) : Forest :=
  { F.setSlot ℓ (.node c) with
    place := Function.update (Function.update F.place n none) c (some (e, p))
    cont := Function.update (F.setSlot ℓ (.node c)).cont c
      { F.cont c with pre := F.pre n ++ y :: F.pre c } }

theorem WF.unwrap (hF : F.WF) (h : F.At ℓ e p) (hs : F.slot ℓ = .node n)
    (hex : (F.cont n).exact = none) {y : Byte} (hy : (F.cont n).child y = .node c)
    (hch : ∀ b, b ≠ y → (F.cont n).child b = .null)
    (hlen : (F.pre n ++ y :: F.pre c).length ≤ 16) : (F.unwrap ℓ e p n c y).WF := by
  set F' := F.unwrap ℓ e p n c y with hF'
  have hn : F.place n = some (e, p) := hF.place_of_slot h hs
  have hokn := hF.node hn
  have hc : F.place c = some (e, p ++ F.pre n ++ [y]) :=
    hF.place_of_slot (at_child hn y) hy
  have hokc := hF.node hc
  have hcn : c ≠ n := by
    rintro rfl
    exact hF.not_own_child (at_child hn y) hy rfl
  have hmap : F'.map = F.map := by simp [hF', Forest.unwrap]
  have hplace : ∀ {x}, x ≠ n → x ≠ c → F'.place x = F.place x := by
    intro x h1 h2
    simp [hF', Forest.unwrap, h1, h2]
  have hpc : F'.place c = some (e, p) := by simp [hF', Forest.unwrap]
  have hpn : F'.place n = none := by simp [hF', Forest.unwrap, hcn.symm]
  have hpre : ∀ {x}, x ≠ c → F'.pre x = F.pre x := by
    intro x h1
    have := setSlot_pre (F := F) (ℓ := ℓ) (s := .node c) (n := x)
    simpa [hF', Forest.unwrap, Forest.pre, h1] using this
  have hprec : F'.pre c = F.pre n ++ y :: F.pre c := by
    simp [hF', Forest.unwrap, Forest.pre]
  have hbase : p ++ (F.pre n ++ y :: F.pre c) = p ++ F.pre n ++ [y] ++ F.pre c := by simp
  have hℓn : ∀ b, ℓ ≠ .child n b := fun b => hF.not_own_child h hs
  have hℓc : ∀ b, ℓ ≠ .child c b := by
    rintro b rfl
    obtain ⟨q, hq, hqp⟩ := h
    rw [hc] at hq
    simp only [Option.some.injEq, Prod.mk.injEq] at hq
    rw [← hq.2] at hqp
    have := congrArg List.length hqp
    simp only [List.length_append, List.length_singleton] at this
    omega
  have hslot : ∀ {ℓ'}, F'.slot ℓ' = if ℓ' = ℓ then .node c else F.slot ℓ' := by
    intro ℓ'
    rw [← setSlot_slot]
    cases ℓ' with
    | root e₀ => rfl
    | child x b =>
      by_cases hx : x = c
      · subst hx
        rw [setSlot_slot, if_neg (hℓc b).symm]
        simp [hF', Forest.unwrap, slot]
      · simp [hF', Forest.unwrap, slot, hx]
  have hback : ∀ {ℓ' e' p'}, F'.At ℓ' e' p' → (∀ b, ℓ' ≠ .child n b) ∧ F.At ℓ' e' p' := by
    intro ℓ' e' p' h'
    cases ℓ' with
    | root e₀ => exact ⟨by simp, h'⟩
    | child x b =>
      obtain ⟨q, hq, rfl⟩ := h'
      have hxn : x ≠ n := by
        rintro rfl
        simp [hpn] at hq
      refine ⟨by simpa using hxn, ?_⟩
      by_cases hxc : x = c
      · subst hxc
        rw [hpc] at hq
        simp only [Option.some.injEq, Prod.mk.injEq] at hq
        obtain ⟨rfl, rfl⟩ := hq
        exact ⟨_, hc, by rw [hprec, hbase]⟩
      · exact ⟨q, by rw [← hplace hxn hxc, hq], by rw [hpre hxc]⟩
  have hforth : ∀ {ℓ' e' p'}, (∀ b, ℓ' ≠ .child n b) → F.At ℓ' e' p' → F'.At ℓ' e' p' := by
    intro ℓ' e' p' hne h'
    cases ℓ' with
    | root e₀ => exact h'
    | child x b =>
      have hxn : x ≠ n := fun he => hne b (by rw [he])
      obtain ⟨q, hq, rfl⟩ := h'
      by_cases hxc : x = c
      · subst hxc
        rw [hc] at hq
        simp only [Option.some.injEq, Prod.mk.injEq] at hq
        obtain ⟨rfl, rfl⟩ := hq
        exact ⟨p, hpc, by rw [hprec, hbase]⟩
      · exact ⟨q, by rw [hplace hxn hxc, hq], by rw [hpre hxc]⟩
  refine hF.graft hmap (fun {ℓ' e' p'} h' => ?_) (fun {x e' q} hx => ?_) (fun {x e' q} hx => ?_)
  · obtain ⟨hne, hat⟩ := hback h'
    by_cases hℓ : ℓ' = ℓ
    · subst hℓ
      obtain ⟨rfl, rfl⟩ := hat.functional h
      left
      rw [hslot, if_pos rfl]
      exact hpc
    · right
      refine ⟨hat, by rw [hslot, if_neg hℓ], fun x hx => hplace ?_ ?_⟩
      · rintro rfl
        exact hℓ (hF.slot_inj hat h hx hs)
      · rintro rfl
        exact hne y (hF.slot_inj hat (at_child hn y) hx hy)
  · by_cases hxc : x = c
    · subst hxc
      rw [hpc] at hx
      simp only [Option.some.injEq, Prod.mk.injEq] at hx
      obtain ⟨rfl, rfl⟩ := hx
      exact ⟨ℓ, hforth hℓn h, by rw [hslot, if_pos rfl]⟩
    · have hxn : x ≠ n := by
        rintro rfl
        simp [hpn] at hx
      rw [hplace hxn hxc] at hx
      obtain ⟨ℓx, hatx, hsx⟩ := hF.placed hx
      have hne : ∀ b, ℓx ≠ .child n b := by
        rintro b rfl
        by_cases hb : b = y
        · subst hb
          have : Slot.node c = .node x := hy.symm.trans hsx
          exact hxc (by simpa using this.symm)
        · have : Slot.null = .node x := (hch b hb).symm.trans hsx
          simp at this
      have hℓx : ℓx ≠ ℓ := by
        rintro rfl
        rw [hs] at hsx
        exact hxn (by simpa using hsx.symm)
      exact ⟨ℓx, hforth hne hatx, by rw [hslot, if_neg hℓx, hsx]⟩
  · by_cases hxc : x = c
    · subst hxc
      rw [hpc] at hx
      simp only [Option.some.injEq, Prod.mk.injEq] at hx
      obtain ⟨rfl, rfl⟩ := hx
      left
      refine ⟨by rw [hprec]; exact hlen, fun k hk hoff => ?_, ?_⟩
      · rw [hmap]
        rw [hprec, hbase] at hoff
        -- The key leaves the path in the prefix of `n`, at its branch byte, or below.
        by_cases h1 : p ++ F.pre n <+: k
        · obtain ⟨rest, rfl⟩ := h1
          cases rest with
          | nil =>
            rw [List.append_nil, hokn.exact, hex]
          | cons b rest =>
            have hk' : p ++ F.pre n ++ [b] <+: p ++ F.pre n ++ b :: rest := by simp
            by_cases hb : b = y
            · subst hb
              exact hokc.off _ hk' hoff
            · have hnull := hF.holds (at_child hn b)
              rw [show F.slot (.child n b) = .null from hch b hb] at hnull
              exact hnull _ hk'
        · exact hokn.off k hk h1
      · rw [hprec, hbase, hmap]
        simpa [hF', Forest.unwrap] using hokc.exact
    · have hxn : x ≠ n := by
        rintro rfl
        simp [hpn] at hx
      right
      refine ⟨by rw [← hplace hxn hxc]; exact hx, hpre hxc, ?_⟩
      simp [hF', Forest.unwrap, hxc]

end Forest

end Artmap
