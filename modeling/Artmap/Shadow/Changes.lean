import Artmap.Forest.Chain
import Artmap.Forest.Leaves
import Artmap.Shadow.Location

/-!
# The changes that operations make

For each of the ways in which an operation changes the tree, the forest after it, and that the
thread may commit to it.
-/

namespace Artmap

open scoped List

namespace Shadow

variable {t : ℕ} {m m' : TreeMem} {S : Shadow} {F : Forest} {new : List NodeId}
  {f : Option (ℕ × Key)} {n c d : NodeId} {e : ℕ} {ℓ : Loc} {s : Slot} {p rest : List Byte}
  {touched : NodeId → Prop} {x : Option Leaf} {l : Leaf}

/-! ## Follow-ups -/

/-- A commit that leaves the follow-ups alone, and leaves no node empty that was not. -/
lemma LocCommit.cover (h : LocCommit t S ℓ e s F new touched) (hi : S.Inv m) (hs : s ≠ .null)
    (hmine : ∀ n p, touched n ∨ n ∈ new → F.place n = some (S.cur, p) → (F.cont n).Empty →
      ∃ t' k, S.follow t' = some (S.cur, k) ∧ p ++ F.pre n <+: k) :
    ∀ n p, F.place n = some (S.cur, p) → (F.cont n).Empty →
      ∃ t' k, Function.update S.follow t (S.follow t) t' = some (S.cur, k) ∧
        p ++ F.pre n <+: k := by
  intro n p hpl hem
  rw [Function.update_eq_self]
  by_cases hn : touched n ∨ n ∈ new
  · exact hmine n p hn hpl hem
  · rw [not_or] at hn
    obtain ⟨h1, h2⟩ := h.other n hn.1 hn.2
    rw [h2] at hpl
    have hcont : F.cont n = S.forest.cont n := by
      rw [h1]
      cases ℓ with
      | root e' => rfl
      | child x b =>
        by_cases hnx : n = x
        · -- The node of the location holds `s` now.
          subst hnx
          rw [h1] at hem
          have := hem.2 b
          simp [Forest.setSlot] at this
          exact absurd this hs
        · simp [Forest.setSlot, hnx]
    rw [hcont] at hem
    obtain ⟨t', k, h3, h4⟩ := hi.cover hpl hem
    refine ⟨t', k, h3, ?_⟩
    rwa [Forest.pre, hcont]

/-- A commit that unlinks node `c`.  The node of the location may be left empty, and the
thread's own follow-up may change. -/
lemma LocCommit.cover_unlink (h : LocCommit t S ℓ e .null F [] fun n => n = c) (hi : S.Inv m)
    (hgone : F.place c = none)
    (hloc : ∀ x b q, ℓ = .child x b → S.forest.place x = some (S.cur, q) → (F.cont x).Empty →
      ∃ t' k, Function.update S.follow t f t' = some (S.cur, k) ∧ q ++ S.forest.pre x <+: k)
    (hmine : ∀ k n p, S.follow t = some (S.cur, k) → f ≠ some (S.cur, k) → n ≠ c →
      S.forest.place n = some (S.cur, p) → (S.forest.cont n).Empty →
      ¬ p ++ S.forest.pre n <+: k) :
    ∀ n p, F.place n = some (S.cur, p) → (F.cont n).Empty →
      ∃ t' k, Function.update S.follow t f t' = some (S.cur, k) ∧ p ++ F.pre n <+: k := by
  intro n p hpl hem
  have hnc : n ≠ c := by
    rintro rfl
    simp [hgone] at hpl
  obtain ⟨h1, h2⟩ := h.other n hnc (by simp)
  have hpre : F.pre n = S.forest.pre n := by
    rw [Forest.pre, h1]
    exact Forest.setSlot_pre
  rw [h2] at hpl
  rw [hpre]
  by_cases hx : ∃ b, ℓ = .child n b
  · obtain ⟨b, hb⟩ := hx
    exact hloc n b p hb hpl hem
  · have hcont : F.cont n = S.forest.cont n := by
      rw [h1]
      cases ℓ with
      | root e' => rfl
      | child x b =>
        have hnx : n ≠ x := fun hn => hx ⟨b, by rw [hn]⟩
        simp [Forest.setSlot, hnx]
    rw [hcont] at hem
    obtain ⟨t', k, h3, h4⟩ := hi.cover hpl hem
    by_cases ht : t' = t
    · subst ht
      refine ⟨t', k, ?_, h4⟩
      rw [Function.update_self]
      by_contra hne
      exact hmine k n p h3 hne hnc hpl hem h4
    · exact ⟨t', k, by rwa [Function.update_of_ne ht], h4⟩

/-- A commit that unlinks an empty node.  Whoever follows it up follows up its parent. -/
lemma LocCommit.cover_empty (h : LocCommit t S ℓ e .null F [] fun n => n = c) (hi : S.Inv m)
    (hgone : F.place c = none) (hat : S.forest.At ℓ e p) (hs : S.forest.slot ℓ = .node c)
    (hem : (S.forest.cont c).Empty) :
    ∀ n p, F.place n = some (S.cur, p) → (F.cont n).Empty →
      ∃ t' k, S.follow t' = some (S.cur, k) ∧ p ++ F.pre n <+: k := by
  have hcov := h.cover_unlink (f := S.follow t) hi hgone ?_ fun k n p hk hf => absurd hk hf
  · simpa only [Function.update_eq_self] using hcov
  · rintro x b q rfl hq -
    obtain ⟨q', hq', rfl⟩ := hat
    obtain ⟨rfl, rfl⟩ : e = S.cur ∧ q' = q := by simpa using hq'.symm.trans hq
    obtain ⟨t', k, h1, h2⟩ := hi.cover (hi.wf.place_of_slot (Forest.at_child hq b) hs) hem
    rw [Function.update_eq_self]
    refine ⟨t', k, h1, List.IsPrefix.trans ?_ h2⟩
    rw [List.append_assoc]
    exact List.prefix_append _ _

/-! ## Leaves -/

/-- A leaf changes in a latched node that does not become empty. -/
lemma commit_setLeaf (hi : S.Inv m) (ho : S.owner (.node n) = some t)
    (hn : S.forest.place n = some (e, p)) (hs : ∀ c, (S.forest.cont n).slotAt rest ≠ .node c)
    (hx : ∀ l, x = some l → l.key = p ++ S.forest.pre n ++ rest)
    (hne : ¬ ((S.forest.cont n).setAt rest x).Empty) {F : Fields}
    (hF : Shows F ((S.forest.cont n).setAt rest x)) :
    Commit t m S (setFields m n F) (S.forest.setLeaf n e p rest x) [] (S.follow t) where
  mem := rfl
  fields n' hn' := by
    have : n' ≠ n := by
      rintro rfl
      exact hn' ho
    simp [setFields, this]
  wf := hi.wf.setLeaf hn hs hx
  root := by
    rw [Forest.setLeaf_root]
    exact hi.root
  roots _ _ := by rw [Forest.setLeaf_root]
  same n' hn' _ := by
    have : n' ≠ n := by
      rintro rfl
      exact hn' ho
    rw [Forest.setLeaf_cont, Forest.setLeaf_place, Function.update_of_ne this]
    exact ⟨rfl, rfl⟩
  moved _ _ _ _ _ _ := .inl (by rw [Forest.setLeaf_place])
  new_ok n hn := by simp at hn
  shows n' _ hpl := by
    rw [Forest.setLeaf_place] at hpl
    rw [Forest.setLeaf_cont]
    by_cases hnn : n' = n
    · subst hnn
      simpa [setFields] using hF
    · simpa [setFields, hnn] using hi.shows hpl
  placed n' _ hpl := by rwa [Forest.setLeaf_place] at hpl
  epoch n' e' p' hn' hpl := by
    rw [Forest.setLeaf_place] at hpl
    refine ⟨hi.place_le hpl, fun he => hi.clearer_of_held hpl he ?_⟩
    have := hi.word_held (hn'.resolve_right (by simp))
    unfold Obsolete
    omega
  cover n' p' hpl hem := by
    rw [Function.update_eq_self, Forest.setLeaf_pre]
    rw [Forest.setLeaf_place] at hpl
    rw [Forest.setLeaf_cont] at hem
    by_cases hnn : n' = n
    · subst hnn
      rw [Function.update_self] at hem
      exact absurd hem hne
    · rw [Function.update_of_ne hnn] at hem
      exact hi.cover hpl hem

/-- A leaf, or nothing, at the root gives way to another. -/
lemma locCommit_putRoot (hi : S.Inv m) (hh : S.HoldsLoc t (.root e))
    (hold : ∀ c, S.forest.root e ≠ .node c) :
    LocCommit t S (.root e) e (Slot.ofOption x)
      (S.forest.put (.root e) e [] (Slot.ofOption x)) [] fun _ => False where
  wf := by
    refine hi.wf.put (Forest.at_root e) hold ?_ fun _ _ => List.nil_prefix
    cases x <;> simp [Slot.ofOption]
  loc := ⟨[], Forest.at_root e⟩
  holds := hh
  root := rfl
  other n _ _ := ⟨rfl, by rw [Forest.put_place]⟩
  held _ h := h.elim
  old _ h := h.elim
  below _ _ _ _ h := h.elim
  placed _ _ _ h := by simp at h
  kept _ h := h.elim
  new_priv n hn := by simp at hn

/-! ## Splitting a leaf -/

/-- The leaf `old` at a location goes down a chain, and `l` joins it at the bottom. -/
lemma locCommit_split {old : Leaf} {L : Forest.Links} {bottom : NodeId}
    {pre suffix : List Byte} (hi : S.Inv m) (hh : S.HoldsLoc t ℓ) (hat : S.forest.At ℓ e p)
    (hs : S.forest.slot ℓ = .leaf old)
    (hnew : ∀ n, n ∈ L.map Prod.fst ∨ n = bottom → S.priv n = some t)
    (hnodup : (L.map Prod.fst).Nodup) (hbot : bottom ∉ L.map Prod.fst)
    (hseg : ∀ i ∈ L, i.2.1.length ≤ 16) (hlen : pre.length ≤ 16)
    (hkey : old.key = p ++ Forest.along L ++ pre ++ suffix)
    (hl : l.key = p ++ Forest.along L ++ pre ++ rest)
    (hdiff : (Forest.lone pre suffix old).slotAt rest = .null) :
    ∃ F, LocCommit t S ℓ e (.node (Forest.topOf L bottom)) F (bottom :: L.map Prod.fst)
        (fun _ => False) ∧
      F.map = Function.update S.forest.map e
        (Function.update (S.forest.map e) l.key (some l)) ∧
      F.LinkedBy L bottom ∧
      F.cont bottom = (Forest.lone pre suffix old).setAt rest (some l) ∧
      F.place bottom = some (e, p ++ Forest.along L) := by
  have hunpl : ∀ n, n ∈ L.map Prod.fst ∨ n = bottom → S.forest.place n = none :=
    fun n hn => hi.place_of_priv (hnew n hn)
  have hch := hi.wf.chain_spec hat hs hunpl hnodup hbot hseg hlen hkey
  set F₁ := S.forest.chain ℓ e p L bottom (Forest.lone pre suffix old) with hF₁
  have hpre : F₁.pre bottom = pre := by
    rw [Forest.pre, hch.bottom_cont]
    cases suffix <;> rfl
  have hslot : (F₁.cont bottom).slotAt rest = .null := by rw [hch.bottom_cont, hdiff]
  have hlk : l.key = p ++ Forest.along L ++ F₁.pre bottom ++ rest := by rw [hpre, hl]
  have hne : ∀ {n}, n ∈ L.map Prod.fst → n ≠ bottom := by
    rintro n hn rfl
    exact hbot hn
  refine ⟨F₁.setLeaf bottom e (p ++ Forest.along L) rest (some l), ?_, ?_, ?_, ?_, ?_⟩
  · refine
      { wf := hch.wf.setLeaf hch.bottom_place (by simp [hslot]) (fun l' hl' => ?_)
        loc := ⟨p, hat⟩, holds := hh
        root := by rw [Forest.setLeaf_root, hch.root]
        other := fun n _ hn => ?_
        held := fun _ h => h.elim, old := fun _ h => h.elim, below := fun _ _ _ _ h => h.elim
        kept := fun _ h => h.elim
        placed := fun n e' p' hn hpl => ?_, new_priv := fun n hn => ?_ }
    · obtain rfl : l = l' := by simpa using hl'
      exact hlk
    · simp only [List.mem_cons, not_or] at hn
      rw [Forest.setLeaf_cont, Function.update_of_ne hn.1, Forest.setLeaf_place]
      exact hch.other n hn.2 hn.1
    · simp only [List.mem_cons, false_or] at hn
      rw [Forest.setLeaf_place] at hpl
      rcases hn with rfl | hn
      · rw [hch.bottom_place] at hpl
        simp only [Option.some.injEq, Prod.mk.injEq] at hpl
        exact hpl.1.symm
      · obtain ⟨q, hq⟩ := hch.placed n hn
        rw [hq] at hpl
        simp only [Option.some.injEq, Prod.mk.injEq] at hpl
        exact hpl.1.symm
    · simp only [List.mem_cons] at hn
      rw [Forest.setLeaf_place]
      refine ⟨hnew n hn.symm, ?_⟩
      rcases hn with rfl | hn
      · simp [hch.bottom_place]
      · obtain ⟨q, hq⟩ := hch.placed n hn
        simp [hq]
  · rw [hch.wf.setLeaf_map hch.bottom_place hlk (by simp [hslot]) (by simp [hslot]) ?_, hch.map]
    intro l' hl'
    obtain rfl : l = l' := by simpa using hl'
    rfl
  · -- Only the bottom changes after the chain.
    have hmono : ∀ L', (∀ n ∈ L'.map Prod.fst, n ≠ bottom) → F₁.LinkedBy L' bottom →
        (F₁.setLeaf bottom e (p ++ Forest.along L) rest (some l)).LinkedBy L' bottom := by
      intro L'
      induction L' with
      | nil => exact fun _ _ => trivial
      | cons i L' ih =>
        obtain ⟨a, seg, y⟩ := i
        rintro hb ⟨h1, h2⟩
        refine ⟨?_, ih (fun n hn => hb n (by simp [hn])) h2⟩
        rw [Forest.setLeaf_cont, Function.update_of_ne (hb a (by simp)), h1]
    exact hmono L (fun n hn => hne hn) hch.links
  · rw [Forest.setLeaf_cont, Function.update_self, hch.bottom_cont]
  · rw [Forest.setLeaf_place, hch.bottom_place]

/-! ## Splitting a prefix -/

/-- The fresh node `d` goes above `c`, and takes the leaf `l`. -/
lemma locCommit_wrap {u z : List Byte} {y : Byte} (hi : S.Inv m) (hh : S.HoldsLoc t ℓ)
    (hat : S.forest.At ℓ e p) (hs : S.forest.slot ℓ = .node c)
    (hc : S.owner (.node c) = some t) (hd : S.priv d = some t)
    (hsplit : S.forest.pre c = u ++ y :: z) (hl : l.key = p ++ u ++ rest)
    (hoff : rest.head? ≠ some y) :
    ∃ F, LocCommit t S ℓ e (.node d) F [d] (fun n => n = c) ∧
      F.map = Function.update S.forest.map e
        (Function.update (S.forest.map e) l.key (some l)) ∧
      F.cont d = (Forest.above u y c).setAt rest (some l) ∧
      F.cont c = { S.forest.cont c with pre := z } ∧
      F.place d = some (e, p) ∧ F.place c = some (e, p ++ u ++ [y]) := by
  have hd' := hi.place_of_priv hd
  have hcp := hi.wf.place_of_slot hat hs
  have hcd : c ≠ d := by
    rintro rfl
    simp [hcp] at hd'
  have hW := hi.wf.wrap hat hs hd' hsplit
  set F₁ := S.forest.wrap ℓ e p c d u y z with hF₁
  have hplace : F₁.place d = some (e, p) := by
    simp [hF₁, Forest.wrap, Ne.symm hcd]
  have hcont : F₁.cont d = Forest.above u y c := by
    simp [hF₁, Forest.wrap, Ne.symm hcd]
  have hpre : F₁.pre d = u := by rw [Forest.pre, hcont]; rfl
  have hslot : (F₁.cont d).slotAt rest = .null := by
    rw [hcont]
    cases rest with
    | nil => rfl
    | cons b rest =>
      have hb : b ≠ y := fun h => hoff (by simp [h])
      simp [Content.slotAt, Forest.above, hb]
  have hlk : l.key = p ++ F₁.pre d ++ rest := by rw [hpre, hl]
  refine ⟨F₁.setLeaf d e p rest (some l), ?_, ?_, ?_, ?_, ?_, ?_⟩
  · refine
      { wf := hW.setLeaf hplace (by simp [hslot]) (fun l' hl' => ?_)
        loc := ⟨p, hat⟩, holds := hh
        root := by rw [Forest.setLeaf_root]; rfl
        other := fun n hnc hn => ?_
        held := fun n hn => by rw [hn]; exact hc
        old := fun n hn => by simp [hn, hcp]
        below := fun n ℓ' e' p' hn hat' hs' => ?_, kept := fun n hn _ => ?_
        placed := fun n e' p' hn hpl => ?_, new_priv := fun n hn => ?_ }
    · obtain rfl : l = l' := by simpa using hl'
      exact hlk
    · have hnd : n ≠ d := by simpa using hn
      rw [Forest.setLeaf_cont, Function.update_of_ne hnd, Forest.setLeaf_place]
      simp [hF₁, Forest.wrap, hnd, hnc]
    · subst hn
      exact .inl (hi.wf.slot_inj hat' hat hs' hs)
    · subst hn
      rw [Forest.setLeaf_cont, Function.update_of_ne hcd,
        Forest.setSlot_cont_of_ne fun b => hi.wf.not_own_child hat hs]
      simp [hF₁, Forest.wrap]
    · rw [Forest.setLeaf_place] at hpl
      simp only [List.mem_singleton] at hn
      rcases hn with rfl | rfl
      · simp [hF₁, Forest.wrap] at hpl
        exact hpl.1.symm
      · rw [hplace] at hpl
        simp only [Option.some.injEq, Prod.mk.injEq] at hpl
        exact hpl.1.symm
    · obtain rfl : n = d := by simpa using hn
      exact ⟨hd, by simp [hplace]⟩
  · rw [hW.setLeaf_map hplace hlk (by simp [hslot]) (by simp [hslot]) ?_]
    · simp [hF₁, Forest.wrap]
    · intro l' hl'
      obtain rfl : l = l' := by simpa using hl'
      rfl
  · rw [Forest.setLeaf_cont, Function.update_self, hcont]
  · rw [Forest.setLeaf_cont, Function.update_of_ne hcd]
    simp [hF₁, Forest.wrap]
  · rw [Forest.setLeaf_place, hplace]
  · rw [Forest.setLeaf_place]
    simp [hF₁, Forest.wrap]

/-! ## Copies -/

/-- The fresh node `d` takes the place of `c`, with its content. -/
lemma locCommit_copy (hi : S.Inv m) (hh : S.HoldsLoc t ℓ) (hat : S.forest.At ℓ e p)
    (hs : S.forest.slot ℓ = .node c) (hc : S.owner (.node c) = some t)
    (hd : S.priv d = some t) :
    LocCommit t S ℓ e (.node d) (S.forest.copy ℓ c d) [d] (fun n => n = c) ∧
      (S.forest.copy ℓ c d).map = S.forest.map ∧
      (S.forest.copy ℓ c d).cont d = S.forest.cont c ∧
      (S.forest.copy ℓ c d).place d = some (e, p) ∧
      (S.forest.copy ℓ c d).place c = none := by
  have hd' := hi.place_of_priv hd
  have hcp := hi.wf.place_of_slot hat hs
  have hdc : d ≠ c := by
    rintro rfl
    simp [hcp] at hd'
  have hplace : (S.forest.copy ℓ c d).place d = some (e, p) := by
    simp [Forest.copy, hdc, hcp]
  have hnone : (S.forest.copy ℓ c d).place c = none := by simp [Forest.copy]
  refine ⟨?_, by simp [Forest.copy], by simp [Forest.copy], hplace, hnone⟩
  refine
    { wf := hi.wf.copy hat hs hd'
      loc := ⟨p, hat⟩, holds := hh
      root := rfl
      other := fun n hnc hn => ?_
      held := fun n hn => by rw [hn]; exact hc
      old := fun n hn => by simp [hn, hcp]
      below := fun n ℓ' e' p' hn hat' hs' => ?_, kept := fun n hn hpl => ?_
      placed := fun n e' p' hn hpl => ?_, new_priv := fun n hn => ?_ }
  · have hnd : n ≠ d := by simpa using hn
    simp [Forest.copy, hnd, hnc]
  · subst hn
    exact .inl (hi.wf.slot_inj hat' hat hs' hs)
  · subst hn
    exact absurd hnone hpl
  · simp only [List.mem_singleton] at hn
    rcases hn with rfl | rfl
    · simp [hnone] at hpl
    · rw [hplace] at hpl
      simp only [Option.some.injEq, Prod.mk.injEq] at hpl
      exact hpl.1.symm
  · obtain rfl : n = d := by simpa using hn
    exact ⟨hd, by simp [hplace]⟩

/-- A fresh node takes the place of `c`, with its content and the leaf `l`. -/
lemma locCommit_grow (hi : S.Inv m) (hh : S.HoldsLoc t ℓ) (hat : S.forest.At ℓ e p)
    (hs : S.forest.slot ℓ = .node c) (hc : S.owner (.node c) = some t)
    (hd : S.priv d = some t) (hl : l.key = p ++ S.forest.pre c ++ rest)
    (hslot : (S.forest.cont c).slotAt rest = .null) :
    ∃ F, LocCommit t S ℓ e (.node d) F [d] (fun n => n = c) ∧
      F.map = Function.update S.forest.map e
        (Function.update (S.forest.map e) l.key (some l)) ∧
      F.cont d = (S.forest.cont c).setAt rest (some l) ∧ F.place d = some (e, p) ∧
      F.place c = none := by
  obtain ⟨h, hmap, hcont, hplace, hnone⟩ := locCommit_copy hi hh hat hs hc hd
  set F₁ := S.forest.copy ℓ c d with hF₁
  have hpre : F₁.pre d = S.forest.pre c := by rw [Forest.pre, hcont]; rfl
  have hlk : l.key = p ++ F₁.pre d ++ rest := by rw [hpre, hl]
  have hslot' : (F₁.cont d).slotAt rest = .null := by rw [hcont, hslot]
  refine ⟨F₁.setLeaf d e p rest (some l), ?_, ?_, ?_, ?_, ?_⟩
  · refine
      { wf := h.wf.setLeaf hplace (by simp [hslot']) (fun l' hl' => ?_)
        loc := h.loc, holds := hh
        root := by rw [Forest.setLeaf_root]; exact h.root
        other := fun n hnc hn => ?_
        held := h.held, old := h.old, below := h.below
        kept := fun n hn hpl => by
          subst hn
          rw [Forest.setLeaf_place] at hpl
          exact absurd hnone hpl
        placed := fun n e' p' hn hpl => ?_, new_priv := fun n hn => ?_ }
    · obtain rfl : l = l' := by simpa using hl'
      exact hlk
    · have hnd : n ≠ d := by simpa using hn
      rw [Forest.setLeaf_cont, Function.update_of_ne hnd, Forest.setLeaf_place]
      exact h.other n hnc hn
    · rw [Forest.setLeaf_place] at hpl
      exact h.placed n e' p' hn hpl
    · rw [Forest.setLeaf_place]
      exact h.new_priv n hn
  · rw [h.wf.setLeaf_map hplace hlk (by simp [hslot']) (by simp [hslot']) ?_, hmap]
    intro l' hl'
    obtain rfl : l = l' := by simpa using hl'
    rfl
  · rw [Forest.setLeaf_cont, Function.update_self, hcont]
  · rw [Forest.setLeaf_place, hplace]
  · rw [Forest.setLeaf_place, hnone]

/-! ## Unlinking -/

/-- Node `c`, which has no inner children, gives way to `s`, which stands for the same. -/
lemma locCommit_prune (hi : S.Inv m) (hh : S.HoldsLoc t ℓ) (hat : S.forest.At ℓ e p)
    (hs : S.forest.slot ℓ = .node c) (hc : S.owner (.node c) = some t)
    (hch : ∀ b n, (S.forest.cont c).child b ≠ .node n) (hnew : ∀ n, s ≠ .node n)
    (hhold : S.forest.Holds s e p) :
    LocCommit t S ℓ e s (S.forest.prune ℓ c s) [] (fun n => n = c) ∧
      (S.forest.prune ℓ c s).map = S.forest.map ∧ (S.forest.prune ℓ c s).place c = none := by
  have hcp := hi.wf.place_of_slot hat hs
  have hnone : (S.forest.prune ℓ c s).place c = none := by simp [Forest.prune]
  refine ⟨?_, by simp [Forest.prune], hnone⟩
  refine
    { wf := hi.wf.prune hat hs hch hnew hhold
      loc := ⟨p, hat⟩, holds := hh
      root := rfl
      other := fun n hnc hn => by simp [Forest.prune, hnc]
      held := fun n hn => by rw [hn]; exact hc
      old := fun n hn => by simp [hn, hcp]
      below := fun n ℓ' e' p' hn hat' hs' => ?_, kept := fun n hn hpl => ?_
      placed := fun n e' p' hn hpl => ?_, new_priv := fun n hn => by simp at hn }
  · subst hn
    exact .inl (hi.wf.slot_inj hat' hat hs' hs)
  · subst hn
    exact absurd hnone hpl
  · obtain rfl : n = c := by simpa using hn
    simp [hnone] at hpl

/-- Node `c` is unlinked together with its last entry, the leaf of key `k`. -/
lemma locCommit_unlink {k : Key} (hi : S.Inv m) (hh : S.HoldsLoc t ℓ) (hat : S.forest.At ℓ e p)
    (hs : S.forest.slot ℓ = .node c) (hc : S.owner (.node c) = some t)
    (hk : k = p ++ S.forest.pre c ++ rest)
    (hslot : (S.forest.cont c).slotAt rest = .leaf l) (hl : l.key = k)
    (hem : ((S.forest.cont c).setAt rest none).Empty) :
    ∃ F, LocCommit t S ℓ e .null F [] (fun n => n = c) ∧
      F.map = Function.update S.forest.map e (Function.update (S.forest.map e) k none) ∧
      F.place c = none := by
  have hcp := hi.wf.place_of_slot hat hs
  set F₁ := S.forest.setLeaf c e p rest none with hF₁
  have hW : F₁.WF := hi.wf.setLeaf hcp (by simp [hslot]) (by simp)
  have hmap : F₁.map = Function.update S.forest.map e
      (Function.update (S.forest.map e) k none) :=
    hi.wf.setLeaf_map hcp hk (by simp [hslot]) (by simp [hslot, hl]) (by simp)
  have hcont : F₁.cont c = (S.forest.cont c).setAt rest none := by
    rw [hF₁, Forest.setLeaf_cont, Function.update_self]
  have hpre : F₁.pre c = S.forest.pre c := by rw [hF₁, Forest.setLeaf_pre]
  have hcp₁ : F₁.place c = some (e, p) := by rw [hF₁, Forest.setLeaf_place, hcp]
  have hchild : ∀ b, (F₁.cont c).child b = .null := by
    rw [hcont]
    exact hem.2
  have hnotown : ∀ b, ℓ ≠ .child c b := fun b => hi.wf.not_own_child hat hs
  have hat₁ : F₁.At ℓ e p := by
    refine Forest.at_of_eq hat fun x b _ => ?_
    rw [hF₁, Forest.setLeaf_place, Forest.setLeaf_pre]
    exact ⟨rfl, rfl⟩
  have hs₁ : F₁.slot ℓ = .node c := by
    cases ℓ with
    | root e' =>
      show F₁.root e' = _
      rw [hF₁, Forest.setLeaf_root]
      exact hs
    | child x b =>
      have hx : x ≠ c := fun h => hnotown b (by rw [h])
      show (F₁.cont x).child b = _
      rw [hF₁, Forest.setLeaf_cont, Function.update_of_ne hx]
      exact hs
  -- Nothing is left below the location.
  have hhold : F₁.Holds .null e p := by
    intro k' hk'
    by_cases hpk : p ++ F₁.pre c <+: k'
    · obtain ⟨rest', hrest'⟩ := hpk
      have hsl : (F₁.cont c).slotAt rest' = .null := by
        cases rest' with
        | nil =>
          have : (F₁.cont c).exact = none := by rw [hcont]; exact hem.1
          simp [Content.slotAt, this, Slot.ofOption]
        | cons b rest' => exact hchild b
      rw [hW.map_node hcp₁ hrest'.symm (by simp [hsl]), hsl]
      rfl
    · exact (hW.node hcp₁).off k' hk' hpk
  have hset : ∀ n, n ≠ c → (F₁.setSlot ℓ .null).cont n = (S.forest.setSlot ℓ .null).cont n := by
    intro n hn
    cases ℓ with
    | root e' =>
      show F₁.cont n = S.forest.cont n
      rw [hF₁, Forest.setLeaf_cont, Function.update_of_ne hn]
    | child x b =>
      have hx : x ≠ c := fun h => hnotown b (by rw [h])
      simp only [Forest.setSlot, hF₁, Forest.setLeaf_cont, Function.update_of_ne hx]
      by_cases hnx : n = x
      · simp [hnx]
      · simp [hnx, hn]
  refine ⟨F₁.prune ℓ c .null, ?_, ?_, by simp [Forest.prune]⟩
  · refine
      { wf := hW.prune hat₁ hs₁ (by simp [hchild]) (by simp) hhold
        loc := ⟨p, hat⟩, holds := hh
        root := ?_
        other := fun n hnc hn => ?_
        held := fun n hn => by rw [hn]; exact hc
        old := fun n hn => by simp [hn, hcp]
        below := fun n ℓ' e' p' hn hat' hs' => ?_, kept := fun n hn hpl => ?_
        placed := fun n e' p' hn hpl => ?_, new_priv := fun n hn => by simp at hn }
    · show (F₁.setSlot ℓ .null).root = _
      cases ℓ with
      | root e' => simp [Forest.setSlot, hF₁]
      | child x b => simp [Forest.setSlot, hF₁]
    · refine ⟨hset n hnc, ?_⟩
      simp [Forest.prune, hnc, hF₁]
    · subst hn
      exact .inl (hi.wf.slot_inj hat' hat hs' hs)
    · subst hn
      exact absurd (by simp [Forest.prune]) hpl
    · obtain rfl : n = c := by simpa using hn
      simp [Forest.prune] at hpl
  · rw [← hmap]
    simp [Forest.prune]

/-! ## Merging -/

/-- The fresh node `d` takes the place of `c` and of its only child `g`, under the joined
prefix. -/
lemma locCommit_merge {g : NodeId} {y : Byte} (hi : S.Inv m) (hh : S.HoldsLoc t ℓ)
    (hat : S.forest.At ℓ e p) (hs : S.forest.slot ℓ = .node c)
    (hc : S.owner (.node c) = some t) (hg : S.owner (.node g) = some t)
    (hd : S.priv d = some t) (hex : (S.forest.cont c).exact = none)
    (hy : (S.forest.cont c).child y = .node g)
    (hch : ∀ b, b ≠ y → (S.forest.cont c).child b = .null)
    (hlen : (S.forest.pre c ++ y :: S.forest.pre g).length ≤ 16) :
    ∃ F, LocCommit t S ℓ e (.node d) F [d] (fun n => n = c ∨ n = g) ∧
      F.map = S.forest.map ∧
      F.cont d = { S.forest.cont g with pre := S.forest.pre c ++ y :: S.forest.pre g } ∧
      F.place d = some (e, p) ∧ F.place c = none ∧ F.place g = none := by
  have hd' := hi.place_of_priv hd
  have hcp := hi.wf.place_of_slot hat hs
  have hgat := Forest.at_child (F := S.forest) hcp y
  have hgp := hi.wf.place_of_slot hgat hy
  have hcg : c ≠ g := by
    rintro rfl
    exact hi.wf.not_own_child hgat hy rfl
  have hdc : d ≠ c := by
    rintro rfl
    simp [hcp] at hd'
  have hdg : d ≠ g := by
    rintro rfl
    simp [hgp] at hd'
  have hW := hi.wf.unwrap hat hs hex hy hch hlen
  set F₁ := S.forest.unwrap ℓ e p c g y with hF₁
  have hplace₁ : F₁.place g = some (e, p) := by simp [hF₁, Forest.unwrap]
  have hd₁ : F₁.place d = none := by simp [hF₁, Forest.unwrap, hdg, hdc, hd']
  have hcont₁ : F₁.cont g =
      { S.forest.cont g with pre := S.forest.pre c ++ y :: S.forest.pre g } := by
    simp [hF₁, Forest.unwrap]
  have hℓg : ∀ b, ℓ ≠ .child g b := by
    rintro b rfl
    obtain ⟨q, hq, hqp⟩ := hat
    rw [hgp] at hq
    simp only [Option.some.injEq, Prod.mk.injEq, true_and] at hq
    have := congrArg List.length hqp
    rw [← hq] at this
    simp at this
  have hℓc : ∀ b, ℓ ≠ .child c b := fun b => hi.wf.not_own_child hat hs
  have hat₁ : F₁.At ℓ e p := by
    refine Forest.at_of_eq hat fun x b hx => ?_
    have hxg : x ≠ g := fun h => hℓg b (by rw [hx, h])
    have hxc : x ≠ c := fun h => hℓc b (by rw [hx, h])
    simp [hF₁, Forest.unwrap, Forest.pre, hxg, hxc, hx, Forest.setSlot]
  have hs₁ : F₁.slot ℓ = .node g := by
    cases ℓ with
    | root e' => simp [hF₁, Forest.unwrap, Forest.slot, Forest.setSlot]
    | child x b =>
      have hxg : x ≠ g := fun h => hℓg b (by rw [h])
      simp [hF₁, Forest.unwrap, Forest.slot, Forest.setSlot, hxg]
  -- A node outside keeps its content, up to the slot of the location.
  have hset : ∀ n, n ≠ g → (F₁.setSlot ℓ (.node d)).cont n =
      (S.forest.setSlot ℓ (.node d)).cont n := by
    intro n hn
    cases ℓ with
    | root e' => simp [hF₁, Forest.unwrap, Forest.setSlot, hn]
    | child x b =>
      have hxg : x ≠ g := fun h => hℓg b (by rw [h])
      by_cases hnx : n = x
      · subst hnx
        simp [hF₁, Forest.unwrap, Forest.setSlot, hxg, Content.setChild]
      · simp [hF₁, Forest.unwrap, Forest.setSlot, hn, hnx]
  have hplace : (F₁.copy ℓ g d).place d = some (e, p) := by
    simp [Forest.copy, hdg, hplace₁]
  have hnoneg : (F₁.copy ℓ g d).place g = none := by simp [Forest.copy]
  have hnonec : (F₁.copy ℓ g d).place c = none := by
    simp [Forest.copy, hcg, Ne.symm hdc, hF₁, Forest.unwrap]
  refine ⟨F₁.copy ℓ g d, ?_, ?_, ?_, hplace, hnonec, hnoneg⟩
  · refine
      { wf := hW.copy hat₁ hs₁ hd₁
        loc := ⟨p, hat⟩, holds := hh
        root := ?_
        other := fun n hnc hn => ?_
        held := fun n hn => ?_
        old := fun n hn => by rcases hn with rfl | rfl <;> simp [hcp, hgp]
        below := fun n ℓ' e' p' hn hat' hs' => ?_, kept := fun n hn hpl => ?_
        placed := fun n e' p' hn hpl => ?_, new_priv := fun n hn => ?_ }
    · show (F₁.setSlot ℓ (.node d)).root = _
      cases ℓ with
      | root e' => simp [Forest.setSlot, hF₁, Forest.unwrap]
      | child x b => simp [Forest.setSlot, hF₁, Forest.unwrap]
    · rw [not_or] at hnc
      have hnd : n ≠ d := by simpa using hn
      refine ⟨?_, ?_⟩
      · have : (F₁.copy ℓ g d).cont n = (F₁.setSlot ℓ (.node d)).cont n := by
          simp [Forest.copy, hnd]
        rw [this, hset n hnc.2]
      · simp [Forest.copy, hnc.1, hnc.2, hnd, hF₁, Forest.unwrap]
    · rcases hn with rfl | rfl
      · exact hc
      · exact hg
    · rcases hn with rfl | rfl
      · exact .inl (hi.wf.slot_inj hat' hat hs' hs)
      · exact .inr ⟨c, y, hi.wf.slot_inj hat' hgat hs' hy, .inl rfl⟩
    · rcases hn with rfl | rfl
      · exact absurd hnonec hpl
      · exact absurd hnoneg hpl
    · simp only [List.mem_singleton] at hn
      rcases hn with (rfl | rfl) | rfl
      · simp [hnonec] at hpl
      · simp [hnoneg] at hpl
      · rw [hplace] at hpl
        simp only [Option.some.injEq, Prod.mk.injEq] at hpl
        exact hpl.1.symm
    · obtain rfl : n = d := by simpa using hn
      exact ⟨hd, by simp [hplace]⟩
  · simp [Forest.copy, hF₁, Forest.unwrap]
  · simp only [Forest.copy, Function.update_self, hcont₁]

end Shadow

end Artmap
