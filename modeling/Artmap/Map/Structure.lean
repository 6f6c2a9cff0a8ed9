import Artmap.Map.History

/-!
# The structure of the tree along its runs

Whatever the interleaving, an inner node of the tree is empty only while a remove still has to
follow up on it; when no call is in progress, no node is empty.
-/

namespace Artmap

/-- A node without entries, by its fields. -/
def Emptied (m : TreeMem) (n : NodeId) : Prop :=
  m.fields n .exactLeaf = Slot.null ∧ m.fields n .numChildren = (0 : ℕ)

lemma Repr.empty_iff {ty : NodeType} {F : Fields} {c : Content} (h : Repr ty F c) :
    F .exactLeaf = Slot.null ∧ F .numChildren = (0 : ℕ) ↔ c.Empty := by
  rw [h.exact_eq, h.count, Content.bytes_eq_empty]
  unfold Content.Empty
  refine and_congr_left fun _ => ?_
  cases c.exact <;> simp [Slot.ofOption]

namespace Interface

open Client (tree shadow scene)

variable {M : Interface} {full : ℕ → Bool} {c : M.client.object.Config} {w : M.client.W}

/-! ## Empty nodes -/

/-- The runs of a map, each with the calls that have taken the last entry of some node. -/
inductive Vacating (full : ℕ → Bool) : M.client.object.Config → Set ℕ → Prop where
  | start : Vacating full (Object.initial (start full)) ∅
  | step {c c' : M.client.object.Config} {E : Set ℕ} (h : Vacating full c E)
      (hs : Object.Step c c') : Vacating full c'
        {id | id ∈ E ∨ Object.Acts id c c' ∧ Vacates c.mem.tree c'.mem.tree}

lemma Vacating.reachable {E : Set ℕ} (h : Vacating full c E) : Reachable full c := by
  induction h with
  | start => exact .refl
  | step _ hs ih => exact .tail ih hs

/-- Every run is one of them. -/
lemma exists_vacating (hc : Reachable full c) : ∃ E, Vacating full c E := by
  induction hc with
  | refl => exact ⟨_, .start⟩
  | tail _ hs ih =>
    obtain ⟨E, hE⟩ := ih
    exact ⟨_, hE.step hs⟩

/-- A call that is to take out a key that the path `p` leads to has a follow-up to do: it has taken
the last entry of some node, and has not answered yet. -/
def Due (c : M.client.object.Config) (E : Set ℕ) (p : List Byte) : Prop :=
  ∃ t call k, c.running t = some call ∧ M.takes call.op = some k ∧ (∀ a, call.prog ≠ .ret a) ∧
    call.id ∈ E ∧ p <+: k

/-- Along a run, only calls that have vacated a node have something to follow up. -/
lemma kept_vacating (hM : M.Safe) (hfull : M.roomy → ∀ i, full i = false) {E : Set ℕ}
    (h : Vacating full c E) (N : ℕ) : ∃ g, RG.Kept (M.verified hM) N c g ∧
      ∀ t call e k, c.running t = some call →
        (shadow (RG.worldOf c g)).follow t = some (e, k) → call.id ∈ E := by
  induction h generalizing N with
  | start =>
    obtain ⟨g, hk⟩ := RG.kept_of_reachable (M.verified hM) (start_inv full hfull) (fun _ => rfl)
      .refl N
    exact ⟨g, hk, fun t call e k hrun => by simp [Object.initial] at hrun⟩
  | @step c c' E _ hs ih =>
    obtain ⟨g, hk, hE⟩ := ih (N + 1)
    obtain ⟨t, g', hk', hm, hother⟩ := RG.kept_step (M.verified hM) hk hs
    refine ⟨g', hk', fun t' call e k hrun hfol => ?_⟩
    by_cases ht : t' = t
    · subst ht
      cases hc : c.running t' with
      | none =>
        have hclean : (shadow (RG.worldOf c' g')).Clean t' := (hm.starts call hc hrun).clean
        rw [hclean.follow] at hfol
        cases hfol
      | some call₀ =>
        obtain ⟨hid, hacts | heq⟩ := hm.acts call₀ call hc hrun
        · rcases hm.own with hown | heq
          · rcases hown.follow e k hfol with hold | hv
            · exact .inl (hid ▸ hE t' call₀ e k hc hold)
            · exact .inr ⟨hid ▸ hacts, hv⟩
          · exact .inl (hid ▸ hE t' call₀ e k hc (heq ▸ hfol))
        · exact .inl (hid ▸ hE t' call₀ e k hc (heq ▸ hfol))
    · have hrel : Shadow.Rely t' _ (shadow (RG.worldOf c g)) _ (shadow (RG.worldOf c' g')) :=
        (hm.rely t' ht).1
      rw [hother t' ht] at hrun
      exact .inl (hE t' call e k hrun (hrel.follow.symm.trans hfol))

/-- Which calls account for the empty nodes of a configuration. -/
structure EmptyDue (c : M.client.object.Config) (E : Set ℕ) : Prop where
  /-- Every node that is attached to the root, through latched nodes or not, and holds nothing is
  on the path of a call that has a follow-up to do. -/
  attached : ∃ F e, Depicts c.mem.tree F e ∧ ∀ n, Attached c.mem.tree (.node n) →
    HoldsNothing (c.mem.tree.fields n) →
    ∃ p, F.place n = some (e, p) ∧ Due c E (p ++ F.pre n)
  /-- So is every such node that is linked; through free latches the path is the one that leads to
  the node. -/
  linked : ∀ n p, Linked c.mem.tree p (.node n) → HoldsNothing (c.mem.tree.fields n) →
    ∃ q, Due c E q ∧ (Visible c.mem.tree p (.node n) → p <+: q)
  /-- Where the latch of the node is free as well, it goes on with the prefix of the node. -/
  seen : ∀ n p (pre : PrefixSnapshot), Visible c.mem.tree p (.node n) →
    Free (c.mem.tree.latch (.node n)) →
    loadPrefix.run (c.mem.tree.fields n) = some (pre, c.mem.tree.fields n) →
    Emptied c.mem.tree n → Due c E (p ++ pre.asSlice)
  /-- When no call is in progress, no node that is linked is empty. -/
  quiet : c.Quiescent → ∀ n p, Linked c.mem.tree p (.node n) →
    ¬ Emptied c.mem.tree n ∧ ¬ HoldsNothing (c.mem.tree.fields n)

lemma Behind.due (h : Behind c w) {E : Set ℕ} (hE : ∀ t call e k, c.running t = some call →
    (shadow w).follow t = some (e, k) → call.id ∈ E) {n : NodeId} {p : List Byte}
    (hn : (shadow w).forest.place n = some ((shadow w).cur, p))
    (he : ((shadow w).forest.cont n).Empty) : Due c E (p ++ (shadow w).forest.pre n) := by
  obtain ⟨t, k, hf, hk⟩ := h.inv.tree.cover hn he
  obtain ⟨id, op, htag, htakes⟩ := h.inv.taking t _ k hf
  rw [h.tag t] at htag
  obtain ⟨call, hcall, hop⟩ := Option.map_eq_some_iff.mp htag
  simp only [Prod.mk.injEq] at hop
  refine ⟨t, call, k, hcall, hop.2 ▸ htakes, fun a ha => ?_, hE t call _ k hcall hf, hk⟩
  have hclean := h.clean (t := t) fun call' hcall' => by
    obtain rfl : call = call' := by simpa [hcall] using hcall'
    exact ⟨a, ha⟩
  rw [hclean.follow] at hf
  cases hf

lemma Behind.emptyDue (h : Behind c w) {E : Set ℕ} (hE : ∀ t call e k, c.running t = some call →
    (shadow w).follow t = some (e, k) → call.id ∈ E) : EmptyDue c E := by
  have hd := h.depicts
  have key : ∀ n, Attached c.mem.tree (.node n) → HoldsNothing (c.mem.tree.fields n) →
      ∃ p, (shadow w).forest.place n = some ((shadow w).cur, p) ∧
        Due c E (p ++ (shadow w).forest.pre n) := by
    intro n hn hem
    obtain ⟨p, hp⟩ := hd.attached_node.mp hn
    exact ⟨p, hp, h.due hE hp ((hd.shows hp).holdsNothing_iff.mp hem)⟩
  have hquiet : c.Quiescent → ∀ q, ¬ Due c E q := by
    rintro hq q ⟨t, call, k, hcall, -⟩
    simp [hq t] at hcall
  refine ⟨⟨_, _, hd, key⟩, fun n p hl hem => ?_, fun n p pre hs hfree hpre hem => ?_,
    fun hq n p hl => ?_⟩
  · obtain ⟨q, hq, hdue⟩ := key n (hl.attached (by simp)) hem
    refine ⟨_, hdue, fun hs => ?_⟩
    obtain rfl : p = q := by simpa [hd.seen_node hs] using hq
    exact List.prefix_append _ _
  · have hn := hd.seen_node hs
    rw [hd.prefix_eq hn hfree hpre]
    exact h.due hE hn ((hd.repr hn hfree).empty_iff.mp hem)
  · obtain ⟨q, hn⟩ := hd.attached_node.mp (hl.attached (by simp))
    have hne : ¬ ((shadow w).forest.cont n).Empty := fun he => hquiet hq _ (h.due hE hn he)
    exact ⟨mt (hd.repr hn (h.free hq n q hn)).empty_iff.mp hne,
      mt (hd.shows hn).holdsNothing_iff.mp hne⟩

/-- An empty node is on the path of a call that has yet to follow up on it. -/
theorem emptyDue_of_safe (hM : M.Safe) (hfull : M.roomy → ∀ i, full i = false) {E : Set ℕ}
    (hc : Vacating full c E) : EmptyDue c E := by
  obtain ⟨g, hk, hE⟩ := kept_vacating hM hfull hc 1
  exact (behind_of_kept hM hk).emptyDue hE

end Interface

/-! ## The heap map -/

namespace ArtMap

open Interface

variable {c : interface.client.object.Config}

/-- **Empty nodes** of the heap map.  In every configuration of a run, every empty node that is
reached from the root is on the path of the key of a remove whose follow-up is due: one that has
taken the last entry of a node and has not answered yet.  When no call is in progress, no node that
is linked is empty. -/
theorem no_empty_node {E : Set ℕ} (hc : Vacating (M := interface) (fun _ => false) c E) :
    EmptyDue c E :=
  emptyDue_of_safe safe heap_roomy hc

/-- Three leaves are inserted, which makes a node below another one, and taken out again; of the
last remove, thread 0 takes `n` steps. -/
def emptying (n : ℕ) : interface.client.object.Config :=
  let c₁ := inserting (Object.initial (start fun _ => false)) ⟨0, [1, 1]⟩
  let c₂ := inserting c₁ ⟨1, [1, 2]⟩
  let c₃ := inserting c₂ ⟨2, [2]⟩
  removing (removing (removing c₃ [2] 60) [1, 1] 60) [1, 2] n

lemma reaches_emptying (n : ℕ) : Reaches (emptying n) := by
  have h₁ := reaches_inserting .refl ⟨0, [1, 1]⟩ rfl rfl
  have h₂ := reaches_inserting h₁ ⟨1, [1, 2]⟩ (by decide +kernel) (by decide +kernel)
  have h₃ := reaches_inserting h₂ ⟨2, [2]⟩ (by decide +kernel) (by decide +kernel)
  have h₄ := h₃.trans (steps_removing [2] 60 (by decide +kernel))
  have h₅ := h₄.trans (steps_removing [1, 1] 60 (by decide +kernel))
  exact h₅.trans (steps_removing [1, 2] n (by decide +kernel))

/-- The last remove has unlinked the lower node, and has yet to follow up on the upper one, the
root, which is empty. -/
theorem no_empty_node_emptying : ∃ E, Vacating (M := interface) (fun _ => false) (emptying 46) E ∧
    (emptying 46).mem.tree.root = .node 1 ∧ Emptied (emptying 46).mem.tree 1 ∧
    EmptyDue (emptying 46) E := by
  obtain ⟨E, hE⟩ := exists_vacating (reaches_emptying 46)
  refine ⟨E, hE, ?_, ?_, no_empty_node hE⟩
  · decide +kernel
  · unfold Emptied
    decide +kernel

end ArtMap

end Artmap
