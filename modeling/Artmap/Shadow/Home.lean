import Artmap.Shadow.Step

/-!
# Homes

The home of a key in the tree of an epoch is the node that keeps it, or would keep it.  It is
unique, so a key whose home is latched by a thread that is not clearing is not frozen; nor is a
key that leaves the path of a node within the prefix of that node, since such a key has no home.
-/

namespace Artmap

open scoped List

namespace Shadow

variable {t : ℕ} {m : TreeMem} {S : Shadow} {F : Forest} {n n' : NodeId} {e : ℕ} {k : Key}
  {p q q' : List Byte}

/-- A home has nothing below it on the path of the key. -/
lemma home_bottom (hF : F.WF) (h : Home F e k n) (hq' : F.place n' = some (e, q'))
    (hk : q' <+: k) (hq : F.place n = some (e, q)) (hle : q <+: q') : n' = n := by
  obtain ⟨q₀, hq₀, hhome⟩ := h
  obtain rfl : q = q₀ := by simpa [hq] using hq₀
  obtain ⟨ℓ', hat', hs'⟩ := hF.placed hq'
  rcases hF.through hq hat' hle with ⟨hs, -⟩ | ⟨b, hb⟩
  · rw [hs'] at hs
    simpa using hs
  · exfalso
    rcases hhome with rfl | ⟨b₀, hb₀, hchild⟩
    · have := (hb.trans hk).length_le
      simp at this
    · have hbb : b₀ = b := by
        have := Forest.prefix_eq_of_length hb₀ (hb.trans hk) (by simp)
        simpa using this
      subst hbb
      rcases hF.chain (Forest.at_child hq b₀) hat' hb with rfl | ⟨c, b', hc, -⟩
      · exact hchild n' hs'
      · exact hchild c hc

/-- A key has one home only. -/
lemma home_unique (hF : F.WF) (h : Home F e k n) (h' : Home F e k n') : n = n' := by
  have hpre : ∀ {n}, Home F e k n → ∃ q, F.place n = some (e, q) ∧ q <+: k := by
    rintro n ⟨q, hq, rfl | ⟨b, hb, -⟩⟩
    · exact ⟨q, hq, List.prefix_append _ _⟩
    · refine ⟨q, hq, List.IsPrefix.trans ?_ hb⟩
      rw [List.append_assoc]
      exact List.prefix_append _ _
  obtain ⟨q, hq, hqk⟩ := hpre h
  obtain ⟨q', hq', hqk'⟩ := hpre h'
  rcases le_total q.length q'.length with hle | hle
  · exact (home_bottom hF h hq' hqk' hq (List.prefix_of_prefix_length_le hqk hqk' hle)).symm
  · exact home_bottom hF h' hq hqk hq' (List.prefix_of_prefix_length_le hqk' hqk hle)

/-- A key that leaves the path of a node within its prefix has no home. -/
lemma no_home (hF : F.WF) (hq : F.place n = some (e, q)) (hk : q <+: k)
    (hoff : ¬ q ++ F.pre n <+: k) : ¬ Home F e k n' := by
  intro h
  have h₀ := h
  obtain ⟨q', hq', hhome⟩ := h
  have hbase : q' ++ F.pre n' <+: k := by
    rcases hhome with rfl | ⟨b, hb, -⟩
    · exact List.prefix_rfl
    · exact (List.prefix_append _ _).trans hb
  have hk' : q' <+: k := (List.prefix_append _ _).trans hbase
  rcases le_total q'.length q.length with hle | hle
  · have hnn := home_bottom hF h₀ hq hk hq' (List.prefix_of_prefix_length_le hk' hk hle)
    subst hnn
    obtain rfl : q = q' := by simpa [hq] using hq'
    exact hoff hbase
  · obtain ⟨ℓ', hat', hs'⟩ := hF.placed hq'
    rcases hF.through hq hat' (List.prefix_of_prefix_length_le hk hk' hle) with ⟨hs, -⟩ | ⟨b, hb⟩
    · have hnn : n' = n := by
        rw [hs'] at hs
        simpa using hs
      subst hnn
      obtain rfl : q = q' := by simpa [hq] using hq'
      exact hoff hbase
    · exact hoff (((List.prefix_append _ _).trans hb).trans hk')

/-- The tree of an epoch with a placed node has a node for its root. -/
lemma root_of_placed (hF : F.WF) (hq : F.place n = some (e, q)) : ∃ c, F.root e = .node c := by
  obtain ⟨ℓ, hat, hs⟩ := hF.placed hq
  rcases hF.chain (Forest.at_root e) hat List.nil_prefix with rfl | ⟨c, b, hc, -⟩
  · exact ⟨n, hs⟩
  · exact ⟨c, hc⟩

/-- The leaf that a key is mapped to is in some node. -/
lemma leaf_of_map {r : NodeId} {l : Leaf} (hF : F.WF) (hr : F.root e = .node r)
    (hk : F.map e k = some l) :
    ∃ n q rest, F.place n = some (e, q) ∧ (F.cont n).slotAt rest = .leaf l := by
  -- Down the path of the key, from any node on it.
  have hdown : ∀ i n q, k.length - q.length = i → F.place n = some (e, q) → q <+: k →
      ∃ n q rest, F.place n = some (e, q) ∧ (F.cont n).slotAt rest = .leaf l := by
    intro i
    induction i using Nat.strongRecOn with
    | _ i ih =>
      rintro n q hi hq ⟨tl, rfl⟩
      by_cases hoff : F.pre n <+: tl
      · obtain ⟨rest, rfl⟩ := hoff
        by_cases hnode : ∃ c, (F.cont n).slotAt rest = .node c
        · obtain ⟨c, hc⟩ := hnode
          cases rest with
          | nil => cases hex : (F.cont n).exact <;> simp [Content.slotAt, hex, Slot.ofOption] at hc
          | cons b rest =>
            refine ih _ ?_ c _ rfl (hF.place_of_slot (Forest.at_child hq b) hc)
              ⟨rest, by simp⟩
            simp only [← hi, List.length_append, List.length_cons, List.length_nil]
            omega
        · have hno : ∀ c, (F.cont n).slotAt rest ≠ .node c := fun c hc => hnode ⟨c, hc⟩
          rw [hF.map_node hq (by simp) hno] at hk
          refine ⟨n, q, rest, hq, ?_⟩
          cases hs : (F.cont n).slotAt rest with
          | null => simp [hs, Slot.map] at hk
          | node c => exact absurd hs (hno c)
          | leaf l' =>
            simp only [hs, Slot.map, Option.ite_none_right_eq_some, Option.some.injEq] at hk
            rw [hk.2]
      · rw [hF.map_off hq rfl hoff] at hk
        simp at hk
  exact hdown _ r [] rfl (hF.place_of_slot (Forest.at_root e) hr) List.nil_prefix

/-- A past epoch has not been cleared as long as one of its nodes is latched. -/
lemma not_finished (hi : S.Inv m) (hq : S.forest.place n = some (e, q))
    (ho : S.owner (.node n) = some t) (he : e < S.cur) : S.clearer e ≠ none := by
  refine hi.clearer_of_held hq he fun hw => ?_
  simp [hi.owner_of_obsolete hw] at ho

/-- A key is not frozen while a thread that is not clearing holds the latch of its home. -/
lemma not_frozen_of_home (hi : S.Inv m) (hh : Home S.forest e k n)
    (ho : S.owner (.node n) = some t) (hc : S.clearer e ≠ some t) : ¬ Frozen m S e k := by
  rintro ⟨he, hnone | hr | ⟨n', hn', hw⟩⟩
  · obtain ⟨q, hq, -⟩ := hh
    exact not_finished hi hq ho he hnone
  · obtain ⟨q, hq, -⟩ := hh
    obtain ⟨c, hcr⟩ := root_of_placed hi.wf hq
    exact hr c hcr
  · obtain rfl := home_unique hi.wf hh hn'
    rcases hw with hw | ⟨-, hw⟩
    · simp [hi.owner_of_obsolete hw] at ho
    · exact hc (hw ▸ ho)

lemma not_frozen_of_off (hi : S.Inv m) (hq : S.forest.place n = some (e, q)) (hk : q <+: k)
    (hoff : ¬ q ++ S.forest.pre n <+: k) (ho : S.owner (.node n) = some t) :
    ¬ Frozen m S e k := by
  rintro ⟨he, hnone | hr | ⟨n', hn', -⟩⟩
  · exact not_finished hi hq ho he hnone
  · obtain ⟨c, hcr⟩ := root_of_placed hi.wf hq
    exact hr c hcr
  · exact no_home hi.wf hq hk hoff hn'

lemma not_frozen_cur : ¬ Frozen m S S.cur k :=
  fun h => lt_irrefl _ h.1

/-- Of the nodes on the path of a key, only the last one can be without an inner child. -/
lemma on_path (hF : F.WF) (hq : F.place n = some (e, q)) (hk : q <+: k)
    (hlast : ∀ b c, q ++ F.pre n ++ [b] <+: k → (F.cont n).child b ≠ .node c)
    (hp : F.place n' = some (e, p)) (hpk : p <+: k) :
    n' = n ∨ ∃ b c, (F.cont n').child b = .node c := by
  rcases le_total q.length p.length with hle | hle
  · obtain ⟨ℓ, hat, hs⟩ := hF.placed hp
    rcases hF.through hq hat (List.prefix_of_prefix_length_le hk hpk hle) with ⟨h, -⟩ | ⟨b, hb⟩
    · rw [hs] at h
      exact .inl (by simpa using h)
    · rcases hF.chain (Forest.at_child hq b) hat hb with rfl | ⟨c, b', hc, -⟩
      · exact absurd hs (hlast b n' (hb.trans hpk))
      · exact absurd hc (hlast b c (hb.trans hpk))
  · obtain ⟨ℓ, hat, hs⟩ := hF.placed hq
    rcases hF.through hp hat (List.prefix_of_prefix_length_le hpk hk hle) with ⟨h, -⟩ | ⟨b, hb⟩
    · rw [hs] at h
      exact .inl (by simpa [eq_comm] using h)
    · rcases hF.chain (Forest.at_child hp b) hat hb with rfl | ⟨c, b', hc, -⟩
      · exact .inr ⟨b, n, hs⟩
      · exact .inr ⟨b, c, hc⟩

end Shadow

end Artmap
