import Artmap.Forest.Surgery

/-!
# Chains of prefix nodes

Two leaves below one location share a prefix that may be longer than a node can keep.  The leaf
that is there is then moved down below a chain of fresh nodes, each with a part of the prefix
and one branch byte, to a bottom node where the other leaf can be put.  On forests, this is a
`plant` for every node of the chain, from the top down; the map does not change.
-/

namespace Artmap

open scoped List

namespace Forest

variable {F : Forest} {ℓ ℓ' : Loc} {e e' : ℕ} {p p' : List Byte} {n m c : NodeId} {b : Byte}
  {s : Slot} {old : Leaf}

/-- A node of a chain: a prefix, a branch byte, and what is below. -/
def link (seg : List Byte) (y : Byte) (s : Slot) : Content where
  pre := seg
  exact := none
  child := Function.update (fun _ => .null) y s

/-- A node that holds one leaf, whose key goes on with `suffix` below the prefix. -/
def lone (pre suffix : List Byte) (l : Leaf) : Content :=
  match suffix with
  | [] => ⟨pre, some l, fun _ => .null⟩
  | y :: _ => link pre y (.leaf l)

/-- The nodes of a chain above its bottom: where they are, and what they keep. -/
abbrev Links := List (NodeId × List Byte × Byte)

/-- The top of a chain. -/
def topOf (L : Links) (bottom : NodeId) : NodeId :=
  match L with
  | [] => bottom
  | (m, _) :: _ => m

/-- The bytes along a chain. -/
def along : Links → List Byte
  | [] => []
  | (_, seg, y) :: L => seg ++ y :: along L

/-- The leaf at location `ℓ` is moved down below the chain `L` to the node `bottom`. -/
def chain (F : Forest) (ℓ : Loc) (e : ℕ) (p : List Byte) : Links → NodeId → Content → Forest
  | [], bottom, C => F.plant ℓ e p bottom C
  | (m, seg, y) :: L, bottom, C =>
    (F.plant ℓ e p m (link seg y (F.slot ℓ))).chain (.child m y) e (p ++ seg ++ [y]) L bottom C

/-- The nodes of a chain are linked to each other. -/
def LinkedBy (F : Forest) : Links → NodeId → Prop
  | [], _ => True
  | (m, seg, y) :: L, bottom =>
    F.cont m = link seg y (.node (topOf L bottom)) ∧ LinkedBy F L bottom

/-- The result of a chain. -/
structure Chained (F F' : Forest) (ℓ : Loc) (e : ℕ) (p : List Byte) (L : Links)
    (bottom : NodeId) (C : Content) : Prop where
  wf : F'.WF
  map : F'.map = F.map
  root : F'.root = (F.setSlot ℓ (.node (topOf L bottom))).root
  other : ∀ n, n ∉ L.map Prod.fst → n ≠ bottom →
    F'.cont n = (F.setSlot ℓ (.node (topOf L bottom))).cont n ∧ F'.place n = F.place n
  placed : ∀ n, n ∈ L.map Prod.fst → ∃ q, F'.place n = some (e, q)
  links : F'.LinkedBy L bottom
  bottom_cont : F'.cont bottom = C
  bottom_place : F'.place bottom = some (e, p ++ along L)

/-- What is around a leaf that is alone below a location. -/
lemma WF.alone (hF : F.WF) (h : F.At ℓ e p) (hs : F.slot ℓ = .leaf old) :
    p <+: old.key ∧ ∀ k, p <+: k → F.map e k = if k = old.key then some old else none := by
  have := hF.holds h
  rwa [hs] at this

/-- Planting one node above a leaf. -/
lemma WF.plant_link (hF : F.WF) (h : F.At ℓ e p) (hs : F.slot ℓ = .leaf old)
    (hm : F.place m = none) {seg : List Byte} {y : Byte} (hlen : seg.length ≤ 16)
    (hkey : p ++ seg ++ [y] <+: old.key) : (F.plant ℓ e p m (link seg y (.leaf old))).WF := by
  obtain ⟨-, hmap⟩ := hF.alone h hs
  refine hF.plant h (by simp [hs]) hm hlen ?_ ?_ ?_ ?_
  · intro k hk hoff
    rw [hmap k hk, if_neg]
    rintro rfl
    exact hoff ((List.prefix_append _ _).trans hkey)
  · rw [hmap _ (List.prefix_append _ _), if_neg]
    · rfl
    · intro heq
      have := hkey.length_le
      rw [← heq] at this
      simp [link] at this
  · intro b c
    by_cases hb : b = y
    · subst hb
      simp [link]
    · simp [link, hb]
  · intro b
    have hpb : p <+: p ++ seg ++ [b] := by
      rw [List.append_assoc]
      exact List.prefix_append _ _
    by_cases hb : b = y
    · subst hb
      simp only [link, Function.update_self]
      exact ⟨hkey, fun k hk => hmap k (hpb.trans hk)⟩
    · simp only [link, Function.update_of_ne hb]
      intro k hk
      rw [hmap k (hpb.trans hk), if_neg]
      rintro rfl
      have := prefix_eq_of_length hk hkey (by simp)
      simp at this
      exact hb this

/-- Planting the bottom node. -/
lemma WF.plant_lone (hF : F.WF) (h : F.At ℓ e p) (hs : F.slot ℓ = .leaf old)
    (hm : F.place m = none) {pre suffix : List Byte} (hlen : pre.length ≤ 16)
    (hkey : old.key = p ++ pre ++ suffix) :
    (F.plant ℓ e p m (lone pre suffix old)).WF := by
  cases suffix with
  | cons y rest =>
    refine hF.plant_link h hs hm hlen ?_
    rw [hkey]
    exact ⟨rest, by simp⟩
  | nil =>
    obtain ⟨-, hmap⟩ := hF.alone h hs
    rw [List.append_nil] at hkey
    refine hF.plant h (by simp [hs]) hm hlen ?_ ?_ (by simp [lone]) ?_
    · intro k hk hoff
      rw [hmap k hk, if_neg]
      rintro rfl
      exact hoff (by rw [hkey]; exact List.prefix_rfl)
    · show F.map e (p ++ pre) = some old
      rw [hmap _ (List.prefix_append _ _), if_pos hkey.symm]
    · intro b k hk
      have hpk : p ++ pre <+: k := (List.prefix_append _ _).trans hk
      rw [hmap k ((List.prefix_append _ _).trans hpk), if_neg]
      rintro rfl
      have := hk.length_le
      rw [hkey] at this
      simp [lone] at this

/-- A leaf is moved down below a chain. -/
theorem WF.chain_spec (hF : F.WF) (h : F.At ℓ e p) (hs : F.slot ℓ = .leaf old) {L : Links}
    {bottom : NodeId} {pre suffix : List Byte}
    (hnew : ∀ n, n ∈ L.map Prod.fst ∨ n = bottom → F.place n = none)
    (hnodup : (L.map Prod.fst).Nodup) (hbot : bottom ∉ L.map Prod.fst)
    (hseg : ∀ i ∈ L, i.2.1.length ≤ 16) (hlen : pre.length ≤ 16)
    (hkey : old.key = p ++ along L ++ pre ++ suffix) :
    Chained F (F.chain ℓ e p L bottom (lone pre suffix old)) ℓ e p L bottom
      (lone pre suffix old) := by
  induction L generalizing F ℓ p with
  | nil =>
    have hkey' : old.key = p ++ pre ++ suffix := by simpa [along] using hkey
    have hb : F.place bottom = none := hnew bottom (.inr rfl)
    refine
      { wf := hF.plant_lone h hs hb hlen hkey'
        map := by simp [Forest.chain, Forest.plant]
        root := rfl
        other := fun n _ hn => ?_
        placed := by simp
        links := trivial
        bottom_cont := by simp [Forest.chain, Forest.plant]
        bottom_place := by simp [Forest.chain, Forest.plant, along] }
    simp [Forest.chain, Forest.plant, hn, topOf]
  | cons i L ih =>
    obtain ⟨m, seg, y⟩ := i
    have hnd : m ∉ L.map Prod.fst ∧ (L.map Prod.fst).Nodup := by simpa using hnodup
    have hbm : bottom ≠ m := fun hbm => hbot (by simp [hbm])
    have hbL : bottom ∉ L.map Prod.fst := fun hb => hbot (by simp [hb])
    have hm : F.place m = none := hnew m (.inl (by simp))
    have hkey' : p ++ seg ++ [y] <+: old.key := by
      rw [hkey]
      exact ⟨along L ++ pre ++ suffix, by simp [along]⟩
    have hlseg : seg.length ≤ 16 := hseg (m, seg, y) (by simp)
    have hF₁ := hF.plant_link h hs hm hlseg hkey'
    set F₁ := F.plant ℓ e p m (link seg y (.leaf old)) with hF₁def
    have hcont₁ : F₁.cont m = link seg y (.leaf old) := by simp [hF₁def, Forest.plant]
    have hat₁ : F₁.At (.child m y) e (p ++ seg ++ [y]) :=
      ⟨p, by simp [hF₁def, Forest.plant], by rw [Forest.pre, hcont₁]; rfl⟩
    have hs₁ : F₁.slot (.child m y) = .leaf old := by
      show (F₁.cont m).child y = _
      rw [hcont₁]
      simp [link]
    have hrec := ih hF₁ hat₁ hs₁ (fun n hn => ?_) hnd.2 hbL
      (fun i hi => hseg i (by simp [hi])) (by rw [hkey]; simp [along])
    · have hchain : F.chain ℓ e p ((m, seg, y) :: L) bottom (lone pre suffix old) =
          F₁.chain (.child m y) e (p ++ seg ++ [y]) L bottom (lone pre suffix old) := by
        simp only [Forest.chain, hs, ← hF₁def]
      rw [hchain]
      refine
        { wf := hrec.wf
          map := hrec.map.trans (by simp [hF₁def, Forest.plant])
          root := ?_, other := ?_, placed := ?_, links := ⟨?_, hrec.links⟩
          bottom_cont := hrec.bottom_cont
          bottom_place := by rw [hrec.bottom_place]; simp [along] }
      · rw [hrec.root]
        rfl
      · intro n hn hnb
        have hnm : n ≠ m := fun h => hn (by simp [h])
        have hnL : n ∉ L.map Prod.fst := fun h => hn (by simp [h])
        obtain ⟨h1, h2⟩ := hrec.other n hnL hnb
        rw [h1, h2]
        simp [hF₁def, Forest.plant, Forest.setSlot, hnm, topOf]
      · intro n hn
        simp only [List.map_cons, List.mem_cons] at hn
        rcases hn with rfl | hn
        · obtain ⟨-, h2⟩ := hrec.other n hnd.1 hbm.symm
          exact ⟨p, by rw [h2]; simp [hF₁def, Forest.plant]⟩
        · exact hrec.placed n hn
      · obtain ⟨h1, -⟩ := hrec.other m hnd.1 hbm.symm
        rw [h1]
        simp only [Forest.setSlot, Function.update_self, hcont₁]
        simp [link, Content.setChild]
    · have hnm : n ≠ m := by
        rintro rfl
        rcases hn with hn | rfl
        · exact hnd.1 hn
        · exact hbm rfl
      have : F.place n = none := hnew n (hn.imp (fun h => by simp [h]) id)
      simpa [hF₁def, Forest.plant, hnm] using this

end Forest

end Artmap
