import Artmap.Versioned.Spec

/-!
# Chains as lists of cells

A chain in memory is described by the list of its cells, newest first: where each node lies, and
what it holds.  The versions of a leaf are read off this list (`versionsOf`), and each edit of a
descending list is one of the operations on versions.  `Linked` says that the link words of a
memory string the cells together.
-/

namespace Artmap

namespace Versioned

variable {V : Type}

/-- A node of a chain: where it is, and what it holds. -/
structure Cell (V : Type) where
  addr : ℕ
  version : ℕ
  value : Option V

/-- Newest first, each version once. -/
def Desc (cs : List (Cell V)) : Prop :=
  cs.Pairwise fun c d => d.version < c.version

/-- The versions of a chain. -/
def versionsOf (cs : List (Cell V)) : Versions V :=
  fun v => (cs.find? fun d => d.version = v).map Cell.value

section Versions

variable {cs pre mid post : List (Cell V)} {c d : Cell V} {v max : ℕ} {x : Option V}

lemma Desc.nodup_versions (h : Desc cs) : (cs.map Cell.version).Nodup :=
  List.pairwise_map.mpr (h.imp fun hlt => Nat.ne_of_gt hlt)

lemma Desc.inj (h : Desc cs) (hc : c ∈ cs) (hd : d ∈ cs) (he : c.version = d.version) :
    c = d :=
  List.inj_on_of_nodup_map h.nodup_versions hc hd he

lemma versionsOf_eq_some (h : Desc cs) :
    versionsOf cs v = some x ↔ ∃ d ∈ cs, d.version = v ∧ d.value = x := by
  unfold versionsOf
  rw [Option.map_eq_some_iff]
  constructor
  · rintro ⟨d, hd, rfl⟩
    exact ⟨d, List.mem_of_find?_eq_some hd, by simpa using List.find?_some hd, rfl⟩
  · rintro ⟨d, hd, rfl, rfl⟩
    refine ⟨d, ?_, rfl⟩
    cases hf : cs.find? fun e => decide (e.version = d.version) with
    | none =>
      have := List.find?_eq_none.mp hf d hd
      simp at this
    | some e =>
      have he : e.version = d.version := by simpa using List.find?_some hf
      rw [h.inj (List.mem_of_find?_eq_some hf) hd he]

lemma versionsOf_isSome (h : Desc cs) :
    (versionsOf cs v).isSome ↔ ∃ d ∈ cs, d.version = v := by
  rw [Option.isSome_iff_exists]
  simp only [versionsOf_eq_some h]
  constructor
  · rintro ⟨x, d, hd, hv, -⟩
    exact ⟨d, hd, hv⟩
  · rintro ⟨d, hd, hv⟩
    exact ⟨d.value, d, hd, hv, rfl⟩

lemma versionsOf_of_mem (h : Desc cs) (hd : d ∈ cs) : versionsOf cs d.version = some d.value :=
  (versionsOf_eq_some h).mpr ⟨d, hd, rfl, rfl⟩

lemma Desc.lt_of_mem_pre (h : Desc (pre ++ d :: post)) (hc : c ∈ pre) :
    d.version < c.version :=
  (List.pairwise_append.mp h).2.2 c hc d List.mem_cons_self

lemma Desc.lt_of_mem_post (h : Desc (pre ++ d :: post)) (hc : c ∈ post) :
    c.version < d.version :=
  List.rel_of_pairwise_cons (List.pairwise_append.mp h).2.1 hc

/-- The first cell that is not too new is the newest of those. -/
lemma newestLe_versionsOf (h : Desc (pre ++ d :: post)) (hpre : ∀ c ∈ pre, max < c.version)
    (hd : d.version ≤ max) : (versionsOf (pre ++ d :: post)).NewestLe max d.version := by
  constructor
  · exact ⟨hd, (versionsOf_isSome h).mpr ⟨d, by simp, rfl⟩⟩
  · rintro w ⟨hw, hs⟩
    obtain ⟨c, hc, rfl⟩ := (versionsOf_isSome h).mp hs
    rcases List.mem_append.mp hc with hc | hc
    · exact absurd (hpre c hc) (by omega)
    · rcases List.mem_cons.mp hc with rfl | hc
      · exact le_rfl
      · exact (h.lt_of_mem_post hc).le

lemma newest_versionsOf (h : Desc (d :: post)) : (versionsOf (d :: post)).Newest d.version := by
  constructor
  · exact (versionsOf_isSome h).mpr ⟨d, by simp, rfl⟩
  · intro w hs
    obtain ⟨c, hc, rfl⟩ := (versionsOf_isSome h).mp hs
    rcases List.mem_cons.mp hc with rfl | hc
    · exact le_rfl
    · exact (List.rel_of_pairwise_cons h hc).le

/-- A key is live if its newest node is no tombstone. -/
lemma isLive_versionsOf (h : Desc (d :: post)) :
    (versionsOf (d :: post)).Live ↔ d.value.isNone = false := by
  have hn := newest_versionsOf h
  have hd := versionsOf_of_mem h (d := d) List.mem_cons_self
  constructor
  · rintro ⟨v, x, hv, hvx⟩
    rw [hv.unique hn, hd] at hvx
    rw [Option.some.inj hvx]
    rfl
  · intro hsome
    obtain ⟨x, hx⟩ := Option.isSome_iff_exists.mp (by simpa using hsome)
    exact ⟨d.version, x, hn, by rw [hd, hx]⟩

lemma live_versionsOf (h : Desc (d :: post)) :
    (versionsOf (d :: post)).live = liveCount d.value.isNone := by
  unfold Versions.live liveCount
  rw [isLive_versionsOf h]
  cases d.value.isNone <;> simp

/-! ### Edits -/

lemma Desc.replace (h : Desc (pre ++ mid ++ post)) (hpre : ∀ c ∈ pre, d.version < c.version)
    (hpost : ∀ c ∈ post, c.version < d.version) : Desc (pre ++ d :: post) := by
  obtain ⟨h1, h2, h3⟩ := List.pairwise_append.mp h
  obtain ⟨h1, -, -⟩ := List.pairwise_append.mp h1
  refine List.pairwise_append.mpr ⟨h1, List.pairwise_cons.mpr ⟨hpost, h2⟩, ?_⟩
  intro c hc e he
  rcases List.mem_cons.mp he with rfl | he
  · exact hpre c hc
  · exact h3 c (List.mem_append_left _ hc) e he

/-- A cell among those that are newer and those that are older puts its version, in place of the
cells in between. -/
lemma versionsOf_put (h : Desc (pre ++ mid ++ post)) (hpre : ∀ c ∈ pre, d.version < c.version)
    (hmid : ∀ c ∈ mid, c.version = d.version) (hpost : ∀ c ∈ post, c.version < d.version) :
    versionsOf (pre ++ d :: post) = (versionsOf (pre ++ mid ++ post)).put d.version d.value := by
  funext w
  refine Option.ext fun x => ?_
  rw [versionsOf_eq_some (h.replace hpre hpost)]
  by_cases hw : w = d.version
  · subst hw
    simp only [Versions.put, Function.update_self, Option.some.injEq]
    constructor
    · rintro ⟨c, hc, hv, rfl⟩
      rw [(h.replace hpre hpost).inj hc (by simp) hv]
    · rintro rfl
      exact ⟨d, by simp, rfl, rfl⟩
  · simp only [Versions.put, Function.update_of_ne hw, versionsOf_eq_some h, List.mem_append,
      List.mem_cons]
    constructor
    · rintro ⟨c, hc | rfl | hc, hv, hx⟩
      · exact ⟨c, .inl (.inl hc), hv, hx⟩
      · exact absurd hv.symm hw
      · exact ⟨c, .inr hc, hv, hx⟩
    · rintro ⟨c, (hc | hc) | hc, hv, hx⟩
      · exact ⟨c, .inl hc, hv, hx⟩
      · exact absurd (hv.symm.trans (hmid c hc)) hw
      · exact ⟨c, .inr (.inr hc), hv, hx⟩

lemma Desc.drop (h : Desc (pre ++ d :: post)) : Desc (pre ++ post) :=
  h.sublist ((List.sublist_cons_self d post).append_left pre)

lemma versionsOf_erase (h : Desc (pre ++ d :: post)) :
    versionsOf (pre ++ post) = (versionsOf (pre ++ d :: post)).erase d.version := by
  funext w
  refine Option.ext fun x => ?_
  rw [versionsOf_eq_some h.drop]
  by_cases hw : w = d.version
  · subst hw
    simp only [Versions.erase, Function.update_self, reduceCtorEq, iff_false]
    rintro ⟨c, hc, hv, -⟩
    rcases List.mem_append.mp hc with hc | hc
    · exact absurd (h.lt_of_mem_pre hc) (by omega)
    · exact absurd (h.lt_of_mem_post hc) (by omega)
  · simp only [Versions.erase, Function.update_of_ne hw, versionsOf_eq_some h, List.mem_append,
      List.mem_cons]
    constructor
    · rintro ⟨c, hc | hc, hv, hx⟩
      · exact ⟨c, .inl hc, hv, hx⟩
      · exact ⟨c, .inr (.inr hc), hv, hx⟩
    · rintro ⟨c, hc | rfl | hc, hv, hx⟩
      · exact ⟨c, .inl hc, hv, hx⟩
      · exact absurd hv.symm hw
      · exact ⟨c, .inr hc, hv, hx⟩

lemma Desc.cut (h : Desc (pre ++ d :: post)) : Desc (pre ++ [d]) :=
  h.sublist (((List.nil_sublist post).cons_cons d).append_left pre)

lemma versionsOf_since (h : Desc (pre ++ d :: post)) :
    versionsOf (pre ++ [d]) = (versionsOf (pre ++ d :: post)).since d.version := by
  funext w
  refine Option.ext fun x => ?_
  rw [versionsOf_eq_some h.cut]
  unfold Versions.since
  by_cases hw : d.version ≤ w
  · rw [if_pos hw, versionsOf_eq_some h]
    constructor
    · rintro ⟨c, hc, hv, hx⟩
      exact ⟨c, List.mem_append.mpr ((List.mem_append.mp hc).imp_right fun h => by simp_all),
        hv, hx⟩
    · rintro ⟨c, hc, hv, hx⟩
      rcases List.mem_append.mp hc with hc | hc
      · exact ⟨c, by simp [hc], hv, hx⟩
      · rcases List.mem_cons.mp hc with rfl | hc
        · exact ⟨c, by simp, hv, hx⟩
        · exact absurd (h.lt_of_mem_post hc) (by omega)
  · simp only [if_neg hw, reduceCtorEq, iff_false]
    rintro ⟨c, hc, hv, -⟩
    rcases List.mem_append.mp hc with hc | hc
    · exact absurd (h.lt_of_mem_pre hc) (by omega)
    · rw [List.mem_singleton.mp hc] at hv
      omega

/-- A set of versions that are those of some cells. -/
lemma ncard_versions (h : Desc cs) {s : Set ℕ} (hs : ∀ w, w ∈ s ↔ ∃ d ∈ cs, d.version = w) :
    s.ncard = cs.length := by
  have hset : s = ((cs.map Cell.version).toFinset : Set ℕ) := by
    ext w
    simp [hs]
  rw [hset, Set.ncard_coe_finset, List.toFinset_card_of_nodup h.nodup_versions, List.length_map]

lemma count_versionsOf (h : Desc cs) : (versionsOf cs).count = cs.length :=
  ncard_versions h fun _ => versionsOf_isSome h

lemma countBelow_versionsOf (h : Desc (pre ++ d :: post)) :
    (versionsOf (pre ++ d :: post)).countBelow d.version = post.length := by
  have hpost : Desc post := (List.pairwise_cons.mp (List.pairwise_append.mp h).2.1).2
  refine ncard_versions hpost fun w => ?_
  rw [Set.mem_ofPred_eq, versionsOf_isSome h]
  constructor
  · rintro ⟨hw, c, hc, rfl⟩
    rcases List.mem_append.mp hc with hc | hc
    · exact absurd (h.lt_of_mem_pre hc) (by omega)
    · rcases List.mem_cons.mp hc with rfl | hc
      · exact absurd hw (lt_irrefl _)
      · exact ⟨c, hc, rfl⟩
  · rintro ⟨c, hc, rfl⟩
    exact ⟨h.lt_of_mem_post hc, c, by simp [hc], rfl⟩

end Versions

/-! ## Links -/

/-- The address of the first cell, or null. -/
def firstAddr (cs : List (Cell V)) : ℕ :=
  (cs.head?.map Cell.addr).getD 0

@[simp] lemma firstAddr_nil : firstAddr ([] : List (Cell V)) = 0 := rfl

@[simp] lemma firstAddr_cons (d : Cell V) (cs : List (Cell V)) :
    firstAddr (d :: cs) = d.addr := rfl

/-- From `p` on, the links of a memory lead through the cells, and end. -/
def Linked (node : ℕ → VersionNode V) : ℕ → List (Cell V) → Prop
  | p, [] => p = 0
  | p, d :: cs => p = d.addr ∧ Linked node (linkOf (node p).next) cs

section Links

variable {node node' : ℕ → VersionNode V} {cs pre post rest : List (Cell V)} {c d : Cell V}
  {p q : ℕ}

lemma Linked.first (h : Linked node p cs) : p = firstAddr cs := by
  cases cs with
  | nil => exact h
  | cons d cs => exact h.1

/-- Links elsewhere do not matter. -/
lemma Linked.congr (h : Linked node p cs)
    (he : ∀ d ∈ cs, linkOf (node' d.addr).next = linkOf (node d.addr).next) :
    Linked node' p cs := by
  induction cs generalizing p with
  | nil => exact h
  | cons d cs ih =>
    obtain ⟨rfl, h⟩ := h
    refine ⟨rfl, ?_⟩
    rw [he d List.mem_cons_self]
    exact ih h fun e hm => he e (List.mem_cons_of_mem d hm)

/-- The part of a chain after a cell. -/
lemma Linked.after (h : Linked node p (pre ++ d :: post)) :
    Linked node (linkOf (node d.addr).next) post := by
  induction pre generalizing p with
  | nil =>
    obtain ⟨rfl, h⟩ := h
    exact h
  | cons c pre ih => exact ih h.2

/-- Another end for a chain, from a cell on. -/
lemma Linked.splice (h : Linked node p (pre ++ d :: post))
    (hpre : ∀ c ∈ pre, linkOf (node' c.addr).next = linkOf (node c.addr).next)
    (hd : Linked node' (linkOf (node' d.addr).next) rest) :
    Linked node' p (pre ++ d :: rest) := by
  induction pre generalizing p with
  | nil => exact ⟨h.1, by rw [h.1]; exact hd⟩
  | cons c pre ih =>
    obtain ⟨rfl, h⟩ := h
    refine ⟨rfl, ?_⟩
    rw [hpre c List.mem_cons_self]
    exact ih h fun e he => hpre e (List.mem_cons_of_mem c he)

end Links

end Versioned

end Artmap
