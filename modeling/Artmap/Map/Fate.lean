import Artmap.Map.Structure

/-!
# The fate of nodes and leaves

Every node that was ever allocated is, at every moment of a run, in one of a few states
(`NodeFate`): unpublished in the pool of a call, in the tree, in a tree that a clear has detached,
out of its tree and due to be retired by the call that took it out, retired, or freed without
having been published.  So is every leaf (`LeafFate`), which a call builds and owns until it
publishes it, hands it out again or frees it.

The tree is what is attached to its root, through latched nodes or not, so that what is retired is
out of reach in every configuration.  Nothing is retired or freed twice, nothing that was published
is freed, and a call that is over leaves nothing behind.
-/

namespace Artmap

/-- Where a node is. -/
inductive NodeFate where
  /-- It has not been allocated. -/
  | fresh
  /-- Thread `t` has it in its pool. -/
  | pooled (t : ℕ)
  | linked
  /-- It is in a tree of the past, which thread `t` has detached. -/
  | detached (t : ℕ)
  /-- Thread `t` has taken it out of its tree and is to retire it. -/
  | unlinked (t : ℕ)
  | retired
  | freed

namespace NodeFate

/-- The thread that is to deal with the node. -/
def owner : NodeFate → Option ℕ
  | pooled t => some t
  | detached t => some t
  | unlinked t => some t
  | _ => none

/-- The node has been in a tree. -/
def Published : NodeFate → Prop
  | linked => True
  | detached _ => True
  | unlinked _ => True
  | retired => True
  | _ => False

end NodeFate

/-- Where a leaf is. -/
inductive LeafFate where
  /-- It has not been built. -/
  | unbuilt
  /-- Thread `t` has it, and has not published it. -/
  | held (t : ℕ)
  | linked
  /-- It is in a tree of the past, which thread `t` has detached. -/
  | detached (t : ℕ)
  /-- Thread `t` has taken it out of the map and is to retire it. -/
  | unlinked (t : ℕ)
  | retired
  | freed

namespace LeafFate

/-- The thread that is to deal with the leaf. -/
def owner : LeafFate → Option ℕ
  | held t => some t
  | detached t => some t
  | unlinked t => some t
  | _ => none

/-- The leaf has been in a tree. -/
def Published : LeafFate → Prop
  | linked => True
  | detached _ => True
  | unlinked _ => True
  | retired => True
  | _ => False

end LeafFate

/-! ## In the shadow -/

namespace Shadow

variable {m m' : TreeMem} {S S' : Shadow} {n : NodeId} {t : ℕ}

open Classical in
/-- The fate of a node, as the shadow has it. -/
noncomputable def fate (m : TreeMem) (S : Shadow) (n : NodeId) : NodeFate :=
  if m.next ≤ n then .fresh
  else if n ∈ m.retired then .retired
  else if n ∈ m.freed then .freed
  else match S.priv n, S.due n, S.forest.place n with
    | some t, _, _ => .pooled t
    | none, some t, _ => .unlinked t
    | none, none, some (e, _) =>
      if e = S.cur then .linked else .detached ((S.clearer e).getD 0)
    | none, none, none => .fresh

/-- What is known of a node in the shadow, case by case. -/
inductive Fated (m : TreeMem) (S : Shadow) (n : NodeId) : NodeFate → Prop where
  | fresh (h : m.next ≤ n) (hr : n ∉ m.retired) (hf : n ∉ m.freed)
      (hp : S.forest.place n = none) (hpub : ¬ S.pub n) : Fated m S n .fresh
  | pooled {t : ℕ} (h : n < m.next) (hr : n ∉ m.retired) (hf : n ∉ m.freed)
      (ht : S.priv n = some t) (hp : S.forest.place n = none) (hpub : ¬ S.pub n) :
      Fated m S n (.pooled t)
  | linked {p : List Byte} (h : n < m.next) (hr : n ∉ m.retired) (hf : n ∉ m.freed)
      (hp : S.forest.place n = some (S.cur, p)) (hpub : S.pub n) : Fated m S n .linked
  | detached {e : ℕ} {p : List Byte} {t : ℕ} (h : n < m.next) (hr : n ∉ m.retired)
      (hf : n ∉ m.freed) (hp : S.forest.place n = some (e, p)) (he : e < S.cur)
      (ht : S.clearer e = some t) (hpub : S.pub n) : Fated m S n (.detached t)
  | unlinked {t : ℕ} (h : n < m.next) (hr : n ∉ m.retired) (hf : n ∉ m.freed)
      (ht : S.due n = some t) (hp : S.forest.place n = none) (hpub : S.pub n) :
      Fated m S n (.unlinked t)
  | retired (h : n < m.next) (hr : n ∈ m.retired) (hf : n ∉ m.freed)
      (hp : ∀ p, S.forest.place n ≠ some (S.cur, p)) (hpub : S.pub n) : Fated m S n .retired
  | freed (h : n < m.next) (hr : n ∉ m.retired) (hf : n ∈ m.freed)
      (hp : S.forest.place n = none) (hpub : ¬ S.pub n) : Fated m S n .freed

lemma Inv.unplaced (hi : S.Inv m) (h : ¬ S.pub n) : S.forest.place n = none := by
  by_contra hp
  exact h (hi.pub_placed hp)

lemma Inv.fated (hi : S.Inv m) (n : NodeId) : Fated m S n (S.fate m n) := by
  have hL := hi.ledger
  by_cases hlt : m.next ≤ n
  · have hpub : ¬ S.pub n := fun h => not_lt.mpr hlt (hi.pub_lt h)
    rw [fate, if_pos hlt]
    exact .fresh hlt (fun h => hpub (hL.retired h).1)
      (fun h => not_lt.mpr hlt (hL.freed h).1) (hi.unplaced hpub) hpub
  have hlt' : n < m.next := not_le.mp hlt
  by_cases hr : n ∈ m.retired
  · obtain ⟨hpub, -, hw⟩ := hL.retired hr
    rw [fate, if_neg hlt, if_pos hr]
    exact .retired hlt' hr (fun h => (hL.freed h).2.1 hpub)
      (fun p hp => lt_irrefl _ (hi.obsolete_past hw hp)) hpub
  by_cases hf : n ∈ m.freed
  · obtain ⟨-, hpub, -⟩ := hL.freed hf
    rw [fate, if_neg hlt, if_neg hr, if_pos hf]
    exact .freed hlt' hr hf (hi.unplaced hpub) hpub
  rw [fate, if_neg hlt, if_neg hr, if_neg hf]
  cases hpr : S.priv n with
  | some t =>
    have hpub := (hi.priv_lt hpr).2
    exact .pooled hlt' hr hf hpr (hi.unplaced hpub) hpub
  | none =>
    cases hd : S.due n with
    | some t =>
      obtain ⟨hpub, hp, -⟩ := hL.due hd
      exact .unlinked hlt' hr hf hd hp hpub
    | none =>
      cases hp : S.forest.place n with
      | none =>
        rcases hL.fate hlt' with h | h | h | h | h
        exacts [absurd hpr h, absurd hp h, absurd hd h, absurd h hr, absurd h hf]
      | some q =>
        obtain ⟨e, p⟩ := q
        have hpub := hi.pub_placed (n := n) (by rw [hp]; simp)
        simp only
        split_ifs with he
        · exact .linked hlt' hr hf (he ▸ hp) hpub
        · have hlt : e < S.cur := lt_of_le_of_ne (hi.place_le hp) he
          cases hc : S.clearer e with
          | none => exact absurd (hL.cleared hlt hc hp) hr
          | some t => exact .detached hlt' hr hf hp hlt hc hpub

lemma Inv.fated_of (hi : S.Inv m) {f : NodeFate} (h : S.fate m n = f) : Fated m S n f :=
  h ▸ hi.fated n

lemma Fated.published {f : NodeFate} (h : Fated m S n f) : f.Published ↔ S.pub n := by
  cases h <;> simp_all [NodeFate.Published]

lemma Fated.fresh_iff {f : NodeFate} (h : Fated m S n f) : f = .fresh ↔ m.next ≤ n := by
  cases h <;> simp_all

lemma Fated.retired_iff {f : NodeFate} (h : Fated m S n f) : f = .retired ↔ n ∈ m.retired := by
  cases h <;> simp_all

lemma Fated.freed_iff {f : NodeFate} (h : Fated m S n f) : f = .freed ↔ n ∈ m.freed := by
  cases h <;> simp_all

lemma Fated.linked_iff {f : NodeFate} (h : Fated m S n f) :
    f = .linked ↔ ∃ p, S.forest.place n = some (S.cur, p) := by
  cases h with
  | detached _ _ _ hp he => simp [hp, he.ne]
  | _ => simp_all

/-- A clean thread is not the owner of any node. -/
lemma Fated.not_owner {f : NodeFate} (h : Fated m S n f) (hc : S.Clean t) : f.owner ≠ some t := by
  cases h with
  | pooled _ _ _ ht => exact fun h => hc.priv n (by rw [ht]; simpa [NodeFate.owner] using h)
  | detached _ _ _ _ _ ht =>
    exact fun h => hc.clearer _ (by rw [ht]; simpa [NodeFate.owner] using h)
  | unlinked _ _ _ ht => exact fun h => hc.due n (by rw [ht]; simpa [NodeFate.owner] using h)
  | _ => simp [NodeFate.owner]

end Shadow

namespace Interface

open Client (tree shadow scene)

variable {M : Interface} {full : ℕ → Bool} {c c' : M.client.object.Config} {w : M.client.W}

/-! ## Leaves -/

/-- What is known of a leaf, case by case. -/
inductive LeafFated (v : View) (g : M.Ghost) (l : Leaf) : LeafFate → Prop where
  | unbuilt (h : g.st l = .blank) : LeafFated v g l .unbuilt
  | held {t : ℕ} (h : g.st l = .held t) : LeafFated v g l (.held t)
  | linked (h : g.st l = .linked) (hmap : v.map v.cur l.key = some l) : LeafFated v g l .linked
  | detached {e t : ℕ} (h : g.st l = .linked) (hmap : v.map e l.key = some l) (he : e < v.cur)
      (ht : g.sweep e = some t) : LeafFated v g l (.detached t)
  | unlinked {t : ℕ} (h : g.st l = .cut t ∨ g.st l = .marked t) : LeafFated v g l (.unlinked t)
  | retired (h : g.st l = .retired) : LeafFated v g l .retired
  | freed (h : g.st l = .freed) : LeafFated v g l .freed

section Leaves

variable {x : M.MapScene} {l : Leaf} {t : ℕ} {f : LeafFate}

/-- A linked leaf is one of the current map, or is up to the clear of its epoch. -/
lemma Inv.leafFated_linked (hi : Inv x) (hfuture : ∀ e k, x.view.cur < e → x.view.map e k = none)
    (hs : x.ghost.st l = .linked) : ∃ f, LeafFated x.view x.ghost l f := by
  obtain ⟨e, he⟩ := hi.leaf.linked l hs
  rcases Nat.lt_trichotomy e x.view.cur with hlt | rfl | hgt
  · rcases hi.leaf.past e hlt with hsw | ⟨-, hlive⟩
    · obtain ⟨t, ht⟩ := Option.ne_none_iff_exists'.mp hsw
      exact ⟨_, .detached hs he hlt ht⟩
    · have hmem := (hi.leaf.live e l.key).mpr ⟨l, he, hs⟩
      simp [hlive] at hmem
  · exact ⟨_, .linked hs he⟩
  · simp [hfuture e l.key hgt] at he

/-- Where no call fails, every leaf has a fate. -/
lemma Inv.exists_leafFated (hi : Inv x) (hfails : ∀ a, M.fails a = false)
    (hfuture : ∀ e k, x.view.cur < e → x.view.map e k = none) (l : Leaf) :
    ∃ f, LeafFated x.view x.ghost l f := by
  cases hs : x.ghost.st l with
  | blank => exact ⟨_, .unbuilt hs⟩
  | held t => exact ⟨_, .held hs⟩
  | linked => exact hi.leafFated_linked hfuture hs
  | cut t => exact ⟨_, .unlinked (.inl hs)⟩
  | marked t => exact ⟨_, .unlinked (.inr hs)⟩
  | retired => exact ⟨_, .retired hs⟩
  | freed => exact ⟨_, .freed hs⟩
  | dropped =>
    obtain ⟨a, ha⟩ := hi.unused.dropped l hs
    simp [hfails] at ha

lemma LeafFated.unbuilt_iff (h : LeafFated x.view x.ghost l f) :
    f = .unbuilt ↔ x.ghost.st l = .blank := by
  cases h with
  | unlinked h => rcases h with h | h <;> simp [h]
  | _ => simp_all

lemma LeafFated.retired_iff (h : LeafFated x.view x.ghost l f) :
    f = .retired ↔ x.ghost.st l = .retired := by
  cases h with
  | unlinked h => rcases h with h | h <;> simp [h]
  | _ => simp_all

lemma LeafFated.freed_iff (h : LeafFated x.view x.ghost l f) :
    f = .freed ↔ x.ghost.st l = .freed := by
  cases h with
  | unlinked h => rcases h with h | h <;> simp [h]
  | _ => simp_all

lemma LeafFated.published (h : LeafFated x.view x.ghost l f) :
    f.Published ↔ (x.ghost.st l).Published := by
  cases h with
  | unlinked h => rcases h with h | h <;> simp [h, LeafFate.Published, LeafState.Published]
  | _ => simp_all [LeafFate.Published, LeafState.Published]

/-- The linked leaves are those of the current map. -/
lemma LeafFated.linked_iff (h : LeafFated x.view x.ghost l f) (hi : Inv x) :
    f = .linked ↔ x.view.map x.view.cur l.key = some l := by
  have hst : x.view.map x.view.cur l.key = some l → x.ghost.st l = .linked := fun hmap =>
    (hi.leaf.mapped _ _ _ hmap).resolve_right fun hlt => lt_irrefl _ hlt.1
  cases h with
  | linked _ hmap => simp [hmap]
  | detached _ hmap he =>
    simp only [reduceCtorEq, false_iff]
    exact fun hcur => he.ne (hi.leaf.once _ _ _ _ _ hmap hcur)
  | unlinked h =>
    simp only [reduceCtorEq, false_iff]
    intro hmap
    rcases h with h | h <;> simp [hst hmap] at h
  | _ h =>
    simp only [reduceCtorEq, false_iff]
    intro hmap
    simp [hst hmap] at h

/-- A thread that owes nothing is not the owner of any leaf. -/
lemma LeafFated.not_owner (h : LeafFated x.view x.ghost l f) (ht : Idle x.ghost t) :
    f.owner ≠ some t := by
  have hpart := LeafState.part_eq_none.mp (ht.2.1 l)
  cases h with
  | held h => simpa [h, LeafState.owner, LeafFate.owner] using hpart
  | detached _ _ _ hs =>
    intro ho
    obtain rfl : _ = t := by simpa [LeafFate.owner] using ho
    exact ht.2.2 _ hs
  | unlinked h =>
    rcases h with h | h <;> simpa [h, LeafState.owner, LeafFate.owner] using hpart
  | _ => simp [LeafFate.owner]

end Leaves

/-! ## The fates of a configuration -/

/-- Thread `t` runs a call that has not answered. -/
def Busy (c : M.client.object.Config) (t : ℕ) : Prop :=
  ∃ call, c.running t = some call ∧ ∀ a, call.prog ≠ .ret a

/-- What the fates of the nodes of a configuration are. -/
structure NodeFates (c : M.client.object.Config) (fate : NodeId → NodeFate) : Prop where
  fresh : ∀ n, fate n = .fresh ↔ c.mem.tree.next ≤ n
  /-- A pooled node has never been latched. -/
  pooled : ∀ n t, fate n = .pooled t → c.mem.tree.latch (.node n) = 0
  /-- The nodes of the tree are those that are attached to its root, through latched nodes or
  not. -/
  linked : ∀ n, fate n = .linked ↔ Attached c.mem.tree (.node n)
  /-- No reader is led to any other node. -/
  seen : ∀ n p, Linked c.mem.tree p (.node n) → fate n = .linked
  /-- The nodes of detached trees are those of epochs of the past. -/
  detached : ∃ F e, Depicts c.mem.tree F e ∧
    ∀ n t, fate n = .detached t → ∃ e' p, e' < e ∧ F.place n = some (e', p)
  /-- The call that has detached a tree is one that detaches trees. -/
  clear : ∀ n t, fate n = .detached t → ∃ call, c.running t = some call ∧ M.clears call.op
  /-- A node that was taken out is still latched, or obsolete. -/
  unlinked : ∀ n t, fate n = .unlinked t →
    c.mem.tree.latch (.node n) % 4 = 1 ∨ Obsolete (c.mem.tree.latch (.node n))
  retired : ∀ n, fate n = .retired ↔ n ∈ c.mem.tree.retired
  /-- A node that was retired is obsolete, and out of reach. -/
  out : ∀ n ∈ c.mem.tree.retired, Obsolete (c.mem.tree.latch (.node n)) ∧
    ¬ Attached c.mem.tree (.node n) ∧ ∀ p, ¬ Linked c.mem.tree p (.node n)
  freed : ∀ n, fate n = .freed ↔ n ∈ c.mem.tree.freed
  once : c.mem.tree.retired.Nodup ∧ c.mem.tree.freed.Nodup
  /-- Only a call that has not answered has nodes to deal with. -/
  owner : ∀ n t, (fate n).owner = some t → Busy c t
  quiet : c.Quiescent → ∀ n, fate n = .linked ↔ ∃ p, Linked c.mem.tree p (.node n)

/-- What the fates of the leaves of a configuration are. -/
structure LeafFates (c : M.client.object.Config) (fate : Leaf → LeafFate) : Prop where
  unbuilt : ∀ l, fate l = .unbuilt ↔ c.mem.leafs.built l = false
  linked : ∀ l, fate l = .linked ↔ Attached c.mem.tree (.leaf l)
  seen : ∀ l p, Linked c.mem.tree p (.leaf l) → fate l = .linked
  detached : ∃ F e, Depicts c.mem.tree F e ∧
    ∀ l t, fate l = .detached t → ∃ e', e' < e ∧ F.map e' l.key = some l
  clear : ∀ l t, fate l = .detached t → ∃ call, c.running t = some call ∧ M.clears call.op
  retired : ∀ l, fate l = .retired ↔ l ∈ c.mem.leafs.retired
  /-- A leaf that was retired is marked as removed, and out of reach. -/
  out : ∀ l ∈ c.mem.leafs.retired, c.mem.leafs.removed l = true ∧
    ¬ Attached c.mem.tree (.leaf l) ∧ ∀ p, ¬ Linked c.mem.tree p (.leaf l)
  freed : ∀ l, fate l = .freed ↔ l ∈ c.mem.leafs.freed
  once : c.mem.leafs.retired.Nodup ∧ c.mem.leafs.freed.Nodup
  owner : ∀ l t, (fate l).owner = some t → Busy c t
  quiet : c.Quiescent → ∀ l, fate l = .linked ↔ ∃ p, Linked c.mem.tree p (.leaf l)

lemma Behind.busy (h : Behind c w) {t : ℕ} (hfails : ∀ a, M.fails a = false)
    (ht : ¬ ((shadow w).Clean t ∧ Idle w.ghost.2 t)) : Busy c t := by
  by_contra hno
  have hans : ∀ call, c.running t = some call → ∃ a, call.prog = .ret a := by
    intro call hcall
    by_contra hne
    exact hno ⟨call, hcall, fun a ha => hne ⟨a, ha⟩⟩
  exact ht ⟨h.clean hans, h.idle_of_answered hfails hans⟩

lemma Behind.nodeFates (h : Behind c w) (hfails : ∀ a, M.fails a = false) :
    NodeFates c ((shadow w).fate (tree w)) := by
  have hi := h.inv.tree
  have hL := hi.ledger
  have hmem : tree w = c.mem.tree := congrArg Mem.tree h.mem
  have hlinked : ∀ n, (shadow w).fate (tree w) n = .linked ↔ Attached c.mem.tree (.node n) :=
    fun n => (hi.fated n).linked_iff.trans h.depicts.attached_node.symm
  have hretired : ∀ n, (shadow w).fate (tree w) n = .retired ↔ n ∈ c.mem.tree.retired :=
    fun n => hmem ▸ (hi.fated n).retired_iff
  have hout : ∀ n ∈ c.mem.tree.retired, ¬ Attached c.mem.tree (.node n) := fun n hn ha => by
    have heq := (hlinked n).mpr ha
    rw [(hretired n).mpr hn] at heq
    cases heq
  refine
    { fresh := fun n => hmem ▸ (hi.fated n).fresh_iff, pooled := fun n t hf => ?_
      linked := hlinked, seen := fun n p hl => (hlinked n).mpr (hl.attached (by simp))
      detached := ⟨_, _, h.depicts, fun n t hf => ?_⟩, clear := fun n t hf => ?_
      unlinked := fun n t hf => ?_, retired := hretired
      out := fun n hn => ⟨?_, hout n hn, fun p hl => hout n hn (hl.attached (by simp))⟩
      freed := fun n => hmem ▸ (hi.fated n).freed_iff
      once := ⟨hmem ▸ hL.retired_nodup, hmem ▸ hL.freed_nodup⟩
      owner := fun n t hf => h.busy hfails fun hcl => (hi.fated n).not_owner hcl.1 hf
      quiet := fun hq n => ?_ }
  · rw [← hmem]
    cases hi.fated_of hf with
    | pooled _ _ _ _ _ hpub => exact (hi.unpub hpub).1
  · cases hi.fated_of hf with
    | detached _ _ _ hp he => exact ⟨_, _, he, hp⟩
  · cases hi.fated_of hf with
    | detached _ _ _ _ _ ht =>
      obtain ⟨id, op, htag, hop⟩ := h.inv.clearing t _ ht
      rw [h.tag t] at htag
      obtain ⟨call, hcall, heq⟩ := Option.map_eq_some_iff.mp htag
      simp only [Prod.mk.injEq] at heq
      exact ⟨call, hcall, heq.2 ▸ hop⟩
  · rw [← hmem]
    cases hi.fated_of hf with
    | unlinked _ _ _ hd _ _ =>
      refine (hL.due hd).2.2.imp_left fun ho => ?_
      have hw := hi.word (.node n)
      rwa [Shadow.WordOk, ho] at hw
  · rw [← hmem] at hn ⊢
    exact (hL.retired hn).2.2
  · rw [hlinked, h.depicts.attached_node]
    refine exists_congr fun p => ⟨fun hp => ?_, fun hl => ?_⟩
    · exact (h.depicts.sees_node (h.free hq) hp).linked
    · exact h.depicts.seen_node (h.depicts.seen_of_linked (h.free hq) hl)

lemma Behind.leafFates (h : Behind c w) (hfails : ∀ a, M.fails a = false) {fate : Leaf → LeafFate}
    (hfate : ∀ l, LeafFated (scene w).view w.ghost.2 l (fate l)) : LeafFates c fate := by
  have hi : Inv (scene w) := h.inv.client
  have hmem : (scene w).leafs = c.mem.leafs := congrArg Mem.leafs h.mem
  have hfd : ∀ l, LeafFated (scene w).view (scene w).ghost l (fate l) := hfate
  have hof : ∀ {l f}, fate l = f → LeafFated (scene w).view (scene w).ghost l f :=
    fun h => h ▸ hfd _
  have hlinked : ∀ l, fate l = .linked ↔ Attached c.mem.tree (.leaf l) := fun l =>
    ((hfd l).linked_iff hi).trans h.depicts.attached_leaf.symm
  have hretired : ∀ l, fate l = .retired ↔ l ∈ c.mem.leafs.retired := fun l =>
    (hfd l).retired_iff.trans (hmem ▸ (hi.leaf.retired l).symm)
  have hout : ∀ l ∈ c.mem.leafs.retired, ¬ Attached c.mem.tree (.leaf l) := fun l hl ha => by
    have heq := (hlinked l).mpr ha
    rw [(hretired l).mpr hl] at heq
    cases heq
  refine
    { unbuilt := fun l => ?_, linked := hlinked
      seen := fun l p hl => (hlinked l).mpr (hl.attached (by simp))
      detached := ⟨_, _, h.depicts, fun l t hf => ?_⟩, clear := fun l t hf => ?_
      retired := hretired
      out := fun l hl => ⟨?_, hout l hl, fun p hp => hout l hl (hp.attached (by simp))⟩
      freed := fun l => (hfd l).freed_iff.trans (hmem ▸ (hi.unused.freed l).symm)
      once := ⟨hmem ▸ hi.leaf.retired_nodup, hmem ▸ hi.unused.freed_nodup⟩
      owner := fun l t hf => h.busy hfails fun hcl => (hfd l).not_owner hcl.2 hf
      quiet := fun hq l => ?_ }
  · have hb := hi.leaf.built l
    rw [hmem] at hb
    rw [(hfd l).unbuilt_iff, ← Bool.not_eq_true, hb, not_not]
  · cases hof hf with
    | detached _ hmap he => exact ⟨_, he, hmap⟩
  · cases hof hf with
    | detached _ _ _ hs =>
      obtain ⟨r, hr, hop⟩ := hi.sweeping _ _ hs
      have htag := h.tag t
      rw [show M.client.tag w.ghost.2 t = some (r.id, r.op) from
        congrArg (Option.map _) hr] at htag
      obtain ⟨call, hcall, heq⟩ := Option.map_eq_some_iff.mp htag.symm
      simp only [Prod.mk.injEq] at heq
      exact ⟨call, hcall, heq.2 ▸ hop⟩
  · rw [← hmem] at hl ⊢
    rw [hi.leaf.removed l, (hi.leaf.retired l).mp hl]
    trivial
  · rw [hlinked, h.linked_iff hq, h.depicts.attached_leaf]

lemma exec_retired {t : ℕ} {β : Type} (a : Act β) (m : Mem) {n : NodeId} :
    (n ∈ m.tree.retired → n ∈ (exec t a m).2.tree.retired) ∧
      (n ∈ m.tree.freed → n ∈ (exec t a m).2.tree.freed) := by
  cases a with
  | tree a =>
    cases a with
    | casLatch l v v' =>
      simp only [exec, execTree]
      split <;> exact ⟨id, id⟩
    | allocNode ty =>
      simp only [exec, execTree]
      split <;> exact ⟨id, id⟩
    | retireNode n => exact ⟨List.mem_append_left _, id⟩
    | freeNode n => exact ⟨id, List.mem_append_left _⟩
    | _ => exact ⟨id, id⟩
  | leaf a => exact ⟨id, id⟩
  | wait l => exact ⟨id, id⟩

lemma exec_leaf_retired {t : ℕ} {β : Type} (a : Act β) (m : Mem) {l : Leaf} :
    (l ∈ m.leafs.retired → l ∈ (exec t a m).2.leafs.retired) ∧
      (l ∈ m.leafs.freed → l ∈ (exec t a m).2.leafs.freed) := by
  cases a with
  | tree a => exact ⟨id, id⟩
  | wait l => exact ⟨id, id⟩
  | leaf a =>
    cases a with
    | retireLeaf l => exact ⟨List.mem_append_left _, id⟩
    | freeLeaf l => exact ⟨id, List.mem_append_left _⟩
    | _ => exact ⟨id, id⟩

/-- What is retired, and what is freed, stays so. -/
structure Kept (m m' : Mem) : Prop where
  retired : ∀ n ∈ m.tree.retired, n ∈ m'.tree.retired
  freed : ∀ n ∈ m.tree.freed, n ∈ m'.tree.freed
  leaf_retired : ∀ l ∈ m.leafs.retired, l ∈ m'.leafs.retired
  leaf_freed : ∀ l ∈ m.leafs.freed, l ∈ m'.leafs.freed

lemma Kept.trans {m₁ m₂ m₃ : Mem} (h : Kept m₁ m₂) (h' : Kept m₂ m₃) : Kept m₁ m₃ where
  retired n hn := h'.retired n (h.retired n hn)
  freed n hn := h'.freed n (h.freed n hn)
  leaf_retired l hl := h'.leaf_retired l (h.leaf_retired l hl)
  leaf_freed l hl := h'.leaf_freed l (h.leaf_freed l hl)

lemma kept_refl (m : Mem) : Kept m m :=
  ⟨fun _ h => h, fun _ h => h, fun _ h => h, fun _ h => h⟩

lemma kept_steps (hs : Relation.ReflTransGen Object.Step c c') : Kept c.mem c'.mem := by
  induction hs with
  | refl => exact kept_refl _
  | @tail b _ _ hstep ih =>
    refine ih.trans ?_
    cases hstep with
    | invoke t op m idle hstart =>
      have htree : m.tree = b.mem.tree := hstart.1
      have hleafs : m.leafs.retired = b.mem.leafs.retired ∧
          m.leafs.freed = b.mem.leafs.freed := by
        rcases start_cases hstart.2 with ⟨-, hm⟩ | ⟨l, -, -, hm⟩ <;> rw [hm] <;> exact ⟨rfl, rfl⟩
      exact ⟨fun n hn => htree ▸ hn, fun n hn => htree ▸ hn, fun l hl => hleafs.1 ▸ hl,
        fun l hl => hleafs.2 ▸ hl⟩
    | act t id op a k hrun =>
      exact ⟨fun n => (exec_retired a _).1, fun n => (exec_retired a _).2,
        fun l => (exec_leaf_retired a _).1, fun l => (exec_leaf_retired a _).2⟩
    | unfold => exact kept_refl _
    | respond => exact kept_refl _

/-- What becomes of the fates of nodes and leaves: what was published stays so, and what is retired
or freed stays that. -/
structure Becomes (node node' : NodeId → NodeFate) (leaf leaf' : Leaf → LeafFate) : Prop where
  published : ∀ n, (node n).Published → (node' n).Published
  retired : ∀ n, node n = .retired → node' n = .retired
  freed : ∀ n, node n = .freed → node' n = .freed
  leaf_published : ∀ l, (leaf l).Published → (leaf' l).Published
  leaf_retired : ∀ l, leaf l = .retired → leaf' l = .retired
  leaf_freed : ∀ l, leaf l = .freed → leaf' l = .freed

/-- The fates of all nodes and leaves, at two moments of a run. -/
def Fated (c c' : M.client.object.Config) : Prop :=
  ∃ node node' leaf leaf', NodeFates c node ∧ NodeFates c' node' ∧ LeafFates c leaf ∧
    LeafFates c' leaf' ∧ Becomes node node' leaf leaf'

theorem fated_of_safe (hM : M.Safe) (hfull : M.roomy → ∀ i, full i = false)
    (hfails : ∀ a, M.fails a = false) (hc : Reachable full c)
    (hs : Relation.ReflTransGen Object.Step c c') : Fated c c' := by
  obtain ⟨t, w, w', h, h', hr⟩ := behind_later hM hfull hc hs
  have hfuture : ∀ {c w}, Behind (M := M) c w → ∀ e k, (scene w).view.cur < e →
      (scene w).view.map e k = none := fun hb e k he => hb.inv.tree.map_future he k
  have hl : ∀ l, ∃ f, LeafFated (scene w).view w.ghost.2 l f :=
    (h.inv.client : Inv (scene w)).exists_leafFated hfails (hfuture h)
  have hl' : ∀ l, ∃ f, LeafFated (scene w').view w'.ghost.2 l f :=
    (h'.inv.client : Inv (scene w')).exists_leafFated hfails (hfuture h')
  choose leaf hleaf using hl
  choose leaf' hleaf' using hl'
  have hn := h.nodeFates hfails
  have hn' := h'.nodeFates hfails
  have hf := h.leafFates hfails hleaf
  have hf' := h'.leafFates hfails hleaf'
  have hk := kept_steps hs
  refine ⟨_, _, leaf, leaf', hn, hn', hf, hf', ?_⟩
  refine
    { published := fun n hp => ?_, retired := fun n hr => ?_, freed := fun n hr => ?_
      leaf_published := fun l hp => ?_, leaf_retired := fun l hr => ?_
      leaf_freed := fun l hr => ?_ }
  · rw [(h'.inv.tree.fated n).published]
    exact hr.1.pub_mono n ((h.inv.tree.fated n).published.mp hp)
  · exact (hn'.retired n).mpr (hk.retired n ((hn.retired n).mp hr))
  · exact (hn'.freed n).mpr (hk.freed n ((hn.freed n).mp hr))
  · rw [LeafFated.published (x := scene w') (hleaf' l)]
    exact hr.2.published l ((LeafFated.published (x := scene w) (hleaf l)).mp hp)
  · exact (hf'.retired l).mpr (hk.leaf_retired l ((hf.retired l).mp hr))
  · exact (hf'.freed l).mpr (hk.leaf_freed l ((hf.freed l).mp hr))

end Interface

/-! ## The heap map -/

namespace ArtMap

open Interface

variable {c c' : interface.client.object.Config} {l : Leaf}

/-- **Nodes and leaves** of the heap map: each node is in one of the states of `NodeFate`, and each
leaf in one of those of `LeafFate`, at every moment of a run; nothing is retired or freed twice,
retired while it is in the tree, freed after it was published, or left behind by a call that is
over.  When no call is in progress, the leaves that have been in the map and are not linked are
those that were retired. -/
theorem node_fates (hc : Reaches c) (hs : Relation.ReflTransGen Object.Step c c') :
    Fated c c' ∧ (c.Quiescent → ∀ i l, PutBy (M := interface) c.hist i l →
      (l ∈ c.mem.leafs.retired ↔ ¬ ∃ p, Linked c.mem.tree p (.leaf l))) := by
  refine ⟨fated_of_safe safe heap_roomy no_fails hc hs, fun hq i l hl => ?_⟩
  obtain ⟨w, hw⟩ := behind safe heap_roomy hc
  exact (hw.removed_iff hc hq hl).2

/-- The fates of the nodes and leaves when thread 0 has just unlinked a node. -/
theorem node_fates_paired : Fated (M := interface) paired (removing paired [2] 20) :=
  (node_fates reaches_paired (steps_removing _ _ (by decide +kernel))).1

/-- A node that has been unlinked is not obsolete at once: between the store that unlinks it and
the one that marks it, it is in none of the trees, neither obsolete nor retired nor freed, although
it has been in the tree and no clear has ever run. -/
theorem unlinked_before_obsolete : ∃ c c' : interface.client.object.Config, Reaches c ∧
    Relation.ReflTransGen Object.Step c c' ∧ Linked c.mem.tree [] (.node 0) ∧
    c'.mem.tree.root = .null ∧ ¬ Obsolete (c'.mem.tree.latch (.node 0)) ∧
    0 ∉ c'.mem.tree.retired ∧ 0 ∉ c'.mem.tree.freed ∧ ∀ i, .inv i .clear ∉ c'.hist := by
  refine ⟨paired, removing paired [2] 20, reaches_paired, ?_, ?_, ?_, ?_, ?_, ?_, ?_⟩
  · exact steps_removing _ _ (by decide +kernel)
  · have hroot : paired.mem.tree.root = .node 0 := by decide +kernel
    exact hroot ▸ .root
  · decide +kernel
  · unfold Obsolete
    decide +kernel
  · decide +kernel
  · decide +kernel
  · have hall : ((removing paired [2] 20).hist.all fun ev => match ev with
        | .inv _ .clear => false
        | _ => true) = true := by
      decide +kernel
    intro i hi
    simpa using List.all_eq_true.mp hall _ hi

/-! ### Handles -/

/-- Call `i` is a `remove` of a handle of leaf `l` that has answered `true`. -/
def RemovedBy (h : List (Event Op Ret)) (i : ℕ) (l : Leaf) : Prop :=
  .inv i (.removeLeaf l) ∈ h ∧ .res i (.removed true) ∈ h

/-- The entry is an insert of leaf `l`. -/
def inserts (l : Leaf) (a : Entry Op Ret) : Bool :=
  match a.op with
  | .insert l' _ => l' = l
  | _ => false

/-- The entry is a successful remove of exactly leaf `l`. -/
def removes (l : Leaf) (a : Entry Op Ret) : Bool :=
  decide (a.op = .removeLeaf l ∧ a.ret = .removed true)

/-- Whether leaf `l` is in a map. -/
def holding (s : Key → Option Leaf) (l : Leaf) : ℕ :=
  if s l.key = some l then 1 else 0

/-- What one operation does to a leaf. -/
lemma removes_step (s : Key → Option Leaf) {a : Entry Op Ret}
    (ha : (interface.spec.step s a.op).2 = a.ret) (l : Leaf) :
    (removes l a).toNat + holding (interface.spec.step s a.op).1 l ≤
      (inserts l a).toNat + holding s l := by
  obtain ⟨id, op, r⟩ := a
  have hset : ∀ k : Key, holding (Function.update s k none) l ≤ holding s l := by
    intro k
    unfold holding
    by_cases hk : l.key = k <;> simp [hk]
  cases op with
  | get key => simp [removes, inserts, step]
  | insert l' mode =>
    by_cases hl : l' = l
    · have : holding (interface.spec.step s (.insert l' mode)).1 l ≤ 1 := by
        unfold holding
        split_ifs <;> omega
      simp only [removes, inserts, hl, reduceCtorEq, false_and, decide_false, decide_true,
        Bool.toNat_false, Bool.toNat_true] at this ⊢
      omega
    · have hupd : holding (Function.update s l'.key (some l')) l ≤ holding s l := by
        unfold holding
        by_cases hk : l.key = l'.key <;> simp [hk, hl]
      simp only [removes, inserts, hl, reduceCtorEq, false_and, decide_false, Bool.toNat_false,
        zero_add]
      cases mode with
      | replace => exact hupd
      | insertIfAbsent =>
        simp only [step, insertStep]
        split
        · exact hupd
        · exact le_rfl
  | removeKey key => simpa [removes, inserts, step] using hset key
  | removeLeaf l' =>
    by_cases hin : s l'.key = some l'
    · by_cases hl : l' = l
      · subst hl
        have hr : r = .removed true := by simpa [step, hin] using ha.symm
        simp [removes, inserts, step, hin, hr, holding]
      · simpa [removes, inserts, step, hin, hl] using hset l'.key
    · have hr : r = .removed false := by simpa [step, hin] using ha.symm
      simp [removes, inserts, step, hin, hr]
  | clear => simp [removes, inserts, step, holding]
  | shrinkToFit => simp [removes, inserts, step]

/-- A leaf is not removed more often than it is inserted. -/
lemma removes_le {s : Key → Option Leaf} {L : List (Entry Op Ret)}
    (hL : interface.spec.Legal s L) (l : Leaf) :
    L.countP (removes l) ≤ L.countP (inserts l) + holding s l := by
  induction L generalizing s with
  | nil => simp
  | cons a L ih =>
    obtain ⟨h1, h2⟩ := hL
    have hstep := removes_step s h1 l
    have hrest := ih h2
    have htoNat : ∀ b : Bool, (if b = true then 1 else 0) = b.toNat := by decide
    rw [List.countP_cons, List.countP_cons, htoNat, htoNat]
    omega

lemma countP_le_one {L : List (Entry Op Ret)} {P : Entry Op Ret → Bool}
    (hn : (L.map Entry.id).Nodup)
    (h : ∀ a ∈ L, ∀ b ∈ L, P a = true → P b = true → a.id = b.id) : L.countP P ≤ 1 := by
  rw [List.countP_eq_length_filter]
  have hn' := (List.filter_sublist (p := P) (l := L)).map Entry.id |>.nodup hn
  match hF : L.filter P with
  | [] => simp
  | [a] => simp
  | a :: b :: F =>
    have ha : a ∈ L.filter P := by simp [hF]
    have hb : b ∈ L.filter P := by simp [hF]
    rw [List.mem_filter] at ha hb
    rw [hF] at hn'
    have := h a ha.1 b hb.1 ha.2 hb.2
    simp [this] at hn'

lemma eq_of_countP {L : List (Entry Op Ret)} {P : Entry Op Ret → Bool} (h : L.countP P ≤ 1)
    {a b : Entry Op Ret} (ha : a ∈ L) (hb : b ∈ L) (hPa : P a = true) (hPb : P b = true) :
    a = b := by
  rw [List.countP_eq_length_filter] at h
  have ha' : a ∈ L.filter P := List.mem_filter.mpr ⟨ha, hPa⟩
  have hb' : b ∈ L.filter P := List.mem_filter.mpr ⟨hb, hPb⟩
  match hF : L.filter P with
  | [] => simp [hF] at ha'
  | [x] =>
    simp only [hF, List.mem_singleton] at ha' hb'
    rw [ha', hb']
  | x :: y :: F => simp [hF] at h

/-- Of all handles of a leaf, at most one has removed it. -/
lemma removed_once (hc : Reaches c) {i j : ℕ} (hi : RemovedBy c.hist i l)
    (hj : RemovedBy c.hist j l) : i = j := by
  obtain ⟨L, hL, -⟩ := linearization_of_reaches hc
  have hentry : ∀ {i}, RemovedBy c.hist i l → ⟨i, .removeLeaf l, .removed true⟩ ∈ L := by
    rintro i ⟨hinv, hres⟩
    obtain ⟨op, hop⟩ := hL.responded i _ hres
    obtain rfl := hc.inv_unique hinv (hL.invoked _ hop)
    exact hop
  have hins : L.countP (inserts l) ≤ 1 := by
    refine countP_le_one hL.nodup fun a ha b hb hPa hPb => ?_
    have hbuilds : ∀ {a : Entry Op Ret}, inserts l a = true → interface.builds a.op = some l := by
      rintro ⟨id, op, r⟩ h
      cases op <;> simp_all [inserts]
    exact (builds_once hc).2 _ _ _ _ l (hL.invoked a ha) (hL.invoked b hb) (hbuilds hPa)
      (hbuilds hPb)
  have hrem : L.countP (removes l) ≤ 1 := (removes_le hL.legal l).trans (by
    simpa [holding] using hins)
  have heq := eq_of_countP hrem (hentry hi) (hentry hj) (by simp [removes]) (by simp [removes])
  simpa using heq

/-- **Handles.**  In every quiescent configuration, a leaf that has been in the map is marked as
removed exactly if it is not linked.  In every run a leaf is removed through at most one of its
handles.  And when operations are executed one at a time, a handle removes its own leaf exactly if
it is linked, and removes nothing else. -/
theorem removed_iff_unlinked (hc : Reaches c) :
    (c.Quiescent → ∀ i l, PutBy (M := interface) c.hist i l →
      (c.mem.leafs.removed l = true ↔ ¬ ∃ p, Linked c.mem.tree p (.leaf l))) ∧
    (∀ l i j, RemovedBy c.hist i l → RemovedBy c.hist j l → i = j) ∧
    (∀ L m b m' l, Executes L m → Executes (L ++ [(.removeLeaf l, .removed b)]) m' →
      (b = true ↔ ∃ p, Linked m.tree p (.leaf l)) ∧
      ∀ l', (∃ p, Linked m'.tree p (.leaf l')) ↔
        (∃ p, Linked m.tree p (.leaf l')) ∧ l' ≠ l) := by
  refine ⟨fun hq i l hl => ?_, fun l i j => removed_once hc, fun L m b m' l hm hm' => ?_⟩
  · obtain ⟨w, hw⟩ := behind safe heap_roomy hc
    exact (hw.removed_iff hc hq hl).1
  · set f := interface.spec.final (fun _ => none) (L.map Prod.fst) with hf
    have hans := serial_answers safe heap_roomy no_fails hm'
    rw [List.map_append, List.map_append, Spec.answers_append,
      ← serial_answers safe heap_roomy no_fails hm] at hans
    have hb : Ret.removed b = (step f (.removeLeaf l)).2 := by
      simpa [Spec.answers] using hans
    have hlinked : ∀ l', (∃ p, Linked m.tree p (.leaf l')) ↔ f l'.key = some l' := fun l' =>
      serial_linked safe heap_roomy no_fails hm
    have hlinked' : ∀ l', (∃ p, Linked m'.tree p (.leaf l')) ↔
        (step f (.removeLeaf l)).1 l'.key = some l' := fun l' => by
      rw [serial_linked safe heap_roomy no_fails hm', List.map_append, Spec.final_append]
      rfl
    by_cases hin : f l.key = some l
    · have hbt : b = true := by simpa [step, hin] using hb
      refine ⟨by rw [hlinked l]; simp [hbt, hin], fun l' => ?_⟩
      rw [hlinked' l', hlinked l']
      by_cases hk : l'.key = l.key
      · simp [step, hin, hk]
        rintro rfl
        rfl
      · have hne : l' ≠ l := fun h => hk (by rw [h])
        simp [step, hin, hk, hne]
    · have hbf : b = false := by simpa [step, hin] using hb
      refine ⟨by rw [hlinked l]; simp [hbf, hin], fun l' => ?_⟩
      rw [hlinked' l', hlinked l']
      simp only [step, hin, if_false]
      exact ⟨fun h => ⟨h, fun heq => hin (heq ▸ h)⟩, And.left⟩

/-- A leaf that was replaced, and another one that its handle removes. -/
theorem removed_iff_unlinked_replaced : Executes replacedOps replacedMem ∧
    (replacedMem.leafs.removed ⟨0, [1]⟩ = true ↔
      ¬ ∃ p, Linked replacedMem.tree p (.leaf ⟨0, [1]⟩)) ∧
    ∃ m, Executes (replacedOps ++ [(.removeLeaf ⟨1, [2]⟩, .removed true)]) m ∧
      (∃ p, Linked replacedMem.tree p (.leaf ⟨1, [2]⟩)) ∧
      ∀ l', (∃ p, Linked m.tree p (.leaf l')) ↔
        (∃ p, Linked replacedMem.tree p (.leaf l')) ∧ l' ≠ ⟨1, [2]⟩ := by
  have hm := executes_replaced
  have hm' := executes_concat hm (.removeLeaf ⟨1, [2]⟩) (r := .removed true)
    (fun l hl => by cases hl) (by decide +kernel)
  obtain ⟨hquiet, -, hhandle⟩ := removed_iff_unlinked (Interface.Serial.reachable hm)
  obtain ⟨htrue, hleft⟩ := hhandle _ _ _ _ _ hm hm'
  refine ⟨hm, hquiet (fun _ => rfl) 0 _ ⟨.insert ⟨0, [1]⟩ .replace,
    .outcome (.inserted ⟨0, [1]⟩), ?_, ?_, rfl⟩, _, hm', htrue.mp rfl, hleft⟩
  · simp [Object.still, serialEvents, replacedOps]
  · simp [Object.still, serialEvents, replacedOps]

end ArtMap

end Artmap
