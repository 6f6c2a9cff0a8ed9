import Artmap.Ops.Place

/-!
# The insert

The descent of an insert, level by level, and the cases in which it ends: the exact leaf, a
free slot, a leaf in the way, a full node, a prefix that the key leaves, and a root that is no
inner node.  Whatever the insert could not publish stays in its pool, and is freed at the end.
-/

namespace Artmap

open scoped List

namespace Client

variable {C : Client} {live : Bool} {t : ℕ} {Γ Δ : Know} {P : C.Assertion t}
  {Q : Option Outcome → C.Assertion t} {x y : C.W} {n : NodeId} {s : Sight} {l old : Leaf}
  {kind : LeafKind} {mode : Mode} {count : ℤ} {prep : Pool} {par : Parent} {d : ℕ} {key : Key}

/-! ## How an insert goes on -/

/-- The node of a hint has been seen at its version, at the end of the first bytes of the
key. -/
def Points (Γ : Know) (h : Hint) (key : Key) : Prop :=
  ∃ s, Γ.seen h.node = some s ∧ s.v = h.version ∧ Γ.lo ≤ s.epoch ∧
    s.path ++ s.cont.pre = key.take h.depth ∧ h.depth ≤ key.length

/-- What has become of the owner of leaf `l`, by the outcome of its insert: it is disarmed when
the leaf has been published. -/
def ownerAfter (l : Leaf) : Option Outcome → Unpublished
  | some (.inserted _) => .disarmed
  | some (.replaced _) => .disarmed
  | _ => .armed l

/-- The insert of leaf `l` has ended with `r`. -/
def Lands (live : Bool) (t : ℕ) (Γ : Know) (Q : Option Outcome → C.Assertion t) (l : Leaf)
    (r : Landed) (y : C.W) : Prop :=
  r.owner = ownerAfter l r.outcome ∧
  ∃ Δ, Γ.Quiet Δ ∧ PoolOk Δ r.prep ∧ C.At live t Δ (Q r.outcome) y ∧
    (r.outcome = none → live = true → Δ.base = Γ.base) ∧
    ∀ h, r.hint = some h → Points Δ h l.key

/-- The insert has to start again. -/
def Retries (live : Bool) (t : ℕ) (Γ : Know) (P : C.Assertion t) (prep : Pool) (y : C.W) :
    Prop :=
  live = false ∧ ∃ Δ, Γ.Quiet Δ ∧ PoolOk Δ prep ∧ C.At live t Δ P y

/-- The descent has read node `c` at the end of the first `d` bytes of the key. -/
def Inserting (live : Bool) (t : ℕ) (Γ : Know) (P : C.Assertion t) (key : Key) (prep : Pool)
    (par : Parent) (c : NodeId) (d : ℕ) (y : C.W) : Prop :=
  prep.Unused ∧ ∃ Δ, Γ.Quiet Δ ∧ PoolOk Δ prep ∧ (live = true → Δ.base = Γ.base) ∧
    C.At live t Δ P y ∧ Linked live Δ par c (key.take d) (d ≤ key.length) (tree y)

/-- How one level of the descent from depth `d` ends. -/
def LevelEnds (live : Bool) (t : ℕ) (Γ : Know) (P : C.Assertion t)
    (Q : Option Outcome → C.Assertion t) (l : Leaf) (d : ℕ) (r : Level) (y : C.W) : Prop :=
  match r with
  | .inl d' => d < d'.depth ∧ (live = true → d'.depth ≤ l.key.length) ∧
      Inserting live t Γ P l.key d'.prep d'.parent d'.node d'.depth y
  | .inr (.inl prep) => Retries live t Γ P prep y
  | .inr (.inr r) => Lands live t Γ Q l r y

/-- The descent has seen node `n` at the end of the first `d` bytes of the key. -/
structure Facing (live : Bool) (Γ Δ : Know) (prep : Pool) (par : Parent) (n : NodeId)
    (s : Sight) (key : Key) (d : ℕ) : Prop where
  quiet : Γ.Quiet Δ
  pool : PoolOk Δ prep
  unused : prep.Unused
  base : live = true → Δ.base = Γ.base
  seen : Δ.seen n = some s
  lo_le : Γ.lo ≤ s.epoch
  path : s.path = key.take d
  len : d ≤ key.length
  coupled : Coupled live Δ par n s

lemma Facing.idle (h : Facing live Γ Δ prep par n s key d) (hh : ∀ l, Γ.held l = none) :
    ∀ l, Δ.held l = none := by
  rw [h.quiet.held]
  exact hh

lemma Facing.clear (h : Facing live Γ Δ prep par n s key d) (hc : Γ.clear = none) :
    Δ.clear = none := h.quiet.clear.trans hc

lemma Facing.retries (h : Facing live Γ Δ prep par n s key d) (hl : live = false)
    (hy : C.At live t Δ P y) : Retries live t Γ P prep y :=
  ⟨hl, Δ, h.quiet, h.pool, hy⟩

lemma Facing.fitting (h : Facing live Γ Δ prep par n s l.key d)
    (hpre : s.cont.pre <+: l.key.drop d)
    (hslot : ∀ c, s.cont.slotAt (l.key.drop (d + s.cont.pre.length)) ≠ .node c)
    (hold : ∀ l', s.cont.slotAt (l.key.drop (d + s.cont.pre.length)) = .leaf l' →
      l'.key = l.key) :
    Fitting Γ.lo s (l.key.drop (d + s.cont.pre.length)) l :=
  ⟨h.lo_le, key_along h.path hpre, hslot, hold⟩

/-! ## Into a node with room -/

lemma puts_exact (n : NodeId) (ty : NodeType) (c : Content) (l : Leaf) :
    Puts n ty c [] l (onNode n (setExactLeaf (.leaf l))) :=
  .inl ⟨_, rfl, fun _ hF => ⟨hF.setExactLeaf (some l), hF.shows.setExactLeaf_turns (some l)⟩⟩

lemma puts_insert {ty : NodeType} {c : Content} {b : Byte} (tl : List Byte)
    (hb : c.child b = .null) (hroom : (Content.bytes c.child).card < ty.capacity) :
    Puts n ty c (b :: tl) l (typed n (insertChild · b (.leaf l))) :=
  .inr ⟨_, rfl, fun _ hF => ⟨hF.insertChild hb (by simp) hroom, hF.insertChild_turns hb hroom⟩⟩

lemma puts_replace (ty : NodeType) {c : Content} {b : Byte} (tl : List Byte)
    (hb : c.child b ≠ .null) :
    Puts n ty c (b :: tl) l (typed n (replaceChild · b (.leaf l))) :=
  .inr ⟨_, rfl, fun _ hF => ⟨hF.replaceChild hb (by simp), hF.replaceChild_turns hb⟩⟩

lemma drop_eq_cons {k : Key} {i : ℕ} {b : Byte} (h : k[i]? = some b) :
    k.drop i = b :: k.drop (i + 1) := by
  obtain ⟨hi, rfl⟩ := List.getElem?_eq_some_iff.mp h
  exact List.drop_eq_getElem_cons hi

/-- Room in the node. -/
lemma wp_insertRoom {b : Byte} (H : C.InsertHooks t Γ.lo kind l mode count P Q)
    (hh : ∀ l, Γ.held l = none) (hc : Γ.clear = none)
    (hf : Facing live Γ Δ prep par n s l.key d) (hpre : s.cont.pre <+: l.key.drop d)
    (hb : l.key[d + s.cont.pre.length]? = some b) (hnull : s.cont.child b = .null)
    (hroom : (Content.bytes s.cont.child).card < s.ty.capacity) (hx : C.At live t Δ P x) :
    C.rg.wp live t (insertRoom l count prep n s.v (d + s.cont.pre.length) b)
      (LevelEnds live t Γ P Q l d) x := by
  refine RG.wp_seq (wp_tryUpgrade hx (hf.clear hc) hf.seen
    (promise_of_seen (hx.knows.seen n s hf.seen))) ?_
  rintro (_ | nw) y - ⟨hnone, hsome⟩
  · exact RG.wp_ret (hf.retries (hnone rfl).1 (hnone rfl).2)
  obtain ⟨rfl, -, F, hF, hy⟩ := hsome nw rfl
  have hrest := drop_eq_cons hb
  have hslot : s.cont.slotAt (l.key.drop (d + s.cont.pre.length)) = .null := by
    rw [hrest]
    exact hnull
  have hput := puts_insert (n := n) (l := l) (l.key.drop (d + s.cont.pre.length + 1))
    hnull hroom
  rw [← hrest] at hput
  refine wp_putHere H hf.quiet.lo hput (hf.fitting hpre (by simp [hslot]) (by simp [hslot])) hslot
    hy (hf.clear hc) (hf.idle hh _) hF ?_
  intro z Δ' h1 h2 h3 hz
  refine RG.wp_ret ⟨rfl, Δ', hf.quiet.trans h1, hf.pool.congr h2, hz, by simp, ?_⟩
  rintro h ⟨rfl⟩
  refine ⟨_, h3, rfl, by rw [h1.lo, hf.quiet.lo]; exact hf.lo_le, ?_⟩
  simpa using take_along hf.len hf.path hpre

/-! ## Over a leaf -/

/-- What holds once a slot has been validated: an insert-if-absent has found the leaf of its
key. -/
def found (P : C.Assertion t) (Q : Option Outcome → C.Assertion t) (mode : Mode) (key : Key) :
    Slot → C.Assertion t
  | .leaf old =>
    if mode = .insertIfAbsent ∧ old.key = key then Q (some (.existing old)) else P
  | _ => P

lemma found_swap (hmode : mode ≠ .insertIfAbsent) (r : Slot) : found P Q mode key r = P := by
  cases r <;> simp [found, hmode]

lemma found_leaf (hmode : mode = .insertIfAbsent) (hkey : old.key = key) :
    found P Q mode key (.leaf old) = Q (some (.existing old)) := by
  simp [found, hmode, hkey]

lemma found_other (hkey : old.key ≠ key) : found P Q mode key (.leaf old) = P := by
  simp [found, hkey]

/-- The validation of a node whose slot for the key has been read. -/
lemma wp_validateSlot {φ : Prop} {r : Slot} (H : C.InsertHooks t Γ.lo kind l mode count P Q)
    (hf : Facing live Γ Δ prep par n s l.key d) (hx : C.At live t Δ P x)
    (hpr : Promise live n s.v φ (tree x))
    (hφ : φ → s.cont.pre <+: l.key.drop d ∧
      r = s.cont.slotAt (l.key.drop (d + s.cont.pre.length))) :
    C.rg.wp live t (validate (.node n) s.v) (fun ok y =>
      (ok = true → φ ∧ C.At live t Δ (found P Q mode l.key r) y) ∧
      (ok = false → live = false ∧ C.At live t Δ P y)) x := by
  refine RG.wp_intro fun hok => wp_validate_upd hx hpr fun hw hφ' hi => ?_
  obtain ⟨hpre, hslot⟩ := hφ hφ'
  by_cases hm : ∃ old, r = .leaf old ∧ mode = .insertIfAbsent ∧ old.key = l.key
  · obtain ⟨old, hr, hmode, hkey⟩ := hm
    rw [hr, found_leaf hmode hkey]
    refine H.can_find hmode (scene x) s.epoch old hi hx.client hf.lo_le
      (epoch_le_of_seen hx hok hf.seen hw) ?_
    rw [map_slot_of_seen hx hok hf.seen hw hf.path hpre (by simp [← hslot, hr]), ← hslot, hr]
    simp [Slot.map, hkey]
  · have : found P Q mode l.key r = P := by
      cases r with
      | leaf old =>
        by_cases hmode : mode = .insertIfAbsent
        · exact found_other fun hkey => hm ⟨old, rfl, hmode, hkey⟩
        · exact found_swap hmode _
      | _ => rfl
    rw [this]
    exact Upd.rfl hi hx.client

/-- The exact-leaf home. -/
lemma wp_insertExact (H : C.InsertHooks t Γ.lo kind l mode count P Q)
    (hh : ∀ l, Γ.held l = none) (hc : Γ.clear = none)
    (hf : Facing live Γ Δ prep par n s l.key d) (hx : C.At live t Δ P x)
    (hpr : Promise live n s.v
      (s.cont.pre <+: l.key.drop d ∧ d + s.cont.pre.length = l.key.length) (tree x)) :
    C.rg.wp live t (insertExact kind l mode count prep n s.v)
      (LevelEnds live t Γ P Q l d) x := by
  refine RG.wp_intro fun hok => ?_
  refine RG.wp_seq (wp_exactLeaf hf.seen hx (hpr.leafKeys hx hok hf.seen)) ?_
  rintro r y - ⟨hy, hpr⟩
  have hrest : ∀ {i : ℕ}, i = l.key.length → l.key.drop i = [] := fun h => by simp [h]
  refine RG.wp_seq (wp_validateSlot (r := r) H hf hy hpr ?_) ?_
  · rintro ⟨⟨⟨hpre, hlen⟩, -⟩, rfl⟩
    exact ⟨hpre, by rw [hrest hlen]; rfl⟩
  rintro (_ | _) z - ⟨htrue, hfalse⟩
  · exact RG.wp_ret (hf.retries (hfalse rfl).1 (hfalse rfl).2)
  obtain ⟨⟨⟨⟨hpre, hlen⟩, hkeys⟩, rfl⟩, hz⟩ := htrue rfl
  have hfit : Fitting Γ.lo s [] l := by
    refine ⟨hf.lo_le, ?_, ?_, ?_⟩
    · simpa [hrest hlen] using key_along hf.path hpre
    · intro c
      cases hex : s.cont.exact <;> simp [Content.slotAt, hex, Slot.ofOption]
    · intro l' hl'
      cases hex : s.cont.exact with
      | none => simp [Content.slotAt, hex, Slot.ofOption] at hl'
      | some l'' =>
        obtain rfl : l'' = l' := by simpa [Content.slotAt, hex, Slot.ofOption] using hl'
        rw [hkeys.1 l'' hex]
        simpa [hrest hlen] using (key_along hf.path hpre).symm
  cases hex : s.cont.exact with
  | none =>
    rw [hex] at hz
    refine RG.wp_seq (wp_tryUpgrade hz (hf.clear hc) hf.seen
      (promise_of_seen (hz.knows.seen n s hf.seen))) ?_
    rintro (_ | nw) u - ⟨hnone, hsome⟩
    · exact RG.wp_ret (hf.retries (hnone rfl).1 (hnone rfl).2)
    obtain ⟨rfl, -, F, hF, hu⟩ := hsome nw rfl
    refine wp_putHere (k := fun _ => .ret _) H hf.quiet.lo (puts_exact n s.ty s.cont l) hfit
      (by simp [Content.slotAt, hex, Slot.ofOption]) hu (hf.clear hc) (hf.idle hh _) hF ?_
    intro v Δ' h1 h2 _ hv
    exact RG.wp_ret ⟨rfl, Δ', hf.quiet.trans h1, hf.pool.congr h2, hv, by simp, by simp⟩
  | some old =>
    have hslot : s.cont.slotAt [] = .leaf old := by simp [Content.slotAt, hex, Slot.ofOption]
    have hkey : old.key = l.key := hfit.old_key old hslot
    rw [hex] at hz
    simp only [Slot.ofOption] at hz ⊢
    by_cases hmode : mode = .insertIfAbsent
    · rw [found_leaf hmode hkey] at hz
      simp only [hmode, if_true]
      exact RG.wp_ret ⟨rfl, Δ, hf.quiet, hf.pool, hz, by simp, by simp⟩
    · rw [found_swap hmode] at hz
      simp only [hmode, if_false]
      refine RG.wp_seq (wp_tryUpgrade hz (hf.clear hc) hf.seen
        (promise_of_seen (hz.knows.seen n s hf.seen))) ?_
      rintro (_ | nw) u - ⟨hnone, hsome⟩
      · exact RG.wp_ret (hf.retries (hnone rfl).1 (hnone rfl).2)
      obtain ⟨rfl, -, F, hF, hu⟩ := hsome nw rfl
      have hrep : mode = .replace := by cases mode <;> simp at hmode ⊢
      refine wp_swapHere (k := .ret _) H hf.quiet.lo hrep (puts_exact n s.ty s.cont l) hfit
        hslot hu (hf.clear hc) (hf.idle hh _) hF ?_
      intro v Δ' h1 h2 hv
      exact RG.wp_ret ⟨rfl, Δ', hf.quiet.trans h1, hf.pool.congr h2, hv, by simp, by simp⟩

/-- The insert ran out of room before it touched the tree. -/
lemma Facing.full {Δ' : Know} {prep' : Pool} (H : C.InsertHooks t Γ.lo kind l mode count P Q)
    (hf : Facing live Γ Δ prep par n s key d) (hΔ : Δ.Builds Δ') (hp : PoolOk Δ' prep')
    (hfull : ¬ (scene y).view.roomy) (hy : C.At live t Δ' P y) :
    Lands live t Γ Q l (.full l prep') y :=
  ⟨rfl, Δ', hf.quiet.trans hΔ.quiet, hp, ⟨hy.knows, H.can_fail _ hy.client hfull⟩,
    fun _ hl => hΔ.base.trans (hf.base hl), by simp [Landed.full]⟩

/-- A leaf of another key in the way is split. -/
lemma wp_insertSplit {b : Byte} (H : C.InsertHooks t Γ.lo kind l mode count P Q)
    (hh : ∀ l, Γ.held l = none) (hc : Γ.clear = none)
    (hf : Facing live Γ Δ prep par n s l.key d) (hpre : s.cont.pre <+: l.key.drop d)
    (hb : l.key[d + s.cont.pre.length]? = some b) (hchild : s.cont.child b = .leaf old)
    (hkeys : LeafKeys s) (hne : old.key ≠ l.key) (hx : C.At live t Δ P x) :
    C.rg.wp live t (insertAtLeaf kind l mode count prep n s.v (d + s.cont.pre.length) b old)
      (LevelEnds live t Γ P Q l d) x := by
  -- Both keys go on below `b`.
  have hpath := path_step hf.path hpre hb
  have hl : l.key = s.path ++ s.cont.pre ++ [b] ++ l.key.drop (d + s.cont.pre.length + 1) := by
    rw [← hpath, List.take_append_drop]
  have hstart : (s.path ++ s.cont.pre ++ [b]).length = d + s.cont.pre.length + 1 := by
    rw [← hpath, List.length_take]
    have := (List.getElem?_eq_some_iff.mp hb).1
    omega
  have hold : old.key = s.path ++ s.cont.pre ++ [b] ++
      old.key.drop (d + s.cont.pre.length + 1) := by
    obtain ⟨es, hes⟩ := hkeys.2 b old hchild
    rw [← hes, List.drop_left' hstart]
  simp only [insertAtLeaf, hne, if_false]
  generalize hes : old.key.drop (d + s.cont.pre.length + 1) = es at hold ⊢
  generalize hns : l.key.drop (d + s.cont.pre.length + 1) = ns at hl ⊢
  have hhead : (es.drop (commonPrefix es ns)).head? ≠ (ns.drop (commonPrefix es ns)).head? := by
    refine (commonPrefix_head es ns).resolve_right fun h => hne ?_
    rw [hold, hl, h]
  refine RG.wp_seq (wp_buildChain (l := l) hx
    (hf.clear hc) hf.pool hf.unused hhead) ?_
  rintro ⟨_ | ⟨top, bottom⟩, prep'⟩ y hok ⟨Δ', hΔ, hp, hy, hnone, hsome⟩
  · exact RG.wp_ret (hf.full H hΔ hp (hnone rfl) hy)
  obtain ⟨L, rest, c, rfl, hfork, hmake⟩ := hsome top bottom rfl
  have hs' : Δ'.seen n = some s := by rw [hΔ.seen, hf.seen]
  have hc' : Δ'.clear = none := hΔ.quiet.clear.trans (hf.clear hc)
  have hq := hf.quiet.trans hΔ.quiet
  refine RG.wp_seq (wp_tryUpgrade hy hc' hs' (promise_of_seen (hy.knows.seen n s hs'))) ?_
  rintro (_ | nw) z - ⟨hnone', hsome'⟩
  · exact RG.wp_ret ⟨(hnone' rfl).1, Δ', hq, hp, (hnone' rfl).2⟩
  obtain ⟨rfl, -, F, hF, hz⟩ := hsome' nw rfl
  have hg : Guarded (Δ'.latch n s.v (graspOf s F)) (.node n s.v b) (.leaf old) s.epoch
      (s.path ++ s.cont.pre ++ [b]) :=
    ⟨by simp [Know.latch], graspOf s F, s.path, by simp [Know.latch], rfl, hF, hchild, rfl⟩
  refine RG.wp_seq (wp_leafStep H.can_count hz) ?_
  intro _ u hoku hu
  have hlo : (Δ'.latch n s.v (graspOf s F)).lo = Γ.lo := hq.lo
  have hbn : bottom ≠ n := by
    obtain ⟨F', hF', -⟩ := hmake.bottom_built
    exact hu.priv_ne_held hoku (by simp [Know.latch, hF']) (by simp [Know.latch])
  refine RG.wp_seq (wp_split (R := Q (some (.inserted l))) (by rw [hlo]; exact H.can_put) hu hc' hg
    (by rw [hlo]; exact hf.lo_le) (hmake.congr rfl) hfork
    (by rw [← commonPrefix_take, List.append_assoc _ (es.take _), List.take_append_drop, ← hold])
    (by rw [List.append_assoc _ (ns.take _), List.take_append_drop, ← hl]) hne
    (stores_publish (by simp) (by simp) hg)) ?_
  rintro _ v - ⟨Δ'', h1, h2, h3, h4, hv⟩
  obtain ⟨h5, g, q, h6, h7, h8, -, -⟩ := h3
  refine RG.wp_seq (wp_unlock hv (h1.clear.trans hc') h5 h6 h7 h8) ?_
  rintro _ w - ⟨-, hw⟩
  have hq' : Γ.Quiet (Δ''.unlatch n (some ⟨s.v + 4, g.ty, g.cont, s.epoch, q⟩)) :=
    hq.trans (h1.unlatch (by rw [hΔ.quiet.held]; exact hf.idle hh _))
  refine RG.wp_ret ⟨rfl, _, hq', h2.congr rfl, hw, by simp, ?_⟩
  rintro h ⟨rfl⟩
  have hcpre : c.pre = rest := by
    rw [hfork.fork, Content.setAt_pre, lone_eq, Content.setAt_pre]
  refine ⟨_, Eq.trans (by simp [Know.unlatch, hbn]) h4, rfl, by rw [hq'.lo]; exact hf.lo_le,
    ?_, ?_⟩
  · show s.path ++ s.cont.pre ++ [b] ++ Forest.along L ++ c.pre = _
    rw [hcpre, List.append_assoc, hfork.spelled]
    conv_rhs => rw [hl, ← hstart, List.take_length_add_append]
  · have := (commonPrefix_le es ns).2
    have hlt := (List.getElem?_eq_some_iff.mp hb).1
    have hlen : ns.length = l.key.length - (d + s.cont.pre.length + 1) := by
      rw [← hns, List.length_drop]
    simp only
    omega

/-- A leaf in the way. -/
lemma wp_insertAtLeaf {b : Byte} (H : C.InsertHooks t Γ.lo kind l mode count P Q)
    (hh : ∀ l, Γ.held l = none) (hc : Γ.clear = none)
    (hf : Facing live Γ Δ prep par n s l.key d) (hpre : s.cont.pre <+: l.key.drop d)
    (hb : l.key[d + s.cont.pre.length]? = some b) (hchild : s.cont.child b = .leaf old)
    (hkeys : LeafKeys s) (hx : C.At live t Δ (found P Q mode l.key (.leaf old)) x) :
    C.rg.wp live t (insertAtLeaf kind l mode count prep n s.v (d + s.cont.pre.length) b old)
      (LevelEnds live t Γ P Q l d) x := by
  by_cases hkey : old.key = l.key
  · by_cases hmode : mode = .insertIfAbsent
    · rw [found_leaf hmode hkey] at hx
      simp only [insertAtLeaf, hkey, hmode, if_true]
      exact RG.wp_ret ⟨rfl, Δ, hf.quiet, hf.pool, hx, by simp, by simp⟩
    · rw [found_swap hmode] at hx
      simp only [insertAtLeaf, hkey, hmode, if_true, if_false]
      refine RG.wp_seq (wp_tryUpgrade hx (hf.clear hc) hf.seen
        (promise_of_seen (hx.knows.seen n s hf.seen))) ?_
      rintro (_ | nw) u - ⟨hnone, hsome⟩
      · exact RG.wp_ret (hf.retries (hnone rfl).1 (hnone rfl).2)
      obtain ⟨rfl, -, F, hF, hu⟩ := hsome nw rfl
      have hrest := drop_eq_cons hb
      have hslot : s.cont.slotAt (l.key.drop (d + s.cont.pre.length)) = .leaf old := by
        rw [hrest]
        exact hchild
      have hput := puts_replace (n := n) (l := l) s.ty
        (l.key.drop (d + s.cont.pre.length + 1)) (c := s.cont) (b := b) (by simp [hchild])
      rw [← hrest] at hput
      have hrep : mode = .replace := by cases mode <;> simp at hmode ⊢
      refine wp_swapHere (k := .ret _) H hf.quiet.lo hrep hput
        (hf.fitting hpre (by simp [hslot]) (by simp [hslot, hkey])) hslot hu (hf.clear hc)
        (hf.idle hh _) hF ?_
      intro v Δ' h1 h2 hv
      exact RG.wp_ret ⟨rfl, Δ', hf.quiet.trans h1, hf.pool.congr h2, hv, by simp, by simp⟩
  · rw [found_other hkey] at hx
    exact wp_insertSplit H hh hc hf hpre hb hchild hkeys hkey hx

/-! ## Above a node -/

/-- Only unpublished nodes have changed. -/
lemma Coupled.builds {Δ' : Know} (h : Coupled live Δ par n s) (hΔ : Δ.Builds Δ') :
    Coupled live Δ' par n s := by
  cases par with
  | root => exact ⟨h.1, by rw [hΔ.top]; exact h.2⟩
  | node p v b =>
    obtain ⟨h1, sp, h2, h3⟩ := h
    exact ⟨h1, sp, by rw [hΔ.seen, h2], h3⟩

/-- The leaf of a new node, as `insert_with` puts it there. -/
lemma wp_splitLeaf {α : Type} {d' : NodeId} {i : ℕ} {k : Unit → TreeM α} {Post : α → C.W → Prop}
    (hi : i ≤ l.key.length)
    (h : C.rg.wp live t (forkLeaf d' l.key i (.leaf l)) (fun u y => C.rg.wp live t (k u) Post y)
      x) :
    C.rg.wp live t (
      if i = l.key.length then do
        let u ← onNode d' (setExactLeaf (.leaf l))
        k u
      else match l.key[i]? with
        | some b => do
          let u ← typed d' (insertChild · b (.leaf l))
          k u
        | none => do
          let u ← crash
          k u) Post x := by
  have h' := RG.wp_bind h
  by_cases hend : i = l.key.length
  · have hnone : l.key[i]? = none := by simp [hend]
    simp only [forkLeaf, hnone] at h'
    simp only [hend, if_true]
    exact h'
  · have hlt : i < l.key.length := by omega
    simp only [forkLeaf, List.getElem?_eq_getElem hlt] at h'
    simp only [hend, if_false, List.getElem?_eq_getElem hlt]
    exact h'

/-- The unpublished node that goes above node `n`. -/
lemma wp_buildAbove {α : Type} {d' : NodeId} {F : Fields} {u : List Byte} {b b' : Byte} {i : ℕ}
    {k : Unit → TreeM α} {Post : α → C.W → Prop} (hx : C.At live t Δ P x) (hc : Δ.clear = none)
    (hd : Δ.priv d' = some (.node4, F)) (hF : Repr .node4 F Content.fresh)
    (hu : u.length ≤ maxPrefixLen) (hi : i ≤ l.key.length) (hoff : (l.key.drop i).head? ≠ some b)
    (hb : b' = b)
    (hk : ∀ y F', Repr .node4 F' ((Forest.above u b n).setAt (l.key.drop i) (some l)) →
      C.At live t (Δ.own d' .node4 F') P y → C.rg.wp live t (k ()) Post y) :
    C.rg.wp live t (do
      onNode d' (writePrefix u)
      typed d' (insertChild · b' (.node n))
      if i = l.key.length then do
        let u ← onNode d' (setExactLeaf (.leaf l))
        k u
      else match l.key[i]? with
        | some b => do
          let u ← typed d' (insertChild · b (.leaf l))
          k u
        | none => do
          let u ← crash
          k u) Post x := by
  subst hb
  refine RG.wp_seq (wp_writePrefix_built hx hc ⟨F, hd, hF⟩ hu) ?_
  rintro _ y - ⟨F₁, hF₁, hy⟩
  obtain ⟨F₂, hrun, hF₂⟩ := hF₁.insertChild (b := b') (s := .node n) rfl (by simp)
    (by simp [Content.bytes, Content.fresh, NodeType.capacity])
  refine RG.wp_seq (wp_typed_priv hy hc Know.own_priv hrun) ?_
  rintro _ z - ⟨-, hz⟩
  rw [Know.own_own] at hz
  have habove : ({ Content.fresh with pre := u } : Content).setChild b' (.node n) =
      Forest.above u b' n := rfl
  rw [habove] at hF₂
  have hslot : (Forest.above u b' n).slotAt (l.key.drop i) = .null := by
    cases hr : l.key.drop i with
    | nil => rfl
    | cons a tl =>
      have ha : a ≠ b' := fun h => hoff (by rw [hr, h]; rfl)
      simp [Content.slotAt, Forest.above, ha]
  have hcard : (Content.bytes (Forest.above u b' n).child).card < NodeType.node4.capacity := by
    have : Content.bytes (Forest.above u b' n).child = {b'} := by
      ext a
      simp [Forest.above, Function.update_apply]
    rw [this]
    simp [NodeType.capacity]
  refine wp_splitLeaf hi (RG.wp_mono (wp_forkLeaf l.key i l hz hc ⟨F₂, Know.own_priv, hF₂⟩ hslot
    hcard) ?_)
  rintro _ w - ⟨F₃, hF₃, hw⟩
  rw [Know.own_own] at hw
  exact hk w F₃ hF₃ hw

/-- What the common prefix of a node's prefix and the key cuts the two into. -/
lemma cut_prefix {p : List Byte} {m : ℕ} (hm : m = commonPrefix p (key.drop d))
    (hlt : m < p.length) :
    ∃ b, p[m]? = some b ∧ p = p.take m ++ b :: p.drop (m + 1) ∧
      key.drop d = p.take m ++ key.drop (d + m) ∧ (key.drop (d + m)).head? ≠ some b := by
  refine ⟨p[m], List.getElem?_eq_getElem hlt, ?_, ?_, ?_⟩
  · rw [List.cons_getElem_drop_succ, List.take_append_drop]
  · rw [hm, commonPrefix_take, ← List.drop_drop, List.take_append_drop]
  · intro hb
    rcases commonPrefix_head p (key.drop d) with h | h
    · rw [← hm, List.drop_drop, hb, List.head?_drop, List.getElem?_eq_getElem hlt] at h
      exact h rfl
    · rw [← h, commonPrefix_self] at hm
      omega

/-- A prefix that the key leaves is split. -/
lemma wp_splitPrefix {pre : PrefixSnapshot} (H : C.InsertHooks t Γ.lo kind l mode count P Q)
    (hh : ∀ l, Γ.held l = none) (hc : Γ.clear = none)
    (hf : Facing live Γ Δ prep par n s l.key d) (hx : C.At live t Δ P x)
    (hpr : Promise live n s.v (pre.Of s.cont.pre) (tree x))
    (hlt : commonPrefix pre.asSlice (l.key.drop d) < pre.len) :
    C.rg.wp live t (splitPrefix l count prep par n d s.v pre
      (commonPrefix pre.asSlice (l.key.drop d))) (LevelEnds live t Γ P Q l d) x := by
  refine RG.wp_seq (wp_validate hx hpr) ?_
  rintro (_ | _) y - ⟨hy, hof, hlive, -⟩
  · exact RG.wp_ret (hf.retries (hlive rfl) hy)
  replace hof := hof rfl
  have hcl := hf.clear hc
  refine RG.wp_seq (wp_poolNode .node4 hy hcl hf.pool) ?_
  rintro ⟨_ | d', prep'⟩ z - ⟨hnone, hsome⟩
  · obtain ⟨rfl, hroom, hz⟩ := hnone rfl
    exact RG.wp_ret (hf.full H .rfl hf.pool hroom hz)
  obtain ⟨hpool, hunused, hused, hz⟩ := hsome d' rfl
  rw [hof.asSlice] at hlt ⊢
  rw [hof.len] at hlt
  obtain ⟨b, hb, hcut, hkey, hoff⟩ := cut_prefix rfl hlt
  generalize hm : commonPrefix s.cont.pre (l.key.drop d) = m at *
  have hbyte : pre.bytes m = b := by
    rw [hof.bytes m hlt]
    simpa [List.getElem?_eq_getElem hlt] using hb
  have hle : d + m ≤ l.key.length := by
    have := (commonPrefix_le s.cont.pre (l.key.drop d)).2
    rw [List.length_drop] at this
    have := hf.len
    omega
  have hl : l.key = s.path ++ s.cont.pre.take m ++ l.key.drop (d + m) := by
    rw [List.append_assoc, ← hkey, hf.path, List.take_append_drop]
  have hlen := hof.fits
  refine wp_buildAbove (n := n) (b := b) hz hcl Know.own_priv (.fresh _)
    (by rw [List.length_take]; omega) hle hoff hbyte ?_
  intro u F₁ hF₁ hu
  rw [Know.own_own] at hu
  have hΔ : Δ.Builds (Δ.own d' .node4 F₁) := Know.Builds.rfl.own
  have hpool' := hpool.rewrite F₁
  refine wp_couple hu hcl (hf.idle hh) hf.seen (hf.coupled.builds hΔ).pub
    (fun _ => hf.coupled.builds hΔ) ?_ ?_
  · intro w Δ' hl' hΔ' hw
    exact ⟨hl', Δ', (hf.quiet.trans hΔ.quiet).trans hΔ'.quiet, hpool'.congr hΔ'.priv, hw⟩
  intro w Δ' pg F hok _ hp hw
  have hcl' : Δ'.clear = none := hp.clear.trans hcl
  -- The node gives up the front of its prefix, and then goes below the new one.
  obtain ⟨F₂, hrun, hF₂⟩ := hp.repr.writePrefix
    (show (s.cont.pre.drop (m + 1)).length ≤ maxPrefixLen by rw [List.length_drop]; omega)
  refine RG.wp_seq (wp_onNode hw hcl' hp.grasp hrun (writePrefix_keeps hp.repr.shows _)) ?_
  rintro _ w₁ - ⟨-, hw₁⟩
  refine RG.wp_seq (wp_leafStep H.can_count hw₁) ?_
  intro _ w₂ hok₂ hw₂
  have hlo : (Δ'.write n (graspOf s F) F₂).lo = Γ.lo := hp.lo.trans hf.quiet.lo
  have hg : Guarded (Δ'.write n (graspOf s F) F₂) pg (.node n) s.epoch s.path :=
    hp.guard.of_ne hp.ne rfl (fun _ _ => rfl) fun p hpn => by simp [Know.write, hpn]
  have hd' : (Δ'.write n (graspOf s F) F₂).priv d' = some (.node4, F₁) := by
    show Δ'.priv d' = _
    rw [hp.priv, Know.own_priv]
  have hdn : d' ≠ n := hw₂.priv_ne_held hok₂ (by simp [hd']) (by
    show Δ'.held _ ≠ none
    simp [hp.held])
  refine RG.wp_seq (wp_wrap (R := Q (some (.inserted l))) (by rw [hlo]; exact H.can_put) hw₂ hcl'
    hg (by rw [hlo]; exact hf.lo_le) hp.ne Know.write_grasp hcut ⟨F₁, hd', hF₁⟩ hl hoff) ?_
  rintro _ w₃ - ⟨Δ₃, h1, h2, h3, h4, h5, hw₃⟩
  have hheld : Δ₃.held = Δ'.held := h1.held
  refine RG.wp_seq (wp_unlock (v := s.v) hw₃ (h1.clear.trans hcl') (by simp [hheld, hp.held]) h4
    rfl hF₂) ?_
  rintro _ w₄ - ⟨-, hw₄⟩
  refine RG.wp_seq (wp_guardUnlock hw₄ (h1.clear.trans hcl') (h3.of_ne hp.ne rfl
    (fun lt hlt => by simp [Know.unlatch, hlt]) fun p hpn => by simp [Know.unlatch, hpn])) ?_
  rintro _ w₅ - ⟨Δ₅, hun, hw₅, -⟩
  have hq : Δ.Quiet Δ₅ :=
    ⟨(hun.lo.trans h1.lo).trans hp.lo, hp.released (hf.idle hh) (by rw [← hheld]; rfl) hun.held,
      (hun.follow.trans h1.follow).trans hp.follow, (hun.clear.trans h1.clear).trans hp.clear,
      (hun.due.trans h1.due).trans hp.due⟩
  refine RG.wp_ret ⟨rfl, Δ₅, hf.quiet.trans hq, hpool'.commit [d'] (fun n' => ?_) ?_, hw₅,
    by simp, ?_⟩
  · rw [hused n', List.mem_singleton]
    exact ⟨.inl, fun h => h.resolve_right (hf.unused n')⟩
  · rw [← hp.priv]
    exact hun.priv.trans h2
  · rintro h ⟨rfl⟩
    have hseen : Δ₅.seen d' = Δ₃.seen d' := by
      rw [hun.seen d' (hw₂.priv_ne_owner hok₂ (by simp [hd']) hg)]
      simp [Know.unlatch, hdn]
    refine ⟨_, hseen.trans h5, rfl, by rw [hq.lo, hf.quiet.lo]; exact hf.lo_le, ?_, hle⟩
    have hpl : (s.path ++ s.cont.pre.take m).length = d + m := by
      rw [List.length_append, hf.path, List.length_take, List.length_take,
        min_eq_left hf.len, min_eq_left hlt.le]
    rw [Content.setAt_pre]
    conv_rhs => rw [hl, List.take_left' hpl]
    rfl

/-! ## In place of a full node -/

/-- A full node with a free byte can grow. -/
lemma grown_of_full {ty : NodeType} {c : Content} {b : Byte} (hb : c.child b = .null)
    (hfull : ty.capacity ≤ (Content.bytes c.child).card) :
    ∃ ty', ty.grown = some ty' ∧ ty.capacity < ty'.capacity := by
  have hlt : (Content.bytes c.child).card < 256 := by
    have hss : Content.bytes c.child ⊂ Finset.univ :=
      (Finset.ssubset_univ_iff).mpr fun h => by
        have : b ∈ Content.bytes c.child := by simp [h]
        exact Content.mem_bytes.mp this hb
    simpa using Finset.card_lt_card hss
  cases ty with
  | node256 =>
    simp only [NodeType.capacity] at hfull
    omega
  | _ => exact ⟨_, rfl, by simp [NodeType.capacity]⟩

/-- A full node is replaced by a larger copy. -/
lemma wp_growNode {b : Byte} (H : C.InsertHooks t Γ.lo kind l mode count P Q)
    (hh : ∀ l, Γ.held l = none) (hc : Γ.clear = none)
    (hf : Facing live Γ Δ prep par n s l.key d) (hpre : s.cont.pre <+: l.key.drop d)
    (hb : l.key[d + s.cont.pre.length]? = some b) (hnull : s.cont.child b = .null)
    (hfull : s.ty.capacity ≤ (Content.bytes s.cont.child).card) (hx : C.At live t Δ P x) :
    C.rg.wp live t (growNode l count prep par n s.v (d + s.cont.pre.length) b)
      (LevelEnds live t Γ P Q l d) x := by
  obtain ⟨ty, hty, hcap⟩ := grown_of_full hnull hfull
  refine RG.wp_seq (wp_nodeType hx n) ?_
  rintro (r : NodeType) y - ⟨rfl, hy, -⟩
  rw [(hx.knows.seen n s hf.seen).ty]
  simp only [hty]
  have hcl := hf.clear hc
  refine RG.wp_seq (wp_poolNode ty hy hcl hf.pool) ?_
  rintro ⟨_ | d', prep'⟩ z - ⟨hnone, hsome⟩
  · obtain ⟨rfl, hroom, hz⟩ := hnone rfl
    exact RG.wp_ret (hf.full H .rfl hf.pool hroom hz)
  obtain ⟨hpool, -, hused, hz⟩ := hsome d' rfl
  have hΔ : Δ.Builds (Δ.own d' ty Fields.fresh) := Know.Builds.rfl.own
  refine wp_couple hz hcl (hf.idle hh) hf.seen (hf.coupled.builds hΔ).pub
    (fun _ => hf.coupled.builds hΔ) ?_ ?_
  · intro w Δ' hl' hΔ' hw
    exact ⟨hl', Δ', (hf.quiet.trans hΔ.quiet).trans hΔ'.quiet, hpool.congr hΔ'.priv, hw⟩
  intro w Δ' pg F hok _ hp hw
  have hcl' : Δ'.clear = none := hp.clear.trans hcl
  have hd' : Δ'.priv d' = some (ty, Fields.fresh) := by rw [hp.priv, Know.own_priv]
  have hfit : (Content.bytes s.cont.child).card < ty.capacity := lt_of_le_of_lt hp.repr.fits hcap
  refine RG.wp_seq (wp_copyInto hw hcl' hp.grasp hp.repr hfit.le hd') ?_
  rintro _ w₁ - ⟨F₁, hF₁, hw₁⟩
  obtain ⟨F₂, hrun, hF₂⟩ := hF₁.insertChild (s := .leaf l) hnull (by simp) hfit
  refine RG.wp_seq (wp_typed_priv hw₁ hcl' Know.own_priv hrun) ?_
  rintro _ w₂ - ⟨-, hw₂⟩
  rw [Know.own_own] at hw₂
  refine RG.wp_seq (wp_leafStep H.can_count hw₂) ?_
  intro _ w₃ hok₃ hw₃
  have hrest := drop_eq_cons hb
  have hlo : (Δ'.own d' ty F₂).lo = Γ.lo := hp.lo.trans hf.quiet.lo
  have hg : Guarded (Δ'.own d' ty F₂) pg (.node n) s.epoch s.path :=
    hp.guard.congr rfl (fun _ => rfl) fun _ _ => rfl
  have hdn : d' ≠ n := hw₃.priv_ne_held hok₃ (by simp) (by
    show Δ'.held _ ≠ none
    simp [hp.held])
  have hnd : ¬ Δ'.due n := hw₃.not_due (Γ := Δ'.own d' ty F₂) hok₃ hp.grasp (by simp)
  refine RG.wp_seq (wp_grow (R := Q (some (.inserted l)))
    (by rw [hlo]; exact H.can_put) hw₃ hcl' hg
    (by rw [hlo]; exact hf.lo_le) hp.ne hp.grasp
    ⟨F₂, Know.own_priv, by rw [hrest]; exact hF₂⟩ (key_along hf.path hpre)
    (by rw [hrest]; exact hnull)) ?_
  rintro _ w₄ - ⟨Δ₄, h1, h2, h3, h4, h5, h6, h7, h8, hw₄⟩
  have hheld : Δ₄.held = Δ'.held := h2
  refine RG.wp_seq (wp_markObsolete (v := s.v) hw₄ (by simp [hheld, hp.held])
    ((h5 n).mpr (.inr rfl))) ?_
  intro _ w₅ _ hw₅
  refine RG.wp_seq (wp_guardUnlock hw₅ (h4.trans hcl') (h7.of_ne hp.ne rfl
    (fun lt hlt => by simp [Know.unlatch, hlt]) fun p hpn => by simp [Know.unlatch, hpn])) ?_
  rintro _ w₆ - ⟨Δ₆, hun, hw₆, -⟩
  have hfree := hp.released (hf.idle hh) (by rw [← hheld]; rfl) hun.held
  refine RG.wp_seq (wp_retireNode (n := n) hw₆ ?_ (by rw [hfree]; exact hf.idle hh _)) ?_
  · rw [hun.due]
    exact (h5 n).mpr (.inr rfl)
  intro _ w₇ _ hw₇
  have hq : Δ.Quiet (Δ₆.retire n) := by
    refine ⟨(hun.lo.trans h1).trans hp.lo, hfree, (hun.follow.trans h3).trans hp.follow,
      (hun.clear.trans h4).trans hp.clear, ?_⟩
    funext n'
    show (n' ≠ n ∧ Δ₆.due n') = Δ.due n'
    rw [hun.due]
    show (n' ≠ n ∧ Δ₄.due n') = (Δ.own d' ty Fields.fresh).due n'
    rw [← hp.due, h5 n']
    refine propext ⟨fun h => h.2.resolve_right h.1, fun h => ⟨fun hn => hnd (hn ▸ h), .inl h⟩⟩
  refine RG.wp_ret ⟨rfl, Δ₆.retire n, hf.quiet.trans hq, hpool.commit [d'] (fun n' => ?_) ?_,
    hw₇, by simp, ?_⟩
  · rw [hused n', List.mem_singleton]
    exact ⟨.inl, fun h => h.resolve_right (hf.unused n')⟩
  · refine hun.priv.trans (h6.trans ?_)
    funext n'
    by_cases hn' : n' = d'
    · simp [hn']
    · simp [hn', hp.priv, Know.own]
  · rintro h ⟨rfl⟩
    have hseen : (Δ₆.retire n).seen d' = Δ₄.seen d' := by
      show Δ₆.seen d' = _
      rw [hun.seen d' (hw₃.priv_ne_owner hok₃ (by simp) hg)]
      simp [Know.unlatch, hdn]
    refine ⟨_, hseen.trans h8, rfl, by rw [hq.lo, hf.quiet.lo]; exact hf.lo_le, ?_⟩
    simpa using take_along hf.len hf.path hpre

/-! ## The descent -/

/-- A node with a leaf or nothing at the next byte of the key. -/
lemma wp_insertBelow {b : Byte} {r : Slot} (H : C.InsertHooks t Γ.lo kind l mode count P Q)
    (hh : ∀ l, Γ.held l = none) (hc : Γ.clear = none)
    (hf : Facing live Γ Δ prep par n s l.key d) (hr : ∀ c, r ≠ .node c)
    (hx : C.At live t Δ P x) {len : ℕ} (hb : l.key[d + len]? = some b)
    (hpr : Promise live n s.v ((s.cont.pre <+: l.key.drop d ∧ len = s.cont.pre.length) ∧
      r = s.cont.child b) (tree x)) :
    C.rg.wp live t (do
      let full ← typed n isFull
      if !(← validate (.node n) s.v) then return .inr (.inl prep)
      match r with
      | .leaf old => insertAtLeaf kind l mode count prep n s.v (d + len) b old
      | _ =>
        if full then growNode l count prep par n s.v (d + len) b
        else insertRoom l count prep n s.v (d + len) b)
      (LevelEnds live t Γ P Q l d) x := by
  refine RG.wp_intro fun hok => ?_
  refine RG.wp_seq (wp_typed_spec (fun _ => readOnly_isFull)
    (R := fun full => full = decide (s.ty.capacity ≤ (Content.bytes s.cont.child).card))
    (fun F a hF hrun => ?_) hf.seen hx (hpr.leafKeys hx hok hf.seen)) ?_
  · rw [hF.run_isFull] at hrun
    simpa using hrun.symm
  rintro full y - ⟨hy, hpr⟩
  refine RG.wp_seq (wp_validateSlot (r := r) H hf hy hpr ?_) ?_
  · rintro ⟨⟨⟨⟨hpre, rfl⟩, rfl⟩, -⟩, -⟩
    exact ⟨hpre, by rw [drop_eq_cons hb]; rfl⟩
  rintro (_ | _) z - ⟨htrue, hfalse⟩
  · exact RG.wp_ret (hf.retries (hfalse rfl).1 (hfalse rfl).2)
  obtain ⟨⟨⟨⟨⟨hpre, rfl⟩, rfl⟩, hkeys⟩, rfl⟩, hz⟩ := htrue rfl
  simp only [Bool.not_true, Bool.false_eq_true, if_false]
  cases hch : s.cont.child b with
  | node c => exact absurd hch (hr c)
  | leaf old =>
    rw [hch] at hz
    exact wp_insertAtLeaf H hh hc hf hpre hb hch hkeys hz
  | null =>
    rw [hch] at hz
    by_cases hfull : s.ty.capacity ≤ (Content.bytes s.cont.child).card
    · simp only [hfull, decide_true, if_true]
      exact wp_growNode H hh hc hf hpre hb hch hfull hz
    · simp only [hfull, decide_false, Bool.false_eq_true, if_false]
      exact wp_insertRoom H hh hc hf hpre hb hch (by omega) hz

/-- One level of the descent. -/
lemma wp_insertLevel (H : C.InsertHooks t Γ.lo kind l mode count P Q)
    (hh : ∀ l, Γ.held l = none) (hc : Γ.clear = none)
    (hx : Inserting live t Γ P l.key prep par n d x) :
    C.rg.wp live t (insertLevel kind l mode count ⟨prep, par, n, d⟩)
      (LevelEnds live t Γ P Q l d) x := by
  obtain ⟨hun, Δ, hΔ, hpool, hbase, hx, hlink⟩ := hx
  refine RG.wp_seq (wp_readVersion_linked hx (hΔ.clear.trans hc)
    (by rw [hΔ.held]; exact hh _) hlink) ?_
  rintro (_ | v) y - ⟨hy, hlink, hnone, hsome⟩
  · exact RG.wp_ret ⟨hnone rfl, Δ, hΔ, hpool, hy⟩
  obtain ⟨hv, hpr⟩ := hsome v rfl
  refine RG.wp_seq (wp_stillParent hy hlink hv hpr) ?_
  rintro (_ | _) y - ⟨hfalse, htrue⟩
  · exact RG.wp_ret ⟨(hfalse rfl).1, Δ, hΔ, hpool, (hfalse rfl).2⟩
  obtain ⟨hd, s, rfl, hpath, hlo, hcp, hy, hpr⟩ := htrue rfl
  have hf : Facing live Γ (Δ.see n s) prep par n s l.key d :=
    ⟨hΔ.trans ⟨rfl, rfl, rfl, rfl, rfl⟩, hpool.congr rfl, hun, hbase, by simp [Know.see],
      hΔ.lo ▸ hlo, hpath, hd, hcp.see⟩
  refine RG.wp_seq (wp_loadPrefix hf.seen hy hpr) ?_
  rintro pre y - ⟨hy, hlen, hpr⟩
  by_cases hpre : pre.isPrefixOf (l.key.drop d) = true
  · simp only [hpre, if_true, lt_self_iff_false, if_false]
    have hle : d + pre.len ≤ l.key.length := by
      have := isPrefixOf_le hpre
      rw [List.length_drop] at this
      omega
    have hpr' : Promise live n s.v (s.cont.pre <+: l.key.drop d ∧ pre.len = s.cont.pre.length)
        (tree y) := hpr.mono fun h => ⟨(h.2.isPrefixOf_iff _).mp hpre, h.2.len⟩
    by_cases hend : d + pre.len = l.key.length
    · simp only [hend, if_true]
      exact wp_insertExact H hh hc hf hy (hpr'.mono fun h => ⟨h.1, h.2 ▸ hend⟩)
    · simp only [hend, if_false]
      have hb := List.getElem?_eq_getElem (l := l.key) (i := d + pre.len) (by omega)
      generalize l.key[d + pre.len] = b at hb
      rw [hb]
      refine RG.wp_seq (wp_findChild b hf.seen hy hpr') ?_
      rintro r z - ⟨hz, hpr⟩
      cases r with
      | node c =>
        refine RG.wp_ret ⟨by simp only; omega, ?_, hun, Δ.see n s, hf.quiet, hf.pool, hf.base, hz,
          s, hf.seen, rfl, by rw [hf.quiet.lo]; exact hf.lo_le, hpr.mono ?_⟩
        · intro _
          have := (List.getElem?_eq_some_iff.mp hb).1
          simp only
          omega
        · rintro ⟨⟨h1, h2⟩, h3⟩
          rw [h2] at hb ⊢
          exact ⟨path_step hf.path h1 hb, h3.symm, (List.getElem?_eq_some_iff.mp hb).1⟩
      | null => exact wp_insertBelow (r := .null) H hh hc hf (by simp) hz hb hpr
      | leaf old => exact wp_insertBelow (r := .leaf old) H hh hc hf (by simp) hz hb hpr
  · have hpre' : ¬ pre.asSlice <+: l.key.drop d := fun h => hpre ((isPrefixOf_iff hlen _).mpr h)
    have hlt := commonPrefix_lt hpre'
    have hsl : pre.asSlice.length = pre.len := by simp [PrefixSnapshot.asSlice]
    rw [hsl] at hlt
    simp only [hpre, Bool.false_eq_true, if_false, hlt, if_true]
    exact wp_splitPrefix H hh hc hf hy (hpr.mono fun h => h.2) hlt

/-! ## At the root -/

/-- How an attempt ends. -/
def AttemptEnds (live : Bool) (t : ℕ) (Γ : Know) (P : C.Assertion t)
    (Q : Option Outcome → C.Assertion t) (l : Leaf) (r : Pool ⊕ Landed) (y : C.W) : Prop :=
  match r with
  | .inl prep => Retries live t Γ P prep y
  | .inr r => Lands live t Γ Q l r y

/-- The root is released without a change. -/
lemma wp_rootBack {v e : ℕ} {r : Slot} (hq : Γ.Quiet Δ) (hp : PoolOk Δ prep)
    (hh : ∀ l, Γ.held l = none) (hl : live = false)
    (hx : C.At live t (Δ.latchRoot v r e) P x) :
    C.rg.wp live t (do
      let _ ← unlock .root v
      return .inl prep) (AttemptEnds live t Γ P Q l) x := by
  refine RG.wp_seq (wp_unlockRoot (v := v) hx (by simp [Know.latchRoot])) ?_
  intro _ y _ hy
  have hq' : Δ.Quiet (Δ.latchRoot v r e).unlatchRoot :=
    Know.Quiet.rfl.unlatchRoot (by rw [hq.held]; exact hh _)
  exact RG.wp_ret ⟨hl, _, hq.trans hq', hp.congr rfl, hy⟩

/-- The attempt that finds an empty tree. -/
lemma wp_insertFirst {e : ℕ} (H : C.InsertHooks t Γ.lo kind l mode count P Q)
    (hh : ∀ l, Γ.held l = none) (hc : Γ.clear = none) (hq : Γ.Quiet Δ) (hp : PoolOk Δ prep)
    (htop : Δ.top = some (.null, e)) (hx : C.At live t Δ P x) :
    C.rg.wp live t (insertFirst l count prep) (AttemptEnds live t Γ P Q l) x := by
  have hh' : ∀ l, Δ.held l = none := by rwa [hq.held]
  refine wp_lockedRoot hx hh' ?_
  intro y v r e' _ hy hlo hg hlive
  by_cases hr : r = .null
  · subst hr
    simp only [ne_eq, not_true_eq_false, if_false]
    refine RG.wp_seq (wp_leafStep H.can_count hy) ?_
    intro _ z _ hz
    have hlo' : (Δ.latchRoot v .null e').lo = Γ.lo := hq.lo
    refine RG.wp_seq (wp_putRoot (z := some l) (R := Q (some (.inserted l)))
      (by rw [hlo']; exact H.can_put) hz (hq.clear.trans hc) hg hlo (by simp) (by simp)
      (by simp)) ?_
    rintro _ u - ⟨Δ', h1, h2, h3, hu⟩
    refine RG.wp_seq (wp_unlockRoot hu h3.1) ?_
    intro _ w _ hw
    exact RG.wp_ret ⟨rfl, Δ'.unlatchRoot, hq.trans (h1.unlatchRoot (hh' _)), hp.congr h2, hw,
      by simp, by simp⟩
  · simp only [ne_eq, hr, not_false_eq_true, if_true]
    refine wp_rootBack hq hp hh ?_ hy
    by_contra hl
    exact hr (hlive (by simpa using hl) _ _ htop)

/-- A leaf of the same key at the root is replaced. -/
lemma wp_swapRoot {e : ℕ} (H : C.InsertHooks t Γ.lo kind l mode count P Q)
    (hh : ∀ l, Γ.held l = none) (hc : Γ.clear = none) (hq : Γ.Quiet Δ) (hp : PoolOk Δ prep)
    (htop : Δ.top = some (.leaf old, e)) (hkey : old.key = l.key) (hmode : mode = .replace)
    (hx : C.At live t Δ P x) :
    C.rg.wp live t (insertAtRoot kind l mode count prep old) (AttemptEnds live t Γ P Q l)
      x := by
  have hh' : ∀ l, Δ.held l = none := by rwa [hq.held]
  simp only [insertAtRoot, hkey, hmode, if_true, reduceCtorEq, if_false]
  refine wp_lockedRoot hx hh' ?_
  intro y v r e' _ hy hlo hg hlive
  by_cases hr : r = .leaf old
  · subst hr
    simp only [ne_eq, not_true_eq_false, if_false]
    have hlo' : (Δ.latchRoot v (.leaf old) e').lo = Γ.lo := hq.lo
    have hmap : (Slot.leaf old).map l.key = some old := by simp [Slot.map, hkey]
    refine RG.wp_seq (wp_putRoot (z := some l) (R := H.swap old)
      (by rw [hlo', hmap]; exact H.can_swap old hmode) hy (hq.clear.trans hc) hg hlo (by simp)
      (by simp [hkey]) (by simp)) ?_
    rintro _ u - ⟨Δ', h1, h2, h3, hu⟩
    refine RG.wp_seq (wp_markRemoved (H.can_mark old hmode) hu) ?_
    intro _ u' _ hu'
    refine RG.wp_seq (wp_unlockRoot hu' h3.1) ?_
    intro _ w _ hw
    refine RG.wp_seq (wp_leafStep (H.can_retire old hmode) hw) ?_
    intro _ w' _ hw'
    exact RG.wp_ret ⟨rfl, Δ'.unlatchRoot, hq.trans (h1.unlatchRoot (hh' _)), hp.congr h2, hw',
      by simp, by simp⟩
  · simp only [ne_eq, hr, not_false_eq_true, if_true]
    refine wp_rootBack hq hp hh ?_ hy
    by_contra hl
    exact hr (hlive (by simpa using hl) _ _ htop)

/-- A leaf of another key at the root is split. -/
lemma wp_splitRoot {e : ℕ} (H : C.InsertHooks t Γ.lo kind l mode count P Q)
    (hh : ∀ l, Γ.held l = none) (hc : Γ.clear = none) (hq : Γ.Quiet Δ) (hp : PoolOk Δ prep)
    (hun : prep.Unused) (hbase : live = true → Δ.base = Γ.base)
    (htop : Δ.top = some (.leaf old, e)) (hkey : old.key ≠ l.key) (hx : C.At live t Δ P x) :
    C.rg.wp live t (insertAtRoot kind l mode count prep old) (AttemptEnds live t Γ P Q l)
      x := by
  simp only [insertAtRoot, hkey, if_false]
  have hhead : (old.key.drop (commonPrefix old.key l.key)).head? ≠
      (l.key.drop (commonPrefix old.key l.key)).head? :=
    (commonPrefix_head old.key l.key).resolve_right hkey
  refine RG.wp_seq (wp_buildChain (l := l)
    hx (hq.clear.trans hc) hp hun hhead) ?_
  rintro ⟨_ | ⟨top, bottom⟩, prep'⟩ y - ⟨Δ', hΔ, hp', hy, hnone, hsome⟩
  · exact RG.wp_ret ⟨rfl, Δ', hq.trans hΔ.quiet, hp',
      ⟨hy.knows, H.can_fail _ hy.client (hnone rfl)⟩, fun _ hl => hΔ.base.trans (hbase hl),
      by simp [Landed.full]⟩
  obtain ⟨L, rest, c, rfl, hfork, hmake⟩ := hsome top bottom rfl
  have hq' := hq.trans hΔ.quiet
  have hh' : ∀ l, Δ'.held l = none := by rwa [hq'.held]
  refine wp_lockedRoot hy hh' ?_
  intro z v r e' _ hz hlo hg hlive
  by_cases hr : r = .leaf old
  · subst hr
    simp only [ne_eq, not_true_eq_false, if_false]
    refine RG.wp_seq (wp_leafStep H.can_count hz) ?_
    intro _ u _ hu
    have hlo' : (Δ'.latchRoot v (.leaf old) e').lo = Γ.lo := hq'.lo
    refine RG.wp_seq (wp_split (R := Q (some (.inserted l))) (by rw [hlo']; exact H.can_put) hu
      (hq'.clear.trans hc) hg hlo (hmake.congr rfl) hfork
      (by rw [List.nil_append, ← commonPrefix_take, List.take_append_drop])
      (by rw [List.nil_append, List.take_append_drop]) hkey rfl) ?_
    rintro _ u' - ⟨Δ'', h1, h2, h3, -, hu'⟩
    refine RG.wp_seq (wp_unlockRoot hu' h3.1) ?_
    intro _ w _ hw
    exact RG.wp_ret ⟨rfl, Δ''.unlatchRoot, hq'.trans (h1.unlatchRoot (hh' _)), h2.congr rfl, hw,
      by simp, by simp⟩
  · simp only [ne_eq, hr, not_false_eq_true, if_true]
    refine wp_rootBack hq' hp' hh ?_ hz
    by_contra hl
    exact hr (hlive (by simpa using hl) _ _ (hΔ.top.trans htop))

/-- The attempt that finds a single leaf. -/
lemma wp_insertAtRoot {e : ℕ} (H : C.InsertHooks t Γ.lo kind l mode count P Q)
    (hh : ∀ l, Γ.held l = none) (hc : Γ.clear = none) (hq : Γ.Quiet Δ) (hp : PoolOk Δ prep)
    (hun : prep.Unused) (hbase : live = true → Δ.base = Γ.base)
    (htop : Δ.top = some (.leaf old, e))
    (hx : C.At live t Δ (found P Q mode l.key (.leaf old)) x) :
    C.rg.wp live t (insertAtRoot kind l mode count prep old) (AttemptEnds live t Γ P Q l)
      x := by
  by_cases hkey : old.key = l.key
  · by_cases hmode : mode = .insertIfAbsent
    · rw [found_leaf hmode hkey] at hx
      simp only [insertAtRoot, hkey, hmode, if_true]
      exact RG.wp_ret ⟨rfl, Δ, hq, hp, hx, by simp, by simp⟩
    · rw [found_swap hmode] at hx
      exact wp_swapRoot H hh hc hq hp htop hkey (by cases mode <;> simp at hmode ⊢) hx
  · rw [found_other hkey] at hx
    exact wp_splitRoot H hh hc hq hp hun hbase htop hkey hx

/-! ## The whole insert -/

/-- The load of the root, at which an insert-if-absent may find the leaf of its key. -/
lemma found_upd (H : C.InsertHooks t Γ.lo kind l mode count P Q) (hok : C.rg.Ok live t y)
    (hlo : Δ.lo = Γ.lo) (hy : C.At live t Δ P y) :
    Upd t (scene y) (scene y).leafs (scene y).view (found P Q mode l.key (tree y).root) := by
  by_cases hm : ∃ old, (tree y).root = .leaf old ∧ mode = .insertIfAbsent ∧ old.key = l.key
  · obtain ⟨old, hr, hmode, hkey⟩ := hm
    rw [hr, found_leaf hmode hkey]
    refine H.can_find hmode (scene y) (shadow y).cur old (ok_client hok) hy.client
      (hlo ▸ hy.knows.lo) le_rfl ?_
    have hroot := (ok_tree hok).root.symm.trans hr
    have := (ok_tree hok).wf.map_slot (Forest.at_root (shadow y).cur) (k := l.key)
      (by simp [Forest.slot, hroot]) List.nil_prefix
    show (shadow y).forest.map _ _ = _
    rw [this]
    simp [Forest.slot, hroot, Slot.map, hkey]
  · have : found P Q mode l.key (tree y).root = P := by
      cases hr : (tree y).root with
      | leaf old =>
        by_cases hmode : mode = .insertIfAbsent
        · exact found_other fun hkey => hm ⟨old, hr, hmode, hkey⟩
        · exact found_swap hmode _
      | _ => rfl
    rw [this]
    exact Upd.rfl (ok_client hok) hy.client

/-- `RawTree::insert_with`. -/
theorem wp_insertWith (H : C.InsertHooks t Γ.lo kind l mode count P Q)
    (hh : ∀ l, Γ.held l = none) (hc : Γ.clear = none) (hp : ∀ n, Γ.priv n = none)
    (hx : C.At live t Γ P x) :
    C.rg.wp live t (insertWith kind l mode count) (Lands live t Γ Q l) x := by
  refine RG.wp_iter (δ := ℕ) (fun prep y => ∃ Δ, Γ.Quiet Δ ∧ PoolOk Δ prep ∧
    (live = true → Δ.base = Γ.base) ∧ C.At live t Δ P y) (fun _ _ => 0) (fun prep y hy => ?_)
    ⟨Γ, .rfl, ⟨by simp, by simp [hp]⟩, fun _ => rfl, hx⟩
  obtain ⟨Δ, hq, hpool, hbase, hy⟩ := hy
  refine RG.wp_mono (Q := AttemptEnds live t Γ P Q l) ?_ ?_
  · refine RG.wp_intro fun hok => ?_
    have hupd := found_upd H hok hq.lo hy
    have htop := hy.knows.seeTop
    refine RG.wp_seq (wp_load (R := found P Q mode l.key (tree y).root) hy rfl fun _ => hupd) ?_
    rintro (r : Slot) z - ⟨rfl, hz, hlater⟩
    rw [show (execTree .loadRoot (tree y)).1 = (tree y).root from rfl]
    have hq' : Γ.Quiet (Δ.seeTop (tree y).root (shadow y).cur) :=
      hq.trans ⟨rfl, rfl, rfl, rfl, rfl⟩
    have hz' := At.later htop (ok_tree hok) hlater hz.client
    cases hr : (tree y).root with
    | null =>
      rw [hr] at hz' hq'
      exact wp_insertFirst H hh hc hq' (hpool.reset.congr rfl) rfl hz'
    | leaf old =>
      rw [hr] at hz' hq'
      exact wp_insertAtRoot H hh hc hq' (hpool.reset.congr rfl) prep.unused_reset hbase rfl hz'
    | node n =>
      rw [hr] at hz' hq'
      refine RG.wp_iter (δ := ℕ)
        (fun (d : Descent) u => (live = true → d.depth ≤ l.key.length) ∧
          Inserting live t Γ P l.key d.prep d.parent d.node d.depth u)
        (fun (d : Descent) _ => l.key.length - d.depth) ?_ (s := ⟨prep.reset, .root, n, 0⟩) ?_
      · rintro ⟨prep, par, n, d⟩ u ⟨hd, hu⟩
        refine RG.wp_mono (wp_insertLevel H hh hc hu) ?_
        rintro (d' | r) w - hw
        · obtain ⟨h1, h2, h3⟩ := hw
          refine ⟨⟨h2, h3⟩, fun hl => ?_⟩
          have := h2 hl
          simp only
          omega
        · rcases r with prep' | r
          · exact hw
          · exact hw
      · exact ⟨fun _ => Nat.zero_le _, prep.unused_reset, _, hq', hpool.reset.congr rfl, hbase,
          hz', by simp, Nat.zero_le _, _, rfl⟩
  · rintro (prep' | r) z - hz
    · obtain ⟨hl, Δ', h1, h2, h3⟩ := hz
      exact ⟨⟨Δ', h1, h2, by simp [hl], h3⟩, by simp [hl]⟩
    · exact hz

/-- `RawTree::insert_hinted`.  What was not published is freed. -/
theorem wp_insertHinted (H : C.InsertHooks t Γ.lo kind l mode count P Q)
    (hh : ∀ l, Γ.held l = none) (hc : Γ.clear = none) (hp : ∀ n, Γ.priv n = none)
    (hx : C.At live t Γ P x) :
    C.rg.wp live t (insertHinted kind l mode count) (fun r y => r.2.2 = ownerAfter l r.1 ∧
      ∃ Δ, Γ.Quiet Δ ∧ (∀ n, Δ.priv n = none) ∧ C.At live t Δ (Q r.1) y ∧
        (r.1 = none → live = true → Δ.base = Γ.base) ∧
        ∀ h, r.2.1 = some h → Points Δ h l.key) x := by
  refine RG.wp_seq (wp_insertWith H hh hc hp hx) ?_
  rintro r y - ⟨ho, Δ, h1, h2, hy, h3, h4⟩
  refine RG.wp_seq (wp_poolRelease hy (h1.clear.trans hc) h2) ?_
  intro _ z _ hz
  exact RG.wp_ret ⟨ho, { Δ with priv := fun _ => none }, h1.trans ⟨rfl, rfl, rfl, rfl, rfl⟩,
    fun _ => rfl, hz, h3, h4⟩

/-- **The insert** takes effect once, and leaves nothing behind. -/
theorem wp_insert (H : C.InsertHooks t Γ.lo kind l mode count P Q)
    (hh : ∀ l, Γ.held l = none) (hc : Γ.clear = none) (hp : ∀ n, Γ.priv n = none)
    (hx : C.At live t Γ P x) :
    C.rg.wp live t (insert kind l mode count) (fun r y => r.2 = ownerAfter l r.1 ∧
      ∃ Δ, Γ.Quiet Δ ∧ (∀ n, Δ.priv n = none) ∧ C.At live t Δ (Q r.1) y ∧
        (r.1 = none → live = true → Δ.base = Γ.base)) x := by
  refine RG.wp_seq (wp_insertHinted H hh hc hp hx) ?_
  rintro r y - ⟨ho, Δ, h1, h2, hy, h3, -⟩
  exact RG.wp_ret ⟨ho, Δ, h1, h2, hy, h3⟩

end Client

end Artmap
