import Artmap.Framework.Linearize
import Artmap.Tree.Client
import Mathlib.Data.Finsupp.Basic

/-!
# Maps over a tree

A map offers operations over a tree whose leaves are its entries.  Its ghost state orders the
calls (`Log`), and keeps a ledger of the leaves and of the length counter: every leaf that was
ever built is held by the call that is to publish it, linked, cut or marked by the call that
took it out, retired, or has not been published and was freed or handed back; and the counter is
what the linked leaves of all epochs add up to, plus what the running calls have counted too
early or have not yet uncounted.

The trees of past epochs belong to the clears that detached them.  A leaf of such a tree stays
in its map; the clear marks it once its key is frozen, and the ledger says so.
-/

namespace Artmap

/-- A map over a tree: its operations and what they mean. -/
structure Interface where
  Op : Type
  Ret : Type
  code : Op → TreeM Ret
  /-- The meaning of an operation on the map from keys to leaves. -/
  step : (Key → Option Leaf) → Op → (Key → Option Leaf) × Ret
  /-- The leaf that a call builds. -/
  builds : Op → Option Leaf
  /-- The key that a call may take out. -/
  takes : Op → Option Key
  /-- The operations that detach the tree. -/
  clears : Op → Prop
  /-- The leaf that a call has put into the map, by its result. -/
  puts : Op → Ret → Option Leaf
  /-- There is room for every node. -/
  roomy : Prop
  /-- The answers of calls that have failed, without an effect. -/
  fails : Ret → Bool := fun _ => false
  fails_puts : ∀ op a, fails a = true → puts op a = none := by simp

/-- What has become of a leaf. -/
inductive LeafState where
  | blank
  /-- Thread `t` is to publish it. -/
  | held (t : ℕ)
  | linked
  /-- Thread `t` has taken it out. -/
  | cut (t : ℕ)
  /-- Thread `t` has marked it as removed. -/
  | marked (t : ℕ)
  | retired
  /-- It was freed without having been published. -/
  | freed
  /-- A call that has failed has handed it back. -/
  | dropped
  deriving DecidableEq

namespace LeafState

/-- The thread that is to deal with the leaf. -/
def owner : LeafState → Option ℕ
  | held t => some t
  | cut t => some t
  | marked t => some t
  | _ => none

/-- The leaf has been marked as removed. -/
def Removed : LeafState → Prop
  | marked _ => True
  | retired => True
  | _ => False

/-- The leaf has been in the map. -/
def Published : LeafState → Prop
  | blank => False
  | held _ => False
  | freed => False
  | dropped => False
  | _ => True

/-- The leaf was not published, and will not be. -/
def Unused : LeafState → Prop
  | freed => True
  | dropped => True
  | _ => False

instance (s : LeafState) : Decidable s.Removed := by
  cases s <;> simp only [Removed] <;> infer_instance

/-- Of the state of a leaf, what is up to thread `t`. -/
def part (t : ℕ) (s : LeafState) : Option LeafState :=
  if s.owner = some t then some s else none

variable {t t' : ℕ} {s s' : LeafState}

lemma Removed.published (h : s.Removed) : s.Published := by
  cases s <;> first | exact h | trivial

lemma part_eq_some : part t s = some s' ↔ s = s' ∧ s.owner = some t := by
  unfold part
  split_ifs with h
  · simp [h]
  · simp [h]

lemma part_eq_none : part t s = none ↔ s.owner ≠ some t := by
  unfold part
  split_ifs with h <;> simp [h]

lemma part_of_ne (h : s.owner = some t) (hne : t' ≠ t) : part t' s = none := by
  rw [part_eq_none, h]
  simpa using hne.symm

end LeafState

/-- A call in progress, and its result once it has taken effect. -/
structure Running (Op Ret : Type) where
  id : ℕ
  op : Op
  res : Option Ret

namespace Interface

variable (M : Interface)

/-- What the operations of a map mean. -/
@[reducible] def spec : Spec M.Op M.Ret where
  State := Key → Option Leaf
  init := fun _ => none
  step := M.step

/-- The events that count: a call that has failed is as good as one that has not come to an
end. -/
def told (h : List (Event M.Op M.Ret)) : List (Event M.Op M.Ret) :=
  h.filter fun ev => match ev with
    | .inv _ _ => true
    | .res _ a => !M.fails a

/-- The ghost state of a map. -/
structure Ghost where
  log : Log M.Op M.Ret
  run : ℕ → Option (Running M.Op M.Ret)
  st : Leaf → LeafState
  /-- The keys of an epoch whose leaves are linked. -/
  live : ℕ → Finset Key
  /-- By how much a thread has counted too much. -/
  debt : ℕ →₀ ℤ
  /-- The thread that clears an epoch. -/
  sweep : ℕ → Option ℕ

/-- The scenes of a map. -/
abbrev MapScene : Type := Scene M.Op M.Ret M.Ghost

variable {M}

section Told

variable {h h' : List (Event M.Op M.Ret)} {i : ℕ} {op : M.Op} {a : M.Ret}

@[simp] lemma told_append : M.told (h ++ h') = M.told h ++ M.told h' :=
  List.filter_append _ _

@[simp] lemma told_inv : M.told [.inv i op] = [.inv i op] := rfl

lemma told_res (ha : M.fails a = false) : M.told [.res i a] = [.res i a] := by
  simp [told, ha]

lemma told_fail (ha : M.fails a = true) : M.told [.res i a] = [] := by
  simp [told, ha]

@[simp] lemma inv_mem_told : .inv i op ∈ M.told h ↔ .inv i op ∈ h := by
  simp [told]

lemma res_mem_told : .res i a ∈ M.told h ↔ .res i a ∈ h ∧ M.fails a = false := by
  simp [told]

/-- Where no call fails, every event counts. -/
lemma told_eq (ha : ∀ a, M.fails a = false) (h : List (Event M.Op M.Ret)) : M.told h = h := by
  refine List.filter_eq_self.mpr fun ev _ => ?_
  cases ev <;> simp [ha]

end Told

/-- What the length counter should say. -/
def total (live : ℕ → Finset Key) (debt : ℕ →₀ ℤ) (cur : ℕ) : ℤ :=
  ∑ e ∈ Finset.range (cur + 1), ((live e).card : ℤ) + debt.sum fun _ d => d

/-- A running call fits the log and the history. -/
structure RunOk (h : List (Event M.Op M.Ret)) (l : Log M.Op M.Ret) (r : Running M.Op M.Ret) :
    Prop where
  inv : .inv r.id r.op ∈ h
  pending : ∀ a, .res r.id a ∉ h
  todo : r.res = none → ¬ l.Has r.id
  done : ∀ a, r.res = some a → ∃ e, ⟨r.id, r.op, a⟩ ∈ l.chunk e

/-- The log orders the calls. -/
structure LogInv (h : List (Event M.Op M.Ret)) (v : View) (g : M.Ghost) : Prop where
  log : g.log.Ok M.spec h.length (M.told h) v.map
  cur : g.log.cur = v.cur
  runs : ∀ t r, g.run t = some r → RunOk h g.log r
  run_inj : ∀ t t' r r', g.run t = some r → g.run t' = some r' → r.id = r'.id → t = t'
  res_lt : ∀ i a, .res i a ∈ h → i < h.length

/-- The ledger of the leaves. -/
structure LeafInv (m : LeafMem) (v : View) (g : M.Ghost) : Prop where
  keyed : ∀ e k l, v.map e k = some l → l.key = k
  /-- A leaf that is mapped to is linked, or was dealt with by the clear of its epoch. -/
  mapped : ∀ e k l, v.map e k = some l →
    g.st l = .linked ∨ (e < v.cur ∧ v.frozen e k ∧ (g.st l).Removed)
  /-- Only the clear of an epoch marks leaves that are mapped to. -/
  marker : ∀ e k l t, v.map e k = some l → g.st l = .marked t → g.sweep e = some t
  linked : ∀ l, g.st l = .linked → ∃ e, v.map e l.key = some l
  once : ∀ e e' k k' l, v.map e k = some l → v.map e' k' = some l → e = e'
  live : ∀ e k, k ∈ g.live e ↔ ∃ l, v.map e k = some l ∧ g.st l = .linked
  past : ∀ e, e < v.cur → g.sweep e ≠ none ∨ ((∀ k, v.frozen e k) ∧ g.live e = ∅)
  sweep_lt : ∀ e, g.sweep e ≠ none → e < v.cur
  built : ∀ l, m.built l = true ↔ g.st l ≠ .blank
  removed : ∀ l, m.removed l = true ↔ (g.st l).Removed
  retired : ∀ l, l ∈ m.retired ↔ g.st l = .retired
  retired_nodup : m.retired.Nodup

/-- The ledger of the leaves that were not published. -/
structure UnusedInv (m : LeafMem) (g : M.Ghost) : Prop where
  freed : ∀ l, l ∈ m.freed ↔ g.st l = .freed
  freed_nodup : m.freed.Nodup
  /-- Only calls that fail hand their leaves back. -/
  dropped : ∀ l, g.st l = .dropped → ∃ a, M.fails a = true

/-- The length counter. -/
structure LenInv (m : LeafMem) (v : View) (g : M.Ghost) : Prop where
  len : m.len = total g.live g.debt v.cur
  debt : ∀ t, 0 ≤ g.debt t

/-- A leaf that a call has put into the map has been in it. -/
def PutInv (g : M.Ghost) : Prop :=
  ∀ e, ∀ b ∈ g.log.chunk e, ∀ l, M.puts b.op b.ret = some l → (g.st l).Published

/-- A thread that runs no call has nothing to do. -/
def Idle (g : M.Ghost) (t : ℕ) : Prop :=
  g.debt t = 0 ∧ (∀ l, (g.st l).part t = none) ∧ ∀ e, g.sweep e ≠ some t

/-- The invariant of a map. -/
structure Inv (x : M.MapScene) : Prop where
  log : LogInv x.hist x.view x.ghost
  leaf : LeafInv x.leafs x.view x.ghost
  unused : UnusedInv x.leafs x.ghost
  len : LenInv x.leafs x.view x.ghost
  put : PutInv x.ghost
  idle : ∀ t, x.ghost.run t = none → Idle x.ghost t
  roomy : M.roomy → x.view.roomy
  cache : CacheInv x.leafs x.view
  /-- Without a clear, the first epoch does not end. -/
  still : (∀ op, ¬ M.clears op) → x.view.cur = 0
  /-- Only a clear clears an epoch. -/
  sweeping : ∀ e t, x.ghost.sweep e = some t → ∃ r, x.ghost.run t = some r ∧ M.clears r.op

/-- What the other threads may do to thread `t`. -/
structure Rely (t : ℕ) (x y : M.MapScene) : Prop where
  run : y.ghost.run t = x.ghost.run t
  since : ∀ r, x.ghost.run t = some r → y.ghost.log.since r.id = x.ghost.log.since r.id
  part : ∀ l, (y.ghost.st l).part t = (x.ghost.st l).part t
  removed : ∀ l, (x.ghost.st l).Removed → (y.ghost.st l).Removed
  published : ∀ l, (x.ghost.st l).Published → (y.ghost.st l).Published
  debt : y.ghost.debt t = x.ghost.debt t
  sweep : ∀ e, y.ghost.sweep e = some t ↔ x.ghost.sweep e = some t
  cur : x.view.cur ≤ y.view.cur
  frozen : ∀ e k, x.view.frozen e k → y.view.frozen e k ∧ y.view.map e k = x.view.map e k
  /-- The leaves of an epoch that thread `t` clears are for it to mark. -/
  swept : ∀ e, x.ghost.sweep e = some t → ∀ k l, y.view.map e k = some l →
    y.ghost.st l = .linked ∨ x.view.map e k = some l ∧ y.ghost.st l = x.ghost.st l
  roomy : y.view.roomy = x.view.roomy

namespace Rely

variable {t : ℕ} {x y z : M.MapScene}

lemma refl (t : ℕ) (x : M.MapScene) : Rely t x x where
  run := rfl
  since _ _ := rfl
  part _ := rfl
  removed _ h := h
  published _ h := h
  debt := rfl
  sweep _ := Iff.rfl
  cur := le_rfl
  frozen _ _ h := ⟨h, rfl⟩
  swept _ _ _ _ h := .inr ⟨h, rfl⟩
  roomy := rfl

lemma trans (h : Rely t x y) (h' : Rely t y z) : Rely t x z where
  run := h'.run.trans h.run
  since r hr := (h'.since r (h.run.trans hr)).trans (h.since r hr)
  part l := (h'.part l).trans (h.part l)
  removed l hl := h'.removed l (h.removed l hl)
  published l hl := h'.published l (h.published l hl)
  debt := h'.debt.trans h.debt
  sweep e := (h'.sweep e).trans (h.sweep e)
  cur := h.cur.trans h'.cur
  frozen e k hk := by
    obtain ⟨h1, h2⟩ := h.frozen e k hk
    obtain ⟨h3, h4⟩ := h'.frozen e k h1
    exact ⟨h3, h4.trans h2⟩
  swept e he k l hl := by
    rcases h'.swept e ((h.sweep e).mpr he) k l hl with h1 | ⟨h1, h2⟩
    · exact .inl h1
    · rcases h.swept e he k l h1 with h3 | ⟨h3, h4⟩
      · exact .inl (h2.trans h3)
      · exact .inr ⟨h3, h2.trans h4⟩
  roomy := h'.roomy.trans h.roomy

/-- A thread that has nothing to do is not given anything to do by the others. -/
lemma idle (h : Rely t x y) (hi : Idle x.ghost t) : Idle y.ghost t :=
  ⟨h.debt.trans hi.1, fun l => (h.part l).trans (hi.2.1 l),
    fun e he => hi.2.2 e ((h.sweep e).mp he)⟩

end Rely

variable {x : M.MapScene} {v : View} {t : ℕ}

lemma LogInv.freeze {h : List (Event M.Op M.Ret)} {u : View} {g : M.Ghost} (hv : u.Freezes v)
    (hi : LogInv h u g) : LogInv h v g where
  log := by
    rw [hv.map]
    exact hi.log
  cur := hi.cur.trans hv.cur.symm
  runs := hi.runs
  run_inj := hi.run_inj
  res_lt := hi.res_lt

lemma LeafInv.freeze {m : LeafMem} {u : View} {g : M.Ghost} (hv : u.Freezes v)
    (hi : LeafInv m u g) : LeafInv m v g where
  keyed := by
    rw [hv.map]
    exact hi.keyed
  mapped e k l hl := by
    rw [hv.map] at hl
    rcases hi.mapped e k l hl with h1 | ⟨h1, h2, h3⟩
    · exact .inl h1
    · exact .inr ⟨hv.cur ▸ h1, hv.frozen e k h2, h3⟩
  marker := by
    rw [hv.map]
    exact hi.marker
  linked := by
    rw [hv.map]
    exact hi.linked
  once := by
    rw [hv.map]
    exact hi.once
  live := by
    rw [hv.map]
    exact hi.live
  past e he := by
    rcases hi.past e (hv.cur ▸ he) with h1 | ⟨h1, h2⟩
    · exact .inl h1
    · exact .inr ⟨fun k => hv.frozen e k (h1 k), h2⟩
  sweep_lt e he := hv.cur ▸ hi.sweep_lt e he
  built := hi.built
  removed := hi.removed
  retired := hi.retired
  retired_nodup := hi.retired_nodup

lemma UnusedInv.mono {m m' : LeafMem} {g g' : M.Ghost} (h : UnusedInv m g)
    (hm : m'.freed = m.freed)
    (hst : ∀ l, g'.st l = g.st l ∨ ¬ (g.st l).Unused ∧ ¬ (g'.st l).Unused) :
    UnusedInv m' g' where
  freed l := by
    rw [hm, h.freed l]
    rcases hst l with h1 | ⟨h1, h2⟩
    · rw [h1]
    · constructor
      · intro hs
        exact absurd (by rw [hs]; trivial) h1
      · intro hs
        exact absurd (by rw [hs]; trivial) h2
  freed_nodup := hm ▸ h.freed_nodup
  dropped l hl := by
    rcases hst l with h1 | ⟨-, h2⟩
    · exact h.dropped l (h1.symm.trans hl)
    · exact absurd (by rw [hl]; trivial) h2

lemma Inv.freeze (hv : x.view.Freezes v) (h : Inv x) : Inv { x with view := v } where
  log := h.log.freeze hv
  leaf := h.leaf.freeze hv
  unused := h.unused
  len := ⟨by rw [hv.cur]; exact h.len.len, h.len.debt⟩
  put := h.put
  idle := h.idle
  roomy hm := hv.roomy.mpr (h.roomy hm)
  cache := h.cache.mono rfl hv.hinted
  still hop := hv.cur.trans (h.still hop)
  sweeping := h.sweeping

lemma Rely.freeze (hv : x.view.Freezes v) : Rely t x { x with view := v } where
  run := rfl
  since _ _ := rfl
  part _ := rfl
  removed _ h := h
  published _ h := h
  debt := rfl
  sweep _ := Iff.rfl
  cur := hv.cur.symm.le
  frozen e k hk := ⟨hv.frozen e k hk, congrFun (congrFun hv.map e) k⟩
  swept e _ k l hl := .inr ⟨by rw [← hv.map]; exact hl, rfl⟩
  roomy := hv.roomy

/-- The map as a client of the tree. -/
@[reducible] def client (M : Interface) : Client where
  Op := M.Op
  Ret := M.Ret
  code := M.code
  start _ op m m' := match M.builds op with
    | none => m' = m
    | some l => m.built l = false ∧ m' = { m with built := Function.update m.built l true }
  Ghost := M.Ghost
  Inv := Inv
  Rely := Rely
  refl := Rely.refl
  trans := Rely.trans
  tag g t := (g.run t).map fun r => (r.id, r.op)
  tag_rely h := by rw [h.run]
  takes := M.takes
  clears := M.clears
  freeze_inv hv h := h.freeze hv
  freeze_rely hv := Rely.freeze hv
  Allowed _ _ _ := True

end Interface

end Artmap
