import Artmap.Map.Hooks
import Artmap.Ops.Hint

/-!
# Inserts through inserters

The caches of the inserters are part of the memory around the tree, and what they say is right
(`CacheInv`): the node of a hint goes on from the cached path, as long as its version is the one
in the hint.  In a map that is never cleared, the nodes below a hint are in the only epoch there
is, and an insert at a hint is an insert into that map.
-/

namespace Artmap

namespace Interface

open Client

variable {M : Interface} {live : Bool} {t : ℕ} {Γ Δ : Know} {P : M.client.Assertion t}
  {Q : Option Outcome → M.client.Assertion t} {x y : M.client.W} {l : Leaf} {mode : Mode}
  {c : InserterCache} {i : ℕ} {h : Hint}

/-- The memory around the tree changes in nothing but the caches. -/
lemma Inv.caches {x : M.MapScene} {m : LeafMem} (hi : Inv x) (hs : m.stripes = x.leafs.stripes)
    (hb : m.built = x.leafs.built) (hr : m.removed = x.leafs.removed)
    (hret : m.retired = x.leafs.retired) (hfreed : m.freed = x.leafs.freed)
    (hc : CacheInv m x.view) :
    Inv ⟨m, x.hist, x.view, x.ghost⟩ where
  log := hi.log
  leaf :=
    { hi.leaf with
      built := by rw [hb]; exact hi.leaf.built
      removed := by rw [hr]; exact hi.leaf.removed
      retired := by rw [hret]; exact hi.leaf.retired
      retired_nodup := by rw [hret]; exact hi.leaf.retired_nodup }
  unused := hi.unused.mono hfreed fun _ => .inl rfl
  len :=
    ⟨(congrArg (fun s : Fin 8 → ℤ => ∑ i, s i) hs : m.len = x.leafs.len).trans hi.len.len,
      hi.len.debt⟩
  put := hi.put
  idle := hi.idle
  roomy := hi.roomy
  cache := hc
  still := hi.still
  sweeping := hi.sweeping

/-- The steps of the inserters on their caches. -/
lemma cacheHooks (t : ℕ) : CacheHooks M.client t where
  inv _ hi := Inv.cache hi
  can_load _ _ _ hi hx := ⟨trivial, .rfl hi hx⟩
  can_store i c x P hi hx hc := by
    have hrel : ∀ t', Rely t' x
        ⟨(execLeaf t (.storeCache i c) x.leafs).2, x.hist, x.view, x.ghost⟩ := fun t' =>
      { Rely.refl t' x with }
    refine ⟨trivial, x.ghost, Inv.caches hi rfl rfl rfl rfl rfl fun j => ?_, fun t' _ => hrel t',
      rfl, P.stable (hrel t) hx⟩
    by_cases hj : j = i
    · subst hj
      simpa only [execLeaf, Function.update_self] using hc
    · simpa only [execLeaf, Function.update_of_ne hj] using Inv.cache hi j

section Arena

variable {id : ℕ} {op : M.Op} {f : Option Outcome → M.Ret}

/-- An insert of operation `op`, which answers `f` of the outcome, has ended with `r`. -/
def InsertEnds (live : Bool) (t : ℕ) (Γ : Know) (id : ℕ) (op : M.Op)
    (f : Option Outcome → M.Ret) (r : Option Outcome) (y : M.client.W) : Prop :=
  ∃ Δ, Γ.Quiet Δ ∧ (∀ n, Δ.priv n = none) ∧ M.client.At live t Δ (finished t id op (f r)) y

/-- The end of the insert: the leaf was published, or goes back to the caller. -/
lemma wp_dropOwner {r : Option Outcome} (hq : Γ.Quiet Δ) (hp : ∀ n, Δ.priv n = none)
    (hx : M.client.At live t Δ (landing t id op l f r) x) :
    M.client.rg.wp live t (dropOwner r (ownerAfter l r)) (InsertEnds live t Γ id op f) x := by
  cases r with
  | none =>
    exact RG.wp_ret ⟨Δ, hq, hp, hx.knows,
      landed_finished hx.client.1 (.inr (hx.client.2 rfl))⟩
  | some o =>
    refine RG.wp_seq (wp_drop ⟨hx.knows, hx.client.1⟩) ?_
    rintro - y - hy
    exact RG.wp_ret ⟨Δ, hq, hp, hy⟩

/-- The insert through an inserter. -/
theorem wp_insertThrough (I : Inserts M op l .replace f)
    (hh : ∀ l, Γ.held l = none) (hc : Γ.clear = none) (hp : ∀ n, Γ.priv n = none)
    (hlo : Γ.lo = 0) (hx : M.client.At live t Γ (inserting t id op l Γ.lo) x) :
    M.client.rg.wp live t (insertThrough l i) (InsertEnds live t Γ id op f) x := by
  have H := insertHooks t id Γ.lo I
  refine RG.wp_seq (wp_loadCache (cacheHooks t) hx) ?_
  rintro (c : InserterCache) y - ⟨hy, hf⟩
  refine RG.wp_seq (wp_tryFast H hh hc hlo hf hy) ?_
  rintro ⟨r, c'⟩ z - ⟨hf', Δ, hq, hpriv, hz⟩
  cases r with
  | some o =>
    obtain ⟨rfl, hz⟩ := hz
    refine RG.wp_seq (wp_storeCache (cacheHooks t) hf' hz) ?_
    rintro - u - hu
    exact RG.wp_ret ⟨Δ, hq, fun n => by rw [hpriv, hp], hu.knows,
      landed_finished hu.client.1 (.inl rfl)⟩
  | none =>
    refine RG.wp_seq (wp_storeCache (cacheHooks t) hf' hz) ?_
    rintro - u - hu
    have H' : M.client.InsertHooks t Δ.lo .plain l .replace 1 (inserting t id op l Γ.lo)
        (landing t id op l f) := by
      rw [hq.lo]
      exact H
    refine RG.wp_seq (wp_insertHinted (Γ := Δ) H' (fun l => by rw [hq.held, hh])
      (hq.clear.trans hc) (fun n => by rw [hpriv, hp]) hu) ?_
    rintro ⟨r, hint, owner⟩ v - ⟨ho, Δ', hq', hpriv', hv, -, hpoints⟩
    obtain rfl : owner = ownerAfter l r := ho
    have hleads : ∀ h, hint = some h → ∃ e, Leads v h e (l.key.take h.depth) := fun h hh => by
      obtain ⟨e, -, he⟩ := (hpoints h hh).leads hv
      exact ⟨e, he⟩
    rcases r with _ | (l' | old | old)
    · exact wp_dropOwner (hq.trans hq') hpriv' hv
    · refine RG.wp_seq (wp_storeCache (cacheHooks t) (fresh_remember hleads) hv) ?_
      rintro - u - hu
      exact wp_dropOwner (hq.trans hq') hpriv' hu
    · exact wp_dropOwner (hq.trans hq') hpriv' hv
    · exact wp_dropOwner (hq.trans hq') hpriv' hv

/-- **The insert of an arena map**, directly or through an inserter. -/
theorem wp_arenaInsert {cache : Option ℕ} (I : Inserts M op l .replace f)
    (hh : ∀ l, Γ.held l = none) (hc : Γ.clear = none) (hp : ∀ n, Γ.priv n = none)
    (hlo : Γ.lo = 0) (hx : M.client.At live t Γ (inserting t id op l Γ.lo) x) :
    M.client.rg.wp live t (arenaInsert l cache) (InsertEnds live t Γ id op f) x := by
  have H := insertHooks t id Γ.lo I
  refine RG.wp_seq (wp_allocValue hx) ?_
  rintro (_ | _) y - ⟨hy, hfull⟩
  · obtain ⟨h1, h2⟩ : landing t id op l f none (scene y) := H.can_fail _ hy.client (hfull rfl)
    exact RG.wp_ret ⟨Γ, .rfl, hp, hy.knows, landed_finished h1 (.inr (h2 rfl))⟩
  cases cache with
  | none =>
    refine RG.wp_seq (wp_insertHinted H hh hc hp hy) ?_
    rintro ⟨r, hint, owner⟩ z - ⟨ho, Δ, hq, hpriv, hz, -, -⟩
    obtain rfl : owner = ownerAfter l r := ho
    exact wp_dropOwner hq hpriv hz
  | some i => exact wp_insertThrough I hh hc hp hlo hy

end Arena

end Interface

end Artmap
