import Artmap.Ops.Clear
import Artmap.Ops.Get
import Artmap.Ops.Hint
import Artmap.Ops.Remove
import Artmap.Ops.Shrink
import Artmap.Shadow.Depict

/-!
# What the versioned maps call (`src/versioned/tree.rs`, `src/arena/versioned_tree.rs`)

The leaves of the versioned maps carry chains of versions, and a tree of such leaves is used in its
own way.  A new leaf counts for one entry or for none, as its first version is a value or a
tombstone; the length is adjusted from outside; a remove asks a callback, which may refuse; and a
clear asks one what each leaf has counted for.  In an arena, inserts run through inserters next to
clears.

Here these calls are made by any number of threads, in any order and with any arguments; what the
callbacks answer is an argument as well.  What becomes of the chains is the subject of
`Artmap.Versioned`: the tree does not look at them.
-/

namespace Artmap

namespace VersionedCalls

/-- The calls on the tree. -/
inductive Op where
  | get (key : Key)
  /-- `insert` and `insert_hinted` of a leaf that counts for `count`.  An inserter remembers where
  the leaf has landed. -/
  | insert (l : Leaf) (count : ℤ) (inserter : Option ℕ)
  /-- `try_fast` of an inserter. -/
  | tryFast (l : Leaf) (count : ℤ) (inserter : ℕ)
  /-- `remove_confirmed` of one leaf, where `confirm` answers `answer`. -/
  | remove (l : Leaf) (answer : Option ℤ)
  /-- `clear_counting`, where `count` answers for each leaf. -/
  | clear (count : Leaf → ℤ)
  | shrinkToFit
  | lenAdd (d : ℤ)
  /-- `alloc_value` of an arena. -/
  | allocValue
  /-- The owner of a leaf that was not published is dropped. -/
  | freeLeaf (l : Leaf)

/-- What they answer with. -/
inductive Ret where
  | entry (o : Option Leaf)
  /-- `none` is `S::Full`, or a fast path that is not taken. -/
  | outcome (o : Option Outcome)
  | room (b : Bool)
  | done
  deriving DecidableEq

/-- An inserter remembers where a leaf has landed. -/
def rememberAt (i : ℕ) (hint : Option Hint) (l : Leaf) : TreeM Unit := do
  let c ← onLeaf (.loadCache i)
  onLeaf (.storeCache i (c.remember hint l.key))

/-- The programs of the calls. -/
def code : Op → TreeM Ret
  | .get key => do
    let r ← Artmap.get key
    return .entry r
  | .insert l count inserter => do
    let (r, hint, _) ← insertHinted .versioned l .insertIfAbsent count
    match inserter, r with
    | some i, some (.inserted _) =>
      rememberAt i hint l
      return .outcome r
    | _, _ => return .outcome r
  | .tryFast l count i => do
    let c ← onLeaf (.loadCache i)
    let (r, c) ← Artmap.tryFast c l count
    onLeaf (.storeCache i c)
    return .outcome r
  | .remove l answer => do
    let r ← removeConfirmed .versioned l.key (fun c => decide (c = l)) (fun _ => return answer)
    return .entry r
  | .clear count => do
    clearCounting .versioned (fun l => return count l)
    return .done
  | .shrinkToFit => do
    Artmap.shrinkToFit
    return .done
  | .lenAdd d => do
    onLeaf (.lenAdd d)
    return .done
  | .allocValue => do
    let b ← onTree .allocValue
    return .room b
  | .freeLeaf l => do
    onLeaf (.freeLeaf l)
    return .done

/-- The versioned maps as a client of the tree: all that is kept is which calls are running, and
that the caches are right. -/
@[reducible] def client : Client where
  Op := Op
  Ret := Ret
  code := code
  start _ _ m m' := m' = m
  Ghost := ℕ → Option (ℕ × Op)
  Inv x := CacheInv x.leafs x.view
  Rely t x y := y.ghost t = x.ghost t
  refl _ _ := rfl
  trans h h' := h'.trans h
  tag g := g
  tag_rely h := h
  takes
    | .remove l _ => some l.key
    | _ => none
  clears
    | .clear _ => True
    | _ => False
  freeze_inv hv hi := hi.mono rfl hv.hinted
  freeze_rely _ := rfl
  Allowed _ _ _ := True

open Client

variable {live : Bool} {t id lo : ℕ} {op : Op} {w : client.W} {l : Leaf} {Γ Δ : Know}

/-- Thread `t` runs a call. -/
def calling (t id : ℕ) (op : Op) : client.Assertion t where
  holds x := x.ghost t = some (id, op)
  stable hr hx := hr.trans hx

/-- The client has nothing to do but to keep the caches right. -/
lemma upd {x : client.Sc} {m : LeafMem} {v : View} (hx : calling t id op x) (hi : CacheInv m v) :
    Upd t x m v (calling t id op) :=
  ⟨x.ghost, hi, fun _ _ => rfl, rfl, hx⟩

/-- Steps that leave the caches alone. -/
lemma leafStep {a : LeafAct} (ha : ∀ m, (execLeaf t a m).2.caches = m.caches) :
    client.LeafStep t a (calling t id op) (calling t id op) := fun x hi hx =>
  ⟨trivial, upd hx (CacheInv.mono (u := x.view) hi (ha x.leafs) fun _ _ _ _ h => h)⟩

lemma canSet {key : Key} {old new : Option Leaf} :
    client.CanSet t lo key old new (calling t id op) (calling t id op) :=
  fun _ _ hi hx _ _ _ _ => upd hx hi

lemma cacheHooks : CacheHooks client t where
  inv _ hi := hi
  can_load _ P x hi hx := ⟨trivial, .rfl hi hx⟩
  can_store i c x P hi hx hc := by
    have hrel : client.Rely t x
        ⟨(execLeaf t (.storeCache i c) x.leafs).2, x.hist, x.view, x.ghost⟩ := rfl
    refine ⟨trivial, x.ghost, fun j => ?_, fun _ _ => rfl, rfl, P.stable hrel hx⟩
    by_cases hj : j = i
    · subst hj
      simpa only [execLeaf, Function.update_self] using hc
    · simpa only [execLeaf, Function.update_of_ne hj] using hi j

/-- The steps of an insert. -/
def insertHooks (t id lo : ℕ) (op : Op) (l : Leaf) (count : ℤ) :
    InsertHooks (C := client) t lo .versioned l .insertIfAbsent count (calling t id op)
      (fun _ => calling t id op) where
  pend := calling t id op
  swap _ := calling t id op
  mark _ := calling t id op
  can_count := leafStep fun _ => rfl
  can_put := canSet
  can_swap _ hmode := by cases hmode
  can_mark _ hmode := by cases hmode
  can_retire _ hmode := by cases hmode
  can_find _ _ _ _ hi hx _ _ _ := .rfl hi hx
  can_fail _ hx _ := hx

/-- The steps of a remove. -/
def removeHooks (t id lo : ℕ) (l : Leaf) (answer : Option ℤ) :
    RemoveHooks (C := client) live t lo .versioned l.key (fun c => decide (c = l))
      (fun _ => return answer) (calling t id (.remove l answer))
      (fun _ => calling t id (.remove l answer)) where
  taken _ _ := calling t id (.remove l answer)
  gone _ _ := calling t id (.remove l answer)
  marked _ _ := calling t id (.remove l answer)
  counted _ := calling t id (.remove l answer)
  accepts_key h := by rw [of_decide_eq_true h]
  confirms _ hx := RG.wp_ret ⟨fun _ => hx, fun _ _ => hx⟩
  can_take _ := canSet
  can_mark _ _ := fun _ h => h
  can_count _ _ := leafStep fun _ => rfl
  can_retire _ := leafStep fun _ => rfl
  can_miss _ _ hi hx _ _ _ := .rfl hi hx
  taking hx := ⟨id, _, hx, rfl⟩

/-- The steps of a clear. -/
def clearHooks (t id : ℕ) (count : Leaf → ℤ) :
    ClearHooks (C := client) live t .versioned (fun l => return count l)
      (calling t id (.clear count)) (calling t id (.clear count)) where
  walk _ _ _ _ := calling t id (.clear count)
  counted _ _ _ _ _ _ := calling t id (.clear count)
  can_detach _ hi hx _ := upd hx hi
  can_skip _ _ hi hx _ _ hv _ := upd hx (CacheInv.mono hi rfl hv.hinted)
  can_count hx _ _ _ := RG.wp_ret ⟨hx, .refl _⟩
  can_mark _ _ _ _ _ _ := fun _ h => h
  can_retire _ _ _ _ _ := leafStep fun _ => rfl
  can_finish _ _ _ _ _ hi hx _ hv _ := ⟨trivial, upd hx (CacheInv.mono hi rfl hv.hinted)⟩
  clearing hx := ⟨id, _, hx, trivial⟩

/-! ## The calls -/

/-- A call at its start. -/
structure Starts (t id : ℕ) (op : Op) (w : client.W) : Prop where
  calling : calling t id op (scene w)
  clean : (shadow w).Clean t

/-- What thread `t` knows at the start of a call. -/
def known (w : client.W) : Know :=
  { Know.start (tree w) (shadow w) with lo := 0 }

lemma Starts.at (h : Starts t id op w) :
    client.At live t (known w) (VersionedCalls.calling t id op) w :=
  ⟨{ Shadow.Knows.start h.clean with lo := Nat.zero_le _ }, h.calling⟩

lemma clean_of_idle (hΔ : (known w).Idle Δ) {y : client.W}
    (hy : client.At live t Δ (calling t id op) y) : (shadow y).Clean t := by
  refine hy.knows.clean (fun l => ?_) (fun n => ?_) hΔ.follow hΔ.clear fun n => ?_
  · rw [hΔ.held]
    rfl
  · rw [hΔ.priv]
    rfl
  · rw [hΔ.due]
    exact fun hn => hn

lemma clean_of_quiet (hΔ : (known w).Quiet Δ) (hp : ∀ n, Δ.priv n = none) {y : client.W}
    (hy : client.At live t Δ (calling t id op) y) : (shadow y).Clean t := by
  refine hy.knows.clean (fun l => ?_) hp hΔ.follow hΔ.clear fun n => ?_
  · rw [hΔ.held]
    rfl
  · rw [hΔ.due]
    exact fun hn => hn

/-- An inserter remembers. -/
lemma wp_rememberAt {i : ℕ} {hint : Option Hint}
    (hp : ∀ h, hint = some h → Points Γ h l.key) (hx : client.At live t Γ (calling t id op) w) :
    client.rg.wp live t (rememberAt i hint l) (fun _ y =>
      client.At live t Γ (calling t id op) y) w := by
  refine RG.wp_seq (wp_loadCache cacheHooks hx) ?_
  rintro (c : InserterCache) y - ⟨hy, -⟩
  refine wp_storeCache cacheHooks (fresh_remember fun h hh => ?_) hy
  obtain ⟨e, -, he⟩ := (hp h hh).leads hy
  exact ⟨e, he⟩

/-- **The calls of the versioned maps** run safely and leave nothing behind. -/
theorem code_ok (h : Starts t id op w) :
    client.rg.wp live t (code op) (fun _ y => (shadow y).Clean t) w := by
  have hx : client.At live t (known w) (calling t id op) w := h.at
  cases op with
  | get key =>
    refine RG.wp_seq (wp_get (P := calling t id (.get key)) (Q := fun _ => calling t id (.get key))
      (fun x e hi hx _ _ => .rfl hi hx) (fun _ => rfl) rfl hx) ?_
    rintro a y - ⟨Δ, hΔ, hy⟩
    exact RG.wp_ret (clean_of_idle hΔ.idle hy)
  | insert l count inserter =>
    refine RG.wp_seq (wp_insertHinted (insertHooks t id _ _ l count) (fun _ => rfl) rfl
      (fun _ => rfl) hx) ?_
    rintro ⟨r, hint, owner⟩ y - ⟨-, Δ, hq, hp, hy, -, hpoints⟩
    cases inserter with
    | none => exact RG.wp_ret (clean_of_quiet hq hp hy)
    | some i =>
      rcases r with _ | (l' | old | old)
      · exact RG.wp_ret (clean_of_quiet hq hp hy)
      · refine RG.wp_seq (wp_rememberAt hpoints hy) ?_
        rintro - z - hz
        exact RG.wp_ret (clean_of_quiet hq hp hz)
      · exact RG.wp_ret (clean_of_quiet hq hp hy)
      · exact RG.wp_ret (clean_of_quiet hq hp hy)
  | tryFast l count i =>
    refine RG.wp_seq (wp_loadCache cacheHooks hx) ?_
    rintro (c : InserterCache) y - ⟨hy, hf⟩
    refine RG.wp_seq (wp_tryFast (insertHooks t id _ _ l count) (fun _ => rfl) rfl rfl hf hy) ?_
    rintro ⟨r, c'⟩ z - ⟨hf', Δ, hq, hpriv, hz⟩
    have hz' : client.At live t Δ (calling t id (.tryFast l count i)) z := by
      cases r with
      | none => exact hz
      | some o => exact hz.2
    refine RG.wp_seq (wp_storeCache cacheHooks hf' hz') ?_
    rintro - u - hu
    exact RG.wp_ret (clean_of_quiet hq (fun n => by rw [hpriv]; rfl) hu)
  | remove l answer =>
    refine RG.wp_seq (wp_removeConfirmed (removeHooks t id _ l answer) (fun _ => rfl) rfl rfl hx) ?_
    rintro a y - ⟨Δ, hΔ, hy⟩
    exact RG.wp_ret (clean_of_idle hΔ hy)
  | clear count =>
    refine RG.wp_seq (wp_clearCounting (clearHooks t id count) hx (fun _ => rfl) rfl) ?_
    rintro - y - ⟨Δ, hΔ, hy⟩
    exact RG.wp_ret (clean_of_idle hΔ hy)
  | shrinkToFit =>
    refine RG.wp_seq (wp_shrinkToFit (R := calling t id .shrinkToFit) (fun x hi hx => .rfl hi hx)
      (fun _ => rfl) rfl (fun _ => rfl) hx) ?_
    rintro - y - ⟨Δ, hΔ, hy⟩
    exact RG.wp_ret (clean_of_idle hΔ hy)
  | lenAdd d =>
    refine RG.wp_seq (wp_leafStep (leafStep fun _ => rfl) hx) ?_
    rintro - y - hy
    exact RG.wp_ret (clean_of_idle .rfl hy)
  | allocValue =>
    refine RG.wp_seq (wp_allocValue hx) ?_
    rintro b y - ⟨hy, -⟩
    exact RG.wp_ret (clean_of_idle .rfl hy)
  | freeLeaf l =>
    refine RG.wp_seq (wp_leafStep (leafStep fun _ => rfl) hx) ?_
    rintro - y - hy
    exact RG.wp_ret (clean_of_idle .rfl hy)

/-- The calls are verified. -/
def verified : RG.Verified client.rg where
  Pre := Starts
  Post t _ _ _ y := (shadow y).Clean t
  pre_stable hr h := ⟨(calling _ _ _).stable hr.2 h.calling, hr.1.clean h.clean⟩
  code_ok h := code_ok h
  invoke_ok := by
    intro t op m w hi htag hstart
    have hclean := hi.idle t htag
    have hcaches : CacheInv (Mem.leafs m) (scene w).view := by
      rw [show Mem.leafs m = Mem.leafs w.mem from hstart.2]
      exact hi.client
    obtain ⟨hinv, hrel, hown⟩ := WInv.move (h := w.hist ++ [.inv w.hist.length op])
      (g := Function.update w.ghost.2 t (some (w.hist.length, op))) hi hstart.1 hclean hcaches
      fun t' ht' => Function.update_of_ne ht' _ _
    exact ⟨_, hinv, ⟨Function.update_self _ _ _, hclean⟩, Function.update_self _ _ _, hrel, hown⟩
  respond_ok := by
    intro t id op r w hi htag hclean
    obtain ⟨hinv, hrel, hown⟩ := WInv.move (m := w.mem) (h := w.hist ++ [.res id r])
      (g := Function.update w.ghost.2 t none) hi rfl hclean hi.client
      fun t' ht' => Function.update_of_ne ht' _ _
    exact ⟨_, hinv, Function.update_self _ _ _, hrel, hown⟩

/-! ## Runs -/

/-- The memory of an empty map, where the attempts `full` to allocate a node fail. -/
def start (full : ℕ → Bool) : Mem :=
  ⟨{ TreeMem.empty with full := full }, LeafMem.empty⟩

/-- The configurations of the interleaved runs of the calls. -/
abbrev Reachable (full : ℕ → Bool) (c : client.object.Config) : Prop :=
  Object.Reachable (O := client.object) (start full) c

lemma start_inv (full : ℕ → Bool) :
    client.WInv ⟨start full, [], (Shadow.empty, fun _ => none)⟩ where
  tree := Shadow.empty_inv full
  client := fun _ _ hh => by simp [scene, start, LeafMem.empty, InserterCache.new] at hh
  idle t _ := Shadow.empty_clean t
  taking _ _ _ hf := by simp [shadow, Shadow.empty] at hf
  clearing _ _ hf := by simp [shadow, Shadow.empty] at hf

/-- **In every run** of the calls, no check has failed, and every node in the tree whose latch is
free is well formed. -/
theorem checked {full : ℕ → Bool} {c : client.object.Config} (hc : Reachable full c) :
    c.mem.tree.panicked = false ∧ ∃ F e, Depicts c.mem.tree F e := by
  obtain ⟨g, hk⟩ := RG.kept_of_reachable verified (start_inv full) (fun _ => rfl) hc 0
  have hi : (shadow (RG.worldOf c g)).Inv c.mem.tree := hk.1.1.tree
  exact ⟨hi.sane, _, _, hi.depicts⟩

end VersionedCalls

end Artmap
