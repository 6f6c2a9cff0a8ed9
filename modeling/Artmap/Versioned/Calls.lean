import Artmap.Versioned.Pruning

/-!
# The operations on version chains

Every operation of a versioned map ends with its call placed: a writer has placed it where it took
effect, and one that only looked, or found nothing to do, can be placed in a state that it has
seen since its invocation (`Done`).
-/

namespace Artmap

namespace Versioned

variable {V : Type} {live : Bool} {t l p v lo : ℕ} {x y : W V} {H : Hand V} {S : Scene V}
  {r : Ret V} {op : Op V} {b : Option V} {P : ChainState V → Prop} {found : Option ℕ}

/-- In some state from `lo` on, the operation may answer `r` and change nothing. -/
def Saw (lo : ℕ) (op : Op V) (r : Ret V) (x : W V) : Prop :=
  ∃ i, lo ≤ i ∧ i ≤ x.ghost.time.now ∧ Step (seen (x.ghost.past i)) op r (seen (x.ghost.past i))

/-- The call has been placed with the answer `r`, or can be. -/
def Done (t : ℕ) (H : Hand V) (r : Ret V) (x : W V) : Prop :=
  Holds t { H with placed := some r } x ∧ r.Final ∨ Holds t H x ∧ Saw H.since H.op r x

/-- In some state from `lo` on, leaf `l` had not been published. -/
def Unborn (lo l : ℕ) (x : W V) : Prop :=
  ∃ i, lo ≤ i ∧ i ≤ x.ghost.time.now ∧ x.ghost.past i l = none

lemma Unborn.later (hy : Later x y) (h : Unborn lo l x) : Unborn lo l y := by
  obtain ⟨i, hlo, hi, hn⟩ := h
  exact ⟨i, hlo, hi.trans hy.now, by rw [hy.past i hi]; exact hn⟩

section Done

/-- An answer that is right at present. -/
lemma Done.now (hok : (rg V).Ok live t x) (hx : Holds t H x)
    (h : Step (seen x.ghost.now) H.op r (seen x.ghost.now)) : Done t H r x :=
  .inr ⟨hx, _, hx.since_le hok.inv, le_rfl, h⟩

/-- An answer that is right in every state. -/
lemma Done.always (hok : (rg V).Ok live t x) (hx : Holds t H x) (h : ∀ s, Step s H.op r s) :
    Done t H r x :=
  Done.now hok hx (h _)

lemma Saw.seen (hs : Seen lo l P x)
    (h : ∀ (s : MapState V) c, P c → s l = some ⟨versionsOf c.cells, c.dead⟩ → Step s op r s) :
    Saw lo op r x := by
  obtain ⟨i, hlo, hi, c, hc, hP⟩ := hs
  exact ⟨i, hlo, hi, h _ c hP (seen_of_past hc)⟩

lemma Done.seen (hx : Holds t H x) (hs : Seen H.since l P x)
    (h : ∀ (s : MapState V) c, P c → s l = some ⟨versionsOf c.cells, c.dead⟩ →
      Step s H.op r s) : Done t H r x :=
  .inr ⟨hx, .seen hs h⟩

lemma Done.dead (hok : (rg V).Ok live t x) (hx : Holds t H x) (hd : Dead l x)
    (h : ∀ (s : MapState V) M, s l = some ⟨M, true⟩ → Step s H.op r s) : Done t H r x := by
  obtain ⟨cells, hc⟩ := hd
  refine Done.seen (P := fun c => c.dead = true) hx
    ⟨_, hx.since_le hok.inv, le_rfl, _, hc, rfl⟩ fun s c hdead hs => ?_
  rw [hdead] at hs
  exact h s _ hs

end Done

/-! ## Looking for a leaf -/

lemma wp_find (hx : Holds t H x) {Q : Bool → W V → Prop}
    (htrue : ∀ y, Rely t x y → (rg V).Ok live t y → Published l y → Q true y)
    (hfalse : ∀ y, Rely t x y → (rg V).Ok live t y → Unborn H.since l y → x.ghost.now l = none →
      (∀ r, Step (seen x.ghost.now) H.op r (seen x.ghost.now) → Done t H r y) → Q false y) :
    (rg V).wp live t (on (.find l)) Q x := by
  refine RG.wp_intro fun hok => wp_read (fun _ => rfl) trivial fun y hy hoky => ?_
  have hpub := hok.inv.leafs.published l
  show Q (x.mem.published l) y
  cases hb : x.mem.published l with
  | true =>
    rw [hb] at hpub
    exact htrue y hy.1 hoky (Published.later hy.1.later hpub.symm)
  | false =>
    rw [hb] at hpub
    have hn : x.ghost.now l = none := Option.isNone_iff_eq_none.mp (by simpa using hpub.symm)
    have hlo := hx.since_le hok.inv
    have hpast := hy.1.later.past _ le_rfl
    refine hfalse y hy.1 hoky ⟨_, hlo, hy.1.later.now, by rw [hpast]; exact hn⟩ hn fun r hr => ?_
    refine .inr ⟨hx.rely hy.1, _, hlo, hy.1.later.now, ?_⟩
    rw [hpast]
    exact hr

/-- The answer of the tree to a lookup. -/
lemma wp_lookup (found : Option ℕ) (hx : Holds t H x) {Q : Option ℕ → W V → Prop}
    (hsome : ∀ y l, found = some l → Rely t x y → (rg V).Ok live t y → Published l y →
      Q (some l) y)
    (hnone : ∀ y, Rely t x y → (rg V).Ok live t y →
      (∀ l, found = some l → Unborn H.since l y) → Q none y) :
    (rg V).wp live t (lookup found) Q x := by
  cases hf : found with
  | none =>
    exact RG.wp_intro fun hok => RG.wp_ret (hnone x (Rely.refl t x) hok (by simp [hf]))
  | some l =>
    refine RG.wp_bind (wp_find hx (fun y hy hoky hp => ?_) fun y hy hoky hu _ _ => ?_)
    · exact RG.wp_ret (hsome y l hf hy hoky hp)
    · refine RG.wp_ret (hnone y hy hoky fun l' hl' => ?_)
      rw [hf] at hl'
      rwa [← Option.some.inj hl']

/-- A lookup that finds nothing. -/
lemma Saw.unfound (hok : (rg V).Ok live t x) (hx : Holds t H x)
    (hs : ∀ l, found = some l → Unborn H.since l x)
    (h : ∀ s : MapState V, Unfound s found → Step s H.op r s) : Saw H.since H.op r x := by
  cases hf : found with
  | none => exact ⟨_, hx.since_le hok.inv, le_rfl, h _ (by simp [Unfound, hf])⟩
  | some l =>
    obtain ⟨i, hlo, hi, hn⟩ := hs l hf
    refine ⟨i, hlo, hi, h _ fun l' hl' => ?_⟩
    rw [hf] at hl'
    obtain rfl := Option.some.inj hl'
    simp [Versioned.seen, hn]

lemma Done.unfound (hok : (rg V).Ok live t x) (hx : Holds t H x)
    (hs : ∀ l, found = some l → Unborn H.since l x)
    (h : ∀ s : MapState V, Unfound s found → Step s H.op r s) : Done t H r x :=
  .inr ⟨hx, .unfound hok hx hs h⟩

/-- The lookups `finds` that an operation has been sent round with, up to `finds'`, are to no
avail. -/
def Spent (finds finds' : List (Option ℕ)) (x : W V) : Prop :=
  ∀ y, Later x y → Exhausted (seen y.ghost.now) finds' → Exhausted (seen y.ghost.now) finds

lemma Spent.refl (finds : List (Option ℕ)) (x : W V) : Spent finds finds x :=
  fun _ _ h => h

lemma Spent.later {finds finds' : List (Option ℕ)} (hy : Later x y) (h : Spent finds finds' x) :
    Spent finds finds' y :=
  fun z hz => h z (hy.trans hz)

/-- The next lookup has found a leaf that has died. -/
lemma Spent.dead {finds finds' : List (Option ℕ)} (h : Spent finds (some l :: finds') x)
    (hd : Dead l x) : Spent finds finds' x := fun y hy hf => by
  obtain ⟨cells, hc⟩ := hd.later hy
  exact h y hy (.dead (M := versionsOf cells) (seen_of_past hc) hf)

/-- The last lookup has been made. -/
lemma Spent.all {finds : List (Option ℕ)} (h : Spent finds [] x) :
    Exhausted (seen x.ghost.now) finds :=
  h x (Later.refl x) .nil

/-- The next lookup has found a leaf that was not published. -/
lemma Spent.unfound {finds finds' : List (Option ℕ)} (h : Spent finds (some l :: finds') x)
    (hn : x.ghost.now l = none) : Exhausted (seen x.ghost.now) finds :=
  h x (Later.refl x) (.unfound (by simp [seen, hn]))

/-! ## Inserting -/

section Insert

variable {finds : List (Option ℕ)} {meets meets' : List ℕ} {ans : ℤ → Ret V}

/-- What inserting version `v` does, as the specification has it. -/
structure Inserts (op : Op V) (finds : List (Option ℕ)) (meets : List ℕ) (v : ℕ) (b : Option V)
    (ans : ℤ → Ret V) : Prop where
  put : ∀ (s : MapState V) l M, some l ∈ finds ∨ l ∈ meets → s l = some ⟨M, false⟩ →
    Step s op (ans ((M.put v b).live - M.live)) (Function.update s l (some ⟨M.put v b, false⟩))
  fresh : ∀ (s : MapState V) l, none ∈ finds → s l = none →
    Step s op (ans (liveCount b.isNone))
      (Function.update s l (some ⟨Versions.put (fun _ => none) v b, false⟩))
  unfinished : ∀ s, Exhausted s finds → Step s op .unfinished s
  final : ∀ k, (ans k).Final

lemma versionsOf_single : versionsOf [(⟨p, v, b⟩ : Cell V)] =
    Versions.put (fun _ => none) v b := by
  have hnil : Desc ([] ++ [] ++ [] : List (Cell V)) := List.Pairwise.nil
  exact versionsOf_put (d := ⟨p, v, b⟩) hnil (by simp) (by simp) (by simp)

lemma wp_insertLeaf (hx : Holds t { H with nodes := [p], draft := some l } x) (hH : H.Clean)
    (hd : Drafted t l v b x.mem x.ghost) (hc : x.ghost.counted l = 0)
    (hop : Inserts H.op finds meets v b ans) (hnew : none ∈ finds)
    (hm : ∀ e ∈ meets', e ∈ meets) :
    (rg V).wp live t (insertLeaf l (liveCount b.isNone) meets')
      (fun k y => Done t H (ans k) y) x := by
  induction meets' generalizing x with
  | nil =>
    refine RG.wp_bind (wp_lenAdd_draft hx hd hc _ (liveCount_cases _)
      fun y hy hoky hxy hdy hcy => ?_)
    have hp : (y.mem.leaf l).slot0 = p := by simpa using (hxy.thread _).mp hdy.owner
    refine RG.wp_bind (wp_publish (r := ans (liveCount b.isNone)) hxy hH.placed hH.lock rfl rfl
      hdy hp hcy (fun s hs => ?_) fun z hz hokz hxz => RG.wp_ret (.inl ⟨?_, hop.final _⟩))
    · rw [versionsOf_single]
      exact hop.fresh s l hnew hs
    · rw [hH.nodes, hH.draft]
      exact hxz
  | cons e meets' ih =>
    have hm' : ∀ e ∈ meets', e ∈ meets := fun e he => hm e (List.mem_cons_of_mem _ he)
    -- The tree sends the insertion to the next leaf.
    have hagain : ∀ y, Rely t x y → (rg V).wp live t (insertLeaf l (liveCount b.isNone) meets')
        (fun k y => Done t H (ans k) y) y := fun y hy =>
      ih (hx.rely hy) (hd.rely hy) (((hy.draftLeaf l hd.draft).2).trans hc) hm'
    refine RG.wp_bind (wp_find hx (fun y hy hoky hpub => ?_) fun y hy hoky _ _ _ => hagain y hy)
    have hxy := hx.rely hy
    have hdy := hd.rely hy
    have hcy : y.ghost.counted l = 0 := ((hy.draftLeaf l hd.draft).2).trans hc
    refine RG.wp_bind (wp_lock hxy hH.lock hpub (fun z hz hokz _ => hagain z (hy.trans hz))
      fun z S hz hokz hxz hlz hS hdraft => ?_)
    obtain ⟨hdz, hcz⟩ := hdraft l v b hdy
    have hp : (z.mem.leaf l).slot0 = p := by simpa using (hxz.thread _).mp hdz.owner
    refine RG.wp_bind (wp_takeFirst hxz rfl rfl hdz hp (hcz.trans hcy) hlz
      fun u hu hoku hxu hlu => ?_)
    refine wp_applyLocked ans hxu hH.placed rfl rfl hH.bag hlu hS v b
      (fun s M hs => hop.put s e M (.inr (hm e List.mem_cons_self)) hs)
      fun w k hw hokw hxw => .inl ⟨?_, hop.final k⟩
    rw [hH.lock, hH.nodes, hH.draft]
    exact hxw

lemma wp_insert {finds' : List (Option ℕ)} (hx : Holds t H x) (hH : H.Clean)
    (hop : Inserts H.op finds meets v b ans) (hf : ∀ f ∈ finds', f ∈ finds)
    (hs : Spent finds finds' x) :
    (rg V).wp live t (insert meets v b finds')
      (fun k y => Done t H (k.elim .unfinished ans) y) x := by
  induction finds' generalizing x with
  | nil =>
    exact RG.wp_intro fun hok => RG.wp_ret (Done.now hok hx (hop.unfinished _ hs.all))
  | cons f finds' ih =>
    have hf' : ∀ f ∈ finds', f ∈ finds := fun e he => hf e (List.mem_cons_of_mem _ he)
    cases f with
    | none =>
      refine RG.wp_bind (wp_newLeaf hx hH.nodes hH.draft v b fun y l p hy hoky hxy hdy hp hcy => ?_)
      exact RG.wp_bind (RG.wp_mono (wp_insertLeaf hxy hH hdy hcy hop (hf _ List.mem_cons_self)
        fun e he => he) fun k z hokz hz => RG.wp_ret hz)
    | some l =>
      refine RG.wp_bind (wp_find hx (fun y hy hoky hpub => ?_) fun y hy hoky _ hn hdone =>
        RG.wp_ret (hdone _ (hop.unfinished _ (hs.unfound hn))))
      refine RG.wp_bind (wp_lock (hx.rely hy) hH.lock hpub
        (fun z hz hokz hd => ih ((hx.rely hy).rely hz) hf'
          ((hs.later (hy.trans hz).later).dead hd)) fun z S hz hokz hxz hlz hS _ => ?_)
      refine RG.wp_bind (wp_applyLocked ans hxz hH.placed rfl hH.nodes hH.bag hlz hS v b
        (fun s M hs => hop.put s l M (.inl (hf _ List.mem_cons_self)) hs)
        fun w k hw hokw hxw => RG.wp_ret (.inl ⟨?_, hop.final k⟩))
      rw [hH.lock]
      exact hxw

lemma inserts_insert : Inserts (.insert finds meets v b) finds meets v b .delta where
  put _ _ _ hl hs := .insert hl hs
  fresh s l hn hs := by
    have hlive : (versionsOf [(⟨0, v, b⟩ : Cell V)]).live = liveCount b.isNone :=
      live_versionsOf (List.pairwise_singleton _ _)
    rw [versionsOf_single] at hlive
    rw [← hlive]
    exact .insertNew hn hs
  unfinished _ := .insertUnfinished
  final _ := trivial

/-- A key that counts for less than before is not live any more. -/
lemma live_sub_neg {M M' : Versions V} : M'.live - M.live < 0 ↔ M.Live ∧ ¬ M'.Live := by
  unfold Versions.live
  split_ifs with h' h h
  all_goals simp [h, h']

lemma inserts_delete : Inserts (.delete (V := V) finds meets v) finds meets v none
    (fun d => .removed (decide (d < 0))) where
  put _ _ _ hl hs := .delete hl hs (by rw [decide_eq_true_iff, live_sub_neg])
  fresh _ _ hn hs := .deleteNew hn hs
  unfinished _ := .deleteUnfinished
  final _ := trivial

end Insert

/-! ## Removing -/

section Remove

variable {finds : List (Option ℕ)}

/-- What `remove_head` has done when it answers. -/
def HeadRemoved (t : ℕ) (H : Hand V) : Option (Option (ℕ × ℕ)) → W V → Prop
  | none, y => Done t H .unfinished y
  | some none, y => Done t H (.entry none) y
  | some (some (l, p)), y => ∃ d : Cell V, d.addr = p ∧
      Holds t { H with placed := some (.entry (d.ref l)) } y ∧
      Seen H.since l (fun c => d ∈ c.cells) y

lemma wp_removeHead {finds' : List (Option ℕ)} (hx : Holds t H x) (hH : H.Clean)
    (hop : H.op = .remove finds) (hf : ∀ f ∈ finds', f ∈ finds) (hs : Spent finds finds' x) :
    (rg V).wp live t (removeHead finds') (HeadRemoved t H) x := by
  induction finds' generalizing x with
  | nil =>
    exact RG.wp_intro fun hok => RG.wp_ret (Done.now hok hx (hop ▸ .removeUnfinished hs.all))
  | cons f finds' ih =>
    have hf' : ∀ f ∈ finds', f ∈ finds := fun e he => hf e (List.mem_cons_of_mem _ he)
    cases f with
    | none =>
      exact RG.wp_intro fun hok => RG.wp_ret
        (Done.always hok hx fun s => hop ▸ .removeAbsent (hf _ List.mem_cons_self))
    | some l =>
      have hl := hf _ List.mem_cons_self
      refine RG.wp_bind (wp_find hx (fun y hy hoky hpub => ?_) fun y hy hoky _ hn hdone =>
        RG.wp_ret (hdone _ (hop ▸ .removeUnfinished (hs.unfound hn))))
      refine RG.wp_bind (wp_lock (hx.rely hy) hH.lock hpub
        (fun z hz hokz hd => ih ((hx.rely hy).rely hz) hf'
          ((hs.later (hy.trans hz).later).dead hd)) fun z S hz hokz hxz hlz hS _ => ?_)
      obtain ⟨d, post, hc⟩ := List.exists_cons_of_ne_nil hS.nonempty
      have hdesc : Desc (d :: post) := hc ▸ hS.desc
      have hd : versionsOf S.cells d.version = some d.value :=
        versionsOf_of_mem hS.desc (by simp [hc])
      have hn : (versionsOf S.cells).Newest d.version := by
        rw [hc]
        exact newest_versionsOf hdesc
      refine RG.wp_bind (wp_head_locked hlz fun u hu hoku => ?_)
      rw [hc, firstAddr_cons]
      refine RG.wp_bind (wp_tombstone_locked (hxz.rely hu) (hlz.rely hu) (d := d) (by simp [hc])
        fun w hw hokw => ?_)
      have hxw := (hxz.rely hu).rely hw
      have hlw := (hlz.rely hu).rely hw
      cases hv : d.value with
      | none =>
        refine RG.wp_bind (wp_unlock hxw rfl hH.nodes hlw hS.counted hS.loose
          fun q hq hokq hxq => RG.wp_ret ?_)
        have hlo := hxw.since_le hokw.inv
        rw [← hH.lock] at hxq
        refine Done.seen hxq (Seen.later hq (hlw.seen hlo)) fun s c hcs hs => ?_
        subst hcs
        rw [hop]
        refine .removeDeleted hl hs ?_
        rintro ⟨v, a, hv', ha⟩
        rw [hv'.unique hn, hd, hv] at ha
        simp at ha
      | some a =>
        have hstep : ∀ s : MapState V, s l = some ⟨versionsOf S.cells, false⟩ →
            Step s H.op (.entry (d.ref l)) (Function.update s l
              (some ⟨(versionsOf S.cells).put d.version none, false⟩)) := by
          intro s hs
          rw [hop, Cell.ref, hv]
          exact .remove hl hs rfl hn (by rw [hd, hv])
        refine RG.wp_bind (wp_replaceHead hxw hH.placed rfl hH.nodes hH.bag hlw hS hc hv hstep
          fun q hq hokq hxq => RG.wp_ret ⟨d, rfl, ?_, ?_⟩)
        · rw [hH.lock]
          exact hxq
        · exact (hlw.seen_mem hokw.inv hxw (by simp [hc])).later hq

lemma wp_remove (hx : Holds t H x) (hH : H.Clean) (hop : H.op = .remove finds) :
    (rg V).wp live t (remove finds) (fun e y => Done t H (e.elim .unfinished .entry) y) x := by
  refine RG.wp_bind (RG.wp_mono (wp_removeHead hx hH hop (fun f hf => hf) (.refl finds x)) ?_)
  rintro (_ | _ | ⟨l, p⟩) y hok hy
  · exact RG.wp_ret hy
  · exact RG.wp_ret hy
  · obtain ⟨d, rfl, hxy, hs⟩ := hy
    exact RG.wp_bind (wp_entryRef hxy hs l fun z hz hokz =>
      RG.wp_ret (.inl ⟨hxy.rely hz, trivial⟩))

end Remove

/-! ## Removing keys and versions -/

section RemoveKey

variable {finds finds' : List (Option ℕ × Bool)}

lemma wp_removeKey (hx : Holds t H x) (hH : H.Clean) (hop : H.op = .removeKey finds)
    (hf : ∀ f ∈ finds', f ∈ finds) (hs : Spent (finds.map Prod.fst) (finds'.map Prod.fst) x) :
    (rg V).wp live t (removeKey finds')
      (fun k y => Done t H (k.elim .unfinished .removed) y) x := by
  induction finds' generalizing x with
  | nil =>
    exact RG.wp_intro fun hok =>
      RG.wp_ret (Done.now hok hx (hop ▸ .removeKeyUnfinished hs.all))
  | cons f finds' ih =>
    have hf' : ∀ f ∈ finds', f ∈ finds := fun e he => hf e (List.mem_cons_of_mem _ he)
    obtain ⟨_ | l, reached⟩ := f
    · exact RG.wp_intro fun hok => RG.wp_ret
        (Done.always hok hx fun s => hop ▸ .removeKeyAbsent (.inl ⟨_, hf _ List.mem_cons_self⟩))
    · have hl := hf _ List.mem_cons_self
      refine RG.wp_bind (wp_find hx (fun y hy hoky hpub => ?_) fun y hy hoky _ hn hdone =>
        RG.wp_ret (hdone _ (hop ▸ .removeKeyUnfinished (hs.unfound hn))))
      -- The check accepts every chain, so that only a leaf that is dead is refused.
      refine RG.wp_bind (wp_unlinkLeaf (fun _ => True) (fun _ => False) (fun _ => .removed true)
        (hx.rely hy) hH.placed hH.lock hH.nodes hH.owed hpub (fun z S _ _ _ _ R hR => ?_)
        (fun s cs _ _ hs => ?_) (fun z n hz hokz hxz => RG.wp_ret (.inl ⟨hxz, trivial⟩))
        (fun z hz hokz hxz hd => ih hxz hf' ?_) fun z hr hz hokz hxz => RG.wp_ret ?_)
      · exact RG.wp_intro fun hok =>
          RG.wp_ret (hR z true (Rely.refl t z) hok (fun _ => trivial) (by simp))
      · rw [hop]
        exact .removeKey hl hs
      · refine (hs.later (hy.later.trans hz)).dead (hd.resolve_right ?_)
        rintro ⟨_, _, _, _, _, -, hno⟩
        exact hno
      · subst hr
        exact Done.always hokz hxz fun s => hop ▸ .removeKeyAbsent (.inr ⟨l, hl⟩)

lemma Lone.only {cs : List (Cell V)} (h : Lone v cs) (w : ℕ) :
    (versionsOf cs w).isSome ↔ w = v := by
  obtain ⟨d, rfl, rfl⟩ := h
  rw [versionsOf_isSome (List.pairwise_singleton _ _)]
  simp [eq_comm]

lemma not_lone_of_version {d : Cell V} {post : List (Cell V)} (h : d.version ≠ v) :
    ¬ Lone v (d :: post) := by
  rintro ⟨e, he, hv⟩
  obtain ⟨rfl, -⟩ := List.cons.inj he
  exact h hv

lemma not_lone_of_post {pre post : List (Cell V)} {d : Cell V} (h : post ≠ []) :
    ¬ Lone v (pre ++ d :: post) := by
  rintro ⟨e, he, -⟩
  have hlen := congrArg List.length he
  have hpost := List.length_pos_of_ne_nil h
  simp only [List.length_append, List.length_cons, List.length_nil] at hlen
  omega

/-- Whether a version is the only one of its leaf, without the lock: if the answer is no, there
was a moment at which it was right. -/
lemma wp_onlyVersion (hx : Holds t H x) (hp : Published l x) {Q : Bool → W V → Prop}
    (hQ : ∀ y b, Rely t x y → (rg V).Ok live t y →
      (b = false → Seen H.since l (fun c => ¬ Lone v c.cells) y) → Q b y) :
    (rg V).wp live t (onlyVersion l v) Q x := by
  refine RG.wp_intro fun hok => RG.wp_bind (wp_loadHead hp fun y c hy hoky hc hne _ => ?_)
  obtain ⟨d, post, hd⟩ := List.exists_cons_of_ne_nil hne
  have hhead : Seen H.since l (fun c => ∃ post, c.cells = d :: post) y :=
    Seen.later hy.later ⟨_, hx.since_le hok.inv, le_rfl, c, hc, post, hd⟩
  have hs : Seen H.since l (fun c => d ∈ c.cells) y := hhead.mono fun c hc => by
    obtain ⟨post, hc⟩ := hc
    simp [hc]
  rw [hd, firstAddr_cons]
  refine RG.wp_bind (wp_readVersion (hx.rely hy) hs fun z hz hokz => ?_)
  by_cases hv : d.version = v
  · rw [if_pos hv]
    refine RG.wp_bind (wp_next ((hx.rely hy).rely hz) (hs.later hz.later) fun u q hu hoku hq =>
      RG.wp_ret (hQ u _ (hy.trans (hz.trans hu)) hoku fun hb => ?_))
    refine (hq H.since (hs.later hz.later)).mono fun c hc => ?_
    obtain ⟨pre, post, hc, rfl⟩ := hc
    rw [hc]
    refine not_lone_of_post ?_
    rintro rfl
    simp at hb
  · rw [if_neg hv]
    refine RG.wp_ret (hQ z false (hy.trans hz) hokz fun _ => ?_)
    refine (hhead.later hz.later).mono fun c hc => ?_
    obtain ⟨post, hc⟩ := hc
    rw [hc]
    exact not_lone_of_version hv

/-- With the lock held, the check is right. -/
lemma wp_onlyVersion_locked (hx : Holds t H x) (hl : Locked t l S x) {Q : Bool → W V → Prop}
    (hQ : ∀ y b, Rely t x y → (rg V).Ok live t y → (b = true → Lone v S.cells) →
      (b = false → ¬ Lone v S.cells) → Q b y) :
    (rg V).wp live t (onlyVersion l v) Q x := by
  refine RG.wp_intro fun hok => RG.wp_bind (wp_head_locked hl fun y hy hoky => ?_)
  obtain ⟨d, post, hd⟩ := List.exists_cons_of_ne_nil (hok.inv.chains.nonempty _ le_rfl l _ hl.now)
  have hd : S.cells = [] ++ d :: post := hd
  have hxy := hx.rely hy
  have hly := hl.rely hy
  rw [hd, List.nil_append, firstAddr_cons]
  refine RG.wp_bind (wp_version_locked hxy hly (d := d) (by simp [hd]) fun z hz hokz => ?_)
  by_cases hv : d.version = v
  · rw [if_pos hv]
    refine RG.wp_bind (wp_next_locked (hxy.rely hz) (hly.rely hz) hd fun u hu hoku => ?_)
    have hcs : S.cells = [d] ++ post := hd
    have hnil := firstAddr_eq_zero hokz.inv (hly.rely hz) hcs
    refine RG.wp_ret (hQ u _ (hy.trans (hz.trans hu)) hoku (fun hb => ⟨d, ?_, hv⟩) fun hb => ?_)
    · rw [hd, hnil.mp (of_decide_eq_true hb)]
      rfl
    · rw [hd]
      exact not_lone_of_post (mt hnil.mpr (of_decide_eq_false hb))
  · rw [if_neg hv]
    refine RG.wp_ret (hQ z false (hy.trans hz) hokz (by simp) fun _ => ?_)
    rw [hd]
    exact not_lone_of_version hv

/-- What a round of `remove_version` from `x` on has done when it ends.  It sends the operation
round again if the leaf has died, or has come down to the one version meanwhile. -/
def RoundEnds (t l v : ℕ) (H : Hand V) (x : W V) : Option Bool → W V → Prop
  | none, y => Later x y ∧ Holds t H y ∧ (Dead l y ∨
      Seen H.since l (fun c => c.dead = false ∧ Lone v c.cells) y ∧ Moved H.since l y)
  | some b, y => Done t H (.removed b) y

lemma wp_removeEdit (hx : Holds t H x) (hH : H.Clean) (hop : H.op = .removeVersion v finds)
    {reached : Bool} (hl : (some l, reached) ∈ finds) (hp : Published l x)
    (hno : Seen H.since l (fun c => ¬ Lone v c.cells) x) {x₀ : W V} (hx₀ : Later x₀ x) :
    (rg V).wp live t (removeEdit l v) (RoundEnds t l v H x₀) x := by
  refine RG.wp_bind (wp_lock hx hH.lock hp (fun y hy hoky hd =>
      RG.wp_ret ⟨hx₀.trans hy.later, hx.rely hy, .inl hd⟩)
    fun y S hy hoky hxy hly hS _ => ?_)
  refine wp_removeLocked (r := .removed true) hxy hH.placed rfl hH.nodes hH.bag hly hS v
    (fun s M w hs hv hw hne => ?_) (fun z hz hokz hxz => .inl ⟨?_, trivial⟩)
    (fun z hz hokz hxz hsz => ?_)
    fun z hz hokz hxz hsz => ⟨hx₀.trans (hy.trans hz), ?_, .inr ⟨hsz, ?_⟩⟩
  · show Step s H.op _ _
    rw [hop]
    exact .removeVersion hl hs hv hw hne
  · rw [hH.lock]
    exact hxz
  · rw [← hH.lock] at hxz
    refine Done.seen hxz hsz fun s c hc hs => ?_
    rw [hc.1] at hs
    exact hop ▸ .removeVersionNone hl hs hc.2
  · rw [← hH.lock] at hxz
    exact hxz
  · exact (hno.later (hy.trans hz)).moved hsz fun c hc hc' => hc hc'.2

lemma wp_removeRound (hx : Holds t H x) (hH : H.Clean) (hop : H.op = .removeVersion v finds)
    {reached : Bool} (hl : (some l, reached) ∈ finds) (hp : Published l x) :
    (rg V).wp live t (removeRound reached l v) (RoundEnds t l v H x) x := by
  refine RG.wp_bind (wp_onlyVersion hx hp fun y b hy hoky hno => ?_)
  have hxy := hx.rely hy
  have hpy := hp.later hy.later
  cases b with
  | false => exact wp_removeEdit hxy hH hop hl hpy (hno rfl) hy.later
  | true =>
    refine RG.wp_bind (wp_unlinkLeaf (Lone v) (fun cs => ¬ Lone v cs)
      (fun _ => .removed true) hxy hH.placed hH.lock hH.nodes hH.owed hpy
      (fun z S hz hxz hlz _ R hR => wp_onlyVersion_locked hxz hlz hR)
      (fun s cs hdesc hcs hs => ?_) (fun z n hz hokz hxz => RG.wp_ret (.inl ⟨hxz, trivial⟩))
      (fun z hz hokz hxz hrefused => ?_) fun z hr hz hokz hxz => RG.wp_ret ?_)
    · rw [hop]
      exact .removeLast hl hs hcs.only
    · refine RG.wp_bind (wp_isDead (hpy.later hz) fun u b hu hoku hdead halive => ?_)
      have hxu := hy.later.trans (hz.trans hu.later)
      cases b with
      | false =>
        have hseen := hrefused.resolve_left (halive rfl)
        exact wp_removeEdit (hxz.rely hu) hH hop hl ((hpy.later hz).later hu.later)
          ((hseen.later hu.later).mono fun c hc => hc.2) hxu
      | true => exact RG.wp_ret ⟨hxu, hxz.rely hu, .inl (hdead rfl)⟩
    · subst hr
      exact Done.always hokz hxz fun s => hop ▸ .removeVersionAbsent (.inr ⟨l, hl⟩)

/-- The first of the lookups `finds` has found a leaf that was not published, has died, or has not
stayed as it was. -/
def Missed (lo : ℕ) (finds : List (Option ℕ × Bool)) (x : W V) : Prop :=
  ∀ l b rest, finds = (some l, b) :: rest → Unborn lo l x ∨ Dead l x ∨ Moved lo l x

lemma Missed.later (hy : Later x y) (h : Missed lo finds x) : Missed lo finds y :=
  fun l b rest hf => by
    rcases h l b rest hf with hu | hd | hm
    · exact .inl (hu.later hy)
    · exact .inr (.inl (hd.later hy))
    · exact .inr (.inr (hm.later hy))

/-- What is known of a removal of version `v` that has been sent round with the lookups `finds`,
of which `finds'` are left. -/
structure Sent (lo v : ℕ) (finds finds' : List (Option ℕ × Bool)) (x : W V) : Prop where
  mem : ∀ f ∈ finds', f ∈ finds
  outrun : ∀ s : MapState V, finds' ≠ [] → Outrun s v finds' → Outrun s v finds
  missed : finds' = finds ∨ Missed lo finds x

lemma Sent.refl (lo v : ℕ) (finds : List (Option ℕ × Bool)) (x : W V) :
    Sent lo v finds finds x :=
  ⟨fun _ h => h, fun _ _ h => h, .inl rfl⟩

/-- The next lookup is no use either. -/
lemma Sent.missed_cons {reached : Bool} (h : Sent lo v finds ((some l, reached) :: finds') x)
    (hy : Later x y) (hl : Unborn lo l y ∨ Dead l y ∨ Moved lo l y) : Missed lo finds y := by
  rcases h.missed with rfl | hm
  · intro l' b rest hf
    obtain ⟨hf, -⟩ := List.cons.inj hf
    obtain rfl : l = l' := by simpa using congrArg Prod.fst hf
    exact hl
  · exact hm.later hy

lemma Sent.next {reached : Bool} (h : Sent lo v finds ((some l, reached) :: finds') x)
    (hm : Missed lo finds y) : Sent lo v finds finds' y where
  mem f hf := h.mem f (List.mem_cons_of_mem _ hf)
  outrun s hne ho := h.outrun s (by simp) (.next hne ho)
  missed := .inr hm

lemma wp_removeVersion (hx : Holds t H x) (hH : H.Clean) (hop : H.op = .removeVersion v finds)
    (hs : Sent H.since v finds finds' x) (hnil : finds' = [] → Done t H .unfinished x) :
    (rg V).wp live t (removeVersion v finds')
      (fun k y => Done t H (k.elim .unfinished .removed) y ∧
        (k = none → Missed H.since finds y)) x := by
  induction finds' generalizing x with
  | nil =>
    refine RG.wp_ret ⟨hnil rfl, fun _ => ?_⟩
    rcases hs.missed with rfl | hm
    · exact fun l b rest hf => by simp at hf
    · exact hm
  | cons f finds' ih =>
    obtain ⟨_ | l, reached⟩ := f
    · exact RG.wp_intro fun hok => RG.wp_ret ⟨Done.always hok hx fun s =>
        hop ▸ .removeVersionAbsent (.inl ⟨_, hs.mem _ List.mem_cons_self⟩), by simp⟩
    · have hl := hs.mem _ List.mem_cons_self
      refine RG.wp_bind (wp_find hx (fun y hy hoky hpub => ?_) fun y hy hoky hu hn hdone =>
        RG.wp_ret ⟨hdone _ ?_, fun _ => hs.missed_cons hy.later (.inl hu)⟩)
      · refine RG.wp_bind (RG.wp_mono (wp_removeRound (hx.rely hy) hH hop hl hpub) ?_)
        rintro (_ | b) z hok hz
        · obtain ⟨hyz, hxz, hz⟩ := hz
          have hm := hs.missed_cons (hy.later.trans hyz) (.inr (hz.imp_right And.right))
          refine ih hxz (hs.next hm) fun hf => ?_
          subst hf
          have hout : ∀ (s : MapState V) M d, s l = some ⟨M, d⟩ →
              (d = true ∨ ∀ w, (M w).isSome ↔ w = v) → Step s H.op .unfinished s :=
            fun s M d hsl h =>
              hop ▸ .removeVersionUnfinished (hs.outrun s (by simp) (.last hsl h))
          rcases hz with hd | ⟨hone, -⟩
          · exact Done.dead hok hxz hd fun s M hsl => hout s M true hsl (.inl rfl)
          · exact Done.seen hxz hone fun s c hc hsl => hout s _ _ hsl (.inr hc.2.only)
        · exact RG.wp_ret ⟨hz, by simp⟩
      · rw [hop]
        exact .removeVersionUnfinished (hs.outrun _ (by simp) (.unfound (by simp [seen, hn])))

end RemoveKey

/-! ## Clearing -/

lemma wp_clear (hx : Holds t H x) (hH : H.Clean) (hop : H.op = .clearLeaf l)
    (hp : Published l x) :
    (rg V).wp live t (clearLeaf l) (fun k y => Done t H (.counted k) y) x := by
  refine wp_clearLeaf hx hop hH.placed hH.lock hH.nodes hH.owed hp (fun s M hs => ?_)
    (fun y k hy hoky hxy => .inl ⟨hxy, trivial⟩) fun y hy hoky hxy hd => ?_
  · rw [hop]
    exact .clearLeaf hs
  · exact Done.dead hoky hxy hd fun s M hs => hop ▸ .clearDead hs

/-! ## Pruning -/

section Prune

variable {reached : ℕ → Bool} {min : ℕ} {isTomb : V → Bool}

/-- What an attempt to prune has done when it ends. -/
def AttemptEnds (t l : ℕ) (H : Hand V) : Option ℕ → W V → Prop
  | none, y => Holds t H y ∧ Published l y ∧ Stuck H.since l y
  | some n, y => Done t H (.pruned n) y

lemma wp_pruneTrim {d : Cell V} (hx : Holds t H x) (hH : H.Clean)
    (hop : H.op = .pruneKey (some l) reached min isTomb) (hp : Published l x)
    (hd : Seen H.since l (fun c => Hit min d c.cells) x) :
    (rg V).wp live t (trim l d.addr min) (AttemptEnds t l H) x := by
  refine wp_trim hx hH.placed hH.lock hH.nodes hH.bag hp hd (fun s M v hs hv => ?_)
    (fun y hy hoky hxy hd => ?_) (fun y hy hoky hxy hstuck => ⟨hxy, hp.later hy, hstuck⟩)
    fun y n hy hoky hxy => .inl ⟨hxy, trivial⟩
  · rw [hop]
    exact .prune hs hv
  · exact Done.dead hoky hxy hd fun s M hs => hop ▸ .pruneNone hs (.inl rfl)

/-- A leaf dies if its newest version is one that the watermark has passed, and a deletion. -/
lemma wp_pruneDoomed {d : Cell V} {again : Bool} (hx : Holds t H x) (hH : H.Clean)
    (hop : H.op = .pruneKey (some l) reached min isTomb) (hp : Published l x)
    (hhit : Seen H.since l (fun c => Hit min d c.cells) x)
    (hfirst : Seen H.since l (fun c => firstAddr c.cells = d.addr) x)
    (htomb : d.value.all isTomb = true) :
    (rg V).wp live t ((unlinkLeaf again l do
        return decide ((← on (.loadHead l)) = d.addr)).bind fun u => match u with
      | .done n => return some n
      | .refused => do if ← isDead l then return some 0 else return none
      | .missing => trim l d.addr min) (AttemptEnds t l H) x := by
  have hd : Seen H.since l (fun c => d ∈ c.cells) x := hhit.mono fun c hc => hc.mem
  have hle : d.version ≤ min := by
    obtain ⟨_, _, _, c, _, pre, post, _, _, hle⟩ := hhit
    exact hle
  refine RG.wp_bind (wp_unlinkLeaf (fun cs => ∃ post, cs = d :: post)
    (fun cs => firstAddr cs ≠ d.addr) .pruned hx hH.placed hH.lock
    hH.nodes hH.owed hp (fun y S hy hxy hl hS R hR => ?_) (fun s cs hdesc hcs hs => ?_)
    (fun y n hy hoky hxy => RG.wp_ret (.inl ⟨hxy, trivial⟩)) (fun y hy hoky hxy hrefused => ?_)
    fun y _ hy hoky hxy => wp_pruneTrim hxy hH hop (hp.later hy) (hhit.later hy))
  · refine RG.wp_intro fun hok => RG.wp_bind (wp_head_locked hl fun z hz hokz => RG.wp_ret ?_)
    refine hR z _ hz hokz (fun hb => ?_) fun hb => of_decide_eq_false hb
    obtain ⟨e, post, hc⟩ := List.exists_cons_of_ne_nil hS.nonempty
    have ha : e.addr = d.addr := by
      have := of_decide_eq_true hb
      rwa [hc, firstAddr_cons] at this
    have hm := hl.matches hok.inv (d := e) (by simp [hc])
    have hmd := (hd.later hy).matches hok.inv
    rw [← ha] at hmd
    rw [hm.unique hmd ha] at hc
    exact ⟨post, hc⟩
  · obtain ⟨post, rfl⟩ := hcs
    rw [hop, ← count_versionsOf hdesc]
    exact .pruneDoomed hs (newest_versionsOf hdesc) hle (versionsOf_of_mem hdesc (by simp)) htomb
  · refine RG.wp_bind (wp_isDead (hp.later hy) fun z b hz hokz hdead halive => ?_)
    cases b with
    | false =>
      have hseen := hrefused.resolve_left (halive rfl)
      have hstuck : Stuck H.since l y := ⟨hseen.mono fun c hc => hc.1,
        (hfirst.later hy).moved hseen fun c hc hc' => hc'.2 hc⟩
      exact RG.wp_ret ⟨hxy.rely hz, (hp.later hy).later hz.later, hstuck.later hz.later⟩
    | true =>
      exact RG.wp_ret (Done.dead hokz (hxy.rely hz) (hdead rfl) fun s M hs =>
        hop ▸ .pruneNone hs (.inl rfl))

lemma wp_pruneAttempt {again : Bool} (hx : Holds t H x) (hH : H.Clean)
    (hop : H.op = .pruneKey (some l) reached min isTomb) (hp : Published l x) :
    (rg V).wp live t (pruneAttempt again l min isTomb) (AttemptEnds t l H) x := by
  refine RG.wp_intro fun hok => RG.wp_bind (wp_loadHead hp fun y c hy hoky hc hne _ => ?_)
  have hxy := hx.rely hy
  have hs : Seen H.since l (fun e => firstAddr e.cells = firstAddr c.cells) y :=
    Seen.later hy.later ⟨_, hx.since_le hok.inv, le_rfl, c, hc, rfl⟩
  refine RG.wp_bind (wp_findLe hxy min hs (fun z hz hokz hnone => RG.wp_ret ?_)
    fun z d hz hokz hhit => ?_)
  · -- Nothing is old enough.
    refine Done.seen (hxy.rely hz) (hnone.full hokz.inv) fun s c hc hs => hop ▸ .pruneNone hs ?_
    refine .inr fun v hv => ?_
    rw [← Option.not_isSome_iff_eq_none, versionsOf_isSome hc.2.1]
    rintro ⟨e, he, rfl⟩
    exact absurd (hc.1 e he) (by omega)
  have hxz := hxy.rely hz
  have hpz := hp.later (hy.later.trans hz.later)
  have hd : Seen H.since l (fun c => d ∈ c.cells) z := hhit.mono fun c hc => hc.mem
  dsimp only
  by_cases hhead : d.addr = firstAddr c.cells
  · rw [if_pos hhead]
    refine RG.wp_bind (RG.wp_bind (wp_value hxz hd fun u hu hoku => RG.wp_ret ?_))
    have hpu := hpz.later hu.later
    cases htomb : d.value.all isTomb with
    | false => exact wp_pruneTrim (hxz.rely hu) hH hop hpu (hhit.later hu.later)
    | true =>
      refine wp_pruneDoomed (hxz.rely hu) hH hop hpu (hhit.later hu.later) ?_ htomb
      rw [hhead]
      exact hs.later (hz.later.trans hu.later)
  · rw [if_neg hhead]
    exact RG.wp_bind (RG.wp_ret (wp_pruneTrim hxz hH hop hpz hhit))

lemma wp_pruneAttempts (hx : Holds t H x) (hH : H.Clean)
    (hop : H.op = .pruneKey (some l) reached min isTomb) (hp : Published l x) (n : ℕ)
    (hstuck : n = 0 → Stuck H.since l x) :
    (rg V).wp live t (pruneAttempts reached l min isTomb n)
      (fun k y => Done t H (k.elim .gaveUp .pruned) y ∧ (k = none → Moved H.since l y)) x := by
  induction n generalizing x with
  | zero =>
    obtain ⟨halive, hmoved⟩ := hstuck rfl
    refine RG.wp_ret ⟨Done.seen hx halive fun s c hc hs => ?_, fun _ => hmoved⟩
    rw [hc] at hs
    exact hop ▸ .pruneGaveUp hs
  | succ n ih =>
    refine RG.wp_bind (RG.wp_mono (wp_pruneAttempt hx hH hop hp) ?_)
    rintro (_ | k) y hok hy
    · exact ih hy.1 hy.2.1 fun _ => hy.2.2
    · exact RG.wp_ret ⟨hy, by simp⟩

lemma wp_pruneKey (hx : Holds t H x) (hH : H.Clean)
    (hop : H.op = .pruneKey found reached min isTomb) :
    (rg V).wp live t (tryPruneKey found reached min isTomb)
      (fun k y => Done t H (k.elim .gaveUp .pruned) y ∧
        (k = none → ∀ l, found = some l → Moved H.since l y)) x := by
  refine RG.wp_bind (wp_lookup found hx (fun y l hl hy hoky hp => ?_)
    fun y hy hoky hu => RG.wp_ret ⟨?_, by simp⟩)
  · subst hl
    refine RG.wp_mono (wp_pruneAttempts (hx.rely hy) hH hop hp 64 (by simp))
      fun k z _ hz => ⟨hz.1, fun hk l' hl' => ?_⟩
    rw [← Option.some.inj hl']
    exact hz.2 hk
  · exact Done.unfound hoky (hx.rely hy) hu fun s hs => hop ▸ .pruneAbsent hs

end Prune

/-! ## Reading -/

section Read

variable {max : ℕ}

/-- The newest version of a leaf. -/
lemma wp_head (hx : Holds t H x) (hp : Published l x) {Q : ℕ → W V → Prop}
    (hQ : ∀ y d, Rely t x y → (rg V).Ok live t y →
      Seen H.since l (fun c => ∃ post, c.cells = d :: post ∧ Desc (d :: post)) y →
      Q d.addr y) :
    (rg V).wp live t (on (.loadHead l)) Q x := by
  refine RG.wp_intro fun hok => wp_loadHead hp fun y c hy hoky hc hne hdesc => ?_
  obtain ⟨d, post, hd⟩ := List.exists_cons_of_ne_nil hne
  rw [hd] at hdesc
  rw [hd, firstAddr_cons]
  exact hQ y d hy hoky
    (Seen.later hy.later ⟨_, hx.since_le hok.inv, le_rfl, c, hc, post, hd, hdesc⟩)

lemma wp_latest (hx : Holds t H x) (hp : Published l x)
    (hop : ∀ (s : MapState V) M dead r, s l = some ⟨M, dead⟩ → M.Reads l M.Newest r →
      Step s H.op (.entry r) s) :
    (rg V).wp live t (latest l) (fun e y => Holds t H y ∧ Saw H.since H.op (.entry e) y) x := by
  refine RG.wp_bind (wp_head hx hp fun y d hy hoky hs => ?_)
  have hd : Seen H.since l (fun c => d ∈ c.cells) y := hs.mono fun c hc => by
    obtain ⟨post, hc, -⟩ := hc
    simp [hc]
  refine wp_entryRef (hx.rely hy) hd l fun z hz hokz => ?_
  refine ⟨(hx.rely hy).rely hz, .seen (hs.later hz.later) fun s c hc hs => ?_⟩
  obtain ⟨post, hc, hdesc⟩ := hc
  rw [hc] at hs
  exact hop s _ _ _ hs (reads_newest hdesc l)

lemma wp_versionLe (hx : Holds t H x) (hp : Published l x)
    (hop : ∀ (s : MapState V) M dead r, s l = some ⟨M, dead⟩ → M.Reads l (M.NewestLe max) r →
      Step s H.op (.entry r) s) :
    (rg V).wp live t (versionLe l max)
      (fun e y => Holds t H y ∧ Saw H.since H.op (.entry e) y) x := by
  refine RG.wp_bind (wp_head hx hp fun y d hy hoky hs => ?_)
  have hxy := hx.rely hy
  have hhead : Seen H.since l (fun c => firstAddr c.cells = d.addr) y := hs.mono fun c hc => by
    obtain ⟨post, hc, -⟩ := hc
    simp [hc]
  refine RG.wp_bind (wp_findLe hxy max hhead (fun z hz hokz hnone => RG.wp_ret ?_)
    fun z e hz hokz hhit => ?_)
  · refine ⟨hxy.rely hz, .seen (hnone.full hokz.inv) fun s c hc hs => ?_⟩
    exact hop s _ _ _ hs (reads_miss hc.2.1 hc.1 l)
  · have he : Seen H.since l (fun c => e ∈ c.cells) z := hhit.mono fun c hc => hc.mem
    refine wp_entryRef (hxy.rely hz) he l fun u hu hoku => ?_
    refine ⟨(hxy.rely hz).rely hu, .seen ((hhit.later hu.later).full hoku.inv)
      fun s c hc hs => ?_⟩
    exact hop s _ _ _ hs (reads_hit hc.2.1 hc.1 l)

lemma wp_getLatest (hx : Holds t H x) (hop : H.op = .getLatest found) :
    (rg V).wp live t (getLatest found)
      (fun e y => Holds t H y ∧ Saw H.since H.op (.entry e) y) x := by
  refine RG.wp_bind (wp_lookup found hx (fun y l hl hy hoky hp => ?_)
    fun y hy hoky hu => RG.wp_ret ?_)
  · subst hl
    exact wp_latest (hx.rely hy) hp fun s M dead r hs hr => hop ▸ .getLatest hs hr
  · have hxy := hx.rely hy
    exact ⟨hxy, .unfound hoky hxy hu fun s hs => hop ▸ .getLatestAbsent hs⟩

lemma wp_getVersionLe (hx : Holds t H x) (hop : H.op = .getVersionLe found max) :
    (rg V).wp live t (getVersionLe found max)
      (fun e y => Holds t H y ∧ Saw H.since H.op (.entry e) y) x := by
  refine RG.wp_bind (wp_lookup found hx (fun y l hl hy hoky hp => ?_)
    fun y hy hoky hu => RG.wp_ret ?_)
  · subst hl
    exact wp_versionLe (hx.rely hy) hp fun s M dead r hs hr => hop ▸ .getVersionLe hs hr
  · have hxy := hx.rely hy
    exact ⟨hxy, .unfound hoky hxy hu fun s hs => hop ▸ .getVersionLeAbsent hs⟩

lemma wp_containsKey (hx : Holds t H x) (hop : H.op = .containsKey found) :
    (rg V).wp live t (containsKey found) (fun b y => Done t H (.contains b) y) x := by
  refine RG.wp_bind (wp_lookup found hx (fun y l hl hy hoky hp => ?_)
    fun y hy hoky hu => RG.wp_ret ?_)
  · subst hl
    have hxy := hx.rely hy
    refine RG.wp_bind (wp_head hxy hp fun z d hz hokz hs => ?_)
    have hd : Seen H.since l (fun c => d ∈ c.cells) z := hs.mono fun c hc => by
      obtain ⟨post, hc, -⟩ := hc
      simp [hc]
    refine RG.wp_bind (wp_isTombstone (hxy.rely hz) hd fun u hu hoku => RG.wp_ret ?_)
    refine Done.seen ((hxy.rely hz).rely hu) (hs.later hu.later) fun s c hc hs => ?_
    obtain ⟨post, hc, hdesc⟩ := hc
    rw [hc] at hs
    rw [hop]
    exact .containsKey hs (by rw [isLive_versionsOf hdesc]; simp)
  · exact Done.unfound hoky (hx.rely hy) hu fun s hs => hop ▸ .containsKeyAbsent hs

end Read

/-! ## Listing -/

section Survey

lemma Listed.mono {vs : List (ℕ × Option V)} {lo' : ℕ} (h : Listed lo l vs x) (hlo : lo' ≤ lo) :
    Listed lo' l vs x :=
  fun state hstate => (h state hstate).mono hlo

/-- A walk to the end of the chain of a leaf. -/
lemma wp_survey {β : Type} {visit : ℕ → ChainM V β} {f : Cell V → β} (hx : Holds t H x)
    (hp : Published l x)
    (hvisit : ∀ d y, Rely t x y → Seen H.since l (fun c => d ∈ c.cells) y →
      ∀ R : β → W V → Prop, (∀ z, Rely t y z → (rg V).Ok live t z → R (f d) z) →
        (rg V).wp live t (visit d.addr) R y)
    {Q : List β → W V → Prop}
    (hQ : ∀ y (ds : List (Cell V)), Holds t H y → (rg V).Ok live t y →
      Listed H.since l (ds.map Cell.entry) y →
      (ds.map Cell.entry).Pairwise (fun a b => b.1 < a.1) → Q (ds.map f) y) :
    (rg V).wp live t ((on (.loadHead l)).bind fun head => chain visit head) Q x := by
  refine RG.wp_intro fun hok => RG.wp_bind (wp_loadHead hp fun y c hy hoky hc hne _ => ?_)
  refine wp_chain (hx.rely hy) (fun d z hz hs R hR => hvisit d z (hy.trans hz) hs R hR)
    (hx.since_le hok.inv) hy.later.now (by rw [hy.later.past _ le_rfl]; exact hc)
    fun z ds hz hokz hl hdown => hQ z ds ((hx.rely hy).rely hz) hokz ?_ hdown
  exact hl.mono (hx.since_le hok.inv)

lemma wp_getAllVersions (hx : Holds t H x) (hop : H.op = .getAllVersions found) :
    (rg V).wp live t (getAllVersions found) (fun vs y => Done t H (.versions vs) y ∧
      (vs ≠ [] → ∀ l, found = some l → Listed H.since l vs y)) x := by
  refine RG.wp_bind (wp_lookup found hx (fun y l hl hy hoky hp => ?_)
    fun y hy hoky hu => RG.wp_ret ⟨?_, fun hne => absurd rfl hne⟩)
  · subst hl
    refine wp_survey (f := Cell.entry) (hx.rely hy) hp (fun d z hz hs R hR => ?_)
      fun z ds hxz hokz hl hdown => ⟨?_, fun _ l' hl' => ?_⟩
    · exact RG.wp_bind (wp_readVersion ((hx.rely hy).rely hz) hs fun u hu hoku =>
        RG.wp_bind (wp_value (((hx.rely hy).rely hz).rely hu) (hs.later hu.later)
          fun w hw hokw => RG.wp_ret (hR w (hu.trans hw) hokw)))
    · obtain ⟨v, b, r, hvs, hseen⟩ := hl.head hokz.inv
      rw [hvs] at hdown ⊢
      exact Done.seen hxz hseen fun s c hc hs => hop ▸ .getAllVersions hs hc.1 hc.2 hdown
    · rw [← Option.some.inj hl']
      exact hl
  · exact Done.unfound hoky (hx.rely hy) hu fun s hs => hop ▸ .getAllVersionsAbsent hs

lemma wp_versionCount (hx : Holds t H x) (hop : H.op = .versionCount found) :
    (rg V).wp live t (versionCount found) (fun n y => Done t H (.count n) y ∧
      (n ≠ 0 → ∀ l, found = some l → ∃ vs, vs.length = n ∧ Listed H.since l vs y)) x := by
  refine RG.wp_bind (wp_lookup found hx (fun y l hl hy hoky hp => ?_)
    fun y hy hoky hu => RG.wp_ret ⟨?_, fun hne => absurd rfl hne⟩)
  · subst hl
    show (rg V).wp live t ((on (.loadHead l)).bind fun head =>
      (chain (fun _ => Prog.ret ()) head).bind fun ns => Prog.ret ns.length) _ y
    rw [← Prog.bind_assoc]
    refine RG.wp_bind (wp_survey (f := fun _ => ()) (hx.rely hy) hp (fun d z hz hs R hR => ?_)
      fun z ds hxz hokz hl hdown => RG.wp_ret ⟨?_, fun _ l' hl' => ?_⟩)
    · exact RG.wp_intro fun hok => RG.wp_ret (hR z (Rely.refl t z) hok)
    · obtain ⟨v, b, r, hvs, hseen⟩ := hl.head hokz.inv
      have hlen : (ds.map fun _ => ()).length = r.length + 1 := by
        rw [List.length_map, ← List.length_map (f := Cell.entry), hvs, List.length_cons]
      rw [hlen]
      exact Done.seen hxz hseen fun s c hc hs => hop ▸ .versionCount hs
    · rw [← Option.some.inj hl']
      exact ⟨_, by simp, hl⟩
  · exact Done.unfound hoky (hx.rely hy) hu fun s hs => hop ▸ .versionCountAbsent hs

end Survey

end Versioned

end Artmap
