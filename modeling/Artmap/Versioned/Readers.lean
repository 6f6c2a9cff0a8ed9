import Artmap.Versioned.Runs

/-!
# Readers that take no lock

A reader goes down a chain while writers replace, cut off and prune the nodes it stands on.  Still
it gets what the chain, as it was in memory at one moment of the call, would have given (`Answers`);
and if the leaf was killed while the call ran, at a moment when it was alive.
-/

namespace Artmap

namespace Versioned

variable {V : Type} {spurious : List Bool} {c c' : (chains V).Config} {m m' : ChainMem V}
  {t id l : ℕ} {op : Op V} {bound : Option ℕ} {cs : List (Cell V)} {r : Option (EntryRef V)}

/-- The leaf from whose chain an operation reads an entry, and up to which version. -/
def Op.reads : Op V → Option (ℕ × Option ℕ)
  | .getLatest (some l) => some (l, none)
  | .getVersionLe (some l) max => some (l, some max)
  | .latest l => some (l, none)
  | .versionLe l max => some (l, some max)
  | _ => none

/-- What the chain `cs` of leaf `l` gives: its first node with a version up to the bound, unless
that is a deletion. -/
def given (l : ℕ) (bound : Option ℕ) (cs : List (Cell V)) : Option (ℕ × ℕ × V) :=
  (cs.find? fun d => bound.all fun b => d.version ≤ b).bind fun d =>
    d.value.map fun x => (l, d.version, x)

/-- In memory `m`, a reader of leaf `l` gets `r`: nothing before the leaf is published, and then
what its chain gives. -/
inductive Answers (m : ChainMem V) (l : ℕ) (bound : Option ℕ) (r : Option (EntryRef V)) : Prop where
  | absent (hl : m.published l = false) (hr : r = none)
  | chain {cs : List (Cell V)} (hl : m.published l = true) (hcs : Carries m l cs)
      (hr : r.map (fun e => (e.leaf, e.version, e.value)) = given l bound cs)

/-! ## What a chain gives -/

/-- The version `v` is the newest one up to the bound, if there is one. -/
def Versions.UpTo (M : Versions V) (bound : Option ℕ) (v : ℕ) : Prop :=
  IsGreatest {w | (∀ b, bound = some b → w ≤ b) ∧ (M w).isSome} v

lemma Versions.upTo_none (M : Versions V) : M.UpTo none = M.Newest := by
  funext v
  simp [UpTo, Newest]

lemma Versions.upTo_some (M : Versions V) (max : ℕ) : M.UpTo (some max) = M.NewestLe max := by
  funext v
  simp [UpTo, NewestLe]

lemma upTo_versionsOf {pre post : List (Cell V)} {d : Cell V} (h : Desc (pre ++ d :: post))
    (hpre : ∀ e ∈ pre, ¬ ∀ b, bound = some b → e.version ≤ b)
    (hd : ∀ b, bound = some b → d.version ≤ b) :
    (versionsOf (pre ++ d :: post)).UpTo bound d.version := by
  cases bound with
  | none =>
    obtain rfl : pre = [] := List.eq_nil_iff_forall_not_mem.mpr fun e he => hpre e he (by simp)
    rw [Versions.upTo_none]
    exact newest_versionsOf h
  | some max =>
    rw [Versions.upTo_some]
    exact newestLe_versionsOf h (fun e he => by simpa using hpre e he) (hd max rfl)

/-- A reader that looks for the newest version up to the bound gets what the chain gives. -/
lemma reads_versionsOf (h : Desc cs)
    (hr : (versionsOf cs).Reads l ((versionsOf cs).UpTo bound) r) :
    r.map (fun e => (e.leaf, e.version, e.value)) = given l bound cs := by
  have hall : ∀ d : Cell V, (bound.all fun b => d.version ≤ b) = true ↔
      ∀ b, bound = some b → d.version ≤ b := fun d => by
    cases bound <;> simp
  unfold given
  cases hf : cs.find? fun d => bound.all fun b => d.version ≤ b with
  | none =>
    cases r with
    | none => rfl
    | some e =>
      obtain ⟨-, ⟨⟨hb, hsome⟩, -⟩, -⟩ := hr.1 e rfl
      obtain ⟨d, hd, hv⟩ := (versionsOf_isSome h).mp hsome
      exact absurd ((hall d).mpr (hv ▸ hb)) (List.find?_eq_none.mp hf d hd)
  | some d =>
    obtain ⟨hd, pre, post, rfl, hpre⟩ := List.find?_eq_some_iff_append.mp hf
    have hnew : (versionsOf (pre ++ d :: post)).UpTo bound d.version :=
      upTo_versionsOf h (fun e he hb => by simpa [(hall e).mpr hb] using hpre e he)
        ((hall d).mp hd)
    have hmem := versionsOf_of_mem h (d := d) (by simp)
    cases r with
    | none =>
      cases hx : d.value with
      | none => simp [hx]
      | some x => exact absurd (hx ▸ hmem) (hr.2 rfl _ x hnew)
    | some e =>
      obtain ⟨hl, hP, hv⟩ := hr.1 e rfl
      obtain hev : e.version = d.version := hP.unique hnew
      rw [hev, hmem] at hv
      simp [Option.some.inj hv, hl, hev]

lemma Portrays.answers {p : ℕ → Option (ChainState V)} {M : Versions V} {d : Bool}
    (h : Portrays m p) (hs : seen p l = some ⟨M, d⟩) (hr : M.Reads l (M.UpTo bound) r) :
    Answers m l bound r := by
  obtain ⟨s, hp, hM⟩ := Option.map_eq_some_iff.mp hs
  obtain rfl : versionsOf s.cells = M := congrArg LeafState.versions hM
  obtain ⟨hpub, hcs⟩ := h l
  obtain ⟨hdesc, hc⟩ := hcs s hp
  exact .chain (by rw [hpub, hp]; rfl) hc (reads_versionsOf hdesc hr)

lemma Portrays.absent {p : ℕ → Option (ChainState V)} (h : Portrays m p)
    (hs : Unfound (seen p) (some l)) : Answers m l bound none := by
  refine .absent ?_ rfl
  rw [(h l).1, Option.map_eq_none_iff.mp (hs l rfl)]
  rfl

/-- What a reader may answer in a state is what the memory gives that is as the state says. -/
lemma Portrays.step {p : ℕ → Option (ChainState V)} {s : MapState V} (h : Portrays m p)
    (hop : op.reads = some (l, bound)) (hstep : Step (seen p) op (.entry r) s) :
    Answers m l bound r := by
  cases hstep <;> simp only [Op.reads, Option.some.injEq, Prod.mk.injEq, reduceCtorEq] at hop
  case getLatest hs hr =>
    obtain ⟨rfl, rfl⟩ := hop
    exact h.answers hs (by rwa [Versions.upTo_none])
  case getLatestAbsent found hu =>
    cases found <;> simp only [Option.some.injEq, Prod.mk.injEq, reduceCtorEq] at hop
    obtain ⟨rfl, rfl⟩ := hop
    exact h.absent hu
  case getVersionLe hs hr =>
    obtain ⟨rfl, rfl⟩ := hop
    exact h.answers hs (by rwa [Versions.upTo_some])
  case getVersionLeAbsent found max hu =>
    cases found <;> simp only [Option.some.injEq, Prod.mk.injEq, reduceCtorEq] at hop
    obtain ⟨rfl, rfl⟩ := hop
    exact h.absent hu
  case latest hs hr =>
    obtain ⟨rfl, rfl⟩ := hop
    exact h.answers hs (by rwa [Versions.upTo_none])
  case versionLe hs hr =>
    obtain ⟨rfl, rfl⟩ := hop
    exact h.answers hs (by rwa [Versions.upTo_some])

/-! ## Leaves that die -/

lemma published_step (hs : Object.Step c c') (hl : c.mem.published l = true) :
    c'.mem.published l = true := by
  cases hs with
  | invoke t op m idle hstart =>
    rw [hstart.1]
    exact hl
  | act t id op a k hrun =>
    cases a with
    | casLatch l' =>
      simp only [execChain]
      split
      · exact hl
      · exact hl
    | publish l' =>
      by_cases hll : l = l'
      · simp [execChain, hll]
      · simpa [execChain, hll] using hl
    | _ => exact hl
  | unfold => exact hl
  | respond => exact hl

/-- The step kills leaf `l`. -/
inductive Kills (l : ℕ) : {β : Type} → ChainAct V β → Prop where
  | mk : Kills l (.storeLatch l chainDead)

lemma latch_exec {β : Type} (a : ChainAct V β)
    (h : ((execChain a m).2.leaf l).chainLatch = chainDead) :
    (m.leaf l).chainLatch = chainDead ∨ Kills l a := by
  cases a with
  | casLatch l' =>
    left
    by_contra hlive
    simp only [execChain] at h
    split at h
    · by_cases hll : l = l'
      · simp [ChainMem.setLatch, hll, chainLocked, chainDead] at h
      · simp only [ChainMem.setLatch, Function.update_of_ne hll] at h
        exact hlive h
    · exact hlive h
  | storeLatch l' w =>
    by_cases hll : l = l'
    · subst hll
      obtain rfl : w = chainDead := by simpa [execChain, ChainMem.setLatch] using h
      exact .inr .mk
    · exact .inl (by simpa [execChain, ChainMem.setLatch, hll] using h)
  | storeHead l' p =>
    by_cases hll : l = l'
    · exact .inl (by simpa [execChain, ChainMem.setHead, hll] using h)
    · exact .inl (by simpa [execChain, ChainMem.setHead, hll] using h)
  | storeSlots l' w =>
    by_cases hll : l = l'
    · exact .inl (by simpa [execChain, ChainMem.setSlots, hll] using h)
    · exact .inl (by simpa [execChain, ChainMem.setSlots, hll] using h)
  | newLeaf v x =>
    by_cases hll : l = m.nextLeaf
    · simp [execChain, ChainMem.addLeaf, hll, chainDead] at h
    · exact .inl (by simpa [execChain, ChainMem.addLeaf, hll] using h)
  | _ => exact .inl h

/-- A leaf is killed by one store, which leaves its chain as it is. -/
lemma killed (hc : Reachable spurious c) (hs : Object.Step c c')
    (hlive : (c.mem.leaf l).chainLatch ≠ chainDead)
    (hdead : (c'.mem.leaf l).chainLatch = chainDead) :
    c.mem.published l = true ∧ ∀ cs, Carries c.mem l cs ↔ Carries c'.mem l cs := by
  obtain ⟨g, hg⟩ := behind hc
  cases hs with
  | invoke t op m idle hstart =>
    rw [hstart.1] at hdead
    exact absurd hdead hlive
  | unfold => exact absurd hdead hlive
  | respond => exact absurd hdead hlive
  | act t id op a k hrun =>
    cases (latch_exec a hdead).resolve_left hlive
    have hheld : g.holder l = some t := hg.permitted t id op _ k hrun
    obtain ⟨-, s, hsl, -⟩ := hg.inv.leafs.held l t hheld
    have hhead : ((c.mem.setLatch l chainDead).leaf l).head = (c.mem.leaf l).head := by
      simp [ChainMem.setLatch]
    refine ⟨by rw [hg.inv.leafs.published, hsl]; rfl, fun cs => ⟨fun h => ?_, fun h => ?_⟩⟩
    · exact ⟨hhead ▸ h.linked, h.addr_ne, h.holds⟩
    · exact ⟨hhead ▸ h.linked, h.addr_ne, h.holds⟩

/-- Only a published leaf is dead. -/
lemma published_of_dead (hc : Reachable spurious c)
    (hdead : (c.mem.leaf l).chainLatch = chainDead) : c.mem.published l = true := by
  induction hc with
  | refl => simp [Object.initial, ChainMem.empty, chainDead] at hdead
  | @tail c c' hc hs ih =>
    by_cases hd : (c.mem.leaf l).chainLatch = chainDead
    · exact published_step hs (ih hd)
    · exact published_step hs (killed hc hs hd hdead).1

section During

variable {S : Set (ChainMem V)}

/-- The memories of a run are those of the configurations that it has gone through. -/
lemma During.mem (h : During spurious id c S) (hm : m ∈ S) : ∃ c₀, Reachable spurious c₀ ∧
    c₀.mem = m ∧ Relation.ReflTransGen Object.Step c₀ c := by
  induction h with
  | start => exact absurd hm (Set.notMem_empty m)
  | step h hs ih =>
    rcases hm with hm | ⟨-, rfl⟩
    · obtain ⟨c₀, hc₀, he, hrun⟩ := ih hm
      exact ⟨c₀, hc₀, he, hrun.tail hs⟩
    · exact ⟨_, h.reachable.tail hs, rfl, .refl⟩

/-- The present memory is one of them, once the call has been invoked. -/
lemma During.last (h : During spurious id c S) (hm : m ∈ S) :
    id < c.hist.length ∧ c.mem ∈ S := by
  induction h with
  | start => exact absurd hm (Set.notMem_empty m)
  | @step c c' S h hs ih =>
    have hlt : id < c'.hist.length := by
      rcases hm with hm | ⟨hlt, -⟩
      · have hid := (ih hm).1
        cases hs with
        | invoke => exact hid.trans_le (by simp)
        | act => exact hid
        | unfold => exact hid
        | respond => exact hid.trans_le (by simp)
      · exact hlt
    exact ⟨hlt, .inr ⟨hlt, rfl⟩⟩

/-- If a leaf is dead in one of the memories and not in another, then it was alive with the same
chain. -/
lemma During.before (h : During spurious id c S) (hm : m ∈ S)
    (hdead : (m.leaf l).chainLatch = chainDead) (hm' : m' ∈ S)
    (hlive : (m'.leaf l).chainLatch ≠ chainDead) :
    ∃ m₀ ∈ S, (m₀.leaf l).chainLatch ≠ chainDead ∧ m₀.published l = true ∧
      ∀ cs, Carries m₀ l cs ↔ Carries m l cs := by
  induction h generalizing m with
  | start => exact absurd hm (Set.notMem_empty m)
  | @step c c' S h hs ih =>
    -- A leaf that was dead in an earlier memory is dead now, so `m'` is none but an earlier one.
    have hlast : ∀ {m}, m ∈ S → (m.leaf l).chainLatch = chainDead →
        (c'.mem.leaf l).chainLatch = chainDead := by
      intro m hm hdead
      obtain ⟨c₀, hc₀, rfl, hrun⟩ := h.mem hm
      exact (dead_frozen hc₀ (hrun.tail hs) (published_of_dead hc₀ hdead) (.inl hdead)).1
    have hm' : m' ∈ S := by
      refine hm'.resolve_right fun hnow => hlive ?_
      rcases hm with hm | ⟨-, rfl⟩
      · rw [hnow.2]
        exact hlast hm hdead
      · rw [hnow.2]
        exact hdead
    rcases hm with hm | ⟨-, rfl⟩
    · obtain ⟨m₀, hm₀, h₀⟩ := ih hm hdead hm'
      exact ⟨m₀, .inl hm₀, h₀⟩
    · have hc := (h.last hm').2
      by_cases hd : (c.mem.leaf l).chainLatch = chainDead
      · obtain ⟨m₀, hm₀, halive, hpub, hsame⟩ := ih hc hd hm'
        have hfrozen := dead_frozen h.reachable (.single hs)
          (published_of_dead h.reachable hd) (.inl hd)
        exact ⟨m₀, .inl hm₀, halive, hpub, fun cs => (hsame cs).trans (hfrozen.2 cs).symm⟩
      · obtain ⟨hpub, hsame⟩ := killed h.reachable hs hd hdead
        exact ⟨c.mem, .inl hc, hd, hpub, hsame⟩

end During

/-! ## Instants -/

/-- **Readers that take no lock.**  Whatever writers do to the chain meanwhile, a reader answers
what it gives in one of the memories since the reader was invoked; the leaf is not dead in this
memory, unless it is dead in all of them. -/
theorem reader_instant {S : Set (ChainMem V)} (hc : During spurious id c S)
    (hrun : c.running t = some ⟨id, op, .ret (.entry r)⟩) (hop : op.reads = some (l, bound)) :
    ∃ m ∈ S, Answers m l bound r ∧ ((m.leaf l).chainLatch = chainDead →
      ∀ m' ∈ S, (m'.leaf l).chainLatch = chainDead) := by
  obtain ⟨g, hk, hS⟩ := kept_during hc 1
  have hg := behind_of_kept hk
  obtain ⟨j, hlo, hj, hstep⟩ : Saw (g.time.since id) op (.entry r) ⟨c.mem, c.hist, g⟩ := by
    have hsaw := (hg.ended t id op _ hrun).2
    cases op <;> first | exact hsaw | simp [Op.reads] at hop
  obtain ⟨m, hm, hp⟩ := hS (hg.invoked hrun) j hlo hj
  have hans := hp.step hop hstep
  by_cases hall : (m.leaf l).chainLatch = chainDead →
      ∀ m' ∈ S, (m'.leaf l).chainLatch = chainDead
  · exact ⟨m, hm, hans, hall⟩
  · push Not at hall
    obtain ⟨hdead, m', hm', hlive⟩ := hall
    obtain ⟨m₀, hm₀, hlive₀, hpub, hsame⟩ := hc.before hm hdead hm' hlive
    refine ⟨m₀, hm₀, ?_, fun hd => absurd hd hlive₀⟩
    obtain ⟨c₀, hc₀, rfl, -⟩ := hc.mem hm
    cases hans with
    | absent hl => simp [published_of_dead hc₀ hdead] at hl
    | chain hl hcs hr => exact .chain hpub ((hsame _).mpr hcs) hr

/-- Thread 1 has come to a node, thread 0 then replaces it, and thread 1 reads on. -/
def replacedUnder : (chains ℕ).Config :=
  (stepped (stepped inserted 1 2 (.getVersionLe (some 0) 9)) 0 24
    (.insert [some 0] [] 5 (some 8))).schedule (List.replicate 5 1)

lemma replacedUnder_reachable : Reachable [] replacedUnder :=
  ((inserted_reachable.trans (steps_stepped 2 rfl (by simp [Op.given]))).trans
    (steps_stepped 24 rfl (by simp [Op.given]))).trans (Object.Config.steps_schedule _ _)

theorem reader_instant_replaced : (replacedUnder.mem.leaf 0).head = 16 ∧
    hasFlag (replacedUnder.mem.node 8).next supersededFlag = true ∧
      ∃ S, During [] 2 replacedUnder S ∧ ∃ m ∈ S, Answers m 0 (some 9) (some ⟨0, 8, 5, 7⟩) := by
  refine ⟨by decide +kernel, by decide +kernel, ?_⟩
  obtain ⟨S, hS⟩ := exists_during 2 replacedUnder_reachable
  obtain ⟨m, hm, hans, -⟩ := reader_instant (t := 1) hS rfl rfl
  exact ⟨S, hS, m, hm, hans⟩

end Versioned

end Artmap
