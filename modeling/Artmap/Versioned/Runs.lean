import Artmap.Versioned.Correct

/-!
# Runs of a versioned map

What holds of the version chains in every configuration that any number of threads reach: each
published leaf carries one chain, newest version first, of nodes that belong to it alone; a chain
is edited only by the thread that holds its lock, and never again once its leaf is dead; a node
that has been retired is not touched by a call that starts later; and the counter says how many
keys are live.
-/

namespace Artmap

namespace Versioned

variable {V : Type} {spurious : List Bool} {c c' : (chains V).Config} {g : Ghost V}
  {t t' id id' l l' p : ℕ} {op op' : Op V} {d : Cell V} {cs cs' : List (Cell V)} {m : ChainMem V}

/-- The configurations of the runs of a versioned map, from the empty one on. -/
abbrev Reachable (spurious : List Bool) (c : (chains V).Config) : Prop :=
  Object.Reachable (O := chains V) (ChainMem.empty spurious) c

/-- A ghost state that fits a configuration. -/
structure Behind (c : (chains V).Config) (g : Ghost V) : Prop where
  inv : Inv c.mem c.hist g
  tag : ∀ t, (g.run t).map (fun r => (r.id, r.op)) =
    (c.running t).map fun call => (call.id, call.op)
  permitted : ∀ t id op {β : Type} (a : ChainAct V β) (k : β → ChainM V (Ret V)),
    c.running t = some ⟨id, op, .act a k⟩ → Permitted t a g
  ended : ∀ t id op r, c.running t = some ⟨id, op, .ret r⟩ → Ends t id op r ⟨c.mem, c.hist, g⟩

lemma behind_of_kept {g : Ghost V} (hk : RG.Kept (verified V) 1 c g) : Behind c g where
  inv := hk.1.1
  tag := hk.1.2
  permitted t id op _ a k hrun := hk.now.1 t id op a k hrun
  ended t id op r hrun := hk.now.2 t id op r hrun

lemma kept (hc : Reachable spurious c) (N : ℕ) : ∃ g, RG.Kept (verified V) N c g :=
  RG.kept_of_reachable (verified V) (empty_inv spurious) (fun _ => rfl) hc N

/-- There is a ghost state behind every configuration that is reached. -/
theorem behind (hc : Reachable spurious c) : ∃ g, Behind c g := by
  obtain ⟨g, hk⟩ := kept hc 1
  exact ⟨g, behind_of_kept hk⟩

/-- What a run goes through can be relied on. -/
theorem behind_later (hc : Reachable spurious c) (hs : Relation.ReflTransGen Object.Step c c') :
    ∃ g g', Behind c g ∧ Behind c' g' ∧ Later ⟨c.mem, c.hist, g⟩ ⟨c'.mem, c'.hist, g'⟩ := by
  obtain ⟨g, g', hk, hk', ts, hts⟩ := RG.kept_run (verified V) (kept hc) hs 1
  obtain ⟨t, ht⟩ := Infinite.exists_notMem_finset ts.toFinset
  have hr : Rely t ⟨c.mem, c.hist, g⟩ ⟨c'.mem, c'.hist, g'⟩ := hts t (by simpa using ht)
  exact ⟨g, g', behind_of_kept hk, behind_of_kept hk', hr.later⟩

/-! ## Linearizability -/

/-- **Linearizability.**  In every interleaving, and with every answer of the tree, the calls have
answered as if each had taken effect at one moment between its invocation and its response. -/
theorem chains_linearizable (hc : Reachable spurious c) : (spec V).Linearizable c.hist := by
  obtain ⟨g, hg⟩ := behind hc
  exact hg.inv.calls.time.linearizable

/-- Thread `t` invokes `op`, and takes `n` steps. -/
def stepped (c : (chains V).Config) (t n : ℕ) (op : Op V) : (chains V).Config :=
  (c.invoke t op c.mem).schedule (List.replicate n t)

lemma steps_stepped (n : ℕ) (idle : c.running t = none)
    (hop : ∀ l, op.given = some l → c.mem.published l = true) :
    Relation.ReflTransGen Object.Step c (stepped c t n op) :=
  (Relation.ReflTransGen.single
    (Object.Step.invoke (O := chains V) t op c.mem idle ⟨rfl, hop⟩)).trans
      (Object.Config.steps_schedule _ _)

/-- Thread 0 has inserted version 5 of a key. -/
def inserted : (chains ℕ).Config :=
  stepped (Object.initial (ChainMem.empty [])) 0 4 (.insert [none] [] 5 (some 7))

lemma inserted_reachable : Reachable [] inserted := steps_stepped 4 rfl (by simp [Op.given])

/-- Thread 1 is in the middle of a lookup. -/
theorem chains_linearizable_lookup :
    (stepped inserted 1 2 (.getLatest (some 0))).hist =
        [.inv 0 (.insert [none] [] 5 (some 7)), .res 0 (.delta 1), .inv 2 (.getLatest (some 0))] ∧
      (spec ℕ).Linearizable (stepped inserted 1 2 (.getLatest (some 0))).hist :=
  ⟨rfl, chains_linearizable
    (inserted_reachable.trans (steps_stepped 2 rfl (by simp [Op.given])))⟩

/-! ## The chains in memory -/

/-- In memory `m`, leaf `l` carries the chain `cs`. -/
structure Carries (m : ChainMem V) (l : ℕ) (cs : List (Cell V)) : Prop where
  linked : Linked m.node (m.leaf l).head cs
  addr_ne : ∀ d ∈ cs, d.addr ≠ 0
  holds : ∀ d ∈ cs, Matches (m.node d.addr) d

lemma Linked.unique {node : ℕ → VersionNode V} (h : Linked node p cs) (h' : Linked node p cs')
    (hcs : ∀ d ∈ cs, d.addr ≠ 0 ∧ Matches (node d.addr) d)
    (hcs' : ∀ d ∈ cs', d.addr ≠ 0 ∧ Matches (node d.addr) d) : cs = cs' := by
  induction cs generalizing p cs' with
  | nil =>
    cases cs' with
    | nil => rfl
    | cons e cs' => exact absurd (h'.1.symm.trans h) (hcs' e List.mem_cons_self).1
  | cons d cs ih =>
    cases cs' with
    | nil => exact absurd (h.1.symm.trans h') (hcs d List.mem_cons_self).1
    | cons e cs' =>
      obtain ⟨rfl, h⟩ := h
      obtain ⟨ha, h'⟩ := h'
      obtain rfl : d = e := (hcs d List.mem_cons_self).2.unique
        (ha ▸ (hcs' e List.mem_cons_self).2) ha
      rw [ih h h' (fun c hc => hcs c (List.mem_cons_of_mem _ hc))
        fun c hc => hcs' c (List.mem_cons_of_mem _ hc)]

lemma Carries.unique (h : Carries m l cs) (h' : Carries m l cs') : cs = cs' :=
  h.linked.unique h'.linked (fun d hd => ⟨h.addr_ne d hd, h.holds d hd⟩)
    fun d hd => ⟨h'.addr_ne d hd, h'.holds d hd⟩

/-- The chains in memory are those of the present state. -/
lemma Inv.carries {h : List (Event (Op V) (Ret V))} {s : ChainState V} (hi : Inv m h g)
    (hs : g.now l = some s) : Carries m l s.cells where
  linked := hi.chains.linked l s hs
  addr_ne d hd := by
    have hw := (hi.chains.linked_iff d.addr l).mpr ⟨s, hs, d, hd, rfl⟩
    exact (hi.nodes.alloc d.addr (by rw [hw]; simp)).1
  holds d hd := hi.chains.matching _ le_rfl l s hs d hd

namespace Behind

lemma carries {s : ChainState V} (h : Behind c g) (hs : g.now l = some s) :
    Carries c.mem l s.cells :=
  h.inv.carries hs

lemma now_of_published (h : Behind c g) (hl : c.mem.published l = true) :
    ∃ s, g.now l = some s :=
  Option.isSome_iff_exists.mp ((h.inv.leafs.published l).symm.trans hl)

lemma whose_of_carries (h : Behind c g) (hl : c.mem.published l = true) (hcs : Carries c.mem l cs)
    (hd : d ∈ cs) : g.whose d.addr = .linked l := by
  obtain ⟨s, hs⟩ := h.now_of_published hl
  rw [hcs.unique (h.carries hs)] at hd
  exact (h.inv.chains.linked_iff d.addr l).mpr ⟨s, hs, d, hd, rfl⟩

end Behind

/-- **Shape of the chains.**  A published leaf carries one chain: it is not empty, the versions
descend, and no node of it is marked, retired or in the chain of another leaf. -/
theorem chain_shape (hc : Reachable spurious c) (hl : c.mem.published l = true) :
    ∃ cs, Carries c.mem l cs ∧ (∀ cs', Carries c.mem l cs' → cs' = cs) ∧ cs ≠ [] ∧ Desc cs ∧
      ∀ d ∈ cs, hasFlag (c.mem.node d.addr).next supersededFlag = false ∧
        d.addr ∉ c.mem.retired ∧
        ∀ l' cs', c.mem.published l' = true → Carries c.mem l' cs' → ∀ e ∈ cs',
          e.addr = d.addr → l' = l := by
  obtain ⟨g, hg⟩ := behind hc
  obtain ⟨s, hs⟩ := hg.now_of_published hl
  have hcs := hg.carries hs
  refine ⟨s.cells, hcs, fun cs' h => h.unique hcs, hg.inv.chains.nonempty _ le_rfl l s hs,
    hg.inv.chains.desc _ le_rfl l s hs, fun d hd => ?_⟩
  have hw := hg.whose_of_carries hl hcs hd
  refine ⟨hg.inv.nodes.unmarked d.addr l (.inl hw), fun hr => ?_, fun l' cs' hl' hcs' e he ha => ?_⟩
  · obtain ⟨l', hr⟩ := (hg.inv.nodes.retired.2 d.addr).mp hr
    rw [hw] at hr
    simp at hr
  · have hw' := hg.whose_of_carries hl' hcs' he
    rw [ha, hw] at hw'
    exact (Owner.linked.inj hw').symm

lemma inserted_carries : Carries inserted.mem 0 [⟨8, 5, some 7⟩] :=
  ⟨⟨rfl, rfl⟩, by simp, by simpa using ⟨rfl, rfl, rfl⟩⟩

theorem chain_shape_inserted : ∃ cs, Carries inserted.mem 0 cs ∧ cs ≠ [] ∧ Desc cs := by
  obtain ⟨cs, hcs, -, hne, hdesc, -⟩ := chain_shape inserted_reachable (l := 0) rfl
  exact ⟨cs, hcs, hne, hdesc⟩

/-! ## Writers -/

/-- The step writes the chain or the lock of leaf `l`. -/
inductive Edits (m : ChainMem V) (l : ℕ) : {β : Type} → ChainAct V β → Prop where
  | storeLatch {w : ℕ} : Edits m l (.storeLatch l w)
  | storeHead {p : ℕ} : Edits m l (.storeHead l p)
  | writeSlot1 {v : ℕ} {b : Option V} : Edits m l (.writeSlot1 l v b)
  /-- The link of a node of the chain. -/
  | storeNext {cs : List (Cell V)} {d : Cell V} {w : ℕ} (hl : m.published l = true)
      (hcs : Carries m l cs) (hd : d ∈ cs) : Edits m l (.storeNext d.addr w)

lemma Behind.holder {β : Type} {a : ChainAct V β} {k : β → ChainM V (Ret V)} (h : Behind c g)
    (hrun : c.running t = some ⟨id, op, .act a k⟩) (he : Edits c.mem l a) :
    g.holder l = some t := by
  have hp := h.permitted t id op a k hrun
  cases he with
  | storeLatch => exact hp
  | storeHead => exact hp
  | writeSlot1 => exact hp
  | storeNext hl hcs hd =>
    have hw := h.whose_of_carries hl hcs hd
    obtain ⟨-, hw' | ⟨l', hh, hw' | hw'⟩⟩ := hp <;> rw [hw] at hw'
    · simp at hw'
    · rw [Owner.linked.inj hw']
      exact hh
    · simp at hw'

/-- **Mutual exclusion.**  While a thread is about to write the chain of a leaf, its lock is
locked, so the leaf is not dead, and no other thread is about to write it. -/
theorem writers_exclude {β : Type} {a : ChainAct V β} {k : β → ChainM V (Ret V)}
    (hc : Reachable spurious c) (hrun : c.running t = some ⟨id, op, .act a k⟩)
    (he : Edits c.mem l a) :
    (c.mem.leaf l).chainLatch = chainLocked ∧
      ∀ (t' id' : ℕ) (op' : Op V) (β' : Type) (a' : ChainAct V β') (k' : β' → ChainM V (Ret V)),
        c.running t' = some ⟨id', op', .act a' k'⟩ → Edits c.mem l a' → t' = t := by
  obtain ⟨g, hg⟩ := behind hc
  have hh := hg.holder hrun he
  refine ⟨(hg.inv.leafs.held l t hh).1, fun t' id' op' β' a' k' hrun' he' => ?_⟩
  have hh' := hg.holder hrun' he'
  rw [hh] at hh'
  exact (Option.some.inj hh').symm

/-- Thread 1 is about to link a new node. -/
theorem writers_exclude_insert :
    ((stepped inserted 1 14 (.insert [some 0] [] 6 (some 8))).mem.leaf 0).chainLatch =
      chainLocked := by
  have hrun : ∃ k, (stepped inserted 1 14 (.insert [some 0] [] 6 (some 8))).running 1 =
      some ⟨2, .insert [some 0] [] 6 (some 8), .act (.storeHead 0 16) k⟩ := ⟨_, rfl⟩
  obtain ⟨k, hrun⟩ := hrun
  exact (writers_exclude (inserted_reachable.trans (steps_stepped 14 rfl (by simp [Op.given])))
    hrun .storeHead).1

/-! ## Retired nodes -/

/-- The node that a step reads, writes or retires. -/
def touched : {β : Type} → ChainAct V β → Option ℕ
  | _, .readVersion p => some p
  | _, .readValue p => some p
  | _, .loadNext p => some p
  | _, .storeNext p _ => some p
  | _, .retire p => some p
  | _, _ => none

/-- The call of thread `t`, and the node that its next step touches. -/
def touching (c : (chains V).Config) (t : ℕ) : Option (ℕ × ℕ) :=
  match c.running t with
  | some ⟨id, _, .act a _⟩ => (touched a).map (Prod.mk id)
  | _ => none

lemma touching_eq_some (h : touching c t = some (id, p)) :
    ∃ op, ∃ (β : Type) (a : ChainAct V β) (k : β → ChainM V (Ret V)),
      c.running t = some ⟨id, op, .act a k⟩ ∧ touched a = some p := by
  unfold touching at h
  split at h
  · rename_i id' op β a k hrun
    obtain ⟨q, hq, he⟩ := Option.map_eq_some_iff.mp h
    obtain ⟨rfl, rfl⟩ := Prod.mk.inj he
    exact ⟨op, β, a, k, hrun, hq⟩
  · simp at h

lemma Behind.run_of {call : (chains V).Call} (h : Behind c g) (hrun : c.running t = some call) :
    ∃ r, g.run t = some r ∧ r.id = call.id ∧ r.op = call.op := by
  have htag := h.tag t
  rw [hrun] at htag
  obtain ⟨r, hr, he⟩ := Option.map_eq_some_iff.mp htag
  exact ⟨r, hr, (Prod.mk.inj he).1, (Prod.mk.inj he).2⟩

lemma retired_exec {β : Type} (a : ChainAct V β) (hp : p ∈ m.retired) :
    p ∈ (execChain a m).2.retired := by
  cases a with
  | casLatch l =>
    simp only [execChain]
    split
    · exact hp
    · exact hp
  | retire q => exact List.mem_append_left _ hp
  | _ => exact hp

lemma retired_later (hs : Relation.ReflTransGen Object.Step c c') (hp : p ∈ c.mem.retired) :
    p ∈ c'.mem.retired := by
  induction hs with
  | refl => exact hp
  | tail _ hstep ih =>
    cases hstep with
    | invoke t op m idle hstart =>
      rw [hstart.1]
      exact ih
    | act t id op a k hrun => exact retired_exec a ih
    | unfold => exact ih
    | respond => exact ih

lemma Behind.invoked {call : (chains V).Call} (h : Behind c g) (hrun : c.running t = some call) :
    ∃ op, .inv call.id op ∈ c.hist := by
  obtain ⟨r, hr, hid, -⟩ := h.run_of hrun
  exact ⟨r.op, hid ▸ h.inv.calls.invoked t r hr⟩

/-- A node that has left its chain is not reached by calls that start later. -/
lemma Later.unreached {x y : W V} {r : Timeline.Pending (Op V) (Ret V)} (hy : Later x y)
    (hi : Inv x.mem x.hist x.ghost) (hrun : y.ghost.run t = some r)
    (hlate : x.ghost.time.now ≤ y.ghost.time.since r.id)
    (hp : (x.ghost.whose p).isGone = true) : ¬ Reach t p y.ghost := by
  rintro (hw | ⟨r', hr', i, hlo, hi', l, s, hs, d, hd, rfl⟩)
  · have := hy.gone p hp
    rw [hw] at this
    simp [Owner.isGone] at this
  · obtain rfl := Option.some.inj (hrun.symm.trans hr')
    rcases Nat.lt_or_eq_of_le (hlate.trans hlo) with hlt | rfl
    · have := hy.fresh i hlt hi' l s hs d hd
      rw [hp] at this
      simp at this
    · rw [hy.past _ le_rfl] at hs
      rw [(hi.chains.linked_iff d.addr l).mpr ⟨s, hs, d, hd, rfl⟩] at hp
      simp [Owner.isGone] at hp

/-- **Reclamation.**  A call that is invoked after a node was retired does not touch it, so the
node can be freed as soon as the calls that were in progress are over. -/
theorem retired_untouched (hc : Reachable spurious c)
    (hs : Relation.ReflTransGen Object.Step c c') (ht : touching c' t = some (id, p))
    (hid : c.hist.length ≤ id) : p ∉ c.mem.retired := by
  obtain ⟨op, β, a, k, hrun, hp⟩ := touching_eq_some ht
  obtain ⟨g, g', hg, hg', hlater⟩ := behind_later hc hs
  obtain ⟨r, hr, rfl, -⟩ := hg'.run_of hrun
  intro hret
  obtain ⟨l, hw⟩ := (hg.inv.nodes.retired.2 p).mp hret
  have hgone : (g.whose p).isGone = true := by
    rw [hw]
    rfl
  have hlate : g.time.now ≤ g'.time.since r.id := by
    rcases hlater.invoked _ _ (hg'.inv.calls.invoked t r hr) with hold | hlate
    · exact absurd (hg.inv.calls.time.inv_lt _ _ hold) (by simpa using hid)
    · exact hlate
  have hun : ¬ Reach t p g' := hlater.unreached hg.inv hr hlate hgone
  have hperm := hg'.permitted t r.id op a k hrun
  cases a <;> simp only [touched, Option.some.injEq, reduceCtorEq] at hp
  case readVersion => exact hun (hp ▸ hperm)
  case readValue => exact hun (hp ▸ hperm)
  case loadNext => exact hun (hp ▸ hperm)
  case storeNext => exact hun (hp ▸ hperm.1)
  case retire =>
    subst hp
    obtain ⟨l', hw'⟩ := hperm
    obtain ⟨l'', hw''⟩ := (hg'.inv.nodes.retired.2 _).mp (retired_later hs hret)
    rw [hw'] at hw''
    simp at hw''

/-- Version 5 has been replaced, by a node in the second inline slot. -/
def replaced : (chains ℕ).Config :=
  stepped inserted 0 24 (.insert [some 0] [] 5 (some 8))

lemma steps_replaced : Relation.ReflTransGen Object.Step inserted replaced :=
  steps_stepped 24 rfl (by simp [Op.given])

/-- It has been replaced twice more, by boxes. -/
def recycled : (chains ℕ).Config :=
  stepped (stepped replaced 0 24 (.insert [some 0] [] 5 (some 9))) 0 24
    (.insert [some 0] [] 5 (some 10))

lemma recycled_reachable : Reachable [] recycled := by
  refine (inserted_reachable.trans steps_replaced).trans ?_
  refine (steps_stepped 24 ?_ (by simp [Op.given])).trans (steps_stepped 24 ?_ (by simp [Op.given]))
  · exact Option.isNone_iff_eq_none.mp (by decide +kernel)
  · exact Option.isNone_iff_eq_none.mp (by decide +kernel)

/-- Thread 1 reads the third box, and the second one has been retired. -/
theorem retired_untouched_recycled : recycled.mem.retired = [24] ∧
    touching (stepped recycled 1 2 (.getLatest (some 0))) 1 = some (recycled.hist.length, 32) ∧
      32 ∉ recycled.mem.retired := by
  have ht : touching (stepped recycled 1 2 (.getLatest (some 0))) 1 =
      some (recycled.hist.length, 32) := by decide +kernel
  refine ⟨by decide +kernel, ht, retired_untouched recycled_reachable
    (steps_stepped 2 ?_ (by simp [Op.given])) ht le_rfl⟩
  exact Option.isNone_iff_eq_none.mp (by decide +kernel)

/-! ## Captured versions -/

lemma Behind.home_later {x y : W V} (hy : Later x y) (hi : Inv y.mem y.hist y.ghost)
    {s : ChainState V} (hs : x.ghost.now l = some s) (hd : d ∈ s.cells) :
    Matches (y.mem.node d.addr) d ∧ (y.ghost.whose d.addr).home = some l := by
  have hs' : y.ghost.past x.ghost.time.now l = some s := by
    rw [hy.past _ le_rfl]
    exact hs
  exact ⟨hi.chains.matching _ hy.now l s hs' d hd, hi.chains.home _ hy.now l s hs' d hd⟩

/-- **Captured versions.**  A node that has been in a chain keeps its version and its value; it is
marked as superseded only when it has left the chain, and if it has, then it is marked, at the
latest when the lock is let go. -/
theorem captured_version (hc : Reachable spurious c)
    (hs : Relation.ReflTransGen Object.Step c c') (hl : c.mem.published l = true)
    (hcs : Carries c.mem l cs) (hd : d ∈ cs) (hl' : c'.mem.published l = true)
    (hcs' : Carries c'.mem l cs') :
    Matches (c'.mem.node d.addr) d ∧
      (hasFlag (c'.mem.node d.addr).next supersededFlag = true → d ∉ cs') ∧
      ((c'.mem.leaf l).chainLatch ≠ chainLocked → d ∉ cs' →
        hasFlag (c'.mem.node d.addr).next supersededFlag = true) := by
  obtain ⟨g, g', hg, hg', hlater⟩ := behind_later hc hs
  obtain ⟨s, hsl⟩ := hg.now_of_published hl
  rw [hcs.unique (hg.carries hsl)] at hd
  obtain ⟨hm, hhome⟩ := Behind.home_later hlater hg'.inv hsl hd
  have hm : Matches (c'.mem.node d.addr) d := hm
  have hhome : (g'.whose d.addr).home = some l := hhome
  refine ⟨hm, fun hflag hin => ?_, fun hfree hout => ?_⟩
  · have hw := hg'.whose_of_carries hl' hcs' hin
    have := hg'.inv.nodes.unmarked d.addr l (.inl hw)
    rw [hflag] at this
    simp at this
  · cases hw : g'.whose d.addr with
    | linked l' =>
      rw [hw] at hhome
      obtain rfl := Option.some.inj hhome
      obtain ⟨s', hs', e, he, ha⟩ := (hg'.inv.chains.linked_iff d.addr l').mp hw
      rw [← hcs'.unique (hg'.carries hs')] at he
      have hme := hcs'.holds e he
      rw [ha] at hme
      exact absurd (hme.unique hm ha ▸ he) hout
    | loose l' =>
      rw [hw] at hhome
      obtain rfl := Option.some.inj hhome
      obtain ⟨t, ht⟩ := Option.ne_none_iff_exists'.mp (hg'.inv.nodes.loose d.addr l' hw)
      exact absurd (hg'.inv.leafs.held l' t ht).1 hfree
    | carried t l' => exact hg'.inv.nodes.marked d.addr (by rw [hw]; rfl)
    | retired l' => exact hg'.inv.nodes.marked d.addr (by rw [hw]; rfl)
    | left l' => exact hg'.inv.nodes.marked d.addr (by rw [hw]; rfl)
    | free => simp [hw, Owner.home] at hhome
    | spare l' => simp [hw, Owner.home] at hhome
    | thread t => simp [hw, Owner.home] at hhome
    | moved => simp [hw, Owner.home] at hhome

lemma replaced_carries : Carries replaced.mem 0 [⟨16, 5, some 8⟩] :=
  ⟨⟨rfl, rfl⟩, by simp, by simpa using ⟨rfl, rfl, rfl⟩⟩

theorem captured_version_replaced :
    hasFlag (replaced.mem.node 8).next supersededFlag = true ∧
      (replaced.mem.node 8).value = some 7 :=
  have h := captured_version inserted_reachable steps_replaced rfl inserted_carries
    List.mem_cons_self rfl replaced_carries
  ⟨h.2.2 (by decide) (by simp), h.1.value⟩

/-- **Dead leaves.**  A leaf that `remove_confirmed` has unlinked is dead, and the chain of a dead
leaf stays as it is.  A leaf below a root that `clear` has swapped out is dead from its kill on. -/
theorem dead_frozen (hc : Reachable spurious c) (hs : Relation.ReflTransGen Object.Step c c')
    (hl : c.mem.published l = true)
    (hdead : (c.mem.leaf l).chainLatch = chainDead ∨ c.mem.unlinked l = true) :
    (c'.mem.leaf l).chainLatch = chainDead ∧
      ∀ cs, Carries c'.mem l cs ↔ Carries c.mem l cs := by
  obtain ⟨g, g', hg, hg', hlater⟩ := behind_later hc hs
  obtain ⟨⟨cells, dead⟩, hsl⟩ := hg.now_of_published hl
  have hd : dead = true := by
    rcases hdead with hlatch | hun
    · have hsome : (g.now l).isSome := Option.isSome_iff_exists.mpr ⟨_, hsl⟩
      rcases hg.inv.latch_cases hsome with ⟨hw, -⟩ | ⟨hw, -⟩ | ⟨-, cells', hs'⟩
      · rw [hlatch] at hw
        exact absurd hw (by decide)
      · rw [hlatch] at hw
        exact absurd hw (by decide)
      · rw [hsl] at hs'
        exact congrArg ChainState.dead (Option.some.inj hs')
    · obtain ⟨s, hs', hd⟩ := hg.inv.leafs.unlinked l hun
      rw [hsl] at hs'
      rwa [← Option.some.inj hs'] at hd
  subst hd
  obtain ⟨s', hs', he⟩ := hlater.grows l _ hsl
  obtain rfl := he rfl
  have h := hg.carries hsl
  have h' := hg'.carries hs'
  refine ⟨(hg'.inv.leafs.dead l _ hs' rfl).1, fun cs => ⟨fun hcs => ?_, fun hcs => ?_⟩⟩
  · rwa [hcs.unique h']
  · rwa [hcs.unique h]

/-- The key has been removed. -/
def removed : (chains ℕ).Config :=
  stepped inserted 0 22 (.removeKey [(some 0, true)])

lemma removed_reachable : Reachable [] removed :=
  inserted_reachable.trans (steps_stepped 22 rfl (by simp [Op.given]))

/-- A handle on the key still finds its last version. -/
theorem dead_frozen_removed :
    ((stepped removed 1 9 (.latest 0)).mem.leaf 0).chainLatch = chainDead :=
  (dead_frozen removed_reachable (steps_stepped 9 rfl (by simp [Op.given]; rfl)) rfl (.inl rfl)).1

/-! ## Quiescence -/

lemma Behind.quiet (h : Behind c g) (hq : c.Quiescent) (t : ℕ) : Idle g t := by
  refine h.inv.idle t ?_
  have htag := h.tag t
  rw [hq t] at htag
  exact Option.map_eq_none_iff.mp htag

lemma Behind.unheld (h : Behind c g) (hq : c.Quiescent) (l : ℕ) : g.holder l = none := by
  cases hh : g.holder l with
  | none => rfl
  | some t => exact absurd hh ((h.quiet hq t).holder l)

/-- **No leaks, and nothing is freed twice.**  When no call is in progress, a node that has been in
the chain of a leaf is still in it, or has been retired once, or is an inline node, which its leaf
owns. -/
theorem node_ends (hc : Reachable spurious c) (hs : Relation.ReflTransGen Object.Step c c')
    (hq : c'.Quiescent) (hl : c.mem.published l = true) (hcs : Carries c.mem l cs) (hd : d ∈ cs) :
    (∃ cs', Carries c'.mem l cs' ∧ d ∈ cs' ∧ d.addr ∉ c'.mem.retired) ∨
      (hasFlag (c'.mem.node d.addr).next supersededFlag = true ∧
        (c'.mem.retired.count d.addr = 1 ∧ hasFlag (c'.mem.node d.addr).next inlineFlag = false ∨
          d.addr ∉ c'.mem.retired ∧
            (d.addr = (c'.mem.leaf l).slot0 ∨ d.addr = (c'.mem.leaf l).slot1))) := by
  obtain ⟨g, g', hg, hg', hlater⟩ := behind_later hc hs
  obtain ⟨s, hsl⟩ := hg.now_of_published hl
  rw [hcs.unique (hg.carries hsl)] at hd
  obtain ⟨hm, hhome⟩ := Behind.home_later hlater hg'.inv hsl hd
  have hm : Matches (c'.mem.node d.addr) d := hm
  have hhome : (g'.whose d.addr).home = some l := hhome
  have hret : ∀ {o}, g'.whose d.addr = o → (∀ l', o ≠ .retired l') → d.addr ∉ c'.mem.retired := by
    intro o hw ho hin
    obtain ⟨l', hw'⟩ := (hg'.inv.nodes.retired.2 d.addr).mp hin
    exact ho l' (hw.symm.trans hw')
  have hflag : (g'.whose d.addr).isMarked = true →
      hasFlag (c'.mem.node d.addr).next supersededFlag = true := hg'.inv.nodes.marked d.addr
  cases hw : g'.whose d.addr with
  | linked l' =>
    rw [hw] at hhome
    obtain rfl := Option.some.inj hhome
    obtain ⟨s', hs', e, he, ha⟩ := (hg'.inv.chains.linked_iff d.addr l').mp hw
    have hme := (hg'.carries hs').holds e he
    rw [ha] at hme
    exact .inl ⟨_, hg'.carries hs', hme.unique hm ha ▸ he, hret hw (by simp)⟩
  | loose l' => exact absurd (hg'.unheld hq l') (hg'.inv.nodes.loose d.addr l' hw)
  | carried t l' => exact absurd hw ((hg'.quiet hq t).carried d.addr l')
  | retired l' =>
    refine .inr ⟨hflag (by rw [hw]; rfl), .inl ⟨?_, hg'.inv.nodes.boxed d.addr l' hw⟩⟩
    exact List.count_eq_one_of_mem hg'.inv.nodes.retired.1
      ((hg'.inv.nodes.retired.2 d.addr).mpr ⟨l', hw⟩)
  | left l' =>
    refine .inr ⟨hflag (by rw [hw]; rfl), .inr ⟨hret hw (by simp), ?_⟩⟩
    exact (hg'.inv.nodes.inline_iff d.addr l hhome).mp (hg'.inv.nodes.left d.addr l' hw)
  | free => simp [hw, Owner.home] at hhome
  | spare l' => simp [hw, Owner.home] at hhome
  | thread t => simp [hw, Owner.home] at hhome
  | moved => simp [hw, Owner.home] at hhome

/-- No call is in progress once the only one is over. -/
lemma stepped_quiescent {n : ℕ} (hq : c.Quiescent) (h : (stepped c t n op).running t = none) :
    (stepped c t n op).Quiescent := by
  intro t'
  by_cases ht : t' = t
  · rw [ht]
    exact h
  · refine (Object.Config.schedule_other n _ ht).trans ?_
    exact (Function.update_of_ne ht _ _).trans (hq t')

lemma inserted_quiescent : inserted.Quiescent :=
  stepped_quiescent (fun _ => rfl) rfl

theorem node_ends_replaced :
    ∃ cs, Carries replaced.mem 0 cs ∧ (⟨8, 5, some 7⟩ : Cell ℕ) ∈ cs ∧ 8 ∉ replaced.mem.retired ∨
      hasFlag (replaced.mem.node 8).next supersededFlag = true := by
  rcases node_ends inserted_reachable steps_replaced (stepped_quiescent inserted_quiescent rfl)
    rfl inserted_carries List.mem_cons_self with ⟨cs, h⟩ | h
  · exact ⟨cs, .inl h⟩
  · exact ⟨[], .inr h.1⟩

/-- The key of leaf `l` is live: the leaf is in the tree, and the head of its chain has a value. -/
def LiveKey (m : ChainMem V) (l : ℕ) : Prop :=
  m.published l = true ∧ (m.leaf l).chainLatch ≠ chainDead ∧
    hasFlag (m.node (m.leaf l).head).next tombstoneFlag = false

instance (m : ChainMem V) (l : ℕ) : Decidable (LiveKey m l) :=
  inferInstanceAs (Decidable (_ ∧ _ ∧ _))

lemma Behind.counted (h : Behind c g) (hq : c.Quiescent) (l : ℕ) :
    g.counted l = if LiveKey c.mem l then 1 else 0 := by
  have hpub := h.inv.leafs.published l
  cases hs : g.now l with
  | none =>
    have hdraft : g.draft l = none := by
      cases hd : g.draft l with
      | none => rfl
      | some t => exact absurd hd ((h.quiet hq t).draft l)
    rw [hs] at hpub
    rw [if_neg fun hlive => absurd hlive.1 (by simp [hpub]), h.inv.leafs.unborn l hs hdraft]
  | some s =>
    obtain ⟨cells, dead⟩ := s
    cases dead with
    | true =>
      have howed : g.owed l = none := by
        cases ho : g.owed l with
        | none => rfl
        | some t => exact absurd ho ((h.quiet hq t).owed l)
      rw [if_neg fun hlive => hlive.2.1 (h.inv.leafs.dead l _ hs rfl).1,
        h.inv.leafs.settled l _ hs rfl howed]
    | false =>
      obtain ⟨hlatch, hcount⟩ := h.inv.leafs.unlocked l _ hs rfl (h.unheld hq l)
      obtain ⟨d, post, hd⟩ := List.exists_cons_of_ne_nil
        (h.inv.chains.nonempty _ le_rfl l _ hs)
      have hd : cells = d :: post := hd
      subst hd
      have hcs := h.carries hs
      have hhead : (c.mem.leaf l).head = d.addr := hcs.linked.1
      have htomb := (hcs.holds d List.mem_cons_self).tombstone
      rw [hcount, live_versionsOf (h.inv.chains.desc _ le_rfl l _ hs)]
      have hiff : LiveKey c.mem l ↔ d.value.isNone = false := by
        rw [LiveKey, hhead, htomb, hlatch, hpub, hs]
        simp [chainDead]
      cases hv : d.value.isNone <;> simp [hiff, hv, liveCount]

/-- **The counter.**  It is never negative, and when no call is in progress it is the number of
live keys. -/
theorem counter_exact (hc : Reachable spurious c) :
    0 ≤ c.mem.len ∧ (c.Quiescent →
      c.mem.len = ((Finset.range c.mem.nextLeaf).filter (LiveKey c.mem)).card) := by
  obtain ⟨g, hg⟩ := behind hc
  constructor
  · rw [hg.inv.leafs.len]
    refine Finset.sum_nonneg fun l _ => ?_
    rcases hg.inv.leafs.counts l with h | h <;> omega
  · intro hq
    have hcount := hg.counted hq
    rw [hg.inv.leafs.len, Finset.sum_congr rfl fun l _ => hcount l]
    simp

theorem counter_exact_inserted : inserted.mem.len =
    ((Finset.range inserted.mem.nextLeaf).filter (LiveKey inserted.mem)).card :=
  (counter_exact inserted_reachable).2 inserted_quiescent

/-! ## Progress -/

/-- A lookup that a quiet tree may answer in memory `m`: it finds no leaf, or one that has been
published and is alive. -/
def Sound (m : ChainMem V) (found : Option ℕ) : Prop :=
  ∀ l, found = some l → m.published l = true ∧ (m.leaf l).chainLatch ≠ chainDead

/-- An operation that makes its lookups again has been given at least one, and the first is
sound. -/
def Settled (m : ChainMem V) : Op V → Prop
  | .insert finds _ _ _ => ∃ f ∈ finds.head?, Sound m f
  | .delete finds _ _ => ∃ f ∈ finds.head?, Sound m f
  | .remove finds => ∃ f ∈ finds.head?, Sound m f
  | .removeVersion _ finds => ∃ f ∈ finds.head?, Sound m f.1
  | .removeKey finds => ∃ f ∈ finds.head?, Sound m f.1
  | _ => True

/-- The steps of a thread lead to later states, and make none before its call is placed. -/
lemma later_of_guar {x y : W V} (hs : Relation.ReflTransGen ((rg V).Guar t) x y)
    (hrun : (rg V).tag x.ghost t ≠ none) :
    Later x y ∧ (rg V).tag y.ghost t = (rg V).tag x.ghost t ∧
      ∀ r, y.ghost.run t = some r → r.placed = none → y.ghost.time.now = x.ghost.time.now := by
  induction hs with
  | refl => exact ⟨Later.refl x, rfl, fun _ _ _ => rfl⟩
  | tail _ hg ih =>
    obtain ⟨hlater, htag, hnow⟩ := ih
    refine ⟨hlater.trans (hg.rely (t + 1) (Nat.succ_ne_self t)).later, hg.tag.trans htag,
      fun r hr hn => ?_⟩
    obtain ⟨he, hnone | hsome⟩ := hg.own.unplaced r hr hn
    · rw [← htag] at hrun
      exact absurd (by simp [hnone]) hrun
    · exact he.trans (hnow r hsome hn)

/-- The world in which a call of thread `t` starts. -/
abbrev entered (c : (chains V).Config) (g : Ghost V) (t : ℕ) (op : Op V) : W V :=
  ⟨c.mem, c.hist ++ [.inv c.hist.length op], g.invoke t c.hist.length op⟩

lemma Behind.enter (h : Behind c g) (hq : c.Quiescent) (t : ℕ)
    (hop : ∀ l, op.given = some l → c.mem.published l = true) :
    (rg V).Ok true t (entered c g t op) ∧ Starts t c.hist.length op (entered c g t op) := by
  set x : W V := ⟨c.mem, c.hist, g⟩
  have hi : Inv x.mem x.hist x.ghost := h.inv
  have hidle : ∀ t, g.run t = none := fun t => by
    have htag := h.tag t
    rw [hq t] at htag
    exact Option.map_eq_none_iff.mp htag
  refine ⟨⟨invoke_inv hi op t, fun _ t' ht' => ?_, by simp [Ghost.invoke]⟩,
    invoke_starts hi (hidle t) hop⟩
  simp [Ghost.invoke, ht', hidle t']

/-- A call that comes to no answer although it runs alone has found out why in the one state there
is. -/
lemma quits_alone {r : Ret V} {y : W V}
    (hs : Relation.ReflTransGen ((rg V).Guar t) (entered c g t op) y)
    (hends : Ends t c.hist.length op r y) (hr : ¬ r.Final) :
    Step (seen g.now) op r (seen g.now) ∧ y.ghost.time.now = g.time.now ∧
      y.ghost.now = g.now ∧ Reports g.time.now op r y := by
  obtain ⟨hlater, -, hnow⟩ := later_of_guar hs (by simp [Ghost.invoke])
  obtain ⟨hdone, hrep⟩ := hends
  have hsince : y.ghost.time.since c.hist.length = g.time.now :=
    (hlater.since _ op (by simp)).trans (Function.update_self ..)
  obtain ⟨-, hf⟩ | ⟨hy, i, hlo, hi, hstep⟩ := hdone
  · exact absurd hf hr
  · have hyx : y.ghost.time.now = g.time.now := hnow _ hy.run rfl
    have hpast : y.ghost.past g.time.now = g.now := hlater.past _ le_rfl
    have hi' : i = g.time.now := le_antisymm (hyx ▸ hi) (hsince ▸ hlo)
    subst hi'
    rw [hpast] at hstep
    rw [hsince] at hrep
    exact ⟨hstep, hyx, by rw [Ghost.now, hyx, hpast], hrep⟩

section Settled

variable {finds : List (Option ℕ)} {f : Option ℕ}

lemma Behind.alive (h : Behind c g) (hf : Sound c.mem (some l)) :
    ∃ cells, g.now l = some ⟨cells, false⟩ := by
  obtain ⟨hpub, hlatch⟩ := hf l rfl
  obtain ⟨⟨cells, dead⟩, hs⟩ := h.now_of_published hpub
  cases dead with
  | false => exact ⟨cells, hs⟩
  | true => exact absurd (h.inv.leafs.dead l _ hs rfl).1 hlatch

/-- Sound lookups are not to no avail. -/
lemma Behind.not_exhausted (h : Behind c g) (hf : f ∈ finds.head?) (hsound : Sound c.mem f) :
    ¬ Exhausted (seen g.now) finds := by
  intro he
  cases he with
  | nil => simp at hf
  | unfound hs =>
    obtain rfl : _ = f := by simpa using hf
    obtain ⟨cells, hc⟩ := h.alive hsound
    simp [seen, hc] at hs
  | dead hs =>
    obtain rfl : _ = f := by simpa using hf
    obtain ⟨cells, hc⟩ := h.alive hsound
    simp [seen, hc, ChainState.seen] at hs

/-- Nor are they when a removal of a version has seen one state only. -/
lemma Behind.not_missed {finds : List (Option ℕ × Bool)} {f : Option ℕ × Bool} {v : ℕ} {y : W V}
    (h : Behind c g) (hf : f ∈ finds.head?) (hsound : Sound c.mem f.1)
    (hyg : y.ghost.time.now = g.time.now) (hnow : y.ghost.now = g.now)
    (hmissed : Missed g.time.now finds y) : ¬ Outrun (seen g.now) v finds := by
  intro ho
  obtain ⟨rest, rfl⟩ : ∃ rest, finds = f :: rest := List.head?_eq_some_iff.mp hf
  obtain ⟨_ | l, b⟩ := f
  · cases ho
  · obtain ⟨cells, hc⟩ := h.alive hsound
    rcases hmissed l b rest rfl with ⟨i, hlo, hi, hn⟩ | ⟨cells', hd⟩ | hm
    · obtain rfl : i = y.ghost.time.now := by omega
      rw [show y.ghost.past y.ghost.time.now = g.now from hnow, hc] at hn
      simp at hn
    · rw [hnow, hc] at hd
      simp at hd
    · exact hm.lt.ne hyg.symm

end Settled

/-- **Progress.**  An operation that starts when no call is in progress, and runs alone, finishes.
A prune does not give up, and an operation that makes its lookups again comes to its answer, if
the first of them is sound. -/
theorem operations_answer (hc : Reachable spurious c) (hq : c.Quiescent) (t : ℕ)
    (hop : ∀ l, op.given = some l → c.mem.published l = true) :
    ∃ n r m, Prog.runFor (fun {β} => (chains V).exec t (β := β)) n (code op) c.mem =
        some (r, m) ∧ r ≠ .gaveUp ∧ (Settled c.mem op → r ≠ .unfinished) := by
  obtain ⟨g, hg⟩ := behind hc
  obtain ⟨hok, hstart⟩ := hg.enter hq t hop
  obtain ⟨n, r, y, hrun, hs, hoky, hends⟩ := RG.alone (wp_code hstart) hok
  refine ⟨n, r, y.mem, hrun, ?_, fun hset => ?_⟩
  · rintro rfl
    obtain ⟨hstep, hyx, -, hrep⟩ := quits_alone hs hends id
    cases hstep with
    | pruneGaveUp => exact (hrep _ rfl).lt.ne hyx.symm
  · rintro rfl
    obtain ⟨hstep, hyx, hnow, hrep⟩ := quits_alone hs hends id
    cases hstep with
    | insertUnfinished he =>
      obtain ⟨f, hf, hsound⟩ := hset
      exact hg.not_exhausted hf hsound he
    | deleteUnfinished he =>
      obtain ⟨f, hf, hsound⟩ := hset
      exact hg.not_exhausted hf hsound he
    | removeUnfinished he =>
      obtain ⟨f, hf, hsound⟩ := hset
      exact hg.not_exhausted hf hsound he
    | removeVersionUnfinished he =>
      obtain ⟨f, hf, hsound⟩ := hset
      exact hg.not_missed hf hsound hyx hnow hrep he
    | removeKeyUnfinished he =>
      obtain ⟨f, hf, hsound⟩ := hset
      exact hg.not_exhausted (f := f.1) (by rw [List.head?_map]; exact Option.mem_map_of_mem _ hf)
        hsound he

/-- A key with one version, of which no other thread is at work. -/
theorem operations_answer_inserted :
    ∃ n r m, Prog.runFor (fun {β} => (chains ℕ).exec 0 (β := β)) n
      (code (.removeVersion 5 [(some 0, false)])) inserted.mem = some (r, m) ∧ r ≠ .unfinished := by
  have hset : Settled inserted.mem (.removeVersion 5 [(some 0, false)]) :=
    ⟨_, rfl, fun l hl => by
      obtain rfl := Option.some.inj hl
      decide⟩
  have hop : ∀ l, Op.given (.removeVersion 5 [(some 0, false)] : Op ℕ) = some l →
      inserted.mem.published l = true := by simp [Op.given]
  obtain ⟨n, r, m, hrun, -, hr⟩ := operations_answer inserted_reachable inserted_quiescent 0 hop
  exact ⟨n, r, m, hrun, hr hset⟩

/-! ## Listings -/

section Scan

variable {state : ℕ → MapState V} {i hi v : ℕ} {b : Option V} {bound : Option ℕ}
  {vs : List (ℕ × Option V)}

lemma Scan.down (h : Scan state l hi i bound vs) :
    (vs.Pairwise fun a b => b.1 < a.1) ∧ ∀ a ∈ vs, ∀ m, bound = some m → a.1 < m := by
  induction h with
  | done => simp
  | next hij hs hv hx rest ih =>
    obtain ⟨hpair, hlt⟩ := ih
    have hhead := hv.1.1
    refine ⟨List.pairwise_cons.mpr ⟨fun a ha => hlt a ha _ rfl, hpair⟩, fun a ha m hm => ?_⟩
    rcases List.mem_cons.mp ha with rfl | ha
    · exact hhead m hm
    · exact (hlt a ha _ rfl).trans (hhead m hm)

/-- What is listed was there at some moment. -/
lemma Scan.sound (h : Scan state l hi i bound vs) (hv : (v, b) ∈ vs) :
    ∃ j, i ≤ j ∧ j ≤ hi ∧ ∃ M dead, state j l = some ⟨M, dead⟩ ∧ M v = some b := by
  induction h with
  | done => simp at hv
  | next hij hs hn hx rest ih =>
    rcases List.mem_cons.mp hv with he | hv
    · obtain ⟨rfl, rfl⟩ := Prod.mk.inj he
      exact ⟨_, hij, rest.le, _, _, hs, hx⟩
    · obtain ⟨j, hj, hj', h⟩ := ih hv
      exact ⟨j, hij.trans hj, hj', h⟩

/-- What was there all the time is listed. -/
lemma Scan.complete (h : Scan state l hi i bound vs)
    (hv : ∀ j, i ≤ j → j ≤ hi → ∃ M dead, state j l = some ⟨M, dead⟩ ∧ (M v).isSome)
    (hb : ∀ m, bound = some m → v < m) : ∃ b, (v, b) ∈ vs := by
  induction h with
  | done hij hj hs hnone =>
    obtain ⟨M, dead, hs', hM⟩ := hv _ hij hj
    rw [hs] at hs'
    obtain ⟨rfl, rfl⟩ := LeafState.mk.inj (Option.some.inj hs')
    rw [hnone v hb] at hM
    simp at hM
  | @next _ j _ M dead w x r hij hs hn hx rest ih =>
    obtain ⟨M', dead', hs', hM⟩ := hv _ hij rest.le
    rw [hs] at hs'
    obtain ⟨rfl, rfl⟩ := LeafState.mk.inj (Option.some.inj hs')
    rcases Nat.lt_or_eq_of_le (hn.2 ⟨hb, hM⟩) with hlt | rfl
    · obtain ⟨b, hb⟩ := ih (fun k hk => hv k (hij.trans hk)) fun m hm => Option.some.inj hm ▸ hlt
      exact ⟨b, List.mem_cons_of_mem _ hb⟩
    · exact ⟨x, List.mem_cons_self⟩

end Scan

/-- In memory `m`, leaf `l` is published, and version `v` is in its chain, with value `b`. -/
def InChain (m : ChainMem V) (l v : ℕ) (b : Option V) : Prop :=
  m.published l = true ∧ ∃ cs, Carries m l cs ∧ ∃ d ∈ cs, d.version = v ∧ d.value = b

/-- In the memories `S`, `vs` lists versions of leaf `l`: newest first, each of them in the chain
in one of these memories, and each version that is in the chain in all of them among them. -/
structure Survey (S : Set (ChainMem V)) (l : ℕ) (vs : List (ℕ × Option V)) : Prop where
  down : vs.Pairwise fun a b => b.1 < a.1
  there : ∀ v b, (v, b) ∈ vs → ∃ m ∈ S, InChain m l v b
  all : ∀ v, (∀ m ∈ S, ∃ b, InChain m l v b) → ∃ b, (v, b) ∈ vs

/-- The configurations of the runs, each with the memories that the run has gone through since the
invocation of call `id`, which is event number `id` of the history. -/
inductive During (spurious : List Bool) (id : ℕ) :
    (chains V).Config → Set (ChainMem V) → Prop where
  | start : During spurious id (Object.initial (ChainMem.empty spurious)) ∅
  | step {c c' : (chains V).Config} {S : Set (ChainMem V)} (h : During spurious id c S)
      (hs : Object.Step c c') :
      During spurious id c' {m | m ∈ S ∨ id < c'.hist.length ∧ m = c'.mem}

section During

variable {S : Set (ChainMem V)} {vs : List (ℕ × Option V)}

lemma During.reachable (h : During spurious id c S) : Reachable spurious c := by
  induction h with
  | start => exact .refl
  | step _ hs ih => exact ih.tail hs

/-- Every run goes through some memories. -/
lemma exists_during (id : ℕ) (hc : Reachable spurious c) : ∃ S, During spurious id c S := by
  induction hc with
  | refl => exact ⟨_, .start⟩
  | tail _ hs ih =>
    obtain ⟨S, hS⟩ := ih
    exact ⟨_, hS.step hs⟩

/-- Memory `m` is as a state says. -/
def Portrays (m : ChainMem V) (p : ℕ → Option (ChainState V)) : Prop :=
  ∀ l, m.published l = (p l).isSome ∧ ∀ s, p l = some s → Desc s.cells ∧ Carries m l s.cells

lemma Inv.portrays {h : List (Event (Op V) (Ret V))} (hi : Inv m h g) : Portrays m g.now :=
  fun l => ⟨hi.leafs.published l, fun s hs =>
    ⟨hi.chains.desc _ le_rfl l s hs, hi.carries hs⟩⟩

/-- A version of a state is in the chain, and the other way round. -/
lemma Portrays.inChain {p : ℕ → Option (ChainState V)} {v : ℕ} {b : Option V}
    (h : Portrays m p) :
    InChain m l v b ↔ ∃ M dead, seen p l = some ⟨M, dead⟩ ∧ M v = some b := by
  obtain ⟨hpub, hcs⟩ := h l
  constructor
  · rintro ⟨hp, cs, hc, d, hd, rfl, rfl⟩
    obtain ⟨s, hs⟩ := Option.isSome_iff_exists.mp (hpub.symm.trans hp)
    obtain ⟨hdesc, hc'⟩ := hcs s hs
    obtain rfl := hc.unique hc'
    exact ⟨_, _, by rw [seen, hs]; rfl, versionsOf_of_mem hdesc hd⟩
  · rintro ⟨M, dead, hs, hv⟩
    obtain ⟨s, hp, hM⟩ := Option.map_eq_some_iff.mp hs
    obtain rfl : versionsOf s.cells = M := congrArg LeafState.versions hM
    obtain ⟨hdesc, hc⟩ := hcs s hp
    obtain ⟨d, hd, hdv, hdb⟩ := (versionsOf_eq_some hdesc).mp hv
    exact ⟨by rw [hpub, hp]; rfl, _, hc, d, hd, hdv, hdb⟩

/-- Each state since the invocation has been that of a memory. -/
lemma kept_during (h : During spurious id c S) (N : ℕ) :
    ∃ g, RG.Kept (verified V) N c g ∧ ((∃ op, .inv id op ∈ c.hist) →
      ∀ j, g.time.since id ≤ j → j ≤ g.time.now → ∃ m ∈ S, Portrays m (g.past j)) := by
  induction h generalizing N with
  | start =>
    have hc : Reachable spurious (Object.initial (ChainMem.empty (V := V) spurious)) := .refl
    obtain ⟨g, hk⟩ := kept hc N
    exact ⟨g, hk, fun hop => by simp [Object.initial] at hop⟩
  | @step c c' S h hs ih =>
    obtain ⟨g, hk, hS⟩ := ih (N + 1)
    obtain ⟨t, g', hk', hmoves, -⟩ := RG.kept_step (verified V) hk hs
    have hinv : Inv c'.mem c'.hist g' := hk'.1.1
    have hlater : Later ⟨c.mem, c.hist, g⟩ ⟨c'.mem, c'.hist, g'⟩ :=
      (hmoves.rely (t + 1) (Nat.succ_ne_self t)).later
    have hnow : g'.time.now = g.time.now ∨ g'.time.now = g.time.now + 1 ∧ c'.hist = c.hist := by
      rcases hmoves.own with hown | heq
      · exact hown.now
      · exact .inl (congrArg (fun x : W V => x.ghost.time.now) heq)
    refine ⟨g', hk', fun hop j hlo hj => ?_⟩
    obtain ⟨op, hop⟩ := hop
    have hid : id < c'.hist.length := hinv.calls.time.inv_lt _ _ hop
    -- The present state is that of the memory now, and the others were there before.
    by_cases hjnow : j = g'.time.now
    · subst hjnow
      exact ⟨c'.mem, .inr ⟨hid, rfl⟩, hinv.portrays⟩
    · have hjold : j ≤ g.time.now := by omega
      have hold : .inv id op ∈ c.hist := by
        rcases hlater.invoked id op hop with hold | hnew
        · exact hold
        · have hnew : g.time.now ≤ g'.time.since id := hnew
          obtain ⟨-, hh⟩ := hnow.resolve_left (by omega)
          rwa [hh] at hop
      have hsince : g'.time.since id = g.time.since id := hlater.since id op hold
      obtain ⟨m, hm, hd⟩ := hS ⟨op, hold⟩ j (hsince ▸ hlo) hjold
      have hpast : g'.past j = g.past j := hlater.past j hjold
      exact ⟨m, .inl hm, hpast ▸ hd⟩

end During

lemma Listed.survey {S : Set (ChainMem V)} {vs : List (ℕ × Option V)}
    (hS : ∀ j, g.time.since id ≤ j → j ≤ g.time.now → ∃ m ∈ S, Portrays m (g.past j))
    (hl : Listed (g.time.since id) l vs ⟨c.mem, c.hist, g⟩) : Survey S l vs := by
  have hscan : Scan (fun j => seen (g.past j)) l g.time.now (g.time.since id) none vs :=
    hl _ fun _ _ => rfl
  refine ⟨hscan.down.1, fun v b hv => ?_, fun v hv => hscan.complete (fun j hlo hj => ?_) (by simp)⟩
  · obtain ⟨j, hlo, hj, M, dead, hs, hM⟩ := hscan.sound hv
    obtain ⟨m, hm, hd⟩ := hS j hlo hj
    exact ⟨m, hm, hd.inChain.mpr ⟨M, dead, hs, hM⟩⟩
  · obtain ⟨m, hm, hd⟩ := hS j hlo hj
    obtain ⟨b, hb⟩ := hv m hm
    obtain ⟨M, dead, hs, hM⟩ := hd.inChain.mp hb
    exact ⟨M, dead, hs, by rw [hM]; rfl⟩

/-- **Listings.**  A listing that runs while the chain changes under it gets no version that was
never there, and misses none that was there throughout. -/
theorem listing_survey {S : Set (ChainMem V)} {vs : List (ℕ × Option V)}
    (hc : During spurious id c S)
    (hrun : c.running t = some ⟨id, .getAllVersions (some l), .ret (.versions vs)⟩)
    (hne : vs ≠ []) : Survey S l vs := by
  obtain ⟨g, hk, hS⟩ := kept_during hc 1
  have hg := behind_of_kept hk
  exact Listed.survey (hS (hg.invoked hrun)) ((hg.ended t id _ _ hrun).2 hne)

/-- Thread 1 has invoked `op`, thread 0 then inserts version 6, and thread 1 takes `n` steps. -/
def overtaken (op : Op ℕ) (n : ℕ) : (chains ℕ).Config :=
  (stepped (stepped inserted 1 1 op) 0 20 (.insert [some 0] [] 6 (some 8))).schedule
    (List.replicate n 1)

lemma overtaken_reachable (op : Op ℕ) (n : ℕ) (hop : op.given = none)
    (hidle : (stepped inserted 1 1 op).running 0 = none) : Reachable [] (overtaken op n) :=
  ((inserted_reachable.trans (steps_stepped 1 rfl (by simp [hop]))).trans
    (steps_stepped 20 hidle (by simp [Op.given]))).trans (Object.Config.steps_schedule _ _)

/-- The listing includes a version that is newer than itself. -/
theorem listing_survey_overtaken : ∃ S,
    During [] 2 (overtaken (.getAllVersions (some 0)) 12) S ∧
      Survey S 0 [(6, some 8), (5, some 7)] := by
  obtain ⟨S, hS⟩ := exists_during 2 (overtaken_reachable (.getAllVersions (some 0)) 12 rfl rfl)
  exact ⟨S, hS, listing_survey (t := 1) hS rfl (by simp)⟩

/-- **Counts.**  The number of versions is that of such a listing. -/
theorem count_survey {S : Set (ChainMem V)} {n : ℕ} (hc : During spurious id c S)
    (hrun : c.running t = some ⟨id, .versionCount (some l), .ret (.count n)⟩) (hn : n ≠ 0) :
    ∃ vs, vs.length = n ∧ Survey S l vs := by
  obtain ⟨g, hk, hS⟩ := kept_during hc 1
  have hg := behind_of_kept hk
  obtain ⟨vs, hlen, hl⟩ := (hg.ended t id _ _ hrun).2 hn
  exact ⟨vs, hlen, Listed.survey (hS (hg.invoked hrun)) hl⟩

theorem count_survey_overtaken : ∃ S,
    During [] 2 (overtaken (.versionCount (some 0)) 6) S ∧
      ∃ vs, vs.length = 2 ∧ Survey S 0 vs := by
  obtain ⟨S, hS⟩ := exists_during 2 (overtaken_reachable (.versionCount (some 0)) 6 rfl rfl)
  exact ⟨S, hS, count_survey (t := 1) hS rfl (by simp)⟩

end Versioned

end Artmap
