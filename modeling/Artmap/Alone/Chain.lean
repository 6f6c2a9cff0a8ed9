import Artmap.Alone.Memory
import Artmap.Tree.Build

/-!
# The chain of a split (`src/raw/write.rs`)

`build_chain` alone, from the pool of a writer: the nodes that it makes, and what a lookup finds
that descends from the top of them.  Where two keys share more than a node can keep, their common
prefix is cut into pieces of sixteen bytes and a branch byte, one for each node above the bottom.
-/

namespace Artmap

open scoped List
open Forest (Links topOf along link lone)

variable {t : ℕ} {m m₁ m' : Mem} {p p' : Pool} {n bottom : NodeId} {ty : NodeType} {F : Fields}
  {c : Content} {L : Links} {seg : List Byte} {b : Byte}

/-! ## The pool -/

/-- The nodes of a pool have been allocated, and no latch of them, or of what has not been
allocated, has been used. -/
structure Pool.Ready (p : Pool) (m : TreeMem) : Prop where
  nodup : (p.map Prod.fst).Nodup
  lt : ∀ n ∈ p.map Prod.fst, n < m.next
  latch : ∀ n, n ∈ p.map Prod.fst ∨ m.next ≤ n → m.latch (.node n) = 0

/-- A node is an unused entry of the pool, or has not been allocated. -/
def Pool.Spare (p : Pool) (m : TreeMem) (n : NodeId) : Prop :=
  (n, false) ∈ p ∨ m.next ≤ n

/-- A node has been taken from the pool, or allocated. -/
structure Took (ty : NodeType) (n : NodeId) (p p' : Pool) (m m' : Mem) : Prop where
  spare : p.Spare m.tree n
  spared : ∀ k, p'.Spare m'.tree k → p.Spare m.tree k
  fresh : (n, true) ∉ p
  used : ∀ k, (k, true) ∈ p' ↔ k = n ∨ (k, true) ∈ p
  ready : p'.Ready m'.tree
  ty : m'.tree.ty n = ty
  fields : m'.tree.fields n = Fields.fresh
  frame : OnlyNodes [n] m m'

lemma alone_poolFind (ty : NodeType) (p : Pool) : ∃ r, Alone t (Pool.find ty p) m r m ∧
    ∀ n, r = some n → (n, false) ∈ p ∧ m.tree.ty n = ty := by
  induction p with
  | nil => exact ⟨none, .ret _ _, (by simp)⟩
  | cons e p ih =>
    obtain ⟨k, used⟩ := e
    obtain ⟨r, hr, hspec⟩ := ih
    have hskip : ∀ n, r = some n → (n, false) ∈ (k, used) :: p ∧ m.tree.ty n = ty := fun n hn =>
      ⟨List.mem_cons_of_mem _ (hspec n hn).1, (hspec n hn).2⟩
    cases used with
    | true => exact ⟨r, hr, hskip⟩
    | false =>
      by_cases hty : m.tree.ty k = ty
      · refine ⟨some k, .act ?_, fun n hn => ?_⟩
        · show Prog.Alone _ (if m.tree.ty k = ty then _ else _) m (some k) m
          rw [if_pos hty]
          exact .ret _ _
        · obtain rfl := Option.some.inj hn
          exact ⟨List.mem_cons_self, hty⟩
      · refine ⟨r, .act ?_, hskip⟩
        show Prog.Alone _ (if m.tree.ty k = ty then _ else _) m r m
        rw [if_neg hty]
        exact hr

/-- An unused entry is taken. -/
lemma took_use (h : p.Ready m.tree) (hn : (n, false) ∈ p) (hty : m.tree.ty n = ty) :
    Took ty n p (p.use n) m (m.setFields n Fields.fresh) where
  spare := .inl hn
  spared k hk := by
    refine hk.imp (fun hmem => ?_) id
    obtain ⟨e, he, heq⟩ := List.mem_map.mp hmem
    split at heq
    · simp at heq
    · rwa [← heq]
  fresh hm := by
    have := List.inj_on_of_nodup_map h.nodup hm hn rfl
    simp at this
  used k := PoolOk.mem_use h.nodup hn
  ready :=
    { nodup := by rw [PoolOk.fst_use]; exact h.nodup
      lt := by rw [PoolOk.fst_use]; exact h.lt
      latch := by rw [PoolOk.fst_use]; exact h.latch }
  ty := hty
  fields := by simp
  frame := .setFields m n _

/-- The memory after an allocation. -/
def Mem.allocated (m : Mem) (ty : NodeType) : Mem :=
  { m with tree := { m.tree with
      ty := Function.update m.tree.ty m.tree.next ty
      fields := Function.update m.tree.fields m.tree.next Fields.fresh
      next := m.tree.next + 1
      tries := m.tree.tries + 1 } }

/-- A new entry is added. -/
lemma took_new (h : p.Ready m.tree) :
    Took ty m.tree.next p (p ++ [(m.tree.next, true)]) m (m.allocated ty) where
  spare := .inr le_rfl
  spared k hk := by
    refine hk.imp (fun hmem => ?_) fun hle => (Nat.le_succ _).trans hle
    simpa using hmem
  fresh hm := (h.lt _ (List.mem_map_of_mem hm)).ne rfl
  used k := by simp [or_comm]
  ready :=
    { nodup := by
        rw [List.map_append, List.nodup_append]
        refine ⟨h.nodup, by simp, fun a ha d hd => ?_⟩
        obtain rfl : d = m.tree.next := by simpa using hd
        exact (h.lt a ha).ne
      lt := fun n hn => by
        rw [List.map_append, List.mem_append] at hn
        rcases hn with hn | hn
        · exact (h.lt n hn).trans (Nat.lt_succ_self _)
        · obtain rfl : n = m.tree.next := by simpa using hn
          exact Nat.lt_succ_self _
      latch := fun n hn => by
        refine h.latch n ?_
        rcases hn with hn | hn
        · rw [List.map_append, List.mem_append] at hn
          refine hn.imp id fun hn => ?_
          obtain rfl : n = m.tree.next := by simpa using hn
          exact le_rfl
        · exact .inr ((Nat.le_succ _).trans hn) }
  ty := by simp [Mem.allocated]
  fields := by simp [Mem.allocated]
  frame :=
    { OnlyNodes.refl [m.tree.next] m with
      next := Nat.le_succ _
      tries := Nat.le_succ _
      ty := fun n hn => Function.update_of_ne (fun h => hn (List.mem_singleton.mpr h)) _ _
      fields := fun n hn => Function.update_of_ne (fun h => hn (List.mem_singleton.mpr h)) _ _ }

/-- Some attempt to allocate, from now on, finds no room. -/
def Mem.RunsOut (m : Mem) : Prop :=
  ∃ i, m.tree.tries ≤ i ∧ m.tree.full i = true

lemma OnlyNodes.runsOut {N : List NodeId} (h : OnlyNodes N m m₁) (hr : m₁.RunsOut) :
    m.RunsOut := by
  obtain ⟨i, hi, hfull⟩ := hr
  exact ⟨i, h.tries.trans hi, by rw [← h.full]; exact hfull⟩

/-- `Prepared::node`. -/
lemma alone_poolNode (ty : NodeType) (h : p.Ready m.tree) :
    ∃ r p' m', Alone t (p.node ty) m (r, p') m' ∧ (r = none → m.RunsOut) ∧
      ∀ n, r = some n → Took ty n p p' m m' := by
  obtain ⟨r, hfind, hspec⟩ := alone_poolFind (t := t) (m := m) ty p
  cases r with
  | some n =>
    obtain ⟨hmem, hty⟩ := hspec n rfl
    refine ⟨some n, p.use n, m.setFields n Fields.fresh, .bind hfind (.act (.ret _ _)), (by simp),
      fun k hk => ?_⟩
    obtain rfl := Option.some.inj hk
    exact took_use h hmem hty
  | none =>
    cases hfull : m.tree.full m.tree.tries with
    | true =>
      have hexec : exec t (.tree (.allocNode ty)) m =
          (none, { m with tree := { m.tree with tries := m.tree.tries + 1 } }) := by
        simp [exec, execTree, hfull]
      refine ⟨none, p, { m with tree := { m.tree with tries := m.tree.tries + 1 } },
        .bind hfind (.act ?_), fun _ => ⟨_, le_rfl, hfull⟩, (by simp)⟩
      rw [hexec]
      exact .ret _ _
    | false =>
      have hexec : exec t (.tree (.allocNode ty)) m =
          (some m.tree.next, m.allocated ty) := by
        simp [exec, execTree, hfull, Mem.allocated]
      refine ⟨some m.tree.next, p ++ [(m.tree.next, true)], m.allocated ty,
        .bind hfind (.act ?_), (by simp), fun k hk => ?_⟩
      · rw [hexec]
        exact .ret _ _
      · obtain rfl := Option.some.inj hk
        exact took_new h

/-! ## The nodes of a chain -/

/-- The nodes of a chain are in memory: each keeps a prefix and one child, the next one. -/
def LinksIn (m : TreeMem) : Links → NodeId → Prop
  | [], _ => True
  | (k, seg, b) :: L, bottom =>
    m.ty k = .node4 ∧ Repr .node4 (m.fields k) (link seg b (.node (topOf L bottom))) ∧
      LinksIn m L bottom

/-- The nodes of a chain, the bottom one first. -/
def nodesIn (L : Links) (bottom : NodeId) : List NodeId :=
  bottom :: L.map Prod.fst

lemma LinksIn.congr (h : LinksIn m.tree L bottom)
    (hty : ∀ k ∈ L.map Prod.fst, m'.tree.ty k = m.tree.ty k)
    (hf : ∀ k ∈ L.map Prod.fst, m'.tree.fields k = m.tree.fields k) :
    LinksIn m'.tree L bottom := by
  induction L with
  | nil => trivial
  | cons i L ih =>
    obtain ⟨k, seg, b⟩ := i
    exact ⟨(hty k (by simp)).trans h.1, by rw [hf k (by simp)]; exact h.2.1,
      ih h.2.2 (fun k' hk' => hty k' (List.mem_cons_of_mem _ hk')) fun k' hk' =>
        hf k' (List.mem_cons_of_mem _ hk')⟩

/-- A chain in the making, from the bottom up. -/
structure Made (m : Mem) (p : Pool) (L : Links) (bottom : NodeId) (c : Content) : Prop where
  ready : p.Ready m.tree
  used : ∀ k ∈ nodesIn L bottom, (k, true) ∈ p
  nodup : (nodesIn L bottom).Nodup
  links : LinksIn m.tree L bottom
  ty : m.tree.ty bottom = .node4
  repr : Repr .node4 (m.tree.fields bottom) c

lemma Pool.Ready.setFields (h : p.Ready m.tree) (n : NodeId) (F : Fields) :
    p.Ready (m.setFields n F).tree :=
  ⟨h.nodup, h.lt, h.latch⟩

/-- Another node is taken and written to, and becomes the top. -/
lemma Made.cons (h : Made m p L bottom c) (ht : Took .node4 n p p' m m₁)
    (hF : Repr .node4 F (link seg b (.node (topOf L bottom)))) :
    Made (m₁.setFields n F) p' ((n, seg, b) :: L) bottom c := by
  have hn : n ∉ nodesIn L bottom := fun hmem => ht.fresh (h.used n hmem)
  have ho : OnlyNodes [n] m (m₁.setFields n F) := ht.frame.trans (.setFields m₁ n F)
  have hne : ∀ k ∈ nodesIn L bottom, k ∉ [n] := fun k hk hmem =>
    hn (List.mem_singleton.mp hmem ▸ hk)
  have hbottom := hne bottom (by simp [nodesIn])
  refine ⟨ht.ready.setFields n F, fun k hk => ?_, ?_, ⟨ht.ty, ?_, ?_⟩, ?_, ?_⟩
  · rw [ht.used]
    have hk' : k = n ∨ k ∈ nodesIn L bottom := by
      simp only [nodesIn, List.map_cons, List.mem_cons] at hk ⊢
      tauto
    exact hk'.imp id (h.used k)
  · have hperm : nodesIn ((n, seg, b) :: L) bottom ~ n :: nodesIn L bottom :=
      List.Perm.swap n bottom _
    exact hperm.nodup_iff.mpr (List.nodup_cons.mpr ⟨hn, h.nodup⟩)
  · simpa using hF
  · exact h.links.congr (fun k hk => ho.ty k (hne k (List.mem_cons_of_mem _ hk)))
      fun k hk => ho.fields k (hne k (List.mem_cons_of_mem _ hk))
  · rw [ho.ty bottom hbottom]
    exact h.ty
  · rw [ho.fields bottom hbottom]
    exact h.repr

/-- The prefix and the child of a link. -/
lemma alone_link {s : Slot} (hs : s ≠ .null) (hseg : seg.length ≤ maxPrefixLen)
    (hty : m.tree.ty n = .node4) (hf : m.tree.fields n = Fields.fresh) :
    ∃ F₁ F, Alone t (onNode n (writePrefix seg)) m () (m.setFields n F₁) ∧
      Alone t (typed n (insertChild · b s)) (m.setFields n F₁) () (m.setFields n F) ∧
      Repr .node4 F (link seg b s) := by
  obtain ⟨F₁, hrun₁, hF₁⟩ := (Repr.fresh .node4).writePrefix hseg
  obtain ⟨F, hrun, hF⟩ := hF₁.insertChild (b := b) (s := s) rfl hs
    (by simp [Content.fresh, Content.bytes, NodeType.capacity])
  refine ⟨F₁, F, alone_onNode (by rw [hf, hrun₁]), ?_, hF⟩
  have := alone_typed (t := t) (m := m.setFields n F₁) (n := n) (a := ()) (F := F)
    (q := (insertChild · b s)) (by simpa [hty] using hrun)
  rwa [Mem.setFields_setFields] at this

/-- The loop of `build_chain` over the segments, the innermost first. -/
lemma alone_buildLinks (segs : List (List Byte × Byte))
    (hsegs : ∀ s ∈ segs, s.1.length ≤ maxPrefixLen) (h : Made m p L bottom c) :
    ∃ r p' m', Alone t (buildLinks segs p (.node (topOf L bottom))) m (r, p') m' ∧
      (r = none → m.RunsOut) ∧ ∀ s, r = some s → ∃ L₀ : Links,
        s = .node (topOf (L₀ ++ L) bottom) ∧ L₀.map Prod.snd = segs.reverse ∧
        Made m' p' (L₀ ++ L) bottom c ∧ OnlyNodes (L₀.map Prod.fst) m m' ∧
        ∀ k ∈ L₀.map Prod.fst, p.Spare m.tree k := by
  induction segs generalizing m p L with
  | nil =>
    refine ⟨some (.node (topOf L bottom)), p, m, .ret _ _, (by simp), fun s hs => ?_⟩
    exact ⟨[], (Option.some.inj hs).symm, rfl, h, .refl _ _, (by simp)⟩
  | cons i segs ih =>
    obtain ⟨seg, b⟩ := i
    obtain ⟨r, p₁, m₁, hnode, hout, htook⟩ := alone_poolNode (t := t) .node4 h.ready
    cases r with
    | none => exact ⟨none, p₁, m₁, .bind hnode (.ret _ _), fun _ => hout rfl, (by simp)⟩
    | some n =>
      have ht := htook n rfl
      obtain ⟨F₁, F, h₁, h₂, hF⟩ := alone_link (t := t) (b := b) (s := .node (topOf L bottom))
        (by simp) (hsegs (seg, b) List.mem_cons_self) ht.ty ht.fields
      have hm := h.cons ht hF
      have ho : OnlyNodes [n] m (m₁.setFields n F) := ht.frame.trans (.setFields m₁ n F)
      obtain ⟨r, p₂, m₂, hrun, hout₂, hspec⟩ :=
        ih (fun s hs => hsegs s (List.mem_cons_of_mem _ hs)) hm
      refine ⟨r, p₂, m₂, .bind hnode (.bind h₁ (.bind h₂ hrun)),
        fun hr => ho.runsOut (hout₂ hr), fun s hs => ?_⟩
      obtain ⟨L₁, rfl, hL₁, hm', ho', hspare⟩ := hspec s hs
      have happ : L₁ ++ (n, seg, b) :: L = (L₁ ++ [(n, seg, b)]) ++ L := by simp
      have hfst : (L₁ ++ [(n, seg, b)]).map Prod.fst = L₁.map Prod.fst ++ [n] := by simp
      refine ⟨L₁ ++ [(n, seg, b)], by rw [happ], by simp [hL₁], happ ▸ hm', ?_, ?_⟩
      · rw [hfst]
        exact (ho.mono fun k hk => List.mem_append_right _ hk).trans
          (ho'.mono fun k hk => List.mem_append_left _ hk)
      · intro k hk
        rw [hfst, List.mem_append] at hk
        rcases hk with hk | hk
        · exact ht.spared k (hspare k hk)
        · rw [List.mem_singleton.mp hk]
          exact ht.spare

/-! ## The fork -/

/-- A leaf goes to the bottom of a chain, below its prefix. -/
lemma alone_forkLeaf (suffix : List Byte) (common : ℕ) (l : Leaf)
    (h : Repr (m.tree.ty n) (m.tree.fields n) c) (hslot : c.slotAt (suffix.drop common) = .null)
    (hroom : (Content.bytes c.child).card < (m.tree.ty n).capacity) :
    ∃ F, Alone t (forkLeaf n suffix common (.leaf l)) m () (m.setFields n F) ∧
      Repr (m.tree.ty n) F (c.setAt (suffix.drop common) (some l)) := by
  unfold forkLeaf
  cases hs : suffix[common]? with
  | none =>
    have hd : suffix.drop common = [] := by
      rw [List.drop_eq_nil_iff]
      exact List.getElem?_eq_none_iff.mp hs
    obtain ⟨F, hrun, hF⟩ := h.setExactLeaf (some l)
    rw [hd]
    exact ⟨F, alone_onNode hrun, hF⟩
  | some y =>
    have hd : suffix.drop common = y :: suffix.drop (common + 1) := by
      obtain ⟨hlt, hget⟩ := List.getElem?_eq_some_iff.mp hs
      rw [← hget, List.getElem_cons_drop]
    rw [hd] at hslot ⊢
    obtain ⟨F, hrun, hF⟩ := h.insertChild (s := .leaf l) hslot (by simp) hroom
    exact ⟨F, alone_typed hrun, hF⟩

/-- What the bottom of a chain holds: the two leaves, below the last piece of the prefix. -/
def fork (pre es ns : List Byte) (old l : Leaf) : Content :=
  (lone pre es old).setAt ns (some l)

/-- `build_chain`. -/
lemma alone_buildChain (pre : List Byte) {es ns : List Byte} (old l : Leaf) {common : ℕ}
    (h : p.Ready m.tree) (hhead : (es.drop common).head? ≠ (ns.drop common).head?) :
    ∃ r p' m', Alone t (buildChain p pre (es, .leaf old) (ns, .leaf l) common) m (r, p') m' ∧
      (r = none → m.RunsOut) ∧
      ∀ top bottom, r = some (top, bottom) → ∃ (L : Links) (rest : List Byte),
        top = .node (topOf L bottom) ∧ L.map Prod.snd = (segments pre.length pre).1 ∧
        along L ++ rest = pre ∧
        Made m' p' L bottom (fork rest (es.drop common) (ns.drop common) old l) ∧
        OnlyNodes (nodesIn L bottom) m m' ∧ ∀ k ∈ nodesIn L bottom, p.Spare m.tree k := by
  obtain ⟨hspell, hsegs, hrest⟩ := segments_spec pre.length pre le_rfl
  unfold buildChain
  set segs := (segments pre.length pre).1 with hsegsEq
  set rest := (segments pre.length pre).2 with hrestEq
  have hsplit : segments pre.length pre = (segs, rest) := rfl
  obtain ⟨r, p₁, m₁, hnode, hout, htook⟩ := alone_poolNode (t := t) .node4 h
  simp only [hsplit]
  cases r with
  | none => exact ⟨none, p₁, m₁, .bind hnode (.ret _ _), fun _ => hout rfl, (by simp)⟩
  | some bottom =>
    have ht := htook bottom rfl
    -- The prefix, the first leaf and the second one are written to the bottom node.
    obtain ⟨F₁, hrun₁, hF₁⟩ := (Repr.fresh .node4).writePrefix hrest
    have h₁ : Alone t (onNode bottom (writePrefix rest)) m₁ () (m₁.setFields bottom F₁) :=
      alone_onNode (by rw [ht.fields, hrun₁])
    have hset : ∀ F, (m₁.setFields bottom F).tree.ty bottom = .node4 ∧
        (m₁.setFields bottom F).tree.fields bottom = F := fun F =>
      ⟨ht.ty, by simp⟩
    obtain ⟨F₂, h₂, hF₂⟩ := alone_forkLeaf (t := t) (m := m₁.setFields bottom F₁) es common old
      (by rw [(hset F₁).1, (hset F₁).2]; exact hF₁) (by cases es.drop common <;> rfl)
      (by rw [(hset F₁).1]; simp [Content.fresh, Content.bytes, NodeType.capacity])
    rw [(hset F₁).1, ← Client.lone_eq] at hF₂
    rw [Mem.setFields_setFields] at h₂
    have hcard := Client.card_lone rest (es.drop common) old
    obtain ⟨F₃, h₃, hF₃⟩ := alone_forkLeaf (t := t) (m := m₁.setFields bottom F₂) ns common l
      (by rw [(hset F₂).1, (hset F₂).2]; exact hF₂) (Client.lone_slotAt hhead)
      (by rw [(hset F₂).1]; simp only [NodeType.capacity]; omega)
    rw [(hset F₂).1] at hF₃
    rw [Mem.setFields_setFields] at h₃
    have ho : OnlyNodes [bottom] m (m₁.setFields bottom F₃) :=
      ht.frame.trans (.setFields m₁ bottom F₃)
    have hm : Made (m₁.setFields bottom F₃) p₁ [] bottom
        (fork rest (es.drop common) (ns.drop common) old l) :=
      ⟨ht.ready.setFields bottom F₃,
        fun k hk => (ht.used k).mpr (.inl (by simpa [nodesIn] using hk)), by simp [nodesIn],
        trivial, (hset F₃).1, by rw [(hset F₃).2]; exact hF₃⟩
    obtain ⟨r, p₂, m₂, hrun, hout₂, hspec⟩ := alone_buildLinks (t := t) segs.reverse
      (fun s hs => hsegs s (List.mem_reverse.mp hs)) hm
    refine ⟨r.map fun top => (top, bottom), p₂, m₂,
      .bind hnode (.bind h₁ (.bind h₂ (.bind h₃ (.bind hrun (.ret _ _))))),
      fun hr => ho.runsOut (hout₂ (Option.map_eq_none_iff.mp hr)), fun top bot hs => ?_⟩
    obtain ⟨top', rfl, htop⟩ := Option.map_eq_some_iff.mp hs
    obtain ⟨rfl, rfl⟩ : top' = top ∧ bottom = bot := by simpa using htop
    obtain ⟨L, rfl, hL, hmade, ho', hspare⟩ := hspec top' rfl
    rw [List.append_nil] at hmade ⊢
    rw [List.reverse_reverse] at hL
    refine ⟨L, rest, rfl, hL, ?_, hmade, ?_, fun k hk => ?_⟩
    · rw [← spell_map, hL]
      exact hspell
    · exact (ho.mono fun k hk => List.mem_cons.mpr (.inl (List.mem_singleton.mp hk))).trans
        (ho'.mono fun k hk => List.mem_cons_of_mem _ hk)
    · rcases List.mem_cons.mp hk with rfl | hk
      · exact ht.spare
      · exact ht.spared k (hspare k hk)

/-! ## Lookups -/

variable {key : Key} {parent : Option (NodeId × ℕ)} {d : ℕ}

/-- What a lookup does with the slot that it finds at the end of a node. -/
def levelOf (key : Key) (n d : ℕ) : Slot →
    (NodeId × Option (NodeId × ℕ) × ℕ) ⊕ Option (Option Leaf)
  | .node k => .inl (k, some (n, 0), d + 1)
  | .null => .inr (some none)
  | .leaf l => .inr (some (if l.key = key then some l else none))

/-- One level of a lookup whose key goes on with the prefix of the node. -/
lemma alone_getLevel_on (h : Repr (m.tree.ty n) (m.tree.fields n) c)
    (hlatch : m.tree.latch (.node n) = 0) (hlink : Alone t (stillLinked parent n) m true m)
    {y : List Byte} (hkey : key.drop d = c.pre ++ y) (hd : d ≤ key.length) :
    Alone t (getLevel key (n, parent, d)) m
      (levelOf key n (d + c.pre.length) (c.slotAt y)) m := by
  obtain ⟨pre, hpre, hof⟩ := h.run_loadPrefix
  have hon : pre.isPrefixOf (key.drop d) = true :=
    (hof.isPrefixOf_iff _).mpr (hkey ▸ List.prefix_append _ _)
  have hlen : (key.drop d).length = c.pre.length + y.length := by rw [hkey, List.length_append]
  rw [List.length_drop] at hlen
  have hvalid : Alone t (validate (.node n) 0) m true m := alone_validate hlatch
  have hslot : Alone t (slotFor n key (d + c.pre.length)) m (c.slotAt y) m := by
    unfold slotFor
    cases y with
    | nil =>
      rw [if_pos (by simp at hlen; omega)]
      exact alone_onNode_read h.run_exactLeaf
    | cons b y =>
      have hget : key[d + c.pre.length]? = some b := by
        rw [← List.getElem?_drop, hkey, List.getElem?_append_right le_rfl, Nat.sub_self]
        rfl
      rw [if_neg (by simp at hlen; omega), hget]
      exact alone_typed_read (h.run_findChild b)
  refine .bind (alone_readVersion hlatch) (.bind hlink (.bind (alone_onNode_read hpre) ?_))
  rw [hon]
  refine .bind (b := c.slotAt y) (by rw [hof.len]; exact hslot) ?_
  rw [hof.len]
  cases c.slotAt y with
  | null => exact .bind hvalid (.ret _ _)
  | leaf l => exact .bind hvalid (.ret _ _)
  | node k => exact .ret _ _

/-- One level of a lookup whose key leaves the path within the prefix of the node. -/
lemma alone_getLevel_off (h : Repr (m.tree.ty n) (m.tree.fields n) c)
    (hlatch : m.tree.latch (.node n) = 0) (hlink : Alone t (stillLinked parent n) m true m)
    (hkey : ¬ c.pre <+: key.drop d) :
    Alone t (getLevel key (n, parent, d)) m (.inr (some none)) m := by
  obtain ⟨pre, hpre, hof⟩ := h.run_loadPrefix
  have hoff : pre.isPrefixOf (key.drop d) = false := by
    rw [← Bool.not_eq_true, hof.isPrefixOf_iff]
    exact hkey
  refine .bind (alone_readVersion hlatch) (.bind hlink (.bind (alone_onNode_read hpre) ?_))
  rw [hoff]
  exact .bind (alone_validate hlatch) (.ret _ _)

/-- What a key finds that goes on with `y` above a bottom node, at the end of the bytes `pre`. -/
def foundAt (c : Content) (pre : List Byte) (key : Key) (y : List Byte) : Option Leaf :=
  if pre ++ c.pre <+: y then (c.slotAt (y.drop (pre ++ c.pre).length)).map key else none

lemma slotAt_link {s : Slot} (z : List Byte) :
    (link seg b s).slotAt z = if z.head? = some b then s else .null := by
  cases z with
  | nil => rfl
  | cons b' z =>
    by_cases hb : b' = b
    · simp [link, Content.slotAt, hb]
    · simp [link, Content.slotAt, hb]

/-- A lookup goes down a chain. -/
lemma alone_descend (hl : LinksIn m.tree L bottom) (hty : m.tree.ty bottom = .node4)
    (hr : Repr .node4 (m.tree.fields bottom) c)
    (hlatch : ∀ k ∈ nodesIn L bottom, m.tree.latch (.node k) = 0)
    (hleaf : ∀ z k, c.slotAt z ≠ .node k) {q y : List Byte} (hkey : key = q ++ y)
    (hlink : Alone t (stillLinked parent (topOf L bottom)) m true m) :
    Alone t (Prog.iter (getLevel key) (topOf L bottom, parent, q.length)) m
      (some (foundAt c (along L) key y)) m := by
  have hdrop : ∀ {q y : List Byte}, key = q ++ y → key.drop q.length = y ∧
      q.length ≤ key.length := fun h => by
    rw [h, List.drop_left, List.length_append]
    exact ⟨rfl, Nat.le_add_right _ _⟩
  induction L generalizing q y parent with
  | nil =>
    have hb := hlatch bottom (by simp [nodesIn])
    have hr' : Repr (m.tree.ty bottom) (m.tree.fields bottom) c := by
      rw [hty]
      exact hr
    obtain ⟨hy, hle⟩ := hdrop hkey
    refine .done ?_
    unfold foundAt
    by_cases hp : c.pre <+: y
    · obtain ⟨z, rfl⟩ := hp
      have hlevel := alone_getLevel_on hr' hb hlink hy hle
      rw [if_pos (by simp [along])]
      simp only [along, List.nil_append, List.drop_left]
      cases hs : c.slotAt z with
      | null =>
        rw [hs] at hlevel
        exact hlevel
      | leaf l =>
        have heq : (if l.key = key then some l else none) = (Slot.leaf l).map key := by
          simp only [Slot.map, eq_comm]
        rw [hs] at hlevel
        rw [← heq]
        exact hlevel
      | node k => exact absurd hs (hleaf z k)
    · rw [if_neg (by simpa [along] using hp)]
      exact alone_getLevel_off hr' hb hlink (by rwa [hy])
  | cons i L ih =>
    obtain ⟨k, seg, b⟩ := i
    have hk := hlatch k (by simp [nodesIn])
    have hr' : Repr (m.tree.ty k) (m.tree.fields k) (link seg b (.node (topOf L bottom))) := by
      rw [hl.1]
      exact hl.2.1
    obtain ⟨hy, hle⟩ := hdrop hkey
    by_cases hp : seg <+: y
    · obtain ⟨z, rfl⟩ := hp
      have hlevel := alone_getLevel_on hr' hk hlink hy hle
      rw [slotAt_link] at hlevel
      have hpre : ∀ z', along ((k, seg, b) :: L) ++ c.pre <+: seg ++ z' ↔
          b :: (along L ++ c.pre) <+: z' := fun z' => by
        simp only [along, List.append_assoc, List.cons_append, List.prefix_append_right_inj]
      by_cases hz : z.head? = some b
      · -- The branch byte matches: one node down.
        obtain ⟨z', rfl⟩ : ∃ z', z = b :: z' := by
          cases z with
          | nil => simp at hz
          | cons b' z' => exact ⟨z', by simpa using hz⟩
        rw [if_pos hz] at hlevel
        have hkey' : key = (q ++ seg ++ [b]) ++ z' := by simp [hkey]
        have hlen : (q ++ seg ++ [b]).length = q.length + seg.length + 1 := by
          simp [Nat.add_assoc]
        have hlinked : Alone t (stillLinked (some (k, 0)) (topOf L bottom)) m true m :=
          alone_validate hk
        have hnext := ih hl.2.2 (fun j hj => hlatch j (by
          simp only [nodesIn, List.map_cons, List.mem_cons] at hj ⊢
          tauto)) hkey' hlinked
        rw [hlen] at hnext
        have hfound : foundAt c (along ((k, seg, b) :: L)) key (seg ++ b :: z') =
            foundAt c (along L) key z' := by
          unfold foundAt
          simp only [hpre, List.cons_prefix_cons, true_and]
          have hd : (seg ++ b :: z').drop (along ((k, seg, b) :: L) ++ c.pre).length =
              z'.drop (along L ++ c.pre).length := by
            have : (along ((k, seg, b) :: L) ++ c.pre).length =
                seg.length + ((along L ++ c.pre).length + 1) := by
              simp [along]
            rw [this, List.drop_append, Nat.add_sub_cancel_left]
            simp
          rw [hd]
        rw [hfound]
        exact .again hlevel hnext
      · rw [if_neg hz] at hlevel
        have hno : ¬ along ((k, seg, b) :: L) ++ c.pre <+: seg ++ z := by
          rw [hpre]
          rintro ⟨w, rfl⟩
          exact hz rfl
        unfold foundAt
        rw [if_neg hno]
        exact .done hlevel
    · have hno : ¬ along ((k, seg, b) :: L) ++ c.pre <+: y := fun h => by
        refine hp (List.IsPrefix.trans ?_ h)
        rw [along, List.append_assoc]
        exact List.prefix_append _ _
      unfold foundAt
      rw [if_neg hno]
      exact .done (alone_getLevel_off hr' hk hlink (by rwa [hy]))

/-! ## The two leaves -/

variable {pre es ns : List Byte} {old l : Leaf}

/-- A fork holds a leaf for each of the two ways to go on. -/
lemma slotAt_fork (h : es.head? ≠ ns.head?) (z : List Byte) :
    (fork pre es ns old l).slotAt z = if z.head? = ns.head? then .leaf l
      else if z.head? = es.head? then .leaf old else .null := by
  unfold fork
  rw [Client.lone_eq]
  cases z <;> cases ns <;> cases es <;>
    simp_all [Content.setAt, Content.slotAt, Content.fresh, Slot.ofOption, Function.update_apply]

/-- A leaf in an empty slot is one more entry. -/
lemma entries_setAt {z : List Byte} (h : c.slotAt z = .null) :
    (c.setAt z (some l)).entries = c.entries + 1 := by
  cases z with
  | nil =>
    have hex : c.exact = none := ofOption_eq_null.mp h
    simp [Content.setAt, Content.entries, hex]
  | cons b z =>
    have hcard := card_setChild (c := c) (b := b) h (s := .leaf l) (by simp)
    simp only [Content.setAt, Content.entries, Content.setChild_child, Content.setChild_exact,
      Slot.ofOption, hcard]
    exact Nat.add_right_comm _ _ _

lemma entries_fork (h : es.head? ≠ ns.head?) : (fork pre es ns old l).entries = 2 := by
  unfold fork
  rw [entries_setAt (Client.lone_slotAt h), Client.lone_eq, entries_setAt (by cases es <;> rfl)]
  simp [Content.entries, Content.fresh, Content.bytes]

/-- The leaf of a key whose suffix is `suffix`, at a node that is reached after `n` bytes of it: the
exact leaf if the key ends there, otherwise a child. -/
def Content.HeldAt (c : Content) (suffix : List Byte) (n : ℕ) (l : Leaf) : Prop :=
  match suffix[n]? with
  | none => c.exact = some l
  | some b => c.child b = .leaf l

lemma heldAt_of_slotAt {suffix : List Byte} {k : ℕ}
    (h : c.slotAt (suffix.drop k) = .leaf l) : c.HeldAt suffix k l := by
  unfold Content.HeldAt
  cases hs : suffix[k]? with
  | none =>
    rw [List.drop_eq_nil_iff.mpr (List.getElem?_eq_none_iff.mp hs)] at h
    cases hex : c.exact with
    | none => simp [Content.slotAt, hex, Slot.ofOption] at h
    | some l' => simpa [Content.slotAt, hex, Slot.ofOption] using h
  | some b =>
    obtain ⟨hlt, hget⟩ := List.getElem?_eq_some_iff.mp hs
    rw [← List.getElem_cons_drop hlt, hget] at h
    exact h

/-- What a lookup finds below a fork at the end of what two keys have in common. -/
lemma foundAt_fork {path a b x pre rest : List Byte} {la lb : Leaf} (hab : a ≠ b)
    (hla : la.key = path ++ a) (hlb : lb.key = path ++ b)
    (hpre : pre ++ rest = a.take (commonPrefix a b)) :
    foundAt (fork rest (a.drop (commonPrefix a b)) (b.drop (commonPrefix a b)) la lb) pre
      (path ++ x) x = if x = a then some la else if x = b then some lb else none := by
  have hhead := (commonPrefix_head a b).resolve_right hab
  have htake := commonPrefix_take a b
  set n := commonPrefix a b with hn
  have hcpre : (fork rest (a.drop n) (b.drop n) la lb).pre = rest := by
    unfold fork
    rw [Client.lone_eq, Content.setAt_pre, Content.setAt_pre]
  unfold foundAt
  rw [hcpre, hpre]
  split_ifs with hp hxa hxb hxa hxb
  · -- The key of `a` goes on to the slot of its leaf.
    have hlen : (a.take n).length = n := by simp [(commonPrefix_le a b).1, hn]
    rw [slotAt_fork hhead, hxa, hlen, if_neg hhead, if_pos rfl, Slot.map, if_pos hla.symm]
  · have hlen : (a.take n).length = n := by simp [(commonPrefix_le a b).1, hn]
    rw [slotAt_fork hhead, hxb, hlen, if_pos rfl, Slot.map, if_pos hlb.symm]
  · -- Any other key is not the key of the leaf that it finds.
    have hna : path ++ x ≠ la.key := by simpa [hla] using hxa
    have hnb : path ++ x ≠ lb.key := by simpa [hlb] using hxb
    rw [slotAt_fork hhead]
    split_ifs <;> simp [Slot.map, hna, hnb]
  · exact absurd (hxa ▸ List.take_prefix _ _) hp
  · exact absurd (hxb ▸ htake ▸ List.take_prefix _ _) hp
  · rfl

/-- The memory in which the root points to `s`. -/
def Mem.setRoot (m : Mem) (s : Slot) : Mem :=
  { m with tree := { m.tree with root := s } }

/-- **The chain of a split.**  For two keys that differ below a path, `build_chain` makes, unless
the arena runs out, a chain of `n / 17 + 1` small nodes, where `n` is the number of bytes that
they have in common below the path.  The nodes are spare ones and nothing else is written.  Their
prefixes are short, and with the branch bytes spell what the keys have in common; the bottom node
holds both leaves, `n` bytes down, and nothing else.  A lookup that descends from the top, however
that is linked, finds either leaf by its key, and nothing by any other. -/
theorem build_chain_finds (t : ℕ) (m : Mem) (prep : Pool) (hprep : prep.Ready m.tree)
    (path a b : List Byte) (hab : a ≠ b) (la lb : Leaf) (hla : la.key = path ++ a)
    (hlb : lb.key = path ++ b) :
    let n := commonPrefix a b
    ∃ r prep' m',
      Alone t (buildChain prep (a.take n) (a, .leaf la) (b, .leaf lb) n) m (r, prep') m' ∧
      (r = none → m.RunsOut) ∧
      ∀ top bottom, r = some (top, bottom) → ∃ (L : Links) (c : Content),
        top = .node (topOf L bottom) ∧ L.length = n / 17 ∧ (nodesIn L bottom).Nodup ∧
        (∀ k ∈ nodesIn L bottom, prep.Spare m.tree k) ∧ OnlyNodes (nodesIn L bottom) m m' ∧
        LinksIn m'.tree L bottom ∧ m'.tree.ty bottom = .node4 ∧
        Repr .node4 (m'.tree.fields bottom) c ∧
        (∀ i ∈ L, i.2.1.length ≤ maxPrefixLen) ∧ c.pre.length ≤ maxPrefixLen ∧
        along L ++ c.pre = a.take n ∧ along L ++ c.pre = b.take n ∧
        c.HeldAt a n la ∧ c.HeldAt b n lb ∧ c.entries = 2 ∧
        ∀ s, let M := m'.setRoot s
          (∀ parent, Alone t (stillLinked parent (topOf L bottom)) M true M → ∀ x,
            Alone t (Prog.iter (getLevel (path ++ x)) (topOf L bottom, parent, path.length)) M
              (some (if x = a then some la else if x = b then some lb else none)) M) ∧
          (path = [] → s = top → ∀ x, Alone t (get x) M
            (if x = a then some la else if x = b then some lb else none) M) := by
  intro n
  have hhead := (commonPrefix_head a b).resolve_right hab
  obtain ⟨r, prep', m', hrun, hout, hspec⟩ :=
    alone_buildChain (t := t) (a.take n) la lb hprep hhead
  refine ⟨r, prep', m', hrun, hout, fun top bottom hr => ?_⟩
  obtain ⟨L, rest, rfl, hL, hspell, hm, ho, hspare⟩ := hspec top bottom hr
  set c := fork rest (a.drop n) (b.drop n) la lb with hc
  have hcpre : c.pre = rest := by
    rw [hc, fork, Client.lone_eq, Content.setAt_pre, Content.setAt_pre]
  have hlen : (a.take n).length = n := by simp [(commonPrefix_le a b).1, n]
  have hsa : c.slotAt (a.drop n) = .leaf la := by
    rw [hc, slotAt_fork hhead, if_neg hhead, if_pos rfl]
  have hsb : c.slotAt (b.drop n) = .leaf lb := by
    rw [hc, slotAt_fork hhead, if_pos rfl]
  have hcount : L.length = n / 17 := by
    rw [← List.length_map (f := Prod.snd), hL, length_segments _ _ le_rfl, hlen]
  have hshort : ∀ i ∈ L, i.2.1.length ≤ maxPrefixLen := by
    intro i hi
    have hmem : i.2 ∈ (segments (a.take n).length (a.take n)).1 := hL ▸ List.mem_map_of_mem hi
    exact (segments_spec _ _ le_rfl).2.1 _ hmem
  refine ⟨L, c, rfl, hcount, hm.nodup, hspare, ho, hm.links, hm.ty, hm.repr, hshort,
    hm.repr.pre_fits, hcpre ▸ hspell, hcpre ▸ hspell.trans (commonPrefix_take a b),
    heldAt_of_slotAt hsa, heldAt_of_slotAt hsb, entries_fork hhead, fun s => ?_⟩
  have hlatch : ∀ k ∈ nodesIn L bottom, (m'.setRoot s).tree.latch (.node k) = 0 := fun k hk =>
    hm.ready.latch k (.inl (List.mem_map_of_mem (hm.used k hk)))
  have hleaf : ∀ z k, c.slotAt z ≠ .node k := by
    intro z k
    rw [hc, slotAt_fork hhead]
    split_ifs <;> simp
  have hdescend : ∀ parent, Alone t (stillLinked parent (topOf L bottom)) (m'.setRoot s) true
      (m'.setRoot s) → ∀ x, Alone t (Prog.iter (getLevel (path ++ x))
        (topOf L bottom, parent, path.length)) (m'.setRoot s)
        (some (if x = a then some la else if x = b then some lb else none)) (m'.setRoot s) := by
    intro parent hlink x
    rw [← foundAt_fork hab hla hlb hspell]
    exact alone_descend (m := m'.setRoot s) (hm.links.congr (fun _ _ => rfl) fun _ _ => rfl) hm.ty
      hm.repr hlatch hleaf rfl hlink
  refine ⟨hdescend, fun hpath hs x => ?_⟩
  subst hs hpath
  have hlink : Alone t (stillLinked none (topOf L bottom))
      (m'.setRoot (.node (topOf L bottom))) true (m'.setRoot (.node (topOf L bottom))) := by
    refine .act ?_
    show Prog.Alone _ (.ret (decide (Slot.node (topOf L bottom) = .node (topOf L bottom)))) _ true _
    rw [decide_eq_true rfl]
    exact .ret _ _
  have hget := hdescend none hlink x
  exact .done (.bind (.perform _ _) (.bind hget (.ret _ _)))

/-- Two keys of which one ends after twenty bytes and the other goes on, in an empty memory: the
chain has two nodes. -/
theorem build_chain_finds_pair : ∃ (L : Links) (bottom : NodeId) (prep' : Pool) (m' : Mem),
    Alone 0 (buildChain [] (List.replicate 20 7)
      (List.replicate 20 7, .leaf ⟨0, List.replicate 20 7⟩)
      (List.replicate 20 7 ++ [8], .leaf ⟨1, List.replicate 20 7 ++ [8]⟩) 20) Mem.empty
      (some (.node (topOf L bottom), bottom), prep') m' ∧
    (nodesIn L bottom).length = 2 ∧
    Alone 0 (get (List.replicate 20 7)) (m'.setRoot (.node (topOf L bottom)))
      (some ⟨0, List.replicate 20 7⟩) (m'.setRoot (.node (topOf L bottom))) ∧
    Alone 0 (get (List.replicate 20 7 ++ [9])) (m'.setRoot (.node (topOf L bottom))) none
      (m'.setRoot (.node (topOf L bottom))) := by
  obtain ⟨r, prep', m', h, hout, hspec⟩ := build_chain_finds 0 Mem.empty []
    ⟨by simp, by simp, fun _ _ => rfl⟩ [] (List.replicate 20 7) (List.replicate 20 7 ++ [8])
    (by decide) ⟨0, List.replicate 20 7⟩ ⟨1, List.replicate 20 7 ++ [8]⟩ rfl rfl
  cases r with
  | none =>
    obtain ⟨i, -, hi⟩ := hout rfl
    cases hi
  | some r =>
    obtain ⟨top, bottom⟩ := r
    obtain ⟨L, c, rfl, hlen, -, -, -, -, -, -, -, -, -, -, -, -, -, hfind⟩ := hspec top bottom rfl
    refine ⟨L, bottom, prep', m', h, ?_, (hfind _).2 rfl rfl (List.replicate 20 7),
      (hfind _).2 rfl rfl (List.replicate 20 7 ++ [9])⟩
    rw [nodesIn, List.length_cons, List.length_map, hlen]
    decide

end Artmap
