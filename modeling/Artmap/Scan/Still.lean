import Artmap.Alone.Memory
import Artmap.Scan.Moves
import Artmap.Shadow.Depict

/-!
# Scans of a tree at rest

Where no call is in progress, no version changes under a cursor: every check of it holds, it seeks
once, and each of its steps comes to an end.  What a node shows of the map is then what the tree
maps, so the invariant of an end holds with the keys and the leaves of the tree for what is gone
and what is there.

A step ends because the frames grow lighter (`heft`): a frame weighs more than all the frames that
can stand on top of it once it has moved on.
-/

namespace Artmap

open scoped List

/-! ## What a node shows of the map -/

namespace Forest

variable {F : Forest} {s : Sight} {n : NodeId} {k : Key} {l : Leaf}

lemma WF.absent (hF : F.WF) (hp : F.place n = some (s.epoch, s.path)) (hc : F.cont n = s.cont)
    (h : s.Absent k) : F.map s.epoch k = none := by
  have hpre : s.path ++ F.pre n = s.base := by
    rw [Forest.pre, hc]
    rfl
  obtain ⟨hpath, hoff | ⟨rfl, hexact⟩ | ⟨b, hb, hslot⟩⟩ := h
  · exact (hF.node hp).off k hpath (by rwa [hpre])
  · have := (hF.node hp).exact
    rwa [hpre, hc, hexact] at this
  · have hat := at_child hp b
    rw [hpre] at hat
    have hs : F.slot (.child n b) = s.cont.child b := by
      show (F.cont n).child b = _
      rw [hc]
    rw [hF.map_slot hat (fun c => ?_) hb, hs]
    · rcases hslot with hnull | ⟨l, hl, hne⟩
      · rw [hnull]
        rfl
      · rw [hl]
        exact if_neg hne.symm
    · rw [hs]
      rcases hslot with hnull | ⟨l, hl, -⟩
      · simp [hnull]
      · simp [hl]

lemma WF.keyed (hF : F.WF) (hp : F.place n = some (s.epoch, s.path)) (hc : F.cont n = s.cont) :
    s.Keyed := by
  have hpre : s.path ++ F.pre n = s.base := by
    rw [Forest.pre, hc]
    rfl
  constructor
  · intro l hl
    have := (hF.node hp).exact
    rw [hpre, hc, hl] at this
    exact hF.key this
  · intro b l hl
    have hat := at_child hp b
    rw [hpre] at hat
    have hslot : F.slot (.child n b) = .leaf l := by
      show (F.cont n).child b = _
      rw [hc, hl]
    have := hF.holds hat
    rw [hslot] at this
    exact this.1

lemma WF.present (hF : F.WF) (hp : F.place n = some (s.epoch, s.path)) (hc : F.cont n = s.cont)
    (h : s.Present l) : F.map s.epoch l.key = some l := by
  have hpre : s.path ++ F.pre n = s.base := by
    rw [Forest.pre, hc]
    rfl
  rcases h with hl | ⟨b, hl⟩
  · have := (hF.node hp).exact
    rw [hpre, hc, hl] at this
    rwa [(hF.keyed hp hc).exact l hl]
  · have hat := at_child hp b
    have hslot : F.slot (.child n b) = .leaf l := by
      show (F.cont n).child b = _
      rw [hc, hl]
    have := hF.holds hat
    rw [hslot] at this
    rw [this.2 l.key this.1, if_pos rfl]

end Forest

/-! ## Memories at rest -/

/-- A memory that stands for a forest, with the tree of epoch `e`, none of whose latches is held;
no path of a node is longer than `D`. -/
structure Still (m : Mem) (F : Forest) (e D : ℕ) : Prop where
  depicts : Depicts m.tree F e
  free : ∀ n p, F.place n = some (e, p) → Free (m.tree.latch (.node n))
  deep : ∀ n p, F.place n = some (e, p) → p.length ≤ D

/-- A node as it is in a tree. -/
def Mem.sight (m : Mem) (F : Forest) (e : ℕ) (n : NodeId) (p : List Byte) : Sight :=
  ⟨m.tree.latch (.node n), m.tree.ty n, F.cont n, e, p⟩

/-- A frame of a node of the tree, with the version that the node has. -/
structure Rests (m : Mem) (F : Forest) (e : ℕ) (g : Frame × Sight) : Prop where
  place : F.place g.1.node = some (e, g.2.path)
  sight : g.2 = m.sight F e g.1.node g.2.path
  version : m.tree.latch (.node g.1.node) = g.1.version

/-- `Stands`, in a tree that does not change. -/
abbrev StandsIn (F : Forest) (e : ℕ) (d : Dir) (near : Bound Key) (due : List Leaf)
    (frames : List (Frame × Sight)) : Prop :=
  Stands d near (fun k => F.map e k = none) (fun l => F.map e l.key = some l) due frames

/-- Where an end of a cursor stands in a memory at rest. -/
def Poised (m : Mem) (F : Forest) (e : ℕ) (d : Dir) (near : Bound Key) (due : List Leaf)
    (stack : List Frame) : Prop :=
  ∃ frames : List (Frame × Sight), stack = frames.map Prod.fst ∧
    (∀ g, g ∈ frames → Rests m F e g) ∧ StandsIn F e d near due frames

section Still

variable {t : ℕ} {m : Mem} {F : Forest} {e D : ℕ} {n c : NodeId} {p : List Byte} {b : Byte}
  {d : Dir} {near : Bound Key} {frames : List (Frame × Sight)} {f : Frame} {s : Sight} {l : Leaf}
  {k key : Key} {next : ℤ}

/-! ## Reads -/

lemma alone_version (h : Free (m.tree.latch (.node n))) :
    Alone t (readVersion (.node n)) m (some (m.tree.latch (.node n))) m := by
  refine .act ?_
  show Prog.Alone _ (.ret (if m.tree.latch (.node n) &&& (lockBit ||| obsoleteBit) = 0 then
    some (m.tree.latch (.node n)) else none)) m _ m
  rw [if_pos ((word_free_iff _).mpr h)]
  exact .ret _ _

namespace Rests

variable (h : Rests m F e (f, s))
include h

lemma cont : F.cont f.node = s.cont :=
  (congrArg Sight.cont h.sight).symm

lemma epoch : s.epoch = e :=
  congrArg Sight.epoch h.sight

lemma placed : F.place f.node = some (s.epoch, s.path) := by
  rw [h.epoch]
  exact h.place

variable (hm : Still m F e D)
include hm

lemma repr : Repr (m.tree.ty f.node) (m.tree.fields f.node) s.cont := by
  rw [← h.cont]
  exact hm.depicts.repr h.place (hm.free _ _ h.place)

lemma absent (hk : s.Absent k) : F.map e k = none := by
  have := hm.depicts.wf.absent (h.placed) (h.cont) hk
  rwa [h.epoch] at this

lemma present (hl : s.Present l) : F.map e l.key = some l := by
  have := hm.depicts.wf.present (h.placed) (h.cont) hl
  rwa [h.epoch] at this

lemma keyed : s.Keyed :=
  hm.depicts.wf.keyed (h.placed) (h.cont)

lemma alone_childFrom (d : Dir) (next : ℤ) :
    Alone t (Cursor.childFrom d f.node next) m (childOf d s.cont.child next) m := by
  cases d with
  | forward =>
    simp only [Cursor.childFrom, childOf]
    split_ifs
    · exact alone_typed_read (q := (nextChild · _)) ((h.repr hm).run_nextChild _)
    · exact .ret _ _
  | backward =>
    simp only [Cursor.childFrom, childOf]
    split_ifs
    · exact alone_typed_read (q := (prevChild · _)) ((h.repr hm).run_prevChild _)
    · exact .ret _ _

/-- The loop over the children. -/
lemma alone_gather (d : Dir) (fuel : ℕ) (leaves : List Leaf) (hfits : d.Fits next) :
    Alone t (Cursor.gather d f.node fuel leaves next) m
      (gatherOf d s.cont.child fuel leaves next) m := by
  induction fuel generalizing leaves next with
  | zero => exact .ret _ _
  | succ fuel ih =>
    refine .bind (h.alone_childFrom hm d next) ?_
    rw [gatherOf]
    cases hc : childOf d s.cont.child next with
    | none => exact .ret _ _
    | some a =>
      obtain ⟨b, sl⟩ := a
      cases sl with
      | null => exact absurd rfl (childOf_some hfits hc).2.2.1
      | leaf l => exact ih (leaves ++ [l]) Dir.fits_after
      | node c =>
        show Alone t (if leaves = [] then _ else _) m (if leaves = [] then _ else _) m
        split_ifs
        · exact .ret _ _
        · exact .ret _ _

end Rests

/-- The frame of a node that has been read. -/
lemma rests_of (hn : F.place n = some (e, p)) (hf : f.node = n)
    (hv : f.version = m.tree.latch (.node n)) : Rests m F e (f, m.sight F e n p) := by
  subst hf
  exact ⟨hn, rfl, hv.symm⟩

/-- A child of a node. -/
lemma Rests.child (hm : Still m F e D) (h : Rests m F e (f, s)) (hb : s.cont.child b = .node c) :
    F.place c = some (e, s.base ++ [b]) := by
  have hat := Forest.at_child h.place b
  have hbase : s.path ++ F.pre f.node = s.base := by
    rw [Forest.pre, h.cont]
    rfl
  rw [hbase] at hat
  refine hm.depicts.wf.place_of_slot hat ?_
  show (F.cont f.node).child b = _
  rw [h.cont, hb]

/-! ## Seeking -/

lemma Poised.push (hframes : ∀ g, g ∈ frames → Rests m F e g) (hf : Rests m F e (f, s))
    (h : StandsIn F e d near [] ((f, s) :: frames)) :
    Poised m F e d near [] (f :: frames.map Prod.fst) := by
  refine ⟨(f, s) :: frames, rfl, fun g hg => ?_, h⟩
  rcases List.mem_cons.mp hg with rfl | hg
  · exact hf
  · exact hframes g hg

/-- What a level of the descent of a seek comes to: the seek is over, or it goes on below a
byte. -/
inductive LevelEnds (m : Mem) (F : Forest) (e : ℕ) (d : Dir) (near : Bound Key) (key : Key)
    (p : List Byte) (frames : List (Frame × Sight)) :
    (List Frame × NodeId × ℕ) ⊕ Option (List Frame) → Prop where
  | ends {stack : List Frame} (h : Poised m F e d near [] stack) :
      LevelEnds m F e d near key p frames (.inr (some stack))
  | below {f : Frame} {s : Sight} {b : Byte} {c : NodeId} (hf : Rests m F e (f, s))
      (hc : F.place c = some (e, s.base ++ [b])) (hkey : s.base ++ [b] <+: key)
      (hbase : p <+: s.base)
      (h : Probes d near (fun k => F.map e k = none) ((f, s) :: frames) (s.base ++ [b])) :
      LevelEnds m F e d near key p frames
        (.inl (((f, s) :: frames).map Prod.fst, c, (s.base ++ [b]).length))

section Seek

variable {inclusive : Bool} (hm : Still m F e D)
  (hbound : Cursor.boundKey near = some (key, inclusive))
  (h : Probes d near (fun k => F.map e k = none) frames p)
  (hframes : ∀ g, g ∈ frames → Rests m F e g) (hn : F.place n = some (e, p)) (hp : p <+: key)
  (htop : frames = [] → m.tree.root = .node n)
include hm hbound h hframes hn hp htop

/-- One level of the descent of a seek. -/
lemma Still.alone_seekLevel :
    ∃ r, Alone t (Cursor.seekLevel key inclusive d (frames.map Prod.fst, n, p.length)) m r m ∧
      LevelEnds m F e d near key p frames r := by
  obtain ⟨rest, rfl⟩ := hp
  have hdrop : (p ++ rest).drop p.length = rest := List.drop_left
  let v := m.tree.latch (.node n)
  let s := m.sight F e n p
  have hrests : ∀ f : Frame, f.node = n → f.version = v → Rests m F e (f, s) :=
    fun f => rests_of hn
  have hr := hrests ⟨n, v, 0, true⟩ rfl rfl
  have habsent : ∀ k, s.Absent k → F.map e k = none := fun k => hr.absent hm
  have hver := alone_version (t := t) (hm.free n p hn)
  have hval : Alone t (validate (.node n) v) m true m := alone_validate rfl
  have hlink : Alone t (stillLinked ((frames.map Prod.fst).head?.map
      fun f => (f.node, f.version)) n) m true m := by
    cases frames with
    | nil =>
      refine .act ?_
      show Prog.Alone _ (.ret (decide (m.tree.root = .node n))) m true m
      rw [htop rfl, decide_eq_true rfl]
      exact .ret _ _
    | cons g frames => exact alone_validate (hframes g (by simp)).version
  obtain ⟨snap, hload, hof⟩ := (hr.repr hm).run_loadPrefix
  have hpre : Alone t (onNode n loadPrefix) m snap m := alone_onNode_read hload
  have hslice := hof.asSlice
  refine Prog.Alone.bind_of hver (Prog.Alone.bind_of hlink (Prog.Alone.bind_of hpre ?_))
  by_cases hdiv : commonPrefix s.cont.pre rest < s.cont.pre.length
  · show ∃ r, Alone t (if commonPrefix snap.asSlice ((p ++ rest).drop p.length) < snap.len then _
      else _) m r m ∧ _
    rw [hslice, hdrop, hof.len, if_pos hdiv]
    refine Prog.Alone.bind_of hval ?_
    show ∃ r, Alone t (if Cursor.subtreeAfterKey snap rest (commonPrefix s.cont.pre rest) =
      decide (d = .forward) then _ else _) m r m ∧ _
    have hstands : StandsIn F e d near [] (if Cursor.subtreeAfterKey snap rest
        (commonPrefix s.cont.pre rest) = decide (d = .forward) then (edgeFrame n v d, s) :: frames
        else frames) :=
      Probes.diverge h habsent hbound rfl hof hdiv
    split_ifs at hstands ⊢ with hside
    · exact ⟨_, .ret _ _, .ends (.push hframes
        (hrests _ (edgeFrame_node n v d) (edgeFrame_version n v d)) hstands)⟩
    · exact ⟨_, .ret _ _, .ends ⟨frames, rfl, hframes, hstands⟩⟩
  obtain ⟨rest, rfl⟩ : s.cont.pre <+: rest := by
    by_contra hno
    exact hdiv (commonPrefix_lt hno)
  have hbase : p ++ (s.cont.pre ++ rest) = s.base ++ rest := (List.append_assoc _ _ _).symm
  have hdepth : p.length + snap.len = s.base.length := by
    rw [hof.len]
    exact List.length_append.symm
  show ∃ r, Alone t (if commonPrefix snap.asSlice ((p ++ (s.cont.pre ++ rest)).drop p.length) <
    snap.len then _ else _) m r m ∧ _
  rw [hslice, hdrop, hof.len, if_neg hdiv, ← hof.len, hdepth]
  rw [hbase] at hbound ⊢
  cases rest with
  | nil =>
    show ∃ r, Alone t (if s.base.length = (s.base ++ []).length then _ else _) m r m ∧ _
    rw [if_pos (by rw [List.append_nil])]
    refine ⟨_, .bind hval (.ret _ _), .ends (.push hframes
      (hrests _ (exactFrame_node n v inclusive d) (exactFrame_version n v inclusive d)) ?_)⟩
    exact Probes.exactEnd h habsent hbound (List.append_nil _).symm
  | cons b rest =>
    have hkey : s.base ++ [b] <+: s.base ++ b :: rest := ⟨rest, by simp⟩
    have hfind : Alone t (typed n (findChild · b)) m (s.cont.child b) m :=
      alone_typed_read (q := (findChild · b)) ((hr.repr hm).run_findChild b)
    have hpassed : Rests m F e (Cursor.passedFrame n v b d, s) :=
      hrests _ (passedFrame_node n v b d) (passedFrame_version n v b d)
    have hget : (s.base ++ b :: rest)[s.base.length]? = some b := by
      rw [List.getElem?_append_right le_rfl, Nat.sub_self]
      rfl
    show ∃ r, Alone t (if s.base.length = (s.base ++ b :: rest).length then _ else _) m r m ∧ _
    rw [if_neg (by simp), hget]
    refine Prog.Alone.bind_of hfind (Prog.Alone.bind_of hval ?_)
    cases hchild : s.cont.child b with
    | null =>
      refine ⟨_, .ret _ _, .ends (.push hframes hpassed ?_)⟩
      exact Probes.childNull h habsent hbound hkey hchild
    | leaf l =>
      have hstands : StandsIn F e d near []
          ((if Cursor.takesLeaf (s.base ++ b :: rest) inclusive l.key d = true
            then { Cursor.passedFrame n v b d with next := b.val }
            else Cursor.passedFrame n v b d, s) :: frames) :=
        Probes.childLeaf h habsent hbound hkey hchild
      show ∃ r, Alone t (if Cursor.takesLeaf (s.base ++ b :: rest) inclusive l.key d = true then _
        else _) m r m ∧ _
      split_ifs at hstands ⊢ with htakes
      · exact ⟨_, .ret _ _, .ends (.push hframes
          (hrests _ (passedFrame_node n v b d) (passedFrame_version n v b d)) hstands)⟩
      · exact ⟨_, .ret _ _, .ends (.push hframes hpassed hstands)⟩
    | node c =>
      have hprobes := Probes.passed (n := n) (v := v) h habsent hbound hkey
      have hdown := LevelEnds.below (m := m) hpassed (hr.child hm hchild)
        hkey (List.prefix_append _ _) hprobes
      rw [List.length_append] at hdown
      exact ⟨_, .ret _ _, hdown⟩

/-- The descent of a seek. -/
lemma Still.alone_seekLoop : ∃ stack,
    Alone t (Prog.iter (Cursor.seekLevel key inclusive d) (frames.map Prod.fst, n, p.length)) m
      (some stack) m ∧ Poised m F e d near [] stack := by
  -- Every level below ends further down the key.
  induction hN : key.length - p.length using Nat.strong_induction_on generalizing n p frames with
  | _ N ih =>
    obtain ⟨r, hrun, hr⟩ := hm.alone_seekLevel (t := t) hbound h hframes hn hp htop
    cases hr with
    | @ends stack hposed => exact ⟨stack, .done hrun, hposed⟩
    | @below f s b c hf hc hkey hbase hprobes =>
      have hlen := hkey.length_le
      have hlen' := hbase.length_le
      rw [List.length_append, List.length_singleton] at hlen
      obtain ⟨stack, hrun', hposed⟩ := ih (key.length - (s.base ++ [b]).length)
        (by rw [List.length_append, List.length_singleton]; omega) hprobes
        (fun g hg => (List.mem_cons.mp hg).elim (fun h => h ▸ hf) (hframes g)) hc hkey
        (by simp) rfl
      exact ⟨stack, .again hrun hrun', hposed⟩

end Seek

/-- A seek. -/
lemma Still.alone_seek (hm : Still m F e D) (near : Bound Key) (d : Dir) (side : Side) :
    ∃ pending stack, Alone t (Cursor.seek near d side) m
      { side.reset with pending := pending, stack := stack } m ∧
      Poised m F e d near pending.toList stack := by
  have hroot := hm.depicts.wf.holds (Forest.at_root (F := F) e)
  have hslot : F.slot (.root e) = m.tree.root := hm.depicts.root.symm
  rw [hslot] at hroot
  have hload : Alone t (onTree .loadRoot) m m.tree.root m := .perform _ _
  cases hr : m.tree.root with
  | null =>
    rw [hr] at hload hroot
    refine ⟨none, [], .done (.bind hload (.ret _ _)), [], rfl, by simp, ?_⟩
    exact (Probes.root d near _).finish fun k hk _ => hroot k hk
  | leaf l =>
    rw [hr] at hload hroot
    obtain ⟨-, hmap⟩ := hroot
    have hgone : ∀ k, k ≠ l.key → F.map e k = none := fun k hk => by
      rw [hmap k List.nil_prefix, if_neg hk]
    by_cases htakes : Cursor.takesRoot near l.key d = true
    · refine ⟨some l, [], .done (.bind hload ?_), [], rfl, by simp, ?_⟩
      · show Alone t (.ret (Sum.inr (if Cursor.takesRoot near l.key d = true then
          { side.reset with pending := some l } else side.reset) : Side ⊕ Side)) m _ m
        rw [if_pos htakes]
        exact .ret _ _
      · refine ⟨by simp, fun l' hl' => ?_, fun _ _ g hg => by simp at hg, fun g hg => by simp at hg,
          .nil, fun g hg => by simp at hg, fun k _ => ?_⟩
        · obtain rfl : l' = l := by simpa using hl'
          exact ⟨Cursor.takesRoot_iff.mp htakes, by rw [hmap _ List.nil_prefix, if_pos rfl]⟩
        · by_cases hk : k = l.key
          · exact .inr (.inl ⟨l, by simp, hk.symm⟩)
          · exact .inl (hgone k hk)
    · refine ⟨none, [], .done (.bind hload ?_), [], rfl, by simp, ?_⟩
      · show Alone t (.ret (Sum.inr (if Cursor.takesRoot near l.key d = true then
          { side.reset with pending := some l } else side.reset) : Side ⊕ Side)) m _ m
        rw [if_neg htakes]
        exact .ret _ _
      · refine (Probes.root d near _).finish fun k _ hk => hgone k ?_
        rintro rfl
        exact htakes (Cursor.takesRoot_iff.mpr hk)
  | node root =>
    rw [hr] at hload hroot
    cases hbound : Cursor.boundKey near with
    | none =>
      let v := m.tree.latch (.node root)
      have hlink : Alone t (stillLinked none root) m true m := by
        refine .act ?_
        show Prog.Alone _ (.ret (decide (m.tree.root = .node root))) m true m
        rw [hr, decide_eq_true rfl]
        exact .ret _ _
      refine ⟨none, [edgeFrame root v d], .done (.bind hload ?_), ?_⟩
      · rw [hbound]
        exact .bind (alone_version (hm.free root [] hroot)) (.bind hlink (.ret _ _))
      · refine ⟨[(edgeFrame root v d, m.sight F e root [])], rfl, fun g hg => ?_, ?_⟩
        · obtain rfl := List.mem_singleton.mp hg
          exact rests_of hroot (edgeFrame_node root v d) (edgeFrame_version root v d)
        refine (Probes.root d near _).last rfl (fits_edgeFrame d root v) (fun k _ => ?_)
          fun k hk _ => .inr (.inr ⟨atEdge_edgeFrame d root v, hk⟩)
        cases near with
        | included k' => simp [Cursor.boundKey] at hbound
        | excluded k' => simp [Cursor.boundKey] at hbound
        | unbounded => trivial
    | some a =>
      obtain ⟨key, inclusive⟩ := a
      have hprobes : Probes d near (fun k => F.map e k = none) [] [] := .root d near _
      obtain ⟨stack, hrun, hposed⟩ := hm.alone_seekLoop (t := t) hbound hprobes (by simp) hroot
        List.nil_prefix fun _ => hr
      refine ⟨none, stack, .done (.bind hload ?_), hposed⟩
      rw [hbound]
      exact .bind hrun (.ret _ _)

/-! ## Steps -/

/-- How many positions of a frame are left. -/
def Dir.room (d : Dir) (next : ℤ) : ℕ :=
  match d with
  | .forward => (256 - next).toNat
  | .backward => (next + 1).toNat

/-- What is left to do for the frames: for each position of a frame more than for all the frames
below it. -/
def heft (D : ℕ) (d : Dir) (frames : List (Frame × Sight)) : ℕ :=
  (frames.map fun g =>
    (d.room g.1.next + g.1.exact.toNat + 1) * 259 ^ (D - g.2.path.length)).sum

lemma Dir.room_after (h : d.Ahead next b) : d.room (Cursor.after d b) < d.room next := by
  have := b.isLt
  cases d with
  | forward =>
    have h' : next ≤ b.val := h
    simp only [Dir.room, Cursor.after]
    omega
  | backward =>
    have h' : (b.val : ℤ) ≤ next := h
    simp only [Dir.room, Cursor.after]
    omega

lemma heft_lt {f' : Frame} (h : d.room f'.next + f'.exact.toNat < d.room f.next + f.exact.toNat) :
    heft D d ((f', s) :: frames) < heft D d ((f, s) :: frames) := by
  simp only [heft, List.map_cons, List.sum_cons]
  exact Nat.add_lt_add_right (Nat.mul_lt_mul_of_pos_right (by omega) (by positivity)) _

lemma heft_pop : heft D d frames < heft D d ((f, s) :: frames) := by
  simp only [heft, List.map_cons, List.sum_cons]
  exact Nat.lt_add_of_pos_left (by positivity)

/-- A frame that has moved on pays for the frame of its child. -/
lemma heft_descend {sc : Sight} {v : ℕ} (hpath : sc.path = s.base ++ [b])
    (hdeep : sc.path.length ≤ D) (hahead : d.Ahead f.next b) :
    heft D d ((edgeFrame c v d, sc) :: ({ f with next := Cursor.after d b }, s) :: frames) <
      heft D d ((f, s) :: frames) := by
  have hroom := Dir.room_after hahead
  have hedge : d.room (edgeFrame c v d).next + (edgeFrame c v d).exact.toNat + 1 = 258 := by
    cases d <;> rfl
  have hlen : s.path.length + 1 ≤ sc.path.length := by
    have := s.path_base.length_le
    rw [hpath, List.length_append, List.length_singleton]
    omega
  have hpow : 258 * 259 ^ (D - sc.path.length) < 259 ^ (D - s.path.length) := by
    calc 258 * 259 ^ (D - sc.path.length) < 259 * 259 ^ (D - sc.path.length) :=
          Nat.mul_lt_mul_of_pos_right (by norm_num) (by positivity)
      _ = 259 ^ (D - sc.path.length + 1) := (pow_succ' _ _).symm
      _ ≤ 259 ^ (D - s.path.length) := Nat.pow_le_pow_right (by norm_num) (by omega)
  simp only [heft, List.map_cons, List.sum_cons, hedge]
  have hmul : (d.room (Cursor.after d b) + f.exact.toNat + 1) * 259 ^ (D - s.path.length) +
      259 ^ (D - s.path.length) ≤
        (d.room f.next + f.exact.toNat + 1) * 259 ^ (D - s.path.length) := by
    rw [← Nat.succ_mul]
    exact Nat.mul_le_mul_right _ (by omega)
  omega

/-- What a step comes to, of an end that had no leaf at hand. -/
inductive StepEnds (m : Mem) (F : Forest) (e : ℕ) (d : Dir) (near : Bound Key) (side : Side) :
    CursorStep × Side → Prop where
  | leaf {l : Leaf} {stack : List Frame} (h : Poised m F e d near [l] stack) :
      StepEnds m F e d near side (.leaf l, { side with stack := stack })
  | batch {l : Leaf} {ls : List Leaf} {stack : List Frame}
      (h : Poised m F e d near (l :: ls) stack) :
      StepEnds m F e d near side (.batch l, { side with
        stack := stack
        batch := l :: ls
        batchPos := 1
        batchInRange := false })
  | ended (h : Poised m F e d near [] []) :
      StepEnds m F e d near side (.ended, { side with stack := [] })

/-- One round of a step: it comes to an end, or the frames have less left to do. -/
lemma Still.alone_stepRound (hm : Still m F e D) (side : Side)
    (hframes : ∀ g, g ∈ frames → Rests m F e g) (h : StandsIn F e d near [] frames) :
    (∃ r, Alone t (Cursor.stepRound d { side with stack := frames.map Prod.fst }) m (.inr r) m ∧
        StepEnds m F e d near side r) ∨
      ∃ frames', Alone t (Cursor.stepRound d { side with stack := frames.map Prod.fst }) m
          (.inl { side with stack := frames'.map Prod.fst }) m ∧
        (∀ g, g ∈ frames' → Rests m F e g) ∧ StandsIn F e d near [] frames' ∧
        heft D d frames' < heft D d frames := by
  cases frames with
  | nil => exact .inl ⟨_, .ret _ _, .ended ⟨[], rfl, hframes, h⟩⟩
  | cons g frames =>
  obtain ⟨f, s⟩ := g
  have hr := hframes (f, s) (by simp)
  have hrest : ∀ g, g ∈ frames → Rests m F e g := fun g hg => hframes g (List.mem_cons_of_mem _ hg)
  have habsent : ∀ k, s.Absent k → F.map e k = none := fun k => hr.absent hm
  have hval : Alone t (validate (.node f.node) f.version) m true m := alone_validate hr.version
  have hmoved : ∀ next exact, Rests m F e ({ f with next := next, exact := exact }, s) :=
    fun _ _ => ⟨hr.place, hr.sight, hr.version⟩
  have hcons : ∀ {f' : Frame} {g : Frame × Sight}, Rests m F e (f', s) → g ∈ (f', s) :: frames →
      Rests m F e g := fun hf' hg => (List.mem_cons.mp hg).elim (fun h => h ▸ hf') (hrest _)
  by_cases hnow : Cursor.exactNow d f = true
  · have hexact : Alone t (onNode f.node exactLeaf) m (Slot.ofOption s.cont.exact) m :=
      alone_onNode_read (hr.repr hm).run_exactLeaf
    have hset : f.exact = true := by
      cases d with
      | forward => exact hnow
      | backward => exact (Bool.and_eq_true_iff.mp hnow).1
    cases hl : s.cont.exact with
    | none =>
      rw [hl] at hexact
      right
      refine ⟨({ f with exact := false }, s) :: frames, ?_, fun g => hcons (hmoved _ _),
        h.exactNone habsent hl, heft_lt ?_⟩
      · show Alone t (if Cursor.exactNow d f = true then _ else _) m _ m
        rw [if_pos hnow]
        exact .bind hexact (.bind hval (.ret _ _))
      · simp [hset]
    | some l =>
      rw [hl] at hexact
      left
      refine ⟨_, ?_, .leaf ⟨_, rfl, fun g => hcons (hmoved _ _),
        h.exactSome habsent hnow (hr.keyed hm) hl (hr.present hm (.inl hl))⟩⟩
      show Alone t (if Cursor.exactNow d f = true then _ else _) m _ m
      rw [if_pos hnow]
      exact .bind hexact (.bind hval (.ret _ _))
  · have hnow' : Cursor.exactNow d f = false := by simpa using hnow
    have hfits := h.fits (f, s) (by simp)
    have hgather := hr.alone_gather (t := t) hm d batchSize [] hfits
    have hspec : Gathered d s.cont.child f.next
        (gatherOf d s.cont.child batchSize [] f.next) := gatherOf_spec hfits
    generalize gatherOf d s.cont.child batchSize [] f.next = q at hgather hspec
    cases hspec with
    | @inner b c hb ahead first =>
      have hc := hr.child hm hb
      let v := m.tree.latch (.node c)
      right
      refine ⟨(edgeFrame c v d, m.sight F e c (s.base ++ [b])) ::
        ({ f with next := Cursor.after d b }, s) :: frames, ?_, fun g hg => ?_,
        h.descend habsent hb rfl ahead hnow' first,
        heft_descend rfl (hm.deep c _ hc) ahead⟩
      · show Alone t (if Cursor.exactNow d f = true then _ else _) m _ m
        rw [if_neg hnow]
        exact .bind hgather (.bind (alone_version (hm.free c _ hc)) (.bind hval (.ret _ _)))
      · rcases List.mem_cons.mp hg with rfl | hg
        · exact rests_of hc (edgeFrame_node c v d) (edgeFrame_version c v d)
        · exact hcons (hmoved _ _) hg
    | @leaves ps next' hps hne =>
      have hthere : ∀ q, q ∈ ps → F.map e q.2.key = some q.2 := fun q hq =>
        hr.present hm (.inr ⟨q.1, (hps.mem q hq).1⟩)
      have hstands := h.gather habsent hnow' (hr.keyed hm) hps hthere
      left
      cases ps with
      | nil => exact absurd rfl hne
      | cons q ps =>
        refine ⟨_, ?_, .batch ⟨_, rfl, fun g => hcons (hmoved _ _), hstands⟩⟩
        show Alone t (if Cursor.exactNow d f = true then _ else _) m _ m
        rw [if_neg hnow]
        exact .bind hgather (.bind hval (.ret _ _))
    | nothing hnone =>
      obtain ⟨frames', hstack, hframes', hstands⟩ := h.exhaust habsent hnow' hnone
      right
      refine ⟨frames', ?_, ?_, hstands, ?_⟩
      · rw [← hstack]
        show Alone t (if Cursor.exactNow d f = true then _ else _) m _ m
        rw [if_neg hnow]
        exact .bind hgather (.bind hval (.ret _ _))
      · rcases hframes' with rfl | ⟨-, rfl⟩
        · exact hrest
        · exact fun g => hcons (hmoved _ _)
      · rcases hframes' with rfl | ⟨hset, rfl⟩
        · exact heft_pop
        · -- A backward frame keeps its exact leaf for last.
          refine heft_lt ?_
          cases d with
          | forward => exact absurd hset hnow
          | backward =>
            have hnext : ¬ f.next < 0 := fun hlt => hnow (by simp [Cursor.exactNow, hset, hlt])
            simp only [Dir.room]
            omega

/-- The loop of a step. -/
lemma Still.alone_stepLoop (hm : Still m F e D) (side : Side)
    (hframes : ∀ g, g ∈ frames → Rests m F e g) (h : StandsIn F e d near [] frames) :
    ∃ r, Alone t (Prog.iter (Cursor.stepRound d) { side with stack := frames.map Prod.fst }) m r m ∧
      StepEnds m F e d near side r := by
  induction hN : heft D d frames using Nat.strong_induction_on generalizing frames with
  | _ N ih =>
    rcases hm.alone_stepRound (t := t) side hframes h with
      ⟨r, hrun, hr⟩ | ⟨frames', hrun, hframes', h', hlt⟩
    · exact ⟨r, .done hrun, hr⟩
    · obtain ⟨r, hrun', hr⟩ := ih _ (hN ▸ hlt) hframes' h' rfl
      exact ⟨r, .again hrun hrun', hr⟩

/-- A step of an end that has no leaf at hand. -/
lemma Still.alone_step (hm : Still m F e D) (side : Side)
    (hbatch : side.batch[side.batchPos]? = none) (h : Poised m F e d near [] side.stack) :
    ∃ r, Alone t (Cursor.step d side) m r m ∧ StepEnds m F e d near side r := by
  obtain ⟨frames, hstack, hframes, hstands⟩ := h
  obtain ⟨r, hrun, hr⟩ := hm.alone_stepLoop (t := t) side hframes hstands
  refine ⟨r, ?_, hr⟩
  rw [Cursor.step, hbatch]
  rwa [← hstack] at hrun

end Still

end Artmap
