import Artmap.Scan.Cover

/-!
# The moves of an end

What a step reads of an unchanged node, and what becomes of the frames: the exact leaf is
visited, children are gathered, or the node is exhausted.  A seek lays the frames along the way of
its key, from the root to where the key ends or leaves the tree (`Probes`).
-/

namespace Artmap

open scoped List

variable {d : Dir} {f : Frame} {s : Sight} {k key : Key} {p : List Byte} {b c : Byte} {next : ℤ}
  {near : Bound Key} {gone : Key → Prop} {there : Leaf → Prop} {l : Leaf}
  {frames : List (Frame × Sight)}

/-- The leaves of a node are those of keys below it. -/
structure Sight.Keyed (s : Sight) : Prop where
  exact : ∀ l, s.cont.exact = some l → l.key = s.base
  child : ∀ b l, s.cont.child b = .leaf l → s.base ++ [b] <+: l.key

/-! ## The exact leaf -/

namespace Stands

variable (h : Stands d near gone there [] ((f, s) :: frames)) (habsent : ∀ k, s.Absent k → gone k)
include h habsent

/-- The exact leaf is visited. -/
lemma exactSome (hnow : Cursor.exactNow d f = true) (hkeyed : s.Keyed)
    (hl : s.cont.exact = some l) (hthere : there l) :
    Stands d near gone there [l] (({ f with exact := false }, s) :: frames) := by
  have hexact : f.exact = true := by
    cases d with
    | forward => exact hnow
    | backward => exact (Bool.and_eq_true_iff.mp hnow).1
  have hkey := hkeyed.exact l hl
  refine h.turn habsent (e := { f with exact := false }) (h.fits (f, s) (by simp))
    (by simp) ?_ ?_ ?_
  · intro l' hl'
    obtain rfl := List.mem_singleton.mp hl'
    refine ⟨hthere, .inl ⟨hkey, hexact⟩, ?_⟩
    rintro k ((⟨-, he⟩ | ⟨b, hb, hmay⟩) | ⟨⟨he, -⟩, -⟩)
    · simp at he
    · rw [hkey]
      cases d with
      | forward => exact lt_of_branch hmay.1
      | backward =>
        have h1 : f.next < 0 := of_decide_eq_true (Bool.and_eq_true_iff.mp hnow).2
        have h2 : (b.val : ℤ) ≤ f.next := hb
        omega
    · simp at he
  · rintro k (⟨-, he⟩ | hk)
    · simp at he
    · exact .inr hk
  · rintro k (⟨rfl, -⟩ | hk)
    · exact .inr (.inl ⟨l, by simp, hkey⟩)
    · exact .inr (.inr (.inl (.inr hk)))

/-- There is no exact leaf. -/
lemma exactNone (hl : s.cont.exact = none) :
    Stands d near gone there [] (({ f with exact := false }, s) :: frames) := by
  refine h.turn habsent (e := { f with exact := false }) (h.fits (f, s) (by simp))
    .nil (by simp) ?_ ?_
  · rintro k (⟨-, he⟩ | hk)
    · simp at he
    · exact .inr hk
  · rintro k (⟨rfl, -⟩ | hk)
    · exact .inl (habsent _ ⟨s.path_base, .inr (.inl ⟨rfl, hl⟩)⟩)
    · exact .inr (.inr (.inl (.inr hk)))

end Stands

/-! ## Gathering -/

/-- What `childFrom` reads of an unchanged node. -/
def childOf (d : Dir) (child : Byte → Slot) (next : ℤ) : Option (Byte × Slot) :=
  match d with
  | .forward => if next ≤ 255 then Content.nextOf child next.toNat else none
  | .backward => if 0 ≤ next then Content.prevOf child (Fin.ofNat 256 next.toNat) else none

/-- What `gather` reads of an unchanged node. -/
def gatherOf (d : Dir) (child : Byte → Slot) :
    ℕ → List Leaf → ℤ → List Leaf × Option NodeId × ℤ
  | 0, leaves, next => (leaves, none, next)
  | fuel + 1, leaves, next =>
    match childOf d child next with
    | none => (leaves, none, next)
    | some (byte, .leaf l) => gatherOf d child fuel (leaves ++ [l]) (Cursor.after d byte)
    | some (byte, .node c) =>
      if leaves = [] then (leaves, some c, Cursor.after d byte) else (leaves, none, next)
    | some (_, .null) => (leaves, none, next)

section Gather

variable {child : Byte → Slot} {sl : Slot}

lemma childOf_none (hfits : d.Fits next) (h : childOf d child next = none) (b : Byte)
    (hb : d.Ahead next b) : child b = .null := by
  have hlt := b.isLt
  cases d with
  | forward =>
    have hb' : next ≤ b.val := hb
    rw [childOf, if_pos (by omega)] at h
    exact Content.nextOf_eq_none.mp h b (by omega)
  | backward =>
    have hb' : (b.val : ℤ) ≤ next := hb
    have hf : next ≤ 255 := hfits
    rw [childOf, if_pos (by omega)] at h
    refine Content.prevOf_eq_none.mp h b ?_
    rw [Fin.le_def, Fin.val_ofNat, Nat.mod_eq_of_lt (by omega)]
    omega

lemma childOf_some (hfits : d.Fits next) (h : childOf d child next = some (b, sl)) :
    d.Ahead next b ∧ child b = sl ∧ sl ≠ .null ∧
      ∀ x, d.Ahead next x → d.Lt x b → child x = .null := by
  have hlt := b.isLt
  cases d with
  | forward =>
    rw [childOf] at h
    split_ifs at h
    obtain ⟨h1, h2, h3, h4⟩ := Content.nextOf_eq_some.mp h
    refine ⟨?_, h2, h3, fun x hx hxb => h4 x ?_ hxb⟩
    · show next ≤ b.val
      omega
    · have hx' : next ≤ x.val := hx
      omega
  | backward =>
    have hf : next ≤ 255 := hfits
    rw [childOf] at h
    split_ifs at h with hnext
    obtain ⟨h1, h2, h3, h4⟩ := Content.prevOf_eq_some.mp h
    have hval : (Fin.ofNat 256 next.toNat).val = next.toNat := by
      rw [Fin.val_ofNat, Nat.mod_eq_of_lt (by omega)]
    rw [Fin.le_def, hval] at h1
    refine ⟨?_, h2, h3, fun x hx hxb => h4 x ?_ hxb⟩
    · show (b.val : ℤ) ≤ next
      omega
    · have hx' : (x.val : ℤ) ≤ next := hx
      rw [Fin.le_def, hval]
      omega

/-- The children between two positions are the leaves `ps`, in order. -/
structure Fetched (d : Dir) (child : Byte → Slot) (start : ℤ) (ps : List (Byte × Leaf))
    (next : ℤ) : Prop where
  fits : d.Fits next
  sorted : ps.Pairwise fun q q' => d.Lt q.1 q'.1
  mem : ∀ q, q ∈ ps → child q.1 = .leaf q.2 ∧ d.Ahead start q.1 ∧ ¬ d.Ahead next q.1
  sub : ∀ b, d.Ahead next b → d.Ahead start b
  rest : ∀ b, d.Ahead start b → child b ≠ .null → d.Ahead next b ∨ ∃ l, (b, l) ∈ ps

lemma Fetched.nil (hfits : d.Fits next) : Fetched d child next [] next where
  fits := hfits
  sorted := .nil
  mem q hq := by simp at hq
  sub _ hb := hb
  rest _ hb _ := .inl hb

/-- One more leaf. -/
lemma Fetched.snoc {start : ℤ} {ps : List (Byte × Leaf)} (h : Fetched d child start ps next)
    (hb : childOf d child next = some (b, .leaf l)) :
    Fetched d child start (ps ++ [(b, l)]) (Cursor.after d b) := by
  obtain ⟨h1, h2, -, h4⟩ := childOf_some h.fits hb
  have hstep : ∀ x, d.Lt b x → d.Ahead next x := fun x hx => by
    by_contra hno
    exact (Dir.lt_of_ahead hno h1).asymm hx
  refine ⟨Dir.fits_after, List.pairwise_append.mpr ⟨h.sorted, by simp, ?_⟩, ?_, ?_, ?_⟩
  · intro q hq q' hq'
    obtain rfl := List.mem_singleton.mp hq'
    exact Dir.lt_of_ahead (h.mem q hq).2.2 h1
  · intro q hq
    rw [Dir.ahead_after]
    rcases List.mem_append.mp hq with hq | hq
    · obtain ⟨h5, h6, h7⟩ := h.mem q hq
      exact ⟨h5, h6, (Dir.lt_of_ahead h7 h1).asymm⟩
    · obtain rfl := List.mem_singleton.mp hq
      exact ⟨h2, h.sub b h1, d.not_lt_self b⟩
  · exact fun x hx => h.sub x (hstep x (Dir.ahead_after.mp hx))
  · intro x hx hnull
    rw [Dir.ahead_after]
    rcases h.rest x hx hnull with hn | ⟨l', hl'⟩
    · rcases d.trichotomy x b with hlt | rfl | hlt
      · exact absurd (h4 x hn hlt) hnull
      · exact .inr ⟨l, by simp⟩
      · exact .inl hlt
    · exact .inr ⟨l', by simp [hl']⟩

/-- What `gather` comes to at an unchanged node. -/
inductive Gathered (d : Dir) (child : Byte → Slot) (next : ℤ) :
    List Leaf × Option NodeId × ℤ → Prop where
  /-- The next child is an inner node. -/
  | inner {b : Byte} {c : NodeId} (hb : child b = .node c) (ahead : d.Ahead next b)
      (first : ∀ x, d.Ahead next x → child x ≠ .null → x = b ∨ d.Lt b x) :
      Gathered d child next ([], some c, Cursor.after d b)
  | leaves {ps : List (Byte × Leaf)} {next' : ℤ} (h : Fetched d child next ps next')
      (hne : ps ≠ []) : Gathered d child next (ps.map Prod.snd, none, next')
  /-- There is no further child. -/
  | nothing (h : ∀ b, d.Ahead next b → child b = .null) : Gathered d child next ([], none, next)

/-- Once there is a leaf, only leaves are gathered. -/
lemma gatherOf_leaves {start : ℤ} {ps : List (Byte × Leaf)} (fuel : ℕ)
    (h : Fetched d child start ps next) (hne : ps ≠ []) :
    Gathered d child start (gatherOf d child fuel (ps.map Prod.snd) next) := by
  induction fuel generalizing ps next with
  | zero => exact .leaves h hne
  | succ fuel ih =>
    rw [gatherOf]
    cases hc : childOf d child next with
    | none => exact .leaves h hne
    | some a =>
      obtain ⟨b, sl⟩ := a
      cases sl with
      | null => exact .leaves h hne
      | leaf l =>
        have := ih (h.snoc hc) (by simp)
        rwa [List.map_append] at this
      | node c =>
        dsimp only
        rw [if_neg (by simpa using hne)]
        exact .leaves h hne

lemma gatherOf_spec (hfits : d.Fits next) :
    Gathered d child next (gatherOf d child batchSize [] next) := by
  show Gathered d child next (gatherOf d child (15 + 1) [] next)
  rw [gatherOf]
  cases hc : childOf d child next with
  | none => exact .nothing (childOf_none hfits hc)
  | some a =>
    obtain ⟨b, sl⟩ := a
    obtain ⟨h1, h2, h3, h4⟩ := childOf_some hfits hc
    cases sl with
    | null => exact absurd rfl h3
    | leaf l => exact gatherOf_leaves 15 ((Fetched.nil hfits).snoc hc) (by simp)
    | node c =>
      dsimp only
      rw [if_pos rfl]
      refine .inner h2 h1 fun x hx hnull => ?_
      rcases d.trichotomy x b with hlt | rfl | hlt
      · exact absurd (h4 x hx hlt) hnull
      · exact .inl rfl
      · exact .inr hlt

end Gather

namespace Stands

variable (h : Stands d near gone there [] ((f, s) :: frames))
  (habsent : ∀ k, s.Absent k → gone k) (hnow : Cursor.exactNow d f = false)
include h habsent hnow

/-- Leaves are gathered. -/
lemma gather {ps : List (Byte × Leaf)} (hkeyed : s.Keyed)
    (hps : Fetched d s.cont.child f.next ps next) (hthere : ∀ q, q ∈ ps → there q.2) :
    Stands d near gone there (ps.map Prod.snd) (({ f with next := next }, s) :: frames) := by
  have hkey : ∀ q, q ∈ ps → s.base ++ [q.1] <+: q.2.key := fun q hq =>
    hkeyed.child q.1 q.2 (hps.mem q hq).1
  have hlt : ∀ q, q ∈ ps → ∀ b k, d.Lt q.1 b → s.base ++ [b] <+: k → d.Lt q.2.key k := by
    intro q hq b k hb hk
    cases d with
    | forward => exact lt_of_branches hb (hkey q hq) hk
    | backward => exact lt_of_branches hb hk (hkey q hq)
  refine h.turn habsent (e := { f with next := next }) hps.fits ?_ ?_ ?_ ?_
  · rw [List.pairwise_map]
    exact hps.sorted.imp_of_mem fun hq hq' hb => hlt _ hq _ _ hb (hkey _ hq')
  · intro l hl
    obtain ⟨q, hq, rfl⟩ := List.mem_map.mp hl
    obtain ⟨h1, h2, h3⟩ := hps.mem q hq
    refine ⟨hthere q hq, .inr ⟨q.1, h2, hkey q hq, by simp [h1], fun l hl => ?_⟩, ?_⟩
    · obtain rfl : q.2 = l := by simpa [h1] using hl
      rfl
    · rintro k ((⟨rfl, he⟩ | ⟨b, hb, hmay⟩) | ⟨⟨-, hall⟩, -⟩)
      · cases d with
        | forward => exact absurd (he.symm.trans hnow) (by simp)
        | backward => exact lt_of_branch (hkey q hq)
      · exact hlt q hq b k (Dir.lt_of_ahead h3 hb) hmay.1
      · exact absurd (hall q.1) h3
  · rintro k (hk | ⟨b, hb, hmay⟩)
    · exact .inl hk
    · exact .inr ⟨b, hps.sub b hb, hmay⟩
  · rintro k (hk | ⟨b, hb, hmay⟩)
    · exact .inr (.inr (.inl (.inl hk)))
    · rcases hps.rest b hb hmay.2.1 with hn | ⟨l, hl⟩
      · exact .inr (.inr (.inl (.inr ⟨b, hn, hmay⟩)))
      · exact .inr (.inl ⟨l, List.mem_map.mpr ⟨_, hl, rfl⟩, hmay.2.2 l (hps.mem _ hl).1⟩)

/-- The node is exhausted. -/
lemma exhaust (hnone : ∀ b, d.Ahead f.next b → s.cont.child b = .null) :
    ∃ frames', Cursor.exhaust d f (frames.map Prod.fst) = frames'.map Prod.fst ∧
      (frames' = frames ∨ f.exact = true ∧ frames' = ({ f with next := -1 }, s) :: frames) ∧
      Stands d near gone there [] frames' := by
  have hno : f.exact = false → ∀ k, ¬ Offers d f s k := by
    rintro he k (⟨-, he'⟩ | ⟨b, hb, hmay⟩)
    · simp [he] at he'
    · exact hmay.2.1 (hnone b hb)
  by_cases hpop : f.exact = false
  · refine ⟨frames, ?_, .inl rfl, h.pop habsent (hno hpop)⟩
    cases d <;> simp [Cursor.exhaust, hpop]
  · have hexact : f.exact = true := by simpa using hpop
    cases d with
    | forward => exact absurd hnow hpop
    | backward =>
      refine ⟨({ f with next := -1 }, s) :: frames, by simp [Cursor.exhaust, hexact],
        .inr ⟨hexact, rfl⟩, ?_⟩
      refine h.turn habsent (e := { f with next := -1 }) (by simp [Dir.Fits]) .nil
        (by simp) ?_ ?_
      · rintro k (hk | ⟨b, hb, -⟩)
        · exact .inl hk
        · have : (b.val : ℤ) ≤ -1 := hb
          omega
      · rintro k (hk | ⟨b, hb, hmay⟩)
        · exact .inr (.inr (.inl (.inl hk)))
        · exact absurd (hnone b hb) hmay.2.1

end Stands

/-! ## Seeking -/

/-- A seek has laid frames along the way of its key, down to the end of path `p`. -/
structure Probes (d : Dir) (near : Bound Key) (gone : Key → Prop)
    (frames : List (Frame × Sight)) (p : List Byte) : Prop where
  admits : ∀ g, g ∈ frames → ∀ k, Offers d g.1 g.2 k → near.Admits d k
  nested : frames.Pairwise fun g g' => Behind d g'.1 g'.2 g.2.path
  fits : ∀ g, g ∈ frames → d.Fits g.1.next
  /-- What the frames answer for comes after what is below the path. -/
  below : ∀ g, g ∈ frames → Behind d g.1 g.2 p
  cover : ∀ k, near.Admits d k → gone k ∨ (∃ g, g ∈ frames ∧ Vouches d g.1 g.2 k) ∨ p <+: k

namespace Probes

lemma root (d : Dir) (near : Bound Key) (gone : Key → Prop) : Probes d near gone [] [] where
  admits g hg := by simp at hg
  nested := .nil
  fits g hg := by simp at hg
  below g hg := by simp at hg
  cover _ _ := .inr (.inr List.nil_prefix)

/-- Nothing below the path is inside the bound. -/
lemma finish (h : Probes d near gone frames p)
    (hnone : ∀ k, p <+: k → near.Admits d k → gone k) :
    Stands d near gone there [] frames where
  sorted := .nil
  due_ok l hl := by simp at hl
  first l hl := by simp at hl
  admits := h.admits
  nested := h.nested
  fits := h.fits
  cover k hk := by
    rcases h.cover k hk with hg | hc | hp
    · exact .inl hg
    · exact .inr (.inr hc)
    · exact .inl (hnone k hp hk)

/-- A frame on top. -/
lemma push (h : Probes d near gone frames p) (hpath : s.path = p) {p' : List Byte}
    (hfits : d.Fits f.next) (hadmits : ∀ k, Offers d f s k → near.Admits d k)
    (hbehind : Behind d f s p')
    (hcover : ∀ k, p <+: k → near.Admits d k → gone k ∨ Vouches d f s k ∨ p' <+: k) :
    Probes d near gone ((f, s) :: frames) p' where
  admits g hg k hk := by
    rcases List.mem_cons.mp hg with rfl | hg
    · exact hadmits k hk
    · exact h.admits g hg k hk
  nested := List.pairwise_cons.mpr ⟨fun g hg => hpath ▸ h.below g hg, h.nested⟩
  fits g hg := by
    rcases List.mem_cons.mp hg with rfl | hg
    · exact hfits
    · exact h.fits g hg
  below g hg := by
    rcases List.mem_cons.mp hg with rfl | hg
    · exact hbehind
    · refine (h.below g hg).mono ?_
      obtain ⟨b, hb, -⟩ := hbehind
      rw [← hpath]
      exact s.path_base.trans (prefix_of_branch hb)
  cover k hk := by
    rcases h.cover k hk with hg | ⟨g, hg, hc⟩ | hp
    · exact .inl hg
    · exact .inr (.inl ⟨g, List.mem_cons_of_mem _ hg, hc⟩)
    · rcases hcover k hp hk with hg | hc | hp'
      · exact .inl hg
      · exact .inr (.inl ⟨(f, s), by simp, hc⟩)
      · exact .inr (.inr hp')

/-- The last frame. -/
lemma last (h : Probes d near gone frames p) (hpath : s.path = p) (hfits : d.Fits f.next)
    (hadmits : ∀ k, Offers d f s k → near.Admits d k)
    (hcover : ∀ k, p <+: k → near.Admits d k → gone k ∨ Vouches d f s k) :
    Stands d near gone there [] ((f, s) :: frames) where
  sorted := .nil
  due_ok l hl := by simp at hl
  first l hl := by simp at hl
  admits g hg k hk := by
    rcases List.mem_cons.mp hg with rfl | hg
    · exact hadmits k hk
    · exact h.admits g hg k hk
  nested := List.pairwise_cons.mpr ⟨fun g hg => hpath ▸ h.below g hg, h.nested⟩
  fits g hg := by
    rcases List.mem_cons.mp hg with rfl | hg
    · exact hfits
    · exact h.fits g hg
  cover k hk := by
    rcases h.cover k hk with hg | ⟨g, hg, hc⟩ | hp
    · exact .inl hg
    · exact .inr (.inr ⟨g, List.mem_cons_of_mem _ hg, hc⟩)
    · rcases hcover k hp hk with hg | hc
      · exact .inl hg
      · exact .inr (.inr ⟨(f, s), by simp, hc⟩)

/-! ### Along the way of a key -/

section Way

variable {inclusive : Bool} {snap : PrefixSnapshot} {rest : List Byte} {v : ℕ} {n : NodeId}
  (h : Probes d near gone frames s.path) (habsent : ∀ k, s.Absent k → gone k)
  (hbound : Cursor.boundKey near = some (key, inclusive))
include h habsent hbound

/-- The key leaves the prefix of a node: the whole subtree is on one side of it. -/
lemma diverge (hkey : s.path ++ rest = key) (hs : snap.Of s.cont.pre)
    (hm : commonPrefix s.cont.pre rest < s.cont.pre.length) :
    Stands d near gone there []
      (if Cursor.subtreeAfterKey snap rest (commonPrefix s.cont.pre rest) =
        decide (d = .forward) then (edgeFrame n v d, s) :: frames else frames) := by
  have hside : ∀ k, s.base <+: k → (Cursor.subtreeAfterKey snap rest
      (commonPrefix s.cont.pre rest) = decide (d = .forward) → d.Lt key k) ∧
      (¬ Cursor.subtreeAfterKey snap rest (commonPrefix s.cont.pre rest) =
        decide (d = .forward) → d.Lt k key) := by
    intro k hk
    obtain ⟨h1, h2⟩ := subtreeAfterKey_spec hs hm hk
    rw [hkey] at h1 h2
    cases d with
    | forward => simpa using ⟨h1, h2⟩
    | backward => simpa using ⟨h2, h1⟩
  split_ifs with hd
  · refine h.last rfl (fits_edgeFrame d n v) (fun k hk => ?_) fun k hk _ =>
      .inr (.inr ⟨atEdge_edgeFrame d n v, hk⟩)
    exact (Cursor.admits_boundKey hbound).mpr (.inl ((hside k hk.base).1 hd))
  · refine h.finish fun k hk hadmits => habsent k ⟨hk, .inl fun hbase => ?_⟩
    have hlt := (hside k hbase).2 hd
    rcases (Cursor.admits_boundKey hbound).mp hadmits with hlt' | ⟨-, rfl⟩
    · exact hlt.asymm hlt'
    · exact d.not_lt_self _ hlt

/-- The key ends at a node. -/
lemma exactEnd (hkey : s.base = key) :
    Stands d near gone there [] ((Cursor.exactFrame n v inclusive d, s) :: frames) := by
  have hadmits := fun k => Cursor.admits_boundKey (d := d) (k := k) hbound
  refine h.last rfl ?_ (fun k hk => (hadmits k).mpr ?_) fun k hk hk' => ?_
  · cases d <;> simp [Cursor.exactFrame, Dir.Fits]
  · rcases hk with ⟨rfl, he⟩ | ⟨b, hb, hmay⟩
    · refine .inr ⟨?_, hkey⟩
      cases d <;> exact he
    · cases d with
      | forward => exact .inl (hkey ▸ lt_of_branch hmay.1)
      | backward =>
        have : (b.val : ℤ) ≤ -1 := hb
        omega
  · by_cases hbase : s.base <+: k
    · rcases eq_or_branch hbase with rfl | ⟨b, hb⟩
      · rcases (hadmits _).mp hk' with hlt | ⟨hi, -⟩
        · exact absurd hkey.symm hlt.ne
        · refine .inr (.inl (.inl ⟨rfl, ?_⟩))
          cases d <;> exact hi
      · rcases s.absent_or_may hb with ha | hmay
        · exact .inl (habsent k ha)
        · cases d with
          | forward => exact .inr (.inl (.inr ⟨b, by simp [Dir.Ahead, Cursor.exactFrame], hmay⟩))
          | backward =>
            have hlt : key < k := hkey ▸ lt_of_branch hb
            rcases (hadmits _).mp hk' with hlt' | ⟨-, rfl⟩
            · exact absurd hlt (lt_asymm hlt')
            · exact absurd hlt (lt_irrefl _)
    · exact .inl (habsent k ⟨hk, .inl hbase⟩)

section Byte

variable (hkey : s.base ++ [b] <+: key)
include hkey

omit h habsent in
/-- What a frame offers that the seek has passed at byte `b`. -/
lemma passed_admits (hk : Offers d (Cursor.passedFrame n v b d) s k) : near.Admits d k := by
  rw [Cursor.admits_boundKey hbound]
  rcases hk with ⟨rfl, he⟩ | ⟨c, hc, hmay⟩
  · cases d with
    | forward => simp [Cursor.passedFrame] at he
    | backward => exact .inl (lt_of_branch hkey)
  · have hbc : d.Lt b c := by
      refine Dir.ahead_after.mp ?_
      cases d <;> exact hc
    cases d with
    | forward => exact .inl (lt_of_branches hbc hkey hmay.1)
    | backward => exact .inl (lt_of_branches hbc hmay.1 hkey)

omit h in
/-- What is below the node is offered by its frame, or below the byte. -/
lemma passed_cover (hk : s.path <+: k) (hk' : near.Admits d k) :
    gone k ∨ Offers d (Cursor.passedFrame n v b d) s k ∨ s.base ++ [b] <+: k := by
  have hadmits := (Cursor.admits_boundKey hbound).mp hk'
  by_cases hbase : s.base <+: k
  · rcases eq_or_branch hbase with rfl | ⟨c, hc⟩
    · cases d with
      | forward =>
        have hlt : s.base < key := lt_of_branch hkey
        rcases hadmits with hlt' | ⟨-, heq⟩
        · exact absurd hlt (lt_asymm hlt')
        · exact absurd hlt (by rw [← heq]; exact lt_irrefl _)
      | backward => exact .inr (.inl (.inl ⟨rfl, rfl⟩))
    · rcases s.absent_or_may hc with ha | hmay
      · exact .inl (habsent k ha)
      · rcases d.trichotomy b c with hlt | rfl | hlt
        · refine .inr (.inl (.inr ⟨c, ?_, hmay⟩))
          have := Dir.ahead_after.mpr hlt
          cases d <;> exact this
        · exact .inr (.inr hc)
        · have hlt' : d.Lt k key := by
            cases d with
            | forward => exact lt_of_branches hlt hc hkey
            | backward => exact lt_of_branches hlt hkey hc
          rcases hadmits with h' | ⟨-, rfl⟩
          · exact absurd hlt' h'.asymm
          · exact absurd hlt' (d.not_lt_self _)
  · exact .inl (habsent k ⟨hk, .inl hbase⟩)

/-- The seek passes a node at byte `b`. -/
lemma passed : Probes d near gone ((Cursor.passedFrame n v b d, s) :: frames) (s.base ++ [b]) := by
  refine h.push rfl ?_ (fun k hk => passed_admits hbound hkey hk) ⟨b, List.prefix_rfl, ?_, ?_⟩
    fun k hk hk' => ?_
  · have := Dir.fits_after (d := d) (b := b)
    cases d <;> exact this
  · have : ¬ d.Ahead (Cursor.after d b) b := by simp [Dir.ahead_after]
    cases d <;> exact this
  · rintro rfl
    rfl
  · exact (passed_cover habsent hbound hkey hk hk').imp id (Or.imp .inl id)

/-- There is no child at the byte. -/
lemma childNull (hb : s.cont.child b = .null) :
    Stands d near gone there [] ((Cursor.passedFrame n v b d, s) :: frames) := by
  refine (h.passed habsent hbound hkey).finish fun k hk _ => habsent k ?_
  exact ⟨s.path_base.trans (prefix_of_branch hk), .inr (.inr ⟨b, hk, .inl hb⟩)⟩

/-- The child at the byte is a leaf, which is taken if it is inside the bound. -/
lemma childLeaf (hb : s.cont.child b = .leaf l) :
    Stands d near gone there []
      ((if Cursor.takesLeaf key inclusive l.key d = true
        then { Cursor.passedFrame n v b d with next := b.val }
        else Cursor.passedFrame n v b d, s) :: frames) := by
  have habs : ∀ k, s.base ++ [b] <+: k → l.key ≠ k → gone k := fun k hk hne =>
    habsent k ⟨s.path_base.trans (prefix_of_branch hk), .inr (.inr ⟨b, hk, .inr ⟨l, hb, hne⟩⟩)⟩
  have htakes := Cursor.takesLeaf_iff (d := d) (k := l.key) hbound
  split_ifs with ht
  · refine h.last rfl Dir.fits_self (fun k hk => ?_) fun k hk hk' => ?_
    · rcases hk with hk | ⟨c, hc, hmay⟩
      · exact passed_admits hbound hkey (.inl hk)
      · rcases Dir.ahead_self.mp hc with rfl | hlt
        · exact hmay.2.2 l hb ▸ htakes.mp ht
        · refine passed_admits (n := n) (v := v) hbound hkey (.inr ⟨c, ?_, hmay⟩)
          have := Dir.ahead_after.mpr hlt
          cases d <;> exact this
    · rcases passed_cover (n := n) (v := v) habsent hbound hkey hk hk' with hg | ho | hbranch
      · exact .inl hg
      · refine .inr (.inl (ho.imp id ?_))
        rintro ⟨c, hc, hmay⟩
        have hlt : d.Lt b c := by
          refine Dir.ahead_after.mp ?_
          cases d <;> exact hc
        exact ⟨c, Dir.ahead_self.mpr (.inr hlt), hmay⟩
      · by_cases hk'' : l.key = k
        · refine .inr (.inl (.inr ⟨b, Dir.ahead_self.mpr (.inl rfl), hbranch, by simp [hb], ?_⟩))
          intro l' hl'
          obtain rfl : l = l' := by simpa [hb] using hl'
          exact hk''
        · exact .inl (habs k hbranch hk'')
  · refine (h.passed habsent hbound hkey).finish fun k hk hk' => habs k hk ?_
    rintro rfl
    exact ht (htakes.mpr hk')

end Byte

end Way

end Probes

end Artmap
