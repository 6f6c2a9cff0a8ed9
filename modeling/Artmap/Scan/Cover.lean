import Artmap.Scan.Order
import Artmap.Tree.Descent

/-!
# What a stack of frames stands for

The frames of an end of the cursor stand for the keys that are still to come.  A frame offers the
keys below the children ahead of its position, and its own key if the exact leaf has not been
visited.  The node of a frame may change; but as long as it does not, it was seen once and for
all, so what a frame offers depends on a `Sight`.

`Stands` is the invariant of an end: it has leaves at hand (`due`) which come before all that the
frames offer; the frames are nested, so that a frame offers only what comes after the frames on
top of it; and every key past the bound is at hand, offered, or gone.  Each outcome of a step, and
each way in which a seek ends, keeps it, provided that the node was seen unchanged: then the keys
that it shows to be absent are gone, and the leaves that it shows are there.
-/

namespace Artmap

open scoped List

/-! ## What a node shows -/

namespace Sight

variable {s : Sight} {k : Key} {l : Leaf} {b : Byte}

/-- The key that ends at the node. -/
def base (s : Sight) : List Byte :=
  s.path ++ s.cont.pre

/-- The node alone shows that a key below its path is absent. -/
def Absent (s : Sight) (k : Key) : Prop :=
  s.path <+: k ∧ (¬ s.base <+: k ∨ k = s.base ∧ s.cont.exact = none ∨
    ∃ b, s.base ++ [b] <+: k ∧
      (s.cont.child b = .null ∨ ∃ l, s.cont.child b = .leaf l ∧ l.key ≠ k))

/-- The node holds a leaf. -/
def Present (s : Sight) (l : Leaf) : Prop :=
  s.cont.exact = some l ∨ ∃ b, s.cont.child b = .leaf l

/-- The node does not show that a key below its child at `b` is absent. -/
def May (s : Sight) (b : Byte) (k : Key) : Prop :=
  s.base ++ [b] <+: k ∧ s.cont.child b ≠ .null ∧ ∀ l, s.cont.child b = .leaf l → l.key = k

lemma path_base (s : Sight) : s.path <+: s.base :=
  List.prefix_append _ _

lemma may_of_node {c : NodeId} (hb : s.cont.child b = .node c) (hk : s.base ++ [b] <+: k) :
    s.May b k :=
  ⟨hk, by simp [hb], fun l hl => by simp [hb] at hl⟩

lemma absent_or_may (hk : s.base ++ [b] <+: k) : s.Absent k ∨ s.May b k := by
  have hpath := s.path_base.trans (prefix_of_branch hk)
  by_cases h : s.May b k
  · exact .inr h
  · refine .inl ⟨hpath, .inr (.inr ⟨b, hk, ?_⟩)⟩
    by_cases hnull : s.cont.child b = .null
    · exact .inl hnull
    · by_contra hno
      exact h ⟨hk, hnull, fun l hl => by_contra fun hne => hno (.inr ⟨l, hl, hne⟩)⟩

end Sight

/-! ## Positions -/

namespace Dir

variable {d : Dir} {next : ℤ} {b c : Byte}

/-- A byte is ahead of a position. -/
def Ahead (d : Dir) (next : ℤ) (b : Byte) : Prop :=
  match d with
  | forward => next ≤ b.val
  | backward => (b.val : ℤ) ≤ next

/-- A position of a frame. -/
def Fits (d : Dir) (next : ℤ) : Prop :=
  match d with
  | forward => True
  | backward => next ≤ 255

lemma ahead_after : d.Ahead (Cursor.after d b) c ↔ d.Lt b c := by
  cases d with
  | forward => simp [Ahead, Cursor.after]
  | backward => simp [Ahead, Cursor.after]

lemma ahead_self : d.Ahead (b.val : ℤ) c ↔ b = c ∨ d.Lt b c := by
  cases d with
  | forward =>
    show (b.val : ℤ) ≤ c.val ↔ _
    rw [Nat.cast_le, Fin.val_fin_le, le_iff_eq_or_lt, lt_forward]
  | backward =>
    show (c.val : ℤ) ≤ b.val ↔ _
    rw [Nat.cast_le, Fin.val_fin_le, le_iff_eq_or_lt, lt_backward, eq_comm]

lemma lt_of_ahead (h : ¬ d.Ahead next b) (h' : d.Ahead next c) : d.Lt b c := by
  cases d with
  | forward =>
    have : (b.val : ℤ) < c.val := (not_le.mp h).trans_le h'
    exact_mod_cast this
  | backward =>
    have : (c.val : ℤ) < b.val := lt_of_le_of_lt h' (not_le.mp h)
    exact_mod_cast this

lemma fits_after : d.Fits (Cursor.after d b) := by
  cases d with
  | forward => trivial
  | backward =>
    have := b.isLt
    simp only [Fits, Cursor.after]
    omega

lemma fits_self : d.Fits (b.val : ℤ) := by
  cases d with
  | forward => trivial
  | backward =>
    have := b.isLt
    simp only [Fits]
    omega

end Dir

/-! ## Frames -/

variable {d : Dir} {f e : Frame} {s : Sight} {k x : Key} {p : List Byte} {b : Byte}

/-- A frame offers a key: the key is ahead of its position, and the node does not show that it
is absent. -/
def Offers (d : Dir) (f : Frame) (s : Sight) (k : Key) : Prop :=
  k = s.base ∧ f.exact = true ∨ ∃ b, d.Ahead f.next b ∧ s.May b k

/-- The position before all entries of a node. -/
def AtEdge (d : Dir) (f : Frame) : Prop :=
  f.exact = true ∧ ∀ b, d.Ahead f.next b

/-- What a frame answers for: what it offers, or, before its node has been read, all that is
below the node. -/
def Vouches (d : Dir) (f : Frame) (s : Sight) (k : Key) : Prop :=
  Offers d f s k ∨ AtEdge d f ∧ s.path <+: k

/-- What a frame answers for comes after all that is below path `p`. -/
def Behind (d : Dir) (f : Frame) (s : Sight) (p : List Byte) : Prop :=
  ∃ b, s.base ++ [b] <+: p ∧ ¬ d.Ahead f.next b ∧ (d = .forward → f.exact = false)

lemma edgeFrame_node (n : NodeId) (v : ℕ) (d : Dir) : (edgeFrame n v d).node = n := by
  cases d <;> rfl

lemma edgeFrame_version (n : NodeId) (v : ℕ) (d : Dir) :
    (edgeFrame n v d).version = v := by
  cases d <;> rfl

lemma passedFrame_node (n : NodeId) (v : ℕ) (b : Byte) (d : Dir) :
    (Cursor.passedFrame n v b d).node = n := by
  cases d <;> rfl

lemma passedFrame_version (n : NodeId) (v : ℕ) (b : Byte) (d : Dir) :
    (Cursor.passedFrame n v b d).version = v := by
  cases d <;> rfl

lemma exactFrame_node (n : NodeId) (v : ℕ) (i : Bool) (d : Dir) :
    (Cursor.exactFrame n v i d).node = n := by
  cases d <;> rfl

lemma exactFrame_version (n : NodeId) (v : ℕ) (i : Bool) (d : Dir) :
    (Cursor.exactFrame n v i d).version = v := by
  cases d <;> rfl

lemma atEdge_edgeFrame (d : Dir) (n : NodeId) (v : ℕ) : AtEdge d (edgeFrame n v d) := by
  cases d with
  | forward => exact ⟨rfl, fun b => by simp [Dir.Ahead, edgeFrame]⟩
  | backward =>
    refine ⟨rfl, fun b => ?_⟩
    have := b.isLt
    simp only [Dir.Ahead, edgeFrame]
    omega

lemma fits_edgeFrame (d : Dir) (n : NodeId) (v : ℕ) : d.Fits (edgeFrame n v d).next := by
  cases d <;> simp [Dir.Fits, edgeFrame]

lemma Offers.base (h : Offers d f s k) : s.base <+: k := by
  rcases h with ⟨rfl, -⟩ | ⟨b, -, hk, -⟩
  · exact List.prefix_rfl
  · exact prefix_of_branch hk

/-- Of what a frame answers for, the node shows part to be absent. -/
lemma Vouches.settle (h : Vouches d f s k) : s.Absent k ∨ Offers d f s k := by
  rcases h with h | ⟨⟨hexact, hahead⟩, hpath⟩
  · exact .inr h
  · by_cases hbase : s.base <+: k
    · rcases eq_or_branch hbase with rfl | ⟨b, hb⟩
      · exact .inr (.inl ⟨rfl, hexact⟩)
      · exact (s.absent_or_may hb).imp id fun hmay => .inr ⟨b, hahead b, hmay⟩
    · exact .inl ⟨hpath, .inl hbase⟩

lemma Behind.mono {p' : List Byte} (h : Behind d f s p) (hp : p <+: p') : Behind d f s p' := by
  obtain ⟨b, h1, h2⟩ := h
  exact ⟨b, h1.trans hp, h2⟩

lemma Behind.lt (h : Behind d f s p) (hk : Vouches d f s k) (hx : p <+: x) : d.Lt x k := by
  obtain ⟨b, hb, hpassed, hexact⟩ := h
  rcases hk with (⟨rfl, he⟩ | ⟨c, hc, hmay⟩) | ⟨⟨-, hall⟩, -⟩
  · cases d with
    | forward => simp [hexact rfl] at he
    | backward => exact lt_of_branch (hb.trans hx)
  · have hbc := Dir.lt_of_ahead hpassed hc
    cases d with
    | forward => exact lt_of_branches hbc (hb.trans hx) hmay.1
    | backward => exact lt_of_branches hbc hmay.1 (hb.trans hx)
  · exact absurd (hall b) hpassed

/-! ## The invariant of an end -/

/-- An end of a cursor has the leaves `due` at hand and the frames `frames`; it goes on from the
bound `near`. -/
structure Stands (d : Dir) (near : Bound Key) (gone : Key → Prop) (there : Leaf → Prop)
    (due : List Leaf) (frames : List (Frame × Sight)) : Prop where
  sorted : due.Pairwise fun l l' => d.Lt l.key l'.key
  due_ok : ∀ l, l ∈ due → near.Admits d l.key ∧ there l
  /-- The leaves at hand come first. -/
  first : ∀ l, l ∈ due → ∀ g, g ∈ frames → ∀ k, Vouches d g.1 g.2 k → d.Lt l.key k
  admits : ∀ g, g ∈ frames → ∀ k, Offers d g.1 g.2 k → near.Admits d k
  nested : frames.Pairwise fun g g' => Behind d g'.1 g'.2 g.2.path
  fits : ∀ g, g ∈ frames → d.Fits g.1.next
  /-- Nothing is missed. -/
  cover : ∀ k, near.Admits d k →
    gone k ∨ (∃ l, l ∈ due ∧ l.key = k) ∨ ∃ g, g ∈ frames ∧ Vouches d g.1 g.2 k

namespace Stands

variable {near : Bound Key} {gone : Key → Prop} {there : Leaf → Prop}
  {due : List Leaf} {frames : List (Frame × Sight)} {l : Leaf}

/-- The next leaf: all keys before it are gone. -/
lemma passed (h : Stands d near gone there (l :: due) frames) (hk : near.Admits d k)
    (hlt : d.Lt k l.key) : gone k := by
  rcases h.cover k hk with hg | ⟨l', hl', rfl⟩ | ⟨g, hg, hc⟩
  · exact hg
  · rcases List.mem_cons.mp hl' with rfl | hl'
    · exact absurd hlt (d.not_lt_self _)
    · exact absurd hlt ((List.pairwise_cons.mp h.sorted).1 l' hl').asymm
  · exact absurd hlt (h.first l (by simp) g hg k hc).asymm

/-- After a leaf has been taken, the end goes on from its key. -/
lemma yield (h : Stands d near gone there (l :: due) frames) :
    Stands d (.excluded l.key) gone there due frames where
  sorted := (List.pairwise_cons.mp h.sorted).2
  due_ok l' hl' := ⟨(List.pairwise_cons.mp h.sorted).1 l' hl',
    (h.due_ok l' (List.mem_cons_of_mem _ hl')).2⟩
  first l' hl' := h.first l' (List.mem_cons_of_mem _ hl')
  admits g hg k hk := h.first l (by simp) g hg k (.inl hk)
  nested := h.nested
  fits := h.fits
  cover k hk := by
    have hlt : d.Lt l.key k := hk
    rcases h.cover k ((h.due_ok l (by simp)).1.of_lt hlt) with hg | ⟨l', hl', rfl⟩ | hc
    · exact .inl hg
    · rcases List.mem_cons.mp hl' with rfl | hl'
      · exact absurd hlt (d.not_lt_self _)
      · exact .inr (.inl ⟨l', hl', rfl⟩)
    · exact .inr (.inr hc)

/-- When nothing is left, every key is gone. -/
lemma exhausted (h : Stands d near gone there [] []) (hk : near.Admits d k) : gone k := by
  rcases h.cover k hk with hg | ⟨l, hl, -⟩ | ⟨g, hg, -⟩
  · exact hg
  · simp at hl
  · simp at hg

section Top

variable (h : Stands d near gone there [] ((f, s) :: frames)) (habsent : ∀ k, s.Absent k → gone k)
include h habsent

/-- What is not offered any more is gone. -/
lemma settled (hk : near.Admits d k) :
    gone k ∨ Offers d f s k ∨ ∃ g, g ∈ frames ∧ Vouches d g.1 g.2 k := by
  rcases h.cover k hk with hg | ⟨l, hl, -⟩ | ⟨g, hg, hc⟩
  · exact .inl hg
  · simp at hl
  · rcases List.mem_cons.mp hg with rfl | hg
    · rcases hc.settle with ha | ho
      · exact .inl (habsent k ha)
      · exact .inr (.inl ho)
    · exact .inr (.inr ⟨g, hg, hc⟩)

/-- The top frame has moved on, past the leaves `due`. -/
lemma turn (hfits : d.Fits e.next)
    (hsorted : due.Pairwise fun l l' => d.Lt l.key l'.key)
    (hdue : ∀ l, l ∈ due → there l ∧ Offers d f s l.key ∧
      ∀ k, Vouches d e s k → d.Lt l.key k)
    (hsub : ∀ k, Offers d e s k → Offers d f s k)
    (hcover : ∀ k, Offers d f s k → gone k ∨ (∃ l, l ∈ due ∧ l.key = k) ∨ Vouches d e s k) :
    Stands d near gone there due ((e, s) :: frames) := by
  obtain ⟨hbehind, hnested⟩ := List.pairwise_cons.mp h.nested
  refine
    { sorted := hsorted, due_ok := fun l hl => ?_, first := fun l hl g hg k hk => ?_
      admits := fun g hg k hk => ?_, nested := List.pairwise_cons.mpr ⟨hbehind, hnested⟩
      fits := fun g hg => ?_, cover := fun k hk => ?_ }
  · obtain ⟨h1, h2, -⟩ := hdue l hl
    exact ⟨h.admits (f, s) (by simp) _ h2, h1⟩
  · rcases List.mem_cons.mp hg with rfl | hg
    · exact (hdue l hl).2.2 k hk
    · exact (hbehind g hg).lt hk (s.path_base.trans (hdue l hl).2.1.base)
  · rcases List.mem_cons.mp hg with rfl | hg
    · exact h.admits (f, s) (by simp) k (hsub k hk)
    · exact h.admits g (List.mem_cons_of_mem _ hg) k hk
  · rcases List.mem_cons.mp hg with rfl | hg
    · exact hfits
    · exact h.fits g (List.mem_cons_of_mem _ hg)
  · rcases h.settled habsent hk with hg | ho | ⟨g, hg, hc⟩
    · exact .inl hg
    · rcases hcover k ho with hg | hl | hc
      · exact .inl hg
      · exact .inr (.inl hl)
      · exact .inr (.inr ⟨(e, s), by simp, hc⟩)
    · exact .inr (.inr ⟨g, List.mem_cons_of_mem _ hg, hc⟩)

/-- The top frame offers nothing any more. -/
lemma pop (hnone : ∀ k, ¬ Offers d f s k) : Stands d near gone there [] frames where
  sorted := .nil
  due_ok l hl := by simp at hl
  first l hl := by simp at hl
  admits g hg := h.admits g (List.mem_cons_of_mem _ hg)
  nested := (List.pairwise_cons.mp h.nested).2
  fits g hg := h.fits g (List.mem_cons_of_mem _ hg)
  cover k hk := by
    rcases h.settled habsent hk with hg | ho | hc
    · exact .inl hg
    · exact absurd ho (hnone k)
    · exact .inr (.inr hc)

/-- The top frame has moved on past a child, whose frame is on top now. -/
lemma descend {c : NodeId} {v : ℕ} {sc : Sight} (hb : s.cont.child b = .node c)
    (hpath : sc.path = s.base ++ [b]) (hahead : d.Ahead f.next b)
    (hnow : Cursor.exactNow d f = false)
    (hbetween : ∀ x, d.Ahead f.next x → s.cont.child x ≠ .null → x = b ∨ d.Lt b x) :
    Stands d near gone there []
      ((edgeFrame c v d, sc) :: ({ f with next := Cursor.after d b }, s) :: frames) := by
  obtain ⟨hbehind, hnested⟩ := List.pairwise_cons.mp h.nested
  have hsub : ∀ k, Offers d { f with next := Cursor.after d b } s k → Offers d f s k := by
    rintro k (hk | ⟨x, hx, hmay⟩)
    · exact .inl hk
    · refine .inr ⟨x, ?_, hmay⟩
      rw [Dir.ahead_after] at hx
      by_contra hno
      exact (Dir.lt_of_ahead hno hahead).asymm hx
  have hbelow : ∀ k, sc.path <+: k → Offers d f s k := fun k hk =>
    .inr ⟨b, hahead, s.may_of_node hb (hpath ▸ hk)⟩
  have htop : Behind d { f with next := Cursor.after d b } s sc.path := by
    refine ⟨b, by rw [hpath], by simp [Dir.ahead_after], ?_⟩
    rintro rfl
    exact hnow
  refine
    { sorted := .nil, due_ok := fun l hl => by simp at hl, first := fun l hl => by simp at hl
      admits := fun g hg k hk => ?_, nested := ?_, fits := fun g hg => ?_
      cover := fun k hk => ?_ }
  · rcases List.mem_cons.mp hg with rfl | hg
    · exact h.admits (f, s) (by simp) k (hbelow k (sc.path_base.trans hk.base))
    · rcases List.mem_cons.mp hg with rfl | hg
      · exact h.admits (f, s) (by simp) k (hsub k hk)
      · exact h.admits g (List.mem_cons_of_mem _ hg) k hk
  · refine List.pairwise_cons.mpr ⟨fun g hg => ?_, List.pairwise_cons.mpr ⟨hbehind, hnested⟩⟩
    rcases List.mem_cons.mp hg with rfl | hg
    · exact htop
    · refine (hbehind g hg).mono ?_
      rw [hpath]
      exact s.path_base.trans (List.prefix_append _ _)
  · rcases List.mem_cons.mp hg with rfl | hg
    · exact fits_edgeFrame d c v
    · rcases List.mem_cons.mp hg with rfl | hg
      · exact Dir.fits_after
      · exact h.fits g (List.mem_cons_of_mem _ hg)
  · rcases h.settled habsent hk with hg | ho | ⟨g, hg, hc⟩
    · exact .inl hg
    · right
      right
      rcases ho with ho | ⟨x, hx, hmay⟩
      · exact ⟨({ f with next := Cursor.after d b }, s), by simp, .inl (.inl ho)⟩
      · rcases hbetween x hx hmay.2.1 with rfl | hlt
        · refine ⟨_, List.mem_cons_self, .inr ⟨atEdge_edgeFrame d c v, ?_⟩⟩
          show sc.path <+: k
          rw [hpath]
          exact hmay.1
        · exact ⟨({ f with next := Cursor.after d b }, s), by simp,
            .inl (.inr ⟨x, Dir.ahead_after.mpr hlt, hmay⟩)⟩
    · exact .inr (.inr ⟨g, by simp [hg], hc⟩)

end Top

end Stands

end Artmap
