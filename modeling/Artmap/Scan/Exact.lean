import Artmap.Map.Length
import Artmap.Map.Structure
import Artmap.Scan.Still

/-!
# Range scans

A cursor goes on from the last key that each of its ends has yielded; what it may still yield is
between these two keys, or between the bounds of the range (`Cursor.resumeBound`).  In a memory at
rest, each call yields the next leaf from its end, or nothing is left there (`Cursor.Advances`).
So the calls that a user makes, in whatever order, and wherever the cursor is invalidated between
them, are a survey of the tree, and their answers those of a queue that holds its leaves in order.
-/

namespace Artmap

open scoped List

/-- The bounds of a range. -/
def rangeEnds (start stop : Bound Key) : Dir → Bound Key
  | .forward => start
  | .backward => stop

/-- The leaves that an end has at hand. -/
def Side.due (s : Side) : List Leaf :=
  s.pending.toList ++ s.batch.drop s.batchPos

namespace Cursor

variable {t : ℕ} {m : Mem} {F : Forest} {e D : ℕ} {d : Dir} {c : Cursor} {s : Side} {l : Leaf}
  {k : Key}

/-! ## The two ends -/

@[simp] lemma side_setSide (c : Cursor) (d : Dir) (s : Side) : (c.setSide d s).side d = s := by
  cases d <;> rfl

@[simp] lemma side_flip_setSide (c : Cursor) (d : Dir) (s : Side) :
    (c.setSide d s).side d.flip = c.side d.flip := by
  cases d <;> rfl

@[simp] lemma start_setSide (c : Cursor) (d : Dir) (s : Side) :
    (c.setSide d s).start = c.start := by
  cases d <;> rfl

@[simp] lemma stop_setSide (c : Cursor) (d : Dir) (s : Side) : (c.setSide d s).stop = c.stop := by
  cases d <;> rfl

@[simp] lemma done_setSide (c : Cursor) (d : Dir) (s : Side) : (c.setSide d s).done = c.done := by
  cases d <;> rfl

@[simp] lemma setSide_setSide (c : Cursor) (d : Dir) (s s' : Side) :
    (c.setSide d s).setSide d s' = c.setSide d s' := by
  cases d <;> rfl

/-- The bounds of the range of a cursor. -/
abbrev ends (c : Cursor) : Dir → Bound Key :=
  rangeEnds c.start c.stop

lemma resumeBound_none (h : (c.side d).last = none) : c.resumeBound d = c.ends d := by
  cases d <;> simp [resumeBound, h, rangeEnds]

lemma resumeBound_some {r : Resume} (h : (c.side d).last = some r) :
    c.resumeBound d = .excluded r.bytes := by
  simp [resumeBound, h]

lemma inRange_iff : c.inRange d k = true ↔ (c.ends d.flip).Admits d.flip k := by
  cases d with
  | forward => exact belowEnd_iff
  | backward => exact aboveStart_iff

@[simp] lemma inRange_setSide : (c.setSide d s).inRange d k = c.inRange d k := by
  cases d <;> rfl

/-- The last key of each end is inside the bound at its end of the range. -/
def Within (c : Cursor) : Prop :=
  ∀ d r, (c.side d).last = some r → (c.ends d).Admits d r.bytes

lemma Within.admits (h : c.Within) (hk : (c.resumeBound d).Admits d k) :
    (c.ends d).Admits d k := by
  cases hlast : (c.side d).last with
  | none => rwa [resumeBound_none hlast] at hk
  | some r =>
    rw [resumeBound_some hlast] at hk
    exact (h d r hlast).of_lt hk

/-- The checks of `accept` are those of the other end. -/
lemma Within.reject_iff (h : c.Within) :
    (!c.inRange d k || c.crossed d k) = true ↔ ¬ (c.resumeBound d.flip).Admits d.flip k := by
  rw [← not_iff_not, not_not, Bool.or_eq_true, Bool.not_eq_true', not_or, Bool.not_eq_false,
    inRange_iff]
  cases hlast : (c.side d.flip).last with
  | none =>
    rw [resumeBound_none hlast]
    have : c.crossed d k = false := by simp [crossed, hlast]
    simp [this]
  | some r =>
    have hcross : c.crossed d k = true ↔ ¬ d.flip.Lt r.bytes k := by
      cases d with
      | forward =>
        have hlast' : c.back.last = some r := hlast
        have : c.crossed .forward k = (cmpKeys k r.bytes).isGE := by
          simp [crossed, side, Dir.flip, hlast']
        rw [this, isGE_cmpKeys, ← le_iff_eq_or_lt]
        exact not_lt.symm
      | backward =>
        have hlast' : c.front.last = some r := hlast
        have : c.crossed .backward k = (cmpKeys k r.bytes).isLE := by
          simp [crossed, side, Dir.flip, hlast']
        rw [this, isLE_cmpKeys, eq_comm, ← le_iff_eq_or_lt]
        exact not_lt.symm
    rw [resumeBound_some hlast, hcross, not_not, Bound.admits_excluded]
    exact ⟨fun h => h.2, fun hlt => ⟨(h d.flip r hlast).of_lt hlt, hlt⟩⟩

/-! ## Calls -/

lemma lt_getLastD {ls : List Leaf} (h : ls.Pairwise fun l l' => d.Lt l.key l'.key) (hl : l ∈ ls)
    (l₀ : Leaf) : l = ls.getLastD l₀ ∨ d.Lt l.key (ls.getLastD l₀).key := by
  rcases List.eq_nil_or_concat ls with rfl | ⟨init, last, rfl⟩
  · simp at hl
  · rw [List.concat_eq_append] at h hl ⊢
    rw [List.getLastD_concat]
    rcases List.mem_append.mp hl with hl | hl
    · exact .inr ((List.pairwise_append.mp h).2.2 l hl last (by simp))
    · exact .inl (List.mem_singleton.mp hl)

/-- An end that has a position stands where the cursor goes on from. -/
structure SideOk (m : Mem) (F : Forest) (e : ℕ) (c : Cursor) (d : Dir) (s : Side) : Prop where
  poised : Poised m F e d (c.resumeBound d) s.due s.stack
  inRange : s.batchInRange = true → ∀ l, l ∈ s.batch.drop s.batchPos → c.inRange d l.key = true

/-- A cursor between two calls. -/
structure Ready (m : Mem) (F : Forest) (e : ℕ) (c : Cursor) : Prop where
  going : c.done = false
  within : c.Within
  side : ∀ d, (c.side d).positioned = true → SideOk m F e c d (c.side d)

/-- What a call of an end comes to: the next leaf, or nothing is left. -/
inductive Advances (m : Mem) (F : Forest) (e : ℕ) (d : Dir) (c : Cursor) :
    Option Leaf × Cursor → Prop where
  | item {l : Leaf} {c' : Cursor} (between : Between c.resumeBound l.key)
      (found : F.map e l.key = some l)
      (passed : ∀ k, (c.resumeBound d).Admits d k → d.Lt k l.key → F.map e k = none)
      (ready : Ready m F e c') (resume : c'.resumeBound = pastKey c.resumeBound d l.key) :
      Advances m F e d c (some l, c')
  | ended {c' : Cursor} (passed : ∀ k, Between c.resumeBound k → F.map e k = none)
      (done : c'.done = true) : Advances m F e d c (none, c')

lemma resumeBound_yield (c : Cursor) (d : Dir) (s : Side) (l : Leaf) :
    (c.setSide d (s.remember l)).resumeBound = pastKey c.resumeBound d l.key := by
  funext d'
  rcases d.eq_or_flip d' with rfl | rfl
  · simp [resumeBound, pastKey, Side.remember, Resume.bytes]
  · rw [pastKey, Function.update_of_ne d.flip_ne]
    cases d <;> rfl

section Take

variable (h : Ready m F e c) (hs : Poised m F e d (c.resumeBound d) (l :: s.due) s.stack)
  (hin : s.batchInRange = true → ∀ l, l ∈ s.batch.drop s.batchPos → c.inRange d l.key = true)
include h hs hin

/-- The next leaf is inside the bound at the other end, and is yielded. -/
lemma Ready.take (hfar : (c.resumeBound d.flip).Admits d.flip l.key) :
    Advances m F e d c (some l, c.setSide d (s.remember l)) := by
  obtain ⟨frames, hstack, hframes, hstands⟩ := hs
  obtain ⟨hnear, hfound⟩ := hstands.due_ok l (by simp)
  refine .item (fun d' => ?_) hfound (fun k => hstands.passed) ⟨?_, ?_, fun d' hpos => ?_⟩
    (resumeBound_yield c d s l)
  · rcases d.eq_or_flip d' with rfl | rfl
    · exact hnear
    · exact hfar
  · rw [done_setSide, h.going]
  · intro d' r hr
    rw [ends, start_setSide, stop_setSide]
    rcases d.eq_or_flip d' with rfl | rfl
    · rw [side_setSide] at hr
      obtain rfl : Resume.leaf l = r := by simpa [Side.remember] using hr
      exact h.within.admits hnear
    · rw [side_flip_setSide] at hr
      exact h.within _ r hr
  · rcases d.eq_or_flip d' with rfl | rfl
    · rw [side_setSide]
      refine ⟨⟨frames, hstack, hframes, ?_⟩, fun hb l' hl' => ?_⟩
      · rw [resumeBound_yield, pastKey, Function.update_self]
        exact hstands.yield
      · rw [inRange_setSide]
        exact hin hb l' hl'
    · rw [side_flip_setSide] at hpos ⊢
      obtain ⟨h1, h2⟩ := h.side _ hpos
      refine ⟨?_, fun hb l' hl' => ?_⟩
      · rwa [resumeBound_yield, pastKey, Function.update_of_ne d.flip_ne]
      · have := h2 hb l' hl'
        rw [inRange_iff] at this ⊢
        rwa [ends, start_setSide, stop_setSide]

/-- `Cursor::accept` of the next leaf. -/
lemma Ready.accept (hlast : s.last = (c.side d).last) :
    Advances m F e d c ((c.setSide d s).accept d l) := by
  have hwithin : (c.setSide d s).Within := by
    intro d' r hr
    rw [ends, start_setSide, stop_setSide]
    rcases d.eq_or_flip d' with rfl | rfl
    · rw [side_setSide, hlast] at hr
      exact h.within _ r hr
    · rw [side_flip_setSide] at hr
      exact h.within _ r hr
  have hfar : (c.setSide d s).resumeBound d.flip = c.resumeBound d.flip := by
    cases d <;> rfl
  have hreject := hwithin.reject_iff (d := d) (k := l.key)
  rw [hfar] at hreject
  unfold Cursor.accept
  by_cases hno : (!(c.setSide d s).inRange d l.key || (c.setSide d s).crossed d l.key) = true
  · rw [if_pos hno]
    refine .ended (fun k hk => ?_) rfl
    obtain ⟨frames, -, -, hstands⟩ := hs
    rcases d.trichotomy k l.key with hlt | rfl | hlt
    · exact hstands.passed (hk d) hlt
    · exact absurd (hk d.flip) (hreject.mp hno)
    · exact absurd ((hk d.flip).of_lt (Dir.lt_flip.mpr hlt)) (hreject.mp hno)
  · rw [if_neg hno, side_setSide, setSide_setSide]
    refine h.take hs hin ?_
    by_contra hfar
    exact hno (hreject.mpr hfar)

end Take

/-- A position is sought, unless there is one. -/
lemma Ready.alone_position (hm : Still m F e D) (h : Ready m F e c) (d : Dir) :
    ∃ s, Alone t (position d c) m s m ∧ SideOk m F e c d s ∧ s.last = (c.side d).last := by
  unfold position
  by_cases hpos : (c.side d).positioned = true
  · rw [if_pos hpos]
    exact ⟨_, .ret _ _, h.side d hpos, rfl⟩
  · rw [if_neg hpos]
    obtain ⟨pending, stack, hrun, hposed⟩ :=
      hm.alone_seek (t := t) (c.resumeBound d) d (c.side d)
    refine ⟨_, .bind hrun (.ret _ _), ⟨?_, fun hb => by simp [Side.reset] at hb⟩, rfl⟩
    simpa [Side.due, Side.reset] using hposed

/-- `Cursor::advance_slow`. -/
lemma Ready.alone_advanceSlow (hm : Still m F e D) (h : Ready m F e c) (d : Dir) :
    ∃ r, Alone t (advanceSlow d c) m r m ∧ Advances m F e d c r := by
  obtain ⟨⟨stack, pending, batch, pos, inFar, last, positioned⟩, hpos, ⟨hposed, hin⟩, hlast⟩ :=
    h.alone_position (t := t) hm d
  let s : Side := ⟨stack, none, batch, pos, inFar, last, positioned⟩
  have hdone : ¬ c.done = true := by simp [h.going]
  cases pending with
  | some l =>
    refine ⟨(c.setSide d s).accept d l, .done ?_, h.accept (s := s) hposed hin hlast⟩
    rw [if_neg hdone]
    exact .bind hpos (.ret _ _)
  | none =>
  cases hbatch : batch[pos]? with
  | some l =>
    have hdrop : batch.drop pos = l :: batch.drop (pos + 1) :=
      (List.drop_eq_getElem?_toList_append).trans (by simp [hbatch])
    have hstep : Alone t (step d s) m (.leaf l, { s with batchPos := pos + 1 }) m := by
      rw [step, hbatch]
      exact .ret _ _
    refine ⟨(c.setSide d { s with batchPos := pos + 1 }).accept d l, .done ?_, ?_⟩
    · rw [if_neg hdone]
      exact .bind hpos (.bind hstep (.ret _ _))
    · refine h.accept (s := { s with batchPos := pos + 1 }) ?_ (fun hb l' hl' => ?_) hlast
      · simpa [s, Side.due, hdrop] using hposed
      · refine hin hb l' ?_
        rw [hdrop]
        exact List.mem_cons_of_mem _ hl'
  | none =>
    have hdrop : batch.drop pos = [] :=
      List.drop_eq_nil_of_le (List.getElem?_eq_none_iff.mp hbatch)
    have hposed' : Poised m F e d (c.resumeBound d) [] s.stack := by
      simpa [s, Side.due, hdrop] using hposed
    obtain ⟨r, hrun, hr⟩ := hm.alone_step (t := t) s hbatch hposed'
    cases hr with
    | @leaf l stack' hposed' =>
      refine ⟨(c.setSide d { s with stack := stack' }).accept d l, .done ?_, ?_⟩
      · rw [if_neg hdone]
        exact .bind hpos (.bind hrun (.ret _ _))
      · refine h.accept (s := { s with stack := stack' }) ?_ hin hlast
        simpa [s, Side.due, hdrop] using hposed'
    | @batch l ls stack' hposed' =>
      let s' : Side := { s with
        stack := stack'
        batch := l :: ls
        batchPos := 1
        batchInRange := c.inRange d ((l :: ls).getLastD l).key }
      refine ⟨(c.setSide d s').accept d l, .done ?_, ?_⟩
      · rw [if_neg hdone]
        exact .bind hpos (.bind hrun (.ret _ _))
      · refine h.accept (s := s') hposed' (fun hb l' hl' => ?_) hlast
        obtain ⟨_, -, -, hstands⟩ := hposed'
        have hfar : c.inRange d ((l :: ls).getLastD l).key = true := hb
        rcases lt_getLastD hstands.sorted (List.mem_cons_of_mem _ hl') l with heq | hlt
        · rwa [heq]
        · rw [inRange_iff] at hfar ⊢
          exact hfar.of_lt (Dir.lt_flip.mpr hlt)
    | ended hposed' =>
      refine ⟨(none, { c.setSide d { s with stack := [] } with done := true }), .done ?_,
        .ended (fun k hk => ?_) rfl⟩
      · rw [if_neg hdone]
        exact .bind hpos (.bind hrun (.ret _ _))
      · obtain ⟨frames, hstack, -, hstands⟩ := hposed'
        obtain rfl : frames = [] := List.map_eq_nil_iff.mp hstack.symm
        exact hstands.exhausted (hk d)

/-- `Cursor::advance`. -/
lemma Ready.alone_advance (hm : Still m F e D) (h : Ready m F e c) (d : Dir) :
    ∃ r, Alone t (advance d c) m r m ∧ Advances m F e d c r := by
  unfold advance
  cases hbatch : (c.side d).batch[(c.side d).batchPos]? with
  | none => exact h.alone_advanceSlow hm d
  | some l =>
    dsimp only
    split_ifs with hfast
    · simp only [Bool.and_eq_true, Option.isNone_iff_eq_none] at hfast
      obtain ⟨⟨⟨⟨hb, hlast⟩, hpending⟩, hpos⟩, -⟩ := hfast
      obtain ⟨hposed, hin⟩ := h.side d hpos
      have hdrop : (c.side d).batch.drop (c.side d).batchPos =
          l :: (c.side d).batch.drop ((c.side d).batchPos + 1) :=
        (List.drop_eq_getElem?_toList_append).trans (by simp [hbatch])
      rw [Side.due, hpending, hdrop] at hposed
      refine ⟨_, .ret _ _, h.take
        (s := { c.side d with batchPos := (c.side d).batchPos + 1 }) ?_ (fun hb l' hl' => ?_) ?_⟩
      · simpa [Side.due, hpending] using hposed
      · exact hin hb l' (hdrop ▸ List.mem_cons_of_mem _ hl')
      · rw [resumeBound_none hlast]
        exact inRange_iff.mp (hin hb l (by rw [hdrop]; simp))
    · exact h.alone_advanceSlow hm d

/-- A cursor that is done yields nothing. -/
lemma alone_advance_done (h : c.done = true) (d : Dir) : Alone t (advance d c) m (none, c) m := by
  have hslow : Alone t (advanceSlow d c) m (none, c) m := by
    refine .done ?_
    rw [if_pos h]
    exact .ret _ _
  unfold advance
  cases (c.side d).batch[(c.side d).batchPos]? with
  | none => exact hslow
  | some l =>
    dsimp only
    rw [if_neg (by simp [h])]
    exact hslow

lemma side_invalidate (c : Cursor) (d : Dir) : c.invalidate.side d = (c.side d).invalidate := by
  cases d <;> rfl

lemma resumeBound_invalidate (c : Cursor) : c.invalidate.resumeBound = c.resumeBound := by
  funext d
  cases h : (c.side d).last with
  | none =>
    have h' : (c.invalidate.side d).last = none := by simp [side_invalidate, Side.invalidate, h]
    rw [resumeBound_none h, resumeBound_none h']
    rfl
  | some r =>
    have h' : (c.invalidate.side d).last = some (.key r.bytes) := by
      simp [side_invalidate, Side.invalidate, h]
    rw [resumeBound_some h, resumeBound_some h']
    rfl

lemma Ready.invalidate (h : Ready m F e c) : Ready m F e c.invalidate := by
  refine ⟨h.going, fun d r hr => ?_, fun d hpos => ?_⟩
  · rw [side_invalidate] at hr
    obtain ⟨r', hr', rfl⟩ := Option.map_eq_some_iff.mp hr
    exact h.within d r' hr'
  · rw [side_invalidate] at hpos
    simp [Side.invalidate] at hpos

lemma resumeBound_new (start stop : Bound Key) :
    (new start stop).resumeBound = rangeEnds start stop := by
  funext d
  cases d <;> rfl

lemma ready_new (m : Mem) (F : Forest) (e : ℕ) (start stop : Bound Key) :
    Ready m F e (new start stop) := by
  refine ⟨rfl, fun d r hr => ?_, fun d hpos => ?_⟩
  · cases d <;> simp [new, side, Side.new] at hr
  · cases d <;> simp [new, side, Side.new] at hpos

end Cursor

/-! ## Whole scans -/

section Drive

variable {t : ℕ} {m : Mem} {F : Forest} {e D : ℕ} {c : Cursor}

/-- A call takes the item from its end of the list of what is left, or there is none. -/
lemma Cursor.Ready.alone_pop (hm : Still m F e D) (h : c.Ready m F e) {items : List Leaf}
    (hitems : Lists Leaf.key (fun l => F.map e l.key = some l) c.resumeBound items) (d : Dir) :
    (∃ l rest c', items = d.push l rest ∧ Alone t (c.advance d) m (some l, c') m ∧
      c'.Ready m F e ∧
      Lists Leaf.key (fun l => F.map e l.key = some l) c'.resumeBound rest) ∨
      items = [] ∧ ∃ c', Alone t (c.advance d) m (none, c') m ∧ c'.done = true := by
  obtain ⟨r, hrun, hr⟩ := h.alone_advance (t := t) hm d
  cases hr with
  | @item l c' between found passed ready resume =>
    obtain ⟨rest, hrest, heq⟩ := hitems.take (d := d) found between
      fun b hb hw hlt => by simp [passed b.key (hw d) hlt] at hb
    exact .inl ⟨l, rest, c', heq, hrun, ready, resume ▸ hrest⟩
  | @ended c' passed done =>
    exact .inr ⟨hitems.eq_nil (fun l hgone hl => by simp [hgone] at hl) passed, c', hrun, done⟩

/-- What a scan finds in a tree that does not change. -/
abbrev Finds (F : Forest) (e : ℕ) (ends : Dir → Bound Key) (log : List (Dir × Option Leaf)) :
    Prop :=
  Survey Leaf.key (fun k => F.map e k = none) (fun l => F.map e l.key = some l) ends log

/-- One call, and what the user does next. -/
def Caller.call (d : Dir) (k : Option Leaf → Caller) (c : Cursor) :
    TreeM (List (Dir × Option Leaf)) :=
  (c.advance d).bind fun q => ((k q.1).drive q.2).bind fun rest => .ret ((d, q.1) :: rest)

lemma Caller.alone_done (user : Caller) (h : c.done = true) :
    ∃ log, Alone t (user.drive c) m log m ∧ ∀ a, a ∈ log → a.2 = none := by
  induction user generalizing c with
  | stop => exact ⟨[], .ret _ _, by simp⟩
  | next k ih =>
    obtain ⟨log, hrun, hlog⟩ := ih none h
    refine ⟨_, .bind (Cursor.alone_advance_done h .forward) (.bind hrun (.ret _ _)), ?_⟩
    simpa using hlog
  | nextBack k ih =>
    obtain ⟨log, hrun, hlog⟩ := ih none h
    refine ⟨_, .bind (Cursor.alone_advance_done h .backward) (.bind hrun (.ret _ _)), ?_⟩
    simpa using hlog
  | repin k ih => exact ih h

/-- A call of one end, if the calls after it are a survey of what is left. -/
lemma Cursor.Ready.alone_call (hm : Still m F e D) (h : c.Ready m F e) (d : Dir)
    (k : Option Leaf → Caller) (hk : ∀ r c', Cursor.Ready m F e c' →
      ∃ log, Alone t ((k r).drive c') m log m ∧ Finds F e c'.resumeBound log) :
    ∃ log, Alone t (Caller.call d k c) m log m ∧ Finds F e c.resumeBound log := by
  obtain ⟨r, hrun, hr⟩ := h.alone_advance (t := t) hm d
  cases hr with
  | @item l c' between found passed ready resume =>
    obtain ⟨log, hrun', hlog⟩ := hk (some l) c' ready
    rw [resume] at hlog
    exact ⟨_, .bind hrun (.bind hrun' (.ret _ _)), .item between found passed hlog⟩
  | @ended c' passed done =>
    obtain ⟨log, hrun', hlog⟩ := (k none).alone_done (t := t) (m := m) done
    exact ⟨_, .bind hrun (.bind hrun' (.ret _ _)), .done passed hlog⟩

/-- Whatever the user calls is a survey of the tree. -/
lemma Caller.alone_drive (hm : Still m F e D) (user : Caller) (h : c.Ready m F e) :
    ∃ log, Alone t (user.drive c) m log m ∧ Finds F e c.resumeBound log := by
  induction user generalizing c with
  | stop => exact ⟨[], .ret _ _, .nil _⟩
  | next k ih => exact h.alone_call hm .forward k fun r _ => ih r
  | nextBack k ih => exact h.alone_call hm .backward k fun r _ => ih r
  | repin k ih =>
    have := ih h.invalidate
    rwa [Cursor.resumeBound_invalidate] at this

/-- A scan of a memory at rest comes to an end, changes nothing, and is a survey of the tree. -/
theorem Still.alone_range (hm : Still m F e D) (start stop : Bound Key) (user : Caller) :
    ∃ log, Alone t (range start stop user) m log m ∧ Finds F e (rangeEnds start stop) log := by
  have h := user.alone_drive (t := t) hm (Cursor.ready_new m F e start stop)
  rwa [Cursor.resumeBound_new] at h

/-- The entries that a callback is called with, in turn, after those that it has already been
called with. -/
def calledWith (callback : List Leaf → Bool) : List Leaf → List Leaf → List Leaf
  | seen, [] => seen
  | seen, l :: rest =>
    if callback (seen ++ [l]) then calledWith callback (seen ++ [l]) rest else seen ++ [l]

/-- The loop of a scan, by induction on the entries that are left. -/
lemma Still.alone_scanLoop (hm : Still m F e D) (callback : List Leaf → Bool) {items : List Leaf}
    (h : c.Ready m F e) (hitems : Lists Leaf.key (fun l => F.map e l.key = some l) c.resumeBound
      items) (seen : List Leaf) :
    Alone t (Prog.iter (scanRound callback) (seen, c)) m (calledWith callback seen items) m := by
  induction items generalizing c seen with
  | nil =>
    rcases h.alone_pop (t := t) hm hitems .forward with
      ⟨l, rest, c', heq, -⟩ | ⟨-, c', hrun, -⟩
    · cases heq
    · exact .done (.bind hrun (.ret _ _))
  | cons a items ih =>
    rcases h.alone_pop (t := t) hm hitems .forward with
      ⟨l, rest, c', heq, hrun, ready, hrest⟩ | ⟨hnil, -⟩
    · obtain ⟨rfl, rfl⟩ : a = l ∧ items = rest := by simpa [Dir.push] using heq
      rw [calledWith]
      by_cases hgo : callback (seen ++ [a]) = true
      · rw [if_pos hgo]
        refine .again (.bind hrun ?_) (ih ready hrest (seen ++ [a]))
        show Alone t (if callback (seen ++ [a]) = true then _ else _) m _ m
        rw [if_pos hgo]
        exact .ret _ _
      · rw [if_neg hgo]
        refine .done (.bind hrun ?_)
        show Alone t (if callback (seen ++ [a]) = true then _ else _) m _ m
        rw [if_neg hgo]
        exact .ret _ _
    · cases hnil

/-- `ArtMap::scan` of a memory at rest calls its callback with the entries of the range, in order,
until it answers `false`. -/
theorem Still.alone_scan (hm : Still m F e D) {start stop : Bound Key} {items : List Leaf}
    (hitems : Lists Leaf.key (fun l => F.map e l.key = some l) (rangeEnds start stop) items)
    (callback : List Leaf → Bool) :
    Alone t (scan start stop callback) m (calledWith callback [] items) m := by
  rw [← Cursor.resumeBound_new] at hitems
  exact hm.alone_scanLoop callback (Cursor.ready_new m F e start stop) hitems []

end Drive

/-! ## Scans of a map at rest -/

namespace Interface

open Client (tree shadow scene)

variable {M : Interface} {full : ℕ → Bool} {c : M.client.object.Config} {w : M.client.W}

/-- When no call is in progress, the memory is at rest. -/
lemma Behind.still (h : Behind c w) (hq : c.Quiescent) :
    ∃ D, Still c.mem (shadow w).forest (shadow w).cur D := by
  -- There are finitely many nodes, so the paths are bounded.
  let depth : ℕ → ℕ := fun n => (((shadow w).forest.place n).map fun a => a.2.length).getD 0
  refine ⟨(Finset.range (tree w).next).sup depth, h.depicts, h.free hq, fun n p hn => ?_⟩
  have hlt := h.inv.tree.pub_lt (h.inv.tree.pub_placed (n := n) (by simp [hn]))
  have hle := Finset.le_sup (f := depth) (Finset.mem_range.mpr hlt)
  simpa [depth, hn] using hle

/-- Range scans, alone, come to an end and change nothing.  The entries of a range are those of the
map that the calls have left in the order in which they took effect, ordered by their keys.  An
iterator answers any user as a queue with two ends does that holds them, and `scan` calls its
callback with them in turn, until it answers `false`. -/
def ScansInOrder (c : M.client.object.Config) : Prop :=
  ∃ L, Linearization M.spec (M.told c.hist) L ∧ ∀ start stop, ∃ items,
    Lists Leaf.key (fun l => M.spec.after M.spec.init L l.key = some l) (rangeEnds start stop)
      items ∧
    ∀ t, (∀ user, ∃ log, Alone t (range start stop user) c.mem log c.mem ∧
        log.map Prod.snd = dequeAnswers items (log.map Prod.fst)) ∧
      ∀ callback, Alone t (scan start stop callback) c.mem (calledWith callback [] items) c.mem

theorem scansInOrder_of_safe (hM : M.Safe) (hfull : M.roomy → ∀ i, full i = false)
    (hc : Reachable full c) (hq : c.Quiescent) : ScansInOrder c := by
  obtain ⟨w, h⟩ := behind hM hfull hc
  obtain ⟨D, hstill⟩ := h.still hq
  have hlog := h.inv.client.log
  have hlin := hlog.log.linearization
  rw [show (scene w).hist = c.hist from h.hist] at hlin
  have hmap : M.spec.after M.spec.init _ = (shadow w).forest.map w.ghost.2.log.cur :=
    hlog.log.after_upTo
  rw [show w.ghost.2.log.cur = (shadow w).cur from hlog.cur] at hmap
  refine ⟨_, hlin, fun start stop => ?_⟩
  rw [hmap]
  obtain ⟨items, hitems⟩ :=
    Lists.exists_of_finite h.finite (leavesOf_injOn _) (rangeEnds start stop)
  refine ⟨items, hitems, fun t => ⟨fun user => ?_, hstill.alone_scan hitems⟩⟩
  obtain ⟨log, hrun, hlog⟩ := hstill.alone_range (t := t) start stop user
  exact ⟨log, hrun, hlog.answers (fun l hgone hl => by simp [hgone] at hl) hitems⟩

end Interface

/-! ## The maps -/

/-- **Range scans** of the heap map.  Whatever the interleaving, when no call is in progress a range
scan finds the entries of the map, in order. -/
theorem ArtMap.range_scans {c : ArtMap.interface.client.object.Config} (hc : ArtMap.Reaches c)
    (hq : c.Quiescent) : Interface.ScansInOrder c :=
  Interface.scansInOrder_of_safe ArtMap.safe ArtMap.heap_roomy hc hq

/-- What two inserts and a replacement have left between two keys. -/
lemma ArtMap.lists_replaced : Lists Leaf.key (fun l => ArtMap.interface.spec.final
    ArtMap.interface.spec.init (ArtMap.replacedOps.map Prod.fst) l.key = some l)
    (rangeEnds (.included [0]) (.excluded [3])) [⟨2, [1]⟩, ⟨1, [2]⟩] := by
  have hmap : ∀ l : Leaf, ArtMap.interface.spec.final ArtMap.interface.spec.init
      (ArtMap.replacedOps.map Prod.fst) l.key = some l ↔ l = ⟨2, [1]⟩ ∨ l = ⟨1, [2]⟩ := by
    intro l
    change Function.update (Function.update (Function.update (fun _ => none) ([1] : Key)
      (some ⟨0, [1]⟩)) [2] (some ⟨1, [2]⟩)) [1] (some ⟨2, [1]⟩) l.key = some l ↔ _
    obtain ⟨addr, key⟩ := l
    by_cases h₁ : key = [1]
    · subst h₁
      simp [eq_comm]
    · by_cases h₂ : key = [2]
      · subst h₂
        simp [eq_comm]
      · simp [h₁, h₂]
  refine ⟨by decide, fun l => ?_⟩
  rw [hmap l, List.mem_cons, List.mem_singleton, iff_self_and]
  intro hl d
  cases d
  · right
    rcases hl with rfl | rfl
    · show ([0] : Key) < [1]
      decide
    · show ([0] : Key) < [2]
      decide
  · rcases hl with rfl | rfl
    · show ([1] : Key) < [3]
      decide
    · show ([2] : Key) < [3]
      decide

/-- A scan after two inserts and a replacement. -/
theorem ArtMap.range_scans_replaced : ArtMap.Executes ArtMap.replacedOps ArtMap.replacedMem ∧
    Alone 0 (scan (.included [0]) (.excluded [3]) fun _ => true) ArtMap.replacedMem
      [⟨2, [1]⟩, ⟨1, [2]⟩] ArtMap.replacedMem := by
  have hm := ArtMap.executes_replaced
  obtain ⟨L, hL, h⟩ := ArtMap.range_scans (Interface.Serial.reachable hm) fun _ => rfl
  obtain ⟨items, hitems, h⟩ := h (.included [0]) (.excluded [3])
  rw [Interface.told_eq ArtMap.no_fails] at hL
  rw [hL.serial, Spec.after_serialEntries] at hitems
  rw [hitems.unique ArtMap.lists_replaced] at h
  exact ⟨hm, (h 0).2 fun _ => true⟩

/-- Range scans of the arena map, whichever allocations find no room. -/
theorem ArenaArtMap.arena_scans {full : ℕ → Bool}
    {c : (ArenaArtMap.interface false).client.object.Config}
    (hc : Interface.Reachable full c) (hq : c.Quiescent) : Interface.ScansInOrder c :=
  Interface.scansInOrder_of_safe (ArenaArtMap.safe false) (by simp) hc hq

end Artmap
