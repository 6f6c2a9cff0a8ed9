import Artmap.Versioned.Calls

/-!
# Correctness of version chains

In every interleaving of the operations of a versioned map, and with every answer that the tree
may give them, the history is linearizable, and the invariant of the chains holds.
-/

namespace Artmap

namespace Versioned

variable {V : Type} {live : Bool} {t l id lo : ℕ} {x y : W V} {op : Op V} {r : Ret V}

/-! ## Verified chains -/

/-- What is in the hands of a thread whose call starts, in state `lo`. -/
def Hand.start (id : ℕ) (op : Op V) (lo : ℕ) : Hand V where
  id := id
  op := op
  since := lo

lemma Hand.start_clean (id : ℕ) (op : Op V) (lo : ℕ) : (Hand.start id op lo).Clean :=
  ⟨rfl, rfl, rfl, rfl, rfl, rfl⟩

/-- What a call has seen from `lo` on, besides what its answer says of one state: the versions
that a listing or a count has gone through, and why the operation has come to no answer.  The
answer of a reader is right in one state. -/
def Reports (lo : ℕ) : Op V → Ret V → W V → Prop
  | .getAllVersions (some l), .versions vs, x => vs ≠ [] → Listed lo l vs x
  | .versionCount (some l), .count n, x => n ≠ 0 → ∃ vs, vs.length = n ∧ Listed lo l vs x
  | .removeVersion _ finds, .unfinished, x => Missed lo finds x
  | .pruneKey found _ _ _, .gaveUp, x => ∀ l, found = some l → Moved lo l x
  | .getLatest found, r, x => Saw lo (.getLatest found) r x
  | .getVersionLe found max, r, x => Saw lo (.getVersionLe found max) r x
  | .latest l, r, x => Saw lo (.latest l) r x
  | .versionLe l max, r, x => Saw lo (.versionLe l max) r x
  | _, _, _ => True

/-- How a call starts. -/
def Starts (t id : ℕ) (op : Op V) (x : W V) : Prop :=
  Holds t (Hand.start id op (x.ghost.time.since id)) x ∧
    ∀ l, op.given = some l → Published l x

/-- How a call ends. -/
def Ends (t id : ℕ) (op : Op V) (r : Ret V) (x : W V) : Prop :=
  Done t (Hand.start id op (x.ghost.time.since id)) r x ∧
    Reports (x.ghost.time.since id) op r x

lemma Done.since {H : Hand V} (h : Done t H r x) : x.ghost.time.since H.id = H.since :=
  h.elim (fun h => h.1.since) fun h => h.1.since

lemma ends_of (h : Done t (Hand.start id op lo) r x) (hs : Reports lo op r x) :
    Ends t id op r x := by
  have hlo : x.ghost.time.since id = lo := h.since
  rw [Ends, hlo]
  exact ⟨h, hs⟩

lemma wp_answer {α : Type} {f : α → Ret V} {p : ChainM V (Option α)} {H : Hand V}
    (hs : ∀ (k : Option α) y, Reports H.since H.op (k.elim .unfinished f) y)
    (h : (rg V).wp live t p (fun k y => Done t H (k.elim .unfinished f) y) x) :
    (rg V).wp live t (answer f p)
      (fun r y => Done t H r y ∧ Reports H.since H.op r y) x :=
  RG.wp_bind (RG.wp_mono h fun k y _ hy => RG.wp_ret ⟨hy, hs k y⟩)

lemma wp_code (h : Starts t id op x) :
    (rg V).wp live t (code op) (Ends t id op) x := by
  obtain ⟨hx, hp⟩ := h
  set lo := x.ghost.time.since id
  have hH := Hand.start_clean id op lo
  refine RG.wp_mono (Q := fun r y => Done t (Hand.start id op lo) r y ∧ Reports lo op r y) ?_
    fun r y _ hy => ends_of hy.1 hy.2
  cases op with
  | insert finds meets v b =>
    exact wp_answer (fun _ _ => trivial) (wp_insert hx hH inserts_insert (fun _ hf => hf)
      (.refl finds x))
  | delete finds meets v =>
    refine wp_answer (fun _ _ => trivial) (RG.wp_bind (RG.wp_mono
      (wp_insert hx hH inserts_delete (fun _ hf => hf) (.refl finds x))
      fun k y _ hy => RG.wp_ret ?_))
    cases k <;> exact hy
  | remove finds => exact wp_answer (fun _ _ => trivial) (wp_remove hx hH rfl)
  | removeVersion v finds =>
    refine RG.wp_intro fun hok => RG.wp_bind (RG.wp_mono (wp_removeVersion hx hH rfl (.refl ..)
      fun hf => Done.now hok hx ?_) fun k y _ hy => RG.wp_ret ⟨hy.1, ?_⟩)
    · subst hf
      exact .removeVersionUnfinished .nil
    · cases k with
      | none => exact hy.2 rfl
      | some b => trivial
  | removeKey finds =>
    exact wp_answer (fun _ _ => trivial)
      (wp_removeKey hx hH rfl (fun _ hf => hf) (.refl _ x))
  | pruneKey found reached min isTomb =>
    refine RG.wp_bind (RG.wp_mono (wp_pruneKey hx hH rfl) fun k y _ hy => RG.wp_ret ⟨hy.1, ?_⟩)
    cases k with
    | none => exact hy.2 rfl
    | some n => trivial
  | clearLeaf l =>
    exact RG.wp_bind (RG.wp_mono (wp_clear hx hH rfl (hp l rfl))
      fun k y _ hy => RG.wp_ret ⟨hy, trivial⟩)
  | getLatest found =>
    exact RG.wp_bind (RG.wp_mono (wp_getLatest hx rfl)
      fun e y _ hy => RG.wp_ret ⟨.inr hy, hy.2⟩)
  | containsKey found =>
    exact RG.wp_bind (RG.wp_mono (wp_containsKey hx rfl) fun b y _ hy => RG.wp_ret ⟨hy, trivial⟩)
  | getVersionLe found max =>
    exact RG.wp_bind (RG.wp_mono (wp_getVersionLe hx rfl)
      fun e y _ hy => RG.wp_ret ⟨.inr hy, hy.2⟩)
  | latest l =>
    exact RG.wp_bind (RG.wp_mono (wp_latest hx (hp l rfl) fun _ _ _ _ hs hr => .latest hs hr)
      fun e y _ hy => RG.wp_ret ⟨.inr hy, hy.2⟩)
  | versionLe l max =>
    exact RG.wp_bind (RG.wp_mono (wp_versionLe hx (hp l rfl) fun _ _ _ _ hs hr => .versionLe hs hr)
      fun e y _ hy => RG.wp_ret ⟨.inr hy, hy.2⟩)
  | getAllVersions found =>
    refine RG.wp_bind (RG.wp_mono (wp_getAllVersions hx rfl) fun vs y _ hy =>
      RG.wp_ret ⟨hy.1, ?_⟩)
    cases found with
    | none => trivial
    | some l => exact fun hne => hy.2 hne l rfl
  | versionCount found =>
    refine RG.wp_bind (RG.wp_mono (wp_versionCount hx rfl) fun n y _ hy => RG.wp_ret ⟨hy.1, ?_⟩)
    cases found with
    | none => trivial
    | some l => exact fun hne => hy.2 hne l rfl

/-- The call of thread `t` is invoked. -/
def Ghost.invoke (g : Ghost V) (t n : ℕ) (op : Op V) : Ghost V :=
  { g with
    run := Function.update g.run t (some ⟨n, op, none⟩)
    time := { g.time with since := Function.update g.time.since n g.time.now } }

/-- The call of thread `t` is over. -/
def Ghost.respond (g : Ghost V) (t : ℕ) : Ghost V :=
  { g with run := Function.update g.run t none }

/-- The call of thread `t` is placed at state `i`. -/
def Ghost.place (g : Ghost V) (t i id : ℕ) (op : Op V) (r : Ret V) : Ghost V :=
  { g with
    run := Function.update g.run t (some ⟨id, op, some r⟩)
    time := g.time.place i ⟨id, op, r⟩ }

lemma invoke_inv (hi : Inv x.mem x.hist x.ghost) (op : Op V) (t : ℕ) :
    Inv x.mem (x.hist ++ [.inv x.hist.length op]) (x.ghost.invoke t x.hist.length op) where
  calls := hi.calls.invoke op t
  chains := { hi.chains with }
  leafs := { hi.leafs with }
  nodes := { hi.nodes with }
  idle t' ht' := by
    by_cases h : t' = t
    · subst h
      simp [Ghost.invoke] at ht'
    · exact { hi.idle t' (by simpa [Ghost.invoke, h] using ht') with }

lemma invoke_rely (hi : Inv x.mem x.hist x.ghost) (op : Op V) {t' : ℕ} (ht' : t' ≠ t) :
    Rely t' x ⟨x.mem, x.hist ++ [.inv x.hist.length op], x.ghost.invoke t x.hist.length op⟩ := by
  have hne : ∀ {id op'}, .inv id op' ∈ x.hist → id ≠ x.hist.length := fun h =>
    (hi.calls.time.inv_lt _ _ h).ne
  refine
    { Rely.refl t' x with
      later := { Later.refl x with hist := ?_, since := ?_, invoked := ?_ }
      run := ?_, since := ?_ }
  · exact fun ev hev => List.mem_append_left _ hev
  · exact fun id op' h => Function.update_of_ne (hne h) _ _
  · intro id op' h
    rcases List.mem_append.mp h with h | h
    · exact .inl h
    · obtain ⟨rfl, -⟩ : id = x.hist.length ∧ op' = op := by simpa using h
      right
      show x.ghost.time.now ≤ Function.update x.ghost.time.since x.hist.length x.ghost.time.now _
      simp
  · exact Function.update_of_ne ht' _ _
  · exact fun r hr => Function.update_of_ne (hne (hi.calls.invoked t' r hr)) _ _

lemma invoke_starts (hi : Inv x.mem x.hist x.ghost) (hidle : x.ghost.run t = none)
    (hp : ∀ l, op.given = some l → x.mem.published l = true) :
    Starts t x.hist.length op
      ⟨x.mem, x.hist ++ [.inv x.hist.length op], x.ghost.invoke t x.hist.length op⟩ := by
  have h := hi.idle t hidle
  refine ⟨⟨Function.update_self .., rfl, fun l => ?_, fun p => ?_, fun p l => ?_, fun l => ?_,
    fun l => ?_⟩, fun l hl => ?_⟩
  · simpa [Hand.start, Ghost.invoke] using h.holder l
  · simpa [Hand.start, Ghost.invoke] using h.thread p
  · simpa [Hand.start, Ghost.invoke] using h.carried p l
  · simpa [Hand.start, Ghost.invoke] using h.draft l
  · simpa [Hand.start, Ghost.invoke] using h.owed l
  · have := hi.leafs.published l
    rw [hp l hl] at this
    exact this.symm

/-- A thread that has nothing in its hands may respond, once its call has been placed. -/
lemma respond_placed {H : Hand V} (hi : Inv x.mem x.hist x.ghost) (hH : H.Clean)
    (hx : Holds t { H with placed := some r } x) :
    Inv x.mem (x.hist ++ [.res H.id r]) (x.ghost.respond t) where
  calls := hi.calls.respond hx.run
  chains := { hi.chains with }
  leafs := { hi.leafs with }
  nodes := { hi.nodes with }
  idle t' ht' := by
    by_cases h : t' = t
    · subst h
      refine ⟨fun l hl => ?_, fun p hp => ?_, fun p l hp => ?_, fun l hl => ?_, fun l hl => ?_⟩
      · simpa [hH.lock] using (hx.holder l).mp hl
      · simpa [hH.nodes] using (hx.thread p).mp hp
      · simpa [hH.bag] using (hx.carried p l).mp hp
      · simpa [hH.draft] using (hx.draft l).mp hl
      · simpa [hH.owed] using (hx.owed l).mp hl
    · exact { hi.idle t' (by simpa [Ghost.respond, h] using ht') with }

lemma respond_rely {t' : ℕ} (ht' : t' ≠ t) :
    Rely t' x ⟨x.mem, x.hist ++ [.res id r], x.ghost.respond t⟩ :=
  { Rely.refl t' x with
    later := { Later.refl x with
      hist := fun ev hev => List.mem_append_left _ hev
      invoked := fun id op h => .inl (by simpa using h) }
    run := Function.update_of_ne ht' _ _ }

/-- A call that has only looked is placed in a state that it has seen. -/
lemma place_inv {H : Hand V} {i : ℕ} (hi : Inv x.mem x.hist x.ghost) (hH : H.placed = none)
    (hx : Holds t H x) (hlo : H.since ≤ i) (hnow : i ≤ x.ghost.time.now)
    (hstep : Step (seen (x.ghost.past i)) H.op r (seen (x.ghost.past i))) :
    Inv x.mem x.hist (x.ghost.place t i H.id H.op r) ∧
      Holds t { H with placed := some r } ⟨x.mem, x.hist, x.ghost.place t i H.id H.op r⟩ := by
  have hrun := hx.run
  rw [hH] at hrun
  refine ⟨⟨?_, { hi.chains with }, { hi.leafs with }, { hi.nodes with }, fun t' ht' => ?_⟩, ?_⟩
  · exact hi.calls.see hrun hnow (by rw [hx.since]; exact hlo) hstep
  · by_cases h : t' = t
    · subst h
      simp [Ghost.place] at ht'
    · exact { hi.idle t' (by simpa [Ghost.place, h] using ht') with }
  · exact { hx with run := Function.update_self .. }

lemma place_rely {t' i : ℕ} (ht' : t' ≠ t) :
    Rely t' x ⟨x.mem, x.hist, x.ghost.place t i id op r⟩ :=
  { Rely.refl t' x with
    later := { Later.refl x with }
    run := Function.update_of_ne ht' _ _ }

lemma respond_ok (hi : Inv x.mem x.hist x.ghost) (h : Ends t id op r x) :
    ∃ g, Inv x.mem (x.hist ++ [.res id r]) g ∧ g.run t = none ∧
      (∀ t', t' ≠ t → Rely t' x ⟨x.mem, x.hist ++ [.res id r], g⟩) ∧
      g.time.now = x.ghost.time.now ∧ g.counted = x.ghost.counted ∧ g.now = x.ghost.now := by
  have hH := Hand.start_clean id op (x.ghost.time.since id)
  rcases h.1 with ⟨hx, -⟩ | ⟨hx, i, hlo, hnow, hstep⟩
  · exact ⟨x.ghost.respond t, respond_placed hi hH hx, Function.update_self ..,
      fun t' ht' => respond_rely ht', rfl, rfl, rfl⟩
  · obtain ⟨hinv, hx'⟩ := place_inv hi rfl hx hlo hnow hstep
    exact ⟨(x.ghost.place t i id op r).respond t, respond_placed hinv hH hx',
      Function.update_self .., fun t' ht' => (place_rely ht').trans (respond_rely ht'), rfl, rfl,
      rfl⟩

/-- The operations on version chains. -/
def verified (V : Type) : RG.Verified (rg V) where
  Pre := Starts
  Post := Ends
  pre_stable := by
    intro t id op x y hr h
    have hx := h.1.rely hr
    refine ⟨?_, fun l hl => (h.2 l hl).later hr.later⟩
    rw [show y.ghost.time.since id = x.ghost.time.since id from hx.since]
    exact hx
  code_ok h := wp_code h
  invoke_ok := by
    rintro t op m x hi htag ⟨rfl, hp⟩
    have hidle : x.ghost.run t = none := Option.map_eq_none_iff.mp htag
    refine ⟨x.ghost.invoke t x.hist.length op, invoke_inv hi op t, invoke_starts hi hidle hp, ?_,
      fun t' ht' => invoke_rely hi op ht', ?_⟩
    · simp [Ghost.invoke]
    · exact ⟨.inl rfl, fun r _ _ => ⟨rfl, .inl hidle⟩, .of_eq rfl rfl⟩
  respond_ok := by
    intro t id op r x hi _ h
    obtain ⟨g, hg, hrun, hrely, hnow, hcounted, hsame⟩ := respond_ok hi h
    refine ⟨g, hg, by simp [hrun], hrely, .inl hnow, fun r' hr' _ => ?_, .of_eq hcounted hsame⟩
    rw [show g.run t = some r' from hr'] at hrun
    simp at hrun

/-! ## The empty map -/

/-- The ghost state of an empty map. -/
def Ghost.empty (V : Type) : Ghost V where
  run := fun _ => none
  time := ⟨0, fun _ => [], fun _ => 0⟩
  past := fun _ _ => none
  holder := fun _ => none
  whose := fun _ => .free
  draft := fun _ => none
  counted := fun _ => 0
  owed := fun _ => none

lemma empty_inv (spurious : List Bool) :
    Inv (ChainMem.empty (V := V) spurious) [] (Ghost.empty V) where
  calls := .empty rfl
  chains :=
    { linked := fun _ _ h => by simp [Ghost.now, Ghost.empty] at h
      nonempty := fun _ _ _ _ h => by simp [Ghost.empty] at h
      desc := fun _ _ _ _ h => by simp [Ghost.empty] at h
      matching := fun _ _ _ _ h => by simp [Ghost.empty] at h
      home := fun _ _ _ _ h => by simp [Ghost.empty] at h
      hindsight := fun _ _ _ _ h => by simp [Ghost.empty] at h
      linked_iff := fun _ _ => by simp [Ghost.now, Ghost.empty] }
  leafs :=
    { born := fun _ _ h => by simp [Ghost.now, Ghost.empty] at h
      published := fun _ => rfl
      unlinked := fun _ h => by simp [ChainMem.empty] at h
      dead := fun _ _ h => by simp [Ghost.now, Ghost.empty] at h
      unlocked := fun _ _ h => by simp [Ghost.now, Ghost.empty] at h
      held := fun _ _ h => by simp [Ghost.empty] at h
      draft := fun _ _ h => by simp [Ghost.empty] at h
      counts := fun _ => .inl rfl
      owed := fun _ _ h => by simp [Ghost.empty] at h
      settled := fun _ _ h => by simp [Ghost.now, Ghost.empty] at h
      unborn := fun _ _ _ => rfl
      len := by simp [ChainMem.empty] }
  nodes :=
    { aligned := by simp [ChainMem.empty]
      alloc := fun _ h => absurd rfl h
      marked := fun _ h => by simp [Ghost.empty, Owner.isMarked] at h
      unmarked := fun _ _ h => by simp [Ghost.empty] at h
      loose := fun _ _ h => by simp [Ghost.empty] at h
      retired := by simp [ChainMem.empty, Ghost.empty]
      boxed := fun _ _ h => by simp [Ghost.empty] at h
      left := fun _ _ h => by simp [Ghost.empty] at h
      inline_iff := fun _ _ h => by simp [Ghost.empty, Owner.home] at h
      homed := fun _ _ h => by simp [Ghost.empty, Owner.home] at h
      slots := fun _ h => absurd h (Nat.not_lt_zero _)
      slot0 := fun _ _ h => by simp [Ghost.now, Ghost.empty] at h
      slot1 := fun _ h => absurd h (Nat.not_lt_zero _)
      spare := fun _ h => absurd h (Nat.not_lt_zero _)
      used := fun _ h => absurd h (Nat.not_lt_zero _) }
  idle _ _ := ⟨by simp [Ghost.empty], by simp [Ghost.empty], by simp [Ghost.empty],
    by simp [Ghost.empty], by simp [Ghost.empty]⟩

end Versioned

end Artmap
