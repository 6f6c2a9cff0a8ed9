import Artmap.Map.Calls
import Artmap.Ops.Get
import Artmap.Ops.Insert

/-!
# What lookups, inserts and removes mean to a map

The maps over a tree have their basic operations in common.  An operation that means a lookup, an
insert or a remove of one entry takes the same steps of the ledger in each of them; this file puts
these steps into the form in which the operations of the tree ask for them.
-/

namespace Artmap

namespace Interface

open Client

variable {M : Interface} {live : Bool} {t id lo : ℕ} {op : M.Op} {w : M.client.W} {key : Key}
  {l old : Leaf} {mode : Mode}

/-- A call that was given no leaf. -/
def waiting (t id : ℕ) (op : M.Op) (lo : ℕ) : M.client.Assertion t :=
  holds t ⟨id, op, none⟩ lo 0 (fun _ => none) none

/-- A call that has taken effect and has nothing left in its hands. -/
def answered (t id : ℕ) (op : M.Op) (a : M.Ret) (lo : ℕ) : M.client.Assertion t :=
  holds t ⟨id, op, some a⟩ lo 0 (fun _ => none) none

/-- An insert that has not taken effect. -/
def inserting (t id : ℕ) (op : M.Op) (l : Leaf) (lo : ℕ) : M.client.Assertion t :=
  holds t ⟨id, op, none⟩ lo 0 (only l (.held t)) none

/-- Of the leaves, what a thread has to deal with for the owner of its leaf. -/
def owned (t : ℕ) : Unpublished → Leaf → Option LeafState
  | .armed l => only l (.held t)
  | .disarmed => fun _ => none

/-- A call has taken effect, or has failed, and still has the owner of its leaf to drop. -/
def Landed (t id : ℕ) (op : M.Op) (a : M.Ret) (owner : Unpublished) (x : M.MapScene) : Prop :=
  ∃ res lo, Holds t ⟨id, op, res⟩ lo 0 (owned t owner) none x ∧
    (res = some a ∨ M.fails a = true)

/-- `Landed` as an assertion. -/
def landed (t id : ℕ) (op : M.Op) (a : M.Ret) (owner : Unpublished) : M.client.Assertion t where
  holds := Landed t id op a owner
  stable hr := fun ⟨res, lo, h⟩ => ⟨res, lo, h.1.stable hr, h.2⟩

/-- An insert of leaf `l`, which answers `f` of the outcome, has ended with `o`; only a call that
fails has no outcome. -/
def landing (t id : ℕ) (op : M.Op) (l : Leaf) (f : Option Outcome → M.Ret) (o : Option Outcome) :
    M.client.Assertion t where
  holds x := Landed t id op (f o) (ownerAfter l o) x ∧ (o = none → M.fails (f none) = true)
  stable hr h := ⟨(landed t id op (f o) (ownerAfter l o)).stable hr h.1, h.2⟩

/-- A call that has replaced `old`, whose state is `s`. -/
def replacing (t id : ℕ) (op : M.Op) (a : M.Ret) (lo : ℕ) (old : Leaf) (s : LeafState) :
    M.client.Assertion t :=
  holds t ⟨id, op, some a⟩ lo 0 (only old s) none

lemma answered_finished {a : M.Ret} {x : M.MapScene} (hx : answered t id op a lo x) :
    finished t id op a x :=
  ⟨_, lo, _, hx, .inl rfl, by simp⟩

lemma landed_finished {a : M.Ret} {owner : Unpublished} {x : M.MapScene}
    (hx : landed t id op a owner x) (h : owner = .disarmed ∨ M.fails a = true) :
    finished t id op a x := by
  obtain ⟨res, lo, hh, hres⟩ := hx
  refine ⟨res, lo, _, hh, hres, fun l s hs => ?_⟩
  cases owner with
  | armed l' => exact ⟨only_held l s hs, h.resolve_left (by simp)⟩
  | disarmed => simp [owned] at hs

/-- An operation that may not have effect. -/
lemma can_get {f : Option Leaf → M.Ret} (hstep : ∀ m, M.step m op = (m, f (m key)))
    (hputs : ∀ o, M.puts op (f o) = none) :
    CanGet t lo key (waiting t id op lo) fun o => answered t id op (f o) lo :=
  fun _ _ hi hx hlo he => can_answer hi hx (hx.since.trans hlo) he (hstep _) (hputs _)

/-! ## Inserts -/

/-- An operation that inserts leaf `l`, and answers `f` of the outcome. -/
structure Inserts (M : Interface) (op : M.Op) (l : Leaf) (mode : Mode)
    (f : Option Outcome → M.Ret) : Prop where
  put : ∀ m, m l.key = none →
    M.step m op = (Function.update m l.key (some l), f (some (.inserted l)))
  swap : mode = .replace → ∀ m old, m l.key = some old →
    M.step m op = (Function.update m l.key (some l), f (some (.replaced old)))
  find : mode = .insertIfAbsent → ∀ m old, m l.key = some old →
    M.step m op = (m, f (some (.existing old)))
  puts : ∀ o l', M.puts op (f o) = some l' → l' = l
  puts_find : mode = .insertIfAbsent → ∀ old, M.puts op (f (some (.existing old))) = none
  fail : ¬ M.roomy → M.fails (f none) = true

section Insert

variable {f : Option Outcome → M.Ret}

/-- The leaf of an insert is not in the map yet. -/
lemma own_fresh {x : M.MapScene} {e : ℕ} {k : Key} {r : Running M.Op M.Ret} {d : ℤ}
    (hi : Inv x) (hx : Holds t r lo d (only l (.held t)) none x) :
    x.view.map e k ≠ some l := by
  intro hl
  have hst := (LeafState.part_eq_some.mp ((hx.part l).trans only_self)).1
  rcases hi.leaf.mapped e _ l hl with h | ⟨-, -, h⟩ <;> simp [hst, LeafState.Removed] at h

/-- The steps of an insert. -/
def insertHooks (t id lo : ℕ) (H : Inserts M op l mode f) :
    InsertHooks (C := M.client) t lo .plain l mode 1 (inserting t id op l lo)
      (landing t id op l f) where
  pend := holds t ⟨id, op, none⟩ lo 1 (only l (.held t)) none
  swap old := replacing t id op (f (some (.replaced old))) lo old (.cut t)
  mark old := replacing t id op (f (some (.replaced old))) lo old (.marked t)
  can_count := step_count (by norm_num) one_pos.le
  can_put x e hi hx hlo he hold hfr := by
    refine (can_set (c := 0) hi hx hlo he hold hfr ?_ (by simp [count]) le_rfl (fun l' => ?_)
      (H.put _ hold) fun l' hl' => by rw [H.puts _ _ hl']).mono fun z hz =>
        ⟨⟨_, lo, hz, .inl rfl⟩, by simp⟩
    · rintro l' hl'
      obtain rfl : l = l' := by simpa using hl'
      exact ⟨rfl, only_self⟩
    · by_cases hl : l = l'
      · simp [LeafState.replace, owned, ownerAfter, hl]
      · simp [LeafState.replace, owned, ownerAfter, only, hl, Ne.symm hl]
  can_swap old hmode x e hi hx hlo he hold hfr := by
    have hne : l ≠ old := by
      rintro rfl
      exact own_fresh hi hx hold
    refine can_set hi hx hlo he hold hfr ?_ (by simp [count]) le_rfl (fun l' => ?_)
      (H.swap hmode _ _ hold) fun l' hl' => by rw [H.puts _ _ hl']
    · rintro l' hl'
      obtain rfl : l = l' := by simpa using hl'
      exact ⟨rfl, only_self⟩
    · by_cases h1 : l' = l
      · simp [LeafState.replace, only, h1, hne]
      · by_cases h2 : l' = old
        · simp [LeafState.replace, only, h2, hne]
        · simp [LeafState.replace, only, h1, h2, Ne.symm h1, Ne.symm h2]
  can_mark old _ := step_mark_only
  can_retire old hmode x hi hx := by
    obtain ⟨h1, h2⟩ := step_retire_only x hi hx
    exact ⟨h1, h2.mono fun z hz => ⟨⟨_, lo, hz, .inl rfl⟩, by simp⟩⟩
  can_find hmode x e old hi hx hlo he hold :=
    (can_answer hi hx (hx.since.trans hlo) he (H.find hmode _ _ hold) (H.puts_find hmode old)).mono
      fun z hz => ⟨⟨_, lo, hz, .inl rfl⟩, by simp⟩
  can_fail x hx hfull := by
    have hf : M.fails (f none) = true := H.fail fun hm => hfull (hx.roomy hm)
    exact ⟨⟨_, lo, hx, .inr hf⟩, fun _ => hf⟩

/-- The leaves that an insert starts with. -/
lemma given_only (h : M.builds op = some l) : M.given t op = only l (.held t) := by
  funext l'
  simp [given, only, h, eq_comm]

end Insert

/-! ## The owner of a leaf -/

/-- The owner of a leaf that was not published frees it. -/
lemma step_free {a : M.Ret} : M.client.LeafStep t (.freeLeaf l) (landed t id op a (.armed l))
    (landed t id op a .disarmed) := by
  intro x hi ⟨res, lo, hx, hres⟩
  have hmine : Function.update (owned t (.armed l)) l none = owned t .disarmed := by
    funext l'
    by_cases hl : l' = l <;> simp [owned, only, hl]
  refine ⟨trivial, (can_free hi hx only_self).mono fun z hz => ⟨res, lo, ?_, hres⟩⟩
  rwa [hmine] at hz

/-- `Unpublished::drop`: nothing is left in the hands of the call. -/
lemma wp_drop {a : M.Ret} {owner : Unpublished} {Δ : Know} {y : M.client.W}
    (hy : M.client.At live t Δ (landed t id op a owner) y) :
    M.client.rg.wp live t owner.drop (fun _ z => M.client.At live t Δ (finished t id op a) z)
      y := by
  cases owner with
  | armed l =>
    refine RG.wp_mono (wp_leafStep step_free hy) fun _ z _ hz => ?_
    exact ⟨hz.knows, landed_finished hz.client (.inl rfl)⟩
  | disarmed => exact RG.wp_ret ⟨hy.knows, landed_finished hy.client (.inl rfl)⟩

/-! ## Removes -/

/-- An operation that removes the leaf of `key` if it is accepted, and answers `f` of it. -/
structure Removes (M : Interface) (op : M.Op) (key : Key) (accepts : Leaf → Bool)
    (f : Option Leaf → M.Ret) : Prop where
  accepts_key : ∀ {l}, accepts l = true → l.key = key
  takes : M.takes op = some key
  take : ∀ m l, accepts l = true → m key = some l →
    M.step m op = (Function.update m key none, f (some l))
  miss : ∀ m, (∀ l, m key = some l → l.key = key ∧ accepts l = false) →
    M.step m op = (m, f none)
  puts : ∀ o, M.puts op (f o) = none

/-- The steps of a remove. -/
def removeHooks {accepts : Leaf → Bool} {f : Option Leaf → M.Ret} (t id lo : ℕ)
    (H : Removes M op key accepts f) :
    RemoveHooks (C := M.client) live t lo .plain key accepts (fun _ => return some 1)
      (waiting t id op lo) (fun a => answered t id op (f a) lo) where
  taken _ c :=
    { holds := fun x => c = 1 ∧ waiting t id op lo x
      stable := fun hr hx => ⟨hx.1, (waiting t id op lo).stable hr hx.2⟩ }
  gone l c := holds t ⟨id, op, some (f (some l))⟩ lo c (only l (.cut t)) none
  marked l c := holds t ⟨id, op, some (f (some l))⟩ lo c (only l (.marked t)) none
  counted l := holds t ⟨id, op, some (f (some l))⟩ lo 0 (only l (.marked t)) none
  accepts_key := H.accepts_key
  confirms _ hx := RG.wp_ret ⟨by simp, fun c hc => ⟨hx.knows, by simpa using hc.symm, hx.client⟩⟩
  can_take {l c} hacc x e hi hx hlo he hold hfr := by
    obtain ⟨rfl, hx⟩ := hx
    exact can_set hi hx hlo he hold hfr (by simp) (by simp [count]) (by norm_num)
      (fun l' => by simp [LeafState.replace, only, eq_comm]) (H.take _ l hacc hold)
      (by rw [H.puts]; simp)
  can_mark _ _ := step_mark_only
  can_count _ c := step_count (add_neg_cancel c) le_rfl
  can_retire _ := step_retire_only
  can_miss x e hi hx hlo he hno :=
    can_answer hi hx (hx.since.trans hlo) he
      (H.miss _ fun l hl => ⟨hi.leaf.keyed e key l hl, hno l hl⟩) (H.puts none)
  taking {l c y} hx := ⟨id, op, by
    show (y.ghost.run t).map _ = _
    rw [hx.2.run]
    rfl, H.takes⟩

/-! ## Ends -/

/-- A call that was given no leaf, at its start. -/
lemma start_at (h : Starts t id op w) (hb : M.builds op = none) :
    M.client.At live t (Know.start (tree w) (shadow w)) (waiting t id op (shadow w).cur) w := by
  have := h.at live
  rwa [show M.given t op = fun _ => none from funext fun l => if_neg (by rw [hb]; simp)] at this

/-- An insert, at its start. -/
lemma start_inserting (h : Starts t id op w) (hb : M.builds op = some l) :
    M.client.At live t (Know.start (tree w) (shadow w)) (inserting t id op l (shadow w).cur) w := by
  have := h.at live
  rwa [given_only hb] at this

/-- A call that has not touched its node any more is at its end. -/
lemma ends_idle {a : M.Ret} {y : M.client.W} {Δ : Know}
    (hΔ : (Know.start (tree w) (shadow w)).Idle Δ)
    (hy : M.client.At live t Δ (finished t id op a) y) : Ends t id op a y := by
  refine ends_of hy (fun l => ?_) (fun n => ?_) hΔ.follow hΔ.clear fun n => ?_
  · rw [hΔ.held]
    rfl
  · rw [hΔ.priv]
    rfl
  · rw [hΔ.due]
    exact fun hn => hn

/-- An insert that has answered is at its end. -/
lemma ends_quiet {a : M.Ret} {y : M.client.W} {Δ : Know}
    (hΔ : (Know.start (tree w) (shadow w)).Quiet Δ) (hp : ∀ n, Δ.priv n = none)
    (hy : M.client.At live t Δ (finished t id op a) y) : Ends t id op a y := by
  refine ends_of hy (fun l => ?_) hp hΔ.follow hΔ.clear fun n => ?_
  · rw [hΔ.held]
    rfl
  · rw [hΔ.due]
    exact fun hn => hn

lemma ends_answered {a : M.Ret} {y : M.client.W} {Δ : Know}
    (hΔ : (Know.start (tree w) (shadow w)).Idle Δ)
    (hy : M.client.At live t Δ (answered t id op a lo) y) : Ends t id op a y :=
  ends_idle hΔ ⟨hy.knows, answered_finished hy.client⟩

end Interface

end Artmap
