import Artmap.Shadow.Basic

/-!
# Runs of one version latch (`src/latch.rs`)

`HybridLatch` on its 64-bit word, with the wrapping arithmetic of the source.  A run is any
interleaving of the atomic steps of any number of threads: the loads, the compare-exchanges and
the stores of the calls on the latch, and the loads and stores of the fields that it protects,
which only the holder of a guard stores to.

The invariant (`Phase`) counts the critical sections that have been entered.  While the count does
not reach a quarter of the words, the word says which one is next.
-/

namespace Artmap

namespace HybridLatch

/-! ## Words -/

/-- The version word. -/
abbrev Word := BitVec 64

/-- `LOCK_BIT`. -/
def lockBit : Word := 0b01

/-- `OBSOLETE_BIT`. -/
def obsoleteBit : Word := 0b10

/-- `VERSION_STEP`. -/
def versionStep : Word := 0b100

/-- `HybridLatch::read_version`, of the word that it loads. -/
def readVersion (word : Word) : Option Word :=
  if word &&& (lockBit ||| obsoleteBit) = 0 then some word else none

/-- `HybridLatch::validate`, of the word that it loads. -/
def validate (word v : Word) : Bool :=
  word == v

/-- `HybridLatch::try_upgrade`: the word that its compare-exchange leaves, if it succeeds. -/
def tryUpgrade (word v : Word) : Option Word :=
  if v &&& (lockBit ||| obsoleteBit) ≠ 0 then none
  else if word = v then some (v ||| lockBit)
  else none

/-! ## Steps -/

section Steps

variable (Thread Field Value : Type)

/-- The latch, the guards that exist, and the fields that it protects. -/
structure State where
  word : Word
  /-- Every `WriteGuard`, with the thread that holds it: its version at acquisition. -/
  guards : List (Thread × Word)
  /-- The version that a thread in the loop of `lock` is about to upgrade. -/
  pending : Thread → Option Word
  fields : Field → Value

/-- What a thread does in one step, and what it gets. -/
inductive Event where
  | readVersion (t : Thread) (r : Option Word)
  | validate (t : Thread) (v : Word) (ok : Bool)
  | tryUpgrade (t : Thread) (v : Word) (ok : Bool)
  /-- A step in the loop of `lock`, which goes on. -/
  | spin (t : Thread)
  /-- `lock` returns. -/
  | lock (t : Thread) (r : Option Word)
  /-- `unlock`, with the version that it returns. -/
  | unlock (t : Thread) (v nv : Word)
  | drop (t : Thread) (v : Word)
  | markObsolete (t : Thread) (v : Word)
  | load (t : Thread) (f : Field) (x : Value)
  | store (t : Thread) (f : Field) (x : Value)

end Steps

variable {Thread Field Value : Type}

/-- `HybridLatch::new`, with no thread at it. -/
def State.new (fields : Field → Value) : State Thread Field Value where
  word := 0
  guards := []
  pending _ := none
  fields := fields

namespace Event

/-- A guard is handed out. -/
def acquires : Event Thread Field Value → Bool
  | .tryUpgrade _ _ ok => ok
  | .lock _ r => r.isSome
  | _ => false

/-- The version that a caller is handed. -/
def handsOut : Event Thread Field Value → Option Word
  | .readVersion _ r => r
  | .unlock _ _ nv => some nv
  | _ => none

/-- A version is confirmed: it is validated, or upgraded. -/
def Confirms (e : Event Thread Field Value) (v : Word) : Prop :=
  ∃ t, e = .validate t v true ∨ e = .tryUpgrade t v true

end Event

section Step

variable [DecidableEq Thread] [DecidableEq Field]

namespace State

variable (s : State Thread Field Value)

/-- A guard for the version `v` comes into being, and `w` is the word. -/
def acquire (t : Thread) (v w : Word) : State Thread Field Value :=
  { s with word := w, guards := (t, v) :: s.guards }

/-- A guard is given up, and `w` is stored. -/
def release (t : Thread) (v w : Word) : State Thread Field Value :=
  { s with word := w, guards := s.guards.erase (t, v) }

/-- What a thread in the loop of `lock` is about to upgrade. -/
def setPending (t : Thread) (p : Option Word) : State Thread Field Value :=
  { s with pending := Function.update s.pending t p }

end State

/-- The atomic steps. -/
inductive Step : State Thread Field Value → Event Thread Field Value →
    State Thread Field Value → Prop where
  | readVersion (s t) : Step s (.readVersion t (readVersion s.word)) s
  | validate (s t v) : Step s (.validate t v (validate s.word v)) s
  | upgrade {s t v w} (h : tryUpgrade s.word v = some w) :
      Step s (.tryUpgrade t v true) (s.acquire t v w)
  | upgradeFails {s t v} (h : tryUpgrade s.word v = none) : Step s (.tryUpgrade t v false) s
  /-- `lock` loads the word, and the latch is obsolete. -/
  | lockObsolete {s t} (h : s.word &&& obsoleteBit ≠ 0) :
      Step s (.lock t none) (s.setPending t none)
  /-- `lock` loads the word: unless it is locked, an upgrade is tried next. -/
  | lockLoad {s t} (h : s.word &&& obsoleteBit = 0) :
      Step s (.spin t) (s.setPending t (if s.word &&& lockBit = 0 then some s.word else none))
  | lockUpgrade {s t v w} (hp : s.pending t = some v) (h : tryUpgrade s.word v = some w) :
      Step s (.lock t (some v)) ((s.acquire t v w).setPending t none)
  | lockRetry {s t v} (hp : s.pending t = some v) (h : tryUpgrade s.word v = none) :
      Step s (.spin t) (s.setPending t none)
  | unlock {s t v} (h : (t, v) ∈ s.guards) :
      Step s (.unlock t v (v + versionStep)) (s.release t v (v + versionStep))
  | drop {s t v} (h : (t, v) ∈ s.guards) :
      Step s (.drop t v) (s.release t v (v + versionStep))
  | markObsolete {s t v} (h : (t, v) ∈ s.guards) :
      Step s (.markObsolete t v) (s.release t v (v ||| obsoleteBit))
  | load (s t f) : Step s (.load t f (s.fields f)) s
  /-- W1 and W3: the fields are stored to in critical sections. -/
  | store {s t v f} (h : (t, v) ∈ s.guards) (x) :
      Step s (.store t f x) { s with fields := Function.update s.fields f x }

variable (Thread Field Value) in
/-- A run of a latch, from `HybridLatch::new` on. -/
structure Run where
  length : ℕ
  state : ℕ → State Thread Field Value
  event : ℕ → Event Thread Field Value
  start : ∃ fields, state 0 = State.new fields
  step : ∀ i < length, Step (state i) (event i) (state (i + 1))

/-- The number of critical sections that the first `n` steps enter. -/
def Run.entered (r : Run Thread Field Value) : ℕ → ℕ
  | 0 => 0
  | n + 1 => r.entered n + (r.event n).acquires.toNat

end Step

/-! ## What the calls do to a word -/

section Words

variable {word v w : Word}

lemma free_iff (v : Word) : v &&& (lockBit ||| obsoleteBit) = 0 ↔ v.toNat % 4 = 0 := by
  rw [← BitVec.toNat_inj, BitVec.toNat_and]
  exact word_free_iff v.toNat

lemma obsolete_iff (v : Word) : v &&& obsoleteBit = 0 ↔ v.toNat % 4 < 2 := by
  rw [← BitVec.toNat_inj, BitVec.toNat_and]
  exact word_obsolete_iff

lemma readVersion_eq_some : readVersion word = some v ↔ word = v ∧ v.toNat % 4 = 0 := by
  unfold readVersion
  split_ifs with h <;> rw [free_iff] at h
  · rw [Option.some_inj]
    exact ⟨fun hv => ⟨hv, hv ▸ h⟩, fun hv => hv.1⟩
  · exact ⟨by simp, fun hv => absurd (hv.1 ▸ hv.2) h⟩

lemma validate_iff : validate word v = true ↔ word = v := by
  unfold validate
  exact beq_iff_eq

lemma tryUpgrade_eq_some : tryUpgrade word v = some w ↔
    word = v ∧ v.toNat % 4 = 0 ∧ w.toNat = v.toNat + 1 := by
  unfold tryUpgrade
  split_ifs with h hw <;> rw [ne_eq, free_iff] at h
  · simp only [false_iff, not_and]
    exact fun _ hv => absurd hv h
  · have hlock : (v ||| lockBit).toNat = v.toNat + 1 := by
      rw [BitVec.toNat_or]
      exact Free.or_lock (not_not.mp h)
    rw [Option.some_inj, ← BitVec.toNat_inj (y := w), hlock]
    exact ⟨fun he => ⟨hw, not_not.mp h, he.symm⟩, fun he => he.2.2.symm⟩
  · simp only [false_iff, not_and]
    exact fun hv => absurd hv hw

/-- A free word can be upgraded to. -/
lemma tryUpgrade_self (h : v.toNat % 4 = 0) : tryUpgrade v v = some (v ||| lockBit) := by
  unfold tryUpgrade
  rw [if_neg (not_not.mpr ((free_iff v).mpr h)), if_pos rfl]

lemma toNat_or_obsolete (h : v.toNat % 4 = 0) : (v ||| obsoleteBit).toNat = v.toNat + 2 := by
  rw [BitVec.toNat_or]
  exact Free.or_obsolete h

lemma toNat_add_step (h : v.toNat + 4 < 2 ^ 64) : (v + versionStep).toNat = v.toNat + 4 := by
  rw [BitVec.toNat_add]
  exact Nat.mod_eq_of_lt h

end Words

/-! ## The invariant -/

variable {s s' : State Thread Field Value} {e : Event Thread Field Value} {k : ℕ}

/-- What the latch is in after `k` critical sections have been entered. -/
inductive Phase (s : State Thread Field Value) (k : ℕ) : Prop where
  /-- No guard exists, and the word is the next version. -/
  | idle (hg : s.guards = []) (hw : s.word.toNat = 4 * k)
  /-- One guard exists, of the last section that has been entered. -/
  | held {t v} (hg : s.guards = [(t, v)]) (hv : v.toNat + 4 = 4 * k)
    (hw : s.word.toNat = v.toNat + 1)
  /-- The latch is obsolete. -/
  | obsolete (hg : s.guards = []) (hw : s.word.toNat % 4 = 2)

namespace Phase

lemma new (fields : Field → Value) : Phase (State.new fields : State Thread Field Value) 0 :=
  .idle rfl rfl

lemma guards_le (h : Phase s k) : s.guards.length ≤ 1 := by
  cases h with
  | idle hg => simp [hg]
  | held hg => simp [hg]
  | obsolete hg => simp [hg]

/-- A free word says how many sections there have been, and that none is open. -/
lemma of_free (h : Phase s k) (hw : s.word.toNat % 4 = 0) :
    s.guards = [] ∧ s.word.toNat = 4 * k := by
  cases h with
  | idle hg hw' => exact ⟨hg, hw'⟩
  | held hg hv hw' => omega
  | obsolete hg hw' => omega

/-- Who holds a guard holds the one of the section that is open. -/
lemma of_guard (h : Phase s k) {t : Thread} {v : Word} (hm : (t, v) ∈ s.guards) :
    s.guards = [(t, v)] ∧ v.toNat + 4 = 4 * k := by
  cases h with
  | idle hg => simp [hg] at hm
  | @held t' v' hg hv hw =>
    obtain ⟨rfl, rfl⟩ : t = t' ∧ v = v' := by simpa [hg] using hm
    exact ⟨hg, hv⟩
  | obsolete hg => simp [hg] at hm

/-- An upgrade that succeeds finds the latch idle, and enters the next section. -/
lemma acquire (h : Phase s k) {t : Thread} {v w : Word} (hu : tryUpgrade s.word v = some w) :
    Phase (s.acquire t v w) (k + 1) := by
  obtain ⟨hv, hfree, hw⟩ := tryUpgrade_eq_some.mp hu
  obtain ⟨hg, hk⟩ := h.of_free (hv ▸ hfree)
  refine .held (t := t) (v := v) ?_ (by rw [← hv, hk]; omega) hw
  show (t, v) :: s.guards = [(t, v)]
  rw [hg]

variable [DecidableEq Thread]

lemma release_guards (h : Phase s k) {t : Thread} {v : Word} (hm : (t, v) ∈ s.guards)
    (w : Word) : (s.release t v w).guards = [] := by
  show s.guards.erase (t, v) = []
  rw [(h.of_guard hm).1, List.erase_cons_head]

/-- What `lock` keeps to itself is no part of the phase. -/
lemma setPending (h : Phase s k) (t : Thread) (p : Option Word) : Phase (s.setPending t p) k := by
  cases h with
  | idle hg hw => exact .idle hg hw
  | held hg hv hw => exact .held hg hv hw
  | obsolete hg hw => exact .obsolete hg hw

/-- A release makes the latch idle again. -/
lemma unlock (h : Phase s k) (hk : k < 2 ^ 62) {t : Thread} {v : Word}
    (hm : (t, v) ∈ s.guards) : Phase (s.release t v (v + versionStep)) k := by
  have hv := (h.of_guard hm).2
  refine .idle (h.release_guards hm _) ?_
  show (v + versionStep).toNat = 4 * k
  rw [toNat_add_step (by omega), hv]

lemma markObsolete (h : Phase s k) {t : Thread} {v : Word} (hm : (t, v) ∈ s.guards) :
    Phase (s.release t v (v ||| obsoleteBit)) k := by
  have hv := (h.of_guard hm).2
  refine .obsolete (h.release_guards hm _) ?_
  show (v ||| obsoleteBit).toNat % 4 = 2
  rw [toNat_or_obsolete (by omega)]
  omega

variable [DecidableEq Field]

/-- **One step** keeps the phase, and counts the section that it enters. -/
lemma step (h : Phase s k) (hk : k < 2 ^ 62) (hs : Step s e s') :
    Phase s' (k + e.acquires.toNat) := by
  cases hs with
  | readVersion => exact h
  | validate => exact h
  | upgrade hu => exact h.acquire hu
  | upgradeFails => exact h
  | lockObsolete => exact h.setPending _ _
  | lockLoad => exact h.setPending _ _
  | lockUpgrade _ hu => exact (h.acquire hu).setPending _ _
  | lockRetry => exact h.setPending _ _
  | unlock hm => exact h.unlock hk hm
  | drop hm => exact h.unlock hk hm
  | markObsolete hm => exact h.markObsolete hm
  | load => exact h
  | store =>
    cases h with
    | idle hg hw => exact .idle hg hw
    | held hg hv hw => exact .held hg hv hw
    | obsolete hg hw => exact .obsolete hg hw

end Phase

variable [DecidableEq Thread] [DecidableEq Field]

/-! ## Steps outside critical sections -/

/-- While there is no guard and none is handed out, nothing changes. -/
lemma Step.quiet (hs : Step s e s') (hg : s.guards = []) (he : e.acquires = false) :
    s'.guards = [] ∧ s'.word = s.word ∧ s'.fields = s.fields := by
  cases hs with
  | upgrade => cases he
  | lockUpgrade => cases he
  | unlock hm => simp [hg] at hm
  | drop hm => simp [hg] at hm
  | markObsolete hm => simp [hg] at hm
  | store hm => simp [hg] at hm
  | _ => exact ⟨hg, rfl, rfl⟩

lemma Step.readVersion_eq {t : Thread} {o : Option Word} (hs : Step s (.readVersion t o) s') :
    o = HybridLatch.readVersion s.word := by
  cases hs
  rfl

lemma Step.load_eq {t : Thread} {f : Field} {x : Value} (hs : Step s (.load t f x) s') :
    x = s.fields f := by
  cases hs
  rfl

/-- What confirms a version finds it in the word. -/
lemma Step.word_of_confirms (hs : Step s e s') {v : Word} (hc : e.Confirms v) : s.word = v := by
  obtain ⟨t, rfl | rfl⟩ := hc
  · generalize hok : true = ok at hs
    cases hs
    exact validate_iff.mp hok.symm
  · cases hs with
    | upgrade hu => exact (tryUpgrade_eq_some.mp hu).1

/-- What hands out a guard finds the word free. -/
lemma Step.free_of_acquires (hs : Step s e s') (he : e.acquires = true) :
    s.word.toNat % 4 = 0 := by
  cases hs with
  | upgrade hu =>
    obtain ⟨hv, hfree, -⟩ := tryUpgrade_eq_some.mp hu
    rw [hv, hfree]
  | lockUpgrade _ hu =>
    obtain ⟨hv, hfree, -⟩ := tryUpgrade_eq_some.mp hu
    rw [hv, hfree]
  | _ => cases he

/-- The versions that are handed out number the sections that have been entered. -/
lemma Step.handsOut (hs : Step s e s') (h : Phase s k) (hk : k < 2 ^ 62) {v : Word}
    (hv : e.handsOut = some v) : v.toNat = 4 * k := by
  cases hs with
  | readVersion =>
    obtain ⟨hw, hfree⟩ := readVersion_eq_some.mp hv
    rw [← hw] at hfree ⊢
    exact (h.of_free hfree).2
  | unlock hm =>
    obtain rfl : _ = v := Option.some.inj hv
    have hg := (h.of_guard hm).2
    rw [toNat_add_step (by omega), hg]
  | _ => cases hv

/-- An obsolete latch hands out no guard. -/
lemma Step.not_acquires (hs : Step s e s') (hw : s.word.toNat % 4 = 2) : e.acquires = false := by
  cases he : e.acquires with
  | false => rfl
  | true =>
    have := hs.free_of_acquires he
    omega

/-- In the loop of `lock`, a step on an obsolete latch is an upgrade that fails. -/
lemma Step.spin_obsolete {t : Thread} (hs : Step s (.spin t) s') (hw : s.word.toNat % 4 = 2) :
    s.pending t ≠ none ∧ s'.pending t = none := by
  cases hs with
  | lockLoad h =>
    have := (obsolete_iff _).mp h
    omega
  | lockRetry hp _ => exact ⟨by simp [hp], Function.update_self ..⟩

/-- No thread begins another one. -/
lemma Step.pending_obsolete (hs : Step s e s') (hw : s.word.toNat % 4 = 2) {t : Thread}
    (ht : s.pending t = none) : s'.pending t = none := by
  have hset : ∀ u, (s.setPending u none).pending t = none := by
    intro u
    show Function.update s.pending u none t = none
    by_cases hu : t = u
    · rw [hu, Function.update_self]
    · rw [Function.update_of_ne hu, ht]
  cases hs with
  | lockObsolete => exact hset _
  | lockRetry => exact hset _
  | lockLoad h =>
    have := (obsolete_iff _).mp h
    omega
  | lockUpgrade hp hu =>
    obtain ⟨hv, hfree, -⟩ := tryUpgrade_eq_some.mp hu
    rw [← hv] at hfree
    omega
  | _ => exact ht

/-! ## Runs -/

namespace Run

variable {r : Run Thread Field Value} {i j n : ℕ}

lemma entered_mono (h : i ≤ j) : r.entered i ≤ r.entered j := by
  induction j, h using Nat.le_induction with
  | base => exact le_rfl
  | succ j _ ih => exact ih.trans (Nat.le_add_right _ _)

lemma entered_lt (ha : (r.event i).acquires = true) (h : i < j) :
    r.entered i < r.entered j := by
  have hi : r.entered (i + 1) = r.entered i + 1 := by rw [entered, ha, Bool.toNat_true]
  have hle := r.entered_mono (show i + 1 ≤ j from h)
  omega

/-- The run that goes on with one more step. -/
def concat (r : Run Thread Field Value) {e : Event Thread Field Value}
    {s' : State Thread Field Value} (hs : Step (r.state r.length) e s') :
    Run Thread Field Value where
  length := r.length + 1
  state := Function.update r.state (r.length + 1) s'
  event := Function.update r.event r.length e
  start := by
    rw [Function.update_of_ne (Nat.succ_ne_zero _).symm]
    exact r.start
  step i hi := by
    rcases Nat.lt_succ_iff_lt_or_eq.mp hi with h | rfl
    · rw [Function.update_of_ne (by omega), Function.update_of_ne (by omega),
        Function.update_of_ne (by omega)]
      exact r.step i h
    · rwa [Function.update_of_ne (by omega), Function.update_self, Function.update_self]

lemma entered_concat {e : Event Thread Field Value} {s' : State Thread Field Value}
    (hs : Step (r.state r.length) e s') :
    (r.concat hs).entered (r.length + 1) = r.entered r.length + e.acquires.toNat := by
  have hold : ∀ n ≤ r.length, (r.concat hs).entered n = r.entered n := by
    intro n hn
    induction n with
    | zero => rfl
    | succ n ih =>
      have hev : (r.concat hs).event n = r.event n := Function.update_of_ne (by omega) _ _
      rw [entered, entered, ih (by omega), hev]
  have hev : (r.concat hs).event r.length = e := Function.update_self ..
  rw [entered, hold _ le_rfl, hev]

/-- **In a run** that enters fewer than `2 ^ 62` critical sections, the invariant always holds. -/
lemma phase (hfew : r.entered r.length < 2 ^ 62) (hi : i ≤ r.length) :
    Phase (r.state i) (r.entered i) := by
  induction i with
  | zero =>
    obtain ⟨fields, h⟩ := r.start
    rw [h]
    exact Phase.new fields
  | succ i ih =>
    have hlt : r.entered i < 2 ^ 62 := (r.entered_mono (by omega)).trans_lt hfew
    exact (ih (by omega)).step hlt (r.step i hi)

/-- While no section is entered, a latch without a guard stays what it is. -/
lemma quiet (hg : (r.state i).guards = []) (h : i ≤ j) (hj : j ≤ r.length)
    (he : r.entered j = r.entered i) :
    (r.state j).guards = [] ∧ (r.state j).word = (r.state i).word ∧
      (r.state j).fields = (r.state i).fields := by
  induction j, h using Nat.le_induction with
  | base => exact ⟨hg, rfl, rfl⟩
  | succ j hij ih =>
    have hsum : r.entered (j + 1) = r.entered j + (r.event j).acquires.toNat := rfl
    have hle := r.entered_mono hij
    obtain ⟨hg', hw, hf⟩ := ih (by omega) (by omega)
    have hacq : (r.event j).acquires = false := by
      cases hb : (r.event j).acquires with
      | false => rfl
      | true =>
        rw [hb, Bool.toNat_true] at hsum
        omega
    obtain ⟨hg'', hw', hf'⟩ := (r.step j hj).quiet hg' hacq
    exact ⟨hg'', hw'.trans hw, hf'.trans hf⟩

/-- Obsolete is for ever. -/
lemma obsolete (hg : (r.state i).guards = []) (hw : (r.state i).word.toNat % 4 = 2) (h : i ≤ j)
    (hj : j ≤ r.length) : (r.state j).guards = [] ∧ (r.state j).word.toNat % 4 = 2 := by
  induction j, h using Nat.le_induction with
  | base => exact ⟨hg, hw⟩
  | succ j _ ih =>
    obtain ⟨hg', hw'⟩ := ih (by omega)
    obtain ⟨hg'', hword, -⟩ := (r.step j hj).quiet hg' ((r.step j hj).not_acquires hw')
    exact ⟨hg'', hword ▸ hw'⟩

lemma pending_none {t : Thread} (hg : (r.state i).guards = [])
    (hw : (r.state i).word.toNat % 4 = 2) (ht : (r.state i).pending t = none) (h : i ≤ j)
    (hj : j ≤ r.length) : (r.state j).pending t = none := by
  induction j, h using Nat.le_induction with
  | base => exact ht
  | succ j hij ih =>
    exact (r.step j hj).pending_obsolete (r.obsolete hg hw hij (by omega)).2 (ih (by omega))

/-- A version that was read and is confirmed later: there has been no guard in between, and the
fields have not changed. -/
lemma confirmed (hfew : r.entered r.length < 2 ^ 62) (h : i < j) (hj : j < r.length)
    {t : Thread} {v : Word} (hr : r.event i = .readVersion t (some v))
    (hc : (r.event j).Confirms v) (hin : i ≤ n) (hnj : n ≤ j) :
    (r.state n).guards = [] ∧ (r.state n).fields = (r.state i).fields := by
  have hphase := r.phase hfew (i := i) (by omega)
  have hword : (r.state i).word = v ∧ v.toNat % 4 = 0 := by
    have hs := r.step i (by omega)
    rw [hr] at hs
    exact readVersion_eq_some.mp hs.readVersion_eq.symm
  obtain ⟨hg, hi⟩ := hphase.of_free (hword.1 ▸ hword.2)
  have hwj : (r.state j).word = v := (r.step j hj).word_of_confirms hc
  obtain ⟨-, hkj⟩ := (r.phase hfew hj.le).of_free (hwj ▸ hword.2)
  have heq : r.entered j = r.entered i := by
    rw [hwj, ← hword.1] at hkj
    omega
  have h1 := r.entered_mono hin
  have h2 := r.entered_mono hnj
  obtain ⟨hgn, -, hfn⟩ := r.quiet hg hin (by omega) (by omega)
  exact ⟨hgn, hfn⟩

/-- The latch is obsolete once it has been marked. -/
lemma marked (hfew : r.entered r.length < 2 ^ 62) (h : i < j) (hj : j ≤ r.length) {t : Thread}
    {v : Word} (hm : r.event i = .markObsolete t v) :
    (r.state j).guards = [] ∧ (r.state j).word.toNat % 4 = 2 := by
  have hs := r.step i (by omega)
  rw [hm] at hs
  have hphase := r.phase hfew (i := i) (by omega)
  have hnext : (r.state (i + 1)).guards = [] ∧ (r.state (i + 1)).word.toNat % 4 = 2 := by
    generalize r.state (i + 1) = s' at hs
    cases hs with
    | markObsolete hmem =>
      have hv := (hphase.of_guard hmem).2
      refine ⟨hphase.release_guards hmem _, ?_⟩
      show (v ||| obsoleteBit).toNat % 4 = 2
      rw [toNat_or_obsolete (by omega)]
      omega
  exact r.obsolete hnext.1 hnext.2 h hj

end Run

/-- **The version latch.**  In every run of any number of threads that enters fewer than `2 ^ 62`
critical sections: at most one guard exists at a time; between a read of a version and a
validation or an upgrade of it that succeeds no guard has existed, and the fields are those of one
moment; the versions that are handed out increase from one critical section to the next; and once
the latch is marked obsolete no version is read, no guard is handed out, no version that was ever
handed out is confirmed, and a thread that is in the loop of `lock` goes around it at most once
more. -/
theorem latch_sound (r : Run Thread Field Value) (hfew : r.entered r.length < 2 ^ 62) :
    (∀ i ≤ r.length, (r.state i).guards.length ≤ 1) ∧
    (∀ i j t v, i < j → j < r.length → r.event i = .readVersion t (some v) →
      (r.event j).Confirms v →
      (∀ n, i ≤ n → n ≤ j → (r.state n).guards = []) ∧
      ∀ n u f x, i ≤ n → n ≤ j → r.event n = .load u f x → x = (r.state i).fields f) ∧
    (∀ i n j v v', i < n → n < j → j < r.length → (r.event i).handsOut = some v →
      (r.event n).acquires = true → (r.event j).handsOut = some v' → v.toNat < v'.toNat) ∧
    ∀ i t v, r.event i = .markObsolete t v → ∀ j, i < j → j < r.length →
      (∀ u o, r.event j = .readVersion u o → o = none) ∧
      (∀ u o, r.event j = .lock u o → o = none) ∧
      (∀ m w, m < r.length → (r.event m).handsOut = some w → ¬ (r.event j).Confirms w) ∧
      ∀ u n, r.event j = .spin u → j < n → n < r.length → r.event n ≠ .spin u := by
  have hlt : ∀ i ≤ r.length, r.entered i < 2 ^ 62 := fun i hi =>
    (r.entered_mono hi).trans_lt hfew
  have hands : ∀ i v, i < r.length → (r.event i).handsOut = some v →
      v.toNat = 4 * r.entered i := fun i v hi hv =>
    (r.step i hi).handsOut (r.phase hfew hi.le) (hlt i hi.le) hv
  refine ⟨fun i hi => (r.phase hfew hi).guards_le, ?_, ?_, ?_⟩
  · intro i j t v hij hj hr hc
    refine ⟨fun n hin hnj => (r.confirmed hfew hij hj hr hc hin hnj).1, ?_⟩
    intro n u f x hin hnj hload
    rw [← (r.confirmed hfew hij hj hr hc hin hnj).2]
    have hs := r.step n (by omega)
    rw [hload] at hs
    exact hs.load_eq
  · intro i n j v v' hin hnj hj hv hacq hv'
    rw [hands i v (by omega) hv, hands j v' hj hv']
    have h1 := r.entered_mono hin.le
    have h2 := r.entered_lt hacq hnj
    omega
  · intro i t v hm j hij hj
    obtain ⟨hg, hw⟩ := r.marked hfew hij hj.le hm
    have hs := r.step j hj
    refine ⟨?_, ?_, ?_, ?_⟩
    · intro u o ho
      rw [ho] at hs
      cases o with
      | none => rfl
      | some w =>
        obtain ⟨hword, hfree⟩ := readVersion_eq_some.mp hs.readVersion_eq.symm
        rw [← hword] at hfree
        omega
    · intro u o ho
      have hacq := hs.not_acquires hw
      rw [ho] at hacq
      exact Option.isSome_eq_false_iff.mp hacq |> Option.isNone_iff_eq_none.mp
    · intro m w hm' hw' hc
      have hval := hands m w hm' hw'
      rw [hs.word_of_confirms hc] at hw
      omega
    · intro u n hspin hjn hn hspin'
      rw [hspin] at hs
      have hs' := r.step n hn
      rw [hspin'] at hs'
      obtain ⟨hg', hw'⟩ := r.marked hfew (show i < j + 1 by omega) (by omega) hm
      exact (hs'.spin_obsolete (r.marked hfew (by omega) hn.le hm).2).1
        (r.pending_none hg' hw' (hs.spin_obsolete hw).2 hjn hn.le)

/-- Two threads: one reads a version, the other locks the latch and marks it obsolete, and the
version is not confirmed. -/
def obsoleteRun : Run ℕ ℕ ℕ where
  length := 5
  state
    | 0 | 1 => State.new fun _ => 0
    | 2 => (State.new fun _ => 0).setPending 1 (some 0)
    | 3 => (((State.new fun _ => 0).setPending 1 (some 0)).acquire 1 0 1).setPending 1 none
    | _ => ((((State.new fun _ => 0).setPending 1 (some 0)).acquire 1 0 1).setPending 1
        none).release 1 0 2
  event
    | 0 => .readVersion 0 (some 0)
    | 1 => .spin 1
    | 2 => .lock 1 (some 0)
    | 3 => .markObsolete 1 0
    | _ => .validate 0 0 false
  start := ⟨fun _ => 0, rfl⟩
  step i hi := by
    interval_cases i
    · exact .readVersion _ _
    · exact .lockLoad (by decide)
    · exact .lockUpgrade (w := 1) rfl (by decide)
    · exact .markObsolete (by decide)
    · exact .validate _ _ _

theorem latch_sound_obsolete :
    obsoleteRun.event 0 = .readVersion 0 (some 0) ∧ obsoleteRun.event 3 = .markObsolete 1 0 ∧
      ¬ (obsoleteRun.event 4).Confirms 0 ∧
      ∀ i ≤ 5, (obsoleteRun.state i).guards.length ≤ 1 :=
  have h := latch_sound obsoleteRun (by decide)
  ⟨rfl, rfl, (h.2.2.2 3 1 0 rfl 4 (by decide) (by decide)).2.2.1 0 0 (by decide) rfl, h.1⟩

end HybridLatch

end Artmap
