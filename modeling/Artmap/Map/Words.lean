import Artmap.Alone.Memory
import Artmap.Latch.Runs
import Artmap.Map.Structure

/-!
# 64-bit version words

The words of the model's latches are natural numbers, those of the source have 64 bits, and a
release wraps them around.  Here are the runs of a map on words of 64 bits.  A release that wraps
around comes after `2 ^ 62` critical sections of one latch, so until then they are runs of the
model, whose theorems apply to them.  Each latch goes through a run of `HybridLatch`, and the calls
on it answer as those of `HybridLatch` do.
-/

namespace Artmap

/-! ## Calls -/

section Calls

variable {t : ℕ} {m : Mem} {l : LatchId} {w v w' : HybridLatch.Word}

/-- The memory with the 64-bit word `w` in latch `l`. -/
def Mem.setWord (m : Mem) (l : LatchId) (w : HybridLatch.Word) : Mem :=
  { m with tree := Shadow.setWord m.tree l w.toNat }

lemma alone_readVersion_word (h : m.tree.latch l = w.toNat) :
    Alone t (readVersion l) m ((HybridLatch.readVersion w).map BitVec.toNat) m := by
  refine .act ?_
  show Prog.Alone _ (.ret (if m.tree.latch l &&& (lockBit ||| obsoleteBit) = 0 then
    some (m.tree.latch l) else none)) m _ m
  have hans : (HybridLatch.readVersion w).map BitVec.toNat =
      if m.tree.latch l &&& (lockBit ||| obsoleteBit) = 0 then some (m.tree.latch l) else none := by
    unfold HybridLatch.readVersion
    rw [h]
    by_cases hw : w.toNat % 4 = 0
    · rw [if_pos ((HybridLatch.free_iff w).mpr hw), if_pos ((word_free_iff _).mpr hw)]
      rfl
    · rw [if_neg fun hc => hw ((HybridLatch.free_iff w).mp hc),
        if_neg fun hc => hw ((word_free_iff _).mp hc)]
      rfl
  rw [hans]
  exact .ret _ _

lemma alone_validate_word (h : m.tree.latch l = w.toNat) :
    Alone t (validate l v.toNat) m (HybridLatch.validate w v) m := by
  refine .act ?_
  show Prog.Alone _ (.ret (decide (m.tree.latch l = v.toNat))) m _ m
  have hans : HybridLatch.validate w v = decide (m.tree.latch l = v.toNat) := by
    rw [h, Bool.eq_iff_iff, HybridLatch.validate_iff, decide_eq_true_iff, BitVec.toNat_inj]
  rw [hans]
  exact .ret _ _

/-- An upgrade that succeeds leaves the word that `HybridLatch` leaves. -/
lemma alone_tryUpgrade_word (h : m.tree.latch l = w.toNat)
    (hu : HybridLatch.tryUpgrade w v = some w') :
    Alone t (tryUpgrade l v.toNat) m (some v.toNat) (m.setWord l w') := by
  obtain ⟨rfl, hfree, hw'⟩ := HybridLatch.tryUpgrade_eq_some.mp hu
  have hf : Free w.toNat := hfree
  have hword : w.toNat ||| lockBit = w'.toNat := hf.or_lock.trans hw'.symm
  unfold tryUpgrade
  rw [if_neg (not_not.mpr ((word_free_iff _).mpr hf)), hword]
  refine .act ?_
  have hexec : execTree (.casLatch l w.toNat w'.toNat) m.tree =
      (true, Shadow.setWord m.tree l w'.toNat) := if_pos h
  simp only [exec, hexec]
  exact .ret _ _

/-- One that fails there fails here. -/
lemma alone_tryUpgrade_fails (h : m.tree.latch l = w.toNat)
    (hu : HybridLatch.tryUpgrade w v = none) : Alone t (tryUpgrade l v.toNat) m none m := by
  unfold tryUpgrade
  by_cases hv : v.toNat &&& (lockBit ||| obsoleteBit) = 0
  · have hne : m.tree.latch l ≠ v.toNat := by
      intro heq
      have hwv : w = v := BitVec.toNat_inj.mp (h.symm.trans heq)
      rw [hwv, HybridLatch.tryUpgrade_self ((word_free_iff _).mp hv)] at hu
      cases hu
    rw [if_neg (not_not.mpr hv)]
    refine .act ?_
    have hexec : execTree (.casLatch l v.toNat (v.toNat ||| lockBit)) m.tree =
        (false, m.tree) := if_neg hne
    simp only [exec, hexec]
    exact .ret _ _
  · rw [if_pos hv]
    exact .ret _ _

/-- A release stores the version that `HybridLatch` stores, unless that wraps around. -/
lemma alone_unlock_word (hv : v.toNat + 4 < 2 ^ 64) :
    Alone t (unlock l v.toNat) m (v + HybridLatch.versionStep).toNat
      (m.setWord l (v + HybridLatch.versionStep)) := by
  have hword : v.toNat + versionStep = (v + HybridLatch.versionStep).toNat :=
    (HybridLatch.toNat_add_step hv).symm
  unfold unlock
  rw [hword]
  exact .act (.ret _ _)

lemma alone_markObsolete_word :
    Alone t (markObsolete l v.toNat) m () (m.setWord l (v ||| HybridLatch.obsoleteBit)) := by
  have hword : v.toNat ||| obsoleteBit = (v ||| HybridLatch.obsoleteBit).toNat :=
    (BitVec.toNat_or v HybridLatch.obsoleteBit).symm
  unfold markObsolete
  rw [hword]
  exact .perform _ _

end Calls

/-! ## Runs -/

/-- The words of the latches cut down to 64 bits. -/
def Mem.wrap (m : Mem) : Mem :=
  { m with tree := { m.tree with latch := fun l => m.tree.latch l % 2 ^ 64 } }

lemma Mem.wrap_eq {m : Mem} (h : ∀ l, m.tree.latch l < 2 ^ 64) : m.wrap = m := by
  have hlatch : (fun l => m.tree.latch l % 2 ^ 64) = m.tree.latch := by
    funext l
    exact Nat.mod_eq_of_lt (h l)
  unfold Mem.wrap
  rw [hlatch]

/-- A step that turns a word from `w` to `w'` takes the latch. -/
def Takes (w w' : ℕ) : Bool :=
  decide (w % 4 = 0) && decide (w' % 4 = 1)

/-- The word `w` is what a run of `HybridLatch` leaves that enters `k` critical sections. -/
def Ran (w k : ℕ) : Prop :=
  ∃ r : HybridLatch.Run ℕ Empty Unit, (r.state r.length).word.toNat = w ∧
    r.entered r.length = k

namespace Ran

variable {w w' k : ℕ}

lemma new : Ran 0 0 :=
  ⟨⟨0, fun _ => .new fun _ => (), fun _ => .spin 0, ⟨_, rfl⟩, fun i hi => by omega⟩, rfl, rfl⟩

lemma lt (h : Ran w k) : w < 2 ^ 64 := by
  obtain ⟨r, rfl, -⟩ := h
  exact BitVec.isLt _

/-- **One step**: however the model turns the word, `HybridLatch` has a step that does. -/
lemma turn (h : Ran w k) (hk : k < 2 ^ 62) (hw : Turn w w') :
    Ran w' (k + (Takes w w').toNat) := by
  obtain ⟨r, rfl, rfl⟩ := h
  have hphase := HybridLatch.Run.phase hk le_rfl
  -- The run goes on with a step that leaves the word and enters a section or not.
  have hnext : ∀ {e s'}, HybridLatch.Step (r.state r.length) e s' → s'.word.toNat = w' →
      e.acquires = Takes (r.state r.length).word.toNat w' →
      Ran w' (r.entered r.length + (Takes (r.state r.length).word.toNat w').toNat) := by
    intro e s' hs hword hacq
    refine ⟨r.concat hs, ?_, ?_⟩
    · have hstate : (r.concat hs).state (r.length + 1) = s' := Function.update_self ..
      exact (congrArg (fun s => s.word.toNat) hstate).trans hword
    · rw [← hacq]
      exact HybridLatch.Run.entered_concat hs
  rcases hw with rfl | ⟨hfree, rfl⟩ | ⟨hlocked, hw⟩
  · have hno : Takes (r.state r.length).word.toNat (r.state r.length).word.toNat = false := by
      unfold Takes
      simp only [Bool.and_eq_false_iff, decide_eq_false_iff_not]
      omega
    rw [hno]
    exact ⟨r, rfl, rfl⟩
  · have hu := HybridLatch.tryUpgrade_self hfree
    refine hnext (.upgrade (t := 0) hu) (HybridLatch.tryUpgrade_eq_some.mp hu).2.2 ?_
    have hmod : (r.state r.length).word.toNat % 4 = 0 := hfree
    symm
    unfold Takes
    simp only [HybridLatch.Event.acquires, Bool.and_eq_true, decide_eq_true_eq]
    omega
  · have hno : false = Takes (r.state r.length).word.toNat w' := by
      symm
      unfold Takes
      simp only [Bool.and_eq_false_iff, decide_eq_false_iff_not]
      omega
    cases hphase with
    | idle hg hword => omega
    | obsolete hg hword => omega
    | @held t v hg hv hword =>
      have hm : (t, v) ∈ (r.state r.length).guards := by rw [hg]; exact List.mem_singleton_self _
      rcases hw with rfl | rfl
      · refine hnext (.unlock hm) ?_ hno
        show (v + HybridLatch.versionStep).toNat = _
        rw [HybridLatch.toNat_add_step (by omega), hword]
      · refine hnext (.markObsolete hm) ?_ hno
        show (v ||| HybridLatch.obsoleteBit).toNat = _
        rw [HybridLatch.toNat_or_obsolete (by omega), hword]

end Ran

namespace Interface

open Client (tree shadow)

variable {M : Interface} {full : ℕ → Bool} {c : M.client.object.Config} {S : LatchId → ℕ}

/-- The runs of a map on words of 64 bits, each with the number of critical sections of every
latch. -/
inductive WordRun (full : ℕ → Bool) : M.client.object.Config → (LatchId → ℕ) → Prop where
  | start : WordRun full (Object.initial (start full)) fun _ => 0
  | step {c c' : M.client.object.Config} {S : LatchId → ℕ} (h : WordRun full c S)
      (hs : Object.Step c c') : WordRun full ⟨Mem.wrap c'.mem, c'.running, c'.hist⟩
        fun l => S l + (Takes (c.mem.tree.latch l) (c'.mem.tree.latch l)).toNat

/-- Along a run, latch words turn as latches do. -/
lemma turn_of_step (hM : M.Safe) (hfull : M.roomy → ∀ i, full i = false)
    {c' : M.client.object.Config} (hc : Reachable full c) (hs : Object.Step c c') (l : LatchId) :
    Turn (c.mem.tree.latch l) (c'.mem.tree.latch l) := by
  obtain ⟨g, hk⟩ := RG.kept_of_reachable (M.verified hM) (start_inv full hfull) (fun _ => rfl) hc 1
  obtain ⟨t, g', -, hm, -⟩ := RG.kept_step (M.verified hM) hk hs
  rcases hm.own with hown | heq
  · exact hown.turn l
  · exact .inl (congrArg (fun w : M.client.W => (tree w).latch l) heq)

/-- **Runs on words of 64 bits** are runs of the model, as long as no latch has had `2 ^ 62`
critical sections; and each latch has gone through a run of `HybridLatch`. -/
theorem words_fit (hM : M.Safe) (hfull : M.roomy → ∀ i, full i = false) (h : WordRun full c S)
    (hS : ∀ l, S l < 2 ^ 62) : Reachable full c ∧ ∀ l, Ran (c.mem.tree.latch l) (S l) := by
  induction h with
  | start => exact ⟨.refl, fun _ => .new⟩
  | @step c c' S _ hs ih =>
    obtain ⟨hc, hran⟩ := ih fun l => (Nat.le_add_right _ _).trans_lt (hS l)
    have hlast : ∀ l, Ran (c'.mem.tree.latch l)
        (S l + (Takes (c.mem.tree.latch l) (c'.mem.tree.latch l)).toNat) := fun l =>
      (hran l).turn ((Nat.le_add_right _ _).trans_lt (hS l)) (turn_of_step hM hfull hc hs l)
    have hwrap : Mem.wrap c'.mem = c'.mem := Mem.wrap_eq fun l => (hlast l).lt
    rw [hwrap]
    exact ⟨hc.tail hs, hlast⟩

end Interface

end Artmap
