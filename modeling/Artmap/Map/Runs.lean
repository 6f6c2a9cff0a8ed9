import Artmap.Framework.Serial
import Artmap.Map.Calls
import Artmap.Shadow.Depict

/-!
# Runs of a verified map

A map whose operations run safely (`Interface.Safe`) has, behind every configuration that its
runs reach, a ghost state that fits (`Behind`).  What holds of all runs of all such maps follows
from that: their histories are linearizable, operations that are executed one at a time answer
what the specification answers, no check fails, no empty node is left behind, and the counter is
what has been counted.
-/

namespace Artmap

namespace Interface

open Client (tree shadow scene)

variable {M : Interface} {full : ℕ → Bool} {c c' : M.client.object.Config}

/-- The operations of a map run safely. -/
def Safe (M : Interface) : Prop :=
  ∀ live t id op (w : M.client.W), Starts t id op w →
    M.client.rg.wp live t (M.code op) (Ends t id op) w

/-- The configurations of the runs of a map, from the empty one on. -/
abbrev Reachable (full : ℕ → Bool) (c : M.client.object.Config) : Prop :=
  Object.Reachable (O := M.client.object) (start full) c

/-- A ghost state that fits a configuration. -/
structure Behind (c : M.client.object.Config) (w : M.client.W) : Prop where
  mem : w.mem = c.mem
  hist : w.hist = c.hist
  inv : M.client.WInv w
  tag : ∀ t, M.client.tag w.ghost.2 t = (c.running t).map fun call => (call.id, call.op)
  /-- A thread that waits for a latch holds none. -/
  waits : ∀ t id op l k, c.running t = some ⟨id, op, .act (.wait l) k⟩ →
    ∀ l', (shadow w).owner l' ≠ some t
  /-- A call that has answered has nothing left to do. -/
  ended : ∀ t id op a, c.running t = some ⟨id, op, .ret a⟩ → Ends t id op a w

lemma behind_of_kept (hM : M.Safe) {g : M.client.rg.Ghost}
    (hk : RG.Kept (M.verified hM) 1 c g) : Behind c (RG.worldOf c g) where
  mem := rfl
  hist := rfl
  inv := hk.1.1
  tag := hk.1.2
  waits t id op l k hrun := hk.now.1 t id op (.wait l) k hrun
  ended t id op a hrun := hk.now.2 t id op a hrun

/-- There is a ghost state behind every configuration that is reached. -/
theorem behind (hM : M.Safe) (hfull : M.roomy → ∀ i, full i = false) (hc : Reachable full c) :
    ∃ w, Behind c w := by
  obtain ⟨g, hk⟩ := RG.kept_of_reachable (M.verified hM) (start_inv full hfull) (fun _ => rfl)
    hc 1
  exact ⟨_, behind_of_kept hM hk⟩

/-- Of two configurations of a run, the later one is what the earlier one has become for some
thread that took no step. -/
theorem behind_later (hM : M.Safe) (hfull : M.roomy → ∀ i, full i = false)
    (hc : Reachable full c) (hs : Relation.ReflTransGen Object.Step c c') :
    ∃ t w w', Behind c w ∧ Behind c' w' ∧ M.client.rg.Rely t w w' := by
  obtain ⟨g, g', hk, hk', ts, hts⟩ := RG.kept_run (M.verified hM)
    (fun N => RG.kept_of_reachable (M.verified hM) (start_inv full hfull) (fun _ => rfl) hc N) hs 1
  obtain ⟨t, ht⟩ := Infinite.exists_notMem_finset ts.toFinset
  exact ⟨t, _, _, behind_of_kept hM hk, behind_of_kept hM hk',
    hts t (by simpa using ht)⟩

namespace Behind

variable {w : M.client.W}

/-- A thread is clean unless it runs a call that has not answered yet. -/
lemma clean (h : Behind c w) {t : ℕ}
    (ht : ∀ call, c.running t = some call → ∃ a, call.prog = .ret a) : (shadow w).Clean t := by
  cases hrun : c.running t with
  | none => exact h.inv.idle t (by rw [h.tag, hrun]; rfl)
  | some call =>
    obtain ⟨id, op, p⟩ := call
    obtain ⟨a, rfl⟩ : ∃ a, p = .ret a := ht _ hrun
    exact (h.ended t id op a hrun).clean

lemma quiet (h : Behind c w) (hq : c.Quiescent) (t : ℕ) : (shadow w).Clean t :=
  h.clean fun call hcall => by simp [hq t] at hcall

lemma idle (h : Behind c w) (hq : c.Quiescent) (t : ℕ) : Idle w.ghost.2 t := by
  refine h.inv.client.idle t ?_
  have htag := h.tag t
  rw [hq t] at htag
  exact Option.map_eq_none_iff.mp htag

/-- Where no call fails, a thread owes the map nothing unless it runs a call that has not answered
yet. -/
lemma idle_of_answered (h : Behind c w) (hfails : ∀ a, M.fails a = false) {t : ℕ}
    (ht : ∀ call, c.running t = some call → ∃ a, call.prog = .ret a) : Idle w.ghost.2 t := by
  cases hrun : c.running t with
  | none =>
    refine h.inv.client.idle t ?_
    have htag := h.tag t
    rw [hrun] at htag
    exact Option.map_eq_none_iff.mp htag
  | some call =>
    obtain ⟨id, op, p⟩ := call
    obtain ⟨a, rfl⟩ : ∃ a, p = .ret a := ht _ hrun
    obtain ⟨res, lo, mine, hh, -, hmine⟩ := (h.ended t id op a hrun).finished
    refine ⟨hh.debt, fun l => (hh.part l).trans ?_, fun e he => ?_⟩
    · cases hs : mine l with
      | none => rfl
      | some s => exact absurd (hmine l s hs).2 (by simp [hfails])
    · simpa using (hh.sweep e).mp he

lemma depicts (h : Behind c w) : Depicts c.mem.tree (shadow w).forest (shadow w).cur := by
  have := h.inv.tree.depicts
  rwa [tree, h.mem] at this

/-- In a quiescent configuration no latch is held. -/
lemma unheld (h : Behind c w) (hq : c.Quiescent) (l : LatchId) : (shadow w).owner l = none := by
  cases ho : (shadow w).owner l with
  | none => rfl
  | some t => exact absurd ho ((h.quiet hq t).owner l)

lemma free (h : Behind c w) (hq : c.Quiescent) (n : NodeId) (p : List Byte)
    (hn : (shadow w).forest.place n = some ((shadow w).cur, p)) :
    Free (c.mem.tree.latch (.node n)) := by
  have := h.inv.tree.free_of_idle (h.unheld hq) hn
  rwa [tree, h.mem] at this

/-- In every configuration, a leaf that is linked is the one of its key. -/
lemma linked (h : Behind c w) {l : Leaf} {p : List Byte} (hp : Linked c.mem.tree p (.leaf l)) :
    (shadow w).forest.map (shadow w).cur l.key = some l :=
  h.depicts.attached_leaf.mp (hp.attached (by simp))

/-- In a quiescent configuration, the leaves of the current map are those that are linked. -/
lemma linked_iff (h : Behind c w) (hq : c.Quiescent) {l : Leaf} :
    (∃ p, Linked c.mem.tree p (.leaf l)) ↔
      (shadow w).forest.map (shadow w).cur l.key = some l := by
  refine ⟨fun ⟨p, hp⟩ => h.linked hp, fun hl => ?_⟩
  obtain ⟨p, hp⟩ := h.depicts.sees_leaf (h.free hq) hl
  exact ⟨p, hp.linked⟩

end Behind

/-! ## The leaves of a run -/

/-- A call has put the leaf into the map, and has said so. -/
def PutBy (h : List (Event M.Op M.Ret)) (i : ℕ) (l : Leaf) : Prop :=
  ∃ op a, .inv i op ∈ h ∧ .res i a ∈ h ∧ M.puts op a = some l

lemma Behind.published (h : Behind c w) (hc : Reachable full c) {i : ℕ} {l : Leaf}
    (hl : PutBy c.hist i l) : (w.ghost.2.st l).Published := by
  obtain ⟨op, a, hinv, hres, hputs⟩ := hl
  have hlog := h.inv.client.log.log
  have hhist : (scene w).hist = c.hist := h.hist
  have hfails : M.fails a = false := by
    by_contra hf
    simp [M.fails_puts op a (by simpa using hf)] at hputs
  obtain ⟨e, op', hmem⟩ := hlog.responded i a (res_mem_told.mpr ⟨hhist ▸ hres, hfails⟩)
  have hinv' : .inv i op' ∈ c.hist := hhist ▸ inv_mem_told.mp (hlog.invoked e _ hmem)
  obtain rfl := hc.inv_unique hinv hinv'
  exact h.inv.client.put e _ hmem l hputs

/-- Whatever was published is in the map or retired, when no call is in progress. -/
lemma Behind.settled (h : Behind c w) (hq : c.Quiescent) {l : Leaf}
    (hl : (w.ghost.2.st l).Published) :
    w.ghost.2.st l = .linked ∨ w.ghost.2.st l = .retired := by
  have hown : ∀ t, (w.ghost.2.st l).owner ≠ some t := fun t =>
    LeafState.part_eq_none.mp ((h.idle hq t).2.1 l)
  cases hs : w.ghost.2.st l with
  | linked => exact .inl rfl
  | retired => exact .inr rfl
  | cut t => exact absurd (by rw [hs]; rfl) (hown t)
  | marked t => exact absurd (by rw [hs]; rfl) (hown t)
  | _ => simp [hs, LeafState.Published] at hl

lemma Behind.linked_state (h : Behind c w) (hq : c.Quiescent) {l : Leaf} :
    w.ghost.2.st l = .linked ↔ ∃ p, Linked c.mem.tree p (.leaf l) := by
  rw [h.linked_iff hq]
  refine ⟨fun hs => ?_, fun hl => ?_⟩
  · obtain ⟨e, he⟩ := h.inv.client.leaf.linked l hs
    -- No leaf of a past epoch is linked any more.
    by_cases hlt : e < (scene w).view.cur
    · exfalso
      rcases h.inv.client.leaf.past e hlt with hsw | ⟨-, hlive⟩
      · cases ht : w.ghost.2.sweep e with
        | none => exact hsw ht
        | some t => exact (h.idle hq t).2.2 e ht
      · have := (h.inv.client.leaf.live e l.key).mpr ⟨l, he, hs⟩
        rw [hlive] at this
        simp at this
    · rcases Nat.lt_or_eq_of_le (not_lt.mp hlt) with hgt | heq
      · rw [show (scene w).view.map e l.key = none from h.inv.tree.map_future hgt l.key] at he
        cases he
      · rw [← heq] at he
        exact he
  · exact (h.inv.client.leaf.mapped _ _ l hl).resolve_right fun hlt => lt_irrefl _ hlt.1

lemma exec_built {t : ℕ} {β : Type} (a : Act β) (m : Mem) :
    (exec t a m).2.leafs.built = m.leafs.built := by
  cases a with
  | tree a => rfl
  | leaf a => cases a <;> rfl
  | wait l => rfl

/-- A leaf is built for one call only. -/
lemma builds_once (hc : Reachable full c) :
    (∀ i op l, .inv i op ∈ c.hist → M.builds op = some l → c.mem.leafs.built l = true) ∧
      ∀ i j op op' l, .inv i op ∈ c.hist → .inv j op' ∈ c.hist → M.builds op = some l →
        M.builds op' = some l → i = j := by
  induction hc with
  | refl => simp [Object.initial]
  | @tail c c' _ hstep ih =>
    obtain ⟨ih₁, ih₂⟩ := ih
    cases hstep with
    | invoke t op m idle hstart =>
      have hmono : ∀ l, c.mem.leafs.built l = true → m.leafs.built l = true := by
        intro l hl
        have h2 := hstart.2
        cases hb : M.builds op with
        | none => simp only [hb] at h2; rw [h2]; exact hl
        | some l' =>
          simp only [hb] at h2
          rw [h2.2]
          by_cases hll : l = l'
          · simp [hll]
          · simpa [hll] using hl
      have hnew : ∀ l, M.builds op = some l → c.mem.leafs.built l = false ∧
          m.leafs.built l = true := by
        intro l hl
        have h2 := hstart.2
        simp only [hl] at h2
        exact ⟨h2.1, by rw [h2.2]; simp⟩
      have hcase : ∀ {i o}, .inv i o ∈ c.hist ++ [.inv c.hist.length op] →
          .inv i o ∈ c.hist ∨ i = c.hist.length ∧ o = op := by
        intro i o h
        simpa using h
      refine ⟨fun i o l hi hb => ?_, fun i j o o' l hi hj hb hb' => ?_⟩
      · rcases hcase hi with h | ⟨-, rfl⟩
        · exact hmono l (ih₁ i o l h hb)
        · exact (hnew l hb).2
      · rcases hcase hi with h | ⟨rfl, rfl⟩ <;> rcases hcase hj with h' | ⟨rfl, rfl⟩
        · exact ih₂ i j o o' l h h' hb hb'
        · exact absurd (ih₁ i o l h hb) (by simp [(hnew l hb').1])
        · exact absurd (ih₁ j o' l h' hb') (by simp [(hnew l hb).1])
        · rfl
    | act t id op a k hrun =>
      refine ⟨fun i o l hi hb => ?_, ih₂⟩
      show (exec t a c.mem).2.leafs.built l = true
      rw [exec_built]
      exact ih₁ i o l hi hb
    | unfold => exact ⟨ih₁, ih₂⟩
    | respond t id op r hrun =>
      exact ⟨fun i o l hi => ih₁ i o l (by simpa using hi),
        fun i j o o' l hi hj => ih₂ i j o o' l (by simpa using hi) (by simpa using hj)⟩

/-- A leaf that was published is marked as removed, and retired, unless it is linked. -/
lemma Behind.removed_iff (h : Behind c w) (hc : Reachable full c) (hq : c.Quiescent) {i : ℕ}
    {l : Leaf} (hl : PutBy c.hist i l) :
    (c.mem.leafs.removed l = true ↔ ¬ ∃ p, Linked c.mem.tree p (.leaf l)) ∧
      (l ∈ c.mem.leafs.retired ↔ ¬ ∃ p, Linked c.mem.tree p (.leaf l)) := by
  have hleaf : (scene w).leafs = c.mem.leafs := congrArg Mem.leafs h.mem
  have h1 := h.inv.client.leaf.removed l
  have h2 := h.inv.client.leaf.retired l
  rw [hleaf] at h1 h2
  rw [← h.linked_state hq, h1, h2]
  show ((w.ghost.2.st l).Removed ↔ _) ∧ (w.ghost.2.st l = .retired ↔ _)
  rcases h.settled hq (h.published hc hl) with hs | hs <;> simp [hs, LeafState.Removed]

/-! ## Histories -/

/-- **Linearizability** of a verified map: the calls, except for those that have failed, can be
ordered so that they answer what the specification answers, and lead to the map that the memory
shows. -/
theorem linearization_of_safe (hM : M.Safe) (hfull : M.roomy → ∀ i, full i = false)
    (hc : Reachable full c) : ∃ L, Linearization M.spec (M.told c.hist) L ∧
      Agrees c.mem.tree (M.spec.after M.spec.init L) := by
  obtain ⟨w, hw⟩ := behind hM hfull hc
  have hlog := hw.inv.client.log
  have hlin := hlog.log.linearization
  rw [show (scene w).hist = c.hist from hw.hist] at hlin
  refine ⟨_, hlin, ?_⟩
  have hmap : M.spec.after M.spec.init _ = (shadow w).forest.map w.ghost.2.log.cur :=
    hlog.log.after_upTo
  rw [hmap, show w.ghost.2.log.cur = (shadow w).cur from hlog.cur]
  exact hw.depicts.agrees

/-- Operations of a verified map that are executed one at a time. -/
abbrev Serial (full : ℕ → Bool) (L : List (M.Op × M.Ret)) (m : Mem) : Prop :=
  Object.Serial (O := M.client.object) (start full) L m

variable {L : List (M.Op × M.Ret)} {m : Mem}

lemma Serial.reachable (hs : Serial full L m) :
    Reachable full (Object.still (O := M.client.object) m (serialEvents 0 L)) :=
  Object.Serial.reachable hs

/-- They answer what the specification answers, if none can fail. -/
theorem serial_answers (hM : M.Safe) (hfull : M.roomy → ∀ i, full i = false)
    (hfails : ∀ a, M.fails a = false) (hs : Serial full L m) :
    L.map Prod.snd = M.spec.answers M.spec.init (L.map Prod.fst) := by
  obtain ⟨_, hl, -⟩ := linearization_of_safe hM hfull hs.reachable
  rw [told_eq hfails] at hl
  exact hl.serial_answers

/-- They leave the leaves linked that are in the finite map. -/
theorem serial_linked (hM : M.Safe) (hfull : M.roomy → ∀ i, full i = false)
    (hfails : ∀ a, M.fails a = false) (hs : Serial full L m) {l : Leaf} :
    (∃ p, Linked m.tree p (.leaf l)) ↔
      M.spec.final M.spec.init (L.map Prod.fst) l.key = some l := by
  obtain ⟨w, hw⟩ := behind hM hfull hs.reachable
  have hlog := hw.inv.client.log
  have hlin := hlog.log.linearization
  rw [show (scene w).hist = _ from hw.hist, told_eq hfails] at hlin
  have hmap : M.spec.after M.spec.init _ = (shadow w).forest.map w.ghost.2.log.cur :=
    hlog.log.after_upTo
  rw [show w.ghost.2.log.cur = (shadow w).cur from hlog.cur] at hmap
  rw [hlin.serial, Spec.after_serialEntries] at hmap
  have hiff := hw.linked_iff (l := l) fun _ => rfl
  rw [← hmap] at hiff
  exact hiff

/-- Every further operation answers. -/
theorem serial_total (hM : M.Safe) (hfull : M.roomy → ∀ i, full i = false)
    (hs : Serial full L m) (t : ℕ) {op : M.Op} {m₁ : Mem}
    (hstart : M.client.object.start t op m m₁) :
    ∃ a m₂, Serial full (L ++ [(op, a)]) m₂ := by
  obtain ⟨g, hk⟩ := RG.kept_of_reachable (M.verified hM) (start_inv full hfull) (fun _ => rfl)
    hs.reachable 1
  obtain ⟨n, ⟨a, m₂⟩, hrun⟩ := RG.answers (M.verified hM) hk.1 (fun _ => rfl) t hstart
  exact ⟨a, m₂, Object.Serial.trans hs (.cons t n op hstart hrun (.nil m₂))⟩

end Interface

end Artmap
