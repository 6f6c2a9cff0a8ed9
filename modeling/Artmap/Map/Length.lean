import Artmap.Map.ArenaArtMap
import Artmap.Map.Structure
import Artmap.Raw.Acts

/-!
# The length counter (`src/raw/mod.rs`)

`len` adds up the stripes of the counter, which it loads one after the other, and clamps the sum
at zero.  When no call is in progress the sum is the number of leaves.  While one thread writes,
the other stripes stay at zero: what a reader adds up is then the sum at the moment when it loads
the stripe of the writer, and at every moment the sum is at least the number of leaves.
-/

namespace Artmap

/-! ## Lookups only load -/

/-- The action is one on the tree itself. -/
def Act.OnTree : (β : Type) → Act β → Prop
  | _, .tree _ => True
  | _, _ => False

lemma covers_onTree : CoversTree Act.OnTree :=
  fun _ _ => trivial

lemma onTree_get {α : Type} (key : Key) (f : Option Leaf → α) :
    Prog.All Act.OnTree ((get key).bind fun r => (return f r : TreeM α)) :=
  (all_get covers_onTree key).bind fun _ => .ret _

/-! ## One thread that writes -/

variable {t : ℕ}

lemma exec_onTree {β : Type} {a : Act β} (ha : a.OnTree) (m : Mem) :
    (exec t a m).2.leafs = m.leafs := by
  cases a with
  | tree a => rfl
  | leaf a => exact ha.elim
  | wait l => rfl

lemma exec_stripe {β : Type} (a : Act β) (m : Mem) {s : Fin 8} (hs : s ≠ stripe t) :
    (exec t a m).2.leafs.stripes s = m.leafs.stripes s := by
  cases a with
  | tree a => rfl
  | wait l => rfl
  | leaf a =>
    cases a with
    | lenAdd d => exact Function.update_of_ne hs _ _
    | _ => rfl

/-- `Counter::sum`: the stripes are loaded one after the other, each from the memory of its
moment. -/
def counterSum (ms : Fin 8 → LeafMem) : ℤ :=
  ∑ i, (ms i).stripes i

/-- `RawTree::len`, of what was loaded so. -/
def rawLen (ms : Fin 8 → LeafMem) : ℕ :=
  (counterSum ms).toNat

namespace Interface

open Client (shadow scene)

variable {M : Interface} {full : ℕ → Bool} {c c' : M.client.object.Config} {u : ℕ}
  {reads : M.Op → Prop} {w : M.client.W}

/-- The calls of all threads but `u` only read. -/
def ReadersBut (reads : M.Op → Prop) (u : ℕ) (c : M.client.object.Config) : Prop :=
  ∀ t call, t ≠ u → c.running t = some call → reads call.op

/-- A run in which all writes are made by thread `u` reaches `c`. -/
def WrittenBy (reads : M.Op → Prop) (full : ℕ → Bool) (u : ℕ)
    (c : M.client.object.Config) : Prop :=
  Relation.ReflTransGen (fun c c' => Object.Step c c' ∧ ReadersBut reads u c')
    (Object.initial (start full)) c

lemma WrittenBy.reachable (h : WrittenBy reads full u c) : Reachable full c :=
  Relation.ReflTransGen.mono (fun _ _ hstep => And.left hstep) _ _ h

/-- No thread but `u` runs a call. -/
def Lone (u : ℕ) (c : M.client.object.Config) : Prop :=
  ∀ t, t ≠ u → c.running t = none

lemma Lone.readersBut (h : Lone u c) : ReadersBut reads u c := fun t call ht hcall => by
  simp [h t ht] at hcall

lemma WrittenBy.invoke (h : WrittenBy reads full u c) (hl : Lone u c) (op : M.Op) (m : Mem)
    (hidle : c.running u = none) (hstart : M.client.object.start u op c.mem m) :
    WrittenBy reads full u (c.invoke u op m) ∧ Lone u (c.invoke u op m) := by
  have hl' : Lone u (c.invoke u op m) := fun t ht => (Function.update_of_ne ht _ _).trans (hl t ht)
  exact ⟨h.tail ⟨.invoke u op m hidle hstart, hl'.readersBut⟩, hl'⟩

/-- A thread that runs alone goes on. -/
lemma WrittenBy.schedule (h : WrittenBy reads full u c) (hl : Lone u c) (n : ℕ) :
    WrittenBy reads full u (c.schedule (List.replicate n u)) ∧
      Lone u (c.schedule (List.replicate n u)) := by
  induction n generalizing c with
  | zero => exact ⟨h, hl⟩
  | succ n ih =>
    have hl' : Lone u (c.advance u) := fun t ht => (c.advance_other ht).trans (hl t ht)
    have h' : WrittenBy reads full u (c.advance u) := by
      rcases c.step_advance u with heq | hstep
      · rwa [heq]
      · exact h.tail ⟨hstep, hl'.readersBut⟩
    exact ih h' hl'

/-- The programs of the readers are readers' programs, and only the stripe of the writer has
anything to say. -/
structure OneWriter (u : ℕ) (c : M.client.object.Config) : Prop where
  reads : ∀ t call, t ≠ u → c.running t = some call → Prog.All Act.OnTree call.prog
  stripes : ∀ s, s ≠ stripe u → c.mem.leafs.stripes s = 0

lemma OneWriter.step (h : OneWriter u c)
    (hreads : ∀ op, reads op → Prog.All Act.OnTree (M.code op))
    (hstep : Object.Step c c') (hc : ReadersBut reads u c') : OneWriter u c' := by
  cases hstep with
  | invoke t op m idle hstart =>
    refine ⟨fun t' call ht hcall => ?_, fun s hs => ?_⟩
    · by_cases htt : t' = t
      · subst htt
        have hop := hc t' call ht hcall
        obtain rfl : _ = call := by simpa using hcall
        exact hreads _ hop
      · exact h.reads t' call ht (by simpa [htt] using hcall)
    · have hleafs : m.leafs.stripes = c.mem.leafs.stripes := by
        rcases start_cases hstart.2 with ⟨-, hm⟩ | ⟨l, -, -, hm⟩ <;> rw [hm]
      rw [hleafs]
      exact h.stripes s hs
  | @act t id op β a k hrun =>
    refine ⟨fun t' call ht hcall => ?_, fun s hs => ?_⟩
    · by_cases htt : t' = t
      · subst htt
        obtain rfl : _ = call := by simpa using hcall
        cases h.reads t' _ ht hrun with
        | act _ hk => exact hk _
      · exact h.reads t' call ht (by simpa [htt] using hcall)
    · show (exec t a c.mem).2.leafs.stripes s = 0
      by_cases htu : t = u
      · rw [exec_stripe a c.mem (htu ▸ hs)]
        exact h.stripes s hs
      · cases h.reads t _ htu hrun with
        | act ha _ =>
          rw [exec_onTree ha]
          exact h.stripes s hs
  | @unfold t id op σ β body s k hrun =>
    refine ⟨fun t' call ht hcall => ?_, h.stripes⟩
    by_cases htt : t' = t
    · subst htt
      obtain rfl : _ = call := by simpa using hcall
      cases h.reads t' _ ht hrun with
      | loop hbody hk =>
        refine (hbody s).bind fun r => ?_
        cases r with
        | inl r => exact .loop hbody hk
        | inr b => exact hk b
    · exact h.reads t' call ht (by simpa [htt] using hcall)
  | @respond t id op r hrun =>
    refine ⟨fun t' call ht hcall => ?_, h.stripes⟩
    by_cases htt : t' = t
    · subst htt
      simp at hcall
    · exact h.reads t' call ht (by simpa [htt] using hcall)

lemma WrittenBy.oneWriter (hreads : ∀ op, reads op → Prog.All Act.OnTree (M.code op))
    (h : WrittenBy reads full u c) : OneWriter u c := by
  induction h with
  | refl => exact ⟨fun _ _ _ h => by simp [Object.initial] at h, fun _ _ => rfl⟩
  | tail _ hstep ih => exact ih.step hreads hstep.1 hstep.2

/-- What is added up while one thread writes is the sum at one moment. -/
lemma counterSum_eq {cs : Fin 8 → M.client.object.Config} (h : ∀ i, OneWriter u (cs i)) :
    counterSum (fun i => (cs i).mem.leafs) = (cs (stripe u)).mem.leafs.len := by
  unfold counterSum LeafMem.len
  rw [Finset.sum_eq_single (stripe u) (fun i _ hi => (h i).stripes i hi) (by simp),
    Finset.sum_eq_single (stripe u) (fun i _ hi => (h (stripe u)).stripes i hi) (by simp)]

/-! ## What the counter says -/

/-- The leaves of a map from keys to leaves, as many as there are keys with a leaf. -/
def leavesOf (f : Key → Option Leaf) : Set Leaf :=
  {l | f l.key = some l}

lemma Behind.live_cur (h : Behind c w) (k : Key) :
    k ∈ w.ghost.2.live (shadow w).cur ↔
      ∃ l, (shadow w).forest.map (shadow w).cur k = some l := by
  refine (h.inv.client.leaf.live _ k).trans ⟨fun ⟨l, hl, _⟩ => ⟨l, hl⟩, fun ⟨l, hl⟩ => ⟨l, hl, ?_⟩⟩
  exact (h.inv.client.leaf.mapped _ k l hl).resolve_right fun hlt => lt_irrefl _ hlt.1

lemma leavesOf_injOn (f : Key → Option Leaf) : Set.InjOn Leaf.key (leavesOf f) := by
  intro l hl l' hl' hkey
  have h1 : f l.key = some l := hl
  have h2 : f l'.key = some l' := hl'
  rw [hkey, h2] at h1
  simpa using h1.symm

lemma Behind.keys_image (h : Behind c w) :
    Leaf.key '' leavesOf ((shadow w).forest.map (shadow w).cur) =
      (w.ghost.2.live (shadow w).cur : Set Key) := by
  ext k
  rw [Finset.mem_coe, h.live_cur]
  constructor
  · rintro ⟨l, hl, rfl⟩
    exact ⟨l, hl⟩
  · rintro ⟨l, hl⟩
    obtain rfl : l.key = k := h.inv.client.leaf.keyed _ k l hl
    exact ⟨l, hl, rfl⟩

lemma Behind.finite (h : Behind c w) :
    (leavesOf ((shadow w).forest.map (shadow w).cur)).Finite := by
  refine Set.Finite.of_finite_image ?_ (leavesOf_injOn _)
  rw [h.keys_image]
  exact Finset.finite_toSet _

/-- The leaves of the current map are as many as its keys. -/
lemma Behind.ncard (h : Behind c w) :
    (leavesOf ((shadow w).forest.map (shadow w).cur)).ncard =
      (w.ghost.2.live (shadow w).cur).card := by
  rw [← (leavesOf_injOn _).ncard_image, h.keys_image, Set.ncard_coe_finset]

/-- The counter in terms of the current epoch. -/
lemma Behind.len_eq (h : Behind c w) : c.mem.leafs.len =
    ∑ e ∈ Finset.range (shadow w).cur, ((w.ghost.2.live e).card : ℤ) +
      (w.ghost.2.live (shadow w).cur).card + w.ghost.2.debt.sum fun _ d => d := by
  have := h.inv.client.len.len
  rw [show (scene w).leafs = c.mem.leafs by rw [← h.mem]; rfl] at this
  rw [this, total, Finset.sum_range_succ]
  rfl

/-- The counter is never too small. -/
lemma Behind.ncard_le (h : Behind c w) :
    ((leavesOf ((shadow w).forest.map (shadow w).cur)).ncard : ℤ) ≤ c.mem.leafs.len := by
  have hpast : 0 ≤ ∑ e ∈ Finset.range (shadow w).cur, ((w.ghost.2.live e).card : ℤ) :=
    Finset.sum_nonneg fun _ _ => Int.natCast_nonneg _
  have hdebt : 0 ≤ w.ghost.2.debt.sum fun _ d => d :=
    Finset.sum_nonneg fun t _ => h.inv.client.len.debt t
  rw [h.ncard, h.len_eq]
  omega

/-- It is exact when no call is in progress. -/
lemma Behind.len_quiescent (h : Behind c w) (hq : c.Quiescent) :
    c.mem.leafs.len = ({l | ∃ p, Linked c.mem.tree p (.leaf l)} : Set Leaf).ncard := by
  have hset : ({l | ∃ p, Linked c.mem.tree p (.leaf l)} : Set Leaf) =
      leavesOf ((shadow w).forest.map (shadow w).cur) := by
    ext l
    exact h.linked_iff hq
  have hdebt : w.ghost.2.debt = 0 := Finsupp.ext fun t => (h.idle hq t).1
  have hpast : ∀ e ∈ Finset.range (shadow w).cur, ((w.ghost.2.live e).card : ℤ) = 0 := by
    intro e he
    have hlt : e < (scene w).view.cur := Finset.mem_range.mp he
    rcases h.inv.client.leaf.past e hlt with hs | ⟨-, hs⟩
    · exfalso
      cases ht : w.ghost.2.sweep e with
      | none => exact hs ht
      | some t => exact (h.idle hq t).2.2 e ht
    · rw [show w.ghost.2.live e = ∅ from hs]
      simp
  rw [hset, h.ncard, h.len_eq, Finset.sum_eq_zero hpast, hdebt]
  simp

/-- The counter is at least the number of leaves: of those that are linked from the root, through
latched nodes or not; and of those that the calls have left in the map, in the order in which they
have taken effect, which is the map that the memory stands for. -/
def Counted (c : M.client.object.Config) : Prop :=
  ({l | ∃ p, Linked c.mem.tree p (.leaf l)} : Set Leaf).Finite ∧
  (({l | ∃ p, Linked c.mem.tree p (.leaf l)} : Set Leaf).ncard : ℤ) ≤ c.mem.leafs.len ∧
  ∃ L, Linearization M.spec (M.told c.hist) L ∧
    ∃ F e, Depicts c.mem.tree F e ∧ F.map e = M.spec.after M.spec.init L ∧
      ((leavesOf (F.map e)).ncard : ℤ) ≤ c.mem.leafs.len

/-- What the length counter of a map says, in an arena where `full` says which allocations find no
room. -/
structure LenCounts (M : Interface) (reads : M.Op → Prop) (full : ℕ → Bool) : Prop where
  /-- After any interleaving, the counter is exact when no call is in progress. -/
  quiescent : ∀ c : M.client.object.Config, Reachable full c → c.Quiescent →
    c.mem.leafs.len = ({l | ∃ p, Linked c.mem.tree p (.leaf l)} : Set Leaf).ncard
  /-- While one thread writes, it is never too small. -/
  single : ∀ u c, WrittenBy reads full u c → Counted c
  /-- Then whatever moments `len` loads the stripes at, it answers with the counter of one of
  them, and nothing is clamped. -/
  loaded : ∀ u (cs : Fin 8 → M.client.object.Config), (∀ i, WrittenBy reads full u (cs i)) →
    ∃ i, (rawLen (fun i => (cs i).mem.leafs) : ℤ) = (cs i).mem.leafs.len

lemma counted_of_safe (hM : M.Safe) (hfull : M.roomy → ∀ i, full i = false)
    (hc : Reachable full c) : Counted c := by
  obtain ⟨w, h⟩ := behind hM hfull hc
  have hlog := h.inv.client.log
  have hlin := hlog.log.linearization
  rw [show (scene w).hist = c.hist from h.hist] at hlin
  have hmap : M.spec.after M.spec.init _ = (shadow w).forest.map w.ghost.2.log.cur :=
    hlog.log.after_upTo
  rw [show w.ghost.2.log.cur = (shadow w).cur from hlog.cur] at hmap
  have hsub : ({l | ∃ p, Linked c.mem.tree p (.leaf l)} : Set Leaf) ⊆
      leavesOf ((shadow w).forest.map (shadow w).cur) := by
    rintro l ⟨p, hp⟩
    exact h.linked hp
  refine ⟨h.finite.subset hsub, le_trans ?_ h.ncard_le, _, hlin, _, _, h.depicts, hmap.symm,
    h.ncard_le⟩
  exact Int.ofNat_le.mpr (Set.ncard_le_ncard hsub h.finite)

theorem lenCounts_of_safe (hM : M.Safe) (hfull : M.roomy → ∀ i, full i = false)
    (hreads : ∀ op, reads op → Prog.All Act.OnTree (M.code op)) : LenCounts M reads full where
  quiescent c hc hq := by
    obtain ⟨w, h⟩ := behind hM hfull hc
    exact h.len_quiescent hq
  single u c hc := counted_of_safe hM hfull hc.reachable
  loaded u cs hcs := by
    refine ⟨stripe u, ?_⟩
    have hsum := counterSum_eq fun i => (hcs i).oneWriter hreads
    unfold rawLen
    rw [hsum, Int.toNat_of_nonneg]
    exact (Int.natCast_nonneg _).trans (counted_of_safe hM hfull (hcs _).reachable).2.1

end Interface

/-! ## The maps -/

/-- The lookups of the heap map. -/
def ArtMap.Reads (op : ArtMap.Op) : Prop :=
  ∃ key, op = .get key

/-- The lookups of the arena map. -/
def ArenaArtMap.Reads (op : ArenaArtMap.Op) : Prop :=
  ∃ key, op = .get key

/-- **The length counter** of the heap map and of the arena map, whichever allocations find no
room. -/
theorem len_counts :
    Interface.LenCounts ArtMap.interface ArtMap.Reads (fun _ => false) ∧
      ∀ full, Interface.LenCounts (ArenaArtMap.interface false) ArenaArtMap.Reads full := by
  constructor
  · refine Interface.lenCounts_of_safe ArtMap.safe ArtMap.heap_roomy ?_
    rintro _ ⟨key, rfl⟩
    exact onTree_get key _
  · intro full
    refine Interface.lenCounts_of_safe (ArenaArtMap.safe false) (by simp) ?_
    rintro _ ⟨key, rfl⟩
    exact onTree_get key _

namespace ArtMap

open Interface

variable {c : interface.client.object.Config}

lemma written_inserting (h : WrittenBy Reads (fun _ => false) 0 c) (hl : Lone 0 c) (l : Leaf)
    (hidle : (c.running 0).isNone = true) (hnew : c.mem.leafs.built l = false) :
    WrittenBy Reads (fun _ => false) 0 (inserting c l) ∧ Lone 0 (inserting c l) := by
  have hstart : Invokes 0 (.insert l .replace) c.mem ⟨c.mem.tree, { c.mem.leafs with
      built := Function.update c.mem.leafs.built l true }⟩ := ⟨rfl, hnew, rfl⟩
  obtain ⟨h', hl'⟩ := h.invoke hl _ _ (Option.isNone_iff_eq_none.mp hidle) hstart
  exact h'.schedule hl' 40

lemma written_removing (h : WrittenBy Reads (fun _ => false) 0 c) (hl : Lone 0 c) (key : Key)
    (n : ℕ) (hidle : (c.running 0).isNone = true) :
    WrittenBy Reads (fun _ => false) 0 (removing c key n) ∧ Lone 0 (removing c key n) := by
  have hstart : Invokes 0 (.removeKey key) c.mem c.mem := ⟨rfl, rfl⟩
  obtain ⟨h', hl'⟩ := h.invoke hl _ _ (Option.isNone_iff_eq_none.mp hidle) hstart
  exact h'.schedule hl' n

lemma written_paired : WrittenBy Reads (fun _ => false) 0 paired ∧ Lone 0 paired := by
  obtain ⟨h₁, hl₁⟩ := written_inserting (c := Object.initial (start fun _ => false)) .refl
    (fun _ _ => rfl) ⟨0, [1]⟩ rfl rfl
  obtain ⟨h₂, hl₂⟩ := written_inserting h₁ hl₁ ⟨1, [2]⟩ (by decide +kernel) (by decide +kernel)
  exact written_removing h₂ hl₂ [1] 40 (by decide +kernel)

/-- One thread has inserted two leaves and taken one of them out again, and is taking out the
other one: the root is null already, and the counter still says one. -/
theorem len_counts_paired :
    Counted (M := interface) (removing paired [2] 20) ∧
      (removing paired [2] 20).mem.tree.root = .null ∧
      (removing paired [2] 20).mem.leafs.len = 1 ∧
      paired.mem.leafs.len = ({l | ∃ p, Linked paired.mem.tree p (.leaf l)} : Set Leaf).ncard := by
  obtain ⟨hw, hl⟩ := written_paired
  have hidle : (paired.running 0).isNone = true := by decide +kernel
  have hq : paired.Quiescent := fun t => by
    by_cases ht : t = 0
    · exact ht ▸ Option.isNone_iff_eq_none.mp hidle
    · exact hl t ht
  refine ⟨len_counts.1.single 0 _ (written_removing hw hl [2] 20 hidle).1, ?_, ?_,
    len_counts.1.quiescent _ reaches_paired hq⟩
  · decide +kernel
  · decide +kernel

end ArtMap

end Artmap
