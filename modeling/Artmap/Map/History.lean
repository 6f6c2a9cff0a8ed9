import Artmap.Map.ArtMap
import Artmap.Map.Runs

/-!
# Histories of the heap map

The results of the operations of the heap map: in every interleaving they are those of a finite
map from keys to leaves, and every operation that runs alone answers.
-/

namespace Artmap

namespace ArtMap

open Interface

/-- A run of the heap map reaches a configuration. -/
abbrev Reaches (c : interface.client.object.Config) : Prop :=
  Interface.Reachable (M := interface) (fun _ => false) c

/-- Operations of the heap map, executed one at a time from the empty map on. -/
abbrev Executes (L : List (Op × Ret)) (m : Mem) : Prop :=
  Interface.Serial (M := interface) (fun _ => false) L m

/-- An operation may be invoked: the leaf of an insert has just been built. -/
abbrev Invokes (t : ℕ) (op : Op) (m m' : Mem) : Prop :=
  interface.client.object.start t op m m'

lemma safe : interface.Safe := fun _ _ _ _ _ h => code_ok h

lemma heap_roomy : interface.roomy → ∀ i, (fun _ : ℕ => false) i = false := fun _ _ => rfl

lemma no_fails (a : Ret) : interface.fails a = false := rfl

variable {c : interface.client.object.Config} {L : List (Op × Ret)} {m : Mem}

/-- A run that inserts a leaf. -/
lemma executes_insert : ∃ m,
    Executes [(.insert ⟨0, [1]⟩ .replace, .outcome (.inserted ⟨0, [1]⟩))] m := by
  have hstart : Invokes 0 (.insert ⟨0, [1]⟩ .replace) (start fun _ => false)
      ⟨TreeMem.empty, { LeafMem.empty with
        built := Function.update LeafMem.empty.built ⟨0, [1]⟩ true }⟩ := ⟨rfl, rfl, rfl⟩
  obtain ⟨a, m, hm⟩ := serial_total safe heap_roomy (.nil _) 0 hstart
  obtain rfl : a = .outcome (.inserted ⟨0, [1]⟩) := by
    simpa [Spec.answers, step, insertStep] using serial_answers safe heap_roomy no_fails hm
  exact ⟨m, hm⟩

/-- The calls of a run have an order that a finite map allows. -/
lemma linearization_of_reaches (hc : Reaches c) :
    ∃ L, Linearization interface.spec c.hist L ∧
      Agrees c.mem.tree (interface.spec.after interface.spec.init L) :=
  told_eq (M := interface) no_fails c.hist ▸ linearization_of_safe safe heap_roomy hc

/-- **Linearizability** of the heap map: in every interleaving of the atomic steps of any number
of threads, the calls can be ordered so that they answer what a finite map from keys to leaves
answers.  The order leads to the map that the memory shows: a call that changes the map is part of
it once its store has changed the memory, a clear once it has swapped the root. -/
theorem history_linearizable (hc : Reaches c) : ∃ L, Linearization interface.spec c.hist L ∧
    Agrees c.mem.tree (interface.spec.after interface.spec.init L) :=
  linearization_of_reaches hc

/-- Two threads, each in the middle of a call. -/
theorem history_linearizable_pair : ∃ c : interface.client.object.Config, Reaches c ∧
    c.hist = [.inv 0 (.insert ⟨0, [1]⟩ .replace), .inv 1 (.get [1])] ∧
    ∃ L, Linearization interface.spec c.hist L ∧
      Agrees c.mem.tree (interface.spec.after interface.spec.init L) := by
  have h₀ : Reaches (Object.initial (start fun _ => false)) := .refl
  have h₁ := h₀.invoke 0 (.insert ⟨0, [1]⟩ .replace)
    ⟨TreeMem.empty, { LeafMem.empty with
      built := Function.update LeafMem.empty.built ⟨0, [1]⟩ true }⟩ rfl ⟨rfl, rfl, rfl⟩
  have h₂ := (h₁.invoke 1 (.get [1]) _ rfl ⟨rfl, rfl⟩).schedule [0, 1, 0]
  exact ⟨_, h₂, rfl, history_linearizable h₂⟩

/-- Operations that are executed one at a time answer what a finite map answers, and every
further operation does answer. -/
theorem executes_answers (hs : Executes L m) :
    L.map Prod.snd = interface.spec.answers (fun _ => none) (L.map Prod.fst) ∧
      ∀ t op m₁, Invokes t op m m₁ → ∃ a m₂, Executes (L ++ [(op, a)]) m₂ :=
  ⟨serial_answers safe heap_roomy no_fails hs, fun t _ _ hstart =>
    serial_total safe heap_roomy hs t hstart⟩

/-- An insert into the empty map, and a lookup of its key. -/
theorem executes_answers_insert : ∃ m, Executes
    [(.insert ⟨0, [1]⟩ .replace, .outcome (.inserted ⟨0, [1]⟩)),
      (.get [1], .entry (some ⟨0, [1]⟩))] m := by
  obtain ⟨m₁, h₁⟩ := executes_insert
  obtain ⟨b, m₂, h₂⟩ := (executes_answers h₁).2 1 (.get [1]) m₁ ⟨rfl, rfl⟩
  have hab := (executes_answers h₂).1
  simp only [List.nil_append, List.cons_append, List.map_cons, List.map_nil, Spec.answers, step,
    insertStep, Function.update_self, List.cons.injEq, and_true] at hab
  obtain ⟨-, rfl⟩ := hab
  exact ⟨m₂, h₂⟩

/-! ## Runs of one thread -/

/-- Thread 0 inserts a leaf. -/
def inserting (c : interface.client.object.Config) (l : Leaf) : interface.client.object.Config :=
  (c.invoke 0 (.insert l .replace) ⟨c.mem.tree, { c.mem.leafs with
    built := Function.update c.mem.leafs.built l true }⟩).schedule (List.replicate 40 0)

/-- Thread 0 takes `n` steps of a remove. -/
def removing (c : interface.client.object.Config) (key : Key) (n : ℕ) :
    interface.client.object.Config :=
  (c.invoke 0 (.removeKey key) c.mem).schedule (List.replicate n 0)

/-- Two leaves are inserted, which makes a node, and one of them is taken out again. -/
def paired : interface.client.object.Config :=
  removing (inserting (inserting (Object.initial (start fun _ => false)) ⟨0, [1]⟩) ⟨1, [2]⟩) [1] 40

lemma reaches_inserting (hc : Reaches c) (l : Leaf) (hidle : (c.running 0).isNone = true)
    (hnew : c.mem.leafs.built l = false) : Reaches (inserting c l) := by
  have hstart : Invokes 0 (.insert l .replace) c.mem ⟨c.mem.tree, { c.mem.leafs with
      built := Function.update c.mem.leafs.built l true }⟩ := ⟨rfl, hnew, rfl⟩
  exact (hc.invoke 0 _ _ (Option.isNone_iff_eq_none.mp hidle) hstart).schedule _

lemma steps_removing (key : Key) (n : ℕ) (hidle : (c.running 0).isNone = true) :
    Relation.ReflTransGen Object.Step c (removing c key n) := by
  have hstart : Invokes 0 (.removeKey key) c.mem c.mem := ⟨rfl, rfl⟩
  exact .head (.invoke 0 _ _ (Option.isNone_iff_eq_none.mp hidle) hstart)
    (Object.Config.steps_schedule _ _)

/-- The memory in which thread 0 starts an operation. -/
def given (m : Mem) (op : Op) : Mem :=
  match interface.builds op with
  | some l => ⟨m.tree, { m.leafs with built := Function.update m.leafs.built l true }⟩
  | none => m

/-- Thread 0 executes an operation alone, in 60 steps at most. -/
def executing (m : Mem) (op : Op) : Option (Ret × Mem) :=
  Prog.runFor (fun {β} => interface.client.object.exec 0 (β := β)) 60 (code op) (given m op)

/-- The memory after that. -/
def executed (m : Mem) (op : Op) : Mem :=
  ((executing m op).map Prod.snd).getD m

lemma executes_concat (hs : Executes L m) (op : Op) {r : Ret}
    (hnew : ∀ l, interface.builds op = some l → m.leafs.built l = false)
    (hr : (executing m op).map Prod.fst = some r) : Executes (L ++ [(op, r)]) (executed m op) := by
  obtain ⟨⟨r', m'⟩, hrun, rfl⟩ := Option.map_eq_some_iff.mp hr
  have hstart : Invokes 0 op m (given m op) := by
    cases op with
    | insert l mode => exact ⟨rfl, hnew l rfl, rfl⟩
    | _ => exact ⟨rfl, rfl⟩
  have hm : executed m op = m' := by
    unfold executed
    rw [hrun]
    rfl
  rw [hm]
  exact hs.trans (Object.Serial.cons (O := interface.client.object) 0 60 op hstart hrun (.nil _))

/-- Two leaves are inserted, which makes a node, and one of them is replaced. -/
def replacedOps : List (Op × Ret) :=
  [(.insert ⟨0, [1]⟩ .replace, .outcome (.inserted ⟨0, [1]⟩)),
    (.insert ⟨1, [2]⟩ .replace, .outcome (.inserted ⟨1, [2]⟩)),
    (.insert ⟨2, [1]⟩ .replace, .outcome (.replaced ⟨0, [1]⟩))]

/-- The memory after that. -/
def replacedMem : Mem :=
  replacedOps.foldl (fun m x => executed m x.1) (start fun _ => false)

lemma executes_replaced : Executes replacedOps replacedMem := by
  have h₁ : Executes _ _ := executes_concat (.nil _) (.insert ⟨0, [1]⟩ .replace)
    (r := .outcome (.inserted ⟨0, [1]⟩)) (fun l hl => by cases hl; decide +kernel)
    (by decide +kernel)
  have h₂ := executes_concat h₁ (.insert ⟨1, [2]⟩ .replace)
    (r := .outcome (.inserted ⟨1, [2]⟩)) (fun l hl => by cases hl; decide +kernel)
    (by decide +kernel)
  exact executes_concat h₂ (.insert ⟨2, [1]⟩ .replace)
    (r := .outcome (.replaced ⟨0, [1]⟩)) (fun l hl => by cases hl; decide +kernel)
    (by decide +kernel)

lemma reaches_paired : Reaches paired := by
  have h₁ : Reaches (inserting (Object.initial (start fun _ => false)) ⟨0, [1]⟩) :=
    reaches_inserting .refl _ rfl rfl
  have h₂ := reaches_inserting h₁ ⟨1, [2]⟩ (by decide +kernel) (by decide +kernel)
  exact h₂.trans (steps_removing _ _ (by decide +kernel))

end ArtMap

end Artmap
