import Artmap.Map.Inserter
import Artmap.Map.Runs

/-!
# `ArenaArtMap` (`src/arena/map.rs`, `src/arena/tree.rs`)

The operations of the arena map, over one tree: lookups, inserts, directly and through inserters,
and removes.  There is no `clear`.  An insert that finds no room in the arena fails and has no
effect; whether the arena can fill is a parameter of the map.
-/

namespace Artmap

namespace ArenaArtMap

/-- The operations of the map. -/
inductive Op where
  | get (key : Key)
  /-- An insert of the leaf that it builds, directly or through an inserter. -/
  | insert (l : Leaf) (inserter : Option ℕ)
  | remove (key : Key)
  deriving DecidableEq

/-- What they answer with. -/
inductive Ret where
  | entry (o : Option Leaf)
  | outcome (o : Outcome)
  /-- `ArenaFull`. -/
  | full
  deriving DecidableEq

/-- The answer of an insert. -/
def inserted : Option Outcome → Ret
  | some o => .outcome o
  | none => .full

/-- The programs of the operations. -/
def code : Op → TreeM Ret
  | .get key => do
    let r ← Artmap.get key
    return .entry r
  | .insert l i => do
    let r ← arenaInsert l i
    return inserted r
  | .remove key => do
    let r ← Artmap.removeKey key
    return .entry r

/-- What the operations do to a finite map. -/
def step (m : Key → Option Leaf) : Op → (Key → Option Leaf) × Ret
  | .get key => (m, .entry (m key))
  | .insert l _ =>
    (Function.update m l.key (some l), .outcome (match m l.key with
      | none => .inserted l
      | some old => .replaced old))
  | .remove key => (Function.update m key none, .entry (m key))

/-- The leaf that an insert has put into the map. -/
def puts : Op → Ret → Option Leaf
  | .insert l _, .outcome _ => some l
  | _, _ => none

/-- The arena map; `room` says that its arena does not fill. -/
@[reducible] def interface (room : Bool) : Interface where
  Op := Op
  Ret := Ret
  code := code
  step := step
  builds
    | .insert l _ => some l
    | _ => none
  takes
    | .remove key => some key
    | _ => none
  clears _ := False
  puts := puts
  roomy := room = true
  fails a := !room && a == .full
  fails_puts op a ha := by
    obtain rfl : a = .full := by simp_all
    cases op <;> rfl

open Interface Client

variable {live room : Bool} {t id : ℕ} {w : (interface room).client.W} {key : Key} {l : Leaf}
  {op : Op}

lemma insert_inserts (l : Leaf) (i : Option ℕ) :
    Inserts (interface room) (.insert l i) l .replace inserted where
  put m hm := by simp [step, hm, inserted]
  swap _ m old hm := by simp [step, hm, inserted]
  find hmode := by cases hmode
  puts o l' hl' := by
    cases o with
    | none => simp [inserted, ArenaArtMap.puts] at hl'
    | some o => simpa [inserted, ArenaArtMap.puts, eq_comm] using hl'
  puts_find hmode := by cases hmode
  fail h := by
    have hroom : room = false := by simpa using h
    simp [hroom, inserted]

lemma remove_removes (key : Key) :
    Removes (interface room) (.remove key) key (fun l => decide (l.key = key)) .entry where
  accepts_key := by simp
  takes := rfl
  take m l _ hm := by simp [step, hm]
  miss m hm := by
    cases hm' : m key with
    | none => simp [step, hm']
    | some l => simpa [(hm l hm').1] using (hm l hm').2
  puts _ := rfl

/-- **The operations of the arena map** run safely, take effect once and leave nothing
behind. -/
theorem code_ok (h : Starts (M := interface room) t id op w) :
    (interface room).client.rg.wp live t (code op) (Ends (M := interface room) t id op) w := by
  refine RG.wp_intro fun hok => ?_
  have hi : Inv (M := interface room) (scene w) := ok_client hok
  have hlo : (Know.start (tree w) (shadow w)).lo = 0 := hi.still fun _ h => h
  cases op with
  | get key =>
    refine RG.wp_seq (wp_get (can_get (M := interface room) (f := .entry)
      (fun _ => rfl) fun _ => rfl) (fun _ => rfl) rfl (start_at h rfl)) ?_
    rintro a y - ⟨Δ, hΔ, hy⟩
    exact RG.wp_ret (ends_answered hΔ.idle hy)
  | insert l i =>
    refine RG.wp_seq (wp_arenaInsert (insert_inserts l i) (fun _ => rfl) rfl (fun _ => rfl) hlo
      (start_inserting h rfl)) ?_
    rintro o y - ⟨Δ, hq, hpriv, hy⟩
    exact RG.wp_ret (ends_quiet hq hpriv hy)
  | remove key =>
    refine RG.wp_seq (wp_removeConfirmed (removeHooks t id _ (remove_removes key)) (fun _ => rfl)
      rfl rfl (start_at h rfl)) ?_
    rintro a y - ⟨Δ, hΔ, hy⟩
    exact RG.wp_ret (ends_answered hΔ hy)

lemma safe (room : Bool) : (interface room).Safe := fun _ _ _ _ _ h => code_ok h

/-! ## Histories -/

/-- A run of the arena map, in an arena that does not fill, reaches a configuration. -/
abbrev Reaches (c : (interface true).client.object.Config) : Prop :=
  Interface.Reachable (M := interface true) (fun _ => false) c

lemma no_fails (a : Ret) : (interface true).fails a = false := rfl

/-- **Linearizability** of the arena map: in every interleaving of the atomic steps of any number
of threads, with any inserters, the calls can be ordered so that they answer what a finite map from
keys to leaves answers.  The order leads to the map that the memory shows. -/
theorem inserters_linearizable {c : (interface true).client.object.Config} (hc : Reaches c) :
    ∃ L, Linearization (interface true).spec c.hist L ∧
      Agrees c.mem.tree ((interface true).spec.after (interface true).spec.init L) :=
  told_eq (M := interface true) no_fails c.hist ▸
    linearization_of_safe (safe true) (fun _ _ => rfl) hc

/-- Thread 0 begins to insert a leaf through inserter 0. -/
def inserting (c : (interface true).client.object.Config) (l : Leaf) :
    (interface true).client.object.Config :=
  c.invoke 0 (.insert l (some 0)) ⟨c.mem.tree, { c.mem.leafs with
    built := Function.update c.mem.leafs.built l true }⟩

/-- Thread 0 inserts a leaf through inserter 0. -/
def inserts (c : (interface true).client.object.Config) (l : Leaf) :
    (interface true).client.object.Config :=
  (inserting c l).schedule (List.replicate 40 0)

/-- The third of these inserts lands in the node that the second one has made. -/
def landed : (interface true).client.object.Config :=
  inserts (inserts (inserts (Object.initial (start fun _ => false)) ⟨0, [1]⟩) ⟨1, [2]⟩) ⟨2, [3]⟩

/-- A fourth insert, which finds that node in the cache, beside a lookup of its key. -/
def besides : (interface true).client.object.Config :=
  ((inserting landed ⟨3, [4]⟩).invoke 1 (.get [4]) (inserting landed ⟨3, [4]⟩).mem).schedule
    (List.replicate 30 [0, 1]).flatten

lemma Reaches.inserting {c : (interface true).client.object.Config} (hc : Reaches c) (l : Leaf)
    (hidle : (c.running 0).isNone = true) (hnew : c.mem.leafs.built l = false) :
    Reaches (inserting c l) :=
  Object.Reachable.invoke hc 0 _ _ (Option.isNone_iff_eq_none.mp hidle) ⟨rfl, hnew, rfl⟩

lemma Reaches.inserts {c : (interface true).client.object.Config} (hc : Reaches c) (l : Leaf)
    (hidle : (c.running 0).isNone = true) (hnew : c.mem.leafs.built l = false) :
    Reaches (inserts c l) :=
  (hc.inserting l hidle hnew).schedule _

lemma reaches_landed : Reaches landed := by
  have h₀ : Reaches (Object.initial (start fun _ => false)) := .refl
  have h₁ := h₀.inserts ⟨0, [1]⟩ (by decide +kernel) (by decide +kernel)
  have h₂ := h₁.inserts ⟨1, [2]⟩ (by decide +kernel) (by decide +kernel)
  exact h₂.inserts ⟨2, [3]⟩ (by decide +kernel) (by decide +kernel)

lemma reaches_besides : Reaches besides := by
  have h := reaches_landed.inserting ⟨3, [4]⟩ (by decide +kernel) (by decide +kernel)
  exact (h.invoke 1 (.get [4]) _ (Option.isNone_iff_eq_none.mp (by decide +kernel))
    ⟨rfl, rfl⟩).schedule _

/-- Inserts through an inserter, the last of them at the node that it remembers. -/
theorem inserters_linearizable_besides :
    (Prog.runFor (fun {β} => (interface true).client.object.exec 0 (β := β)) 20
      (tryFast (landed.mem.leafs.caches 0) ⟨3, [4]⟩ 1) landed.mem).map (fun r => r.1.1) =
        some (some (.inserted ⟨3, [4]⟩)) ∧
    besides.hist.drop 6 = [.inv 6 (.insert ⟨3, [4]⟩ (some 0)), .inv 7 (.get [4]),
      .res 6 (.outcome (.inserted ⟨3, [4]⟩)), .res 7 (.entry (some ⟨3, [4]⟩))] ∧
    ∃ L, Linearization (interface true).spec besides.hist L ∧
      Agrees besides.mem.tree ((interface true).spec.after (interface true).spec.init L) :=
  ⟨by decide +kernel, by decide +kernel, inserters_linearizable reaches_besides⟩

end ArenaArtMap

end Artmap
