import Mathlib.Data.List.Basic
import Mathlib.Logic.Function.Basic
import Mathlib.Order.Lattice
import Mathlib.Tactic

/-!
# Surveys of an ordered collection

A survey takes items from both ends of a range of keys, one at a time, while the collection may
change.  It cannot say what the collection is at any one moment.  What it can say is `Survey`:
every item it takes was there, and every key it passes over was missing, each at some moment of
the survey (`there` and `gone`).

From that alone, whatever these two predicates are: if the collection does not change, a survey
answers as a queue with two ends does that holds the items in order (`Survey.answers`).
-/

namespace Artmap

variable {κ α : Type}

/-- A direction along an order. -/
inductive Dir where
  | forward
  | backward
  deriving DecidableEq

namespace Dir

/-- The other direction. -/
def flip : Dir → Dir
  | forward => backward
  | backward => forward

lemma flip_ne (d : Dir) : d.flip ≠ d := by
  cases d <;> simp [flip]

lemma eq_or_flip (d d' : Dir) : d' = d ∨ d' = d.flip := by
  cases d <;> cases d' <;> simp [flip]

variable [LinearOrder κ] {d : Dir} {a b c : κ}

/-- `a` comes before `b` in direction `d`. -/
def Lt (d : Dir) (a b : κ) : Prop :=
  match d with
  | forward => a < b
  | backward => b < a

@[simp] lemma lt_forward : forward.Lt a b ↔ a < b := Iff.rfl

@[simp] lemma lt_backward : backward.Lt a b ↔ b < a := Iff.rfl

@[simp] lemma lt_flip : d.flip.Lt a b ↔ d.Lt b a := by
  cases d <;> rfl

lemma Lt.trans (h : d.Lt a b) (h' : d.Lt b c) : d.Lt a c := by
  cases d with
  | forward => exact lt_trans h h'
  | backward => exact lt_trans h' h

@[simp] lemma not_lt_self (d : Dir) (a : κ) : ¬ d.Lt a a := by
  cases d <;> simp

lemma Lt.ne (h : d.Lt a b) : a ≠ b := by
  rintro rfl
  exact d.not_lt_self a h

lemma Lt.asymm (h : d.Lt a b) : ¬ d.Lt b a :=
  fun h' => d.not_lt_self a (h.trans h')

lemma trichotomy (d : Dir) (a b : κ) : d.Lt a b ∨ a = b ∨ d.Lt b a := by
  cases d with
  | forward => exact lt_trichotomy a b
  | backward =>
    rcases lt_trichotomy a b with h | h | h
    · exact .inr (.inr h)
    · exact .inr (.inl h)
    · exact .inl h

end Dir

/-- One end of a range of keys. -/
inductive Bound (κ : Type) where
  | included (k : κ)
  | excluded (k : κ)
  | unbounded
  deriving DecidableEq

namespace Bound

variable [LinearOrder κ] {d : Dir} {b : Bound κ} {k k' : κ}

/-- A key is inside the bound at which a movement in direction `d` starts. -/
def Admits (d : Dir) : Bound κ → κ → Prop
  | included a, k => a = k ∨ d.Lt a k
  | excluded a, k => d.Lt a k
  | unbounded, _ => True

@[simp] lemma admits_excluded {a : κ} : (excluded a).Admits d k ↔ d.Lt a k := Iff.rfl

lemma Admits.of_lt (h : b.Admits d k) (hlt : d.Lt k k') : b.Admits d k' := by
  cases b with
  | included a =>
    rcases h with rfl | h
    · exact .inr hlt
    · exact .inr (h.trans hlt)
  | excluded a => exact Dir.Lt.trans h hlt
  | unbounded => trivial

end Bound

/-- A key is between the bounds of a range. -/
def Between [LinearOrder κ] (ends : Dir → Bound κ) (k : κ) : Prop :=
  ∀ d, (ends d).Admits d k

/-- The range that is left after an item with key `k` has been taken from one end. -/
def pastKey (ends : Dir → Bound κ) (d : Dir) (k : κ) : Dir → Bound κ :=
  Function.update ends d (.excluded k)

section Between

variable [LinearOrder κ] {ends : Dir → Bound κ} {d : Dir} {k x : κ}

lemma between_pastKey (hk : Between ends k) :
    Between (pastKey ends d k) x ↔ Between ends x ∧ d.Lt k x := by
  constructor
  · intro h
    have hlt : d.Lt k x := by simpa [pastKey] using h d
    refine ⟨fun d' => ?_, hlt⟩
    by_cases hd : d' = d
    · rw [hd]
      exact (hk d).of_lt hlt
    · simpa [pastKey, hd] using h d'
  · rintro ⟨h, hlt⟩ d'
    by_cases hd : d' = d
    · subst hd
      simpa [pastKey] using hlt
    · simpa [pastKey, hd] using h d'

end Between

/-- What a survey has found: `log` are the ends that items were asked for, with the answers.
Every item was there, and every key that was passed over was gone. -/
inductive Survey [LinearOrder κ] (key : α → κ) (gone : κ → Prop) (there : α → Prop) :
    (Dir → Bound κ) → List (Dir × Option α) → Prop where
  | nil (ends : Dir → Bound κ) : Survey key gone there ends []
  /-- The next item, from one end. -/
  | item {ends : Dir → Bound κ} {d : Dir} {a : α} {log : List (Dir × Option α)}
      (between : Between ends (key a)) (found : there a)
      (passed : ∀ k, (ends d).Admits d k → d.Lt k (key a) → gone k)
      (rest : Survey key gone there (pastKey ends d (key a)) log) :
      Survey key gone there ends ((d, some a) :: log)
  /-- Nothing is left, and there will be no further item. -/
  | done {ends : Dir → Bound κ} {d : Dir} {log : List (Dir × Option α)}
      (passed : ∀ k, Between ends k → gone k) (rest : ∀ e, e ∈ log → e.2 = none) :
      Survey key gone there ends ((d, none) :: log)

/-! ## Queues with two ends -/

/-- The answers of a queue when items are taken from the given ends, in turn. -/
def dequeAnswers : List α → List Dir → List (Option α)
  | _, [] => []
  | items, .forward :: ds => items.head? :: dequeAnswers items.tail ds
  | items, .backward :: ds => items.getLast? :: dequeAnswers items.dropLast ds

/-- An item at the end of a list from which items are taken in a direction. -/
def Dir.push : Dir → α → List α → List α
  | forward, a, items => a :: items
  | backward, a, items => items ++ [a]

lemma dequeAnswers_push (d : Dir) (a : α) (items : List α) (ds : List Dir) :
    dequeAnswers (d.push a items) (d :: ds) = some a :: dequeAnswers items ds := by
  cases d <;> simp [dequeAnswers, Dir.push]

lemma dequeAnswers_nil (ds : List Dir) :
    dequeAnswers ([] : List α) ds = ds.map fun _ => none := by
  induction ds with
  | nil => rfl
  | cons d ds ih => cases d <;> simpa [dequeAnswers] using ih

/-- The items of a range, in order. -/
structure Lists [LinearOrder κ] (key : α → κ) (there : α → Prop) (ends : Dir → Bound κ)
    (items : List α) : Prop where
  sorted : items.Pairwise fun a b => key a < key b
  mem : ∀ a, a ∈ items ↔ there a ∧ Between ends (key a)

section Deque

variable [LinearOrder κ] {key : α → κ} {gone : κ → Prop} {there : α → Prop}
  {ends : Dir → Bound κ} {log : List (Dir × Option α)} {items : List α} {d : Dir} {a : α}

/-- They can be listed in one way only. -/
lemma Lists.unique (h : Lists key there ends items) {items' : List α}
    (h' : Lists key there ends items') : items = items' := by
  have hnodup : ∀ {l : List α}, (l.Pairwise fun a b => key a < key b) → l.Nodup := fun hl =>
    hl.imp fun hlt heq => (heq ▸ hlt).false
  refine List.Perm.eq_of_pairwise (fun a b _ _ hab hba => absurd hba (lt_asymm hab)) h.sorted
    h'.sorted ?_
  exact (List.perm_ext_iff_of_nodup (hnodup h.sorted) (hnodup h'.sorted)).mpr fun a =>
    (h.mem a).trans (h'.mem a).symm

/-- Finitely many items with different keys can be put in order. -/
lemma Lists.exists_of_finite (hfin : {a | there a}.Finite) (hinj : Set.InjOn key {a | there a})
    (ends : Dir → Bound κ) : ∃ items, Lists key there ends items := by
  classical
  let S := hfin.toFinset.filter fun a => Between ends (key a)
  have hS : ∀ a, a ∈ S ↔ there a ∧ Between ends (key a) := fun a => by
    rw [Finset.mem_filter, Set.Finite.mem_toFinset, Set.mem_ofPred_eq]
  let r : α → α → Prop := fun a b => key a ≤ key b
  have htotal : Std.Total r := ⟨fun a b => le_total (key a) (key b)⟩
  have htrans : IsTrans α r := ⟨fun a b c => le_trans⟩
  have hperm := List.perm_insertionSort r S.toList
  have hmem : ∀ a, a ∈ S.toList.insertionSort r ↔ a ∈ S := fun a =>
    hperm.mem_iff.trans Finset.mem_toList
  refine ⟨S.toList.insertionSort r, ?_, fun a => (hmem a).trans (hS a)⟩
  have hnodup : (S.toList.insertionSort r).Nodup := hperm.nodup_iff.mpr S.nodup_toList
  refine ((List.pairwise_insertionSort r S.toList).and hnodup).imp_of_mem ?_
  rintro a b ha hb ⟨hle, hne⟩
  refine lt_of_le_of_ne hle fun heq => hne ?_
  exact hinj ((hS a).mp ((hmem a).mp ha)).1 ((hS b).mp ((hmem b).mp hb)).1 heq

/-- An item that comes first in a direction is at that end of the list. -/
lemma Lists.take (h : Lists key there ends items) (ha : there a) (hbetween : Between ends (key a))
    (hfirst : ∀ b, there b → Between ends (key b) → ¬ d.Lt (key b) (key a)) :
    ∃ rest, Lists key there (pastKey ends d (key a)) rest ∧ items = d.push a rest := by
  have hmem := (h.mem a).mpr ⟨ha, hbetween⟩
  cases d with
  | forward =>
    cases items with
    | nil => simp at hmem
    | cons b rest =>
      obtain ⟨hb, hsorted⟩ := List.pairwise_cons.mp h.sorted
      have hba : b = a := by
        rcases List.mem_cons.mp hmem with h1 | h1
        · exact h1.symm
        · obtain ⟨h2, h3⟩ := (h.mem b).mp (by simp)
          exact absurd (hb a h1) (hfirst b h2 h3)
      subst hba
      refine ⟨rest, ⟨hsorted, fun c => ?_⟩, rfl⟩
      rw [between_pastKey hbetween, ← and_assoc, ← h.mem c]
      constructor
      · exact fun hc => ⟨List.mem_cons_of_mem _ hc, hb c hc⟩
      · rintro ⟨hc, hlt⟩
        rcases List.mem_cons.mp hc with rfl | hc
        · exact absurd hlt (lt_irrefl _)
        · exact hc
  | backward =>
    rcases List.eq_nil_or_concat items with rfl | ⟨rest, b, rfl⟩
    · simp at hmem
    · have hpw := h.sorted
      rw [List.concat_eq_append] at hpw hmem ⊢
      obtain ⟨hsorted, -, hb⟩ := List.pairwise_append.mp hpw
      have hlast : ∀ c, c ∈ rest → key c < key b := fun c hc => hb c hc b (by simp)
      have hba : b = a := by
        rcases List.mem_append.mp hmem with h1 | h1
        · obtain ⟨h2, h3⟩ := (h.mem b).mp (by simp)
          exact absurd (hlast a h1) (hfirst b h2 h3)
        · exact (List.mem_singleton.mp h1).symm
      subst hba
      refine ⟨rest, ⟨hsorted, fun c => ?_⟩, rfl⟩
      rw [between_pastKey hbetween, ← and_assoc, ← h.mem c, List.concat_eq_append]
      constructor
      · exact fun hc => ⟨List.mem_append_left _ hc, hlast c hc⟩
      · rintro ⟨hc, hlt⟩
        rcases List.mem_append.mp hc with hc | hc
        · exact hc
        · obtain rfl := List.mem_singleton.mp hc
          exact absurd hlt (lt_irrefl _)

/-- Where every key of the range is gone, there are no items. -/
lemma Lists.eq_nil (h : Lists key there ends items) (hgone : ∀ a, gone (key a) → ¬ there a)
    (hall : ∀ k, Between ends k → gone k) : items = [] := by
  refine List.eq_nil_iff_forall_not_mem.mpr fun a ha => ?_
  obtain ⟨h1, h2⟩ := (h.mem a).mp ha
  exact hgone a (hall _ h2) h1

/-- **A survey of a collection that does not change** answers as the queue of its items does. -/
theorem Survey.answers (h : Survey key gone there ends log)
    (hgone : ∀ a, gone (key a) → ¬ there a) (hitems : Lists key there ends items) :
    log.map Prod.snd = dequeAnswers items (log.map Prod.fst) := by
  induction h generalizing items with
  | nil ends => simp [dequeAnswers]
  | @item ends d a log between found passed _ ih =>
    have hfirst : ∀ b, there b → Between ends (key b) → ¬ d.Lt (key b) (key a) :=
      fun b hb hw hlt => hgone b (passed _ (hw d) hlt) hb
    obtain ⟨rest, hrest, rfl⟩ := hitems.take found between hfirst
    rw [List.map_cons, List.map_cons, dequeAnswers_push, ih hrest]
  | @done ends d log passed rest =>
    obtain rfl := hitems.eq_nil hgone passed
    rw [dequeAnswers_nil, List.map_map, List.map_cons, List.map_cons]
    refine congrArg _ (List.map_congr_left fun e he => ?_)
    exact rest e he

end Deque

end Artmap
