import Artmap.Framework.Linearize

/-!
# Operations executed one at a time

A `Serial` run executes operations one after the other, each from its invocation to its answer
before the next one starts.  It is one of the interleaved runs (`Serial.run`), and in its
history no two calls overlap, so that a linearization cannot but order the calls as they were
executed (`Linearization.serial`), and every call has answered what the specification answers.
-/

namespace Artmap

open scoped List

variable {Op Ret : Type}

/-! ## Histories -/

/-- The history of a serial run, of calls with identifiers from `n` on. -/
def serialEvents : ℕ → List (Op × Ret) → List (Event Op Ret)
  | _, [] => []
  | n, (op, r) :: L => .inv n op :: .res n r :: serialEvents (n + 2) L

/-- Its calls. -/
def serialEntries : ℕ → List (Op × Ret) → List (Entry Op Ret)
  | _, [] => []
  | n, (op, r) :: L => ⟨n, op, r⟩ :: serialEntries (n + 2) L

variable {L : List (Op × Ret)} {n i : ℕ} {a b : Entry Op Ret}

lemma le_of_mem_serialEntries (ha : a ∈ serialEntries n L) : n ≤ a.id := by
  induction L generalizing n with
  | nil => simp [serialEntries] at ha
  | cons p L ih =>
    rcases List.mem_cons.mp ha with rfl | ha
    · exact le_rfl
    · have := ih ha
      omega

lemma mem_serialEvents_of_entry (ha : a ∈ serialEntries n L) :
    .inv a.id a.op ∈ serialEvents n L ∧ .res a.id a.ret ∈ serialEvents n L := by
  induction L generalizing n with
  | nil => simp [serialEntries] at ha
  | cons p L ih =>
    rcases List.mem_cons.mp ha with rfl | ha
    · simp [serialEvents]
    · obtain ⟨h1, h2⟩ := ih ha
      exact ⟨by simp [serialEvents, h1], by simp [serialEvents, h2]⟩

lemma serial_entry_of_inv {op : Op} (h : .inv i op ∈ serialEvents n L) :
    ∃ r, ⟨i, op, r⟩ ∈ serialEntries n L := by
  induction L generalizing n with
  | nil => simp [serialEvents] at h
  | cons p L ih =>
    obtain ⟨op', r⟩ := p
    simp only [serialEvents, List.mem_cons, Event.inv.injEq, reduceCtorEq, false_or] at h
    rcases h with ⟨rfl, rfl⟩ | h
    · exact ⟨r, by simp [serialEntries]⟩
    · obtain ⟨r', hr⟩ := ih h
      exact ⟨r', by simp [serialEntries, hr]⟩

lemma serialEntries_sorted (n : ℕ) (L : List (Op × Ret)) :
    (serialEntries n L).Pairwise fun a b => a.id < b.id := by
  induction L generalizing n with
  | nil => exact .nil
  | cons p L ih =>
    refine List.Pairwise.cons (fun b hb => ?_) (ih (n + 2))
    have := le_of_mem_serialEntries hb
    simp only
    omega

lemma serialEntries_inj (ha : a ∈ serialEntries n L) (hb : b ∈ serialEntries n L)
    (h : a.id = b.id) : a = b := by
  induction L generalizing n with
  | nil => simp [serialEntries] at ha
  | cons p L ih =>
    rcases List.mem_cons.mp ha with rfl | ha <;> rcases List.mem_cons.mp hb with rfl | hb
    · rfl
    · have := le_of_mem_serialEntries hb
      simp only at h
      omega
    · have := le_of_mem_serialEntries ha
      simp only at h
      omega
    · exact ih ha hb

/-- The calls of a serial run do not overlap. -/
lemma before_of_lt (ha : a ∈ serialEntries n L) (hb : b ∈ serialEntries n L)
    (h : a.id < b.id) : Before (serialEvents n L) a.id b.id := by
  induction L generalizing n with
  | nil => simp [serialEntries] at ha
  | cons p L ih =>
    obtain ⟨op, r⟩ := p
    rcases List.mem_cons.mp ha with rfl | ha <;> rcases List.mem_cons.mp hb with rfl | hb
    · exact absurd h (lt_irrefl _)
    · have hinv := (mem_serialEvents_of_entry hb).1
      exact ⟨r, b.op, ((List.singleton_sublist.mpr hinv).cons_cons _).cons _⟩
    · have := le_of_mem_serialEntries ha
      simp only at h
      omega
    · obtain ⟨r', op', h2⟩ := ih ha hb
      exact ⟨r', op', (h2.cons _).cons _⟩

/-! ## Linearizations -/

lemma pair_sublist_asymm {α : Type} {l : List α} {x y : α} (hn : l.Nodup)
    (h : [x, y] <+ l) (h' : [y, x] <+ l) : False := by
  induction l with
  | nil => simp at h
  | cons z l ih =>
    obtain ⟨hz, hn⟩ := List.nodup_cons.mp hn
    have hne : x ≠ y := by simpa using h.nodup (List.nodup_cons.mpr ⟨hz, hn⟩)
    have htail : ∀ {u v : α}, [u, v] <+ z :: l → v ∈ l := by
      intro u v huv
      rcases List.sublist_cons_iff.mp huv with huv | ⟨r, hr, huv⟩
      · exact huv.subset (by simp)
      · obtain ⟨-, rfl⟩ := List.cons.inj hr
        exact huv.subset (by simp)
    have hskip : ∀ {u v : α}, [u, v] <+ z :: l → u ≠ z → [u, v] <+ l := by
      intro u v huv hu
      rcases List.sublist_cons_iff.mp huv with huv | ⟨r, hr, -⟩
      · exact huv
      · exact absurd (List.cons.inj hr).1 hu
    exact ih hn (hskip h fun hx => hz (hx ▸ htail h')) (hskip h' fun hy => hz (hy ▸ htail h))

namespace Spec

variable (S : Spec Op Ret)

/-- What the specification answers to a list of operations. -/
def answers : S.State → List Op → List Ret
  | _, [] => []
  | s, op :: ops => (S.step s op).2 :: answers (S.step s op).1 ops

/-- What a list of operations leads to. -/
def final (s : S.State) (ops : List Op) : S.State :=
  ops.foldl (fun s op => (S.step s op).1) s

lemma final_append (s : S.State) (ops ops' : List Op) :
    S.final s (ops ++ ops') = S.final (S.final s ops) ops' :=
  List.foldl_append

lemma answers_append (s : S.State) (ops ops' : List Op) :
    S.answers s (ops ++ ops') = S.answers s ops ++ S.answers (S.final s ops) ops' := by
  induction ops generalizing s with
  | nil => rfl
  | cons op ops ih =>
    simp only [List.cons_append, answers, ih]
    rfl

lemma after_serialEntries (s : S.State) (n : ℕ) (L : List (Op × Ret)) :
    S.after s (serialEntries n L) = S.final s (L.map Prod.fst) := by
  induction L generalizing n s with
  | nil => rfl
  | cons p L ih => exact ih _ _

lemma answers_of_legal {s : S.State} (h : S.Legal s (serialEntries n L)) :
    L.map Prod.snd = S.answers s (L.map Prod.fst) := by
  induction L generalizing n s with
  | nil => rfl
  | cons p L ih =>
    obtain ⟨h1, h2⟩ := h
    simp only [List.map_cons, answers]
    rw [ih h2, h1]

end Spec

/-- **Serial histories.**  The calls of a serial run can only be ordered as they were made. -/
theorem Linearization.serial {S : Spec Op Ret} {l : List (Entry Op Ret)}
    (h : Linearization S (serialEvents 0 L) l) : l = serialEntries 0 L := by
  obtain ⟨hnodup, hinv, hres, -, horder⟩ := h
  have hlt := serialEntries_sorted 0 L
  -- The linearization has the calls of the run as its members.
  have hmem : ∀ {a}, a ∈ l → a ∈ serialEntries 0 L := by
    intro a ha
    obtain ⟨r, hr⟩ := serial_entry_of_inv (hinv a ha)
    obtain ⟨op, hop⟩ := hres _ _ (mem_serialEvents_of_entry hr).2
    have heq := List.inj_on_of_nodup_map hnodup ha hop rfl
    have hret : a.ret = r := by rw [heq]
    rw [← hret] at hr
    exact hr
  have hiff : ∀ a, a ∈ l ↔ a ∈ serialEntries 0 L := by
    refine fun a => ⟨hmem, fun ha => ?_⟩
    obtain ⟨op, hop⟩ := hres _ _ (mem_serialEvents_of_entry ha).2
    exact serialEntries_inj (hmem hop) ha rfl ▸ hop
  -- Real time leaves it no other order.
  have hsorted : l.Pairwise fun a b => a.id < b.id := by
    refine List.pairwise_iff_forall_sublist.mpr fun {a b} hab => ?_
    have ha := (hiff a).mp (hab.subset (by simp))
    have hb := (hiff b).mp (hab.subset (by simp))
    have hne : a.id ≠ b.id := by simpa using (hab.map Entry.id).nodup hnodup
    by_contra hle
    have hba : Before (serialEvents 0 L) b.id a.id := before_of_lt hb ha (by omega)
    exact pair_sublist_asymm hnodup.of_map hab
      (horder b (hab.subset (by simp)) a (hab.subset (by simp)) hba)
  have hperm : l.Perm (serialEntries 0 L) := by
    refine (List.perm_ext_iff_of_nodup hnodup.of_map ?_).mpr hiff
    exact hlt.imp fun h heq => by simp [heq] at h
  exact hperm.eq_of_pairwise (fun a b _ _ h1 h2 => absurd h1 (lt_asymm h2)) hsorted hlt

/-- So they have answered what the specification answers. -/
lemma Linearization.serial_answers {S : Spec Op Ret} {l : List (Entry Op Ret)}
    (h : Linearization S (serialEvents 0 L) l) :
    L.map Prod.snd = S.answers S.init (L.map Prod.fst) :=
  S.answers_of_legal (h.serial ▸ h.legal)

/-! ## Runs -/

namespace Object

variable {A : Type → Type} {O : Object A}

/-- A configuration without calls in progress. -/
def still (m : O.Mem) (h : List (Event O.Op O.Ret)) : O.Config where
  mem := m
  running := fun _ => none
  hist := h

/-- A program that runs alone takes the steps of its thread. -/
lemma run_of_runFor {t n : ℕ} {p : Prog A O.Ret} {m m' : O.Mem} {r : O.Ret}
    (h : Prog.runFor (fun {β} => O.exec t (β := β)) n p m = some (r, m')) {id : ℕ} {op : O.Op}
    {f : ℕ → Option O.Call} {hist : List (Event O.Op O.Ret)} :
    Relation.ReflTransGen Step
      (⟨m, Function.update f t (some ⟨id, op, p⟩), hist⟩ : O.Config)
      ⟨m', Function.update f t (some ⟨id, op, .ret r⟩), hist⟩ := by
  induction n generalizing p m with
  | zero =>
    cases p with
    | ret a =>
      obtain ⟨rfl, rfl⟩ : a = r ∧ m = m' := by simpa [Prog.runFor] using h
      exact .refl
    | act a k => simp [Prog.runFor] at h
    | loop body s k => simp [Prog.runFor] at h
  | succ n ih =>
    cases p with
    | ret a =>
      obtain ⟨rfl, rfl⟩ : a = r ∧ m = m' := by simpa [Prog.runFor] using h
      exact .refl
    | act a k =>
      have hstep := Step.act (O := O) (c := ⟨m, Function.update f t (some ⟨id, op, .act a k⟩),
        hist⟩) t id op a k (Function.update_self ..)
      rw [Function.update_idem] at hstep
      exact .head hstep (ih h)
    | loop body s k =>
      have hstep := Step.unfold (O := O) (c := ⟨m, Function.update f t
        (some ⟨id, op, .loop body s k⟩), hist⟩) t id op body s k (Function.update_self ..)
      rw [Function.update_idem] at hstep
      exact .head hstep (ih h)

/-- Operations executed one after the other, each by some thread, with their answers. -/
inductive Serial : O.Mem → List (O.Op × O.Ret) → O.Mem → Prop where
  | nil (m : O.Mem) : Serial m [] m
  | cons {m m₁ m₂ m' : O.Mem} {r : O.Ret} {L : List (O.Op × O.Ret)} (t n : ℕ) (op : O.Op)
      (hstart : O.start t op m m₁)
      (hrun : Prog.runFor (fun {β} => O.exec t (β := β)) n (O.code op) m₁ = some (r, m₂))
      (rest : Serial m₂ L m') : Serial m ((op, r) :: L) m'

/-- One operation, alone. -/
lemma run_once {t n : ℕ} {op : O.Op} {m m₁ m₂ : O.Mem} {r : O.Ret}
    (hstart : O.start t op m m₁)
    (hrun : Prog.runFor (fun {β} => O.exec t (β := β)) n (O.code op) m₁ = some (r, m₂))
    (h : List (Event O.Op O.Ret)) :
    Relation.ReflTransGen Step (still m h)
      (still m₂ (h ++ [.inv h.length op, .res h.length r])) := by
  refine .head (Step.invoke (c := still m h) t op m₁ rfl hstart) ?_
  refine (run_of_runFor hrun).tail ?_
  have hstep := Step.respond (O := O) (c := ⟨m₂, Function.update (fun _ => none) t
    (some ⟨h.length, op, .ret r⟩), h ++ [.inv h.length op]⟩) t h.length op r
    (by simp)
  rw [Function.update_idem, Function.update_eq_self_iff.mpr rfl] at hstep
  simpa [still] using hstep

/-- A serial run is an interleaved run. -/
theorem Serial.run {m m' : O.Mem} {L : List (O.Op × O.Ret)} (hs : Serial m L m')
    (h : List (Event O.Op O.Ret)) :
    Relation.ReflTransGen Step (still m h) (still m' (h ++ serialEvents h.length L)) := by
  induction hs generalizing h with
  | nil m =>
    rw [serialEvents, List.append_nil]
  | @cons m m₁ m₂ m' r L t n op hstart hrun _ ih =>
    have hrest := ih (h ++ [.inv h.length op, .res h.length r])
    simp only [List.append_assoc, List.cons_append, List.nil_append, List.length_append,
      List.length_cons, List.length_nil] at hrest
    exact (run_once hstart hrun h).trans hrest

lemma Serial.reachable {m m' : O.Mem} {L : List (O.Op × O.Ret)} (hs : Serial m L m') :
    Reachable m (still m' (serialEvents 0 L)) :=
  hs.run []

lemma Serial.trans {m m' m'' : O.Mem} {L L' : List (O.Op × O.Ret)} (h : Serial m L m')
    (h' : Serial m' L' m'') : Serial m (L ++ L') m'' := by
  induction h with
  | nil m => exact h'
  | cons t n op hstart hrun _ ih => exact .cons t n op hstart hrun (ih h')

end Object

end Artmap
