import Artmap.Arena.Sound

/-!
# Allocations by one thread alone

A thread that allocates from an arena while no other thread does never loses a race, whichever
compare-exchanges fail spuriously: it claims no chunks, and each of its allocations takes from the
cursor at most the size and the alignment padding of the request.  As long as so much remains, it
does not fail.

The other threads need not rest meanwhile: all that is asked of them is that they leave the words
of this one arena alone (`RunsOn`).
-/

namespace Artmap

namespace Arena

variable {M M' : Mem} {a t n size align : ℕ} {c : Cell} {l : Layout} {off : Option ℕ}

/-- `Arena::remaining`. -/
def Cell.remaining (c : Cell) : ℕ :=
  c.capacity - c.cursor

/-- `pad`: what an allocation of `size` bytes takes at most. -/
def pad (size align : ℕ) : ℕ :=
  size + align - 1

/-- What an allocation of a layout takes at most. -/
def Layout.worst (l : Layout) : ℕ :=
  pad l.bytes l.align

lemma align_pos (ha : ∃ k ≤ 6, align = 2 ^ k) : 1 ≤ align ∧ align ≤ 64 := by
  obtain ⟨k, hk, rfl⟩ := ha
  exact ⟨Nat.one_le_two_pow, (Nat.pow_le_pow_right (by norm_num) hk).trans (by norm_num)⟩

/-- Where so much remains, a request is placed at the cursor, but for its padding. -/
lemma fitAt_of_room (ha : ∃ k ≤ 6, align = 2 ^ k) (hcap : c.capacity ≤ maxArenaSize)
    (hsize : 1 ≤ size) (hroom : pad size align ≤ c.remaining) :
    ∃ start, fitAt c.capacity align size c.cursor = some (start, start + size) ∧
      start + size ≤ c.cursor + pad size align := by
  obtain ⟨h1, h2⟩ := align_pos ha
  rw [maxArenaSize_eq] at hcap
  unfold pad Cell.remaining at hroom
  have hsum : checkedAdd c.cursor (align - 1) = some (c.cursor + (align - 1)) :=
    checkedAdd_eq_some.mpr ⟨rfl, by omega⟩
  obtain ⟨-, h3, h4⟩ := aligned_start ha hsum
  refine ⟨alignDown (c.cursor + (align - 1)) align, ?_, by unfold pad; omega⟩
  have hstop : checkedAdd (alignDown (c.cursor + (align - 1)) align) size =
      some (alignDown (c.cursor + (align - 1)) align + size) :=
    checkedAdd_eq_some.mpr ⟨rfl, by omega⟩
  have hle : ¬ c.capacity < alignDown (c.cursor + (align - 1)) align + size := by omega
  simp [fitAt, hsum, hstop, hle]

/-- The arena has given away no more than `n` bytes since `c`. -/
def Spent (M : Mem) (a : ℕ) (c : Cell) (n : ℕ) : Prop :=
  ∃ c', M.arenas a = some c' ∧ c'.capacity = c.capacity ∧ c.remaining ≤ c'.remaining + n

/-! ## Runs that have an arena to themselves -/

/-- Thread `t` runs a program to its end, in `n` steps, while no other thread changes arena `a`.
Between the steps the others may do anything else. -/
inductive RunsOn (t a : ℕ) {α : Type} : ℕ → AllocM α → Mem → α → Mem → Prop where
  | ret (r : α) (M : Mem) : RunsOn t a 0 (.ret r) M r M
  | act {β : Type} {x : Act β} {k : β → AllocM α} {n : ℕ} {M M' M'' : Mem} {r : α}
      (hother : M'.arenas a = (exec t x M).2.arenas a)
      (h : RunsOn t a n (k (exec t x M).1) M' r M'') : RunsOn t a (n + 1) (.act x k) M r M''
  | unfold {ρ β : Type} {body : ρ → AllocM (ρ ⊕ β)} {s : ρ} {k : β → AllocM α} {n : ℕ}
      {M M' : Mem} {r : α} (h : RunsOn t a n (Prog.unfold body s k) M r M') :
      RunsOn t a (n + 1) (.loop body s k) M r M'

namespace RunsOn

variable {α β ρ : Type} {r : α}

lemma of_ret {r' : α} (h : RunsOn t a n (.ret r) M r' M') : r' = r ∧ M' = M := by
  cases h
  exact ⟨rfl, rfl⟩

lemma of_act {x : Act β} {k : β → AllocM α} (h : RunsOn t a n (.act x k) M r M') :
    ∃ n' < n, ∃ M₁, M₁.arenas a = (exec t x M).2.arenas a ∧
      RunsOn t a n' (k (exec t x M).1) M₁ r M' := by
  cases h with
  | act hother h => exact ⟨_, Nat.lt_succ_self _, _, hother, h⟩

lemma of_loop {body : ρ → AllocM (ρ ⊕ β)} {s : ρ} {k : β → AllocM α}
    (h : RunsOn t a n (.loop body s k) M r M') :
    ∃ n' < n, RunsOn t a n' (Prog.unfold body s k) M r M' := by
  cases h with
  | unfold h => exact ⟨_, Nat.lt_succ_self _, h⟩

/-- A run alone is one of them. -/
lemma of_runFor {p : AllocM α}
    (h : Prog.runFor (fun {β} => exec t (β := β)) n p M = some (r, M')) :
    ∃ n', RunsOn t a n' p M r M' := by
  induction n using Nat.strongRecOn generalizing p M with
  | _ n ih =>
    cases p with
    | ret r' =>
      obtain ⟨rfl, rfl⟩ := Prod.mk.inj (Prog.runFor_ret h)
      exact ⟨0, .ret _ _⟩
    | act x k =>
      obtain ⟨n₁, h₁, h⟩ := Prog.runFor_act h
      obtain ⟨n', h'⟩ := ih n₁ h₁ h
      exact ⟨n' + 1, .act rfl h'⟩
    | loop body s k =>
      obtain ⟨n₁, h₁, h⟩ := Prog.runFor_loop h
      obtain ⟨n', h'⟩ := ih n₁ h₁ h
      exact ⟨n' + 1, .unfold h'⟩

end RunsOn

/-! ## Allocations -/

/-- The loop of an allocation, where so much remains. -/
lemma runsOn_allocRound (ha : ∃ k ≤ 6, align = 2 ^ k) (hcap : c.capacity ≤ maxArenaSize)
    (hsize : 1 ≤ size) (hroom : pad size align ≤ c.remaining) (hc : M.arenas a = some c)
    (h : RunsOn t a n (Prog.iter (allocRound a align size) (c.cursor, false)) M off M') :
    off ≠ none ∧ Spent M' a c (pad size align) := by
  obtain ⟨start, hfit, hle⟩ := fitAt_of_room ha hcap hsize hroom
  -- By induction on the steps: a compare-exchange that fails spuriously leaves fewer of them.
  induction n using Nat.strongRecOn generalizing M with
  | _ n ih =>
    obtain ⟨n₁, h₁, h⟩ := h.of_loop
    obtain ⟨n₂, h₂, M₂, hM₂, h⟩ := h.of_act
    have hcapacity : (exec t (.capacity a) M).1 = c.capacity := by simp [exec, hc]
    have hc₂ : M₂.arenas a = some c := hM₂.trans hc
    rw [hcapacity] at h
    simp only [Prog.ret_bind, hfit, bump] at h
    obtain ⟨n₃, h₃, M₃, hM₃, h⟩ := h.of_act
    by_cases hsp : M₂.spurious.head?.getD false = false
    · have hexec : exec t (.compareExchange a c.cursor (start + size)) M₂ =
          (none, ({ M₂ with spurious := M₂.spurious.tail }.modify a
            ({ · with cursor := start + size })).note
              (.claimed t a ⟨c.id, c.cursor, start + size⟩)) := by
        simp [exec, hc₂, hsp]
      rw [hexec] at h hM₃
      obtain ⟨rfl, rfl⟩ := h.of_ret
      refine ⟨by simp, { c with cursor := start + size }, ?_, rfl, ?_⟩
      · rw [hM₃]
        simp [Mem.note, Mem.modify, hc₂]
      · show c.capacity - c.cursor ≤ c.capacity - (start + size) + _
        omega
    · have hexec : exec t (.compareExchange a c.cursor (start + size)) M₂ =
          (some c.cursor, { M₂ with spurious := M₂.spurious.tail }) := by
        simp [exec, hc₂, hsp]
      rw [hexec] at h hM₃
      refine ih n₃ (by omega) (hM₃.trans hc₂) ?_
      simpa [Prog.again, Prog.iter] using h

/-- **An allocation in an arena that no other thread works on.**  Where the request and its padding
remain, it does not fail, and takes no more. -/
lemma runsOn_alloc (hcap : c.capacity ≤ maxArenaSize) (hroom : l.worst ≤ c.remaining)
    (hc : M.arenas a = some c) (h : RunsOn t a n (alloc a l) M off M') :
    off ≠ none ∧ Spent M' a c l.worst := by
  obtain ⟨n₁, -, M₁, hM₁, h⟩ := h.of_act
  have hc₁ : M₁.arenas a = some c := hM₁.trans hc
  obtain ⟨n₂, -, M₂, hM₂, h⟩ := h.of_act
  have hid : (exec t (.arenaId a) M).1 = c.id := by simp [exec, hc]
  rw [hid] at h hM₂
  have hmem : (exec t (.take c.id l.align l.bytes) M₁).2.arenas = M₁.arenas := by
    cases htake : take (M₁.tlab t) c.id l.align l.bytes <;> simp [exec, htake, Mem.note]
  have hc₂ : M₂.arenas a = some c := by rw [hM₂, hmem, hc₁]
  generalize (exec t (.take c.id l.align l.bytes) M₁).1 = r at h
  cases r with
  | some start =>
    obtain ⟨rfl, rfl⟩ := h.of_ret
    exact ⟨by simp, c, hc₂, rfl, Nat.le_add_right _ _⟩
  | none =>
    obtain ⟨n₃, -, M₃, hM₃, h⟩ := h.of_act
    have hcur : (exec t (.loadCursor a) M₂).1 = c.cursor := by simp [exec, hc₂]
    rw [hcur] at h
    exact runsOn_allocRound l.align_pow hcap (le_max_right _ _) hroom (hM₃.trans hc₂) h

/-- The requests of thread `t` to arena `a`, in order, each with whether it is granted, while no
other thread changes the arena. -/
inductive Served (t a : ℕ) : Mem → List (Layout × Bool) → Prop where
  | nil (M : Mem) : Served t a M []
  | cons {M M₁ M₂ : Mem} {l : Layout} {off : Option ℕ} {n : ℕ} {reqs : List (Layout × Bool)}
      (hother : M₁.arenas a = M.arenas a) (h : RunsOn t a n (alloc a l) M₁ off M₂)
      (hrest : Served t a M₂ reqs) : Served t a M ((l, off.isSome) :: reqs)

/-- As long as the arena has room for the worst case of all requests, each is granted. -/
lemma Served.granted {reqs : List (Layout × Bool)} (h : Served t a M reqs)
    (hcap : c.capacity ≤ maxArenaSize) (hc : M.arenas a = some c)
    (hroom : (reqs.map fun q => q.1.worst).sum ≤ c.remaining) : ∀ q ∈ reqs, q.2 = true := by
  induction h generalizing c with
  | nil M => simp
  | @cons M M₁ M₂ l off n reqs hother h hrest ih =>
    rw [List.map_cons, List.sum_cons] at hroom
    obtain ⟨hoff, c', hc', hcap', hspent⟩ :=
      runsOn_alloc hcap (le_trans (Nat.le_add_right _ _) hroom) (hother.trans hc) h
    intro q hq
    rcases List.mem_cons.mp hq with rfl | hq
    · exact Option.isSome_iff_ne_none.mpr hoff
    · exact ih (hcap' ▸ hcap) hc' (by omega) q hq

/-- No arena is larger than an offset can address. -/
lemma capacity_le (spurious : List Bool) {d : object.Config}
    (hd : Object.Reachable (O := object) (Mem.initial spurious) d)
    (hc : d.mem.arenas a = some c) : c.capacity ≤ maxArenaSize := by
  obtain ⟨g, ⟨hi, -⟩, -⟩ := RG.sound verified (inv_initial spurious) (fun _ => rfl) hd
  have hi : Inv d.mem g := hi
  exact (hi.cell hc).2.2.2.2

end Arena

end Artmap
