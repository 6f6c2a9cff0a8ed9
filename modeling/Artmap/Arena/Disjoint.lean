import Artmap.Arena.Alloc
import Artmap.Framework.RelyGuarantee
import Mathlib.Data.Nat.Bitwise
import Mathlib.Tactic.Linarith

/-!
# Allocations never overlap

Every byte of an arena that was claimed and not yet answered or abandoned has one holder: a slot
of some thread's table, or the hand of a thread that is about to answer or to install it.  The
holders' regions are apart from one another and from everything that was answered, and lie below
the cursor, so that a claim at the cursor is apart from all of them; this is the invariant, and
each step moves, splits or drops one holder's region, or claims one more at the cursor.

A chunk of an arena that was reset is never carved again because its identity is no arena's any
more: identities are fresh, and a reset has the arena alone.
-/

namespace Artmap

namespace Arena

open scoped List

/-! ## Arithmetic -/

/-- Masking away the low `k` of `w` bits. -/
lemma and_mask_eq {w x k : ℕ} (hx : x < 2 ^ w) (hk : k ≤ w) :
    x &&& (2 ^ w - 1 - (2 ^ k - 1)) = x / 2 ^ k * 2 ^ k := by
  have hpos : 0 < 2 ^ k := Nat.two_pow_pos k
  have hle : 2 ^ k ≤ 2 ^ w := Nat.pow_le_pow_right (by norm_num) hk
  have hlt : 2 ^ k - 1 < 2 ^ w := by omega
  refine Nat.eq_of_testBit_eq fun i => ?_
  have hmask : (2 ^ w - 1 - (2 ^ k - 1)).testBit i = (decide (i < w) && !decide (i < k)) := by
    have : 2 ^ w - 1 - (2 ^ k - 1) = 2 ^ w - ((2 ^ k - 1) + 1) := by omega
    rw [this, Nat.testBit_two_pow_sub_succ hlt, Nat.testBit_two_pow_sub_one]
  have hshift : x / 2 ^ k * 2 ^ k = (x >>> k) <<< k := by
    rw [Nat.shiftRight_eq_div_pow, Nat.shiftLeft_eq]
  rw [Nat.testBit_and, hmask, hshift, Nat.testBit_shiftLeft, Nat.testBit_shiftRight]
  by_cases hik : k ≤ i
  · have hadd : k + (i - k) = i := by omega
    rw [hadd]
    by_cases hi : i < w
    · simp [hi, hik]
    · have : x.testBit i = false := Nat.testBit_lt_two_pow
        (lt_of_lt_of_le hx (Nat.pow_le_pow_right (by norm_num) (by omega)))
      simp [this]
  · simp [hik, Nat.lt_of_not_le hik]

lemma alignDown_eq {x k : ℕ} (hx : x < 2 ^ 64) (hk : k ≤ 6) :
    alignDown x (2 ^ k) = x / 2 ^ k * 2 ^ k :=
  and_mask_eq hx (by omega)

lemma checkedAdd_eq_some {a b c : ℕ} : checkedAdd a b = some c ↔ c = a + b ∧ c < 2 ^ 64 := by
  unfold checkedAdd
  split <;> simp <;> omega

/-- The offset at which a request is placed: aligned, and not below the cursor. -/
lemma aligned_start {cur align y : ℕ} (ha : ∃ k ≤ 6, align = 2 ^ k)
    (h : checkedAdd cur (align - 1) = some y) :
    align ∣ alignDown y align ∧ cur ≤ alignDown y align ∧ alignDown y align ≤ y := by
  obtain ⟨k, hk, rfl⟩ := ha
  obtain ⟨rfl, hlt⟩ := checkedAdd_eq_some.mp h
  have hpos : 0 < 2 ^ k := Nat.two_pow_pos k
  rw [alignDown_eq hlt hk]
  refine ⟨dvd_mul_left _ _, ?_, Nat.div_mul_le_self _ _⟩
  have h1 := Nat.div_add_mod (cur + (2 ^ k - 1)) (2 ^ k)
  have h2 := Nat.mod_lt (cur + (2 ^ k - 1)) hpos
  rw [mul_comm] at h1
  omega

lemma arenaAlign_pow : ∃ k ≤ 6, arenaAlign = 2 ^ k := ⟨6, le_rfl, rfl⟩

lemma maxArenaSize_eq : maxArenaSize = 2 ^ 32 - 64 := by
  unfold maxArenaSize arenaAlign
  decide

/-- What `Arena::alloc` claims at `cur`. -/
lemma fitAt_eq_some {capacity align size cur start stop : ℕ} (ha : ∃ k ≤ 6, align = 2 ^ k)
    (h : fitAt capacity align size cur = some (start, stop)) :
    align ∣ start ∧ cur ≤ start ∧ stop = start + size ∧ stop ≤ capacity := by
  unfold fitAt at h
  simp only [Option.bind_eq_bind, Option.bind_eq_some_iff] at h
  obtain ⟨y, hy, stop', hstop, h⟩ := h
  split at h
  · simp at h
  · simp only [Option.some.injEq, Prod.mk.injEq] at h
    obtain ⟨rfl, rfl⟩ := h
    obtain ⟨h1, h2, -⟩ := aligned_start ha hy
    exact ⟨h1, h2, (checkedAdd_eq_some.mp hstop).1, by omega⟩

/-- What `Arena::refill` claims at `cur`: room for the request at its start. -/
lemma chunkAt_eq_some {capacity align size cur start stop : ℕ}
    (h : chunkAt capacity align size cur = some (start, stop)) :
    arenaAlign ∣ start ∧ cur ≤ start ∧ start + (size + align) % 2 ^ 64 ≤ stop ∧
      stop ≤ capacity := by
  unfold chunkAt at h
  simp only [Option.bind_eq_bind, Option.bind_eq_some_iff] at h
  obtain ⟨y, hy, stop', hstop, h⟩ := h
  split at h
  · simp at h
  · rename_i hc
    simp only [Option.some.injEq, Prod.mk.injEq] at h
    obtain ⟨rfl, rfl⟩ := h
    obtain ⟨h1, h2, -⟩ := aligned_start arenaAlign_pow hy
    have := (checkedAdd_eq_some.mp hstop).1
    refine ⟨h1, h2, ?_, by omega⟩
    omega

/-! ## Slot tables -/

lemma position_eq_some {s : Slots} {p : Slot → Bool} {i : Fin 4} :
    s.position p = some i ↔ p (s i) = true ∧ ∀ j < i, p (s j) = false := by
  unfold Slots.position
  rw [List.find?_eq_some_iff_getElem]
  constructor
  · rintro ⟨hp, n, hn, hi, hlt⟩
    simp only [List.getElem_finRange] at hi
    refine ⟨hp, fun j hj => ?_⟩
    have := hlt j (by subst hi; exact hj)
    simpa using this
  · rintro ⟨hp, hlt⟩
    refine ⟨hp, i, by simp, by simp, fun j hj => ?_⟩
    have := hlt ⟨j, by omega⟩ hj
    simpa using this

lemma position_eq_none {s : Slots} {p : Slot → Bool} (h : s.position p = none) (i : Fin 4) :
    p (s i) = false := by
  have := List.find?_eq_none.mp h i (List.mem_finRange i)
  simpa using this

/-- The slot that was just installed is the first one of its arena. -/
lemma position_install (s : Slots) (arena start stop : ℕ) :
    (install s arena start stop).position (·.arena = arena) = some (victim s arena) := by
  rw [position_eq_some]
  refine ⟨by simp [install], fun j hj => ?_⟩
  have hne : j ≠ victim s arena := ne_of_lt hj
  simp only [install, Function.update_of_ne hne]
  cases hp : s.position (·.arena = arena) with
  | none => exact position_eq_none hp j
  | some i =>
    have hv : victim s arena = i := by simp [victim, hp]
    exact (position_eq_some.mp hp).2 j (hv ▸ hj)

/-- What is carved lies in a slot of the arena, and the slot keeps what is behind it. -/
lemma take_eq_some {s s' : Slots} {arena align size start : ℕ} (ha : ∃ k ≤ 6, align = 2 ^ k)
    (h : take s arena align size = some (start, s')) :
    ∃ i, (s i).arena = arena ∧ align ∣ start ∧ (s i).cur ≤ start ∧ start + size ≤ (s i).stop ∧
      s' = Function.update s i { s i with cur := start + size } := by
  unfold take at h
  simp only [Option.bind_eq_bind, Option.bind_eq_some_iff] at h
  obtain ⟨i, hi, y, hy, stop, hstop, h⟩ := h
  split at h
  · simp at h
  · simp only [Option.some.injEq, Prod.mk.injEq] at h
    obtain ⟨rfl, rfl⟩ := h
    obtain ⟨h1, h2, -⟩ := aligned_start ha hy
    obtain ⟨rfl, -⟩ := checkedAdd_eq_some.mp hstop
    have := (position_eq_some.mp hi).1
    refine ⟨i, by simpa using this, h1, h2, by omega, rfl⟩

/-- A chunk that was just installed with room for a request serves it. -/
lemma take_install (s : Slots) (arena : ℕ) {align size start stop : ℕ} (ha : ∃ k ≤ 6, align = 2 ^ k)
    (hs : arenaAlign ∣ start) (hroom : start + (size + align) ≤ stop) (hstop : stop < 2 ^ 32) :
    ∃ s', take (install s arena start stop) arena align size = some (start, s') := by
  obtain ⟨k, hk, rfl⟩ := ha
  have hpow : 2 ^ k ∣ start := (pow_dvd_pow 2 hk).trans hs
  have hpos : 0 < 2 ^ k := Nat.two_pow_pos k
  have hy : checkedAdd start (2 ^ k - 1) = some (start + (2 ^ k - 1)) :=
    checkedAdd_eq_some.mpr ⟨rfl, by omega⟩
  have hstart : alignDown (start + (2 ^ k - 1)) (2 ^ k) = start := by
    obtain ⟨q, rfl⟩ := hpow
    have hq : (2 ^ k * q + (2 ^ k - 1)) / 2 ^ k = q := by
      rw [Nat.mul_add_div hpos, Nat.div_eq_of_lt (by omega), add_zero]
    rw [alignDown_eq (by omega) hk, hq, mul_comm]
  have hsize : checkedAdd start size = some (start + size) :=
    checkedAdd_eq_some.mpr ⟨rfl, by omega⟩
  have hslot : install s arena start stop (victim s arena) = ⟨arena, start, stop⟩ := by
    simp [install]
  have hroom' : ¬ stop < start + size := by omega
  refine ⟨Function.update (install s arena start stop) (victim s arena)
    ⟨arena, start + size, stop⟩, ?_⟩
  unfold take
  simp only [position_install, Option.bind_eq_bind, Option.bind_some, hslot, hy, hstart, hsize,
    hroom', if_false]

/-! ## Traces -/

/-- The regions do not overlap, if they are of one identity. -/
def Region.Apart (r s : Region) : Prop :=
  r.id = s.id → r.stop ≤ s.start ∨ s.stop ≤ r.start

lemma Region.Apart.symm {r s : Region} (h : r.Apart s) : s.Apart r :=
  fun hid => (h hid.symm).symm

/-- `r` lies in `s`. -/
def Region.Sub (r s : Region) : Prop :=
  r.id = s.id ∧ s.start ≤ r.start ∧ r.stop ≤ s.stop

lemma Region.Apart.sub {r r' s : Region} (h : r.Apart s) (hr : r'.Sub r) : r'.Apart s := by
  intro hid
  obtain ⟨h1, h2, h3⟩ := hr
  rcases h (h1.symm.trans hid) with h | h
  · exact .inl (h3.trans h)
  · exact .inr (h.trans h2)

/-- What an entry gives to the caller. -/
def Entry.grant : Entry → Option Region
  | .answered _ _ id l (some off) => some ⟨id, off, off + l.bytes⟩
  | _ => none

/-- Everything that was answered. -/
def grants (L : List Entry) : List Region :=
  L.filterMap Entry.grant

/-- Thread `t` has advanced a cursor since it began its latest allocation. -/
def advanced (t : ℕ) : List Entry → Bool
  | [] => false
  | .begun t' _ :: L => if t' = t then false else advanced t L
  | .claimed t' _ _ :: L => if t' = t then true else advanced t L
  | _ :: L => advanced t L

/-- Something of identity `id` was claimed before a reset of its arena. -/
def Dead (id : ℕ) : List Entry → Prop
  | [] => False
  | .reset a :: L => (∃ t r, Entry.claimed t a r ∈ L ∧ r.id = id) ∨ Dead id L
  | _ :: L => Dead id L

/-- What holds of an entry after the entries `L`, where `capacity` tells the arenas'
capacities. -/
def EntryOk (capacity : ℕ → Option ℕ) (L : List Entry) : Entry → Prop
  | .answered t a id l (some off) => l.align ∣ off ∧ arenaAlign ≤ off ∧
      (∃ cap, capacity a = some cap ∧ off + l.bytes ≤ cap) ∧
      (∀ s ∈ grants L, Region.Apart ⟨id, off, off + l.bytes⟩ s) ∧
      (.carved t ⟨id, off, off + l.bytes⟩ ∈ L ∨
        ∃ cur ≤ off, .claimed t a ⟨id, cur, off + l.bytes⟩ ∈ L)
  | .answered t _ _ _ none => advanced t L = false
  | .carved _ r => ¬ Dead r.id L
  | _ => True

/-- Every entry of a trace is as it should be. -/
def TraceOk (capacity : ℕ → Option ℕ) : List Entry → Prop
  | [] => True
  | e :: L => EntryOk capacity L e ∧ TraceOk capacity L

lemma TraceOk.split {capacity : ℕ → Option ℕ} {pre L : List Entry} {e : Entry}
    (h : TraceOk capacity (pre ++ e :: L)) : EntryOk capacity L e := by
  induction pre with
  | nil => exact h.1
  | cons e' pre ih => exact ih h.2

lemma EntryOk.mono {capacity capacity' : ℕ → Option ℕ} {L : List Entry} {e : Entry}
    (hcap : ∀ a cap, capacity a = some cap → capacity' a = some cap)
    (h : EntryOk capacity L e) : EntryOk capacity' L e := by
  cases e with
  | answered t a id l r =>
    cases r with
    | none => exact h
    | some off =>
      obtain ⟨h1, h2, ⟨cap, hc, hle⟩, h4⟩ := h
      exact ⟨h1, h2, ⟨cap, hcap a cap hc, hle⟩, h4⟩
  | begun t a => trivial
  | claimed t a r => trivial
  | carved t r => exact h
  | reset a => trivial

lemma TraceOk.mono {capacity capacity' : ℕ → Option ℕ} {L : List Entry}
    (hcap : ∀ a cap, capacity a = some cap → capacity' a = some cap)
    (h : TraceOk capacity L) : TraceOk capacity' L := by
  induction L with
  | nil => trivial
  | cons e L ih => exact ⟨h.1.mono hcap, ih h.2⟩

lemma Dead.claimed {id : ℕ} {L : List Entry} (h : Dead id L) :
    ∃ t a r, Entry.claimed t a r ∈ L ∧ r.id = id := by
  induction L with
  | nil => exact h.elim
  | cons e L ih =>
    have key : Dead id L → ∃ t a r, Entry.claimed t a r ∈ e :: L ∧ r.id = id := by
      intro hd
      obtain ⟨t, a, r, hr, hid⟩ := ih hd
      exact ⟨t, a, r, List.mem_cons_of_mem _ hr, hid⟩
    cases e with
    | reset a =>
      rcases h with ⟨t, r, hr, hid⟩ | h
      · exact ⟨t, a, r, List.mem_cons_of_mem _ hr, hid⟩
      · exact key h
    | begun t a => exact key h
    | claimed t a r => exact key h
    | carved t r => exact key h
    | answered t a id l r => exact key h

lemma Dead.of_split {id t a : ℕ} {r : Region} {pre L : List Entry} (hr : .claimed t a r ∈ L)
    (hid : r.id = id) : Dead id (pre ++ .reset a :: L) := by
  induction pre with
  | nil => exact .inl ⟨t, r, hr, hid⟩
  | cons e pre ih =>
    cases e with
    | reset a => exact .inr ih
    | begun t a => exact ih
    | claimed t a r => exact ih
    | carved t r => exact ih
    | answered t a id l r => exact ih

/-! ## The invariant -/

/-- Who holds bytes that were claimed: a slot, or the hand of a thread. -/
inductive Holder where
  | slot (t : ℕ) (i : Fin 4)
  | hand (t : ℕ)
  deriving DecidableEq

/-- The running calls, what each thread has in hand, and the identity each thread has drawn and
not yet put to use. -/
structure Ghost where
  call : ℕ → Option (ℕ × Op)
  hand : ℕ → Option Region
  fresh : ℕ → Option ℕ

/-- The bytes of a slot. -/
def Slot.region (s : Slot) : Region :=
  ⟨s.arena, s.cur, s.stop⟩

/-- What a holder holds. -/
def holds (m : Mem) (g : Ghost) : Holder → Option Region
  | .slot t i => some (m.tlab t i).region
  | .hand t => g.hand t

/-- Bytes that were claimed. -/
inductive Occupied (m : Mem) (g : Ghost) (r : Region) : Prop where
  | held (h : Holder) (hr : holds m g h = some r)
  | granted (hr : r ∈ grants m.trace)
  | claimed (t a : ℕ) (hr : .claimed t a r ∈ m.trace)

/-- The capacity of an arena. -/
def Mem.capacity (m : Mem) (a : ℕ) : Option ℕ :=
  (m.arenas a).map (·.capacity)

/-- What is held is apart from everything else that is held, and from what was answered. -/
structure Held (m : Mem) (g : Ghost) : Prop where
  apart : ∀ {h h' r r'}, h ≠ h' → holds m g h = some r → holds m g h' = some r' → r.Apart r'
  spare : ∀ {h r s}, holds m g h = some r → s ∈ grants m.trace → r.Apart s
  ordered : ∀ {h r}, holds m g h = some r → r.start ≤ r.stop

/-- The invariant of the allocator. -/
structure Inv (m : Mem) (g : Ghost) : Prop where
  held : Held m g
  drawn : ∀ {r}, Occupied m g r → r.id < m.nextId ∧ ∀ t, g.fresh t ≠ some r.id
  below : ∀ {r a c}, Occupied m g r → m.arenas a = some c → c.id = r.id →
    arenaAlign ≤ r.start ∧ r.stop ≤ c.cursor
  cell : ∀ {a c}, m.arenas a = some c → 0 < c.id ∧ c.id < m.nextId ∧ arenaAlign ≤ c.cursor ∧
    c.cursor ≤ c.capacity ∧ c.capacity ≤ maxArenaSize
  unique : ∀ {a b c d}, m.arenas a = some c → m.arenas b = some d → c.id = d.id → a = b
  fresh : ∀ {t id}, g.fresh t = some id → 0 < id ∧ id < m.nextId ∧
    (∀ t', g.fresh t' = some id → t' = t) ∧
    ∀ a c, m.arenas a = some c → c.id = id → m.taken a = some t
  claims : ∀ {t a r b c}, .claimed t a r ∈ m.trace → m.arenas b = some c → c.id = r.id → b = a
  dead : ∀ {id a c}, Dead id m.trace → m.arenas a = some c → c.id ≠ id
  trace : TraceOk m.capacity m.trace
  lent : ∀ {a t}, m.lent a t = true → m.arenas a ≠ none ∧ m.taken a = none
  taken : ∀ {a t}, m.taken a = some t → m.arenas a ≠ none
  count : ∀ a, m.arenas a = none ↔ m.count ≤ a
  next : 0 < m.nextId
  idle : ∀ {t}, g.call t = none → g.hand t = none ∧ g.fresh t = none

variable {m m' : Mem} {g g' : Ghost} {t a : ℕ}

/-- The hand of thread `t` becomes `r`. -/
def Ghost.setHand (g : Ghost) (t : ℕ) (r : Option Region) : Ghost :=
  { g with hand := Function.update g.hand t r }

/-- Slot `i` of thread `t` becomes `s`. -/
def Mem.setSlot (m : Mem) (t : ℕ) (i : Fin 4) (s : Slot) : Mem :=
  { m with tlab := Function.update m.tlab t (Function.update (m.tlab t) i s) }

lemma Mem.setSlot_tlab_same (m : Mem) (t : ℕ) (i : Fin 4) (s : Slot) :
    (m.setSlot t i s).tlab t i = s := by
  simp [setSlot]

lemma Mem.setSlot_tlab_other (m : Mem) {t t' : ℕ} {i j : Fin 4} (s : Slot)
    (h : ¬ (t' = t ∧ j = i)) : (m.setSlot t i s).tlab t' j = m.tlab t' j := by
  by_cases ht : t' = t
  · subst ht
    have hne : j ≠ i := fun hj => h ⟨rfl, hj⟩
    simp [setSlot, Function.update_of_ne hne]
  · simp [setSlot, Function.update_of_ne ht]

/-- The drawn identity of thread `t` becomes `id`. -/
def Ghost.setFresh (g : Ghost) (t : ℕ) (id : Option ℕ) : Ghost :=
  { g with fresh := Function.update g.fresh t id }

/-- What is in the hands and the slots after a step comes from what was there before. -/
structure Rehold (m : Mem) (g : Ghost) (m' : Mem) (g' : Ghost) (origin : Holder → Holder) :
    Prop where
  sub : ∀ {h r}, holds m' g' h = some r →
    r.start ≤ r.stop ∧ ∃ r₀, holds m g (origin h) = some r₀ ∧ r.Sub r₀
  apart : ∀ {h h' r r'}, h ≠ h' → origin h = origin h' → holds m' g' h = some r →
    holds m' g' h' = some r' → r.Apart r'

lemma Rehold.apart_of {origin : Holder → Holder} (ho : Rehold m g m' g' origin) (hi : Inv m g)
    {h h' : Holder} {r r' : Region} (hne : h ≠ h') (hr : holds m' g' h = some r)
    (hr' : holds m' g' h' = some r') : r.Apart r' := by
  obtain ⟨-, r₀, h0, hs⟩ := ho.sub hr
  obtain ⟨-, r₀', h0', hs'⟩ := ho.sub hr'
  by_cases hf : origin h = origin h'
  · exact ho.apart hne hf hr hr'
  · exact (((hi.held.apart hf h0 h0').sub hs).symm.sub hs').symm

/-- Everything occupied after the step is part of something occupied before it. -/
lemma Rehold.occupied {origin : Holder → Holder} (ho : Rehold m g m' g' origin)
    (hg : grants m'.trace = grants m.trace)
    (hc : ∀ {t a r}, Entry.claimed t a r ∈ m'.trace → Entry.claimed t a r ∈ m.trace)
    {r : Region} (h : Occupied m' g' r) : ∃ r₀, Occupied m g r₀ ∧ r.Sub r₀ := by
  cases h with
  | held h hr =>
    obtain ⟨-, r₀, h0, hs⟩ := ho.sub hr
    exact ⟨r₀, .held _ h0, hs⟩
  | granted hr => exact ⟨r, .granted (hg ▸ hr), rfl, le_rfl, le_rfl⟩
  | claimed t a hr => exact ⟨r, .claimed t a (hc hr), rfl, le_rfl, le_rfl⟩

/-- A step that only moves or splits what is held, and adds at most a carved region to the
trace. -/
lemma Inv.rehold (hi : Inv m g) (origin : Holder → Holder) (tlab : ℕ → Slots)
    (hand : ℕ → Option Region) {L : List Entry} (hL : L = m.trace ∨
      ∃ t r, L = .carved t r :: m.trace ∧ ¬ Dead r.id m.trace)
    (ho : Rehold m g { m with tlab := tlab, trace := L } { g with hand := hand } origin)
    (hidle : ∀ t, g.call t = none → hand t = none) :
    Inv { m with tlab := tlab, trace := L } { g with hand := hand } := by
  have hgr : grants L = grants m.trace := by
    rcases hL with rfl | ⟨t, r, rfl, -⟩ <;> rfl
  have hcl : ∀ {t a r}, Entry.claimed t a r ∈ L → Entry.claimed t a r ∈ m.trace := by
    rcases hL with rfl | ⟨t, r, rfl, -⟩
    · exact fun h => h
    · intro t a r h
      simpa using h
  have hdead : ∀ {id}, Dead id L → Dead id m.trace := by
    rcases hL with rfl | ⟨t, r, rfl, -⟩ <;> exact fun h => h
  refine { hi with held := ⟨ho.apart_of hi, ?_, fun hr => (ho.sub hr).1⟩, drawn := ?_, below := ?_,
                   claims := ?_, dead := ?_, trace := ?_, idle := ?_ }
  · intro h r s hr hs
    obtain ⟨-, r₀, h0, hsub⟩ := ho.sub hr
    exact (hi.held.spare h0 (hgr ▸ hs)).sub hsub
  · intro r hr
    obtain ⟨r₀, h0, hsub⟩ := ho.occupied hgr hcl hr
    rw [hsub.1]
    exact hi.drawn h0
  · intro r a c hr hc hid
    obtain ⟨r₀, h0, hsub⟩ := ho.occupied hgr hcl hr
    obtain ⟨h1, h2⟩ := hi.below h0 hc (hid.trans hsub.1)
    exact ⟨h1.trans hsub.2.1, hsub.2.2.trans h2⟩
  · exact fun hr => hi.claims (hcl hr)
  · exact fun hd => hi.dead (hdead hd)
  · rcases hL with rfl | ⟨t, r, rfl, hd⟩
    · exact hi.trace
    · exact ⟨hd, hi.trace⟩
  · exact fun hc => ⟨hidle _ hc, (hi.idle hc).2⟩

/-- A chunk in hand is installed; what was in the slot is abandoned. -/
lemma Inv.install (hi : Inv m g) {r : Region} {i : Fin 4} (hh : g.hand t = some r) :
    Inv (m.setSlot t i ⟨r.id, r.start, r.stop⟩) (g.setHand t none) := by
  -- The slot takes over from the hand; everything else stays where it was.
  have hkeep : ∀ {h r'}, holds (m.setSlot t i ⟨r.id, r.start, r.stop⟩) (g.setHand t none) h
      = some r' → (h = .slot t i ∧ r' = r) ∨ (h ≠ .slot t i ∧ h ≠ .hand t ∧
        holds m g h = some r') := by
    intro h r' hr
    cases h with
    | hand t' =>
      have hne : t' ≠ t := fun h => by subst h; simp [holds, Ghost.setHand] at hr
      refine .inr ⟨by simp, by simpa using hne, ?_⟩
      simpa [holds, Ghost.setHand, Function.update_of_ne hne] using hr
    | slot t' j =>
      by_cases hj : t' = t ∧ j = i
      · obtain ⟨rfl, rfl⟩ := hj
        rw [holds, Mem.setSlot_tlab_same] at hr
        exact .inl ⟨rfl, by simpa [Slot.region] using hr.symm⟩
      · rw [holds, Mem.setSlot_tlab_other _ _ hj] at hr
        exact .inr ⟨by simpa using hj, by simp, hr⟩
  refine hi.rehold (fun h => if h = .slot t i then .hand t else h) _ _ (.inl rfl)
    ⟨fun {h r'} hr => ?_, fun {h h' r₁ r₂} hne ho hr hr' => ?_⟩ fun t' hc => ?_
  · rcases hkeep hr with ⟨rfl, rfl⟩ | ⟨h1, -, h2⟩
    · exact ⟨hi.held.ordered (h := .hand t) hh, r', by simpa [holds] using hh, rfl, le_rfl, le_rfl⟩
    · exact ⟨hi.held.ordered h2, r', by simpa [h1] using h2, rfl, le_rfl, le_rfl⟩
  · rcases hkeep hr with ⟨rfl, -⟩ | ⟨h1, h2, -⟩ <;> rcases hkeep hr' with ⟨rfl, -⟩ | ⟨h3, h4, -⟩
    · exact absurd rfl hne
    · simp only [if_true, if_neg h3] at ho
      exact absurd ho.symm h4
    · simp only [if_true, if_neg h1] at ho
      exact absurd ho h2
    · simp only [if_neg h1, if_neg h3] at ho
      exact absurd ho hne
  · by_cases ht : t' = t
    · simp [ht]
    · simpa [Ghost.setHand, Function.update_of_ne ht] using (hi.idle hc).1

/-- A request is carved from a slot into the empty hand. -/
lemma Inv.carve (hi : Inv m g) {i : Fin 4} {start size : ℕ} (hcall : g.call t ≠ none)
    (hcur : (m.tlab t i).cur ≤ start)
    (hstop : start + size ≤ (m.tlab t i).stop) (hd : ¬ Dead (m.tlab t i).arena m.trace) :
    Inv ((m.setSlot t i { m.tlab t i with cur := start + size }).note
        (.carved t ⟨(m.tlab t i).arena, start, start + size⟩))
      (g.setHand t (some ⟨(m.tlab t i).arena, start, start + size⟩)) := by
  set id := (m.tlab t i).arena with hid
  set m' := (m.setSlot t i { m.tlab t i with cur := start + size }).note
    (.carved t ⟨id, start, start + size⟩) with hm'
  set g' := g.setHand t (some ⟨id, start, start + size⟩) with hg'
  -- The slot is split between the hand and itself.
  have hkeep : ∀ {h r'}, holds m' g' h = some r' →
      (h = .hand t ∧ r' = ⟨id, start, start + size⟩) ∨
      (h = .slot t i ∧ r' = ⟨id, start + size, (m.tlab t i).stop⟩) ∨
      (h ≠ .slot t i ∧ h ≠ .hand t ∧ holds m g h = some r') := by
    intro h r' hr
    cases h with
    | hand t' =>
      by_cases ht : t' = t
      · subst ht
        exact .inl ⟨rfl, by simpa [holds, hg', Ghost.setHand] using hr.symm⟩
      · refine .inr (.inr ⟨by simp, by simpa using ht, ?_⟩)
        simpa [holds, hg', Ghost.setHand, Function.update_of_ne ht] using hr
    | slot t' j =>
      have hr2 : some ((m.setSlot t i { m.tlab t i with cur := start + size }).tlab t' j).region
          = some r' := hr
      by_cases hj : t' = t ∧ j = i
      · obtain ⟨rfl, rfl⟩ := hj
        rw [Mem.setSlot_tlab_same] at hr2
        exact .inr (.inl ⟨rfl, by simpa [Slot.region] using hr2.symm⟩)
      · rw [Mem.setSlot_tlab_other _ _ hj] at hr2
        exact .inr (.inr ⟨by simpa using hj, by simp, hr2⟩)
  have hslot : holds m g (.slot t i) = some ⟨id, (m.tlab t i).cur, (m.tlab t i).stop⟩ := rfl
  refine hi.rehold (fun h => if h = .hand t then .slot t i else h) _ _
    (.inr ⟨t, _, rfl, hd⟩) ⟨fun {h r'} hr => ?_, fun {h h' r₁ r₂} hne ho hr hr' => ?_⟩
    fun t' hc => ?_
  · rcases hkeep hr with ⟨rfl, rfl⟩ | ⟨rfl, rfl⟩ | ⟨h1, h2, h3⟩
    · exact ⟨Nat.le_add_right _ _, ⟨id, (m.tlab t i).cur, (m.tlab t i).stop⟩,
        by simpa using hslot, rfl, hcur, hstop⟩
    · exact ⟨hstop, ⟨id, (m.tlab t i).cur, (m.tlab t i).stop⟩, by simpa using hslot, rfl,
        hcur.trans (Nat.le_add_right _ _), le_rfl⟩
    · exact ⟨hi.held.ordered h3, r', by simpa [h2] using h3, rfl, le_rfl, le_rfl⟩
  · rcases hkeep hr with ⟨rfl, rfl⟩ | ⟨rfl, rfl⟩ | ⟨h1, h2, -⟩ <;>
      rcases hkeep hr' with ⟨rfl, rfl⟩ | ⟨rfl, rfl⟩ | ⟨h3, h4, -⟩
    · exact absurd rfl hne
    · exact fun _ => .inl le_rfl
    · simp only [if_true, if_neg h4] at ho
      exact absurd ho.symm h3
    · exact fun _ => .inr le_rfl
    · exact absurd rfl hne
    · simp only [if_neg h4, reduceCtorEq, if_false] at ho
      exact absurd ho.symm h3
    · simp only [if_true, if_neg h2] at ho
      exact absurd ho h1
    · simp only [if_neg h2, reduceCtorEq, if_false] at ho
      exact absurd ho h1
    · simp only [if_neg h2, if_neg h4] at ho
      exact absurd ho hne
  · have ht : t' ≠ t := fun h => hcall (h ▸ hc)
    simpa [hg', Ghost.setHand, Function.update_of_ne ht] using (hi.idle hc).1

/-- Bytes at the cursor are claimed into the empty hand, from `start` on. -/
lemma Inv.claim (hi : Inv m g) {c : Cell} {start stop : ℕ} {l : List Bool}
    (hcall : g.call t ≠ none) (hc : m.arenas a = some c) (hfree : m.taken a = none)
    (hstart : c.cursor ≤ start) (hstop : start ≤ stop) (hcap : stop ≤ c.capacity) :
    Inv (({ m with spurious := l }.modify a ({ · with cursor := stop })).note
        (.claimed t a ⟨c.id, c.cursor, stop⟩))
      (g.setHand t (some ⟨c.id, start, stop⟩)) := by
  set m' := ({ m with spurious := l }.modify a ({ · with cursor := stop })).note
    (.claimed t a ⟨c.id, c.cursor, stop⟩) with hm'
  set g' := g.setHand t (some ⟨c.id, start, stop⟩) with hg'
  have hkeep : ∀ {h r'}, holds m' g' h = some r' →
      (h = .hand t ∧ r' = ⟨c.id, start, stop⟩) ∨ (h ≠ .hand t ∧ holds m g h = some r') := by
    intro h r' hr
    cases h with
    | hand t' =>
      by_cases ht : t' = t
      · subst ht
        exact .inl ⟨rfl, by simpa [holds, hg', Ghost.setHand] using hr.symm⟩
      · refine .inr ⟨by simpa using ht, ?_⟩
        simpa [holds, hg', Ghost.setHand, Function.update_of_ne ht] using hr
    | slot t' j => exact .inr ⟨by simp, hr⟩
  -- Whatever was occupied lies below the claim.
  have hbelow : ∀ {r}, Occupied m g r → r.Apart ⟨c.id, start, stop⟩ := fun {r} ho hid =>
    .inl (((hi.below ho hc hid.symm).2).trans hstart)
  have hocc : ∀ {r}, Occupied m' g' r → Occupied m g r ∨
      (r.id = c.id ∧ c.cursor ≤ r.start ∧ r.stop = stop) := by
    intro r ho
    cases ho with
    | held h hr =>
      rcases hkeep hr with ⟨-, rfl⟩ | ⟨-, h0⟩
      · exact .inr ⟨rfl, hstart, rfl⟩
      · exact .inl (.held h h0)
    | granted hr => exact .inl (.granted hr)
    | claimed t' a' hr =>
      rcases List.mem_cons.mp hr with h | h
      · simp only [Entry.claimed.injEq] at h
        obtain ⟨-, -, rfl⟩ := h
        exact .inr ⟨rfl, le_rfl, rfl⟩
      · exact .inl (.claimed t' a' h)
  have harenas : ∀ {b d}, m'.arenas b = some d →
      (b = a ∧ d = { c with cursor := stop }) ∨ (b ≠ a ∧ m.arenas b = some d) := by
    intro b d hd
    by_cases hb : b = a
    · subst hb
      exact .inl ⟨rfl, by simpa [hm', Mem.note, Mem.modify, hc] using hd.symm⟩
    · exact .inr ⟨hb, by simpa [hm', Mem.note, Mem.modify, Function.update_of_ne hb] using hd⟩
  have hids : ∀ {b d}, m'.arenas b = some d → ∃ d₀, m.arenas b = some d₀ ∧ d.id = d₀.id := by
    intro b d hd
    rcases harenas hd with ⟨rfl, rfl⟩ | ⟨-, hd⟩
    · exact ⟨c, hc, rfl⟩
    · exact ⟨d, hd, rfl⟩
  have hnone : ∀ b, m'.arenas b = none ↔ m.arenas b = none := by
    intro b
    by_cases hb : b = a
    · subst hb
      simp [hm', Mem.note, Mem.modify]
    · simp [hm', Mem.note, Mem.modify, Function.update_of_ne hb]
  obtain ⟨hc1, hc2, hc3, hc4, hc5⟩ := hi.cell hc
  refine { hi with held := ⟨?_, ?_, ?_⟩, drawn := ?_, below := ?_, cell := ?_,
                   unique := ?_, fresh := ?_, claims := ?_, dead := ?_, trace := ?_, lent := ?_,
                   taken := ?_, count := ?_, idle := ?_ }
  · intro h h' r r' hne hr hr'
    rcases hkeep hr with ⟨rfl, rfl⟩ | ⟨h1, h0⟩ <;> rcases hkeep hr' with ⟨rfl, rfl⟩ | ⟨h1', h0'⟩
    · exact absurd rfl hne
    · exact (hbelow (.held _ h0')).symm
    · exact hbelow (.held _ h0)
    · exact hi.held.apart hne h0 h0'
  · intro h r s hr hs
    rcases hkeep hr with ⟨rfl, rfl⟩ | ⟨h1, h0⟩
    · exact (hbelow (.granted hs)).symm
    · exact hi.held.spare h0 hs
  · intro h r hr
    rcases hkeep hr with ⟨rfl, rfl⟩ | ⟨h1, h0⟩
    · exact hstop
    · exact hi.held.ordered h0
  · intro r hr
    rcases hocc hr with h | ⟨h1, -, -⟩
    · exact hi.drawn h
    · rw [h1]
      refine ⟨hc2, fun t' hf => ?_⟩
      have := (hi.fresh hf).2.2.2 a c hc rfl
      rw [hfree] at this
      simp at this
  · intro r b d hr hd hid
    rcases hocc hr with h | ⟨h1, h2, h3⟩
    · rcases harenas hd with ⟨rfl, rfl⟩ | ⟨-, hd⟩
      · obtain ⟨h4, h5⟩ := hi.below h hc hid
        exact ⟨h4, by simp only; omega⟩
      · exact hi.below h hd hid
    · rcases harenas hd with ⟨rfl, rfl⟩ | ⟨hb, hd⟩
      · exact ⟨hc3.trans h2, h3.le⟩
      · exact absurd (hi.unique hd hc (hid.trans h1)) hb
  · intro b d hd
    rcases harenas hd with ⟨rfl, rfl⟩ | ⟨-, hd⟩
    · exact ⟨hc1, hc2, by simp only; omega, hcap, hc5⟩
    · exact hi.cell hd
  · intro b b' d d' hd hd' hid
    obtain ⟨d₀, h0, h1⟩ := hids hd
    obtain ⟨d₀', h0', h1'⟩ := hids hd'
    exact hi.unique h0 h0' (by rw [← h1, ← h1', hid])
  · intro t' id hf
    obtain ⟨h1, h2, h3, h4⟩ := hi.fresh hf
    refine ⟨h1, h2, h3, fun b d hd hid => ?_⟩
    obtain ⟨d₀, h0, h5⟩ := hids hd
    exact h4 b d₀ h0 (h5.symm.trans hid)
  · intro t' a' r b d hr hd hid
    obtain ⟨d₀, h0, h1⟩ := hids hd
    rcases List.mem_cons.mp hr with h | h
    · simp only [Entry.claimed.injEq] at h
      obtain ⟨-, rfl, rfl⟩ := h
      exact hi.unique h0 hc (h1.symm.trans hid)
    · exact hi.claims h h0 (h1.symm.trans hid)
  · intro id b d hdead hd
    obtain ⟨d₀, h0, h1⟩ := hids hd
    rw [h1]
    exact @Inv.dead _ _ hi id _ _ hdead h0
  · refine ⟨trivial, hi.trace.mono fun b cap hb => ?_⟩
    unfold Mem.capacity at hb ⊢
    by_cases hba : b = a
    · subst hba
      simpa [hm', Mem.note, Mem.modify, hc] using hb
    · simpa [hm', Mem.note, Mem.modify, Function.update_of_ne hba] using hb
  · intro b t' hl
    obtain ⟨h1, h2⟩ := hi.lent hl
    exact ⟨fun h => h1 ((hnone b).mp h), h2⟩
  · exact fun {b t'} ht h => hi.taken ht ((hnone b).mp h)
  · exact fun b => (hnone b).trans (hi.count b)
  · intro t' hc'
    have ht : t' ≠ t := fun h => hcall (h ▸ hc')
    refine ⟨?_, (hi.idle hc').2⟩
    simpa [hg', Ghost.setHand, Function.update_of_ne ht] using (hi.idle hc').1

/-- An allocation answers what is in hand. -/
lemma Inv.answer (hi : Inv m g) {c : Cell} {l : Layout} {off : ℕ} {f : ℕ → ℕ → Bool}
    (hlent : ∀ {b t'}, f b t' = true → m.lent b t' = true) (hc : m.arenas a = some c)
    (hh : g.hand t = some ⟨c.id, off, off + l.bytes⟩) (halign : l.align ∣ off)
    (hcap : off + l.bytes ≤ c.capacity)
    (hfrom : .carved t ⟨c.id, off, off + l.bytes⟩ ∈ m.trace ∨
      ∃ cur ≤ off, .claimed t a ⟨c.id, cur, off + l.bytes⟩ ∈ m.trace) :
    Inv ({ m with lent := f }.note (.answered t a c.id l (some off))) (g.setHand t none) := by
  set m' := { m with lent := f }.note (.answered t a c.id l (some off)) with hm'
  have hkeep : ∀ {h r'}, holds m' (g.setHand t none) h = some r' →
      h ≠ .hand t ∧ holds m g h = some r' := by
    intro h r' hr
    cases h with
    | hand t' =>
      have hne : t' ≠ t := fun h => by subst h; simp [holds, Ghost.setHand] at hr
      refine ⟨by simpa using hne, ?_⟩
      simpa [holds, Ghost.setHand, Function.update_of_ne hne] using hr
    | slot t' j => exact ⟨by simp, hr⟩
  have hhand : holds m g (.hand t) = some ⟨c.id, off, off + l.bytes⟩ := hh
  have hgr : grants m'.trace = ⟨c.id, off, off + l.bytes⟩ :: grants m.trace := rfl
  have hocc : ∀ {r}, Occupied m' (g.setHand t none) r → Occupied m g r := by
    intro r ho
    cases ho with
    | held h hr => exact .held h (hkeep hr).2
    | granted hr =>
      rw [hgr] at hr
      rcases List.mem_cons.mp hr with rfl | hr
      · exact .held _ hhand
      · exact .granted hr
    | claimed t' a' hr => exact .claimed t' a' (by simpa [hm', Mem.note] using hr)
  refine { hi with held := ⟨?_, ?_, ?_⟩, drawn := ?_, below := ?_, claims := ?_,
                   trace := ?_, lent := ?_, idle := ?_ }
  · exact fun hne hr hr' => hi.held.apart hne (hkeep hr).2 (hkeep hr').2
  · intro h r s hr hs
    rw [hgr] at hs
    rcases List.mem_cons.mp hs with rfl | hs
    · exact hi.held.apart (hkeep hr).1 (hkeep hr).2 hhand
    · exact hi.held.spare (hkeep hr).2 hs
  · exact fun hr => hi.held.ordered (hkeep hr).2
  · exact fun hr => hi.drawn (hocc hr)
  · exact fun hr => hi.below (hocc hr)
  · exact fun hr => hi.claims (by simpa [hm', Mem.note] using hr)
  · refine ⟨⟨halign, (hi.below (.held _ hhand) hc rfl).1, ⟨c.capacity, ?_, hcap⟩, ?_, hfrom⟩,
      hi.trace⟩
    · show (m.arenas a).map _ = _
      rw [hc]
      rfl
    · exact fun s hs => hi.held.spare hhand hs
  · exact fun hl => hi.lent (hlent hl)
  · intro t' hc'
    refine ⟨?_, (hi.idle hc').2⟩
    by_cases ht : t' = t
    · simp [Ghost.setHand, ht]
    · simpa [Ghost.setHand, Function.update_of_ne ht] using (hi.idle hc').1

/-- The regions of memory depend on the tables and the trace alone. -/
lemma holds_congr (h1 : m'.tlab = m.tlab) (h2 : g'.hand = g.hand) (h : Holder) :
    holds m' g' h = holds m g h := by
  cases h with
  | slot t i => simp only [holds, h1]
  | hand t => simp only [holds, h2]

lemma Held.congr (hi : Held m g) (h1 : m'.tlab = m.tlab) (h2 : g'.hand = g.hand)
    (h3 : grants m'.trace = grants m.trace) : Held m' g' := by
  refine ⟨fun hne hr hr' => ?_, fun hr hs => ?_, fun hr => ?_⟩
  · rw [holds_congr h1 h2] at hr hr'
    exact hi.apart hne hr hr'
  · rw [holds_congr h1 h2] at hr
    exact hi.spare hr (h3 ▸ hs)
  · rw [holds_congr h1 h2] at hr
    exact hi.ordered hr

lemma Occupied.congr {r : Region} (h : Occupied m' g' r) (h1 : m'.tlab = m.tlab)
    (h2 : g'.hand = g.hand) (h3 : grants m'.trace = grants m.trace)
    (h4 : ∀ {t a r}, Entry.claimed t a r ∈ m'.trace → Entry.claimed t a r ∈ m.trace) :
    Occupied m g r := by
  cases h with
  | held h hr => exact .held h ((holds_congr h1 h2 h).symm.trans hr)
  | granted hr => exact .granted (h3 ▸ hr)
  | claimed t a hr => exact .claimed t a (h4 hr)

/-- An allocation that has claimed nothing answers that there is no room. -/
lemma Inv.answer_none (hi : Inv m g) {id : ℕ} {l : Layout} {f : ℕ → ℕ → Bool}
    (hlent : ∀ {b t'}, f b t' = true → m.lent b t' = true) (ha : advanced t m.trace = false) :
    Inv ({ m with lent := f }.note (.answered t a id l none)) g := by
  have hcl : ∀ {t' a' r}, Entry.claimed t' a' r ∈ ({ m with lent := f }.note
      (.answered t a id l none)).trace → Entry.claimed t' a' r ∈ m.trace := by
    intro t' a' r h
    simpa [Mem.note] using h
  exact { hi with
    held := hi.held.congr rfl rfl rfl
    drawn := fun hr => hi.drawn (hr.congr rfl rfl rfl hcl)
    below := fun hr => hi.below (hr.congr rfl rfl rfl hcl)
    claims := fun hr => hi.claims (hcl hr)
    trace := ⟨ha, hi.trace⟩
    lent := fun hl => hi.lent (hlent hl) }

/-- A new identity is drawn. -/
lemma Inv.draw (hi : Inv m g) (hcall : g.call t ≠ none) :
    Inv { m with nextId := m.nextId + 1 } (g.setFresh t (some m.nextId)) := by
  have hocc : ∀ {r}, Occupied { m with nextId := m.nextId + 1 } (g.setFresh t (some m.nextId)) r →
      Occupied m g r := fun ho => ho.congr rfl rfl rfl fun h => h
  have hfresh : ∀ {t' id}, (g.setFresh t (some m.nextId)).fresh t' = some id →
      (t' = t ∧ id = m.nextId) ∨ (t' ≠ t ∧ g.fresh t' = some id) := by
    intro t' id hf
    by_cases ht : t' = t
    · subst ht
      exact .inl ⟨rfl, by simpa [Ghost.setFresh] using hf.symm⟩
    · exact .inr ⟨ht, by simpa [Ghost.setFresh, Function.update_of_ne ht] using hf⟩
  refine { hi with held := hi.held.congr rfl rfl rfl, drawn := ?_,
                   below := fun hr => hi.below (hocc hr), cell := ?_, fresh := ?_,
                   next := Nat.succ_pos _, idle := ?_ }
  · intro r hr
    obtain ⟨h1, h2⟩ := hi.drawn (hocc hr)
    refine ⟨h1.trans (Nat.lt_succ_self _), fun t' hf => ?_⟩
    rcases hfresh hf with ⟨-, h⟩ | ⟨-, h⟩
    · omega
    · exact h2 t' h
  · intro a c hc
    obtain ⟨h1, h2, h3⟩ := hi.cell hc
    exact ⟨h1, h2.trans (Nat.lt_succ_self _), h3⟩
  · intro t' id hf
    rcases hfresh hf with ⟨rfl, rfl⟩ | ⟨ht, hf⟩
    · refine ⟨hi.next, Nat.lt_succ_self _, fun t'' hf' => ?_, ?_⟩
      · rcases hfresh hf' with ⟨h, -⟩ | ⟨-, h⟩
        · exact h
        · have := (hi.fresh h).2.1
          omega
      · intro a c hc hid
        have := (hi.cell hc).2.1
        omega
    · obtain ⟨h1, h2, h3, h4⟩ := hi.fresh hf
      refine ⟨h1, h2.trans (Nat.lt_succ_self _), fun t'' hf' => ?_, h4⟩
      rcases hfresh hf' with ⟨-, h⟩ | ⟨-, h⟩
      · omega
      · exact h3 t'' h
  · intro t' hc
    have ht : t' ≠ t := fun h => hcall (h ▸ hc)
    refine ⟨(hi.idle hc).1, ?_⟩
    simpa [Ghost.setFresh, Function.update_of_ne ht] using (hi.idle hc).2

lemma fresh_setFresh_none {t' id : ℕ} (h : (g.setFresh t none).fresh t' = some id) :
    t' ≠ t ∧ g.fresh t' = some id := by
  have ht : t' ≠ t := fun ht => by subst ht; simp [Ghost.setFresh] at h
  exact ⟨ht, by simpa [Ghost.setFresh, Function.update_of_ne ht] using h⟩

lemma idle_setFresh_none (hi : Inv m g) {t' : ℕ} (hc : g.call t' = none) :
    (g.setFresh t none).fresh t' = none := by
  by_cases ht : t' = t
  · simp [Ghost.setFresh, ht]
  · simpa [Ghost.setFresh, Function.update_of_ne ht] using (hi.idle hc).2

/-- A drawn identity is occupied by nothing. -/
lemma Inv.ne_fresh (hi : Inv m g) {id : ℕ} {r : Region} (hf : g.fresh t = some id)
    (hr : Occupied m g r) : r.id ≠ id := by
  rintro rfl
  exact (hi.drawn hr).2 t hf

/-- A new arena with the drawn identity is there. -/
lemma Inv.create (hi : Inv m g) {id capacity : ℕ} (hf : g.fresh t = some id)
    (hunused : ∀ a c, m.arenas a = some c → c.id ≠ id) (hlow : arenaAlign ≤ capacity)
    (hhigh : capacity ≤ maxArenaSize) :
    Inv { m with
      arenas := Function.update m.arenas m.count (some ⟨id, arenaAlign, capacity⟩)
      count := m.count + 1 } (g.setFresh t none) := by
  have hnew : m.arenas m.count = none := (hi.count _).mpr le_rfl
  have harenas : ∀ {b d},
      Function.update m.arenas m.count (some ⟨id, arenaAlign, capacity⟩) b = some d →
      (b = m.count ∧ d = ⟨id, arenaAlign, capacity⟩) ∨ (b ≠ m.count ∧ m.arenas b = some d) := by
    intro b d hd
    by_cases hb : b = m.count
    · subst hb
      exact .inl ⟨rfl, by simpa using hd.symm⟩
    · exact .inr ⟨hb, by simpa [Function.update_of_ne hb] using hd⟩
  have hsome : ∀ {b}, m.arenas b ≠ none →
      Function.update m.arenas m.count (some ⟨id, arenaAlign, capacity⟩) b ≠ none := by
    intro b h
    by_cases hb : b = m.count
    · simp [hb]
    · rwa [Function.update_of_ne hb]
  obtain ⟨h1, h2, h3, h4⟩ := hi.fresh hf
  refine { hi with held := hi.held.congr rfl rfl rfl, drawn := ?_, below := ?_, cell := ?_,
                   unique := ?_, fresh := ?_, claims := ?_, dead := ?_, trace := ?_, lent := ?_,
                   taken := ?_, count := ?_, idle := ?_ }
  · intro r hr
    obtain ⟨h5, h6⟩ := hi.drawn (hr.congr (m := m) (g := g) rfl rfl rfl fun h => h)
    exact ⟨h5, fun t' hf' => h6 t' (fresh_setFresh_none hf').2⟩
  · intro r b d hr hd hid
    have hr' := hr.congr (m := m) (g := g) rfl rfl rfl fun h => h
    rcases harenas hd with ⟨-, rfl⟩ | ⟨-, hd⟩
    · exact absurd hid.symm (hi.ne_fresh hf hr')
    · exact hi.below hr' hd hid
  · intro b d hd
    rcases harenas hd with ⟨-, rfl⟩ | ⟨-, hd⟩
    · exact ⟨h1, h2, le_rfl, hlow, hhigh⟩
    · exact hi.cell hd
  · intro b b' d d' hd hd' hid
    rcases harenas hd with ⟨rfl, rfl⟩ | ⟨-, hd⟩ <;> rcases harenas hd' with ⟨rfl, rfl⟩ | ⟨-, hd'⟩
    · rfl
    · exact absurd hid.symm (hunused b' d' hd')
    · exact absurd hid (hunused b d hd)
    · exact hi.unique hd hd' hid
  · intro t' id' hf'
    obtain ⟨ht, hf'⟩ := fresh_setFresh_none hf'
    obtain ⟨h5, h6, h7, h8⟩ := hi.fresh hf'
    refine ⟨h5, h6, fun t'' hf'' => h7 t'' (fresh_setFresh_none hf'').2, fun b d hd hid => ?_⟩
    rcases harenas hd with ⟨-, rfl⟩ | ⟨-, hd⟩
    · simp only at hid
      exact absurd (h3 t' (hid ▸ hf')) ht
    · exact h8 b d hd hid
  · intro t' a' r b d hr hd hid
    rcases harenas hd with ⟨-, rfl⟩ | ⟨-, hd⟩
    · exact absurd hid.symm (hi.ne_fresh hf (.claimed t' a' hr))
    · exact hi.claims hr hd hid
  · intro id' b d hdead hd
    rcases harenas hd with ⟨-, rfl⟩ | ⟨-, hd⟩
    · obtain ⟨t', a', r, hr, rfl⟩ := hdead.claimed
      exact (hi.ne_fresh hf (.claimed t' a' hr)).symm
    · exact hi.dead hdead hd
  · refine hi.trace.mono fun b cap hb => ?_
    have hne : b ≠ m.count := fun h => by simp [Mem.capacity, h, hnew] at hb
    simpa [Mem.capacity, Function.update_of_ne hne] using hb
  · exact fun hl => ⟨hsome (hi.lent hl).1, (hi.lent hl).2⟩
  · exact fun ht => hsome (hi.taken ht)
  · intro b
    by_cases hb : b = m.count
    · simp [hb]
    · have := hi.count b
      simp only [Function.update_of_ne hb, this]
      omega
  · exact fun hc => ⟨(hi.idle hc).1, idle_setFresh_none hi hc⟩

/-- The fields of the arenas after a change of one. -/
lemma arenas_modify {f : Cell → Cell} {b : ℕ} {c d : Cell} (hc : m.arenas a = some c)
    (hd : (m.modify a f).arenas b = some d) :
    (b = a ∧ d = f c) ∨ (b ≠ a ∧ m.arenas b = some d) := by
  by_cases hb : b = a
  · subst hb
    exact .inl ⟨rfl, by simpa [Mem.modify, hc] using hd.symm⟩
  · exact .inr ⟨hb, by simpa [Mem.modify, Function.update_of_ne hb] using hd⟩

lemma arenas_modify_none {f : Cell → Cell} {b : ℕ} :
    (m.modify a f).arenas b = none ↔ m.arenas b = none := by
  by_cases hb : b = a
  · subst hb
    simp [Mem.modify]
  · simp [Mem.modify, Function.update_of_ne hb]

lemma capacity_modify {f : Cell → Cell} (hf : ∀ c, (f c).capacity = c.capacity) {b cap : ℕ}
    (h : m.capacity b = some cap) : (m.modify a f).capacity b = some cap := by
  unfold Mem.capacity at h ⊢
  by_cases hb : b = a
  · subst hb
    cases hc : m.arenas b with
    | none => simp [hc] at h
    | some c => simpa [Mem.modify, hc, hf] using h
  · simpa [Mem.modify, Function.update_of_ne hb] using h

/-- An arena that a thread has alone gets the identity the thread has drawn. -/
lemma Inv.setId (hi : Inv m g) {id : ℕ} {c : Cell} (hf : g.fresh t = some id)
    (hunused : ∀ a c, m.arenas a = some c → c.id ≠ id) (hc : m.arenas a = some c)
    (ht : m.taken a = some t) :
    Inv ((m.modify a ({ · with id := id })).note (.reset a)) g := by
  obtain ⟨h1, h2, h3, h4⟩ := hi.fresh hf
  have hcl : ∀ {t' a' r}, Entry.claimed t' a' r ∈ ((m.modify a ({ · with id := id })).note
      (.reset a)).trace → Entry.claimed t' a' r ∈ m.trace := by
    intro t' a' r h
    simpa [Mem.note, Mem.modify] using h
  have hocc : ∀ {r}, Occupied ((m.modify a ({ · with id := id })).note (.reset a)) g r →
      Occupied m g r := fun hr => hr.congr rfl rfl rfl hcl
  refine { hi with held := hi.held.congr rfl rfl rfl, drawn := fun hr => hi.drawn (hocc hr),
                   below := ?_, cell := ?_, unique := ?_, fresh := ?_, claims := ?_, dead := ?_,
                   trace := ⟨trivial, hi.trace.mono fun b cap hb => ?_⟩, lent := ?_, taken := ?_,
                   count := ?_ }
  · intro r b d hr hd hid
    rcases arenas_modify hc hd with ⟨-, rfl⟩ | ⟨-, hd⟩
    · exact absurd hid.symm (hi.ne_fresh hf (hocc hr))
    · exact hi.below (hocc hr) hd hid
  · intro b d hd
    rcases arenas_modify hc hd with ⟨rfl, rfl⟩ | ⟨-, hd⟩
    · exact ⟨h1, h2, (hi.cell hc).2.2⟩
    · exact hi.cell hd
  · intro b b' d d' hd hd' hid
    rcases arenas_modify hc hd with ⟨rfl, rfl⟩ | ⟨-, h5⟩ <;>
      rcases arenas_modify hc hd' with ⟨rfl, rfl⟩ | ⟨-, h6⟩
    · rfl
    · exact absurd hid.symm (hunused b' d' h6)
    · exact absurd hid (hunused b d h5)
    · exact hi.unique h5 h6 hid
  · intro t' id' hf'
    obtain ⟨h5, h6, h7, h8⟩ := hi.fresh hf'
    refine ⟨h5, h6, h7, fun b d hd hid => ?_⟩
    rcases arenas_modify hc hd with ⟨rfl, rfl⟩ | ⟨-, hd⟩
    · simp only at hid
      rw [h3 t' (hid ▸ hf')]
      exact ht
    · exact h8 b d hd hid
  · intro t' a' r b d hr hd hid
    rcases arenas_modify hc hd with ⟨-, rfl⟩ | ⟨-, hd⟩
    · exact absurd hid.symm (hi.ne_fresh hf (.claimed t' a' (hcl hr)))
    · exact hi.claims (hcl hr) hd hid
  · intro id' b d hdead hd
    rcases arenas_modify hc hd with ⟨-, rfl⟩ | ⟨hb, hd⟩
    · obtain ⟨t', a', r, hr, rfl⟩ := Dead.claimed hdead
      exact (hi.ne_fresh hf (.claimed t' a' (hcl hr))).symm
    · rcases hdead with ⟨t', r, hr, rfl⟩ | hdead
      · -- What was claimed from this arena has no other arena's identity.
        exact fun hid => hb (hi.claims hr hd hid)
      · exact hi.dead hdead hd
  · exact capacity_modify (f := fun x => { x with id := id }) (fun _ => rfl) hb
  · exact fun hl => ⟨fun h => (hi.lent hl).1 (arenas_modify_none.mp h), (hi.lent hl).2⟩
  · exact fun ht h => hi.taken ht (arenas_modify_none.mp h)
  · exact fun b => arenas_modify_none.trans (hi.count b)

/-- The cursor of an arena of which nothing is occupied goes back to the start. -/
lemma Inv.setCursor (hi : Inv m g) {id : ℕ} {c : Cell} (hf : g.fresh t = some id)
    (hc : m.arenas a = some c) (hid : c.id = id) :
    Inv (m.modify a ({ · with cursor := arenaAlign })) (g.setFresh t none) := by
  have hocc : ∀ {r}, Occupied (m.modify a ({ · with cursor := arenaAlign })) (g.setFresh t none) r →
      Occupied m g r := fun hr => hr.congr rfl rfl rfl fun h => h
  have hids : ∀ {b d}, (m.modify a ({ · with cursor := arenaAlign })).arenas b = some d →
      ∃ d₀, m.arenas b = some d₀ ∧ d.id = d₀.id := by
    intro b d hd
    rcases arenas_modify hc hd with ⟨rfl, rfl⟩ | ⟨-, hd⟩
    · exact ⟨c, hc, rfl⟩
    · exact ⟨d, hd, rfl⟩
  obtain ⟨h1, h2, h3, h4, h5⟩ := hi.cell hc
  refine { hi with held := hi.held.congr rfl rfl rfl, drawn := ?_, below := ?_, cell := ?_,
                   unique := ?_, fresh := ?_, claims := ?_, dead := ?_,
                   trace := hi.trace.mono fun b cap hb => ?_, lent := ?_, taken := ?_,
                   count := ?_, idle := ?_ }
  · intro r hr
    obtain ⟨h6, h7⟩ := hi.drawn (hocc hr)
    exact ⟨h6, fun t' hf' => h7 t' (fresh_setFresh_none hf').2⟩
  · intro r b d hr hd hid'
    rcases arenas_modify hc hd with ⟨-, rfl⟩ | ⟨-, hd⟩
    · exact absurd (hid'.symm.trans hid) (hi.ne_fresh hf (hocc hr))
    · exact hi.below (hocc hr) hd hid'
  · intro b d hd
    rcases arenas_modify hc hd with ⟨rfl, rfl⟩ | ⟨-, hd⟩
    · exact ⟨h1, h2, le_rfl, h3.trans h4, h5⟩
    · exact hi.cell hd
  · intro b b' d d' hd hd' hid
    obtain ⟨d₀, h0, h1⟩ := hids hd
    obtain ⟨d₀', h0', h1'⟩ := hids hd'
    exact hi.unique h0 h0' (by rw [← h1, ← h1', hid])
  · intro t' id' hf'
    obtain ⟨ht, hf'⟩ := fresh_setFresh_none hf'
    obtain ⟨h5, h6, h7, h8⟩ := hi.fresh hf'
    refine ⟨h5, h6, fun t'' hf'' => h7 t'' (fresh_setFresh_none hf'').2, fun b d hd hid => ?_⟩
    obtain ⟨d₀, h0, h9⟩ := hids hd
    exact h8 b d₀ h0 (h9.symm.trans hid)
  · intro t' a' r b d hr hd hid
    obtain ⟨d₀, h0, h9⟩ := hids hd
    exact hi.claims hr h0 (h9.symm.trans hid)
  · intro id' b d hdead hd
    obtain ⟨d₀, h0, h9⟩ := hids hd
    rw [h9]
    exact hi.dead hdead h0
  · exact capacity_modify (f := fun x => { x with cursor := arenaAlign }) (fun _ => rfl) hb
  · exact fun hl => ⟨fun h => (hi.lent hl).1 (arenas_modify_none.mp h), (hi.lent hl).2⟩
  · exact fun ht h => hi.taken ht (arenas_modify_none.mp h)
  · exact fun b => arenas_modify_none.trans (hi.count b)
  · exact fun hc => ⟨(hi.idle hc).1, idle_setFresh_none hi hc⟩

/-- The exclusive borrow of a reset ends. -/
lemma Inv.giveBack (hi : Inv m g) (ht : m.taken a = some t) (hf : g.fresh t = none) :
    Inv { m with taken := Function.update m.taken a none } g := by
  have htaken : ∀ {b t'}, Function.update m.taken a none b = some t' → m.taken b = some t' := by
    intro b t' h
    have hb : b ≠ a := fun hb => by simp [hb] at h
    simpa [Function.update_of_ne hb] using h
  refine { hi with held := hi.held.congr rfl rfl rfl,
                   drawn := fun hr => hi.drawn (hr.congr rfl rfl rfl fun h => h),
                   below := fun hr => hi.below (hr.congr rfl rfl rfl fun h => h),
                   fresh := ?_, lent := ?_, taken := fun h => hi.taken (htaken h) }
  · intro t' id hf'
    obtain ⟨h1, h2, h3, h4⟩ := hi.fresh hf'
    refine ⟨h1, h2, h3, fun b c hc hid => ?_⟩
    have hb : b ≠ a := by
      rintro rfl
      have := (h4 b c hc hid).symm.trans ht
      simp only [Option.some.injEq] at this
      rw [this, hf] at hf'
      simp at hf'
    simpa [Function.update_of_ne hb] using h4 b c hc hid
  · intro b t' hl
    refine ⟨(hi.lent hl).1, ?_⟩
    by_cases hb : b = a
    · simp [hb]
    · simpa [Function.update_of_ne hb] using (hi.lent hl).2

end Arena

end Artmap
