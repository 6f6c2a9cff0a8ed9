import Artmap.Framework.Interleave
import Mathlib.Algebra.Group.Nat.Defs
import Mathlib.Data.List.MinMax
import Mathlib.Data.Fintype.Basic

/-!
# The arena allocator (`src/arena/mod.rs`)

An arena is a bump cursor over `capacity` bytes.  Every thread has a table of four slots, each
a chunk of some arena claimed in advance; an allocation is carved from the thread's chunk of the
arena if there is one with room, and else is a compare-exchange on the cursor, of the exact size
or, after a lost race, of a new chunk.

Chunks are keyed on the identity of the arena, which is fresh on creation and on every reset.
The atomic steps are the accesses to the shared words; a thread's own slot table is read and
written in one step, because no other thread sees it.  A weak compare-exchange may fail
spuriously: memory holds the answers to the questions whether the next ones do.

Offsets are `u64` in the source; they are natural numbers here, with `checkedAdd` where the
source checks for overflow and a remainder where it truncates.  Memory also keeps a trace of
what was claimed, carved, answered and reset, newest entry first, that no program reads.
-/

namespace Artmap

namespace Arena

/-- `ARENA_ALIGN`. -/
def arenaAlign : ℕ := 64

/-- `u64::checked_add`. -/
def checkedAdd (a b : ℕ) : Option ℕ :=
  if a + b < 2 ^ 64 then some (a + b) else none

/-- `x & !(align - 1)` on 64 bits. -/
def alignDown (x align : ℕ) : ℕ :=
  x &&& (2 ^ 64 - 1 - (align - 1))

/-- `MAX_ARENA_SIZE`. -/
def maxArenaSize : ℕ :=
  alignDown (2 ^ 32 - 1) arenaAlign

/-- `Layout`: a size and a power of two, here at most `ARENA_ALIGN`. -/
structure Layout where
  size : ℕ
  align : ℕ
  size_lt : size < 2 ^ 64
  align_pow : ∃ k ≤ 6, align = 2 ^ k

/-- The bytes an allocation of a layout takes: none takes less than one. -/
def Layout.bytes (l : Layout) : ℕ :=
  max l.size 1

/-! ## Thread-local chunks -/

/-- `tlab::Slot`: the bytes from `cur` to `stop` of the arena with identity `arena`. -/
structure Slot where
  arena : ℕ
  cur : ℕ
  stop : ℕ
  deriving DecidableEq

/-- `tlab::EMPTY`. -/
def Slot.empty : Slot := ⟨0, 0, 0⟩

/-- The slot table of a thread. -/
abbrev Slots := Fin 4 → Slot

/-- The first slot that satisfies `p`. -/
def Slots.position (s : Slots) (p : Slot → Bool) : Option (Fin 4) :=
  (List.finRange 4).find? fun i => p (s i)

/-- `tlab::take`: carve `size` bytes from the chunk of `arena`.  The offset is the one before
its conversion. -/
def take (s : Slots) (arena align size : ℕ) : Option (ℕ × Slots) := do
  let i ← s.position (·.arena = arena)
  let start := alignDown (← checkedAdd (s i).cur (align - 1)) align
  let stop ← checkedAdd start size
  if (s i).stop < stop then none
  else some (start, Function.update s i { s i with cur := stop })

/-- The slot that `tlab::install` replaces: the one of the arena, an empty one, or the one with
the least room left. -/
def victim (s : Slots) (arena : ℕ) : Fin 4 :=
  (s.position (·.arena = arena)).getD
    ((s.position (·.arena = 0)).getD
      (((List.finRange 4).argmin fun i => (s i).stop - (s i).cur).getD 0))

/-- `tlab::install`. -/
def install (s : Slots) (arena start stop : ℕ) : Slots :=
  Function.update s (victim s arena) ⟨arena, start, stop⟩

/-! ## Memory -/

/-- The fields of an arena. -/
structure Cell where
  id : ℕ
  cursor : ℕ
  capacity : ℕ

/-- The bytes from `start` to `stop` of an arena identity. -/
structure Region where
  id : ℕ
  start : ℕ
  stop : ℕ

/-- What happened. -/
inductive Entry where
  /-- Thread `t` begins an allocation from arena `a`. -/
  | begun (t a : ℕ)
  /-- Thread `t` advances the cursor of arena `a` over `r`. -/
  | claimed (t a : ℕ) (r : Region)
  /-- Thread `t` carves `r` from a chunk. -/
  | carved (t : ℕ) (r : Region)
  /-- Thread `t` answers an allocation from arena `a`, whose identity is `id`. -/
  | answered (t a id : ℕ) (l : Layout) (r : Option ℕ)
  /-- Arena `a` is reset. -/
  | reset (a : ℕ)

/-- The arenas and the threads' tables. -/
structure Mem where
  /-- The arenas that were created. -/
  arenas : ℕ → Option Cell
  /-- How many were created. -/
  count : ℕ
  /-- The counter of `next_arena_id`. -/
  nextId : ℕ
  /-- `SLOTS_TLS` of every thread. -/
  tlab : ℕ → Slots
  /-- The shared borrow `&self` of an arena that a thread's call has. -/
  lent : ℕ → ℕ → Bool
  /-- The thread whose call has the exclusive borrow `&mut self` of an arena. -/
  taken : ℕ → Option ℕ
  /-- Which of the next weak compare-exchanges fail spuriously. -/
  spurious : List Bool
  /-- What happened, newest first. -/
  trace : List Entry

/-- No arena, and every slot empty. -/
def Mem.initial (spurious : List Bool) : Mem where
  arenas := fun _ => none
  count := 0
  nextId := 1
  tlab := fun _ _ => .empty
  lent := fun _ _ => false
  taken := fun _ => none
  spurious := spurious
  trace := []

/-- Change the fields of an arena. -/
def Mem.modify (m : Mem) (a : ℕ) (f : Cell → Cell) : Mem :=
  { m with arenas := Function.update m.arenas a ((m.arenas a).map f) }

/-- Add an entry to the trace. -/
def Mem.note (m : Mem) (e : Entry) : Mem :=
  { m with trace := e :: m.trace }

/-- The atomic actions of the allocator. -/
inductive Act : Type → Type where
  /-- `next_arena_id`. -/
  | nextArenaId : Act ℕ
  /-- The new arena is there: answers its handle. -/
  | create (id capacity : ℕ) : Act ℕ
  /-- `self.id`. -/
  | arenaId (a : ℕ) : Act ℕ
  /-- `self.capacity`. -/
  | capacity (a : ℕ) : Act ℕ
  /-- `self.cursor.load`. -/
  | loadCursor (a : ℕ) : Act ℕ
  /-- `self.cursor.compare_exchange_weak`: answers the actual value on failure. -/
  | compareExchange (a cur new : ℕ) : Act (Option ℕ)
  /-- `tlab::take`. -/
  | take (id align size : ℕ) : Act (Option ℕ)
  /-- `tlab::install`. -/
  | install (id start stop : ℕ) : Act Unit
  /-- The store of `self.id` in `reset`. -/
  | setId (a id : ℕ) : Act Unit
  /-- The store of `self.cursor` in `reset`. -/
  | setCursor (a cur : ℕ) : Act Unit
  /-- An allocation answers, and its borrow ends. -/
  | answer (a : ℕ) (l : Layout) (r : Option ℕ) : Act Unit
  /-- The exclusive borrow of a reset ends. -/
  | giveBack (a : ℕ) : Act Unit

/-- The effect of an action of thread `t`. -/
def exec (t : ℕ) : {β : Type} → Act β → Mem → β × Mem
  | _, .nextArenaId, m => (m.nextId, { m with nextId := m.nextId + 1 })
  | _, .create id capacity, m =>
    (m.count, { m with
      arenas := Function.update m.arenas m.count (some ⟨id, arenaAlign, capacity⟩)
      count := m.count + 1 })
  | _, .arenaId a, m => ((m.arenas a).elim 0 (·.id), m)
  | _, .capacity a, m => ((m.arenas a).elim 0 (·.capacity), m)
  | _, .loadCursor a, m => ((m.arenas a).elim 0 (·.cursor), m)
  | _, .compareExchange a cur new, m =>
    match m.arenas a with
    | none => (some 0, m)
    | some c =>
      if c.cursor = cur ∧ m.spurious.headD false = false then
        (none, ({ m with spurious := m.spurious.tail }.modify a ({ · with cursor := new })).note
          (.claimed t a ⟨c.id, cur, new⟩))
      else (some c.cursor, { m with spurious := m.spurious.tail })
  | _, .take id align size, m =>
    match take (m.tlab t) id align size with
    | none => (none, m)
    | some (start, s) =>
      -- `u32::try_from`, after the slot was advanced
      (if start < 2 ^ 32 then some start else none,
        { m with tlab := Function.update m.tlab t s }.note
          (.carved t ⟨id, start, start + size⟩))
  | _, .install id start stop, m =>
    ((), { m with tlab := Function.update m.tlab t (install (m.tlab t) id start stop) })
  | _, .setId a id, m => ((), (m.modify a ({ · with id := id })).note (.reset a))
  | _, .setCursor a cur, m => ((), m.modify a ({ · with cursor := cur }))
  | _, .answer a l r, m =>
    ((), { m with lent := Function.update m.lent a (Function.update (m.lent a) t false) }.note
      (.answered t a ((m.arenas a).elim 0 (·.id)) l r))
  | _, .giveBack a, m => ((), { m with taken := Function.update m.taken a none })

/-! ## Operations -/

/-- A program of the allocator. -/
abbrev AllocM := Prog Act

/-- `Arena::new`. -/
def new (capacity : ℕ) : AllocM ℕ := do
  let capacity := alignDown (max arenaAlign (min capacity maxArenaSize)) arenaAlign
  let id ← .perform .nextArenaId
  .perform (.create id capacity)

/-- `Arena::reset`. -/
def reset (a : ℕ) : AllocM Unit := do
  let id ← .perform .nextArenaId
  .perform (.setId a id)
  .perform (.setCursor a arenaAlign)
  .perform (.giveBack a)

/-- `MAX_CHUNK`. -/
def maxChunk : ℕ := 16 * 1024

/-- The chunk from `start` to `stop` that `Arena::refill` tries to claim at `cur`, if any. -/
def chunkAt (capacity align size cur : ℕ) : Option (ℕ × ℕ) := do
  let chunk := min maxChunk ((capacity - cur) / 32)
  let start := alignDown (← checkedAdd cur (arenaAlign - 1)) arenaAlign
  let stop ← checkedAdd start chunk
  if chunk < (size + align) % 2 ^ 64 ∨ capacity < stop then none else some (start, stop)

/-- `Arena::refill`: one round of its loop. -/
def refillRound (a align size cur : ℕ) : AllocM (ℕ ⊕ Option ℕ) := do
  let capacity ← .perform (.capacity a)
  match chunkAt capacity align size cur with
  | none => return .inr none
  | some (start, stop) =>
    match ← .perform (.compareExchange a cur stop) with
    | none =>
      let id ← .perform (.arenaId a)
      .perform (.install id start stop)
      let id ← .perform (.arenaId a)
      return .inr (← .perform (.take id align size))
    | some actual => return .inl actual

/-- `Arena::refill`. -/
def refill (a align size cur : ℕ) : AllocM (Option ℕ) :=
  Prog.iter (refillRound a align size) cur

/-- The bytes from `start` to `stop` that `Arena::alloc` tries to claim at `cur`, if any. -/
def fitAt (capacity align size cur : ℕ) : Option (ℕ × ℕ) := do
  let start := alignDown (← checkedAdd cur (align - 1)) align
  let stop ← checkedAdd start size
  if capacity < stop then none else some (start, stop)

/-- The compare-exchange of a round of `Arena::alloc`. -/
def bump (a start stop cur : ℕ) (contended : Bool) : AllocM ((ℕ × Bool) ⊕ Option ℕ) := do
  match ← .perform (.compareExchange a cur stop) with
  | none => return .inr (some (start % 2 ^ 32))
  | some actual => return .inl (actual, contended || decide (actual ≠ cur))

/-- One round of the loop of `Arena::alloc`. -/
def allocRound (a align size : ℕ) (s : ℕ × Bool) : AllocM ((ℕ × Bool) ⊕ Option ℕ) := do
  let (cur, contended) := s
  let capacity ← .perform (.capacity a)
  match fitAt capacity align size cur with
  | none => return .inr none
  | some (start, stop) =>
    if contended then
      match ← refill a align size cur with
      | some off => return .inr (some off)
      | none => bump a start stop cur contended
    else bump a start stop cur contended

/-- `Arena::alloc`. -/
def alloc (a : ℕ) (l : Layout) : AllocM (Option ℕ) := do
  let id ← .perform (.arenaId a)
  match ← .perform (.take id l.align l.bytes) with
  | some off => return some off
  | none =>
    let cur ← .perform (.loadCursor a)
    Prog.iter (allocRound a l.align l.bytes) (cur, false)

/-- What a thread may call. -/
inductive Op where
  | new (capacity : ℕ)
  | alloc (a : ℕ) (l : Layout)
  | reset (a : ℕ)

/-- What a call answers. -/
inductive Ret where
  | arena (a : ℕ)
  | offset (r : Option ℕ)
  | unit

/-- The program of a call. -/
def code : Op → AllocM Ret
  | .new capacity => do return .arena (← new capacity)
  | .alloc a l => do
    let r ← alloc a l
    .perform (.answer a l r)
    return .offset r
  | .reset a => do
    reset a
    return .unit

/-- A call borrows its arena: an allocation shares it, a reset has it alone. -/
def start (t : ℕ) : Op → Mem → Mem → Prop
  | .new _, m, m' => m' = m
  | .alloc a _, m, m' => m.arenas a ≠ none ∧ m.taken a = none ∧
      m' = { m with lent := Function.update m.lent a (Function.update (m.lent a) t true) }.note
        (.begun t a)
  | .reset a, m, m' => m.arenas a ≠ none ∧ m.taken a = none ∧ (∀ t', m.lent a t' = false) ∧
      m' = { m with taken := Function.update m.taken a (some t) }

/-- Arenas, and threads that allocate from them. -/
def object : Object Act where
  Mem := Mem
  exec := exec
  Op := Op
  Ret := Ret
  code := code
  start := start

end Arena

end Artmap
