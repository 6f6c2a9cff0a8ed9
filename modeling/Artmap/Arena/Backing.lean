import Artmap.Arena.Sound

/-!
# The memory behind an arena

`Arena::new` asks the global allocator for the capacity and 64 bytes more, so that it can align
the base by hand.  The sizes are `usize` values, and a release build wraps them: this module
follows them on targets with 32 and with 64 bits.  On 64 bits nothing wraps.  On 32 bits the
largest capacity, which every request from `MAX_ARENA_SIZE` on is clamped to, wraps to a block of
no bytes at all, which passes the check of `Layout::from_size_align`; every other capacity is
either refused by that check or has its block.
-/

namespace Artmap

namespace Arena

/-! ## Targets -/

/-- What the code depends on of a target: the width of `usize` and the alignment of `u64`. -/
structure Target where
  bits : ℕ
  alignU64 : ℕ
  bits_eq : bits = 32 ∨ bits = 64
  align_eq : alignU64 = 4 ∨ alignU64 = 8

namespace Target

variable (T : Target)

/-- A `usize` as a release build keeps it. -/
def wrap (x : ℕ) : ℕ :=
  x % 2 ^ T.bits

/-- `x & !(ARENA_ALIGN - 1)` on a `usize`. -/
def alignDown (x : ℕ) : ℕ :=
  x &&& (2 ^ T.bits - 1 - (arenaAlign - 1))

/-- `MAX_ARENA_SIZE`. -/
def maxArenaSize : ℕ :=
  T.alignDown (2 ^ 32 - 1)

/-- `isize::MAX`. -/
def isizeMax : ℕ :=
  2 ^ (T.bits - 1) - 1

/-- `pointer::align_offset` for a pointer to bytes and `ARENA_ALIGN`. -/
def alignOffset (addr : ℕ) : ℕ :=
  T.wrap (T.alignDown (T.wrap (addr + (arenaAlign - 1))) + (2 ^ T.bits - addr))

end Target

/-- A `Layout` of the global allocator. -/
structure Block where
  size : ℕ
  align : ℕ
  deriving DecidableEq

/-- `Layout::from_size_align`: the size, rounded up to the alignment, is at most `isize::MAX`. -/
def Block.fromSizeAlign (T : Target) (size align : ℕ) : Option Block :=
  if size ≤ T.isizeMax - (align - 1) then some ⟨size, align⟩ else none

/-- A global allocator: for a layout of non-zero size `alloc_zeroed` answers nothing, or the
address of a block of that layout.  For a layout of size zero nothing is promised. -/
structure Allocator (T : Target) where
  allocZeroed : Block → Option ℕ
  fits : ∀ l raw, 0 < l.size → allocZeroed l = some raw →
    0 < raw ∧ l.align ∣ raw ∧ raw + l.size ≤ 2 ^ T.bits

/-! ## Creation and drop -/

/-- `raw_layout`; `none` is the panic of its `expect`. -/
def rawLayout (T : Target) (capacity : ℕ) : Option Block :=
  Block.fromSizeAlign T (T.wrap (capacity + arenaAlign)) T.alignU64

/-- The fields of an arena that `Arena::new` sets once and for all. -/
structure Backing where
  base : ℕ
  raw : ℕ
  capacity : ℕ
  deriving DecidableEq

/-- The capacity that `Arena::new` computes. -/
def Target.capacity (T : Target) (request : ℕ) : ℕ :=
  T.alignDown (max arenaAlign (min request T.maxArenaSize))

/-- `Arena::new`: the arena, and the layout it was allocated with.  A panic, and the abort of
`handle_alloc_error`, answer `none`. -/
def create (T : Target) (A : Allocator T) (request : ℕ) : Option (Backing × Block) := do
  let capacity := T.capacity request
  let layout ← rawLayout T capacity
  let raw ← A.allocZeroed layout
  let pad := T.alignOffset raw
  guard (pad < arenaAlign)
  return (⟨raw + pad, raw, capacity⟩, layout)

/-- The block that `Arena::drop` hands back. -/
def Backing.dealloc (T : Target) (b : Backing) : Option (ℕ × Block) := do
  return (b.raw, ← rawLayout T b.capacity)

/-- `Arena::ptr`: the address of an offset. -/
def Backing.ptr (T : Target) (b : Backing) (offset : ℕ) : ℕ :=
  T.wrap (b.base + offset)

/-- What the arena of a request promises about the block behind it. -/
structure Backed (T : Target) (request : ℕ) (b : Backing) (l : Block) : Prop where
  /-- The block was asked for with a layout the allocator accepts, and exists. -/
  size_pos : 0 < l.size
  inside : b.raw + l.size ≤ 2 ^ T.bits
  /-- The arena lies in the block. -/
  raw_le : b.raw ≤ b.base
  base_add_le : b.base + b.capacity ≤ b.raw + l.size
  base_aligned : arenaAlign ∣ b.base
  capacity_aligned : arenaAlign ∣ b.capacity
  capacity_ge : arenaAlign ≤ b.capacity
  capacity_le : b.capacity ≤ T.maxArenaSize
  /-- It is the capacity with which `new` creates the arena of this request. -/
  capacity_new : b.capacity =
    Arena.alignDown (max arenaAlign (min request Arena.maxArenaSize)) arenaAlign
  /-- The block is handed back as it was asked for. -/
  dealloc : b.dealloc T = some (b.raw, l)
  /-- In every run of the allocator, the ranges that an arena of this capacity answers lie in
  the block. -/
  ranges : ∀ (spurious : List Bool) (c : object.Config),
    Object.Reachable (O := object) (Mem.initial spurious) c →
    ∀ a cell, c.mem.arenas a = some cell → cell.capacity = b.capacity →
    ∀ t id layout off, Entry.answered t a id layout (some off) ∈ c.mem.trace →
      b.raw ≤ b.ptr T off ∧ b.ptr T off + layout.bytes ≤ b.raw + l.size

/-! ## Arithmetic -/

section Arithmetic

variable (T : Target)

lemma Target.alignDown_eq {x : ℕ} (hx : x < 2 ^ T.bits) : T.alignDown x = x / 64 * 64 := by
  have hbits : 6 ≤ T.bits := by
    rcases T.bits_eq with h | h <;> omega
  exact and_mask_eq (k := 6) hx hbits

lemma Target.two_pow_bits : 2 ^ T.bits = 2 ^ 32 ∨ 2 ^ T.bits = 2 ^ 64 := by
  rcases T.bits_eq with h | h <;> simp [h]

lemma Target.maxArenaSize_eq : T.maxArenaSize = 2 ^ 32 - 64 := by
  have hlt : 2 ^ 32 - 1 < 2 ^ T.bits := by
    rcases T.two_pow_bits with h | h <;> rw [h] <;> norm_num
  rw [maxArenaSize, T.alignDown_eq hlt]
  norm_num

lemma Target.capacity_eq (request : ℕ) :
    T.capacity request = max 64 (min request (2 ^ 32 - 64)) / 64 * 64 := by
  rw [Target.capacity, T.maxArenaSize_eq, arenaAlign]
  refine T.alignDown_eq ?_
  rcases T.two_pow_bits with h | h <;> rw [h] <;> omega

/-- The modelled allocator creates its arenas with the same capacity. -/
lemma Target.capacity_eq_new (request : ℕ) :
    T.capacity request =
      Arena.alignDown (max arenaAlign (min request Arena.maxArenaSize)) arenaAlign := by
  have hmax : Arena.maxArenaSize = 2 ^ 32 - 64 := Arena.maxArenaSize_eq
  rw [T.capacity_eq, hmax, arenaAlign]
  exact (Arena.alignDown_eq (k := 6) (by omega) le_rfl).symm

/-- The padding in front of the base. -/
lemma Target.alignOffset_spec {raw : ℕ} (hraw : raw + 63 < 2 ^ T.bits) :
    T.alignOffset raw < 64 ∧ 64 ∣ raw + T.alignOffset raw := by
  have hoff : T.alignOffset raw = ((raw + 63) / 64 * 64 + (2 ^ T.bits - raw)) % 2 ^ T.bits := by
    rw [alignOffset, wrap, wrap, arenaAlign, Nat.mod_eq_of_lt hraw, T.alignDown_eq hraw]
  rw [hoff]
  rcases T.two_pow_bits with h | h <;> rw [h] at hraw ⊢ <;> omega

end Arithmetic

/-! ## The block holds the arena -/

lemma Block.fromSizeAlign_eq_some {T : Target} {size align : ℕ} {l : Block} :
    Block.fromSizeAlign T size align = some l ↔
      size ≤ T.isizeMax - (align - 1) ∧ l = ⟨size, align⟩ := by
  rw [Block.fromSizeAlign, Option.ite_none_right_eq_some, Option.some.injEq, eq_comm (a := l)]

/-- What `create` did when it answered an arena. -/
lemma create_eq_some {T : Target} {A : Allocator T} {request : ℕ} {b : Backing} {l : Block} :
    create T A request = some (b, l) ↔
      rawLayout T b.capacity = some l ∧ A.allocZeroed l = some b.raw ∧
        T.alignOffset b.raw < arenaAlign ∧ b.base = b.raw + T.alignOffset b.raw ∧
        b.capacity = T.capacity request := by
  obtain ⟨base, raw, capacity⟩ := b
  simp only [create, Option.bind_eq_bind, Option.bind_eq_some_iff, Option.guard_eq_some',
    Option.pure_def, Option.some.injEq, Prod.mk.injEq, Backing.mk.injEq, exists_const]
  constructor
  · rintro ⟨l', hl, raw', hraw, hpad, ⟨rfl, rfl, rfl⟩, rfl⟩
    exact ⟨hl, hraw, hpad, rfl, rfl⟩
  · rintro ⟨hl, hraw, hpad, rfl, rfl⟩
    exact ⟨l, hl, raw, hraw, hpad, ⟨rfl, rfl, rfl⟩, rfl⟩

/-- The requests whose block does not wrap. -/
def Target.Fits (T : Target) (request : ℕ) : Prop :=
  T.bits = 64 ∨ request < T.maxArenaSize

variable {T : Target} {A : Allocator T} {request : ℕ} {b : Backing} {l : Block}

lemma Target.Fits.capacity_add_lt (h : T.Fits request) : T.capacity request + 64 < 2 ^ T.bits := by
  rw [Target.Fits, T.maxArenaSize_eq] at h
  rw [T.capacity_eq]
  rcases h with h | h
  · rw [h]
    omega
  · rcases T.two_pow_bits with hw | hw <;> rw [hw] <;> omega

/-- The range of an answer, seen from the base. -/
lemma ptr_inside (hsize : b.base + b.capacity ≤ b.raw + l.size) (hraw : b.raw ≤ b.base)
    (hend : b.raw + l.size ≤ 2 ^ T.bits) {off n : ℕ} (hn : 0 < n) (hoff : off + n ≤ b.capacity) :
    b.raw ≤ b.ptr T off ∧ b.ptr T off + n ≤ b.raw + l.size := by
  have hptr : b.ptr T off = b.base + off := Nat.mod_eq_of_lt (by omega)
  rw [hptr]
  omega

lemma backed_of_fits (hfits : T.Fits request) (h : create T A request = some (b, l)) :
    Backed T request b l := by
  obtain ⟨hlayout, halloc, hpad, hbase, hcapacity⟩ := create_eq_some.mp h
  have hlt : b.capacity + 64 < 2 ^ T.bits := hcapacity ▸ hfits.capacity_add_lt
  have hcap : b.capacity = max 64 (min request (2 ^ 32 - 64)) / 64 * 64 := by
    rw [hcapacity, T.capacity_eq]
  have hsize : l.size = b.capacity + 64 := by
    obtain ⟨-, rfl⟩ := Block.fromSizeAlign_eq_some.mp hlayout
    exact Nat.mod_eq_of_lt hlt
  obtain ⟨-, -, hend⟩ := A.fits l b.raw (by omega) halloc
  obtain ⟨-, haligned⟩ := T.alignOffset_spec (show b.raw + 63 < _ by omega)
  have hraw : b.raw ≤ b.base := by omega
  have hle : b.base + b.capacity ≤ b.raw + l.size := by
    rw [arenaAlign] at hpad
    omega
  refine
    { size_pos := by omega
      inside := hend
      raw_le := hraw
      base_add_le := hle
      base_aligned := hbase ▸ haligned
      capacity_aligned := by rw [hcap, arenaAlign]; exact Nat.dvd_mul_left _ _
      capacity_ge := by rw [arenaAlign]; omega
      capacity_le := by rw [T.maxArenaSize_eq]; omega
      capacity_new := hcapacity.trans (T.capacity_eq_new request)
      dealloc := by simp [Backing.dealloc, hlayout]
      ranges := ?_ }
  intro spurious c hc a cell hcell hcells t id layout off hmem
  obtain ⟨L', L, htrace⟩ := List.append_of_mem hmem
  obtain ⟨-, -, -, ⟨cell', hcell', hoff⟩, -⟩ := answered_fits spurious hc htrace
  obtain rfl : cell' = cell := Option.some.inj (hcell'.symm.trans hcell)
  exact ptr_inside hle hraw hend (layout.size.le_max_right 1) (hcells ▸ hoff)

/-! ## The block that wraps -/

/-- An allocator that has no memory, and answers a dangling address to a layout of no bytes. -/
def dangling (T : Target) : Allocator T where
  allocZeroed l := if l.size = 0 then some 64 else none
  fits l raw hl h := by simp [hl.ne'] at h

lemma create_wraps (h : ¬ T.Fits request) :
    create T (dangling T) request = some (⟨64, 64, 2 ^ 32 - 64⟩, ⟨0, T.alignU64⟩) := by
  rw [Target.Fits, T.maxArenaSize_eq, not_or, not_lt] at h
  obtain ⟨hbits, hrequest⟩ := h
  have hw : T.bits = 32 := T.bits_eq.resolve_right hbits
  have hoff : T.alignOffset 64 < 64 ∧ 64 ∣ 64 + T.alignOffset 64 :=
    T.alignOffset_spec (by rw [hw]; norm_num)
  have hcap : T.capacity request = 2 ^ 32 - 64 := by
    rw [T.capacity_eq]
    omega
  have hbase : 64 = 64 + T.alignOffset 64 := by omega
  refine create_eq_some.mpr ⟨?_, rfl, hoff.1, hbase, hcap.symm⟩
  refine Block.fromSizeAlign_eq_some.mpr ⟨?_, ?_⟩
  · simp [Target.wrap, hw, arenaAlign]
  · simp [Target.wrap, hw, arenaAlign]

/-- **The memory behind an arena.**  Whatever the allocator answers, an arena that `Arena::new`
returns lies in its block, hands back that block, and answers ranges of it only, exactly when
`usize` has 64 bits or the requested capacity is below `MAX_ARENA_SIZE`. -/
theorem backed_iff (T : Target) (request : ℕ) :
    (∀ A b l, create T A request = some (b, l) → Backed T request b l) ↔
      T.bits = 64 ∨ request < T.maxArenaSize := by
  constructor
  · intro h
    by_contra hfits
    exact lt_irrefl 0 (h _ _ _ (create_wraps hfits)).size_pos
  · exact fun hfits A b l => backed_of_fits hfits

/-- `wasm32`. -/
def wasm32 : Target := ⟨32, 8, .inl rfl, .inr rfl⟩

/-- The request `usize::MAX` on `wasm32`: the arena says that it has `MAX_ARENA_SIZE` bytes, and
its block has none. -/
theorem backed_wasm32 :
    create wasm32 (dangling wasm32) (2 ^ 32 - 1) = some (⟨64, 64, 2 ^ 32 - 64⟩, ⟨0, 8⟩) ∧
      ¬ ∀ (T : Target) (request : ℕ), request < 2 ^ T.bits →
        ∀ A b l, create T A request = some (b, l) → Backed T request b l := by
  have h : create wasm32 (dangling wasm32) (2 ^ 32 - 1) =
      some (⟨64, 64, 2 ^ 32 - 64⟩, ⟨0, 8⟩) := by decide
  exact ⟨h, fun hall => lt_irrefl 0 (hall wasm32 (2 ^ 32 - 1) (by decide) _ _ _ h).size_pos⟩

end Arena

end Artmap
