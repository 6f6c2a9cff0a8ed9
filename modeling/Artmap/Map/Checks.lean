import Artmap.Map.ArenaArtMap
import Artmap.Map.History
import Artmap.Map.VersionedCalls

/-!
# No check fails

The write paths check what they have read optimistically: that there is room for a child, that a
byte is present, that a smaller or larger layout holds what is copied into it, that a count is not
zero, that a root latch is not obsolete.  A check that fails is a panic, which the memory records.
In no interleaving of the operations of a map does one fail, nor in one of the calls that the
versioned maps make.
-/

namespace Artmap

namespace Interface

variable {M : Interface} {full : ℕ → Bool} {c : M.client.object.Config}

/-- No check has failed, and every node in the tree whose latch is free is well formed. -/
theorem checks_of_safe (hM : M.Safe) (hfull : M.roomy → ∀ i, full i = false)
    (hc : Reachable full c) :
    c.mem.tree.panicked = false ∧ ∃ F e, Depicts c.mem.tree F e := by
  obtain ⟨w, h⟩ := behind hM hfull hc
  refine ⟨?_, _, _, h.depicts⟩
  have hsane := h.inv.tree.sane
  rwa [show Client.tree w = c.mem.tree by rw [← h.mem]; rfl] at hsane

end Interface

/-- The bytes at which two keys part are different, below any depth: a fork does not get the same
byte twice. -/
lemma fork_bytes_ne (a b : Key) (start : ℕ) {x y : Byte}
    (hx : (a.drop start)[commonPrefix (a.drop start) (b.drop start)]? = some x)
    (hy : (b.drop start)[commonPrefix (a.drop start) (b.drop start)]? = some y) : x ≠ y := by
  rintro rfl
  rcases commonPrefix_head (a.drop start) (b.drop start) with h | h
  · rw [List.head?_drop, List.head?_drop, hx, hy] at h
    exact h rfl
  · rw [h, commonPrefix_self] at hy
    simp at hy

/-- The calls of `build_chain` in an insert of `l` that meets the leaf `old`: the suffixes of the
two keys, and how much of them is the same. -/
inductive ChainCall (old l : Leaf) : List Byte → List Byte → ℕ → Prop where
  /-- The leaf is the root. -/
  | root : ChainCall old l old.key l.key (commonPrefix old.key l.key)
  /-- The leaf is a child of a node, at the byte at `nodeDepth` of the key. -/
  | child (nodeDepth : ℕ) : ChainCall old l (old.key.drop (nodeDepth + 1))
      (l.key.drop (nodeDepth + 1))
      (commonPrefix (old.key.drop (nodeDepth + 1)) (l.key.drop (nodeDepth + 1)))

lemma ChainCall.fork_ne {old l : Leaf} {es ns : List Byte} {common : ℕ} {x y : Byte}
    (h : ChainCall old l es ns common) (hx : es[common]? = some x) (hy : ns[common]? = some y) :
    x ≠ y := by
  cases h with
  | root => exact fork_bytes_ne old.key l.key 0 hx hy
  | child nodeDepth => exact fork_bytes_ne old.key l.key (nodeDepth + 1) hx hy

/-- **No check fails**, in any run of the heap map, of the arena map and of the calls that the
versioned maps make on their tree, whatever the allocations that find the arena full: the memory
records no panic, and every node of the tree whose latch is free is well formed.  The two bytes
that `build_chain` pushes at a fork, where an insert calls it, are different. -/
theorem checks_pass :
    (∀ c, ArtMap.Reaches c →
      c.mem.tree.panicked = false ∧ ∃ F e, Depicts c.mem.tree F e) ∧
    (∀ full c, Interface.Reachable (M := ArenaArtMap.interface false) full c →
      c.mem.tree.panicked = false ∧ ∃ F e, Depicts c.mem.tree F e) ∧
    (∀ full c, VersionedCalls.Reachable full c →
      c.mem.tree.panicked = false ∧ ∃ F e, Depicts c.mem.tree F e) ∧
    ∀ (old l : Leaf) (es ns : List Byte) (common : ℕ) (x y : Byte),
      ChainCall old l es ns common → es[common]? = some x → ns[common]? = some y → x ≠ y :=
  ⟨fun _ hc => Interface.checks_of_safe ArtMap.safe ArtMap.heap_roomy hc,
    fun _ _ hc => Interface.checks_of_safe (ArenaArtMap.safe false) (by simp) hc,
    fun _ _ hc => VersionedCalls.checked hc, fun _ _ _ _ _ _ _ h hx hy => h.fork_ne hx hy⟩

/-- Threads in the middle of their calls: on the heap, in an arena that is full, and on the tree of
a versioned map, which a clear detaches while a remove is refused. -/
theorem checks_pass_pair :
    (∃ c, ArtMap.Reaches c ∧ c.hist = [.inv 0 (.insert ⟨0, [1]⟩ .replace), .inv 1 .clear] ∧
      c.mem.tree.panicked = false ∧ ∃ F e, Depicts c.mem.tree F e) ∧
    (∃ c, Interface.Reachable (M := ArenaArtMap.interface false) (fun _ => true) c ∧
      c.hist = [.inv 0 (.insert ⟨0, [1]⟩ (some 0)), .inv 1 (.remove [1]),
        .res 0 .full] ∧
      c.mem.tree.panicked = false ∧ ∃ F e, Depicts c.mem.tree F e) ∧
    ∃ c, VersionedCalls.Reachable (fun _ => false) c ∧
      c.hist = [.inv 0 (.insert ⟨0, [1]⟩ 0 none), .res 0 (.outcome (some (.inserted ⟨0, [1]⟩))),
        .inv 2 (.remove ⟨0, [1]⟩ none), .inv 3 (.clear fun _ => 0), .res 2 (.entry none)] ∧
      c.mem.tree.panicked = false ∧ ∃ F e, Depicts c.mem.tree F e := by
  refine ⟨?_, ?_, ?_⟩
  · have h₀ : ArtMap.Reaches (Object.initial (Interface.start fun _ => false)) := .refl
    have h₁ := h₀.invoke 0 (.insert ⟨0, [1]⟩ .replace)
      ⟨TreeMem.empty, { LeafMem.empty with
        built := Function.update LeafMem.empty.built ⟨0, [1]⟩ true }⟩ rfl ⟨rfl, rfl, rfl⟩
    have h₂ := (h₁.invoke 1 .clear _ rfl ⟨rfl, rfl⟩).schedule [0, 1, 0]
    exact ⟨_, h₂, rfl, checks_pass.1 _ h₂⟩
  · have h₀ : Interface.Reachable (M := ArenaArtMap.interface false) (fun _ => true)
      (Object.initial (Interface.start fun _ => true)) := .refl
    have h₁ := h₀.invoke 0 (.insert ⟨0, [1]⟩ (some 0))
      ⟨{ TreeMem.empty with full := fun _ => true }, { LeafMem.empty with
        built := Function.update LeafMem.empty.built ⟨0, [1]⟩ true }⟩ rfl ⟨rfl, rfl, rfl⟩
    have h₂ := (h₁.invoke 1 (.remove [1]) _ rfl ⟨rfl, rfl⟩).schedule [0, 1, 0]
    exact ⟨_, h₂, rfl, checks_pass.2.1 _ _ h₂⟩
  · have h₀ : VersionedCalls.Reachable (fun _ => false)
      (Object.initial (VersionedCalls.start fun _ => false)) := .refl
    have h₁ := (h₀.invoke 0 (.insert ⟨0, [1]⟩ 0 none) _ rfl ⟨rfl, rfl⟩).schedule
      (List.replicate 12 0)
    have h₂ := h₁.invoke 0 (.remove ⟨0, [1]⟩ none) _ rfl ⟨rfl, rfl⟩
    have h₃ := (h₂.invoke 1 (.clear fun _ => 0) _ rfl ⟨rfl, rfl⟩).schedule
      (List.replicate 12 0 ++ [1, 1, 1, 1, 1, 1])
    exact ⟨_, h₃, rfl, checks_pass.2.2.1 _ _ h₃⟩

end Artmap
