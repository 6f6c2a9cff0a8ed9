import Artmap.Arena.Room
import Artmap.Map.ArenaArtMap
import Artmap.Ops.Quota
import Mathlib.Algebra.BigOperators.Group.Finset.Basic
import Mathlib.Algebra.Order.BigOperators.Group.Finset

/-!
# The bytes of one insert (`src/arena/map.rs`)

`max_insert_bytes` bounds what one `try_insert` takes from its arena, in every run, however often
it has to start over.  So an insert that finds that much room does not fail as long as no other
thread takes from the arena meanwhile.
-/

namespace Artmap

/-- The layouts of `Leaf<K, V>` and of the node types. -/
structure Layouts where
  leaf : Arena.Layout
  node : NodeType → Arena.Layout
  leaf_pos : 0 < leaf.size
  node_pos : ∀ ty, 0 < (node ty).size
  /-- A node begins with its latch, a word of 64 bits. -/
  node_align : ∀ ty, (node ty).align = 8

namespace Layouts

variable (s : Layouts) {n : ℕ}

/-- What is allocated for a request. -/
def of : Request → Arena.Layout
  | .value => s.leaf
  | .node ty => s.node ty

/-- The size and the alignment padding of a request. -/
def bytes (r : Request) : ℕ :=
  Arena.pad (s.of r).size (s.of r).align

/-- `ArenaArtMap::max_insert_bytes`, where it does not overflow. -/
def maxInsertBytes (keyLen : ℕ) : ℕ :=
  let leaf := Arena.pad s.leaf.size s.leaf.align
  let node4s := keyLen / (maxPrefixLen + 1) + 2
  leaf + node4s * Arena.pad (s.node .node4).size 8 + Arena.pad (s.node .node16).size 8 +
    Arena.pad (s.node .node48).size 8 + Arena.pad (s.node .node256).size 8

lemma worst_of (r : Request) : (s.of r).worst = s.bytes r := by
  have hpos : 1 ≤ (s.of r).size := by
    cases r with
    | value => exact s.leaf_pos
    | node ty => exact s.node_pos ty
  rw [Arena.Layout.worst, Arena.Layout.bytes, max_eq_left hpos, bytes]

/-- All kinds of requests. -/
def kinds : Finset Request :=
  {.value, .node .node4, .node .node16, .node .node48, .node .node256}

lemma mem_kinds (r : Request) : r ∈ kinds := by
  cases r with
  | value => decide
  | node ty => cases ty <;> decide

/-- Requests within the quota are within the bound. -/
lemma sum_bytes_le {L : List Request} (h : ∀ r, L.count r ≤ quota n r) :
    (L.map s.bytes).sum ≤ s.maxInsertBytes n := by
  calc (L.map s.bytes).sum = ∑ r ∈ L.toFinset, L.count r • s.bytes r :=
        Finset.sum_list_map_count L s.bytes
    _ ≤ ∑ r ∈ kinds, L.count r • s.bytes r :=
        Finset.sum_le_sum_of_subset fun r _ => mem_kinds r
    _ ≤ ∑ r ∈ kinds, quota n r * s.bytes r :=
        Finset.sum_le_sum fun r _ => Nat.mul_le_mul_right _ (h r)
    _ ≤ s.maxInsertBytes n := by
        simp only [kinds, Finset.sum_insert, Finset.sum_singleton, Finset.mem_insert,
          Finset.mem_singleton, reduceCtorEq, Request.node.injEq, or_self, not_false_eq_true,
          quota, bytes, of, s.node_align, maxInsertBytes, Nat.add_mul]
        omega

end Layouts

namespace ArenaArtMap

open Interface

/-- The configurations of the arena map. -/
abbrev Config : Type 1 :=
  (interface false).client.object.Config

variable {c c' : Config} {t id : ℕ} {l : Leaf} {i : Option ℕ} {tr : List (Prog.Event Act)}

/-- Thread `t` invokes an insert at `c`, and on the way to `c'` it performs the actions `tr`,
whatever other threads do meanwhile. -/
structure Inserting (t id : ℕ) (l : Leaf) (i : Option ℕ) (c : Config)
    (tr : List (Prog.Event Act)) (c' : Config) : Prop where
  invoked : c.running t = some ⟨id, .insert l i, code (.insert l i)⟩
  during : Object.During t c tr c'

/-- The insert has answered `r`. -/
def Answers (t id : ℕ) (l : Leaf) (i : Option ℕ) (c : Config) (r : Ret) : Prop :=
  c.running t = some ⟨id, .insert l i, .ret r⟩

lemma follows (t : ℕ) : recorder.Follows (interface false).client.object t
    fun m s => Recorded m s.nodes where
  own a m s h := Recorded.own h t a
  other t' _ a m s h := Recorded.kept h t' a
  start t' op m m' s h hstart := by
    have htree : m'.tree = m.tree := hstart.1
    rw [Recorded, htree]
    exact h

/-- An insert stays within the quota of its key, and answers. -/
lemma inserting_quota (h : Inserting t id l i c tr c') :
    (∀ r, ((requests tr).map Prod.fst).count r ≤ quota l.key.length r) ∧
      ∀ r, Answers t id l i c' r →
        (∃ o, r = .outcome o) ∨ r = .full ∧ ∃ q ∈ requests tr, q.2 = false := by
  have hwp : recorder.wp (Within l.key.length) (code (.insert l i))
      (fun r s => (∃ o, r = .outcome o) ∨ r = .full ∧ Refused s) ⟨[], []⟩ := by
    refine Observer.wp_seq (wp_arenaInsert_quota le_rfl i) fun o s _ ho => Observer.wp_ret ?_
    cases o with
    | none => exact .inr ⟨rfl, ho rfl⟩
    | some o => exact .inl ⟨o, rfl⟩
  have hrequests : (recorder.noted ⟨[], []⟩ tr).requests = requests tr := noted_requests _ tr
  obtain ⟨h1, h2⟩ := Observer.sound (follows t) hwp (fun r => Nat.zero_le _) h.invoked
    (fun e he => by simp at he) h.during
  refine ⟨fun r => hrequests ▸ h1 r, fun r hr => ?_⟩
  rcases h2 r hr with ho | ⟨hfull, hq⟩
  · exact .inl ho
  · exact .inr ⟨hfull, by rwa [Refused, hrequests] at hq⟩

variable (s : Layouts)

/-- **The bytes of one insert.**  Whatever the other threads do, what an insert requests from its
arena, with the alignment padding, does not exceed `max_insert_bytes` of its key.  If that much
remains in the arena when the insert starts, and no other thread takes from the arena, it does not
fail.  And alone it answers. -/
theorem insert_within_budget (l : Leaf) (i : Option ℕ) :
    (∀ {t id c tr c'}, Inserting t id l i c tr c' →
      ((requests tr).map fun q => s.bytes q.1).sum ≤ s.maxInsertBytes l.key.length) ∧
    (∀ {t id c tr c' spurious d a cell}, Inserting t id l i c tr c' →
      Object.Reachable (O := Arena.object) (Arena.Mem.initial spurious) d →
      d.mem.arenas a = some cell → s.maxInsertBytes l.key.length ≤ cell.remaining →
      Arena.Served t a d.mem ((requests tr).map fun q => (s.of q.1, q.2)) →
      ∀ r, Answers t id l i c' r → ∃ o, r = .outcome o) ∧
    ∀ {full t m} {c : Config}, Reachable full c → c.Quiescent →
      (interface false).client.object.start t (.insert l i) c.mem m →
      ∃ tr c' r, Inserting t c.hist.length l i (c.invoke t (.insert l i) m) tr c' ∧
        Answers t c.hist.length l i c' r := by
  have hsum : ∀ {t id c tr c'}, Inserting t id l i c tr c' →
      ((requests tr).map fun q => s.bytes q.1).sum ≤ s.maxInsertBytes l.key.length := by
    intro t id c tr c' h
    have := s.sum_bytes_le (inserting_quota h).1
    rwa [List.map_map] at this
  refine ⟨hsum, ?_, ?_⟩
  · intro t id c tr c' spurious d a cell h hd hcell hroom hserved r hr
    refine ((inserting_quota h).2 r hr).resolve_right ?_
    rintro ⟨-, q, hq, hrefused⟩
    have hgranted := hserved.granted (Arena.capacity_le spurious hd hcell) hcell (by
      rw [List.map_map]
      refine le_trans (le_of_eq ?_) ((hsum h).trans hroom)
      exact congrArg List.sum (List.map_congr_left fun q _ => s.worst_of q.1))
    have := hgranted _ (List.mem_map_of_mem hq)
    simp [hrefused] at this
  · intro full t m c hc hq hstart
    obtain ⟨g, hk⟩ := RG.kept_of_reachable ((interface false).verified (safe false))
      (start_inv full (by simp)) (fun _ => rfl) hc 1
    obtain ⟨n, r, hrun⟩ := RG.answers ((interface false).verified (safe false)) hk.1 hq t hstart
    have hinv : (c.invoke t (.insert l i) m).running t =
        some ⟨c.hist.length, .insert l i, code (.insert l i)⟩ := by
      simp [Object.Config.invoke]
    obtain ⟨tr, c', h1, h2⟩ := Object.During.of_runFor hinv hrun
    exact ⟨tr, c', r.1, ⟨hinv, h1⟩, h2⟩

/-- The size of `Node4<AtomicU32>` and of the larger nodes. -/
def nodeSize : NodeType → ℕ
  | .node4 => 64
  | .node16 => 120
  | .node48 => 520
  | .node256 => 1096

/-- The layouts of a map whose leaves take 32 bytes. -/
def layouts : Layouts where
  leaf := ⟨32, 8, by norm_num, Arena.tenBytes.align_pow⟩
  node ty := ⟨nodeSize ty, 8, by cases ty <;> decide, Arena.tenBytes.align_pow⟩
  leaf_pos := by norm_num
  node_pos ty := by cases ty <;> decide
  node_align _ := rfl

/-- A first insert has been invoked. -/
def first : Config :=
  (Object.initial (start fun _ => false)).invoke 0 (.insert ⟨0, [1]⟩ none)
    ⟨TreeMem.empty, { LeafMem.empty with
      built := Function.update LeafMem.empty.built ⟨0, [1]⟩ true }⟩

/-- It runs alone: its leaf is all that it requests. -/
lemma first_inserting : ∃ tr c', Inserting 0 0 ⟨0, [1]⟩ none first tr c' ∧
    Answers 0 0 ⟨0, [1]⟩ none c' (.outcome (.inserted ⟨0, [1]⟩)) ∧
    requests tr = [(.value, true)] := by
  have h₀ : Object.During 0 first _ _ := .act .refl rfl
  have h₁ := ((h₀.unfold rfl).act rfl).unfold rfl
  have h₂ := ((((((h₁.act rfl).act rfl).act rfl).act rfl).act rfl).act rfl)
  exact ⟨_, _, ⟨rfl, h₂⟩, rfl, rfl⟩

/-- An arena of 4096 bytes serves it. -/
lemma first_served : Arena.Served 0 0 Arena.created.mem [(layouts.leaf, true)] := by
  obtain ⟨n, h⟩ : ∃ n, Arena.RunsOn 0 0 n (Arena.alloc 0 layouts.leaf) Arena.created.mem (some 64)
      _ := Arena.RunsOn.of_runFor (n := 20) rfl
  exact .cons rfl h (.nil _)

theorem insert_within_budget_first : ∃ tr c' r, Inserting 0 0 ⟨0, [1]⟩ none first tr c' ∧
    ((requests tr).map fun q => layouts.bytes q.1).sum ≤ layouts.maxInsertBytes 1 ∧
    Answers 0 0 ⟨0, [1]⟩ none c' r ∧ ∃ o, r = .outcome o := by
  obtain ⟨tr, c', h, hans, hreq⟩ := first_inserting
  obtain ⟨h1, h2, -⟩ := insert_within_budget layouts ⟨0, [1]⟩ none
  have hcell : Arena.created.mem.arenas 0 = some ⟨1, 64, 4096⟩ := rfl
  refine ⟨tr, c', _, h, h1 h, hans, h2 h Arena.created_reachable hcell ?_ ?_ _ hans⟩
  · decide
  · rw [hreq]
    exact first_served

end ArenaArtMap

end Artmap
