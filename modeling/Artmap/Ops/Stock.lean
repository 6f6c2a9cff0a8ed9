import Artmap.Raw.Acts
import Mathlib.Data.List.Count

/-!
# What an insert takes from the arena (`src/raw/mod.rs`, `src/raw/write.rs`)

An insert keeps the nodes that it has allocated in its pool (`Prepared`) until it publishes them,
and an attempt that has to start over takes them from there again.  However many attempts there
are, and whatever the other threads do to the tree meanwhile, it allocates no more nodes of a type
than one attempt can use: one of each larger type for a node that has to grow, and of the smallest
type as many as the links of the longest chain that its key can need.

Of the answers that an insert gets nothing is used but that no node is handed out twice, and that
a node keeps the type it was allocated with.
-/

namespace Artmap

/-! ## Requests -/

/-- A request to the arena: for a leaf, or for a node. -/
inductive Request where
  | value
  | node (ty : NodeType)
  deriving DecidableEq

/-- The request that an action on the tree makes, and whether it is granted. -/
def TreeAct.asks : (a : TreeAct) → a.Ans → Option (Request × Bool)
  | .allocNode ty, r => some (.node ty, Option.isSome r)
  | .allocValue, ok => some (.value, ok)
  | _, _ => none

/-- The request that an action makes, and whether it is granted. -/
def Act.asks : {β : Type} → Act β → β → Option (Request × Bool)
  | _, .tree a, b => a.asks b
  | _, .leaf _, _ => none
  | _, .wait _, _ => none

/-- The node that an action on the tree allocates, and its type. -/
def TreeAct.gives : (a : TreeAct) → a.Ans → Option (NodeId × NodeType)
  | .allocNode ty, r => Option.map (fun n => (n, ty)) r
  | _, _ => none

/-- The node that an action allocates, and its type. -/
def Act.gives : {β : Type} → Act β → β → Option (NodeId × NodeType)
  | _, .tree a, b => a.gives b
  | _, .leaf _, _ => none
  | _, .wait _, _ => none

/-- The requests among some actions. -/
def requests (tr : List (Prog.Event Act)) : List (Request × Bool) :=
  tr.filterMap fun e => e.act.asks e.ans

/-- How many requests of a kind an insert makes at most, for a key of `n` bytes: one for its leaf,
one for a node that has to grow, and as many for the smallest nodes as a chain has links. -/
def quota (n : ℕ) : Request → ℕ
  | .value => 1
  | .node .node4 => n / (maxPrefixLen + 1) + 1
  | .node .node16 => 1
  | .node .node48 => 1
  | .node .node256 => 1

lemma quota_pos (n : ℕ) (r : Request) : 0 < quota n r := by
  cases r with
  | value => exact Nat.one_pos
  | node ty => cases ty <;> exact Nat.succ_pos _

/-! ## The record of a call -/

/-- What a call has allocated and requested. -/
structure Record where
  nodes : List (NodeId × NodeType)
  requests : List (Request × Bool)

/-- The answers to actions on the tree that fit a record. -/
def TreeAct.Allows : (a : TreeAct) → a.Ans → Record → Prop
  | .nodeType n, ty, s => ∀ e ∈ s.nodes, e.1 = n → e.2 = ty
  | .allocNode _, r, s => ∀ n, r = some n → ∀ e ∈ s.nodes, e.1 ≠ n
  | _, _, _ => True

/-- Keeps the record of a call: a node has the type that it was allocated with, and none is
allocated twice. -/
def recorder : Observer Act Record where
  Allows a b s :=
    match a, b with
    | .tree a, b => a.Allows b s
    | .leaf _, _ => True
    | .wait _, _ => True
  note a b s := ⟨s.nodes ++ (a.gives b).toList, s.requests ++ (a.asks b).toList⟩

/-- The requests are within the quota. -/
def Within (n : ℕ) (s : Record) : Prop :=
  ∀ r, (s.requests.map Prod.fst).count r ≤ quota n r

/-- A request was refused. -/
def Refused (s : Record) : Prop :=
  ∃ q ∈ s.requests, q.2 = false

variable {n k : ℕ} {s s' : Record} {α β : Type}

lemma covers_plain : Covers recorder.Plain := by
  intro β a ha b s
  have h : a.asks b = none ∧ a.gives b = none := by
    cases a with
    | tree a => cases a <;> first | exact ⟨rfl, rfl⟩ | exact absurd trivial ha
    | leaf a => exact ⟨rfl, rfl⟩
    | wait l => exact ⟨rfl, rfl⟩
  simp [recorder, h.1, h.2]

lemma noted_requests (s : Record) (tr : List (Prog.Event Act)) :
    (recorder.noted s tr).requests = s.requests ++ requests tr := by
  induction tr generalizing s with
  | nil => simp [Observer.noted, requests]
  | cons e tr ih =>
    have h : recorder.noted s (e :: tr) =
        recorder.noted (recorder.note e.act e.ans s) tr := rfl
    rw [h, ih]
    cases hr : e.act.asks e.ans <;> simp [recorder, requests, hr]

/-- The nodes are there, with these types. -/
def Recorded (m : Mem) (nodes : List (NodeId × NodeType)) : Prop :=
  ∀ e ∈ nodes, e.1 < m.tree.next ∧ m.tree.ty e.1 = e.2

lemma Recorded.kept {m : Mem} {L : List (NodeId × NodeType)} (h : Recorded m L) (t : ℕ)
    {β : Type} (a : Act β) : Recorded (exec t a m).2 L := by
  cases a with
  | leaf a => exact h
  | wait l => exact h
  | tree a =>
    cases a with
    | allocNode ty =>
      intro e he
      obtain ⟨h1, h2⟩ := h e he
      by_cases hfull : m.tree.full m.tree.tries
      · simpa [exec, execTree, hfull] using ⟨h1, h2⟩
      · have hne : e.1 ≠ m.tree.next := h1.ne
        simpa [exec, execTree, hfull, hne, h2] using Nat.lt_succ_of_lt h1
    | casLatch l old new =>
      intro e he
      have := h e he
      simp only [exec, execTree]
      split <;> exact this
    | _ => exact h

/-- The memory answers as the record allows. -/
lemma Recorded.own {m : Mem} (h : Recorded m s.nodes) (t : ℕ) {β : Type} (a : Act β) :
    recorder.Allows a (exec t a m).1 s ∧
      Recorded (exec t a m).2 (recorder.note a (exec t a m).1 s).nodes := by
  have hold := h.kept t a
  have hnodes : (recorder.note a (exec t a m).1 s).nodes =
      s.nodes ++ (a.gives (exec t a m).1).toList := rfl
  rw [hnodes]
  cases a with
  | leaf a => exact ⟨trivial, by simpa [Act.gives] using hold⟩
  | wait l => exact ⟨trivial, by simpa [Act.gives] using hold⟩
  | tree a =>
    cases a with
    | allocNode ty =>
      by_cases hfull : m.tree.full m.tree.tries
      · constructor
        · intro n hn
          simp [exec, execTree, hfull] at hn
        · simpa [Act.gives, TreeAct.gives, exec, execTree, hfull] using hold
      · constructor
        · intro n hn e he
          obtain rfl : m.tree.next = n := by simpa [exec, execTree, hfull] using hn
          exact (h e he).1.ne
        · intro e he
          have hmem : e ∈ s.nodes ∨ e = (m.tree.next, ty) := by
            simpa [Act.gives, TreeAct.gives, exec, execTree, hfull] using he
          rcases hmem with he | rfl
          · exact hold e he
          · simp [exec, execTree, hfull]
    | nodeType n =>
      refine ⟨fun e he hn => ?_, by simpa [Act.gives, TreeAct.gives] using hold⟩
      rw [← (h e he).2, hn]
      rfl
    | _ => exact ⟨trivial, by simpa [Act.gives, TreeAct.gives] using hold⟩

/-! ## The pool -/

/-- A node in the pool: its type, and whether the current attempt uses it. -/
structure Stock where
  node : NodeId
  ty : NodeType
  used : Bool

/-- As many nodes of a type as the current attempt uses. -/
def inUse (ty : NodeType) (L : List Stock) : ℕ :=
  L.countP fun e => e.used && decide (e.ty = ty)

/-- What the pool holds is all that the call has allocated, and nothing was refused. -/
structure Stocked (L : List Stock) (p : Pool) (s : Record) : Prop where
  pool : p = L.map fun e => (e.node, e.used)
  nodes : s.nodes = L.map fun e => (e.node, e.ty)
  nodup : (L.map Stock.node).Nodup
  requests : s.requests = (.value, true) :: L.map fun e => (.node e.ty, true)

/-- The current attempt uses node `n`. -/
def Stock.use (n : NodeId) (e : Stock) : Stock :=
  if e.node = n then { e with used := true } else e

/-- A new attempt uses none. -/
def Stock.reset (e : Stock) : Stock :=
  { e with used := false }

variable {L L' : List Stock} {p : Pool} {ty ty' : NodeType}

lemma inUse_reset (ty : NodeType) (L : List Stock) : inUse ty (L.map Stock.reset) = 0 := by
  simp [inUse, Stock.reset]

lemma inUse_append (ty : NodeType) (L L' : List Stock) :
    inUse ty (L ++ L') = inUse ty L + inUse ty L' := by
  simp [inUse]

lemma map_use_of_not_mem {m : NodeId} (h : m ∉ L.map Stock.node) : L.map (Stock.use m) = L := by
  refine (List.map_congr_left fun e he => ?_).trans (List.map_id L)
  have hne : e.node ≠ m := fun hem => h (hem ▸ List.mem_map_of_mem he)
  simp [Stock.use, hne]

/-- Of a node that was unused, one more is in use afterwards. -/
lemma inUse_use {e : Stock} (hnd : (L.map Stock.node).Nodup) (he : e ∈ L)
    (hused : e.used = false) (ty' : NodeType) :
    inUse ty' (L.map (Stock.use e.node)) = inUse ty' L + if ty' = e.ty then 1 else 0 := by
  obtain ⟨A, B, rfl⟩ := List.append_of_mem he
  rw [List.map_append, List.map_cons, List.nodup_middle, List.nodup_cons, List.mem_append] at hnd
  push Not at hnd
  rw [List.map_append, List.map_cons, map_use_of_not_mem hnd.1.1, map_use_of_not_mem hnd.1.2]
  have huse : Stock.use e.node e = { e with used := true } := by simp [Stock.use]
  rw [huse]
  simp only [inUse, List.countP_append, List.countP_cons, hused, Bool.false_and, Bool.true_and,
    decide_eq_true_eq, eq_comm (a := ty')]
  simp only [Bool.false_eq_true, if_false]
  omega

/-- Of a type of which all nodes are in use, as many were allocated. -/
lemma count_eq_inUse (h : ∀ e ∈ L, e.ty = ty → e.used = true) :
    (L.map Stock.ty).count ty = inUse ty L := by
  rw [List.count_eq_countP, List.countP_map, inUse]
  refine List.countP_congr fun e he => ?_
  by_cases hty : e.ty = ty
  · simp [hty, h e he hty]
  · simp [hty]

namespace Stocked

lemma use (h : Stocked L p s) (n : NodeId) : Stocked (L.map (Stock.use n)) (p.use n) s := by
  have hnode : ∀ e : Stock, (e.use n).node = e.node := fun e => by
    unfold Stock.use
    split <;> rfl
  have hty : ∀ e : Stock, (e.use n).ty = e.ty := fun e => by
    unfold Stock.use
    split <;> rfl
  refine ⟨?_, ?_, ?_, ?_⟩
  · rw [h.pool, Pool.use, List.map_map, List.map_map]
    refine List.map_congr_left fun e _ => ?_
    by_cases hn : e.node = n
    · simp [Stock.use, hn]
    · simp [Stock.use, hn]
  · rw [h.nodes, List.map_map]
    exact List.map_congr_left fun e _ => by simp [hnode, hty]
  · rw [List.map_map, show Stock.node ∘ Stock.use n = Stock.node from funext hnode]
    exact h.nodup
  · rw [h.requests, List.map_map]
    congr 1
    exact List.map_congr_left fun e _ => by simp [hty]

lemma reset (h : Stocked L p s) : Stocked (L.map Stock.reset) p.reset s where
  pool := by
    rw [h.pool, Pool.reset, List.map_map, List.map_map]
    rfl
  nodes := by
    rw [h.nodes, List.map_map]
    rfl
  nodup := by
    rw [List.map_map]
    exact h.nodup
  requests := by
    rw [h.requests, List.map_map]
    rfl

lemma count (h : Stocked L p s) (ty : NodeType) :
    (s.requests.map Prod.fst).count (.node ty) = (L.map Stock.ty).count ty := by
  rw [h.requests, List.map_cons, List.count_cons_of_ne (by simp), List.map_map,
    List.count_eq_countP, List.count_eq_countP, List.countP_map, List.countP_map]
  refine List.countP_congr fun e _ => ?_
  simp

/-- A node is allocated. -/
lemma push (h : Stocked L p s) {m : NodeId} (hfresh : ∀ e ∈ s.nodes, e.1 ≠ m) (ty : NodeType) :
    Stocked (L ++ [⟨m, ty, true⟩]) (p ++ [(m, true)])
      ⟨s.nodes ++ [(m, ty)], s.requests ++ [(.node ty, true)]⟩ where
  pool := by simp [h.pool]
  nodes := by simp [h.nodes]
  nodup := by
    rw [List.map_append, List.map_singleton]
    refine List.Nodup.append h.nodup (List.nodup_singleton m) ?_
    intro n hn hm
    obtain ⟨e, he, rfl⟩ := List.mem_map.mp hn
    obtain hm : e.node = m := by simpa using hm
    exact hfresh (e.node, e.ty) (by rw [h.nodes]; exact List.mem_map_of_mem he) hm
  requests := by simp [h.requests]

end Stocked

/-- One more request of a type that is not used up. -/
lemma Within.ask (h : Within n s) (hs : Stocked L p s) (hall : ∀ e ∈ L, e.ty = ty → e.used = true)
    (hroom : inUse ty L < quota n (.node ty)) (N : List (NodeId × NodeType)) (ok : Bool) :
    Within n ⟨N, s.requests ++ [(.node ty, ok)]⟩ := by
  intro r
  rw [List.map_append, List.map_singleton, List.count_append]
  by_cases hr : r = .node ty
  · subst hr
    rw [hs.count, count_eq_inUse hall, List.count_singleton_self]
    exact hroom
  · rw [List.count_singleton, if_neg (by simpa using Ne.symm hr), Nat.add_zero]
    exact h r

/-! ## Programs -/

/-- A program that allocates nothing, before something else. -/
lemma wp_rest {Q : β → Record → Prop} {f : TreeM α} {g : α → TreeM β}
    (h : Prog.All recorder.Plain f) (hg : ∀ a, recorder.wp (Within n) (g a) Q s) :
    recorder.wp (Within n) (f.bind g) Q s :=
  Observer.wp_plain_seq h hg

/-- The search of the pool leaves no trace, and finds a node of the type that is not in use if
there is one. -/
lemma wp_find (hs : Stocked L p s) (ty : NodeType) (hL' : L' ⊆ L) :
    recorder.wp (Within n) (Pool.find ty (L'.map fun e => (e.node, e.used)))
      (fun r s' => s' = s ∧
        (∀ m, r = some m → ∃ e ∈ L, e.node = m ∧ e.ty = ty ∧ e.used = false) ∧
        (r = none → ∀ e ∈ L', e.ty = ty → e.used = true)) s := by
  induction L' with
  | nil => exact Observer.wp_ret ⟨rfl, by simp, by simp⟩
  | cons e L' ih =>
    have he : e ∈ L := hL' List.mem_cons_self
    have ih := ih fun x hx => hL' (List.mem_cons_of_mem _ hx)
    by_cases hused : e.used = true
    · rw [List.map_cons, Pool.find, if_pos hused]
      refine Observer.wp_mono ih fun r s' _ ⟨h1, h2, h3⟩ => ⟨h1, h2, fun hr x hx hty => ?_⟩
      rcases List.mem_cons.mp hx with rfl | hx
      · exact hused
      · exact h3 hr x hx hty
    · rw [List.map_cons, Pool.find, if_neg hused]
      refine Observer.wp_plain_act (covers_plain _ _ id) fun nty hallow => ?_
      have hnty : e.ty = nty :=
        hallow (e.node, e.ty) (by rw [hs.nodes]; exact List.mem_map_of_mem he) rfl
      by_cases hty : nty = ty
      · rw [Prog.ret_bind, if_pos hty]
        refine Observer.wp_ret ⟨rfl, fun m hm => ?_, by simp⟩
        obtain rfl : e.node = m := by simpa using hm
        exact ⟨e, he, rfl, hnty.trans hty, by simpa using hused⟩
      · rw [Prog.ret_bind, if_neg hty]
        refine Observer.wp_mono ih fun r s' _ ⟨h1, h2, h3⟩ => ⟨h1, h2, fun hr x hx hx' => ?_⟩
        rcases List.mem_cons.mp hx with rfl | hx
        · exact absurd (hnty.symm.trans hx') hty
        · exact h3 hr x hx hx'

/-- What the pool answers with: a node, of which type one more is in use; or a refusal. -/
structure Drawn (L : List Stock) (ty : NodeType) (r : Option NodeId × Pool) (s : Record) :
    Prop where
  some : ∀ m, r.1 = some m → ∃ L', Stocked L' r.2 s ∧
    ∀ ty', inUse ty' L' = inUse ty' L + if ty' = ty then 1 else 0
  none : r.1 = none → Refused s

/-- **The pool stays within the quota**, as long as each attempt does. -/
lemma wp_node (hs : Stocked L p s) (hroom : inUse ty L < quota n (.node ty)) :
    recorder.wp (Within n) (p.node ty) (Drawn L ty) s := by
  have hfind := wp_find (n := n) hs ty (List.Subset.refl L)
  rw [← hs.pool] at hfind
  refine Observer.wp_seq hfind ?_
  rintro r s' hwithin ⟨rfl, hsome, hnone⟩
  cases r with
  | some m =>
    obtain ⟨e, he, rfl, rfl, hused⟩ := hsome m rfl
    refine wp_rest (all_onTree covers_plain.tree id) fun _ => Observer.wp_ret ⟨?_, by simp⟩
    exact fun m _ => ⟨_, hs.use e.node, inUse_use hs.nodup he hused⟩
  | none =>
    refine Observer.wp_act fun r hallow => ?_
    have hnote : recorder.note (Act.tree (.allocNode ty)) r s' =
        ⟨s'.nodes ++ (Option.map (fun m => (m, ty)) r).toList,
          s'.requests ++ [(.node ty, Option.isSome r)]⟩ := rfl
    rw [hnote]
    refine ⟨hwithin.ask hs (hnone rfl) hroom _ _, ?_⟩
    cases r with
    | none => exact Observer.wp_ret ⟨by simp, fun _ => ⟨(.node ty, false), by simp, rfl⟩⟩
    | some m =>
      refine Observer.wp_ret ⟨fun _ _ => ⟨_, hs.push (hallow m rfl) ty, fun ty' => ?_⟩, by simp⟩
      rw [inUse_append]
      by_cases hty : ty' = ty
      · simp [inUse, hty]
      · simp [inUse, hty, Ne.symm hty]

end Artmap
