import Artmap.Ops.Stock
import Artmap.Tree.Build

/-!
# An insert stays within its quota (`src/raw/write.rs`, `src/arena/tree.rs`)

Every attempt of an insert starts with no node in use.  On the way down it allocates nothing; at
the bottom it builds a chain, splits a prefix or grows a node, and takes for that what the quota
has, however it ends: whatever it leaves in the pool is there for the next attempt.  So the whole
insert stays within its quota, and it fails only where a request is refused.
-/

namespace Artmap

variable {n : ℕ} {s : Record} {L : List Stock} {p : Pool} {l : Leaf} {α β : Type}

/-- What the nodes of a chain leave behind. -/
def Chained (f : α → Option β) (g : α → Pool) (r : α) (s : Record) : Prop :=
  (∀ b, f r = some b → ∃ L, Stocked L (g r) s) ∧ (f r = none → Refused s)

lemma wp_buildLinks (segs : List (List Byte × Byte)) (hs : Stocked L p s)
    (hroom : inUse .node4 L + segs.length ≤ quota n (.node .node4)) (below : Slot) :
    recorder.wp (Within n) (buildLinks segs p below) (Chained Prod.fst Prod.snd) s := by
  induction segs generalizing L p s below with
  | nil => exact Observer.wp_ret ⟨fun _ _ => ⟨L, hs⟩, by simp⟩
  | cons e segs ih =>
    obtain ⟨seg, byte⟩ := e
    rw [List.length_cons] at hroom
    refine Observer.wp_seq (wp_node hs (by omega)) fun r s' _ h => ?_
    obtain ⟨r, p'⟩ := r
    cases r with
    | none => exact Observer.wp_ret ⟨by simp, fun _ => h.none rfl⟩
    | some m =>
      obtain ⟨L', hs', huse⟩ := h.some m rfl
      have hnode : Prog.All recorder.Plain (onNode m (writePrefix seg)) :=
        all_onNode covers_plain.tree m _
      refine wp_rest hnode fun _ => wp_rest (all_typed covers_plain.tree m _) fun _ => ?_
      exact ih hs' (by rw [huse, if_pos rfl]; omega) _

/-- A chain for a prefix of at most `n` bytes. -/
lemma wp_buildChain (hs : Stocked L p s) (hL : ∀ ty, inUse ty L = 0) {pre : List Byte}
    (hpre : pre.length ≤ n) (a b : List Byte × Slot) (common : ℕ) :
    recorder.wp (Within n) (buildChain p pre a b common) (Chained Prod.fst Prod.snd) s := by
  have hlinks : (segments pre.length pre).1.length ≤ n / 17 := by
    rw [length_segments _ _ le_rfl]
    exact Nat.div_le_div_right hpre
  have hquota : quota n (.node .node4) = n / 17 + 1 := rfl
  unfold buildChain
  refine Observer.wp_seq (wp_node hs (by rw [hL]; exact quota_pos n _)) fun r s' _ h => ?_
  obtain ⟨r, p'⟩ := r
  cases r with
  | none => exact Observer.wp_ret ⟨by simp, fun _ => h.none rfl⟩
  | some bottom =>
    obtain ⟨L', hs', huse⟩ := h.some bottom rfl
    refine wp_rest (all_onNode covers_plain.tree bottom _) fun _ =>
      wp_rest (all_forkLeaf covers_plain bottom _ _ _) fun _ =>
        wp_rest (all_forkLeaf covers_plain bottom _ _ _) fun _ => ?_
    have hroom : inUse .node4 L' + (segments pre.length pre).1.reverse.length ≤
        quota n (.node .node4) := by
      rw [huse, hL, if_pos rfl, List.length_reverse, hquota]
      omega
    refine Observer.wp_seq (wp_buildLinks _ hs' hroom _) fun r s'' _ h => ?_
    obtain ⟨top, p''⟩ := r
    refine Observer.wp_ret ⟨fun b hb => ?_, fun hb => ?_⟩
    · obtain ⟨top', rfl, -⟩ := Option.map_eq_some_iff.mp hb
      exact h.1 top' rfl
    · exact h.2 (Option.map_eq_none_iff.mp hb)

/-! ## One attempt -/

/-- What an attempt leaves behind: a pool for the next one, or an answer. -/
def Tried : Pool ⊕ Landed → Record → Prop
  | .inl p, s => ∃ L, Stocked L p s
  | .inr r, s => r.outcome = none → Refused s

/-- What one level of the descent leaves behind: as long as it goes down, nothing is in use. -/
def Stepped : Level → Record → Prop
  | .inl d, s => ∃ L, Stocked L d.prep s ∧ ∀ ty, inUse ty L = 0
  | .inr r, s => Tried r s

/-- An attempt that starts over. -/
lemma wp_retry (hs : Stocked L p s) :
    recorder.wp (Within n) (.ret (.inr (.inl p)) : TreeM Level) Stepped s :=
  Observer.wp_ret ⟨L, hs⟩

/-- An insert that answers. -/
lemma wp_landed (r : Landed) {o : Outcome} (ho : r.outcome = some o) :
    recorder.wp (Within n) (.ret (.inr (.inr r)) : TreeM Level) Stepped s :=
  Observer.wp_ret fun h => by simp [ho] at h

/-- An insert that finds no room. -/
lemma wp_full (l : Leaf) (p : Pool) (h : Refused s) :
    recorder.wp (Within n) (.ret (.inr (.inr (.full l p))) : TreeM Level) Stepped s :=
  Observer.wp_ret fun _ => h

/-- A failed check is the end. -/
lemma wp_crash (Q : α → Record → Prop) : recorder.wp (Within n) (crash : TreeM α) Q s := by
  refine wp_rest (all_onTree covers_plain.tree id) fun _ => ?_
  refine Observer.wp_iter (fun _ _ => True) (fun _ s _ => ?_) trivial
  exact Observer.wp_ret (Q := fun x s => Sum.elim (fun _ => True) (Q · s) x) trivial

/-- The node is latched below a parent that is, or the attempt is over. -/
lemma wp_latched {f : ParentGuard → ℕ → TreeM Level} (hs : Stocked L p s) (parent : Parent)
    (m : NodeId) (v : ℕ) (hf : ∀ pg nw, recorder.wp (Within n) (f pg nw) Stepped s) :
    recorder.wp (Within n) (do
      let some pg ← lockParent parent (.node m) | return .inr (.inl p)
      let some nw ← tryUpgrade (.node m) v
        | do
          let _ ← pg.unlock
          return .inr (.inl p)
      f pg nw) Stepped s := by
  refine wp_rest (all_lockParent covers_plain parent _) fun pg => ?_
  cases pg with
  | none => exact wp_retry hs
  | some pg =>
    refine wp_rest (all_tryUpgrade covers_plain _ v) fun nw => ?_
    cases nw with
    | none => exact wp_rest (all_parentUnlock covers_plain pg) fun _ => wp_retry hs
    | some nw => exact hf pg nw

lemma wp_splitPrefix (hs : Stocked L p s) (hL : ∀ ty, inUse ty L = 0) (count : ℤ)
    (parent : Parent) (m : NodeId) (depth v : ℕ) (pre : PrefixSnapshot) (matched : ℕ) :
    recorder.wp (Within n) (splitPrefix l count p parent m depth v pre matched) Stepped s := by
  unfold splitPrefix
  refine wp_rest (all_validate covers_plain.tree _ v) fun ok => ?_
  cases ok with
  | false => exact wp_retry hs
  | true =>
    refine Observer.wp_seq (wp_node hs (by rw [hL]; exact quota_pos n _)) fun r s' _ h => ?_
    obtain ⟨r, p'⟩ := r
    cases r with
    | none => exact wp_full l p' (h.none rfl)
    | some split =>
      obtain ⟨L', hs', -⟩ := h.some split rfl
      refine wp_rest (all_onNode covers_plain.tree split _) fun _ =>
        wp_rest (all_typed covers_plain.tree split _) fun _ => ?_
      have hcommit : ∀ pg nw, recorder.wp (Within n) (do
          onNode m (writePrefix (pre.asSlice.drop (matched + 1)))
          onLeaf (.lenAdd count)
          publishInParent pg (.node split)
          let _ ← unlock (.node m) nw
          let _ ← pg.unlock
          return .inr (.inr
            ⟨some (.inserted l), some ⟨split, 0, depth + matched⟩, p'.commit, .disarmed⟩))
          Stepped s' :=
        fun pg nw => wp_rest (all_onNode covers_plain.tree m _) fun _ =>
          wp_rest (all_onLeaf covers_plain _) fun _ =>
            wp_rest (all_publishInParent covers_plain pg _) fun _ =>
              wp_rest (all_unlock covers_plain _ nw) fun _ =>
                wp_rest (all_parentUnlock covers_plain pg) fun _ => wp_landed _ rfl
      have hrest := wp_latched hs' parent m v hcommit
      split
      · exact wp_rest (all_onNode covers_plain.tree split _) fun _ => hrest
      · split
        · exact wp_rest (all_typed covers_plain.tree split _) fun _ => hrest
        · exact Observer.wp_seq (wp_crash fun _ _ => False) fun _ _ _ h => h.elim

lemma wp_insertExact (hs : Stocked L p s) (kind : LeafKind) (mode : Mode) (count : ℤ)
    (m : NodeId) (v : ℕ) :
    recorder.wp (Within n) (insertExact kind l mode count p m v) Stepped s := by
  unfold insertExact
  refine wp_rest (all_onNode covers_plain.tree m _) fun exact =>
    wp_rest (all_validate covers_plain.tree _ v) fun ok => ?_
  cases ok with
  | false => exact wp_retry hs
  | true =>
    cases exact with
    | node c => exact wp_crash _
    | leaf old =>
      by_cases hmode : mode = .insertIfAbsent
      · rw [hmode]
        exact wp_landed _ rfl
      · simp only [Bool.not_true, Bool.false_eq_true, if_false, hmode]
        refine wp_rest (all_tryUpgrade covers_plain _ v) fun nw => ?_
        cases nw with
        | none => exact wp_retry hs
        | some nw =>
          exact wp_rest (all_onNode covers_plain.tree m _) fun _ =>
            wp_rest (all_markRemoved covers_plain kind old) fun _ =>
              wp_rest (all_unlock covers_plain _ nw) fun _ =>
                wp_rest (all_onLeaf covers_plain _) fun _ => wp_landed _ rfl
    | null =>
      refine wp_rest (all_tryUpgrade covers_plain _ v) fun nw => ?_
      cases nw with
      | none => exact wp_retry hs
      | some nw =>
        exact wp_rest (all_onLeaf covers_plain _) fun _ =>
          wp_rest (all_onNode covers_plain.tree m _) fun _ =>
            wp_rest (all_unlock covers_plain _ nw) fun _ => wp_landed _ rfl

lemma wp_growNode (hs : Stocked L p s) (hL : ∀ ty, inUse ty L = 0) (count : ℤ)
    (parent : Parent) (m : NodeId) (v nodeDepth : ℕ) (byte : Byte) :
    recorder.wp (Within n) (growNode l count p parent m v nodeDepth byte) Stepped s := by
  unfold growNode
  refine wp_rest (all_onTree covers_plain.tree id) fun ty => ?_
  cases hty : NodeType.grown ty with
  | none => exact wp_crash _
  | some grownTy =>
    refine Observer.wp_seq (wp_node hs (by rw [hL]; exact quota_pos n _)) fun r s' _ h => ?_
    obtain ⟨r, p'⟩ := r
    cases r with
    | none => exact wp_full l p' (h.none rfl)
    | some grown =>
      obtain ⟨L', hs', -⟩ := h.some grown rfl
      refine wp_latched hs' parent m v fun pg nw => ?_
      exact wp_rest (all_copyInto covers_plain m grown) fun _ =>
        wp_rest (all_typed covers_plain.tree grown _) fun _ =>
          wp_rest (all_onLeaf covers_plain _) fun _ =>
            wp_rest (all_publishInParent covers_plain pg _) fun _ =>
              wp_rest (all_onTree covers_plain.tree id) fun _ =>
                wp_rest (all_parentUnlock covers_plain pg) fun _ =>
                  wp_rest (all_onTree covers_plain.tree id) fun _ => wp_landed _ rfl

lemma wp_insertRoom (hs : Stocked L p s) (count : ℤ) (m : NodeId) (v nodeDepth : ℕ)
    (byte : Byte) :
    recorder.wp (Within n) (insertRoom l count p m v nodeDepth byte) Stepped s := by
  unfold insertRoom
  refine wp_rest (all_tryUpgrade covers_plain _ v) fun nw => ?_
  cases nw with
  | none => exact wp_retry hs
  | some nw =>
    exact wp_rest (all_onLeaf covers_plain _) fun _ =>
      wp_rest (all_typed covers_plain.tree m _) fun _ =>
        wp_rest (all_unlock covers_plain _ nw) fun _ => wp_landed _ rfl

lemma wp_insertAtLeaf (hs : Stocked L p s) (hL : ∀ ty, inUse ty L = 0) (hn : l.key.length ≤ n)
    (kind : LeafKind) (mode : Mode) (count : ℤ) (m : NodeId) (v nodeDepth : ℕ) (byte : Byte)
    (old : Leaf) :
    recorder.wp (Within n) (insertAtLeaf kind l mode count p m v nodeDepth byte old) Stepped s := by
  unfold insertAtLeaf
  by_cases hkey : old.key = l.key
  · rw [if_pos hkey]
    by_cases hmode : mode = .insertIfAbsent
    · rw [hmode]
      exact wp_landed _ rfl
    · rw [if_neg hmode]
      refine wp_rest (all_tryUpgrade covers_plain _ v) fun nw => ?_
      cases nw with
      | none => exact wp_retry hs
      | some nw =>
        exact wp_rest (all_typed covers_plain.tree m _) fun _ =>
          wp_rest (all_markRemoved covers_plain kind old) fun _ =>
            wp_rest (all_unlock covers_plain _ nw) fun _ =>
              wp_rest (all_onLeaf covers_plain _) fun _ => wp_landed _ rfl
  · rw [if_neg hkey]
    have hpre : ∀ common, ((l.key.drop (nodeDepth + 1)).take common).length ≤ n := fun common =>
      (List.length_take_le' _ _).trans (by rw [List.length_drop]; omega)
    refine Observer.wp_seq (wp_buildChain hs hL (hpre _) _ _ _) fun r s' _ h => ?_
    obtain ⟨r, p'⟩ := r
    cases r with
    | none => exact wp_full l p' (h.2 rfl)
    | some r =>
      obtain ⟨chain, bottom⟩ := r
      obtain ⟨L', hs'⟩ := h.1 _ rfl
      refine wp_rest (all_tryUpgrade covers_plain _ v) fun nw => ?_
      cases nw with
      | none => exact wp_retry hs'
      | some nw =>
        exact wp_rest (all_onLeaf covers_plain _) fun _ =>
          wp_rest (all_typed covers_plain.tree m _) fun _ =>
            wp_rest (all_unlock covers_plain _ nw) fun _ => wp_landed _ rfl

/-- **One level of the descent**, from one where nothing is in use. -/
lemma wp_insertLevel {d : Descent} (hs : Stocked L d.prep s) (hL : ∀ ty, inUse ty L = 0)
    (hn : l.key.length ≤ n) (kind : LeafKind) (mode : Mode) (count : ℤ) :
    recorder.wp (Within n) (insertLevel kind l mode count d) Stepped s := by
  unfold insertLevel
  refine wp_rest (all_readVersion covers_plain.tree _) fun v => ?_
  cases v with
  | none => exact wp_retry hs
  | some v =>
    refine wp_rest (all_stillParent covers_plain d.parent _) fun linked => ?_
    cases linked with
    | false => exact wp_retry hs
    | true =>
      refine wp_rest (all_onNode covers_plain.tree d.node _) fun pre => ?_
      dsimp only
      generalize (if pre.isPrefixOf (l.key.drop d.depth) then pre.len
        else commonPrefix pre.asSlice (l.key.drop d.depth)) = matched
      split
      · exact wp_splitPrefix hs hL count d.parent d.node d.depth v pre matched
      · split
        · exact wp_insertExact hs kind mode count d.node v
        · split
          · exact wp_crash _
          · refine wp_rest (all_typed covers_plain.tree d.node _) fun child => ?_
            cases child with
            | node c => exact Observer.wp_ret ⟨L, hs, hL⟩
            | leaf old =>
              refine wp_rest (all_typed covers_plain.tree d.node _) fun full =>
                wp_rest (all_validate covers_plain.tree _ v) fun ok => ?_
              cases ok with
              | false => exact wp_retry hs
              | true => exact wp_insertAtLeaf hs hL hn kind mode count d.node v _ _ old
            | null =>
              refine wp_rest (all_typed covers_plain.tree d.node _) fun full =>
                wp_rest (all_validate covers_plain.tree _ v) fun ok => ?_
              cases ok with
              | false => exact wp_retry hs
              | true =>
                cases full with
                | true => exact wp_growNode hs hL count d.parent d.node v _ _
                | false => exact wp_insertRoom hs count d.node v _ _

/-! ## The whole insert -/

lemma wp_insertFirst (hs : Stocked L p s) (count : ℤ) :
    recorder.wp (Within n) (insertFirst l count p) Tried s := by
  unfold insertFirst
  refine wp_rest (all_lock covers_plain _) fun w => ?_
  cases w with
  | none => exact wp_crash _
  | some w =>
    refine wp_rest (all_onTree covers_plain.tree id) fun root => ?_
    by_cases hroot : root ≠ .null
    · rw [if_pos hroot]
      exact wp_rest (all_unlock covers_plain _ w) fun _ => Observer.wp_ret ⟨L, hs⟩
    · rw [if_neg hroot]
      exact wp_rest (all_onLeaf covers_plain _) fun _ =>
        wp_rest (all_onTree covers_plain.tree id) fun _ =>
          wp_rest (all_unlock covers_plain _ w) fun _ => Observer.wp_ret fun h => by simp at h

lemma wp_insertAtRoot (hs : Stocked L p s) (hL : ∀ ty, inUse ty L = 0) (hn : l.key.length ≤ n)
    (kind : LeafKind) (mode : Mode) (count : ℤ) (old : Leaf) :
    recorder.wp (Within n) (insertAtRoot kind l mode count p old) Tried s := by
  unfold insertAtRoot
  by_cases hkey : old.key = l.key
  · rw [if_pos hkey]
    by_cases hmode : mode = .insertIfAbsent
    · rw [hmode]
      exact Observer.wp_ret fun h => by simp at h
    · rw [if_neg hmode]
      refine wp_rest (all_lock covers_plain _) fun w => ?_
      cases w with
      | none => exact wp_crash _
      | some w =>
        refine wp_rest (all_onTree covers_plain.tree id) fun root => ?_
        by_cases hroot : root ≠ .leaf old
        · rw [if_pos hroot]
          exact wp_rest (all_unlock covers_plain _ w) fun _ => Observer.wp_ret ⟨L, hs⟩
        · rw [if_neg hroot]
          exact wp_rest (all_onTree covers_plain.tree id) fun _ =>
            wp_rest (all_markRemoved covers_plain kind old) fun _ =>
              wp_rest (all_unlock covers_plain _ w) fun _ =>
                wp_rest (all_onLeaf covers_plain _) fun _ =>
                  Observer.wp_ret fun h => by simp at h
  · rw [if_neg hkey]
    have hpre : ∀ common, (l.key.take common).length ≤ n := fun common =>
      (List.length_take_le' _ _).trans hn
    refine Observer.wp_seq (wp_buildChain hs hL (hpre _) _ _ _) fun r s' _ h => ?_
    obtain ⟨r, p'⟩ := r
    cases r with
    | none => exact Observer.wp_ret fun _ => h.2 rfl
    | some r =>
      obtain ⟨chain, bottom⟩ := r
      obtain ⟨L', hs'⟩ := h.1 _ rfl
      refine wp_rest (all_lock covers_plain _) fun w => ?_
      cases w with
      | none => exact wp_crash _
      | some w =>
        refine wp_rest (all_onTree covers_plain.tree id) fun root => ?_
        by_cases hroot : root ≠ .leaf old
        · rw [if_pos hroot]
          exact wp_rest (all_unlock covers_plain _ w) fun _ => Observer.wp_ret ⟨L', hs'⟩
        · rw [if_neg hroot]
          exact wp_rest (all_onLeaf covers_plain _) fun _ =>
            wp_rest (all_onTree covers_plain.tree id) fun _ =>
              wp_rest (all_unlock covers_plain _ w) fun _ => Observer.wp_ret fun h => by simp at h

/-- **All attempts of an insert together** stay within the quota: what an attempt leaves in the
pool is there for the next one. -/
lemma wp_insertWith_quota (hs : Stocked [] [] s) (hn : l.key.length ≤ n) (kind : LeafKind)
    (mode : Mode) (count : ℤ) :
    recorder.wp (Within n) (insertWith kind l mode count)
      (fun r s => r.outcome = none → Refused s) s := by
  refine Observer.wp_iter (fun p s => ∃ L, Stocked L p s) (fun p s hp => ?_) ⟨[], hs⟩
  obtain ⟨L, hs⟩ := hp
  have hL : ∀ ty, inUse ty (L.map Stock.reset) = 0 := fun ty => inUse_reset ty L
  have htried : ∀ {f : TreeM (Pool ⊕ Landed)} {s}, recorder.wp (Within n) f Tried s →
      recorder.wp (Within n) f (fun x s => Sum.elim (fun p => ∃ L, Stocked L p s)
        (fun r : Landed => r.outcome = none → Refused s) x) s := fun h =>
    Observer.wp_mono h fun x s _ hx => by cases x <;> exact hx
  refine wp_rest (all_onTree covers_plain.tree id) fun root => ?_
  cases root with
  | null => exact htried (wp_insertFirst hs.reset count)
  | leaf old => exact htried (wp_insertAtRoot hs.reset hL hn kind mode count old)
  | node m =>
    refine htried (Observer.wp_iter (fun (d : Descent) s =>
      ∃ L, Stocked L d.prep s ∧ ∀ ty, inUse ty L = 0) (fun d s hd => ?_) ⟨_, hs.reset, hL⟩)
    obtain ⟨L, hs, hL⟩ := hd
    exact Observer.wp_mono (wp_insertLevel hs hL hn kind mode count) fun x s _ hx => by
      cases x <;> exact hx

lemma wp_insertHinted_quota (hs : Stocked [] [] s) (hn : l.key.length ≤ n) (kind : LeafKind)
    (mode : Mode) (count : ℤ) :
    recorder.wp (Within n) (insertHinted kind l mode count)
      (fun r s => r.1 = none → Refused s) s :=
  Observer.wp_seq (wp_insertWith_quota hs hn kind mode count) fun r _ _ h =>
    wp_rest (all_release covers_plain r.prep) fun _ => Observer.wp_ret h

/-- The insert at a hint allocates nothing. -/
lemma all_insertAtHint (count : ℤ) (h : Hint) :
    Prog.All recorder.Plain (insertAtHint l count h) := by
  unfold insertAtHint
  split
  · exact .ret _
  · rename_i byte _
    refine (all_tryUpgrade covers_plain _ _).bind fun w => ?_
    cases w with
    | none => exact .ret _
    | some w =>
      have hend : ∀ full : Bool, Prog.All recorder.Plain (if full then
          (unlock (.node h.node) w).bind fun nv => .ret (none, { h with version := nv })
          else insertHere l count h byte w) := by
        intro full
        split
        · exact (all_unlock covers_plain _ w).bind fun _ => .ret _
        · exact (all_onLeaf covers_plain _).bind fun _ =>
            (all_typed covers_plain.tree _ _).bind fun _ =>
              (all_unlock covers_plain _ w).bind fun _ => .ret _
      refine (all_typed covers_plain.tree _ _).bind fun child => ?_
      by_cases hchild : child ≠ .null
      · rw [if_pos hchild]
        exact hend true
      · rw [if_neg hchild]
        exact (all_typed covers_plain.tree _ _).bind hend

lemma all_tryFast (c : InserterCache) (count : ℤ) :
    Prog.All recorder.Plain (tryFast c l count) := by
  unfold tryFast
  split
  · exact .ret _
  · exact (all_insertAtHint count _).bind fun _ => .ret _

lemma wp_dropOwner_quota {r : Option Outcome} (h : r = none → Refused s) (owner : Unpublished) :
    recorder.wp (Within n) (dropOwner r owner) (fun r s => r = none → Refused s) s := by
  cases r with
  | none => exact Observer.wp_ret h
  | some r => exact wp_rest (all_drop covers_plain owner) fun _ => Observer.wp_ret (by simp)

lemma wp_insertThrough_quota (hs : Stocked [] [] s) (hn : l.key.length ≤ n) (i : ℕ) :
    recorder.wp (Within n) (insertThrough l i) (fun r s => r = none → Refused s) s := by
  unfold insertThrough
  refine wp_rest (all_onLeaf covers_plain _) fun c =>
    wp_rest (all_tryFast c 1) fun r => wp_rest (all_onLeaf covers_plain _) fun _ => ?_
  obtain ⟨r, c'⟩ := r
  cases r with
  | some r => exact Observer.wp_ret fun h => by simp at h
  | none =>
    refine Observer.wp_seq (wp_insertHinted_quota hs hn .plain .replace 1) fun r s' _ h => ?_
    obtain ⟨r, hint, owner⟩ := r
    cases r with
    | none => exact wp_dropOwner_quota h owner
    | some o =>
      cases o with
      | inserted l' =>
        exact wp_rest (all_onLeaf covers_plain _) fun _ => wp_dropOwner_quota (by simp) owner
      | replaced l' => exact wp_dropOwner_quota (by simp) owner
      | existing l' => exact wp_dropOwner_quota (by simp) owner

/-- **The insert of the arena map**, directly or through an inserter, stays within the quota of its
key, and fails only if a request is refused. -/
theorem wp_arenaInsert_quota (hn : l.key.length ≤ n) (i : Option ℕ) :
    recorder.wp (Within n) (arenaInsert l i) (fun r s => r = none → Refused s) ⟨[], []⟩ := by
  unfold arenaInsert
  refine Observer.wp_act fun ok _ => ?_
  have hnote : recorder.note (Act.tree .allocValue) ok ⟨[], []⟩ = ⟨[], [(.value, ok)]⟩ := rfl
  rw [hnote]
  refine ⟨fun r => ?_, ?_⟩
  · refine (List.count_le_length).trans ?_
    exact quota_pos n r
  · cases ok with
    | false => exact Observer.wp_ret fun _ => ⟨(.value, false), by simp, rfl⟩
    | true =>
      have hs : Stocked [] [] ⟨[], [(.value, true)]⟩ := ⟨rfl, rfl, List.nodup_nil, rfl⟩
      cases i with
      | none =>
        show recorder.wp (Within n)
          ((insertHinted .plain l .replace 1).bind fun r => dropOwner r.1 r.2.2) _ _
        exact Observer.wp_seq (wp_insertHinted_quota hs hn .plain .replace 1)
          fun r _ _ h => wp_dropOwner_quota h r.2.2
      | some i => exact wp_insertThrough_quota hs hn i

end Artmap
