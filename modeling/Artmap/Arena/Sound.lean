import Artmap.Arena.Disjoint

/-!
# Every run of the allocator

The rely-guarantee proof of the allocator.  A thread with an allocation in progress relies on
its own slot table and hand, and on the arena it has borrowed keeping its identity; a thread that
resets an arena relies on having it alone.
-/

namespace Artmap

namespace Arena

open scoped List

/-! ## Rely -/

/-- What the other threads leave to thread `t`. -/
structure Rely (t : ℕ) (m : Mem) (g : Ghost) (m' : Mem) (g' : Ghost) : Prop where
  call : g'.call t = g.call t
  hand : g'.hand t = g.hand t
  fresh : g'.fresh t = g.fresh t
  tlab : m'.tlab t = m.tlab t
  lent : ∀ a, m'.lent a t = m.lent a t
  cell : ∀ {a c}, m.lent a t = true → m.arenas a = some c →
    ∃ c', m'.arenas a = some c' ∧ c'.id = c.id ∧ c'.capacity = c.capacity
  taken : ∀ {a}, m.taken a = some t → m'.taken a = some t ∧ m'.arenas a = m.arenas a
  unused : ∀ {id a c}, g.fresh t = some id → m'.arenas a = some c → c.id = id →
    ∃ c', m.arenas a = some c' ∧ c'.id = id
  advanced : advanced t m'.trace = advanced t m.trace
  trace : m.trace <:+ m'.trace

lemma Rely.refl (t : ℕ) (m : Mem) (g : Ghost) : Rely t m g m g where
  call := rfl
  hand := rfl
  fresh := rfl
  tlab := rfl
  lent := fun _ => rfl
  cell := fun _ hc => ⟨_, hc, rfl, rfl⟩
  taken := fun h => ⟨h, rfl⟩
  unused := fun _ hc hid => ⟨_, hc, hid⟩
  advanced := rfl
  trace := List.suffix_rfl

lemma Rely.trans {t : ℕ} {m m' m'' : Mem} {g g' g'' : Ghost} (h : Rely t m g m' g')
    (h' : Rely t m' g' m'' g'') : Rely t m g m'' g'' where
  call := h'.call.trans h.call
  hand := h'.hand.trans h.hand
  fresh := h'.fresh.trans h.fresh
  tlab := h'.tlab.trans h.tlab
  lent := fun a => (h'.lent a).trans (h.lent a)
  cell := by
    intro a c hl hc
    obtain ⟨c', hc', h1, h2⟩ := h.cell hl hc
    obtain ⟨c'', hc'', h3, h4⟩ := h'.cell ((h.lent a).trans hl) hc'
    exact ⟨c'', hc'', h3.trans h1, h4.trans h2⟩
  taken := by
    intro a ht
    obtain ⟨h1, h2⟩ := h.taken ht
    obtain ⟨h3, h4⟩ := h'.taken h1
    exact ⟨h3, h4.trans h2⟩
  unused := by
    intro id a c hf hc hid
    obtain ⟨c', hc', hid'⟩ := h'.unused (h.fresh.trans hf) hc hid
    exact h.unused hf hc' hid'
  advanced := h'.advanced.trans h.advanced
  trace := h.trace.trans h'.trace

variable {m : Mem} {g : Ghost} {t t' a : ℕ}

lemma rely_claim {c : Cell} {r : Option Region} {l : List Bool} {cur stop : ℕ} (ht : t' ≠ t)
    (hc : m.arenas a = some c) (hfree : m.taken a = none) :
    Rely t' m g (({ m with spurious := l }.modify a ({ · with cursor := stop })).note
      (.claimed t a ⟨c.id, cur, stop⟩)) (g.setHand t r) := by
  have hc' : { m with spurious := l }.arenas a = some c := hc
  refine { Rely.refl t' m g with hand := ?_, cell := ?_, taken := ?_, unused := ?_, advanced := ?_,
                                 trace := List.suffix_cons _ _ }
  · simp [Ghost.setHand, Function.update_of_ne ht]
  · intro b d _ hd
    by_cases hb : b = a
    · subst hb
      rw [hc] at hd
      simp only [Option.some.injEq] at hd
      subst hd
      exact ⟨{ c with cursor := stop }, by simp [Mem.note, Mem.modify, hc], rfl, rfl⟩
    · exact ⟨d, by simpa [Mem.note, Mem.modify, Function.update_of_ne hb] using hd, rfl, rfl⟩
  · intro b hb
    have hne : b ≠ a := fun h => by simp [h, hfree] at hb
    exact ⟨hb, by simp [Mem.note, Mem.modify, Function.update_of_ne hne]⟩
  · intro id b d _ hd hid
    rcases arenas_modify hc' hd with ⟨rfl, rfl⟩ | ⟨-, hd⟩
    · exact ⟨c, hc, hid⟩
    · exact ⟨d, hd, hid⟩
  · simp [Mem.note, Mem.modify, advanced, ht.symm]

/-- Thread `t` changes its own slots and hand, and notes what others do not look at. -/
lemma rely_own {s : Slots} {r : Option Region} {L : List Entry} (ht : t' ≠ t)
    (hL : L = m.trace ∨ ∃ r, L = .carved t r :: m.trace) :
    Rely t' m g { m with tlab := Function.update m.tlab t s, trace := L } (g.setHand t r) := by
  refine { Rely.refl t' m g with hand := ?_, tlab := ?_, advanced := ?_, trace := ?_ }
  · simp [Ghost.setHand, Function.update_of_ne ht]
  · simp [Function.update_of_ne ht]
  · rcases hL with rfl | ⟨r, rfl⟩ <;> rfl
  · rcases hL with rfl | ⟨r, rfl⟩
    · exact List.suffix_rfl
    · exact List.suffix_cons _ _

lemma rely_answer (id : ℕ) {l : Layout} {r : Option ℕ} {h : Option Region} (ht : t' ≠ t) :
    Rely t' m g
      ({ m with lent := Function.update m.lent a (Function.update (m.lent a) t false) }.note
        (.answered t a id l r)) (g.setHand t h) := by
  refine { Rely.refl t' m g with hand := ?_, lent := ?_, advanced := ?_,
                                 trace := List.suffix_cons _ _ }
  · simp [Ghost.setHand, Function.update_of_ne ht]
  · intro b
    by_cases hb : b = a
    · subst hb
      simp [Mem.note, Function.update_of_ne ht]
    · simp [Mem.note, Function.update_of_ne hb]
  · rfl

/-- The allocator as a rely-guarantee object. -/
def rg : RG object where
  Ghost := Ghost
  Inv x := Inv x.mem x.ghost
  Rely t x y := Rely t x.mem x.ghost y.mem y.ghost
  refl t x := Rely.refl t x.mem x.ghost
  trans h h' := h.trans h'
  tag g := g.call
  tag_rely h := h.call
  Allowed _ _ _ _ := True

/-- Memory, history and ghost state of the allocator. -/
abbrev W := World object Ghost

variable {live : Bool} {x y : W}

/-- An action that keeps the invariant and what the other threads rely on. -/
lemma wp_step {β : Type} {act : Act β} {Q : β → W → Prop} (g : Ghost)
    (hinv : rg.Ok live t x → Inv (exec t act x.mem).2 g)
    (hrely : rg.Ok live t x → ∀ t', t' ≠ t → Rely t' x.mem x.ghost (exec t act x.mem).2 g)
    (hcall : g.call = x.ghost.call)
    (hk : ∀ y, rg.Ok live t x → rg.Interfere live t ⟨(exec t act x.mem).2, x.hist, g⟩ y →
      rg.Ok live t y → Q (exec t act x.mem).1 y) :
    rg.wp live t (Prog.perform act) Q x :=
  RG.wp_intro fun hok => RG.wp_perform (R := rg) (a := act) trivial g
    ⟨fun t' ht' => hrely hok t' ht', congrFun hcall t, trivial⟩ (hinv hok)
    fun y hy hok' => hk y hok hy hok'

/-- A load. -/
lemma wp_load {β : Type} {act : Act β} {Q : β → W → Prop}
    (hmem : (exec t act x.mem).2 = x.mem)
    (hk : ∀ y, rg.Interfere live t x y → rg.Ok live t y → Q (exec t act x.mem).1 y) :
    rg.wp live t (Prog.perform act) Q x := by
  refine wp_step x.ghost ?_ ?_ rfl ?_
  · intro hok
    rw [hmem]
    exact hok.inv
  · intro hok t' _
    rw [hmem]
    exact Rely.refl t' _ _
  · intro y _ hy hok
    rw [hmem] at hy
    exact hk y hy hok

/-! ## Allocation -/

/-- Thread `t` allocates from arena `a`, of identity `id` and capacity `cap`. -/
structure Using (t a id cap : ℕ) (hand : Option Region) (adv : Bool) (x : W) : Prop where
  lent : x.mem.lent a t = true
  cell : ∃ c, x.mem.arenas a = some c ∧ c.id = id ∧ c.capacity = cap
  hand : x.ghost.hand t = hand
  fresh : x.ghost.fresh t = none
  advanced : advanced t x.mem.trace = adv

variable {id cap : ℕ} {hand : Option Region} {adv : Bool} {l : Layout}

lemma Using.stable (h : Using t a id cap hand adv x) (hy : rg.Interfere live t x y) :
    Using t a id cap hand adv y := by
  have hr : Rely t x.mem x.ghost y.mem y.ghost := hy.1
  obtain ⟨c, hc, h1, h2⟩ := h.cell
  obtain ⟨c', hc', h3, h4⟩ := hr.cell h.lent hc
  exact {
    lent := (hr.lent a).trans h.lent
    cell := ⟨c', hc', h3.trans h1, h4.trans h2⟩
    hand := hr.hand.trans h.hand
    fresh := hr.fresh.trans h.fresh
    advanced := hr.advanced.trans h.advanced }

lemma wp_arenaId {Q : ℕ → W → Prop} (h : Using t a id cap hand adv x)
    (hk : ∀ y, rg.Interfere live t x y → rg.Ok live t y → Q id y) :
    rg.wp live t (Prog.perform (.arenaId a)) Q x := by
  obtain ⟨c, hc, h1, -⟩ := h.cell
  refine wp_load rfl fun y hy hok => ?_
  simpa [exec, hc, h1] using hk y hy hok

lemma wp_capacity {Q : ℕ → W → Prop} (h : Using t a id cap hand adv x)
    (hk : ∀ y, rg.Interfere live t x y → rg.Ok live t y → Q cap y) :
    rg.wp live t (Prog.perform (.capacity a)) Q x := by
  obtain ⟨c, hc, -, h2⟩ := h.cell
  refine wp_load rfl fun y hy hok => ?_
  simpa [exec, hc, h2] using hk y hy hok

/-- In case `live = true`, the thread has seen the cursor as it is. -/
def Current (live : Bool) (a cur : ℕ) (x : W) : Prop :=
  live = true → ∃ c, x.mem.arenas a = some c ∧ c.cursor = cur

lemma Inv.spurious (hi : Inv m g) (l : List Bool) : Inv { m with spurious := l } g :=
  { hi with
    held := hi.held.congr rfl rfl rfl
    drawn := fun hr => hi.drawn (hr.congr rfl rfl rfl fun h => h)
    below := fun hr => hi.below (hr.congr rfl rfl rfl fun h => h) }

/-- A claim of the bytes from the cursor to `stop`, of which those from `start` on are kept. -/
lemma wp_compareExchange {Q : Option ℕ → W → Prop} {cur start stop : ℕ}
    (h : Using t a id cap none adv x) (hcur : Current live a cur x) (hstart : cur ≤ start)
    (hstop : start ≤ stop) (hcap : stop ≤ cap)
    (hok : ∀ y, rg.Ok live t y → Using t a id cap (some ⟨id, start, stop⟩) true y →
      .claimed t a ⟨id, cur, stop⟩ ∈ y.mem.trace → Q none y)
    (hfail : ∀ actual y, rg.Ok live t y → Using t a id cap none adv y →
      Current live a actual y → (live = true → actual = cur ∧
        y.mem.spurious.length < x.mem.spurious.length) → Q (some actual) y) :
    rg.wp live t (Prog.perform (.compareExchange a cur stop)) Q x := by
  obtain ⟨c, hc, h1, h2⟩ := h.cell
  subst h1 h2
  by_cases hs : c.cursor = cur ∧ x.mem.spurious.headD false = false
  · have hexec : exec t (.compareExchange a cur stop) x.mem = (none,
        ({ x.mem with spurious := x.mem.spurious.tail }.modify a ({ · with cursor := stop })).note
          (.claimed t a ⟨c.id, c.cursor, stop⟩)) := by
      rw [← hs.1]
      simp only [exec, hc]
      rw [if_pos ⟨trivial, hs.2⟩]
    obtain ⟨rfl, -⟩ := hs
    refine wp_step (x.ghost.setHand t (some ⟨c.id, start, stop⟩)) ?_ ?_ rfl ?_
    · intro hx
      rw [hexec]
      exact Inv.claim hx.inv hx.running hc (Inv.lent hx.inv h.lent).2 hstart hstop hcap
    · intro hx t' ht'
      rw [hexec]
      exact rely_claim ht' hc (Inv.lent hx.inv h.lent).2
    · intro y hx hy hoky
      rw [hexec] at hy ⊢
      refine hok y hoky (Using.stable ?_ hy) ((Rely.trace hy.1).subset List.mem_cons_self)
      exact {
        lent := h.lent
        cell := ⟨{ c with cursor := stop }, by simp [Mem.note, Mem.modify, hc], rfl, rfl⟩
        hand := by simp [Ghost.setHand]
        fresh := h.fresh
        advanced := by simp [Mem.note, Mem.modify, Arena.advanced] }
  · have hexec : exec t (.compareExchange a cur stop) x.mem = (some c.cursor,
        { x.mem with spurious := x.mem.spurious.tail }) := by
      simp only [exec, hc, if_neg hs]
    refine wp_step x.ghost ?_ ?_ rfl ?_
    · intro hx
      rw [hexec]
      exact Inv.spurious hx.inv _
    · intro hx t' ht'
      rw [hexec]
      exact { Rely.refl t' x.mem x.ghost with }
    · intro y hx hy hoky
      rw [hexec] at hy ⊢
      refine hfail _ y hoky (Using.stable ?_ hy) ?_ ?_
      · exact ⟨h.lent, h.cell, h.hand, h.fresh, h.advanced⟩
      · intro hl
        rw [hy.2 hl]
        exact ⟨c, hc, rfl⟩
      · intro hl
        obtain ⟨c', hc', hcur'⟩ := hcur hl
        rw [hc] at hc'
        simp only [Option.some.injEq] at hc'
        subst hc'
        refine ⟨hcur', ?_⟩
        rw [hy.2 hl]
        have hhead : x.mem.spurious.headD false ≠ false := fun h0 => hs ⟨hcur', h0⟩
        cases hsp : x.mem.spurious with
        | nil => simp [hsp] at hhead
        | cons b bs => simp

/-- What an allocation has in hand when it answers. -/
structure Granted (t a id cap : ℕ) (align size off : ℕ) (x : W) : Prop where
  using_ : ∃ adv, Using t a id cap (some ⟨id, off, off + size⟩) adv x
  align : align ∣ off
  fits : off + size ≤ cap
  origin : .carved t ⟨id, off, off + size⟩ ∈ x.mem.trace ∨
    ∃ cur ≤ off, .claimed t a ⟨id, cur, off + size⟩ ∈ x.mem.trace

variable {align size : ℕ}

lemma Using.cap_le (h : Using t a id cap hand adv x) (hx : rg.Ok live t x) :
    cap ≤ maxArenaSize := by
  obtain ⟨c, hc, -, h2⟩ := h.cell
  rw [← h2]
  exact (Inv.cell hx.inv hc).2.2.2.2

/-- No chunk of the arena is dead. -/
lemma Using.not_dead (h : Using t a id cap hand adv x) (hx : rg.Ok live t x) :
    ¬ Dead id x.mem.trace := by
  obtain ⟨c, hc, h1, -⟩ := h.cell
  exact fun hd => Inv.dead hx.inv hd hc h1

/-- A request is carved from a slot of the thread, or there is none with room. -/
lemma wp_take {Q : Option ℕ → W → Prop} (ha : ∃ k ≤ 6, align = 2 ^ k)
    (h : Using t a id cap none adv x)
    (hok : ∀ off y, rg.Ok live t y → Granted t a id cap align size off y → Q (some off) y)
    (hnone : take (x.mem.tlab t) id align size = none →
      ∀ y, rg.Ok live t y → rg.Interfere live t x y → Q none y) :
    rg.wp live t (Prog.perform (.take id align size)) Q x := by
  cases htake : take (x.mem.tlab t) id align size with
  | none =>
    have hexec : exec t (.take id align size) x.mem = (none, x.mem) := by
      simp only [exec, htake]
      rfl
    refine wp_load (by rw [hexec]) fun y hy hoky => ?_
    rw [hexec]
    exact hnone htake y hoky hy
  | some r =>
    obtain ⟨start, s⟩ := r
    obtain ⟨i, hid, halign, hcur, hstop, rfl⟩ := take_eq_some ha htake
    refine RG.wp_intro fun hx => ?_
    obtain ⟨c, hc, h1, h2⟩ := h.cell
    have hle : (x.mem.tlab t i).stop ≤ c.cursor :=
      (Inv.below hx.inv (r := (x.mem.tlab t i).region) (.held (.slot t i) rfl) hc
        (h1.trans hid.symm)).2
    have hcap := h.cap_le hx
    have hcell := Inv.cell hx.inv hc
    rw [maxArenaSize_eq] at hcap
    have hlt : start < 2 ^ 32 := by omega
    have hexec : exec t (.take id align size) x.mem = (some start,
        (x.mem.setSlot t i { x.mem.tlab t i with cur := start + size }).note
          (.carved t ⟨id, start, start + size⟩)) := by
      simp only [exec, htake, if_pos hlt]
      rfl
    refine wp_step (x.ghost.setHand t (some ⟨id, start, start + size⟩)) ?_ ?_ rfl ?_
    · intro _
      rw [hexec]
      have hd := h.not_dead hx
      subst hid
      exact Inv.carve hx.inv hx.running hcur hstop hd
    · intro _ t' ht'
      rw [hexec]
      exact rely_own ht' (.inr ⟨_, rfl⟩)
    · intro y _ hy hoky
      rw [hexec] at hy ⊢
      refine hok start y hoky ⟨⟨adv, Using.stable ?_ hy⟩, halign, by omega, .inl ?_⟩
      · exact ⟨h.lent, h.cell, by simp [Ghost.setHand], h.fresh, h.advanced⟩
      · exact (Rely.trace hy.1).subset List.mem_cons_self

/-- The chunk in hand is installed. -/
lemma wp_install {Q : Unit → W → Prop} {start stop : ℕ}
    (h : Using t a id cap (some ⟨id, start, stop⟩) adv x)
    (hk : ∀ y, rg.Ok live t y → Using t a id cap none adv y →
      (∃ s, y.mem.tlab t = install s id start stop) → Q () y) :
    rg.wp live t (Prog.perform (.install id start stop)) Q x := by
  refine wp_step (x.ghost.setHand t none) ?_ ?_ rfl ?_
  · exact fun hx => Inv.install (r := ⟨id, start, stop⟩) hx.inv h.hand
  · exact fun _ t' ht' => rely_own ht' (.inl rfl)
  · intro y _ hy hoky
    refine hk y hoky (Using.stable ?_ hy) ⟨x.mem.tlab t, ?_⟩
    · exact ⟨h.lent, h.cell, by simp [Ghost.setHand], h.fresh, h.advanced⟩
    · rw [(Rely.tlab hy.1 : y.mem.tlab t = _)]
      simp [exec]

/-- A refill, which only happens under contention, serves the request or has claimed
nothing. -/
lemma wp_refill {Q : Option ℕ → W → Prop} {cur : ℕ} (hl : live = false)
    (ha : ∃ k ≤ 6, align = 2 ^ k) (hsize : size + align < 2 ^ 64)
    (h : Using t a id cap none false x)
    (hok : ∀ off y, rg.Ok live t y → Granted t a id cap align size off y → Q (some off) y)
    (hnone : ∀ y, rg.Ok live t y → Using t a id cap none false y → Q none y) :
    rg.wp live t (refill a align size cur) Q x := by
  refine RG.wp_iter (R := rg) (δ := ℕ) (I := fun _ y => Using t a id cap none false y)
    (μ := fun _ _ => 0) ?_ h
  intro cur x h
  refine RG.wp_seq (K := fun c y => cap = c ∧ Using t a id cap none false y)
    (wp_capacity h fun y hy _ => ⟨rfl, Using.stable h hy⟩) ?_
  rintro _ x hx ⟨rfl, h⟩
  cases hchunk : chunkAt cap align size cur with
  | none => exact RG.wp_ret (hnone x hx h)
  | some r =>
    obtain ⟨start, stop⟩ := r
    obtain ⟨h1, h2, h3, h4⟩ := chunkAt_eq_some hchunk
    rw [Nat.mod_eq_of_lt hsize] at h3
    have hcap := h.cap_le hx
    rw [maxArenaSize_eq] at hcap
    refine RG.wp_bind (wp_compareExchange h (fun hl' => by simp [hl] at hl') h2 (by omega) h4
      ?_ ?_)
    · intro x _ h _
      refine RG.wp_seq (K := fun i y => id = i ∧ Using t a id cap (some ⟨id, start, stop⟩) true y)
        (wp_arenaId h fun y hy _ => ⟨rfl, Using.stable h hy⟩) ?_
      rintro _ x - ⟨rfl, h⟩
      refine RG.wp_bind (wp_install h fun x _ h hs => ?_)
      obtain ⟨s, hs⟩ := hs
      refine RG.wp_seq (K := fun i (y : W) => id = i ∧ Using t a id cap none true y ∧
          y.mem.tlab t = install s id start stop)
        (wp_arenaId h fun y hy _ => ⟨rfl, Using.stable h hy, (Rely.tlab hy.1).trans hs⟩) ?_
      rintro _ x - ⟨rfl, h, hs⟩
      refine RG.wp_seq (K := fun r y => ∃ off, r = some off ∧
        Granted t a id cap align size off y) (wp_take ha h ?_ ?_) ?_
      · exact fun off y _ hgr => ⟨off, rfl, hgr⟩
      · intro hno
        obtain ⟨s', hs'⟩ := take_install s id ha h1 h3 (by omega)
        rw [hs, hs'] at hno
        simp at hno
      · rintro _ y hy ⟨off, rfl, hgr⟩
        exact RG.wp_ret (hok off y hy hgr)
    · intro actual y _ h _ _
      exact RG.wp_ret ⟨h, fun hl' => by simp [hl] at hl'⟩

/-- The compare-exchange of a round. -/
lemma wp_bump {Q : Option ℕ → W → Prop} {cur start stop : ℕ} {contended : Bool}
    (h : Using t a id cap none false x) (hcur : Current live a cur x)
    (hcont : live = true → contended = false) (halign : align ∣ start) (hstart : cur ≤ start)
    (hstop : stop = start + size) (hcap : stop ≤ cap)
    (hok : ∀ off y, rg.Ok live t y → Granted t a id cap align size off y → Q (some off) y) :
    rg.wp live t (bump a start stop cur contended) (fun r y => Sum.elim
      (fun s : ℕ × Bool => (Using t a id cap none false y ∧ Current live a s.1 y ∧
        (live = true → s.2 = false)) ∧
        (live = true → y.mem.spurious.length < x.mem.spurious.length))
      (fun r => Q r y) r) x := by
  subst hstop
  refine RG.wp_intro fun hx => ?_
  have hmax := h.cap_le hx
  rw [maxArenaSize_eq] at hmax
  have htrunc : start % 2 ^ 32 = start := Nat.mod_eq_of_lt (by omega)
  refine RG.wp_bind (wp_compareExchange h hcur hstart (Nat.le_add_right _ _) hcap ?_ ?_)
  · intro y hy hu htr
    refine RG.wp_ret ?_
    simp only [htrunc, Sum.elim_inr]
    exact hok start y hy ⟨⟨true, hu⟩, halign, hcap, .inr ⟨cur, hstart, htr⟩⟩
  · intro actual y hy hu hc hl
    refine RG.wp_ret ⟨⟨hu, hc, fun h => ?_⟩, fun h => (hl h).2⟩
    simp [hcont h, (hl h).1]

/-- An allocation answers a region it has in hand, or has claimed nothing. -/
lemma wp_alloc {Q : Option ℕ → W → Prop} (h : Using t a id cap none false x)
    (hok : ∀ off y, rg.Ok live t y → Granted t a id cap l.align l.bytes off y → Q (some off) y)
    (hnone : ∀ y, rg.Ok live t y → Using t a id cap none false y → Q none y) :
    rg.wp live t (alloc a l) Q x := by
  refine RG.wp_seq (K := fun i y => id = i ∧ Using t a id cap none false y)
    (wp_arenaId h fun y hy _ => ⟨rfl, Using.stable h hy⟩) ?_
  rintro _ x - ⟨rfl, h⟩
  refine RG.wp_bind (wp_take l.align_pow h (fun off y hy hgr => RG.wp_ret (hok off y hy hgr)) ?_)
  intro _ x _ hx
  replace h := Using.stable h hx
  refine RG.wp_seq (K := fun cur y => Using t a id cap none false y ∧ Current live a cur y)
    (wp_load rfl fun y hy _ => ⟨Using.stable h hy, fun hl => ?_⟩) ?_
  · obtain ⟨c, hc, -⟩ := h.cell
    rw [hy.2 hl]
    exact ⟨c, hc, by simp [exec, hc]⟩
  rintro cur x - ⟨h, hcur⟩
  refine RG.wp_iter (R := rg) (δ := ℕ) (I := fun (s : ℕ × Bool) y => Using t a id cap none false y ∧
      Current live a s.1 y ∧ (live = true → s.2 = false))
    (μ := fun _ y => y.mem.spurious.length) ?_ ⟨h, hcur, fun _ => rfl⟩
  rintro ⟨cur, contended⟩ x ⟨h, hcur, hcont⟩
  refine RG.wp_seq (K := fun c y => cap = c ∧ Using t a id cap none false y ∧
      Current live a cur y ∧ (live = true → y = x))
    (wp_capacity h fun y hy _ => ⟨rfl, Using.stable h hy, fun hl => ?_, hy.2⟩) ?_
  · rw [hy.2 hl]
    exact hcur hl
  rintro _ y hy ⟨rfl, h, hcur, hsame⟩
  cases hfit : fitAt cap l.align l.bytes cur with
  | none => exact RG.wp_ret (hnone y hy h)
  | some r =>
    obtain ⟨start, stop⟩ := r
    obtain ⟨h1, h2, h3, h4⟩ := fitAt_eq_some l.align_pow hfit
    have hbump : ∀ z, Using t a id cap none false z → Current live a cur z →
        (live = true → z = x) → rg.wp live t (bump a start stop cur contended)
          (fun r w => Sum.elim (fun s : ℕ × Bool => (Using t a id cap none false w ∧
            Current live a s.1 w ∧ (live = true → s.2 = false)) ∧
            (live = true → w.mem.spurious.length < x.mem.spurious.length))
            (fun r => Q r w) r) z := by
      intro z hz hcz hzx
      refine RG.wp_mono (wp_bump hz hcz hcont h1 h2 h3 h4 hok) fun r w _ hr => ?_
      cases r with
      | inl s =>
        refine ⟨hr.1, fun hl => ?_⟩
        rw [← hzx hl]
        exact hr.2 hl
      | inr r => exact hr
    dsimp only
    by_cases hc : contended = true
    · have hl : live = false := Bool.eq_false_iff.mpr fun hl =>
        Bool.false_ne_true ((hcont hl).symm.trans hc)
      rw [if_pos hc]
      refine RG.wp_bind (wp_refill hl l.align_pow ?_ h ?_ ?_)
      · obtain ⟨k, hk, hpow⟩ := l.align_pow
        have := Nat.pow_le_pow_right (n := 2) (by norm_num) hk
        have hcap := h.cap_le hy
        rw [maxArenaSize_eq] at hcap
        omega
      · exact fun off z hz hgr => RG.wp_ret (hok off z hz hgr)
      · exact fun z _ hz => hbump z hz (fun h => by simp [hl] at h) fun h => by simp [hl] at h
    · rw [if_neg hc]
      exact hbump y h hcur hsame

/-! ## Creation and reset -/

lemma rely_draw (ht : t' ≠ t) :
    Rely t' m g { m with nextId := m.nextId + 1 } (g.setFresh t (some m.nextId)) :=
  { Rely.refl t' m g with fresh := by simp [Ghost.setFresh, Function.update_of_ne ht] }

/-- Other threads do not rely on an arena that is new. -/
lemma rely_create (hi : Inv m g) {id capacity : ℕ} (ht : t' ≠ t) (hf : g.fresh t = some id) :
    Rely t' m g { m with
      arenas := Function.update m.arenas m.count (some ⟨id, arenaAlign, capacity⟩)
      count := m.count + 1 } (g.setFresh t none) := by
  have hnew : m.arenas m.count = none := (hi.count _).mpr le_rfl
  refine { Rely.refl t' m g with fresh := ?_, cell := ?_, taken := ?_, unused := ?_ }
  · simp [Ghost.setFresh, Function.update_of_ne ht]
  · intro b d _ hd
    have hb : b ≠ m.count := fun h => by simp [h, hnew] at hd
    exact ⟨d, by simpa [Function.update_of_ne hb] using hd, rfl, rfl⟩
  · intro b hb
    have hne : b ≠ m.count := fun h => hi.taken hb (h ▸ hnew)
    exact ⟨hb, by simp [Function.update_of_ne hne]⟩
  · intro id' b d hf' hd hid
    by_cases hb : b = m.count
    · subst hb
      have : d = ⟨id, arenaAlign, capacity⟩ := by simpa using hd.symm
      subst this
      simp only at hid
      exact absurd ((hi.fresh hf).2.2.1 t' (hid ▸ hf')) ht
    · exact ⟨d, by simpa [Function.update_of_ne hb] using hd, hid⟩

/-- Other threads do not rely on an arena that thread `t` has alone. -/
lemma rely_modify (hi : Inv m g) {f : Cell → Cell} {c : Cell} {L : List Entry} {id : ℕ}
    {o : Option ℕ} (ht : t' ≠ t) (htaken : m.taken a = some t) (hc : m.arenas a = some c)
    (hf : g.fresh t = some id) (hid : (f c).id = id)
    (hL : L = m.trace ∨ L = .reset a :: m.trace) :
    Rely t' m g { m.modify a f with trace := L } (g.setFresh t o) := by
  refine { Rely.refl t' m g with fresh := ?_, cell := ?_, taken := ?_, unused := ?_,
                                 advanced := ?_, trace := ?_ }
  · simp [Ghost.setFresh, Function.update_of_ne ht]
  · intro b d hl hd
    have hb : b ≠ a := fun h => by
      have := (hi.lent hl).2
      rw [h, htaken] at this
      simp at this
    exact ⟨d, by simpa [Mem.modify, Function.update_of_ne hb] using hd, rfl, rfl⟩
  · intro b hb
    have hne : b ≠ a := fun h => by
      rw [h, htaken] at hb
      exact ht (by simpa using hb.symm)
    exact ⟨hb, by simp [Mem.modify, Function.update_of_ne hne]⟩
  · intro id' b d hf' hd hid'
    rcases arenas_modify hc hd with ⟨rfl, rfl⟩ | ⟨-, hd⟩
    · exact absurd ((hi.fresh hf).2.2.1 t' ((hid.symm.trans hid') ▸ hf')) ht
    · exact ⟨d, hd, hid'⟩
  · rcases hL with rfl | rfl <;> rfl
  · rcases hL with rfl | rfl
    · exact List.suffix_rfl
    · exact List.suffix_cons _ _

/-- Thread `t` has drawn an identity that no arena has. -/
structure Drawn (t id : ℕ) (x : W) : Prop where
  fresh : x.ghost.fresh t = some id
  hand : x.ghost.hand t = none
  unused : ∀ a c, x.mem.arenas a = some c → c.id ≠ id

lemma Drawn.stable (h : Drawn t id x) (hy : rg.Interfere live t x y) : Drawn t id y := by
  have hr : Rely t x.mem x.ghost y.mem y.ghost := hy.1
  refine ⟨hr.fresh.trans h.fresh, hr.hand.trans h.hand, fun a c hc hid => ?_⟩
  obtain ⟨c', hc', hid'⟩ := hr.unused h.fresh hc hid
  exact h.unused a c' hc' hid'

lemma wp_nextArenaId {Q : ℕ → W → Prop} (hh : x.ghost.hand t = none)
    (hk : ∀ id y, rg.Ok live t y → Drawn t id y →
      (∀ a, x.mem.taken a = some t → y.mem.taken a = some t) → Q id y) :
    rg.wp live t (Prog.perform .nextArenaId) Q x := by
  refine wp_step (x.ghost.setFresh t (some x.mem.nextId)) ?_ ?_ rfl ?_
  · exact fun hx => Inv.draw hx.inv hx.running
  · exact fun _ t' ht' => rely_draw ht'
  · intro y hx hy hoky
    refine hk _ y hoky (Drawn.stable ?_ hy) fun a ha => (Rely.taken hy.1 ha).1
    refine ⟨by simp [Ghost.setFresh, exec], hh, fun a c hc hid => ?_⟩
    have h1 := (Inv.cell hx.inv hc).2.1
    have h2 : c.id = x.mem.nextId := hid
    omega

/-- What is left of a call when it answers. -/
structure Done (t : ℕ) (x : W) : Prop where
  hand : x.ghost.hand t = none
  fresh : x.ghost.fresh t = none

lemma Done.stable (h : Done t x) (hy : rg.Interfere live t x y) : Done t y :=
  ⟨(Rely.hand hy.1).trans h.hand, (Rely.fresh hy.1).trans h.fresh⟩

lemma wp_new {capacity : ℕ} {Q : ℕ → W → Prop} (h : Done t x)
    (hk : ∀ a y, rg.Ok live t y → Done t y → Q a y) :
    rg.wp live t (new capacity) Q x := by
  refine RG.wp_bind (wp_nextArenaId h.hand fun id x _ h _ => ?_)
  have hmax := maxArenaSize_eq
  set c := max arenaAlign (min capacity maxArenaSize) with hcdef
  have hc1 : arenaAlign ≤ c := le_max_left _ _
  have hc2 : c ≤ maxArenaSize := by
    refine max_le ?_ (min_le_right _ _)
    rw [hmax]
    decide
  have halign : alignDown c arenaAlign = c / 2 ^ 6 * 2 ^ 6 :=
    alignDown_eq (k := 6) (by omega) le_rfl
  have h64 : arenaAlign = 64 := rfl
  refine wp_step (x.ghost.setFresh t none) ?_ ?_ rfl ?_
  · refine fun hx => Inv.create hx.inv h.fresh h.unused ?_ ?_ <;> omega
  · exact fun hx t' ht' => rely_create hx.inv ht' h.fresh
  · intro y _ hy hoky
    refine hk _ y hoky (Done.stable ?_ hy)
    exact ⟨h.hand, Function.update_self _ _ _⟩

lemma wp_reset {Q : Unit → W → Prop} (h : Done t x) (ht : x.mem.taken a = some t)
    (hk : ∀ y, rg.Ok live t y → Done t y → Q () y) :
    rg.wp live t (reset a) Q x := by
  refine RG.wp_bind (wp_nextArenaId h.hand fun id x hx h htaken => ?_)
  replace ht := htaken a ht
  obtain ⟨c, hc⟩ := Option.ne_none_iff_exists'.mp (Inv.taken hx.inv ht)
  refine RG.wp_bind (wp_step x.ghost ?_ ?_ rfl ?_)
  · exact fun hx => Inv.setId hx.inv h.fresh h.unused hc ht
  · intro hx t' ht'
    have := rely_modify (o := some id) (f := fun x => { x with id := id }) hx.inv ht' ht hc h.fresh
      rfl (.inr rfl)
    rwa [Ghost.setFresh, ← h.fresh, Function.update_eq_self] at this
  intro x₁ _ hx₁ hok₁
  have hc₁ : x₁.mem.arenas a = some { c with id := id } := by
    rw [(Rely.taken hx₁.1 ht).2]
    simp [exec, Mem.note, Mem.modify, hc]
  have ht₁ : x₁.mem.taken a = some t := (Rely.taken hx₁.1 ht).1
  have hf₁ : x₁.ghost.fresh t = some id := (Rely.fresh hx₁.1).trans h.fresh
  have hh₁ : x₁.ghost.hand t = none := (Rely.hand hx₁.1).trans h.hand
  refine RG.wp_bind (wp_step (x₁.ghost.setFresh t none) ?_ ?_ rfl ?_)
  · exact fun hx => Inv.setCursor hx.inv hf₁ hc₁ rfl
  · exact fun hx t' ht' =>
      rely_modify (f := fun x => { x with cursor := arenaAlign }) hx.inv ht' ht₁ hc₁ hf₁ rfl
        (.inl rfl)
  intro x₂ _ hx₂ hok₂
  have ht₂ : x₂.mem.taken a = some t := (Rely.taken hx₂.1 ht₁).1
  have hd₂ : Done t x₂ := by
    refine Done.stable ?_ hx₂
    exact ⟨hh₁, Function.update_self _ _ _⟩
  refine wp_step x₂.ghost ?_ ?_ rfl ?_
  · exact fun hx => Inv.giveBack hx.inv ht₂ hd₂.fresh
  · intro _ t' ht'
    refine { Rely.refl t' x₂.mem x₂.ghost with taken := fun {b} hb => ?_ }
    have hne : b ≠ a := fun h => by
      rw [h, ht₂] at hb
      exact ht' (by simpa using hb.symm)
    exact ⟨by simpa [exec, Function.update_of_ne hne] using hb, rfl⟩
  · intro y _ hy hoky
    refine hk y hoky (Done.stable ?_ hy)
    exact ⟨hd₂.hand, hd₂.fresh⟩

/-! ## All runs -/

lemma wp_answer {Q : Unit → W → Prop} {r : Option ℕ}
    (h : match r with
      | none => Using t a id cap none false x
      | some off => Granted t a id cap l.align l.bytes off x)
    (hk : ∀ y, rg.Ok live t y → Done t y → Q () y) :
    rg.wp live t (Prog.perform (.answer a l r)) Q x := by
  have hlent : ∀ {b t'}, Function.update x.mem.lent a (Function.update (x.mem.lent a) t false) b t'
      = true → x.mem.lent b t' = true := by
    intro b t' hb
    by_cases hba : b = a
    · subst hba
      by_cases ht : t' = t
      · simp [ht] at hb
      · simpa [Function.update_of_ne ht] using hb
    · simpa [Function.update_of_ne hba] using hb
  cases r with
  | none =>
    have hown : x.ghost.setHand t none = x.ghost := by
      rw [Ghost.setHand, ← h.hand, Function.update_eq_self]
    refine wp_step x.ghost ?_ ?_ rfl ?_
    · exact fun hx => Inv.answer_none hx.inv hlent h.advanced
    · intro _ t' ht'
      have := rely_answer (m := x.mem) (g := x.ghost) (a := a) (l := l) (r := none) (h := none)
        ((x.mem.arenas a).elim 0 (·.id)) ht'
      rwa [hown] at this
    · intro y _ hy hoky
      refine hk y hoky (Done.stable ?_ hy)
      exact ⟨h.hand, h.fresh⟩
  | some off =>
    obtain ⟨⟨adv, hu⟩, halign, hfits, hfrom⟩ := h
    obtain ⟨c, hc, h1, h2⟩ := hu.cell
    subst h1 h2
    have hexec : exec t (.answer a l (some off)) x.mem = ((), { x.mem with
        lent := Function.update x.mem.lent a (Function.update (x.mem.lent a) t false) }.note
          (.answered t a c.id l (some off))) := by
      simp only [exec, hc]
      rfl
    refine wp_step (x.ghost.setHand t none) ?_ ?_ rfl ?_
    · intro hx
      rw [hexec]
      exact Inv.answer hx.inv hlent hc hu.hand halign hfits hfrom
    · intro _ t' ht'
      rw [hexec]
      exact rely_answer _ ht'
    · intro y _ hy hoky
      refine hk y hoky (Done.stable ?_ hy)
      exact ⟨Function.update_self _ _ _, hu.fresh⟩

/-- Thread `t` has made its call and done nothing yet. -/
def Begun (t : ℕ) (op : Op) (x : W) : Prop :=
  Done t x ∧ match op with
    | .new _ => True
    | .alloc a _ => ∃ id cap, Using t a id cap none false x
    | .reset a => x.mem.taken a = some t

lemma Begun.stable {op : Op} (h : Begun t op x) (hy : Rely t x.mem x.ghost y.mem y.ghost) :
    Begun t op y := by
  have hi : rg.Interfere false t x y := .of_rely hy
  refine ⟨h.1.stable hi, ?_⟩
  cases op with
  | new capacity => trivial
  | alloc a l =>
    obtain ⟨id, cap, hu⟩ := h.2
    exact ⟨id, cap, hu.stable hi⟩
  | reset a => exact (hy.taken h.2).1

lemma wp_code {op : Op} (h : Begun t op x) : rg.wp live t (code op) (fun _ y => Done t y) x := by
  obtain ⟨hd, hop⟩ := h
  cases op with
  | new capacity => exact RG.wp_bind (wp_new hd fun a y _ hy => RG.wp_ret hy)
  | alloc a l =>
    obtain ⟨id, cap, hu⟩ := hop
    refine RG.wp_bind (wp_alloc hu ?_ ?_)
    · exact fun off y _ hgr => RG.wp_bind (wp_answer hgr fun z _ hz => RG.wp_ret hz)
    · exact fun y _ hy => RG.wp_bind (wp_answer hy fun z _ hz => RG.wp_ret hz)
  | reset a => exact RG.wp_bind (wp_reset hd hop fun y _ hy => RG.wp_ret hy)

/-- Thread `t` begins, or ends, a call. -/
def Ghost.setCall (g : Ghost) (t : ℕ) (c : Option (ℕ × Op)) : Ghost :=
  { g with call := Function.update g.call t c }

lemma Inv.setCall (hi : Inv m g) (c : Option (ℕ × Op)) (hh : g.hand t = none)
    (hf : g.fresh t = none) : Inv m (g.setCall t c) := by
  refine { hi with held := hi.held.congr rfl rfl rfl,
                   drawn := fun hr => hi.drawn (hr.congr rfl rfl rfl fun h => h),
                   below := fun hr => hi.below (hr.congr rfl rfl rfl fun h => h), idle := ?_ }
  intro t' hc
  by_cases ht : t' = t
  · subst ht
    exact ⟨hh, hf⟩
  · exact hi.idle (by simpa [Ghost.setCall, Function.update_of_ne ht] using hc)

lemma rely_setCall {c : Option (ℕ × Op)} (ht : t' ≠ t) : Rely t' m g m (g.setCall t c) :=
  { Rely.refl t' m g with call := by simp [Ghost.setCall, Function.update_of_ne ht] }

/-- The invocation of an operation. -/
lemma start_ok {op : Op} {m' : Mem} (hi : Inv m g) (hh : g.hand t = none) (hf : g.fresh t = none)
    (hstart : start t op m m') (hist : List (Event Op Ret)) :
    Inv m' g ∧ Begun t op ⟨m', hist, g⟩ ∧ ∀ t', t' ≠ t → Rely t' m g m' g := by
  cases op with
  | new capacity =>
    obtain rfl : m' = m := hstart
    exact ⟨hi, ⟨⟨hh, hf⟩, trivial⟩, fun t' _ => Rely.refl t' _ _⟩
  | alloc a l =>
    obtain ⟨ha, hfree, rfl⟩ := hstart
    obtain ⟨c, hc⟩ := Option.ne_none_iff_exists'.mp ha
    have hcl : ∀ {t' a' r}, Entry.claimed t' a' r ∈ Entry.begun t a :: m.trace →
        Entry.claimed t' a' r ∈ m.trace := fun h => by simpa using h
    refine ⟨?_, ⟨⟨hh, hf⟩, c.id, c.capacity, ?_⟩, fun t' ht' => ?_⟩
    · refine { hi with held := hi.held.congr rfl rfl rfl,
                       drawn := fun hr => hi.drawn (hr.congr rfl rfl rfl hcl),
                       below := fun hr => hi.below (hr.congr rfl rfl rfl hcl),
                       claims := fun hr => hi.claims (hcl hr), trace := ⟨trivial, hi.trace⟩,
                       lent := ?_ }
      intro b t' hl
      by_cases hb : b = a
      · subst hb
        exact ⟨ha, hfree⟩
      · exact hi.lent (by simpa [Mem.note, Function.update_of_ne hb] using hl)
    · exact ⟨by simp [Mem.note], ⟨c, hc, rfl, rfl⟩, hh, hf, by simp [Mem.note, advanced]⟩
    · refine { Rely.refl t' m g with lent := ?_, advanced := ?_, trace := List.suffix_cons _ _ }
      · intro b
        by_cases hb : b = a
        · subst hb
          simp [Mem.note, Function.update_of_ne ht']
        · simp [Mem.note, Function.update_of_ne hb]
      · simp [Mem.note, advanced, ht'.symm]
  | reset a =>
    obtain ⟨ha, hfree, hlent, rfl⟩ := hstart
    have htaken : ∀ {b t'}, m.taken b = some t' → b ≠ a := by
      rintro b t' hb rfl
      rw [hfree] at hb
      simp at hb
    refine ⟨?_, ⟨⟨hh, hf⟩, by simp⟩, fun t' ht' => ?_⟩
    · refine { hi with held := hi.held.congr rfl rfl rfl,
                       drawn := fun hr => hi.drawn (hr.congr rfl rfl rfl fun h => h),
                       below := fun hr => hi.below (hr.congr rfl rfl rfl fun h => h),
                       fresh := ?_, lent := ?_, taken := ?_ }
      · intro t' id hf'
        obtain ⟨h1, h2, h3, h4⟩ := hi.fresh hf'
        refine ⟨h1, h2, h3, fun b c hc hid => ?_⟩
        have hb := h4 b c hc hid
        simpa [Function.update_of_ne (htaken hb)] using hb
      · intro b t' hl
        have hb : b ≠ a := fun h => by
          have hl' : m.lent b t' = true := hl
          rw [h, hlent t'] at hl'
          simp at hl'
        exact ⟨(hi.lent hl).1, by simpa [Function.update_of_ne hb] using (hi.lent hl).2⟩
      · intro b t' hb
        by_cases hba : b = a
        · exact hba ▸ ha
        · exact hi.taken (by simpa [Function.update_of_ne hba] using hb)
    · refine { Rely.refl t' m g with taken := fun {b} hb => ⟨?_, rfl⟩ }
      simpa [Function.update_of_ne (htaken hb)] using hb

/-- The operations of the allocator. -/
def verified : RG.Verified rg where
  Pre t _ op x := Begun t op x
  Post t _ _ _ x := Done t x
  pre_stable hr h := Begun.stable h hr
  code_ok h := wp_code h
  invoke_ok := by
    intro t op m x hi htag hstart
    obtain ⟨hh, hf⟩ := Inv.idle hi htag
    obtain ⟨h1, h2, h3⟩ := start_ok hi hh hf hstart (x.hist ++ [.inv x.hist.length op])
    refine ⟨Ghost.setCall x.ghost t (some (x.hist.length, op)), h1.setCall _ hh hf, ?_, ?_, ?_,
      trivial⟩
    · obtain ⟨⟨h4, h5⟩, h6⟩ := h2
      refine ⟨⟨h4, h5⟩, ?_⟩
      cases op with
      | new capacity => trivial
      | alloc a l =>
        obtain ⟨id, cap, hu⟩ := h6
        exact ⟨id, cap, hu.lent, hu.cell, hu.hand, hu.fresh, hu.advanced⟩
      | reset a => exact h6
    · exact Function.update_self _ _ _
    · exact fun t' ht' => (h3 t' ht').trans (rely_setCall ht')
  respond_ok := by
    intro t id op r x hi htag hpost
    refine ⟨Ghost.setCall x.ghost t none, Inv.setCall hi none hpost.hand hpost.fresh, ?_, ?_,
      trivial⟩
    · exact Function.update_self _ _ _
    · exact fun t' ht' => rely_setCall ht'

/-- Before any call there is no arena. -/
def Ghost.initial : Ghost where
  call := fun _ => none
  hand := fun _ => none
  fresh := fun _ => none

lemma inv_initial (spurious : List Bool) : Inv (Mem.initial spurious) Ghost.initial := by
  have hholds : ∀ {h r}, holds (Mem.initial spurious) Ghost.initial h = some r → r = ⟨0, 0, 0⟩ := by
    intro h r hr
    cases h with
    | slot t i => simpa [holds, Mem.initial, Slot.empty, Slot.region] using hr.symm
    | hand t => simp [holds, Ghost.initial] at hr
  refine { held := ⟨?_, ?_, ?_⟩, drawn := ?_, below := ?_, cell := ?_, unique := ?_, fresh := ?_,
           claims := ?_, dead := ?_, trace := trivial, lent := ?_, taken := ?_, count := ?_,
           next := Nat.one_pos, idle := fun _ => ⟨rfl, rfl⟩ }
  · intro h h' r r' _ hr hr' _
    rw [hholds hr, hholds hr']
    exact .inl le_rfl
  · intro h r s _ hs
    simp [Mem.initial, grants] at hs
  · intro h r hr
    rw [hholds hr]
  · intro r hr
    refine ⟨?_, fun t hf => by simp [Ghost.initial] at hf⟩
    cases hr with
    | held h hr =>
      rw [hholds hr]
      exact Nat.one_pos
    | granted hr => simp [Mem.initial, grants] at hr
    | claimed t a hr => simp [Mem.initial] at hr
  all_goals simp [Mem.initial, Ghost.initial, Dead]

lemma pairwise_grants {capacity : ℕ → Option ℕ} {L : List Entry} (h : TraceOk capacity L) :
    (grants L).Pairwise Region.Apart := by
  induction L with
  | nil => exact .nil
  | cons e L ih =>
    have htail := ih h.2
    have key : e.grant = none → (grants (e :: L)).Pairwise Region.Apart := by
      intro he
      rwa [grants, List.filterMap_cons_none he]
    cases e with
    | answered t a id l r =>
      cases r with
      | none => exact key rfl
      | some off => exact List.pairwise_cons.mpr ⟨h.1.2.2.2.1, htail⟩
    | begun t a => exact key rfl
    | claimed t a r => exact key rfl
    | carved t r => exact key rfl
    | reset a => exact key rfl

/-- In every run, what an allocation answered is aligned, lies between the null region and the
capacity of its arena, and was carved or claimed before. -/
lemma answered_fits (spurious : List Bool) {c : object.Config}
    (hc : Object.Reachable (O := object) (Mem.initial spurious) c) {L L' : List Entry}
    {t a id off : ℕ} {l : Layout} (h : c.mem.trace = L' ++ .answered t a id l (some off) :: L) :
    l.align ∣ off ∧ arenaAlign ≤ off ∧ off < 2 ^ 32 ∧
      (∃ cell, c.mem.arenas a = some cell ∧ off + l.bytes ≤ cell.capacity) ∧
      (.carved t ⟨id, off, off + l.bytes⟩ ∈ L ∨
        ∃ cur ≤ off, .claimed t a ⟨id, cur, off + l.bytes⟩ ∈ L) := by
  obtain ⟨g, ⟨hi, -⟩, -⟩ := RG.sound verified (inv_initial spurious) (fun _ => rfl) hc
  have htrace : TraceOk c.mem.capacity c.mem.trace := Inv.trace hi
  rw [h] at htrace
  obtain ⟨h1, h2, ⟨cap, hcap, hle⟩, -, h5⟩ := htrace.split
  obtain ⟨cell, hcell, rfl⟩ := Option.map_eq_some_iff.mp hcap
  have hmax := (Inv.cell hi hcell).2.2.2.2
  rw [maxArenaSize_eq] at hmax
  exact ⟨h1, h2, by omega, ⟨cell, hcell, hle⟩, h5⟩

/-- **The allocator is safe.**  In every run, whichever compare-exchanges fail spuriously: what
was answered for one arena identity is pairwise disjoint; every answer is aligned, lies between
the null region and the capacity, and is the very offset that was claimed or carved, with nothing
lost in its conversion to 32 bits; a call that answered that there is no room has not advanced
the cursor; and nothing is carved from a chunk that was claimed before a reset of its arena. -/
theorem alloc_sound (spurious : List Bool) {c : object.Config}
    (hc : Object.Reachable (O := object) (Mem.initial spurious) c) :
    (∀ id, ((grants c.mem.trace).filter (·.id = id)).Pairwise fun r s =>
      r.stop ≤ s.start ∨ s.stop ≤ r.start) ∧
    (∀ L L' t a id l off, c.mem.trace = L' ++ .answered t a id l (some off) :: L →
      l.align ∣ off ∧ arenaAlign ≤ off ∧ off < 2 ^ 32 ∧
      (∃ cell, c.mem.arenas a = some cell ∧ off + l.bytes ≤ cell.capacity) ∧
      (.carved t ⟨id, off, off + l.bytes⟩ ∈ L ∨
        ∃ cur ≤ off, .claimed t a ⟨id, cur, off + l.bytes⟩ ∈ L)) ∧
    (∀ L L' t a id l, c.mem.trace = L' ++ .answered t a id l none :: L → advanced t L = false) ∧
    (∀ L L' L'' t t' a r s, c.mem.trace = L'' ++ .carved t r :: (L' ++ .reset a :: L) →
      .claimed t' a s ∈ L → s.id ≠ r.id) := by
  obtain ⟨g, ⟨hi, -⟩, -⟩ := RG.sound verified (inv_initial spurious) (fun _ => rfl) hc
  have htrace : TraceOk c.mem.capacity c.mem.trace := Inv.trace hi
  refine ⟨fun id => ?_, fun L L' t a id l off h => ?_, fun L L' t a id l h => ?_,
    fun L L' L'' t t' a r s h hs => ?_⟩
  · refine ((pairwise_grants htrace).filter _).imp_of_mem fun {r s} hr hs hrs => hrs ?_
    simp only [List.mem_filter, decide_eq_true_eq] at hr hs
    exact hr.2.trans hs.2.symm
  · exact answered_fits spurious hc h
  · rw [h] at htrace
    exact htrace.split
  · rw [h] at htrace
    exact fun hid => htrace.split (Dead.of_split hs hid)

/-- Ten bytes, aligned to eight. -/
def tenBytes : Layout where
  size := 10
  align := 8
  size_lt := by norm_num
  align_pow := ⟨3, by norm_num, rfl⟩

/-- Thread 0 has created an arena of 4096 bytes. -/
def created : object.Config :=
  ((Object.initial (O := object) (Mem.initial [true])).invoke 0 (Op.new 4096)
    (Mem.initial [true])).schedule [0, 0, 0]

lemma created_reachable : Object.Reachable (O := object) (Mem.initial [true]) created := by
  have h : Object.Reachable (O := object) (Mem.initial [true])
      (Object.initial (Mem.initial [true])) := .refl
  exact (h.invoke 0 (Op.new 4096) _ rfl rfl).schedule _

/-- Thread `t` has begun to allocate ten bytes from it. -/
def beginning (c : object.Config) (t : ℕ) : object.Config :=
  c.invoke t (Op.alloc 0 tenBytes)
    (Mem.note { c.mem with
      lent := Function.update c.mem.lent 0 (Function.update (c.mem.lent 0) t true) }
      (.begun t 0))

/-- Threads 0 and 1 have both allocated ten bytes.  Thread 0 lost the cursor to thread 1, has
claimed a chunk, and has carved its bytes from the chunk. -/
def contended : object.Config :=
  (beginning (beginning created 0) 1).schedule (List.replicate 26 [0, 1]).flatten

lemma contended_reachable : Object.Reachable (O := object) (Mem.initial [true]) contended := by
  have h := created_reachable.invoke 0 (Op.alloc 0 tenBytes) _ rfl
    ⟨Option.some_ne_none _, rfl, rfl⟩
  exact (h.invoke 1 (Op.alloc 0 tenBytes) _ rfl ⟨Option.some_ne_none _, rfl, rfl⟩).schedule _

/-- What the two of them were answered. -/
theorem alloc_sound_contended :
    contended.mem.trace = [.answered 0 0 1 tenBytes (some 128), .carved 0 ⟨1, 128, 138⟩,
      .claimed 0 0 ⟨1, 74, 253⟩, .answered 1 0 1 tenBytes (some 64), .claimed 1 0 ⟨1, 64, 74⟩,
      .begun 1 0, .begun 0 0] ∧
    ([⟨1, 128, 138⟩, ⟨1, 64, 74⟩] : List Region).Pairwise
      (fun r s => r.stop ≤ s.start ∨ s.stop ≤ r.start) ∧
    8 ∣ 128 ∧
    ∃ cell, contended.mem.arenas 0 = some cell ∧ 128 + tenBytes.bytes ≤ cell.capacity := by
  have htrace : contended.mem.trace = [.answered 0 0 1 tenBytes (some 128),
      .carved 0 ⟨1, 128, 138⟩, .claimed 0 0 ⟨1, 74, 253⟩, .answered 1 0 1 tenBytes (some 64),
      .claimed 1 0 ⟨1, 64, 74⟩, .begun 1 0, .begun 0 0] := rfl
  obtain ⟨hapart, hfits, -⟩ := alloc_sound [true] contended_reachable
  obtain ⟨h1, -, -, h2, -⟩ := hfits _ [] 0 0 1 tenBytes 128 htrace
  refine ⟨htrace, ?_, h1, h2⟩
  have h := hapart 1
  rw [htrace] at h
  exact h

end Arena

end Artmap
