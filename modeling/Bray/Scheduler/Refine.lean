/-
  File:      Bray/Scheduler/Refine.lean
  Subject:   THE CODE REFINES THE ABSTRACT SCHEDULER. What a state shows on the board, and one
    lemma per entry point: on a well-formed state it takes the abstract step and does
    not fault, except where the caller breaks its claim.

  `board s v` reads the board off a state laid out as `v`. `Shows s b` hides the view and adds
  what the code relies on: no active header is empty, and there is a header for every entry.
-/
import Bray.Scheduler.Board
import Bray.Scheduler.Layout

namespace Bray.Scheduler

open Bray.Lib List Function

/-! ## 1. Sizes -/

def capacityOf {α : Type} (buffer : Option (RawBuffer α)) : Nat := buffer.elim 0 RawBuffer.capacity

theorem capacityOf_eq {α : Type} (buffer : Option (RawBuffer α)) :
    capacityOf buffer = (buffer.map RawBuffer.capacity).getD 0 := by
  cases buffer <;> rfl

/-- The arenas have the same sizes. -/
structure Sized (s s' : State) : Prop where
  entryCount : s'.entryCount = s.entryCount
  queueCount : s'.queueCount = s.queueCount
  entries : capacityOf s'.entries = capacityOf s.entries
  queues : capacityOf s'.queues = capacityOf s.queues

namespace Sized

variable {s s' s'' : State}

theorem refl (s : State) : Sized s s := ⟨rfl, rfl, rfl, rfl⟩

theorem trans (h : Sized s s') (h' : Sized s' s'') : Sized s s'' where
  entryCount := h'.entryCount.trans h.entryCount
  queueCount := h'.queueCount.trans h.queueCount
  entries := h'.entries.trans h.entries
  queues := h'.queues.trans h.queues

end Sized

variable {s s' : State}

theorem Frame.sized (f : Frame s s') : Sized s s' where
  entryCount := f.entryCount
  queueCount := f.queueCount
  entries := by rw [capacityOf_eq, capacityOf_eq, f.entryCapacity]
  queues := by rw [capacityOf_eq, capacityOf_eq, f.queueCapacity]

theorem Sized.setRow (s : State) (i : Nat) (e : Entry) : Sized s (s.setRow i e) :=
  (Frame.setRow s i e).sized

theorem Sized.rerun (h : Sized s s') (n : Nat) : Sized s { s' with running := n } :=
  h.trans ⟨rfl, rfl, rfl, rfl⟩

/-! ## 2. The board of a state -/

theorem Entry.data_of_core {a b : Entry} (h : a.core = b.core) : a.data = b.data := by
  have : { a.core with queue := 0 } = { b.core with queue := 0 } := by rw [h]
  exact this

def View.rota (v : View) (s : State) : Rota Lane Nat :=
  v.active.map fun q => ((s.header q).lane, v.members q)

def board (s : State) (v : View) : Board where
  count := s.entryCount
  cell i := (s.row i).data
  ready := v.rota s
  free := v.freeEntries
  running := s.running

/-- Everything the code keeps about its lists. -/
structure Laid (s : State) (v : View) : Prop extends Layout s v where
  busy : ∀ q ∈ v.active, v.members q ≠ []
  enough : s.entryCount ≤ s.queueCount

/-- The state spells the board. -/
def Shows (s : State) (b : Board) : Prop := ∃ v, Laid s v ∧ b = board s v

section Reading

variable {s : State} {v : View} {limit : Nat}

theorem rota_items (s : State) (v : View) (e : Nat) : e ∈ (v.rota s).items ↔ ∃ q ∈ v.active, e ∈ v.members q := by
  simp [View.rota, Rota.items, mem_flatMap]

theorem rota_queue (h : Layout s v) {q : Nat} (hq : q ∈ v.active) :
    (v.rota s).queue (s.header q).lane = v.members q := by
  have key : ∀ l : List Nat, (∀ p ∈ l, p ∈ v.active) → q ∈ l →
    Rota.queue (l.map fun p => ((s.header p).lane, v.members p)) (s.header q).lane = v.members q := by
    intro l hl hm
    induction l with
    | nil => exact nomatch hm
    | cons p l ih =>
      rw [map_cons, Rota.queue]
      split
      · rename_i e
        rw [h.distinct p (hl p mem_cons_self) q hq e]
      · rename_i e
        refine ih (fun x hx => hl x (.tail _ hx)) ?_
        rcases mem_cons.mp hm with rfl | hm
        · exact absurd rfl e
        · exact hm
  exact key v.active (fun _ hp => hp) hq

theorem Layout.header_of_ready (h : Layout s v) (ho : (board s v).Ok limit) {e : Nat}
    (hp : (s.row e).phase = 1) : ∃ q ∈ v.active, e ∈ v.members q ∧ (s.header q).lane = (s.row e).lane := by
  have hm : e ∈ (v.rota s).queue (s.row e).lane := (ho.queued e _).mpr ⟨hp, rfl⟩
  obtain ⟨q, hq, he⟩ := (rota_items s v e).mp (Rota.mem_items_of_queue hm)
  exact ⟨q, hq, he, (h.own q hq e he).2.1.symm⟩

/-- An entry that is neither ready nor retired is in no list. -/
theorem Layout.loose_of_phase (h : Layout s v) (ho : (board s v).Ok limit) {e : Nat}
    (h1 : (s.row e).phase ≠ 1) (h3 : (s.row e).phase ≠ 3) : v.Loose e := by
  refine ⟨fun q hq he => ?_, fun hf => h3 (ho.free e hf).2⟩
  have hm : e ∈ (v.rota s).queue (s.header q).lane := by rw [rota_queue h hq]; exact he
  exact h1 ((ho.queued e _).mp hm).1

/-- **`index_of` finds exactly the live registrations.** -/
theorem indexOf_spec (s : State) (v : View) (r : UInt64) : ∃ i, indexOf s r.toNat = .ok i ∧
    (i = 0 ∧ (∀ j, ¬ (board s v).Live r j) ∨ i ≠ 0 ∧ (board s v).Live r i) := by
  -- a live registration is in the cell its token names
  have none_of : ¬ (board s v).Live r (r.toNat % 2 ^ 32) → ∀ j, ¬ (board s v).Live r j := by
    intro hn j hj
    exact hn (hj.2.1 ▸ hj)
  unfold indexOf
  by_cases h0 : r.toNat % 2 ^ 32 = 0
  · refine ⟨0, by simp only [h0, if_true], .inl ⟨rfl, none_of fun hl => hl.1.1 h0⟩⟩
  · simp only [h0, if_false]
    cases he : s.entries with
    | none =>
      refine ⟨0, rfl, .inl ⟨rfl, none_of fun hl => ?_⟩⟩
      have hc : r.toNat % 2 ^ 32 ≤ s.entryCount := hl.1.2
      rw [show s.entryCount = 0 by simp [State.entryCount, State.entryRows, he]] at hc
      omega
    | some buffer =>
      have hcount : s.entryCount = buffer.initialized := by
        simp [State.entryCount, State.entryRows, he, RawBuffer.initialized]
      by_cases hle : r.toNat % 2 ^ 32 > buffer.initialized
      · simp only [hle, if_true]
        refine ⟨0, rfl, .inl ⟨rfl, none_of fun hl => ?_⟩⟩
        have hc : r.toNat % 2 ^ 32 ≤ s.entryCount := hl.1.2
        omega
      · have hrow : s.HasRow (r.toNat % 2 ^ 32) := ⟨h0, by omega⟩
        simp only [hle, if_false, entry_ok hrow, ok_bind]
        by_cases hc : (s.row (r.toNat % 2 ^ 32)).generation ≠ (r.toNat >>> 32) % 2 ^ 32 ∨
          (s.row (r.toNat % 2 ^ 32)).phase = 3
        · rw [if_pos hc]
          refine ⟨0, rfl, .inl ⟨rfl, none_of fun hl => ?_⟩⟩
          rcases hc with hc | hc
          · exact hc hl.2.2.1
          · exact hl.2.2.2 hc
        · rw [if_neg hc]
          rw [not_or, not_not] at hc
          exact ⟨r.toNat % 2 ^ 32, rfl, .inr ⟨h0, hrow, rfl, hc.1, hc.2⟩⟩

end Reading

/-! ## 3. What the list operations do on the board -/

section Moves

variable {s s' : State} {v : View} {limit : Nat}

variable {q e : Nat}

theorem rota_push_of_mem {l : List Nat} {lane : Nat → Lane} {m : Nat → List Nat}
    (hq : q ∈ l) (hd : ∀ p ∈ l, lane p = lane q → p = q) (hn : l.Nodup) :
    l.map (fun p => (lane p, Function.update m q (m q ++ [e]) p)) =
      Rota.push (lane q) e (l.map fun p => (lane p, m p)) := by
  induction l with
  | nil => exact nomatch hq
  | cons p l ih =>
    obtain ⟨hp, hn⟩ := nodup_cons.mp hn
    rw [map_cons, map_cons, Rota.push]
    by_cases hpq : p = q
    · subst hpq
      rw [if_pos rfl, update_self]
      refine congrArg _ (map_congr_left fun x hx => ?_)
      rw [update_of_ne fun e' : x = p => hp (e' ▸ hx)]
    · have hne : lane p ≠ lane q := fun e => hpq (hd p (.head _) e)
      rw [if_neg hne, update_of_ne hpq]
      refine congrArg _ (ih ((mem_cons.mp hq).resolve_left (Ne.symm hpq)) ?_ hn)
      exact fun x hx => hd x (.tail _ hx)

theorem rota_push_of_notMem {r : Rota Lane Nat} {k : Lane} (h : k ∉ r.keys) (e : Nat) :
    r.push k e = r ++ [(k, [e])] := by
  induction r with
  | nil => rfl
  | cons x r ih =>
    simp only [Rota.keys, map_cons, mem_cons, not_or] at h
    rw [Rota.push, if_neg fun e => h.1 e.symm, ih h.2]
    rfl

/-- Enqueueing pushes the entry onto the rota. -/
theorem rota_enter {cause now : Nat} (h : Layout s v) (n : Enqueued s v e cause now s' q) :
    (v.enter q e).rota s' = (v.rota s).push (s.row e).lane e := by
  rcases n.chosen with ⟨hq, hl⟩ | ⟨hq, hall⟩
  · have ho : v.opened q = v := if_pos hq
    have hlane : ∀ p ∈ v.active, (s'.header p).lane = (s.header p).lane := n.lanes
    unfold View.enter View.rota
    rw [ho, ← hl, ← rota_push_of_mem hq (fun p hp => h.distinct p hp q hq) h.lanes.nodup]
    exact map_congr_left fun p hp => by rw [hlane p hp]; rfl
  · have hqa : q ∉ v.active := fun m => h.apart q m hq
    have ho : v.opened q = v.activate q := if_neg hqa
    have hk : (s.row e).lane ∉ (v.rota s).keys := fun m => by
      simp only [Rota.keys, View.rota, map_map, mem_map, Function.comp] at m
      obtain ⟨p, hp, e'⟩ := m
      exact hall p hp e'
    rw [rota_push_of_notMem hk]
    unfold View.enter View.rota
    rw [ho, show ((v.activate q).join q e).active = v.active ++ [q] from rfl, map_append]
    congr 1
    · refine map_congr_left fun p hp => ?_
      have hpq : p ≠ q := fun e' => hqa (e' ▸ hp)
      rw [n.lanes p hp]
      simp [View.join, View.hold, View.activate, update_of_ne hpq]
    · simp [map_cons, map_nil, n.lane, View.join, View.hold, View.activate, update_self, nil_append]

/-- Unlinking removes the entry from the rota. -/
theorem rota_drop (h : Laid s v) (hq : q ∈ v.active) (he : e ∈ v.members q)
    (hl : ∀ p, (s'.header p).lane = (s.header p).lane) : (v.drop q e).rota s' = (v.rota s).remove e := by
  have hother : ∀ p ∈ v.active, p ≠ q → e ∉ v.members p := fun p hp hpq hm =>
    hpq (h.member_unique hp hq hm he)
  have key : ∀ l : List Nat, l.Nodup → (∀ p ∈ l, p ∈ v.active) →
    Rota.remove e (l.map fun p => ((s.header p).lane, v.members p)) =
      if (v.members q).erase e = [] then
        (l.erase q).map fun p => ((s.header p).lane, v.members p)
      else l.map fun p =>
        ((s.header p).lane, Function.update v.members q ((v.members q).erase e) p) := by
    intro l hn hsub
    induction l with
    | nil => simp [Rota.remove]
    | cons p l ih =>
      obtain ⟨hp, hn⟩ := nodup_cons.mp hn
      have ih := ih hn fun x hx => hsub x (.tail _ hx)
      rw [map_cons, Rota.remove, ih]
      by_cases hpq : p = q
      · subst hpq
        have hlp : l.erase p = l := erase_of_not_mem hp
        by_cases hnil : (v.members p).erase e = []
        · rw [if_pos hnil, if_pos hnil, hnil, erase_cons_head, hlp]; rfl
        · rw [if_neg hnil, if_neg hnil, Rota.rest, if_neg hnil, map_cons, update_self]
          rfl
      · have hpa := hsub p (.head _)
        have hpe : (v.members p).erase e = v.members p :=
          erase_of_not_mem (hother p hpa hpq)
        rw [hpe, Rota.rest, if_neg (h.busy p hpa)]
        have hbeq : (p == q) = false := beq_false_of_ne hpq
        split
        · rw [erase_cons, hbeq]; rfl
        · rw [map_cons, update_of_ne hpq]; rfl
  have hn := h.lanes.nodup
  unfold View.rota
  rw [key v.active hn fun _ hp => hp]
  unfold View.drop
  split
  · refine map_congr_left fun p hp => ?_
    have hpq : p ≠ q := fun e' => hn.not_mem_erase (e' ▸ hp)
    rw [hl p]
    simp only [View.hold, update_of_ne hpq]
  · exact map_congr_left fun p _ => by rw [hl p]; rfl

theorem Laid.drop (h : Laid s v) (hq : q ∈ v.active) (f : Frame s s')
  (hL : Layout s' (v.drop q e)) : Laid s' (v.drop q e) where
  toLayout := hL
  busy p hp := by
    unfold View.drop at hp ⊢
    split
    · rename_i hn
      rw [if_pos hn] at hp
      have hpq : p ≠ q := fun e' => h.lanes.nodup.not_mem_erase (e' ▸ hp)
      simp only [View.hold, update_of_ne hpq]
      exact h.busy p (mem_of_mem_erase hp)
    · rename_i hn
      rw [if_neg hn] at hp
      by_cases hpq : p = q
      · subst hpq
        simp only [View.hold, update_self]; exact hn
      · simp only [View.hold, update_of_ne hpq]
        exact h.busy p hp
  enough := by rw [f.entryCount, f.queueCount]; exact h.enough

theorem Laid.enter {cause now : Nat} (h : Laid s v) (n : Enqueued s v e cause now s' q) :
  Laid s' (v.enter q e) where
  toLayout := n.layout
  busy p hp := by
    by_cases hpq : p = q
    · subst hpq
      simp [View.enter, View.join, View.hold]
    · simp only [View.enter, View.join, View.hold, update_of_ne hpq]
      unfold View.enter View.opened at hp
      unfold View.opened
      split
      · rename_i hq
        rw [if_pos hq] at hp
        exact h.busy p hp
      · rename_i hq
        rw [if_neg hq] at hp
        simp only [View.activate, View.hold, update_of_ne hpq]
        rcases mem_append.mp hp with hp | hp
        · exact h.busy p hp
        · exact absurd (mem_singleton.mp hp) hpq
  enough := by rw [n.frame.entryCount, n.frame.queueCount]; exact h.enough

theorem board_enter {cause now : Nat} (h : Layout s v) (n : Enqueued s v e cause now s' q) :
    board s' (v.enter q e) = { (board s v).amend e (Board.readied cause now) with
      ready := (v.rota s).push (s.row e).lane e } := by
  unfold board Board.amend
  simp only [Board.mk.injEq]
  refine ⟨n.frame.entryCount, ?_, rota_enter h n, ?_, n.frame.running⟩
  · funext y
    by_cases hy : y = e
    · subst hy
      rw [update_self]
      have : (s'.row y).data = { (s'.row y).core with queue := 0 } := rfl
      rw [this, n.row]; rfl
    · rw [update_of_ne hy]
      exact Entry.data_of_core (n.rows y hy)
  · unfold View.enter View.opened
    split <;> rfl

theorem board_drop (h : Laid s v) (hq : q ∈ v.active) (he : e ∈ v.members q)
    (f : Frame s s') (hc : ∀ y, (s'.row y).core = (s.row y).core)
    (hl : ∀ p, (s'.header p).lane = (s.header p).lane) :
    board s' (v.drop q e) = { board s v with ready := (v.rota s).remove e } := by
  unfold board
  simp only [Board.mk.injEq]
  refine ⟨f.entryCount, ?_, rota_drop h hq he hl, ?_, f.running⟩
  · funext y; exact Entry.data_of_core (hc y)
  · unfold View.drop
    split <;> rfl

/-- A write that leaves the lists alone amends one cell. -/
theorem board_setRow {r : Entry} (he : s.HasRow e) (change : Entry → Entry)
    (hr : r.data = change (s.row e).data) : board (s.setRow e r) v = (board s v).amend e change := by
  unfold board Board.amend
  simp only [Board.mk.injEq]
  refine ⟨State.entryCount_setRow, ?_, rfl, trivial, rfl⟩
  funext y
  rw [State.row_setRow he]
  by_cases hy : y = e
  · subst hy; rw [if_pos rfl, update_self]; exact hr
  · rw [if_neg hy, update_of_ne hy]

theorem Laid.setRow_loose {r : Entry} (h : Laid s v) (he : s.HasRow e) (hl : v.Loose e)
  (hc : r.queue = (s.row e).queue) : Laid (s.setRow e r) v where
  toLayout := h.toLayout.setRow_loose he hl (hc ▸ h.cached e he)
  busy := h.busy
  enough := by rw [State.entryCount_setRow, State.queueCount_setRow]; exact h.enough

end Moves

/-! ## 4. The entry points -/

/-- The state `s` shows `b`, and `b` is in order. -/
structure Sound (s : State) (limit : Nat) (b : Board) : Prop where
  shows : Shows s b
  ok : b.Ok limit

theorem Laid.of_eq {v : View} (h : Laid s v) (he : s'.entryRows = s.entryRows)
    (hq : s'.queueRows = s.queueRows) (h1 : s'.freeQueue = s.freeQueue) (h2 : s'.free = s.free)
  (h3 : s'.head = s.head) (h4 : s'.tail = s.tail) : Laid s' v where
  toLayout := h.toLayout.of_eq he hq h1 h2 h3 h4
  busy := h.busy
  enough := by
    simp only [State.entryCount, State.queueCount, he, hq]
    exact h.enough

theorem board_of_eq {v : View} (he : s'.entryRows = s.entryRows)
    (hq : s'.queueRows = s.queueRows) (hr : s'.running = s.running) : board s' v = board s v := by
  unfold board View.rota
  simp [State.entryCount, State.row, State.header, he, hq, hr]

theorem Laid.rerun {v : View} (h : Laid s v) (n : Nat) : Laid { s with running := n } v :=
  h.of_eq rfl rfl rfl rfl rfl rfl

theorem board_rerun (s : State) (v : View) (n : Nat) :
  board { s with running := n } v = { board s v with running := n } := rfl

theorem Laid.push_free {v : View} {i : Nat} (h : Laid s v) (hi : s.HasRow i)
    (hl : v.Loose i) (he : s'.entryRows = s.entryRows) (hq : s'.queueRows = s.queueRows)
    (h1 : s'.freeQueue = s.freeQueue) (h2 : s'.free = i) (h3 : s'.head = s.head)
    (h4 : s'.tail = s.tail) (hn : (s.row i).next = s.free) :
  Laid s' { v with freeEntries := i :: v.freeEntries } where
  toLayout := by
    have h' : Layout { s' with free := s.free } v := h.toLayout.of_eq he hq h1 rfl h3 h4
    have er : ∀ y, s'.row y = s.row y := fun y => by simp only [State.row, he]
    have ec : s'.entryCount = s.entryCount := by simp only [State.entryCount, he]
    refine ⟨h'.lanes, h'.queues, h'.own, h'.distinct, h'.freeQueue, h'.unused, h'.headers, h'.apart,
      ?_, fun y hy => ?_, fun q hqa y hy m => ?_, h'.cached⟩
    · rw [h2]
      refine h.freeEntry.push hl.2 hi.1 (fun y _ => by rw [er]) ?_
      rw [er]; exact hn
    · rcases mem_cons.mp hy with rfl | hy
      · exact ⟨hi.1, by rw [ec]; exact hi.2⟩
      · exact h'.freeRow y hy
    · rcases mem_cons.mp m with rfl | m
      · exact hl.1 q hqa hy
      · exact h.freeApart q hqa y hy m
  busy := h.busy
  enough := by
    simp only [State.entryCount, State.queueCount, he, hq]
    exact h.enough

section Operations

variable {s : State} {limit : Nat} {v : View} {e : Nat}

/-- **`enqueue` on the board.** It never runs out of headers. -/
theorem enqueue_sim (cause now : Nat) (h : Laid s v) (he : s.HasRow e) (hl : v.Loose e) :
    ∃ s' v', enqueue s e cause now = .ok s' ∧ Laid s' v' ∧ Frame s s' ∧
      board s' v' = { (board s v).amend e (Board.readied cause now) with
        ready := (v.rota s).push (s.row e).lane e } := by
  have hroom := h.room h.busy h.enough he hl
  obtain ⟨s', q, e', n⟩ := enqueue_spec cause now h.toLayout he hl hroom
  exact ⟨s', v.enter q e, e', h.enter n, n.frame, board_enter h.toLayout n⟩

/-- An unlinked entry is in no list. -/
theorem drop_loose {s' : State} {q : Nat} (h : Laid s v) (ho : (board s v).Ok limit)
    (hq : q ∈ v.active) (hm : e ∈ v.members q)
    (hl : ∀ p, (s'.header p).lane = (s.header p).lane) : (v.drop q e).Loose e := by
  have hn : (v.rota s).items.Nodup := ho.rota.items
  refine ⟨fun p hpa hme => ?_, fun hf => h.freeApart q hq e hm ?_⟩
  · have hi : e ∈ ((v.drop q e).rota s').items := (rota_items _ _ _).mpr ⟨p, hpa, hme⟩
    rw [rota_drop h hq hm hl, Rota.items_remove hn] at hi
    exact hn.not_mem_erase hi
  · have : (v.drop q e).freeEntries = v.freeEntries := by unfold View.drop; split <;> rfl
    rwa [this] at hf

/-- **`unlink` on the board.** -/
theorem unlink_sim (h : Laid s v) (ho : (board s v).Ok limit) (hp : (s.row e).phase = 1) :
    ∃ s' v', unlink s e = .ok s' ∧ Laid s' v' ∧ Frame s s' ∧ v'.Loose e ∧ (∀ y, (s'.row y).core = (s.row y).core) ∧
      board s' v' = { board s v with ready := (v.rota s).remove e } := by
  obtain ⟨q, hq, hm, _⟩ := h.header_of_ready ho hp
  obtain ⟨s', e', hL, f, hc, hl⟩ := unlink_spec h.toLayout hq hm
  have hb := board_drop h hq hm f hc hl
  exact ⟨s', v.drop q e, e', h.drop hq f hL, f, drop_loose h ho hq hm hl, hc, hb⟩

theorem Board.Live.hasRow {r : UInt64} {i : Nat} (h : (board s v).Live r i) : s.HasRow i := h.1

variable {value : Domain} {b : Board}

section

variable (h : Sound value.state limit b) (r : UInt64)
include h r

/-- **`wake` takes an abstract step.** -/
theorem wake_sim (cause now : Nat) : ∃ value' code b', wake value r.toNat cause now = .ok (value', code) ∧
      value'.limit = value.limit ∧ Sized value.state value'.state ∧ Sound value'.state limit b' ∧ b.Step limit (.wake r cause now) (.status code) b' := by
  obtain ⟨⟨v, hL, rfl⟩, ho⟩ := h
  obtain ⟨i, hi, hcase⟩ := indexOf_spec value.state v r
  simp only [wake, hi, ok_bind]
  rcases hcase with ⟨rfl, hnone⟩ | ⟨h0, hl⟩
  · exact ⟨value, 2, _, rfl, rfl, .refl _, ⟨⟨v, hL, rfl⟩, ho⟩, .stale hnone⟩
  rw [if_neg h0]
  have hrow : value.state.HasRow i := hl.hasRow
  have h3 : (value.state.row i).phase ≠ 3 := hl.2.2.2
  simp only [entry_ok hrow, ok_bind]
  by_cases h1 : (value.state.row i).phase = 1
  · rw [if_pos h1]
    exact ⟨value, 0, _, rfl, rfl, .refl _, ⟨⟨v, hL, rfl⟩, ho⟩, .join hl (.inl h1)⟩
  rw [if_neg h1]
  have hloose : v.Loose i := hL.loose_of_phase ho h1 h3
  by_cases h2 : (value.state.row i).phase = 2 ∧ (value.state.row i).pending ≠ 0
  · rw [if_pos h2]
    exact ⟨value, 0, _, rfl, rfl, .refl _, ⟨⟨v, hL, rfl⟩, ho⟩, .join hl (.inr h2)⟩
  rw [if_neg h2, modifyEntry_ok hrow, ok_bind]
  have hq : (countWake (value.state.row i)).queue = (value.state.row i).queue := by
    unfold countWake; split <;> rfl
  have hd : (countWake (value.state.row i)).data = countWake (value.state.row i).data := by
    unfold countWake Entry.data; split <;> rfl
  have hL₁ := hL.setRow_loose hrow hloose hq
  have hrow₁ : (value.state.setRow i (countWake (value.state.row i))).HasRow i :=
    State.hasRow_setRow.mpr hrow
  by_cases h2' : (value.state.row i).phase = 2
  · have hp : (value.state.row i).pending = 0 := by
      by_contra hne; exact h2 ⟨h2', hne⟩
    rw [if_pos h2', modifyEntry_ok hrow₁, ok_bind, State.row_setRow_self hrow]
    have st : (board value.state v).Step limit (.wake r cause now) (.status 0)
      ((board value.state v).amend i (Board.noted cause)) := .note hl h2' hp
    refine ⟨_, 0, _, rfl, rfl, (Sized.setRow ..).trans (Sized.setRow ..), ⟨⟨v, ?_, ?_⟩, ho.step st⟩, st⟩
    · exact hL₁.setRow_loose hrow₁ hloose (by rw [State.row_setRow_self hrow])
    · rw [board_setRow hrow₁ (fun row => { row with pending := cause }), board_setRow hrow countWake]
      · simp only [Board.amend, update_idem, update_self]; rfl
      · exact hd
      · rw [State.row_setRow_self hrow]; rfl
  · have h0' : (value.state.row i).phase = 0 := by
      have : (value.state.row i).phase ≤ 3 := ho.phase i
      omega
    rw [if_neg h2']
    obtain ⟨s', v', e', hL', f, hb⟩ := enqueue_sim cause now hL₁ hrow₁ hloose
    have st : (board value.state v).Step limit (.wake r cause now) (.status 1)
      { (board value.state v).amend i
          fun row => Board.readied cause now (countWake row) with
        ready := (board value.state v).ready.push ((board value.state v).cell i).lane i } :=
      .wake hl h0'
    rw [e', ok_bind]
    refine ⟨_, 1, _, rfl, rfl, (Sized.setRow ..).trans f.sized, ⟨⟨v', hL', ?_⟩, ho.step st⟩, st⟩
    rw [prepareSignal_state, hb, board_setRow hrow countWake hd, State.row_setRow_self hrow, Board.countWake_lane]
    simp only [Board.amend, update_idem, update_self]
    rfl

/-- **`withdrawal` takes an abstract step.** -/
theorem withdrawal_sim : ∃ value' b', withdrawal value r.toNat = .ok value' ∧ value'.limit = value.limit ∧
      Sized value.state value'.state ∧ Sound value'.state limit b' ∧ b.Step limit (.withdrawal r) .idle b' := by
  obtain ⟨⟨v, hL, rfl⟩, ho⟩ := h
  obtain ⟨i, hi, hcase⟩ := indexOf_spec value.state v r
  simp only [withdrawal, hi, ok_bind]
  rcases hcase with ⟨rfl, hnone⟩ | ⟨h0, hl⟩
  · exact ⟨value, _, rfl, rfl, .refl _, ⟨⟨v, hL, rfl⟩, ho⟩, .stay hnone⟩
  rw [if_neg h0]
  have hrow : value.state.HasRow i := hl.hasRow
  have h3 : (value.state.row i).phase ≠ 3 := hl.2.2.2
  have st : (board value.state v).Step limit (.withdrawal r) .idle
    { (board value.state v).amend i Board.retired with
      ready := (board value.state v).ready.remove i, free := i :: (board value.state v).free,
      running := (board value.state v).running - ((board value.state v).cell i).slot.toNat } :=
    .retire hl
  -- first the entry leaves its lane
  obtain ⟨s₁, v₁, e₁, hL₁, f₁, hl₁, hc₁, hb₁⟩ : ∃ s₁ v₁,
    (if (value.state.row i).phase = 1 then unlink value.state i else .ok value.state) = .ok s₁ ∧
      Laid s₁ v₁ ∧ Frame value.state s₁ ∧ v₁.Loose i ∧
      (∀ y, (s₁.row y).core = (value.state.row y).core) ∧
      board s₁ v₁ = { board value.state v with ready := (v.rota value.state).remove i } := by
    by_cases h1 : (value.state.row i).phase = 1
    · rw [if_pos h1]; exact unlink_sim hL ho h1
    · rw [if_neg h1]
      refine ⟨value.state, v, rfl, hL, .refl _, hL.loose_of_phase ho h1 h3, fun _ => rfl, ?_⟩
      have hni : i ∉ (v.rota value.state).items := fun m => by
        obtain ⟨k, hk⟩ := Rota.exists_queue ho.rota.keys m
        exact h1 ((ho.queued i k).mp hk).1
      rw [Rota.remove_of_notMem hni ho.rota.busy]
      rfl
  have hrow₁ : s₁.HasRow i := f₁.hasRow.mpr hrow
  have hslot : (s₁.row i).slot = (value.state.row i).slot := by
    have : (s₁.row i).core.slot = (value.state.row i).core.slot := by rw [hc₁]
    exact this
  simp only [entry_ok hrow, ok_bind, e₁, entry_ok hrow₁, modifyEntry_ok hrow₁, hslot]
  -- then its row is retired, its slot given back, and the entry becomes free
  let s₂ := s₁.setRow i (retireRow s₁.free (s₁.row i))
  have hL₂ : Laid s₂ v₁ := hL₁.setRow_loose hrow₁ hl₁ rfl
  have hb₂ : board s₂ v₁ = (board s₁ v₁).amend i Board.retired :=
    board_setRow hrow₁ _ rfl
  have hrun : (value.state.row i).slot = true → s₂.running ≠ 0 := fun hs => by
    have := ho.running_pos (i := i) hs
    have e : s₂.running = value.state.running := f₁.running
    rw [e]
    exact Nat.pos_iff_ne_zero.mp this
  obtain ⟨n, en, hn⟩ : ∃ n : Nat, (if (value.state.row i).slot = true then decrement s₂ else .ok s₂) =
      .ok { s₂ with running := n } ∧
    n = value.state.running - (value.state.row i).slot.toNat := by
    have e : s₂.running = value.state.running := f₁.running
    cases hs : (value.state.row i).slot with
    | true =>
      refine ⟨s₂.running - 1, ?_, by rw [e]; rfl⟩
      rw [if_pos rfl, decrement, if_neg (hrun hs)]
    | false => exact ⟨s₂.running, rfl, by rw [e]; rfl⟩
  rw [show (if (value.state.row i).slot = true then decrement (s₁.setRow i (retireRow s₁.free
    (s₁.row i))) else .ok (s₁.setRow i (retireRow s₁.free (s₁.row i)))) =
    .ok { s₂ with running := n } from en, ok_bind]
  have hsz : Sized value.state { s₂ with running := n, free := i } :=
    (f₁.sized.trans (Sized.setRow s₁ i _)).trans ⟨rfl, rfl, rfl, rfl⟩
  refine ⟨_, _, rfl, rfl, hsz, ⟨⟨{ v₁ with freeEntries := i :: v₁.freeEntries }, ?_, ?_⟩, ho.step st⟩, st⟩
  · exact hL₂.push_free (State.hasRow_setRow.mpr hrow₁) hl₁ rfl rfl rfl rfl rfl rfl
      (by rw [State.row_setRow_self hrow₁]; rfl)
  · rw [prepareSignal_state]
    have e2 : board { s₂ with running := n, free := i }
      { v₁ with freeEntries := i :: v₁.freeEntries } =
      { board s₂ v₁ with running := n, free := i :: v₁.freeEntries } := rfl
    rw [e2, hb₂, hb₁, hn]
    have hfe : v₁.freeEntries = v.freeEntries := congrArg Board.free hb₁
    rw [hfe]
    rfl

/-- **`release` takes an abstract step** or stops a caller without the claim. -/
theorem release_sim (lane : Lane) (cancellation now : Nat) :
    release value r.toNat lane cancellation now = .error .releaseUnclaimed ∨
    ∃ value' code b', release value r.toNat lane cancellation now = .ok (value', code) ∧
      value'.limit = value.limit ∧ Sized value.state value'.state ∧ Sound value'.state limit b' ∧
      b.Step limit (.release r lane cancellation now) (.status code) b' := by
  obtain ⟨⟨v, hL, rfl⟩, ho⟩ := h
  obtain ⟨i, hi, hcase⟩ := indexOf_spec value.state v r
  simp only [release, hi, ok_bind]
  rcases hcase with ⟨rfl, hnone⟩ | ⟨h0, hl⟩
  · exact .inr ⟨value, 2, _, rfl, rfl, .refl _, ⟨⟨v, hL, rfl⟩, ho⟩, .stay hnone⟩
  rw [if_neg h0]
  have hrow : value.state.HasRow i := hl.hasRow
  simp only [entry_ok hrow, ok_bind]
  by_cases hbad : (value.state.row i).phase ≠ 2 ∨ (value.state.row i).slot = false
  · rw [if_pos hbad]; exact .inl rfl
  rw [if_neg hbad]
  rw [not_or, not_not, Bool.not_eq_false] at hbad
  obtain ⟨h2, hs⟩ := hbad
  have hpos : value.state.running ≠ 0 := Nat.pos_iff_ne_zero.mp (ho.running_pos (i := i) hs)
  have hloose : v.Loose i := hL.loose_of_phase ho (by omega) (by omega)
  simp only [modifyEntry_ok hrow, ok_bind]
  let s₁ := value.state.setRow i (releaseRow lane (value.state.row i))
  have hL₁ : Laid s₁ v := hL.setRow_loose hrow hloose rfl
  have hb₁ : board s₁ v = (board value.state v).amend i (releaseRow lane) := board_setRow hrow _ rfl
  have hrow₁ : s₁.HasRow i := State.hasRow_setRow.mpr hrow
  let s₂ : State := { s₁ with running := s₁.running - 1 }
  have e₂ : decrement (value.state.setRow i (releaseRow lane (value.state.row i))) = .ok s₂ :=
    if_neg hpos
  have hL₂ : Laid s₂ v := hL₁.rerun _
  have hb₂ : board s₂ v = { (board value.state v).amend i (releaseRow lane) with
    running := value.state.running - 1 } := by
    rw [show board s₂ v = _ from board_rerun s₁ v _, hb₁]; rfl
  have hsz : Sized value.state s₂ := (Sized.setRow ..).rerun _
  rw [e₂, ok_bind]
  refine .inr ?_
  by_cases hd : Board.due (value.state.row i) cancellation = 0
  · -- nothing to deliver
    have hd' : ¬ (if (value.state.row i).pending ≠ 0 then (value.state.row i).pending
      else cancellation) ≠ 0 := not_not.mpr hd
    have st : (board value.state v).Step limit (.release r lane cancellation now) (.status 0)
      { (board value.state v).amend i (releaseRow lane) with
        running := (board value.state v).running - 1 } := .idle hl h2 hs hd
    rw [if_neg hd', ok_bind]
    refine ⟨_, 0, _, rfl, rfl, hsz, ⟨⟨v, ?_, ?_⟩, ho.step st⟩, st⟩
    · rw [prepareSignal_state]; exact hL₂
    · rw [prepareSignal_state]; exact hb₂.symm
  · have hd' : (if (value.state.row i).pending ≠ 0 then (value.state.row i).pending
      else cancellation) ≠ 0 := hd
    have st : (board value.state v).Step limit (.release r lane cancellation now) (.status 0)
      { (board value.state v).amend i
          fun row => Board.readied (Board.due row cancellation) now (releaseRow lane row) with
        ready := (board value.state v).ready.push lane i,
        running := (board value.state v).running - 1 } := .requeue hl h2 hs hd
    rw [if_pos hd']
    obtain ⟨s₃, v₃, e₃, hL₃, f₃, hb₃⟩ :=
      enqueue_sim (Board.due (value.state.row i) cancellation) now hL₂ hrow₁ hloose
    have hlane : (s₂.row i).lane = lane := by
      show (s₁.row i).lane = lane
      rw [State.row_setRow_self hrow]; rfl
    refine ⟨_, 0, _, (bind_of_ok e₃ _).trans rfl, rfl, hsz.trans f₃.sized, ⟨⟨v₃, ?_, ?_⟩, ho.step st⟩, st⟩
    · rw [prepareSignal_state]; exact hL₃
    · rw [prepareSignal_state, hb₃, hb₂, hlane]
      simp only [Board.amend, update_idem, update_self]
      rfl

/-- **`slot_release` takes an abstract step.** The claim it checks always holds. -/
theorem slotRelease_sim :
    ∃ value' code b', slotRelease value r.toNat = .ok (value', code) ∧ value'.limit = value.limit ∧
      Sized value.state value'.state ∧ Sound value'.state limit b' ∧ b.Step limit (.slotRelease r) (.status code) b' := by
  obtain ⟨⟨v, hL, rfl⟩, ho⟩ := h
  obtain ⟨i, hi, hcase⟩ := indexOf_spec value.state v r
  simp only [slotRelease, hi, ok_bind]
  rcases hcase with ⟨rfl, hnone⟩ | ⟨h0, hl⟩
  · exact ⟨value, 2, _, rfl, rfl, .refl _, ⟨⟨v, hL, rfl⟩, ho⟩, .stay trivial⟩
  rw [if_neg h0]
  have hrow : value.state.HasRow i := hl.hasRow
  simp only [entry_ok hrow, ok_bind]
  by_cases hs : (value.state.row i).slot = false
  · rw [if_pos hs]
    exact ⟨value, 0, _, rfl, rfl, .refl _, ⟨⟨v, hL, rfl⟩, ho⟩, .stay trivial⟩
  rw [if_neg hs]
  rw [Bool.not_eq_false] at hs
  have h2 : (value.state.row i).phase = 2 := ho.slot i hs
  have hpos : value.state.running ≠ 0 := Nat.pos_iff_ne_zero.mp (ho.running_pos (i := i) hs)
  have hloose : v.Loose i := hL.loose_of_phase ho (by omega) (by omega)
  have st : (board value.state v).Step limit (.slotRelease r) (.status 1)
    { (board value.state v).amend i Board.lent with
      running := (board value.state v).running - 1 } := .lend hl h2 hs
  simp only [modifyEntry_ok hrow, ok_bind]
  let s₁ := value.state.setRow i { value.state.row i with slot := false }
  have e₁ : decrement s₁ = .ok { s₁ with running := s₁.running - 1 } := if_neg hpos
  rw [if_neg (not_not.mpr h2), show decrement (value.state.setRow i _) = _ from e₁]
  refine ⟨_, 1, _, rfl, rfl, (Sized.setRow ..).rerun _, ⟨⟨v, ?_, ?_⟩, ho.step st⟩, st⟩
  · exact (hL.setRow_loose (r := { value.state.row i with slot := false }) hrow hloose rfl).rerun _
  · have hb : board s₁ v = (board value.state v).amend i Board.lent := board_setRow hrow _ rfl
    rw [prepareSignal_state, show board { s₁ with running := s₁.running - 1 } v = _ from
      board_rerun s₁ v _, hb]
    rfl

end

/-- **`slot_acquisition` takes an abstract step** or stops a caller without the claim. -/
theorem slotAcquisition_sim (h : Sound value.state value.limit b) (r : UInt64) :
    slotAcquisition value r.toNat = .error .slotAcquisitionUnclaimed ∨
    ∃ value' code b', slotAcquisition value r.toNat = .ok (value', code) ∧ value'.limit = value.limit ∧
      Sized value.state value'.state ∧ Sound value'.state value.limit b' ∧
      b.Step value.limit (.slotAcquisition r) (.status code) b' := by
  obtain ⟨⟨v, hL, rfl⟩, ho⟩ := h
  obtain ⟨i, hi, hcase⟩ := indexOf_spec value.state v r
  simp only [slotAcquisition, hi, ok_bind]
  rcases hcase with ⟨rfl, hnone⟩ | ⟨h0, hl⟩
  · exact .inr ⟨value, 2, _, rfl, rfl, .refl _, ⟨⟨v, hL, rfl⟩, ho⟩, .stay trivial⟩
  rw [if_neg h0]
  by_cases hr : value.state.running = value.limit
  · rw [if_pos hr]
    exact .inr ⟨value, 0, _, rfl, rfl, .refl _, ⟨⟨v, hL, rfl⟩, ho⟩, .stay trivial⟩
  rw [if_neg hr]
  have hrow : value.state.HasRow i := hl.hasRow
  simp only [entry_ok hrow, ok_bind]
  by_cases hbad : (value.state.row i).phase ≠ 2 ∨ (value.state.row i).slot = true
  · rw [if_pos hbad]; exact .inl rfl
  rw [if_neg hbad]
  rw [not_or, not_not, Bool.not_eq_true] at hbad
  obtain ⟨h2, hs⟩ := hbad
  have hloose : v.Loose i := hL.loose_of_phase ho (by omega) (by omega)
  have st : (board value.state v).Step value.limit (.slotAcquisition r) (.status 1)
    { (board value.state v).amend i Board.borrowed with
      running := (board value.state v).running + 1 } := .borrow hl h2 hs hr
  simp only [modifyEntry_ok hrow, ok_bind]
  let s₁ := value.state.setRow i { value.state.row i with slot := true }
  refine .inr ⟨_, 1, _, rfl, rfl, (Sized.setRow ..).rerun _, ⟨⟨v, ?_, ?_⟩, ho.step st⟩, st⟩
  · exact (hL.setRow_loose (r := { value.state.row i with slot := true }) hrow hloose rfl).rerun _
  · have hb : board s₁ v = (board value.state v).amend i Board.borrowed := board_setRow hrow _ rfl
    rw [show board { s₁ with running := s₁.running + 1 } v = _ from board_rerun s₁ v _, hb]
    rfl

/-- **Dispatch on the board**: the first entry of an active header is claimed, and what remains
  of its lane moves behind the other lanes. -/
theorem dispatch_sim (h : Laid s v) (ho : (board s v).Ok limit) {l t es : List Nat} {q : Nat}
    (ha : v.active = l ++ q :: t) (hm : v.members q = e :: es) :
    ∃ s' v', dispatch s q = .ok (s', observe e (s.row e)) ∧ Sized s s' ∧ Laid s' v' ∧
      board s' v' = { (board s v).amend e Board.claimed with
      ready := (l ++ t).map (fun p => ((s.header p).lane, v.members p)) ++ Rota.rest (s.header q).lane es,
      running := s.running + 1 } := by
  have hq : q ∈ v.active := ha ▸ mem_append_right l (.head _)
  have hqh : s.HasHeader q := h.hasHeader hq
  have hem : e ∈ v.members q := hm ▸ (.head _)
  have hrow : s.HasRow e := (h.own q hq e hem).1
  have hhead : (s.header q).head = e := by rw [(h.queues q hq).head_eq, hm]; rfl
  have herase : (v.members q).erase e = es := by rw [hm, erase_cons_head]
  have hnd : (l ++ q :: t).Nodup := ha ▸ h.lanes.nodup
  have hqlt : q ∉ l ++ t := (nodup_middle.mp hnd).notMem
  have hql : q ∉ l := fun m => hqlt (mem_append_left t m)
  have hqe : v.active.erase q = l ++ t := by
    rw [ha, erase_append_right _ hql, erase_cons_head]
  obtain ⟨s₁, e₁, hL₁, f₁, hc₁, hl₁⟩ := unlink_spec h.toLayout hq hem
  have hLd := h.drop hq f₁ hL₁
  have hrow₁ : s₁.HasRow e := f₁.hasRow.mpr hrow
  have hloose₁ : (v.drop q e).Loose e := drop_loose h ho hq hem hl₁
  -- the header moves behind the others if it still has entries
  obtain ⟨s₂, v₂, e₂, hL₂, f₂, hlo₂, hc₂, hr₂, hf₂⟩ : ∃ s₂ v₂, rotateHeader s₁ q = .ok s₂ ∧
    Laid s₂ v₂ ∧ Frame s₁ s₂ ∧ v₂.Loose e ∧ (∀ y, (s₂.row y).core = (s.row y).core) ∧
    v₂.rota s₂ = (l ++ t).map (fun p => ((s.header p).lane, v.members p)) ++
      Rota.rest (s.header q).lane es ∧ v₂.freeEntries = v.freeEntries := by
    by_cases hes : es = []
    · have hd : v.drop q e = { v.hold q [] with active := l ++ t, freeQueues := q :: v.freeQueues } := by
        unfold View.drop; rw [herase, if_pos hes, hqe]
      have hz : (s₁.header q).head = 0 := hL₁.unused q (by rw [hd]; exact (.head _))
      have hrot : rotateHeader s₁ q = .ok s₁ := by
        simp [rotateHeader, queue_ok (f₁.hasHeader.mpr hqh), ok_bind, hz, ne_eq, not_true_eq_false, false_and,
          pure_ok]
      refine ⟨s₁, v.drop q e, hrot, hLd, .refl s₁, hloose₁, hc₁, ?_, by rw [hd]; rfl⟩
      rw [hd, Rota.rest, if_pos hes, append_nil]
      refine map_congr_left fun p hp => ?_
      have hpq : p ≠ q := fun e' => hqlt (e' ▸ hp)
      rw [hl₁]
      simp only [View.hold, update_of_ne hpq]
    · have hd : v.drop q e = v.hold q es := by
        unfold View.drop; rw [herase, if_neg hes]
      rw [hd] at hL₁ hLd hloose₁
      have hmq : (v.hold q es).members q = es := update_self ..
      obtain ⟨s₂, e₂, hL₂, f₂⟩ := rotateHeader_spec hL₁ hq (by rw [hmq]; exact hes)
      have hact : ((v.hold q es).rotate q).active = l ++ t ++ [q] := by
        show v.active.erase q ++ [q] = _
        rw [hqe]
      have hmem : ∀ p, p ∈ ((v.hold q es).rotate q).active → p ∈ v.active := fun p hp => by
        rw [hact] at hp
        rw [ha]
        simp only [mem_append, mem_cons, not_mem_nil, or_false] at hp ⊢
        tauto
      refine ⟨s₂, _, e₂, ⟨hL₂, fun p hp => hLd.busy p (hmem p hp), ?_⟩, f₂.toFrame,
        ⟨fun p hp => hloose₁.1 p (hmem p hp), hloose₁.2⟩, fun y => ?_, ?_, rfl⟩
      · rw [f₂.entryCount, f₂.queueCount]; exact hLd.enough
      · rw [f₂.row]; exact hc₁ y
      · unfold View.rota
        rw [hact, map_append, Rota.rest, if_neg hes]
        congr 1
        · refine map_congr_left fun p hp => ?_
          have hpq : p ≠ q := fun e' => hqlt (e' ▸ hp)
          rw [f₂.lane, hl₁]
          simp [View.rotate, View.hold, update_of_ne hpq]
        · simp [map_cons, map_nil, f₂.lane, hl₁, View.rotate, View.hold, update_self]
  have hrow₂ : s₂.HasRow e := f₂.hasRow.mpr hrow₁
  let s₃ := s₂.setRow e { s₂.row e with phase := 2, pending := 0, slot := true }
  refine ⟨{ s₃ with running := s₃.running + 1 }, v₂, ?_,
    ((f₁.trans f₂).sized.trans (Sized.setRow ..)).rerun _, ?_, ?_⟩
  · simp only [dispatch, queue_ok hqh, ok_bind, hhead, observation, entry_ok hrow, pure_ok, e₁, e₂,
      modifyEntry_ok hrow₂]
    rfl
  · exact (hL₂.setRow_loose (r := { s₂.row e with phase := 2, pending := 0, slot := true }) hrow₂
      hlo₂ rfl).rerun _
  · have hb₂ : board s₂ v₂ = { board s v with
      ready := (l ++ t).map (fun p => ((s.header p).lane, v.members p)) ++ Rota.rest (s.header q).lane es } := by
      unfold board
      simp only [Board.mk.injEq]
      refine ⟨f₂.entryCount.trans f₁.entryCount, ?_, hr₂, hf₂, f₂.running.trans f₁.running⟩
      funext y
      exact Entry.data_of_core (hc₂ y)
    have hb₃ : board s₃ v₂ = (board s₂ v₂).amend e Board.claimed := board_setRow hrow₂ _ rfl
    have hrun : s₃.running = s.running := f₂.running.trans f₁.running
    rw [board_rerun, hb₃, hb₂, hrun]
    rfl

/-- The loop of `acquisition` serves the first lane the consumer accepts. -/
theorem acquireFrom_sim (thread lanes : Nat) (h : Laid s v) (ho : (board s v).Ok limit) (r : List Nat) :
    ∀ l fuel, v.active = l ++ r → r.length ≤ fuel → (∀ q ∈ l, accepts thread lanes (s.header q).lane = false) →
      (acquireFrom thread lanes s fuel (r.headD 0) = .ok (s, none) ∧
        (v.rota s).serve (accepts thread lanes) = none) ∨
      ∃ s' v' i lane ready, acquireFrom thread lanes s fuel (r.headD 0) =
        .ok (s', some (observe i (s.row i))) ∧ Sized s s' ∧ Laid s' v' ∧
        (v.rota s).serve (accepts thread lanes) = some (lane, i, ready) ∧
        board s' v' = { (board s v).amend i Board.claimed with ready := ready, running := s.running + 1 } := by
  induction r with
  | nil =>
    intro l fuel ha _ hl
    refine .inl ⟨by cases fuel <;> rfl, Rota.serve_eq_none fun x hx => ?_⟩
    rw [append_nil] at ha
    obtain ⟨q, hq, rfl⟩ := mem_map.mp hx
    exact hl q (ha ▸ hq)
  | cons q r ih =>
    intro l fuel ha hf hl
    have hq : q ∈ v.active := ha ▸ mem_append_right l (.head _)
    obtain ⟨fuel, rfl⟩ : ∃ n, fuel = n + 1 :=
      ⟨fuel - 1, by rw [length_cons] at hf; omega⟩
    obtain ⟨i, rfl⟩ : ∃ i, q = i + 1 := ⟨q - 1, by have := (h.hasHeader hq).1; omega⟩
    have hnext : (s.header (i + 1)).next = r.headD 0 := (h.lanes.links l (i + 1) r ha).2
    simp only [headD_cons, acquireFrom, queue_ok (h.hasHeader hq), ok_bind, hnext]
    by_cases hacc : accepts thread lanes (s.header (i + 1)).lane = true
    · refine .inr ?_
      obtain ⟨e, es, hm⟩ : ∃ e es, v.members (i + 1) = e :: es := by
        cases hc : v.members (i + 1) with
        | nil => exact absurd hc (h.busy _ hq)
        | cons e es => exact ⟨e, es, rfl⟩
      obtain ⟨s', v', e', hsz, hL', hb⟩ := dispatch_sim h ho ha hm
      refine ⟨s', v', e, (s.header (i + 1)).lane, _, ?_, hsz, hL', ?_, hb⟩
      · rw [if_pos hacc, e']; rfl
      · unfold View.rota
        rw [ha, map_append, map_cons, hm, Rota.serve_of_eq _ hacc, map_append]
        intro x hx
        obtain ⟨q, hq, rfl⟩ := mem_map.mp hx
        exact hl q hq
    · rw [if_neg hacc]
      refine ih (l ++ [i + 1]) fuel (by rw [ha]; simp) (by rw [length_cons] at hf; omega) ?_
      intro p hp
      rcases mem_append.mp hp with hp | hp
      · exact hl p hp
      · rw [mem_singleton.mp hp]; simpa using hacc

/-- **`acquisition` takes an abstract step.** It comes back empty-handed only when every slot is
  taken or no ready lane is accepted. -/
theorem acquisition_sim (h : Sound value.state value.limit b) (thread lanes : Nat) :
    ∃ value' result b', acquisition value thread lanes = .ok (value', result) ∧
      value'.limit = value.limit ∧ Sized value.state value'.state ∧
      Sound value'.state value.limit b' ∧ b.Step value.limit (.acquisition thread lanes) (.observed result) b' := by
  obtain ⟨⟨v, hL, rfl⟩, ho⟩ := h
  unfold acquisition
  by_cases hr : value.state.running = value.limit
  · rw [if_pos hr]
    exact ⟨value, none, _, rfl, rfl, .refl _, ⟨⟨v, hL, rfl⟩, ho⟩, .stay trivial⟩
  rw [if_neg hr]
  rcases acquireFrom_sim thread lanes hL ho v.active [] value.state.queueCount rfl hL.active_le
    (fun q hq => absurd hq not_mem_nil) with ⟨e, _⟩ |
      ⟨s', v', i, lane, ready, e, hsz, hL', hs, hb⟩
  · rw [← hL.lanes.head_eq] at e
    rw [e]
    exact ⟨value, none, _, rfl, rfl, .refl _, ⟨⟨v, hL, rfl⟩, ho⟩, .stay trivial⟩
  · rw [← hL.lanes.head_eq] at e
    have st : (board value.state v).Step value.limit (.acquisition thread lanes)
      (.observed (some (observe i ((board value.state v).cell i))))
      { (board value.state v).amend i Board.claimed with
        ready := ready, running := (board value.state v).running + 1 } := .dispatch hr hs
    rw [e]
    exact ⟨_, _, _, rfl, rfl, hsz, ⟨⟨v', hL', hb.symm⟩, ho.step st⟩, st⟩

end Operations

end Bray.Scheduler
