/-
  File:      Bray/Scheduler/Board.lean
  Subject:   WHAT THE SCHEDULER IS FOR. An abstract scheduler without links, headers or storage:
    cells, a rota of ready cells by lane, a free list and a count of slots.

  `Board.Step` is the specification of every locked step, under the labels of the real machine
  (System.lean). It is written from the purpose of the component, not from its code; Refine.lean
  proves that every step of the code is one of these.

  `Board.Ok` is the invariant of the board. One lemma (`Ok.amend`) says what a change of one cell
  has to respect; every step preserves the invariant through it.
-/
import Bray.Lib.Intrusive
import Bray.Lib.Rota
import Bray.Scheduler.System

namespace Bray.Scheduler

open Bray.Lib List Function

/-- An entry without its links and its cached header. -/
def Entry.data (row : Entry) : Entry := { row with next := 0, previous := 0, queue := 0 }

structure Board where
  count : Nat
  cell : Nat → Entry
  ready : Rota Lane Nat
  free : List Nat
  running : Nat

namespace Board

/-! ## 1. The changes of a cell -/

def noted (cause : Nat) (row : Entry) : Entry := { countWake row with pending := cause }

def readied (cause now : Nat) (row : Entry) : Entry :=
  { row with phase := 1, cause := cause, queuedAt := now }

def claimed (row : Entry) : Entry := { row with phase := 2, pending := 0, slot := true }

def lent (row : Entry) : Entry := { row with slot := false }

def borrowed (row : Entry) : Entry := { row with slot := true }

def retired (row : Entry) : Entry := { row with slot := false, phase := 3, pending := 0 }

/-- The wake a release finds: the recorded one, or the caller's cancellation. -/
def due (row : Entry) (cancellation : Nat) : Nat :=
  if row.pending ≠ 0 then row.pending else cancellation

section Fields

variable (row : Entry) (task cause now : Nat) (lane : Lane)

@[simp] theorem countWake_phase : (countWake row).phase = row.phase := by
  unfold countWake; split <;> rfl
@[simp] theorem countWake_generation : (countWake row).generation = row.generation := by
  unfold countWake; split <;> rfl
@[simp] theorem countWake_lane : (countWake row).lane = row.lane := by
  unfold countWake; split <;> rfl
@[simp] theorem countWake_slot : (countWake row).slot = row.slot := by
  unfold countWake; split <;> rfl
@[simp] theorem noted_phase : (noted cause row).phase = row.phase := countWake_phase row
@[simp] theorem noted_generation : (noted cause row).generation = row.generation :=
  countWake_generation row
@[simp] theorem noted_slot : (noted cause row).slot = row.slot := countWake_slot row
@[simp] theorem noted_pending : (noted cause row).pending = cause := rfl
@[simp] theorem readied_phase : (readied cause now row).phase = 1 := rfl
@[simp] theorem readied_generation : (readied cause now row).generation = row.generation := rfl
@[simp] theorem readied_lane : (readied cause now row).lane = row.lane := rfl
@[simp] theorem readied_slot : (readied cause now row).slot = row.slot := rfl
@[simp] theorem readied_cause : (readied cause now row).cause = cause := rfl
@[simp] theorem claimed_phase : (claimed row).phase = 2 := rfl
@[simp] theorem claimed_generation : (claimed row).generation = row.generation := rfl
@[simp] theorem claimed_slot : (claimed row).slot = true := rfl
@[simp] theorem claimed_pending : (claimed row).pending = 0 := rfl
@[simp] theorem lent_phase : (lent row).phase = row.phase := rfl
@[simp] theorem lent_generation : (lent row).generation = row.generation := rfl
@[simp] theorem lent_slot : (lent row).slot = false := rfl
@[simp] theorem lent_pending : (lent row).pending = row.pending := rfl
@[simp] theorem borrowed_phase : (borrowed row).phase = row.phase := rfl
@[simp] theorem borrowed_generation : (borrowed row).generation = row.generation := rfl
@[simp] theorem borrowed_slot : (borrowed row).slot = true := rfl
@[simp] theorem borrowed_pending : (borrowed row).pending = row.pending := rfl
@[simp] theorem retired_phase : (retired row).phase = 3 := rfl
@[simp] theorem retired_generation : (retired row).generation = row.generation := rfl
@[simp] theorem retired_slot : (retired row).slot = false := rfl
@[simp] theorem releaseRow_phase : (releaseRow lane row).phase = 0 := rfl
@[simp] theorem releaseRow_generation : (releaseRow lane row).generation = row.generation := rfl
@[simp] theorem releaseRow_lane : (releaseRow lane row).lane = lane := rfl
@[simp] theorem releaseRow_slot : (releaseRow lane row).slot = false := rfl
@[simp] theorem admitRow_phase : (admitRow task lane row).phase = 0 := rfl
@[simp] theorem admitRow_generation : (admitRow task lane row).generation = row.generation + 1 := rfl
@[simp] theorem admitRow_slot : (admitRow task lane row).slot = false := rfl

end Fields

/-- An initialized cell. -/
def Cell (b : Board) (i : Nat) : Prop := i ≠ 0 ∧ i ≤ b.count

/-- The registration `r` is live in cell `i`. -/
def Live (b : Board) (r : UInt64) (i : Nat) : Prop :=
  b.Cell i ∧ i = r.toNat % 2 ^ 32 ∧ (b.cell i).generation = (r.toNat >>> 32) % 2 ^ 32 ∧ (b.cell i).phase ≠ 3

def amend (b : Board) (i : Nat) (change : Entry → Entry) : Board :=
  { b with cell := Function.update b.cell i (change (b.cell i)) }

@[simp] theorem amend_self (b : Board) (i : Nat) (change : Entry → Entry) :
    (b.amend i change).cell i = change (b.cell i) :=
  update_self ..

/-! ## 2. The steps -/

/-- Before an admission the board may drop exhausted cells and add fresh ones. -/
inductive Replenish : Board → Board → Prop where
  | refl (b : Board) : Replenish b b
  | discard {b b' : Board} {i : Nat} {rest : List Nat} (hf : b.free = i :: rest)
    (hg : (b.cell i).generation = u32Max) (h : Replenish { b with free := rest } b') :
    Replenish b b'
  | grow {b b' : Board} {n : Nat} (hf : b.free = []) (hn : b.count < n) (hm : n ≤ u32Max)
    (h : Replenish
      { b with count := n, free := (List.range' (b.count + 1) (n - b.count)).reverse } b') :
    Replenish b b'

/-- When a step may leave the board as it is: it names no live registration, or it was refused. -/
def Silent (b : Board) : Op → Out → Prop
  | .acquisition _ _, .observed (some _) => False
  | .tryAdmit _, .admitted _ => False
  | .wake _ _ _, _ => False
  | .withdrawal r, _ => ∀ i, ¬ b.Live r i
  | .release r _ _ _, _ => ∀ i, ¬ b.Live r i
  | .slotRelease _, .status 1 => False
  | .slotAcquisition _, .status 1 => False
  | _, _ => True

/-- **The abstract scheduler.** -/
inductive Step (limit : Nat) : Board → Op → Out → Board → Prop where
  /-- Nothing changes. -/
  | stay {b : Board} {op : Op} {out : Out} (h : b.Silent op out) : Step limit b op out b
  /-- A wake of a registration that is gone. -/
  | stale {b : Board} {r : UInt64} {cause now : Nat} (h : ∀ i, ¬ b.Live r i) :
    Step limit b (.wake r cause now) (.status 2) b
  /-- A wake that joins one that has not been delivered yet. -/
  | join {b : Board} {r : UInt64} {i cause now : Nat} (h : b.Live r i)
    (hp : (b.cell i).phase = 1 ∨ (b.cell i).phase = 2 ∧ (b.cell i).pending ≠ 0) :
    Step limit b (.wake r cause now) (.status 0) b
  /-- A wake recorded on a running cell. -/
  | note {b : Board} {r : UInt64} {i cause now : Nat} (h : b.Live r i) (hp : (b.cell i).phase = 2)
    (hn : (b.cell i).pending = 0) :
    Step limit b (.wake r cause now) (.status 0) (b.amend i (noted cause))
  /-- A wake that makes its cell ready. -/
  | wake {b : Board} {r : UInt64} {i cause now : Nat} (h : b.Live r i) (hp : (b.cell i).phase = 0) :
    Step limit b (.wake r cause now) (.status 1)
      { b.amend i fun row => readied cause now (countWake row) with
        ready := b.ready.push (b.cell i).lane i }
  /-- The next ready cell of the first lane the consumer accepts. -/
  | dispatch {b : Board} {thread lanes i : Nat} {lane : Lane} {ready : Rota Lane Nat}
    (hr : b.running ≠ limit) (hs : b.ready.serve (accepts thread lanes) = some (lane, i, ready)) :
    Step limit b (.acquisition thread lanes) (.observed (some (observe i (b.cell i))))
      { b.amend i claimed with ready := ready, running := b.running + 1 }
  /-- A release with no wake to deliver. -/
  | idle {b : Board} {r : UInt64} {i cancellation now : Nat} {lane : Lane} (h : b.Live r i)
    (hp : (b.cell i).phase = 2) (hs : (b.cell i).slot = true)
    (hd : due (b.cell i) cancellation = 0) :
    Step limit b (.release r lane cancellation now) (.status 0)
      { b.amend i (releaseRow lane) with running := b.running - 1 }
  /-- A release that delivers a wake: the cell is ready again, in its new lane. -/
  | requeue {b : Board} {r : UInt64} {i cancellation now : Nat} {lane : Lane} (h : b.Live r i)
    (hp : (b.cell i).phase = 2) (hs : (b.cell i).slot = true)
    (hd : due (b.cell i) cancellation ≠ 0) :
    Step limit b (.release r lane cancellation now) (.status 0)
      { b.amend i fun row => readied (due row cancellation) now (releaseRow lane row) with
        ready := b.ready.push lane i, running := b.running - 1 }
  /-- A running cell lends its slot. -/
  | lend {b : Board} {r : UInt64} {i : Nat} (h : b.Live r i) (hp : (b.cell i).phase = 2)
    (hs : (b.cell i).slot = true) :
    Step limit b (.slotRelease r) (.status 1) { b.amend i lent with running := b.running - 1 }
  /-- A running cell takes a slot back. -/
  | borrow {b : Board} {r : UInt64} {i : Nat} (h : b.Live r i) (hp : (b.cell i).phase = 2)
    (hs : (b.cell i).slot = false) (hr : b.running ≠ limit) :
    Step limit b (.slotAcquisition r) (.status 1)
      { b.amend i borrowed with running := b.running + 1 }
  /-- A registration is withdrawn, whatever its cell was doing. -/
  | retire {b : Board} {r : UInt64} {i : Nat} (h : b.Live r i) :
    Step limit b (.withdrawal r) .idle
      { b.amend i retired with
        ready := b.ready.remove i, free := i :: b.free,
        running := b.running - (b.cell i).slot.toNat }
  /-- An attempt to admit that ended without a token. -/
  | replenish {b b' : Board} {thread : Nat} {out : Out} (h : Replenish b b')
    (ho : ∀ r, out ≠ .admitted r) : Step limit b (.tryAdmit thread) out b'
  /-- A free cell becomes a registration. -/
  | enrol {b b' : Board} {thread task i : Nat} {lane : Lane} {rest : List Nat}
    (h : Replenish b b') (hf : b'.free = i :: rest) (hg : (b'.cell i).generation ≠ u32Max) :
    Step limit b (.tryAdmit thread) (.admitted (token ((b'.cell i).generation + 1) i))
      { b'.amend i (admitRow task lane) with free := rest }

/-! ## 3. The invariant -/

/-- The number of cells that hold a slot. -/
def slots (b : Board) : Nat := (List.range' 1 b.count).countP fun i => (b.cell i).slot

/-- **The invariant of the board**, for a domain of `limit` slots. -/
structure Ok (limit : Nat) (b : Board) : Prop where
  rota : b.ready.WellFormed
  queued : ∀ i k, i ∈ b.ready.queue k ↔ (b.cell i).phase = 1 ∧ (b.cell i).lane = k
  freeNodup : b.free.Nodup
  free : ∀ i ∈ b.free, b.Cell i ∧ (b.cell i).phase = 3
  exhausted : ∀ i, b.Cell i → (b.cell i).phase = 3 → i ∉ b.free → (b.cell i).generation = u32Max
  outside : ∀ i, ¬ b.Cell i → b.cell i = emptyEntry 0
  generation : ∀ i, (b.cell i).generation ≤ u32Max
  phase : ∀ i, (b.cell i).phase ≤ 3
  slot : ∀ i, (b.cell i).slot = true → (b.cell i).phase = 2
  running : b.running = b.slots
  limit : b.running ≤ limit
  count : b.count ≤ u32Max

variable {limit : Nat} {b b' : Board}

theorem Ok.initial (limit : Nat) : Ok limit ⟨0, fun _ => emptyEntry 0, [], [], 0⟩ where
  rota := ⟨nodup_nil, fun _ h => absurd h not_mem_nil, nodup_nil⟩
  queued i k := by simp [Rota.queue, emptyEntry]
  freeNodup := nodup_nil
  free i h := nomatch h
  exhausted i h := absurd h.2 (by have := h.1; show ¬ i ≤ 0; omega)
  outside _ _ := rfl
  generation _ := Nat.zero_le _
  phase _ := Nat.le_refl 3
  slot i h := by cases h
  running := rfl
  limit := Nat.zero_le _
  count := Nat.zero_le _

variable {i running : Nat}

/-- A cell that is not retired is initialized. -/
theorem Ok.cell_of_phase (h : Ok limit b) (hp : (b.cell i).phase ≠ 3) : b.Cell i := by
  by_contra hc
  rw [h.outside i hc] at hp
  exact hp rfl

section

variable (h : Ok limit b) (hi : b.Cell i)
include h hi

theorem Ok.slots_change {e : Entry} {r f n} (hn : n + (b.cell i).slot.toNat = b.running + e.slot.toNat) :
    n = slots ⟨b.count, Function.update b.cell i e, r, f, n⟩ := by
  have hm : i ∈ List.range' 1 b.count := by
    rw [mem_range'_1]; have := hi.1; have := hi.2; omega
  have hc := countP_change (f := fun i => (b.cell i).slot)
    (g := fun j => (Function.update b.cell i e j).slot) (nodup_range' 1) hm
    fun y _ hy => by simp only [update_of_ne hy]
  simp only [update_self] at hc
  have hr : b.running = (List.range' 1 b.count).countP fun i => (b.cell i).slot := h.running
  show n = (List.range' 1 b.count).countP fun j => (Function.update b.cell i e j).slot
  omega

/-- **One cell changes.** What the rota, the free list and the counter have to respect for the
  board to stay in order. -/
theorem Ok.amend {e : Entry} {ready : Rota Lane Nat} {free : List Nat} (hw : ready.WellFormed)
    (hq : ∀ y, y ≠ i → ∀ k, y ∈ ready.queue k ↔ y ∈ b.ready.queue k)
    (hqi : ∀ k, i ∈ ready.queue k ↔ e.phase = 1 ∧ e.lane = k)
    (hf : free.Nodup) (hfy : ∀ y, y ≠ i → (y ∈ free ↔ y ∈ b.free)) (hfi : i ∈ free ↔ e.phase = 3)
    (hg : e.generation ≤ u32Max) (hp : e.phase ≤ 3) (hs : e.slot = true → e.phase = 2)
    (hr : running + (b.cell i).slot.toNat = b.running + e.slot.toNat) (hl : running ≤ limit) :
  Ok limit ⟨b.count, Function.update b.cell i e, ready, free, running⟩ where
  rota := hw
  queued y k := by
    show y ∈ ready.queue k ↔ (Function.update b.cell i e y).phase = 1 ∧ (Function.update b.cell i e y).lane = k
    by_cases hy : y = i
    · subst hy; rw [update_self]; exact hqi k
    · rw [update_of_ne hy, hq y hy k]; exact h.queued y k
  freeNodup := hf
  free y hm := by
    show b.Cell y ∧ (Function.update b.cell i e y).phase = 3
    by_cases hy : y = i
    · subst hy; rw [update_self]; exact ⟨hi, hfi.mp hm⟩
    · rw [update_of_ne hy]; exact h.free y ((hfy y hy).mp hm)
  exhausted y hc h3 hm := by
    have h3 : (Function.update b.cell i e y).phase = 3 := h3
    show (Function.update b.cell i e y).generation = u32Max
    by_cases hy : y = i
    · subst hy; rw [update_self] at h3; exact absurd (hfi.mpr h3) hm
    · rw [update_of_ne hy] at h3 ⊢
      exact h.exhausted y hc h3 (mt (hfy y hy).mpr hm)
  outside y hc := by
    have hy : y ≠ i := fun e' => hc (e' ▸ hi)
    show Function.update b.cell i e y = _
    rw [update_of_ne hy]; exact h.outside y hc
  generation y := by
    show (Function.update b.cell i e y).generation ≤ _
    by_cases hy : y = i
    · subst hy; rw [update_self]; exact hg
    · rw [update_of_ne hy]; exact h.generation y
  phase y := by
    show (Function.update b.cell i e y).phase ≤ _
    by_cases hy : y = i
    · subst hy; rw [update_self]; exact hp
    · rw [update_of_ne hy]; exact h.phase y
  slot y := by
    show (Function.update b.cell i e y).slot = true → (Function.update b.cell i e y).phase = 2
    by_cases hy : y = i
    · subst hy; rw [update_self]; exact hs
    · rw [update_of_ne hy]; exact h.slot y
  running := h.slots_change hi hr
  limit := hl
  count := h.count

theorem Ok.amend_still {e : Entry}
    (h1 : (b.cell i).phase ≠ 1) (h3 : (b.cell i).phase ≠ 3) (h1' : e.phase ≠ 1) (h3' : e.phase ≠ 3)
    (hg : e.generation ≤ u32Max) (hp : e.phase ≤ 3) (hs : e.slot = true → e.phase = 2)
    (hr : running + (b.cell i).slot.toNat = b.running + e.slot.toNat) (hl : running ≤ limit) :
    Ok limit ⟨b.count, Function.update b.cell i e, b.ready, b.free, running⟩ := by
  refine h.amend hi h.rota (fun _ _ _ => Iff.rfl) (fun k => ?_) h.freeNodup (fun _ _ => Iff.rfl) ?_
    hg hp hs hr hl
  · rw [h.queued i k]
    exact ⟨fun m => absurd m.1 h1, fun m => absurd m.1 h1'⟩
  · exact ⟨fun m => absurd (h.free i m).2 h3, fun m => absurd m h3'⟩

/-- A cell that is neither ready nor free becomes ready. -/
theorem Ok.amend_push {e : Entry} (h1 : (b.cell i).phase ≠ 1) (h3 : (b.cell i).phase ≠ 3) (he : e.phase = 1)
    (hg : e.generation ≤ u32Max) (hs : e.slot = false)
    (hr : running + (b.cell i).slot.toNat = b.running) (hl : running ≤ limit) :
    Ok limit ⟨b.count, Function.update b.cell i e, b.ready.push e.lane i, b.free, running⟩ := by
  have hni : i ∉ b.ready.items := fun m => by
    obtain ⟨k, hk⟩ := Rota.exists_queue h.rota.keys m
    exact h1 ((h.queued i k).mp hk).1
  refine h.amend hi (h.rota.push hni) (fun y hy k => ?_) (fun k => ?_) h.freeNodup
    (fun _ _ => Iff.rfl) ?_ hg (by omega) (fun t => by rw [hs] at t; cases t)
    (by rw [hs]; exact hr) hl
  · rw [Rota.queue_push]
    split
    · rename_i ek
      subst ek
      simp [mem_append, hy]
    · exact Iff.rfl
  · rw [Rota.queue_push]
    split
    · rename_i ek
      subst ek
      simp [he]
    · rename_i ek
      rw [h.queued i k]
      exact ⟨fun m => absurd m.1 h1, fun m => absurd m.2.symm ek⟩
  · rw [he]
    exact ⟨fun m => absurd (h.free i m).2 h3, fun m => by cases m⟩

end

theorem Ok.replenish (h : Ok limit b) (hr : Replenish b b') :
    Ok limit b' ∧ b'.cell = b.cell ∧ b'.ready = b.ready ∧ b'.running = b.running ∧ b.count ≤ b'.count := by
  induction hr with
  | refl b => exact ⟨h, rfl, rfl, rfl, Nat.le_refl _⟩
  | @discard b b' i rest hf hg _ ih =>
    have hnd : (i :: rest).Nodup := hf ▸ h.freeNodup
    refine ih ⟨h.rota, h.queued, (nodup_cons.mp hnd).2, fun y hy => ?_,
      fun y hc h3 hm => ?_, h.outside, h.generation, h.phase, h.slot, h.running, h.limit, h.count⟩
    · exact h.free y (hf ▸ .tail _ hy)
    · by_cases hy : y = i
      · subst hy; exact hg
      · refine h.exhausted y hc h3 fun m => ?_
        rw [hf] at m
        exact hm ((mem_cons.mp m).resolve_left hy)
  | @grow b b' n hf hn hm _ ih =>
    have hmem : ∀ y, y ∈ (List.range' (b.count + 1) (n - b.count)).reverse ↔ b.count < y ∧ y ≤ n := fun y => by
      rw [mem_reverse, mem_range'_1]; omega
    have hout : ∀ y, b.count < y → b.cell y = emptyEntry 0 := fun y hy =>
      h.outside y fun c => by have := c.2; omega
    have hle : b.count ≤ n := Nat.le_of_lt hn
    have hok := ih ⟨h.rota, h.queued, nodup_reverse.mpr (nodup_range' 1),
      fun y hy => ?_, fun y hc h3 hy => ?_, fun y hc => ?_, h.generation, h.phase, h.slot, ?_,
      h.limit, hm⟩
    · obtain ⟨h1, h2, h3, h4, h5⟩ := hok
      exact ⟨h1, h2, h3, h4, hle.trans h5⟩
    · obtain ⟨h1, h2⟩ := (hmem y).mp hy
      refine ⟨⟨by omega, h2⟩, ?_⟩
      rw [hout y h1]; rfl
    · have hlt : ¬ b.count < y := fun hlt => hy ((hmem y).mpr ⟨hlt, hc.2⟩)
      refine h.exhausted y ⟨hc.1, by omega⟩ h3 ?_
      rw [hf]; exact not_mem_nil
    · exact h.outside y fun c => hc ⟨c.1, c.2.trans hle⟩
    · -- fresh cells hold no slot
      show b.running = (List.range' 1 n).countP fun i => (b.cell i).slot
      have hsplit : List.range' 1 n = List.range' 1 b.count ++ List.range' (b.count + 1) (n - b.count) := by
        rw [show n = b.count + (n - b.count) by omega, ← range'_append_1]
        simp [Nat.add_comm]
      have hz : (List.range' (b.count + 1) (n - b.count)).countP (fun i => (b.cell i).slot) = 0 := by
        refine countP_eq_zero.mpr fun y hy => ?_
        rw [mem_range'_1] at hy
        rw [hout y (by omega)]
        simp [emptyEntry]
      rw [hsplit, countP_append, hz, Nat.add_zero]
      exact h.running

theorem Ok.running_pos (h : Ok limit b) (hs : (b.cell i).slot = true) : 0 < b.running := by
  have hi : b.Cell i := h.cell_of_phase (by rw [h.slot i hs]; decide)
  have hm : i ∈ List.range' 1 b.count := by
    rw [mem_range'_1]; have := hi.1; have := hi.2; omega
  rw [h.running]
  exact countP_pos_iff.mpr ⟨i, hm, hs⟩

theorem Ok.slot_false (h : Ok limit b) (hp : (b.cell i).phase ≠ 2) : (b.cell i).slot = false := by
  cases e : (b.cell i).slot with
  | false => rfl
  | true => exact absurd (h.slot i e) hp

/-! ## 4. Every step keeps the invariant -/

section Steps

variable {r : UInt64} {i : Nat}

theorem Ok.note (h : Ok limit b) {cause : Nat} (hl : b.Live r i) (hp : (b.cell i).phase = 2) :
    Ok limit (b.amend i (noted cause)) := by
  refine h.amend_still hl.1 (by omega) (by omega) ?_ ?_ ?_ ?_ ?_ ?_ h.limit
  · rw [noted_phase]; omega
  · rw [noted_phase]; omega
  · rw [noted_generation]; exact h.generation i
  · rw [noted_phase]; exact h.phase i
  · exact fun _ => (noted_phase ..).trans hp
  · rw [noted_slot]

theorem Ok.wake (h : Ok limit b) {cause now : Nat} (hl : b.Live r i) (hp : (b.cell i).phase = 0) :
    Ok limit { b.amend i fun row => readied cause now (countWake row) with
      ready := b.ready.push (b.cell i).lane i } := by
  have hslot := h.slot_false (i := i) (by omega)
  have hlane : (readied cause now (countWake (b.cell i))).lane = (b.cell i).lane := by simp
  rw [← hlane]
  refine h.amend_push hl.1 (by omega) (by omega) rfl ?_ ?_ ?_ h.limit
  · simpa using h.generation i
  · simpa using hslot
  · rw [hslot]; rfl

theorem Ok.dispatch (h : Ok limit b) {p : Lane → Bool} {lane : Lane} {ready : Rota Lane Nat}
    (hr : b.running ≠ limit) (hs : b.ready.serve p = some (lane, i, ready)) :
    Ok limit { b.amend i claimed with ready := ready, running := b.running + 1 } := by
  obtain ⟨hq, hother⟩ := Rota.queue_serve h.rota.keys hs
  obtain ⟨hp, hlane⟩ := (h.queued i lane).mp (hq ▸ (.head _))
  have hnd : (i :: ready.queue lane).Nodup :=
    hq ▸ h.rota.items.sublist (Rota.queue_sublist _ _)
  refine h.amend (h.cell_of_phase (by omega)) (h.rota.serve hs) (fun y hy k => ?_) (fun k => ?_)
    h.freeNodup (fun _ _ => Iff.rfl) ?_ (h.generation i) ?_ (fun _ => rfl) ?_ ?_
  · by_cases hk : k = lane
    · subst hk
      rw [hq, mem_cons]
      exact ⟨.inr, fun m => m.resolve_left hy⟩
    · rw [hother k hk]
  · refine ⟨fun m => ?_, fun m => by simp at m⟩
    by_cases hk : k = lane
    · subst hk; exact absurd m (nodup_cons.mp hnd).1
    · rw [hother k hk, h.queued] at m
      exact absurd (m.2.symm.trans hlane) hk
  · exact ⟨fun m => absurd (h.free i m).2 (by omega), fun m => by simp at m⟩
  · rw [claimed_phase]; omega
  · rw [h.slot_false (i := i) (by omega)]; rfl
  · have := h.limit; omega

section

variable (h : Ok limit b) (hl : b.Live r i) (hp : (b.cell i).phase = 2)
include h hl hp

theorem Ok.idle {lane : Lane} (hs : (b.cell i).slot = true) :
    Ok limit { b.amend i (releaseRow lane) with running := b.running - 1 } := by
  have hpos := h.running_pos hs
  refine h.amend_still hl.1 (by omega) (by omega) (by simp) (by simp) (h.generation i) (by simp)
    (by simp) ?_ ?_
  · rw [hs, releaseRow_slot, Bool.toNat_true, Bool.toNat_false]; omega
  · have := h.limit; omega

theorem Ok.requeue {lane : Lane} {cancellation now : Nat} (hs : (b.cell i).slot = true) :
    Ok limit { b.amend i fun row => readied (due row cancellation) now (releaseRow lane row) with
      ready := b.ready.push lane i, running := b.running - 1 } := by
  have hpos := h.running_pos hs
  refine h.amend_push hl.1 (by omega) (by omega) rfl (h.generation i) rfl ?_ ?_
  · rw [hs, Bool.toNat_true]; omega
  · have := h.limit; omega

theorem Ok.lend (hs : (b.cell i).slot = true) : Ok limit { b.amend i lent with running := b.running - 1 } := by
  have hpos := h.running_pos hs
  refine h.amend_still hl.1 (by omega) (by omega) ?_ ?_ (h.generation i) (h.phase i) (by simp) ?_ ?_
  · rw [lent_phase]; omega
  · rw [lent_phase]; omega
  · rw [hs, lent_slot, Bool.toNat_true, Bool.toNat_false]; omega
  · have := h.limit; omega

theorem Ok.borrow (hs : (b.cell i).slot = false) (hr : b.running ≠ limit) :
    Ok limit { b.amend i borrowed with running := b.running + 1 } := by
  refine h.amend_still hl.1 (by omega) (by omega) ?_ ?_ (h.generation i) (h.phase i)
    (fun _ => hp) ?_ ?_
  · rw [borrowed_phase]; omega
  · rw [borrowed_phase]; omega
  · rw [hs]; rfl
  · have := h.limit; omega

end

theorem Ok.retire (h : Ok limit b) (hl : b.Live r i) : Ok limit { b.amend i retired with
  ready := b.ready.remove i, free := i :: b.free,
  running := b.running - (b.cell i).slot.toNat } := by
  have hif : i ∉ b.free := fun m => hl.2.2.2 (h.free i m).2
  refine h.amend hl.1 (h.rota.remove i) (fun y hy k => ?_) (fun k => ?_)
    (nodup_cons.mpr ⟨hif, h.freeNodup⟩) (fun y hy => ?_) ?_ (h.generation i) ?_
    (by simp) ?_ ?_
  · rw [Rota.queue_remove h.rota.keys, mem_erase_of_ne hy]
  · have hnd : (b.ready.queue k).Nodup := h.rota.items.sublist (Rota.queue_sublist _ _)
    rw [Rota.queue_remove h.rota.keys]
    exact ⟨fun m => absurd m hnd.not_mem_erase, fun m => by simp at m⟩
  · rw [mem_cons]
    exact ⟨fun m => m.resolve_left hy, .inr⟩
  · exact ⟨fun _ => rfl, fun _ => (.head _)⟩
  · rw [retired_phase]
  · cases e : (b.cell i).slot with
    | false => simp
    | true =>
      have := h.running_pos e
      rw [retired_slot, Bool.toNat_true, Bool.toNat_false]; omega
  · have := h.limit; omega

theorem Ok.enrol (h : Ok limit b) {task : Nat} {lane : Lane} {rest : List Nat}
    (hf : b.free = i :: rest) (hg : (b.cell i).generation ≠ u32Max) :
    Ok limit { b.amend i (admitRow task lane) with free := rest } := by
  have hnd : (i :: rest).Nodup := hf ▸ h.freeNodup
  obtain ⟨hi, h3⟩ := h.free i (hf ▸ (.head _))
  refine h.amend hi h.rota (fun _ _ _ => Iff.rfl) (fun k => ?_) (nodup_cons.mp hnd).2
    (fun y hy => ?_) ?_ ?_ (by simp) (by simp) ?_ h.limit
  · show i ∈ b.ready.queue k ↔ _
    rw [h.queued]
    exact ⟨fun m => absurd m.1 (by omega), fun m => by simp at m⟩
  · rw [hf, mem_cons]
    exact ⟨.inr, fun m => m.resolve_left hy⟩
  · exact ⟨fun m => absurd m (nodup_cons.mp hnd).1, fun m => by simp at m⟩
  · have := h.generation i
    rw [admitRow_generation]; omega
  · rw [h.slot_false (i := i) (by omega)]; rfl

end Steps

/-- **The invariant holds along every step of the abstract scheduler.** -/
theorem Ok.step (h : Ok limit b) {op : Op} {out : Out} (hs : Step limit b op out b') : Ok limit b' := by
  cases hs with
  | stay => exact h
  | stale => exact h
  | join => exact h
  | note hl hp _ => exact h.note hl hp
  | wake hl hp => exact h.wake hl hp
  | dispatch hr hs => exact h.dispatch hr hs
  | idle hl hp hs _ => exact h.idle hl hp hs
  | requeue hl hp hs _ => exact h.requeue hl hp hs
  | lend hl hp hs => exact h.lend hl hp hs
  | borrow hl hp hs hr => exact h.borrow hl hp hs hr
  | retire hl => exact h.retire hl
  | replenish hr _ => exact (h.replenish hr).1
  | enrol hr hf hg => exact (h.replenish hr).1.enrol hf hg

end Board

end Bray.Scheduler
