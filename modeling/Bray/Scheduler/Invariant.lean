/-
  File:      Bray/Scheduler/Invariant.lean
  Subject:   THE WHOLE MACHINE REFINES THE BOARD, and what holds in every state it reaches.

  `Healthy sys b` joins the layout of the lists, the order of the board, the shape of the arenas
  and the admissions in progress. `step_sim` is the simulation: a step of a healthy system is the
  abstract step of the board, or the abort of a caller that broke its claim. Everything after
  this file about runs is an induction over `step_sim`.
-/
import Bray.Scheduler.Admit

namespace Bray.Scheduler

open Bray.Lib
open List (not_mem_nil)

/-- An admission in progress has prepared, or been asked for, no more than the next size. -/
structure Admission.Fits (s : State) (a : Admission) : Prop where
  prepared : a.prepared.Fits s
  request : ∀ g, a.request = some g → g.Fits s

structure Healthy (sys : System) (b : Board) : Prop where
  sound : Sound sys.domain.state sys.domain.limit b
  storage : Storage sys.domain.state
  admissions : ∀ thread a, sys.admissions thread = some a → a.Fits sys.domain.state

/-- The aborts that only a caller without the claim can reach. -/
def Misuse : Op → Fault → Prop
  | .release _ _ _ _, .releaseUnclaimed => True
  | .slotAcquisition _, .slotAcquisitionUnclaimed => True
  | .parkingWithdrawal _, .parkingUnbalanced => True
  | _, _ => False

theorem Admission.Fits.wider {s s' : State} {a : Admission} (h : a.Fits s) (hw : Wider s s') : a.Fits s' :=
  ⟨h.prepared.wider hw, fun g hg => (h.request g hg).wider hw⟩

theorem Healthy.initial (capabilities main limit : Nat) :
  Healthy (System.initial capabilities main limit) ⟨0, fun _ => emptyEntry 0, [], [], 0⟩ where
  sound := by
    refine ⟨⟨⟨[], fun _ => [], [], []⟩, ?_, ?_⟩, .initial limit⟩
    · refine ⟨⟨.empty _ _, fun q h => absurd h not_mem_nil, fun q h => absurd h not_mem_nil,
      fun p h => absurd h not_mem_nil, .empty _, fun q h => absurd h not_mem_nil,
      fun q => ?_, fun q h => absurd h not_mem_nil, .empty _,
      fun e h => absurd h not_mem_nil, fun q h => absurd h not_mem_nil, fun e h => ?_⟩,
      fun q h => absurd h not_mem_nil, Nat.le_refl _⟩
      · refine ⟨fun h => ?_, fun h => by rcases h with h | h <;> exact absurd h not_mem_nil⟩
        have : q ≤ 0 := h.2
        exact absurd (Nat.le_zero.mp this) h.1
      · have : e ≤ 0 := h.2
        exact absurd (Nat.le_zero.mp this) h.1
    · simp only [board, View.rota, Board.mk.injEq]
      refine ⟨rfl, ?_, rfl, trivial, rfl⟩
      funext i
      show emptyEntry 0 = ((Domain.initial capabilities main limit).state.row i).data
      simp [State.row, State.entryRows, Domain.initial]
      rfl
  storage := .level rfl rfl rfl
  admissions thread a h := by cases h

section Simulation

variable {sys : System} {b : Board}

/-- A step that only touches the domain, and no storage. -/
theorem Healthy.relocate (h : Healthy sys b) {domain : Domain} {b' : Board}
    (hl : domain.limit = sys.domain.limit) (hz : Sized sys.domain.state domain.state)
  (hs : Sound domain.state sys.domain.limit b') : Healthy { sys with domain := domain } b' where
  sound := hl.symm ▸ hs
  storage := h.storage.of_sized hz
  admissions thread a ha := (h.admissions thread a ha).wider hz.wider

/-- A step that only touches the signals and the waiters. -/
theorem Healthy.resignal (h : Healthy sys b) {domain : Domain} (hl : domain.limit = sys.domain.limit)
    (he : domain.state.entries = sys.domain.state.entries) (hq : domain.state.queues = sys.domain.state.queues)
    (h1 : domain.state.freeQueue = sys.domain.state.freeQueue)
    (h2 : domain.state.free = sys.domain.state.free) (h3 : domain.state.head = sys.domain.state.head)
    (h4 : domain.state.tail = sys.domain.state.tail)
    (h5 : domain.state.running = sys.domain.state.running) : Healthy { sys with domain := domain } b := by
  have er : domain.state.entryRows = sys.domain.state.entryRows := by simp only [State.entryRows, he]
  have eq : domain.state.queueRows = sys.domain.state.queueRows := by simp only [State.queueRows, hq]
  obtain ⟨⟨v, hL, rfl⟩, ho⟩ := h.sound
  refine h.relocate hl ⟨congrArg List.length er, congrArg List.length eq, by rw [he], by rw [hq]⟩ ?_
  exact ⟨⟨v, hL.of_eq er eq h1 h2 h3 h4, (board_of_eq er eq h5).symm⟩, ho⟩

theorem Healthy.setAdmission (h : Healthy sys b) {thread : Nat} {a : Option Admission}
  (ha : ∀ x, a = some x → x.Fits sys.domain.state) : Healthy (sys.setAdmission thread a) b where
  sound := h.sound
  storage := h.storage
  admissions t x hx := by
    have hx : Function.update sys.admissions thread a t = some x := hx
    by_cases e : t = thread
    · subst e; rw [Function.update_self] at hx; exact ha x hx
    · rw [Function.update_of_ne e] at hx; exact h.admissions t x hx

theorem token_pos (g i : Nat) : token (g + 1) i ≠ 0 := by
  intro h
  have h1 := (Nat.or_eq_zero_iff.mp h).1
  rw [Nat.shiftLeft_eq] at h1
  have : (g + 1) * 2 ^ 32 ≠ 0 := Nat.mul_ne_zero (by omega) (by decide)
  exact this h1

section

variable (h : Healthy sys b)
include h

theorem tryAdmit_sim (thread : Nat) : ∃ sys' out b', sys.tryAdmit thread = .ok (sys', out) ∧ Healthy sys' b' ∧
      sys'.domain.limit = sys.domain.limit ∧ b.Step sys.domain.limit (.tryAdmit thread) out b' := by
  cases ha : sys.admissions thread with
  | none =>
    refine ⟨sys, .idle, b, ?_, h, rfl, .stay trivial⟩
    simp only [System.tryAdmit, ha]
  | some a =>
    obtain ⟨task, lane, prepared, request⟩ := a
    cases request with
    | some g =>
      refine ⟨sys, .idle, b, ?_, h, rfl, .stay trivial⟩
      simp only [System.tryAdmit, ha]
    | none =>
      obtain ⟨⟨v, hL, rfl⟩, ho⟩ := h.sound
      obtain ⟨s', v', p', res, e, a⟩ :=
        tryAdmit_spec task lane hL ho h.storage (h.admissions thread _ ha).prepared
      simp only [System.tryAdmit, ha, e, ok_bind]
      -- the domain after the attempt, with the other admissions as they were
      have fresh : ∀ b', board s' v' = b' → b'.Ok sys.domain.limit →
        Healthy { sys with domain := { sys.domain with state := s' } } b' :=
        fun b' hb hok => ⟨⟨⟨v', a.laid, hb.symm⟩, hok⟩, a.storage,
          fun t x hx => (h.admissions t x hx).wider a.wider⟩
      have ht := a.tried
      generalize hb : board s' v' = b₂ at ht
      cases ht with
      | refused hrep hzero =>
        have hok := (ho.replenish hrep).1
        cases res with
        | ok token =>
          obtain rfl := hzero token rfl
          exact ⟨_, _, b₂, rfl, (fresh b₂ hb hok).setAdmission fun x hx => (by cases hx), rfl,
            .replenish hrep fun r e => by cases e⟩
        | error g =>
          refine ⟨_, _, b₂, rfl, (fresh b₂ hb hok).setAdmission fun x hx => ?_, rfl,
            .replenish hrep fun r e => by cases e⟩
          obtain rfl := (Option.some.inj hx)
          exact ⟨a.fits, fun g' hg => a.request g' (by rw [Option.some.inj hg])⟩
      | @admitted b' i rest hrep hf hg =>
        have st : (board sys.domain.state v).Step sys.domain.limit (.tryAdmit thread)
          (.admitted (token ((b'.cell i).generation + 1) i))
          { b'.amend i (admitRow task lane) with free := rest } := .enrol hrep hf hg
        have hne := token_pos (b'.cell i).generation i
        generalize htok : token ((b'.cell i).generation + 1) i = t at st hne
        obtain ⟨n, rfl⟩ : ∃ n, t = n + 1 := ⟨t - 1, by omega⟩
        exact ⟨_, _, _, rfl, (fresh _ hb (ho.step st)).setAdmission fun x hx => (by cases hx), rfl, st⟩

theorem prepareGrowth_sim (thread : Nat) (granted : Bool) : Healthy (sys.prepareGrowth thread granted).1 b ∧
      (sys.prepareGrowth thread granted).1.domain = sys.domain := by
  unfold System.prepareGrowth
  split
  · rename_i task lane prepared required ha
    have hf := h.admissions thread _ ha
    have hp : (prepareGrowth prepared granted required).Fits sys.domain.state := by
      have hr := hf.request required rfl
      cases required with
      | entries c =>
        refine ⟨?_, hf.prepared.queues⟩
        cases granted with
        | false => exact Nat.zero_le _
        | true => exact hr
      | queues c =>
        refine ⟨hf.prepared.entries, ?_⟩
        cases granted with
        | false => exact Nat.zero_le _
        | true => exact hr
    split
    · refine ⟨h.setAdmission fun x hx => ?_, rfl⟩
      obtain rfl := Option.some.inj hx
      exact ⟨hp, fun g hg => by cases hg⟩
    · exact ⟨h.setAdmission fun x hx => (by cases hx), rfl⟩
  · exact ⟨h, rfl⟩

theorem snapshot_ok (r : UInt64) : ∃ result, snapshot sys.domain r.toNat = .ok result := by
  obtain ⟨⟨v, hL, rfl⟩, ho⟩ := h.sound
  obtain ⟨i, hi, hcase⟩ := indexOf_spec sys.domain.state v r
  simp only [snapshot, hi, ok_bind]
  rcases hcase with ⟨rfl, _⟩ | ⟨h0, hl⟩
  · exact ⟨none, rfl⟩
  · rw [if_neg h0]
    simp only [observation, entry_ok hl.hasRow, ok_bind, pure_ok]
    exact ⟨_, rfl⟩

theorem parkingRegistration_sim :
  Healthy { sys with domain := (parkingRegistration sys.domain).1 } b ∧
    (parkingRegistration sys.domain).1.limit = sys.domain.limit := by
  unfold parkingRegistration
  split
  · exact ⟨h.resignal rfl rfl rfl rfl rfl rfl rfl rfl, rfl⟩
  · split
    · exact ⟨h.resignal rfl rfl rfl rfl rfl rfl rfl rfl, rfl⟩
    · exact ⟨h, rfl⟩

theorem parkingWithdrawal_sim {group : Fin 2} (hw : sys.domain.state.waiters group ≠ 0) :
  ∃ d, parkingWithdrawal sys.domain group = .ok d ∧ Healthy { sys with domain := d } b ∧
    d.limit = sys.domain.limit := by
  refine ⟨_, if_neg hw, ?_, rfl⟩
  exact h.resignal rfl rfl rfl rfl rfl rfl rfl rfl

/-- **The simulation.** A step of a healthy system is a step of the board, or it stops a caller
  that broke its claim. -/
theorem step_sim (op : Op) : (∃ f, step sys op = .error f ∧ Misuse op f) ∨
    ∃ sys' out b', step sys op = .ok (sys', out) ∧ Healthy sys' b' ∧
      sys'.domain.limit = sys.domain.limit ∧ b.Step sys.domain.limit op out b' := by
  cases op with
  | admission thread task lane =>
    refine .inr ?_
    cases ha : sys.admissions thread with
    | some a => exact ⟨sys, .idle, b, by simp only [step, ha], h, rfl, .stay trivial⟩
    | none =>
      refine ⟨_, .pending, b, by simp only [step, ha]; rfl, h.setAdmission fun x hx => ?_, rfl, .stay trivial⟩
      obtain rfl := Option.some.inj hx
      exact ⟨⟨Nat.zero_le _, Nat.zero_le _⟩, fun g hg => by cases hg⟩
  | tryAdmit thread => exact .inr (tryAdmit_sim h thread)
  | prepareGrowth thread granted =>
    obtain ⟨h1, h2⟩ := prepareGrowth_sim h thread granted
    exact .inr ⟨_, _, b, rfl, h1, congrArg Domain.limit h2, .stay trivial⟩
  | wake r cause now =>
    obtain ⟨d, code, b', e, hl, hz, hs, st⟩ := wake_sim h.sound r cause now
    exact .inr ⟨_, _, b', by simp only [step, e, ok_bind]; rfl, h.relocate hl hz hs, hl, st⟩
  | withdrawal r =>
    obtain ⟨d, b', e, hl, hz, hs, st⟩ := withdrawal_sim h.sound r
    exact .inr ⟨_, _, b', by simp only [step, e, ok_bind]; rfl, h.relocate hl hz hs, hl, st⟩
  | acquisition thread lanes =>
    obtain ⟨d, res, b', e, hl, hz, hs, st⟩ := acquisition_sim h.sound thread lanes
    exact .inr ⟨_, _, b', by simp only [step, e, ok_bind]; rfl, h.relocate hl hz hs, hl, st⟩
  | release r lane cancellation now =>
    rcases release_sim h.sound r lane cancellation now with e | ⟨d, code, b', e, hl, hz, hs, st⟩
    · exact .inl ⟨.releaseUnclaimed, by simp only [step, e]; rfl, trivial⟩
    · exact .inr ⟨_, _, b', by simp only [step, e, ok_bind]; rfl, h.relocate hl hz hs, hl, st⟩
  | snapshot r =>
    obtain ⟨res, e⟩ := snapshot_ok h r
    exact .inr ⟨sys, _, b, by simp only [step, e, ok_bind]; rfl, h, rfl, .stay trivial⟩
  | slotRelease r =>
    obtain ⟨d, code, b', e, hl, hz, hs, st⟩ := slotRelease_sim h.sound r
    exact .inr ⟨_, _, b', by simp only [step, e, ok_bind]; rfl, h.relocate hl hz hs, hl, st⟩
  | slotAcquisition r =>
    rcases slotAcquisition_sim h.sound r with e | ⟨d, code, b', e, hl, hz, hs, st⟩
    · exact .inl ⟨.slotAcquisitionUnclaimed, by simp only [step, e]; rfl, trivial⟩
    · exact .inr ⟨_, _, b', by simp only [step, e, ok_bind]; rfl, h.relocate hl hz hs, hl, st⟩
  | parkingRegistration =>
    obtain ⟨h1, h2⟩ := parkingRegistration_sim h
    exact .inr ⟨_, _, b, rfl, h1, h2, .stay trivial⟩
  | parkingWithdrawal group =>
    by_cases hw : sys.domain.state.waiters group = 0
    · exact .inl ⟨.parkingUnbalanced, by simp only [step, parkingWithdrawal, if_pos hw]; rfl, trivial⟩
    · obtain ⟨d, e, h1, h2⟩ := parkingWithdrawal_sim h hw
      exact .inr ⟨_, _, b, by simp only [step, e, ok_bind]; rfl, h1, h2, .stay trivial⟩
  | notification =>
    exact .inr ⟨_, _, b, rfl, h.resignal rfl rfl rfl rfl rfl rfl rfl rfl, rfl, .stay trivial⟩

end

/-- The simulation, read from a step that succeeded. -/
theorem Healthy.step (h : Healthy sys b) {op : Op} {sys' : System} {out : Out}
    (hs : Scheduler.step sys op = .ok (sys', out)) :
    ∃ b', Healthy sys' b' ∧ sys'.domain.limit = sys.domain.limit ∧ b.Step sys.domain.limit op out b' := by
  rcases step_sim h op with ⟨f, e, _⟩ | ⟨sys₁, out₁, b', e, h1, h2, h3⟩
  · rw [hs] at e; cases e
  · rw [hs] at e
    cases e
    exact ⟨b', h1, h2, h3⟩

/-- **Every reachable system is healthy.** -/
theorem Reached.healthy {s : System} (h : Reached s) : ∃ b, Healthy s b := by
  obtain ⟨capabilities, main, limit, tr, hr⟩ := h
  refine hr.invariant (P := fun s => ∃ b, Healthy s b) (fun s i s' o hb hs => ?_)
    ⟨_, Healthy.initial capabilities main limit⟩
  obtain ⟨b, hb⟩ := hb
  obtain ⟨b', hb', _⟩ := hb.step hs
  exact ⟨b', hb'⟩

end Simulation

end Bray.Scheduler
