/-
  File:      Bray/Scheduler/Waiters.lean
  Subject:   THE PARKING PROTOCOL. Any number of waiters register, park and withdraw (the guard
             `Parking` of wait.rs) while queue transitions raise the signal words.

  A waiter keeps the group it was given until it withdraws; group 2 is no group, its waiter
  neither parks nor is counted. A signal is raised under the lock and notified after its release,
  so a notification can be in flight (`Lot.notifications`). The target wait compares the word with
  0 and blocks in one step; it ends when it is notified, or on its own (timeout, spurious).

  The word of a group is up only while the group has a waiter (`Lot.Inv`), and a word that is up
  takes no new waiter: so the waiters of a raised group are those it was raised for, less those
  that withdrew (`Raised`).
-/
import Bray.Lib.Census
import Bray.Lib.Run
import Bray.Scheduler.Parking

namespace Bray.Scheduler

open Bray.Lib

/-- What a waiter is doing: nothing, checking for work under a registration, or blocked. -/
inductive Phase where
  | away
  | registered (group : Nat)
  | parked (group : Fin 2)

structure Lot (n : Nat) where
  domain : Domain
  phase : Fin n → Phase
  /-- Raised signals whose `notify` has not run yet, as the masks `prepare_signal` returned. -/
  notifications : List Nat

inductive LotOp (n : Nat) where
  | register (waiter : Fin n)
  | withdraw (waiter : Fin n)
  | park (waiter : Fin n)
  | unpark (waiter : Fin n)
  | signal
  | notify (index : Nat)
  deriving DecidableEq

/-- What a step tells. A step of a waiter that is not in the phase for it is `idle`. -/
inductive LotOut where
  | idle
  | joined (group : Nat)
  | withdrawn
  | parked
  | returned
  | signalled (notifications : Nat)
  deriving DecidableEq

/-! ## 1. Steps -/

namespace Lot

variable {n : Nat}

def setPhase (s : Lot n) (waiter : Fin n) (phase : Phase) : Lot n :=
  { s with phase := Function.update s.phase waiter phase }

/-- `notify`: the waits on the words of the mask end. -/
def wakeGroups (mask : Nat) : Phase → Phase
  | .parked group => if mask.testBit group then .registered group else .parked group
  | phase => phase

/-- **One step of the parking protocol.** -/
def step (s : Lot n) : LotOp n → Except Fault (Lot n × LotOut)
  | .register waiter => match s.phase waiter with
    | .away =>
      let (domain, group) := parkingRegistration s.domain
      .ok ({ s with domain := domain }.setPhase waiter (.registered group), .joined group)
    | _ => .ok (s, .idle)
  | .withdraw waiter => match s.phase waiter with
    | .registered group =>
      if h : group < 2 then do
        let domain ← parkingWithdrawal s.domain ⟨group, h⟩
        return ({ s with domain := domain }.setPhase waiter .away, .withdrawn)
      else .ok (s.setPhase waiter .away, .withdrawn)
    | _ => .ok (s, .idle)
  | .park waiter => match s.phase waiter with
    | .registered group =>
      if h : group < 2 then
        if s.domain.signals ⟨group, h⟩ = 0 then
          .ok (s.setPhase waiter (.parked ⟨group, h⟩), .parked)
        else .ok (s, .returned)
      else .ok (s, .returned)
    | _ => .ok (s, .idle)
  | .unpark waiter => match s.phase waiter with
    | .parked group => .ok (s.setPhase waiter (.registered group), .returned)
    | _ => .ok (s, .idle)
  | .signal =>
    let (domain, mask) := prepareSignal s.domain
    .ok ({ s with domain := domain, notifications := mask :: s.notifications }, .signalled mask)
  | .notify index => match s.notifications[index]? with
    | some mask =>
      .ok ({ s with phase := fun waiter => wakeGroups mask (s.phase waiter),
                    notifications := s.notifications.eraseIdx index }, .idle)
    | none => .ok (s, .idle)

/-- A new domain without waiters. -/
def initial (capabilities main limit : Nat) : Lot n :=
  ⟨Domain.initial capabilities main limit, fun _ => .away, []⟩

end Lot

/-- A waiter of the group, parked or not. -/
def Phase.inGroup (group : Fin 2) : Phase → Prop
  | .away => False
  | .registered joined => joined = group
  | .parked joined => joined = group

instance (group : Fin 2) : DecidablePred (Phase.inGroup group)
  | .away => inferInstanceAs (Decidable False)
  | .registered joined => inferInstanceAs (Decidable (joined = group))
  | .parked joined => inferInstanceAs (Decidable (joined = group))

namespace Lot

variable {n : Nat}

def join (s : Lot n) (group : Fin 2) : Lot n :=
  { s with domain := { s.domain with state := { s.domain.state with
      waiters := fun other =>
        if other = group then s.domain.state.waiters group + 1 else s.domain.state.waiters other } } }

/-- One waiter less in the group; the last one takes the word down. -/
def leave (s : Lot n) (group : Fin 2) : Lot n :=
  { s with domain := { s.domain with
      state := { s.domain.state with
        waiters := fun other => if other = group then s.domain.state.waiters group - 1
          else s.domain.state.waiters other }
      signals := fun other => if other = group ∧ s.domain.state.waiters group - 1 = 0 then 0
        else s.domain.signals other } }

/-- Everything a step can do. -/
inductive Moves (s : Lot n) : LotOp n → LotOut → Lot n → Prop where
  | stay (op : LotOp n) (o : LotOut) (ho : o = .idle ∨ o = .returned) : Moves s op o s
  | turnAway (w : Fin n) (hw : s.phase w = .away) :
    Moves s (.register w) (.joined 2) (s.setPhase w (.registered 2))
  | joins (w : Fin n) (group : Fin 2) (hw : s.phase w = .away)
    (hdown : s.domain.signals group = 0) :
    Moves s (.register w) (.joined group) ((s.join group).setPhase w (.registered group))
  | leavesNone (w : Fin n) (group : Nat) (hw : s.phase w = .registered group) (hg : ¬ group < 2) :
    Moves s (.withdraw w) .withdrawn (s.setPhase w .away)
  | leaves (w : Fin n) (group : Fin 2) (hw : s.phase w = .registered group)
    (hcount : s.domain.state.waiters group ≠ 0) :
    Moves s (.withdraw w) .withdrawn ((s.leave group).setPhase w .away)
  | parks (w : Fin n) (group : Fin 2) (hw : s.phase w = .registered group)
    (hdown : s.domain.signals group = 0) :
    Moves s (.park w) .parked (s.setPhase w (.parked group))
  | wakes (w : Fin n) (group : Fin 2) (hw : s.phase w = .parked group) :
    Moves s (.unpark w) .returned (s.setPhase w (.registered group))
  | signals : Moves s .signal (.signalled (prepareSignal s.domain).2)
    { s with domain := (prepareSignal s.domain).1, notifications := (prepareSignal s.domain).2 :: s.notifications }
  | notifies (index mask : Nat) (hm : s.notifications[index]? = some mask) :
    Moves s (.notify index) .idle
      { s with phase := fun w => wakeGroups mask (s.phase w), notifications := s.notifications.eraseIdx index }

variable {s s' : Lot n} {op : LotOp n} {o : LotOut}

/-- **A step does one of these.** -/
theorem moves_of_step (h : step s op = .ok (s', o)) : Moves s op o s' := by
  cases op with
  | register w =>
    simp only [step] at h
    split at h
    · rename_i hw
      unfold parkingRegistration at h
      split at h
      · rename_i hdown
        cases h
        exact .joins w 0 hw hdown
      · split at h
        · rename_i hdown
          cases h
          exact .joins w 1 hw hdown
        · cases h
          exact .turnAway w hw
    · cases h
      exact .stay _ _ (.inl rfl)
  | withdraw w =>
    simp only [step] at h
    split at h
    · rename_i group hw
      split at h
      · rename_i hg
        unfold parkingWithdrawal at h
        split at h
        · cases h
        · rename_i hcount
          cases h
          exact .leaves w ⟨group, hg⟩ hw hcount
      · rename_i hg
        cases h
        exact .leavesNone w group hw hg
    · cases h
      exact .stay _ _ (.inl rfl)
  | park w =>
    simp only [step] at h
    split at h
    · rename_i group hw
      split at h
      · rename_i hg
        split at h
        · rename_i hdown
          cases h
          exact .parks w ⟨group, hg⟩ hw hdown
        · cases h
          exact .stay _ _ (.inr rfl)
      · cases h
        exact .stay _ _ (.inr rfl)
    · cases h
      exact .stay _ _ (.inl rfl)
  | unpark w =>
    simp only [step] at h
    split at h
    · rename_i group hw
      cases h
      exact .wakes w group hw
    · cases h
      exact .stay _ _ (.inl rfl)
  | signal =>
    cases h
    exact .signals
  | notify index =>
    simp only [step] at h
    split at h
    · rename_i mask hm
      cases h
      exact .notifies index mask hm
    · cases h
      exact .stay _ _ (.inl rfl)

/-! ## 2. The groups count their waiters -/

/-- **The invariant**: every group counts its waiters, its word is up only while it has some, and a
    waiter parked on a word that is up is about to be notified. -/
structure Inv (s : Lot n) : Prop where
  counted : ∀ group, s.domain.state.waiters group = census s.phase (Phase.inGroup group)
  raised : ∀ group, s.domain.signals group ≠ 0 → s.domain.state.waiters group ≠ 0
  notified : ∀ waiter group, s.phase waiter = .parked group → s.domain.signals group ≠ 0 →
    ∃ mask ∈ s.notifications, mask.testBit group = true

theorem inv_initial (capabilities main limit : Nat) : (initial capabilities main limit : Lot n).Inv where
  counted := by
    intro group
    exact (census_eq_zero fun _ => id).symm
  raised := by
    intro group h
    exact absurd rfl h
  notified := by
    intro w group h
    cases h

/-- `prepare_signal` raises the words of all groups with a waiter, and the mask holds those it
    raised. -/
theorem prepareSignal_signals (value : Domain) (group : Fin 2) : (prepareSignal value).1.signals group ≠ 0 ↔
      value.state.waiters group ≠ 0 ∨ value.signals group ≠ 0 := by
  simp only [prepareSignal]
  split
  · rename_i h
    simp only [Bool.and_eq_true, bne_iff_ne] at h
    simp [h.1]
  · rename_i h
    simp only [Bool.and_eq_true, bne_iff_ne, beq_iff_eq, not_and] at h
    constructor
    · exact .inr
    · rintro (hw | hs)
      · exact h hw
      · exact hs

theorem prepareSignal_mask (value : Domain) (group : Fin 2)
    (hup : (prepareSignal value).1.signals group ≠ 0) (hdown : value.signals group = 0) :
    (prepareSignal value).2.testBit group = true := by
  have hw : value.state.waiters group ≠ 0 := by
    rcases (prepareSignal_signals value group).mp hup with hw | hs
    · exact hw
    · exact absurd hdown hs
  have hraised : (value.state.waiters group != 0 && value.signals group == 0) = true := by
    simp [hw, hdown]
  simp only [prepareSignal, Nat.testBit_or, Bool.or_eq_true]
  match group, hraised with
  | 0, hraised => exact .inl (by rw [if_pos hraised]; decide)
  | 1, hraised => exact .inr (by rw [if_pos hraised]; decide)

@[simp] theorem setPhase_self (s : Lot n) (w : Fin n) (phase : Phase) :
    (s.setPhase w phase).phase w = phase := Function.update_self ..

theorem setPhase_of_ne (s : Lot n) {w v : Fin n} (h : v ≠ w) (phase : Phase) :
    (s.setPhase w phase).phase v = s.phase v := Function.update_of_ne h ..

@[simp] theorem setPhase_domain (s : Lot n) (w : Fin n) (phase : Phase) :
    (s.setPhase w phase).domain = s.domain := rfl

theorem census_setPhase (s : Lot n) (w : Fin n) (phase : Phase) (group : Fin 2) :
    census (s.setPhase w phase).phase (Phase.inGroup group) + (if Phase.inGroup group (s.phase w) then 1 else 0) =
      census s.phase (Phase.inGroup group) + if Phase.inGroup group phase then 1 else 0 :=
  census_update s.phase (Phase.inGroup group) w phase

section SetPhase

variable {s : Lot n} {w : Fin n} {phase : Phase}

/-- A waiter that stays in its group, or in none, is counted as before. -/
theorem census_setPhase_same {group : Fin 2} (h : Phase.inGroup group (s.phase w) ↔ Phase.inGroup group phase) :
    census (s.setPhase w phase).phase (Phase.inGroup group) = census s.phase (Phase.inGroup group) := by
  have e := census_setPhase s w phase group
  simp only [h] at e
  omega

/-- A waiter that is parked after a change was parked before, unless it is the one that parks. -/
theorem parked_setPhase {v : Fin n} {group : Fin 2} (hp : ∀ group, phase ≠ .parked group)
    (h : (s.setPhase w phase).phase v = .parked group) : s.phase v = .parked group := by
  by_cases e : v = w
  · subst e
    rw [setPhase_self] at h
    exact absurd h (hp group)
  · rwa [setPhase_of_ne s e] at h

end SetPhase

variable {group : Fin 2}

theorem inGroup_registered {joined : Fin 2} :
    Phase.inGroup group (.registered joined) ↔ joined = group := Fin.val_inj

theorem inGroup_parked {joined : Fin 2} :
    Phase.inGroup group (.parked joined) ↔ joined = group := Iff.rfl

/-- A phase of no group, such as the registration of a waiter that was turned away. -/
theorem not_inGroup_registered {joined : Nat} (h : ¬ joined < 2) : ¬ Phase.inGroup group (.registered joined) := by
  intro e
  have e : joined = group := e
  omega

theorem inGroup_wakeGroups (mask : Nat) (group : Fin 2) (phase : Phase) :
    Phase.inGroup group (wakeGroups mask phase) ↔ Phase.inGroup group phase := by
  cases phase with
  | away => exact Iff.rfl
  | registered joined => exact Iff.rfl
  | parked joined =>
    simp only [wakeGroups]
    split
    · rw [inGroup_registered, inGroup_parked]
    · exact Iff.rfl

theorem inv_step (hi : s.Inv) (h : step s op = .ok (s', o)) : s'.Inv := by
  cases moves_of_step h with
  | stay op o _ => exact hi
  | turnAway w hw =>
    refine ⟨fun group => ?_, hi.raised, fun v group hv => ?_⟩
    · rw [census_setPhase_same]
      · exact hi.counted group
      · rw [hw]
        exact iff_of_false id (not_inGroup_registered (by decide))
    · exact hi.notified v group (parked_setPhase (by simp) hv)
  | joins w joined hw hdown =>
    refine ⟨fun group => ?_, fun group hs => ?_, fun v group hv => ?_⟩
    · have e := census_setPhase s w (.registered joined) group
      have hc := hi.counted group
      simp only [hw, inGroup_registered] at e
      simp only [join, setPhase] at e ⊢
      rw [if_neg (by exact id : ¬ Phase.inGroup group .away)] at e
      by_cases hg : group = joined
      · subst hg
        rw [if_pos rfl] at e ⊢
        omega
      · rw [if_neg (Ne.symm hg)] at e
        rw [if_neg hg]
        omega
    · have := hi.raised group hs
      simp only [join, setPhase]
      split <;> omega
    · exact hi.notified v group (parked_setPhase (s := s.join joined) (by simp) hv)
  | leavesNone w joined hw hg =>
    refine ⟨fun group => ?_, hi.raised, fun v group hv => ?_⟩
    · rw [census_setPhase_same]
      · exact hi.counted group
      · rw [hw]
        exact iff_of_false (not_inGroup_registered hg) id
    · exact hi.notified v group (parked_setPhase (by simp) hv)
  | leaves w joined hw hcount =>
    refine ⟨fun group => ?_, fun group hs => ?_, fun v group hv hs => ?_⟩
    · have e := census_setPhase s w .away group
      have hc := hi.counted group
      simp only [hw, inGroup_registered] at e
      simp only [leave, setPhase] at e ⊢
      rw [if_neg (by exact id : ¬ Phase.inGroup group .away)] at e
      by_cases hg : group = joined
      · subst hg
        rw [if_pos rfl] at e ⊢
        omega
      · rw [if_neg (Ne.symm hg)] at e
        rw [if_neg hg]
        omega
    · simp only [leave, setPhase] at hs ⊢
      split at hs
      · exact absurd rfl hs
      · rename_i hn
        split
        · rename_i hg
          exact fun e => hn ⟨hg, e⟩
        · exact hi.raised group hs
    · have hs : s.domain.signals group ≠ 0 := by
        simp only [leave, setPhase] at hs
        split at hs
        · exact absurd rfl hs
        · exact hs
      exact hi.notified v group (parked_setPhase (s := s.leave joined) (by simp) hv) hs
  | parks w joined hw hdown =>
    refine ⟨fun group => ?_, hi.raised, fun v group hv hs => ?_⟩
    · rw [census_setPhase_same]
      · exact hi.counted group
      · rw [hw, inGroup_registered, inGroup_parked]
    · -- the word it parks on is down
      have hv' : s.phase v = .parked group := by
        by_cases e : v = w
        · subst e
          rw [setPhase_self] at hv
          cases hv
          exact absurd hdown hs
        · rwa [setPhase_of_ne s e] at hv
      exact hi.notified v group hv' hs
  | wakes w joined hw =>
    refine ⟨fun group => ?_, hi.raised, fun v group hv => ?_⟩
    · rw [census_setPhase_same]
      · exact hi.counted group
      · rw [hw, inGroup_registered, inGroup_parked]
    · exact hi.notified v group (parked_setPhase (by simp) hv)
  | signals =>
    refine ⟨hi.counted, fun group hs => ?_, fun v group hv hs => ?_⟩
    · rcases (prepareSignal_signals s.domain group).mp hs with hw | hs
      · exact hw
      · exact hi.raised group hs
    · by_cases hdown : s.domain.signals group = 0
      · exact ⟨_, List.mem_cons_self, prepareSignal_mask s.domain group hs hdown⟩
      · obtain ⟨mask, hm, hbit⟩ := hi.notified v group hv hdown
        exact ⟨mask, List.mem_cons_of_mem _ hm, hbit⟩
  | notifies index mask hm =>
    refine ⟨fun group => ?_, hi.raised, fun v group hv hs => ?_⟩
    · rw [hi.counted group]
      simp only [census, inGroup_wakeGroups]
    · -- what is still parked was parked before, on a word the mask does not hold
      have hv' : s.phase v = .parked group ∧ mask.testBit group = false := by
        simp only at hv
        cases hp : s.phase v with
        | away => rw [hp] at hv; cases hv
        | registered joined => rw [hp] at hv; cases hv
        | parked joined =>
          rw [hp, wakeGroups] at hv
          split at hv
          · cases hv
          · rename_i hbit
            cases hv
            exact ⟨rfl, by simpa using hbit⟩
      obtain ⟨other, hother, hbit⟩ := hi.notified v group hv'.1 hs
      refine ⟨other, ?_, hbit⟩
      have hne : other ≠ mask := by
        rintro rfl
        rw [hv'.2] at hbit
        cases hbit
      obtain ⟨i, hi⟩ := List.mem_iff_getElem?.mp hother
      refine (List.mem_eraseIdx_iff_getElem?).mpr ⟨i, ?_, hi⟩
      rintro rfl
      exact hne (Option.some.inj (hi.symm.trans hm))

theorem inv_run {capabilities main limit : Nat} {tr : List (LotOp n × LotOut)}
    (h : Run step (initial capabilities main limit) tr s) : s.Inv :=
  h.invariant (fun _ _ _ _ hi hs => inv_step hi hs) (inv_initial capabilities main limit)

/-! ## 3. A raised group -/

/-- The word of the group is up, and these are its waiters. -/
def Raised (group : Fin 2) (waiting : Fin n → Prop) (s : Lot n) : Prop :=
  s.domain.signals group ≠ 0 ∧ ∀ w, (s.phase w).inGroup group ↔ waiting w

/-- Who waits does not change when one waiter changes to a phase of the same group, or of none. -/
theorem inGroup_setPhase {w : Fin n} {phase : Phase}
    (h : (s.phase w).inGroup group ↔ phase.inGroup group) (v : Fin n) :
    ((s.setPhase w phase).phase v).inGroup group ↔ (s.phase v).inGroup group := by
  by_cases e : v = w
  · subst e
    rw [setPhase_self, h]
  · rw [setPhase_of_ne s e]

/-- **A raised group loses the waiter that withdraws and nothing else**, as long as it keeps one. -/
theorem raised_step {waiting : Fin n → Prop} (hi : s.Inv) (hr : Raised group waiting s)
    (h : step s op = .ok (s', o)) (hleft : ∃ w, waiting w ∧ (op, o) ≠ (.withdraw w, .withdrawn)) :
    Raised group (fun w => waiting w ∧ (op, o) ≠ (.withdraw w, .withdrawn)) s' := by
  obtain ⟨hup, hwait⟩ := hr
  -- a step that is no withdrawal: it is enough that the members stay
  have same : (∀ w, (op, o) ≠ (.withdraw w, .withdrawn)) → s'.domain.signals group ≠ 0 →
      (∀ w, (s'.phase w).inGroup group ↔ (s.phase w).inGroup group) →
      Raised group (fun w => waiting w ∧ (op, o) ≠ (.withdraw w, .withdrawn)) s' := by
    intro hop hup' hsame
    refine ⟨hup', fun w => ?_⟩
    rw [hsame, hwait]
    exact (and_iff_left (hop w)).symm
  cases moves_of_step h with
  | stay op o ho =>
    refine same (fun w e => ?_) hup fun w => Iff.rfl
    rcases ho with rfl | rfl <;> simp at e
  | turnAway w hw =>
    refine same (by simp) hup (inGroup_setPhase ?_)
    rw [hw]
    exact iff_of_false id (not_inGroup_registered (by decide))
  | joins w joined hw hdown =>
    refine same (by simp) hup (inGroup_setPhase (s := s.join joined) ?_)
    have hne : joined ≠ group := by
      rintro rfl
      exact hup hdown
    show (s.phase w).inGroup group ↔ _
    rw [hw, inGroup_registered]
    exact iff_of_false id hne
  | leavesNone w joined hw hg =>
    have hout : ∀ v, ((s.setPhase w .away).phase v).inGroup group ↔ (s.phase v).inGroup group := by
      refine inGroup_setPhase ?_
      rw [hw]
      exact iff_of_false (not_inGroup_registered hg) id
    refine ⟨hup, fun v => ?_⟩
    rw [hout, hwait]
    refine (and_iff_left_of_imp fun hv e => ?_).symm
    obtain rfl : w = v := by simpa using e
    exact not_inGroup_registered hg (hw ▸ (hwait w).mpr hv)
  | leaves w joined hw hcount =>
    have hphase : ∀ v, (((s.leave joined).setPhase w .away).phase v).inGroup group ↔
        (s.phase v).inGroup group ∧ v ≠ w := by
      intro v
      by_cases e : v = w
      · subst e
        rw [setPhase_self]
        exact iff_of_false id fun h => h.2 rfl
      · rw [setPhase_of_ne _ e]
        exact (and_iff_left e).symm
    refine ⟨?_, fun v => ?_⟩
    · -- the waiter that is left is counted besides the one that leaves
      obtain ⟨v, hv, hne⟩ := hleft
      have hvw : v ≠ w := by
        rintro rfl
        exact hne rfl
      simp only [setPhase_domain, leave]
      rw [if_neg]
      · exact hup
      · rintro ⟨rfl, hone⟩
        have hle : census s.phase (Phase.inGroup group) ≤ 1 := by
          rw [← hi.counted]
          omega
        refine hvw (eq_of_census_le_one hle ((hwait v).mpr hv) ?_)
        rw [hw]
        exact inGroup_registered.mpr rfl
    · rw [hphase, hwait]
      refine and_congr_right fun _ => ?_
      simp [eq_comm]
  | parks w joined hw hdown | wakes w joined hw =>
    refine same (by simp) hup (inGroup_setPhase ?_)
    rw [hw, inGroup_registered, inGroup_parked]
  | signals =>
    refine same (by simp) ?_ fun w => Iff.rfl
    exact (prepareSignal_signals s.domain group).mpr (.inr hup)
  | notifies index mask hm =>
    exact same (by simp) hup fun w => inGroup_wakeGroups mask group (s.phase w)

theorem raised_run {tr : List (LotOp n × LotOut)}
    {waiting : Fin n → Prop} (h : Run step s tr s') (hi : s.Inv) (hr : Raised group waiting s)
    (hleft : ∃ w, waiting w ∧ (.withdraw w, .withdrawn) ∉ tr) :
    Raised group (fun w => waiting w ∧ (.withdraw w, .withdrawn) ∉ tr) s' := by
  induction h generalizing waiting with
  | nil s => simpa using hr
  | cons hs _ ih =>
    simp only [List.mem_cons, not_or] at hleft ⊢
    obtain ⟨w, hw, hne, hrest⟩ := hleft
    have hr' := raised_step hi hr hs ⟨w, hw, Ne.symm hne⟩
    have := ih (inv_step hi hs) hr' ⟨w, ⟨hw, Ne.symm hne⟩, hrest⟩
    simpa only [ne_comm, and_assoc] using this

/-- **The word goes down exactly when the last waiter of the group withdraws.** -/
theorem cleared_iff_last (hi : s.Inv) (hup : s.domain.signals group ≠ 0) (h : step s op = .ok (s', o)) :
    s'.domain.signals group = 0 ↔ ∃ w, (op, o) = (.withdraw w, .withdrawn) ∧ (s.phase w).inGroup group ∧
        ∀ v, (s.phase v).inGroup group → v = w := by
  constructor
  · intro hdown
    -- the members are those of the group now; were one left, the word would still be up
    have hr : Raised group (fun w => (s.phase w).inGroup group) s := ⟨hup, fun _ => Iff.rfl⟩
    have hnone : ¬ ∃ w, (s.phase w).inGroup group ∧ (op, o) ≠ (.withdraw w, .withdrawn) :=
      fun hleft => (raised_step hi hr h hleft).1 hdown
    have hpos : 0 < census s.phase (Phase.inGroup group) := by
      rw [← hi.counted]
      exact Nat.pos_of_ne_zero (hi.raised group hup)
    obtain ⟨w, hw⟩ := exists_of_census_pos hpos
    have hall : ∀ v, (s.phase v).inGroup group → (op, o) = (.withdraw v, .withdrawn) := by
      intro v hv
      by_contra hne
      exact hnone ⟨v, hv, hne⟩
    refine ⟨w, hall w hw, hw, fun v hv => ?_⟩
    simpa using (hall v hv).symm.trans (hall w hw)
  · rintro ⟨w, e, hw, hlast⟩
    obtain ⟨rfl, rfl⟩ : op = .withdraw w ∧ o = .withdrawn := by simpa using e
    have hi' := inv_step hi h
    by_contra hup'
    have hpos : 0 < census s'.phase (Phase.inGroup group) := by
      rw [← hi'.counted]
      exact Nat.pos_of_ne_zero (hi'.raised group hup')
    obtain ⟨v, hv⟩ := exists_of_census_pos hpos
    -- whoever is left was there before, and is not the one that withdrew
    cases moves_of_step h with
    | leavesNone _ joined hjoined hg => exact not_inGroup_registered hg (hjoined ▸ hw)
    | leaves _ joined hjoined hcount =>
      by_cases e : v = w
      · subst e
        rw [setPhase_self] at hv
        exact hv
      · rw [setPhase_of_ne _ e] at hv
        exact e (hlast v hv)
    | stay _ _ ho => simp at ho

/-- No withdrawal finds its group without a waiter: `parking_withdrawal` does not abort. -/
theorem step_total (hi : s.Inv) (op : LotOp n) : ∃ r, step s op = .ok r := by
  cases op with
  | withdraw w =>
    simp only [step]
    split
    · rename_i group hw
      split
      · rename_i hg
        have hcount : s.domain.state.waiters ⟨group, hg⟩ ≠ 0 := by
          rw [hi.counted]
          exact (census_pos (i := w) (hw ▸ inGroup_registered.mpr rfl)).ne'
        simp only [parkingWithdrawal, if_neg hcount]
        exact ⟨_, rfl⟩
      · exact ⟨_, rfl⟩
    · exact ⟨_, rfl⟩
  | register w | unpark w | notify index =>
    simp only [step]
    split <;> exact ⟨_, rfl⟩
  | park w =>
    simp only [step]
    repeat' split
    all_goals exact ⟨_, rfl⟩
  | signal => exact ⟨_, rfl⟩

theorem not_parked_of_raised {w : Fin n} (hup : s.domain.signals group ≠ 0) (hw : (s.phase w).inGroup group)
    (h : step s (.park w) = .ok (s', o)) : o ≠ .parked := by
  rintro rfl
  cases moves_of_step h with
  | stay _ _ ho => simp at ho
  | parks _ joined hjoined hdown =>
    rw [hjoined, inGroup_registered] at hw
    subst hw
    exact hup hdown

/-- **THE PARKING PROTOCOL**, for any number of waiters and any interleaving: after a signal, as
    long as one of the waiters its group then had has not withdrawn, the word is up, the group has
    those of them that have not withdrawn and no others, none of them parks, and one that is
    parked is about to be notified; the word goes down exactly when the last waiter of the group
    withdraws; and no withdrawal aborts. -/
theorem signal_reaches_group {capabilities main limit : Nat} {s s' s'' : Lot n}
    {before after : List (LotOp n × LotOut)} {o : LotOut} (group : Fin 2)
    (hbefore : Run step (initial capabilities main limit) before s)
    (hsignal : step s .signal = .ok (s', o)) (hafter : Run step s' after s'') :
    ((∃ w, (s.phase w).inGroup group ∧ (.withdraw w, .withdrawn) ∉ after) → s''.domain.signals group ≠ 0 ∧
      (∀ w, (s''.phase w).inGroup group ↔ (s.phase w).inGroup group ∧ (.withdraw w, .withdrawn) ∉ after) ∧
      (∀ w, (s''.phase w).inGroup group → ∀ t o, step s'' (.park w) = .ok (t, o) → o ≠ .parked) ∧
      (∀ w, s''.phase w = .parked group → ∃ mask ∈ s''.notifications, mask.testBit group = true)) ∧
    (s''.domain.signals group ≠ 0 → ∀ op t o, step s'' op = .ok (t, o) →
      (t.domain.signals group = 0 ↔ ∃ w, (op, o) = (.withdraw w, .withdrawn) ∧
        (s''.phase w).inGroup group ∧ ∀ v, (s''.phase v).inGroup group → v = w)) ∧
    ∀ op, ∃ r, step s'' op = .ok r := by
  have hi := inv_run hbefore
  have hi' := inv_step hi hsignal
  have hi'' : s''.Inv := hafter.invariant (fun _ _ _ _ hi hs => inv_step hi hs) hi'
  refine ⟨fun hleft => ?_, fun hup op t o ht => cleared_iff_last hi'' hup ht, step_total hi''⟩
  have hr : Raised group (fun w => (s.phase w).inGroup group) s' := by
    obtain ⟨w, hw, _⟩ := hleft
    cases hsignal
    refine ⟨(prepareSignal_signals s.domain group).mpr (.inl ?_), fun _ => Iff.rfl⟩
    rw [hi.counted]
    exact (census_pos hw).ne'
  obtain ⟨hup, hwait⟩ := raised_run hafter hi' hr hleft
  exact ⟨hup, hwait, fun w hw t o ht => not_parked_of_raised hup hw ht, fun w hw => hi''.notified w group hw hup⟩

/-- Two waiters join, a signal is raised, one of them withdraws: the other still sees it. -/
theorem signal_reaches_group_second :
    ∃ s : Lot 2, Run step (initial 3 0 2) [(.register 0, .joined 0), (.register 1, .joined 0),
      (.signal, .signalled 1), (.withdraw 0, .withdrawn)] s ∧ s.domain.signals 0 ≠ 0 := by
  obtain ⟨s, hbefore⟩ : ∃ s, Run step (initial 3 0 2 : Lot 2)
      [(.register 0, .joined 0), (.register 1, .joined 0)] s ∧ s.phase 1 = .registered 0 ∧
        ∃ s' s'', step s .signal = .ok (s', .signalled 1) ∧ step s' (.withdraw 0) = .ok (s'', .withdrawn) :=
    ⟨_, .cons rfl (.cons rfl (.nil _)), rfl, _, _, rfl, rfl⟩
  obtain ⟨hbefore, hphase, s', s'', hsignal, hwithdraw⟩ := hbefore
  have hafter := Run.single hwithdraw
  refine ⟨s'', hbefore.append (.cons hsignal hafter), ?_⟩
  refine ((signal_reaches_group 0 hbefore hsignal hafter).1 ⟨1, ?_, by decide⟩).1
  rw [hphase]
  exact rfl

end Lot

end Bray.Scheduler
