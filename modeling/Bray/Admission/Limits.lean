/-
  File:      Bray/Admission/Limits.lean
  Subject:   ADMISSION KEEPS ITS LIMITS AND NEVER GETS STUCK.

  **The invariant** `Keeps`: what is active is what the plan has at its place, the bytes in use are the sum of
  the reservations of what is active, a serial entry is alone, and an entry that was admitted is active or has
  its result. The constructor of a plan (`tryNew_wellFormed`) promises that identities ascend and that each
  reservation fits the budget; hence an entry is found at its identity alone, and with nothing active the next
  one is admitted.
-/
import Bray.Admission.Schedule

namespace Bray.Admission

open Lib List

variable {Identity : Type} [LinearOrder Identity] {Report : Type}

/-! ## 1. Plans -/

/-- **What the constructor of a plan promises.** -/
structure TestExecutionPlan.WellFormed (plan : TestExecutionPlan Identity) : Prop where
  ordered : plan.entries.Pairwise fun first second => first.identity < second.identity
  paired : plan.entries.map TestEntryMetadata.identity = plan.invocations.map TestInvocationPlan.identity
  fits : ∀ invocation ∈ plan.invocations, captureReservation invocation.capture ≤ plan.captureByteBudget

/-- Entries in order of which none repeats the one before it ascend. -/
theorem ascending_of_no_duplicate {entries : List (TestEntryMetadata Identity)}
    (sorted : entries.Pairwise fun first second => first.identity ≤ second.identity)
    (unique : duplicateIdentity entries = none) :
    entries.Pairwise fun first second => first.identity < second.identity := by
  induction entries with
  | nil => exact .nil
  | cons first rest ih =>
    cases rest with
    | nil => exact pairwise_singleton _ _
    | cons second rest =>
      obtain ⟨below, sorted'⟩ := pairwise_cons.mp sorted
      rw [duplicateIdentity] at unique
      split at unique
      · cases unique
      · rename_i differ
        have ascending := ih sorted' unique
        have less : first.identity < second.identity := lt_of_le_of_ne (below second (.head _)) differ
        refine pairwise_cons.mpr ⟨forall_mem_cons.mpr ⟨less, fun other mem => ?_⟩, ascending⟩
        exact less.trans ((pairwise_cons.mp ascending).1 other mem)

theorem checkInvocation_eq_ok {captureByteBudget : UInt64}
    {pair : TestEntryMetadata Identity × TestInvocationPlan Identity} :
    checkInvocation captureByteBudget pair = .ok () ↔
      pair.1.identity = pair.2.identity ∧ captureReservation pair.2.capture ≤ captureByteBudget := by
  unfold checkInvocation
  split
  · rename_i differ
    simp [differ]
  · rename_i same
    split
    · rename_i exceeds
      simp [UInt64.not_le.mpr exceeds]
    · rename_i fits
      simp [not_not.mp same, UInt64.not_lt.mp fits]

theorem map_eq_of_zip {α β γ : Type} {f : α → γ} {g : β → γ} {xs : List α} {ys : List β}
    (length : xs.length = ys.length) (agree : ∀ pair ∈ xs.zip ys, f pair.1 = g pair.2) : xs.map f = ys.map g := by
  calc xs.map f = (xs.zip ys).map (f ∘ Prod.fst) := by
        rw [← map_map, map_fst_zip (Nat.le_of_eq length)]
    _ = (xs.zip ys).map (g ∘ Prod.snd) := map_congr_left agree
    _ = ys.map g := by rw [← map_map, map_snd_zip (Nat.le_of_eq length.symm)]

theorem sorted_entries (entries : List (TestEntryMetadata Identity)) :
    (entries.mergeSort fun left right => left.identity ≤ right.identity).Pairwise
      fun first second => first.identity ≤ second.identity := by
  have sorted := @List.pairwise_mergeSort _
    (fun left right : TestEntryMetadata Identity => decide (left.identity ≤ right.identity))
    (fun a b c h h' => decide_eq_true (le_trans (of_decide_eq_true h) (of_decide_eq_true h')))
    (fun a b => by simpa using le_total a.identity b.identity) entries
  exact sorted.imp fun h => of_decide_eq_true h

/-- **A plan that is accepted** is well formed, and it has the selected entries and the invocations. -/
theorem tryNew_wellFormed {selections : List (List (TestEntryMetadata Identity))}
    {invocations : List (TestInvocationPlan Identity)} {mode : TestExecutionMode} {captureByteBudget : UInt64}
    {plan : TestExecutionPlan Identity}
    (accepted : TestExecutionPlan.tryNew selections invocations mode captureByteBudget = .ok plan) :
    plan.WellFormed ∧ plan.entries.Perm selections.flatten ∧ plan.invocations.Perm invocations ∧
      plan.mode = mode ∧ plan.captureByteBudget = captureByteBudget := by
  unfold TestExecutionPlan.tryNew TestExecutionPlan.check at accepted
  split at accepted
  · cases accepted
  · rename_i unique
    split at accepted
    · cases accepted
    · rename_i length
      obtain ⟨_, checked, eq⟩ := except_bind_eq_ok.mp accepted
      cases eq
      have pairs := except_forM_eq_ok.mp checked
      have length' := not_not.mp length
      refine ⟨⟨ascending_of_no_duplicate (sorted_entries _) unique, ?_, ?_⟩, mergeSort_perm _ _,
        mergeSort_perm _ _, rfl, rfl⟩
      · exact map_eq_of_zip length' fun pair mem => (checkInvocation_eq_ok.mp (pairs pair mem)).1
      · intro invocation mem
        rw [← map_snd_zip (Nat.le_of_eq length'.symm)] at mem
        obtain ⟨pair, mem', rfl⟩ := mem_map.mp mem
        exact (checkInvocation_eq_ok.mp (pairs pair mem')).2

theorem TestExecutionPlan.WellFormed.length {plan : TestExecutionPlan Identity} (wf : plan.WellFormed) :
    plan.entries.length = plan.invocations.length := by
  have := congrArg List.length wf.paired
  rwa [length_map, length_map] at this

variable {entry : TestEntryMetadata Identity}

theorem TestExecutionPlan.WellFormed.identity_eq {plan : TestExecutionPlan Identity} (wf : plan.WellFormed)
    {index : Nat} {invocation : TestInvocationPlan Identity}
    (at_ : plan.entries[index]? = some entry) (at_' : plan.invocations[index]? = some invocation) :
    entry.identity = invocation.identity := by
  have := congrArg (fun identities => identities[index]?) wf.paired
  simpa [at_, at_'] using this

/-- An entry is found at one place only. -/
theorem TestExecutionPlan.WellFormed.index_eq {plan : TestExecutionPlan Identity} (wf : plan.WellFormed)
    {first second : Nat} {other : TestEntryMetadata Identity}
    (at_ : plan.entries[first]? = some entry) (at_' : plan.entries[second]? = some other)
    (same : entry.identity = other.identity) : first = second := by
  obtain ⟨short, rfl⟩ := List.getElem_of_getElem? at_
  obtain ⟨short', rfl⟩ := List.getElem_of_getElem? at_'
  have ordered := pairwise_iff_getElem.mp wf.ordered
  rcases Nat.lt_trichotomy first second with less | eq | less
  · exact absurd same (ordered _ _ _ _ less).ne
  · exact eq
  · exact absurd same (ordered _ _ _ _ less).ne'

/-! ## 2. The invariant -/

/-- The reservation in bytes. -/
def bytes (active : ActiveAdmission) : Nat := active.captureBytes.toNat

/-- An active admission is what the plan has at its place. -/
def Planned (plan : TestExecutionPlan Identity) (active : Identity × ActiveAdmission) : Prop :=
  ∃ entry invocation, plan.entries[active.2.catalogIndex]? = some entry ∧
    plan.invocations[active.2.catalogIndex]? = some invocation ∧ entry.identity = active.1 ∧
    invocation.identity = active.1 ∧ active.2.captureBytes = captureReservation invocation.capture ∧
    active.2.serial = decide (entry.constraint = .serial)

/-- **The limits of a schedule**: those of the command, and that what was admitted is active or done. -/
structure Keeps (plan : TestExecutionPlan Identity) (schedule : TestAdmissionSchedule Identity Report) : Prop where
  ofPlan : schedule.plan = plan
  within : schedule.nextIndex ≤ plan.entries.length
  slots : schedule.completed.length = plan.entries.length
  planned : ∀ active ∈ schedule.active.entries, Planned plan active
  inUse : schedule.activeCaptureBytes.toNat = (schedule.active.entries.map fun active => bytes active.2).sum
  budget : schedule.activeCaptureBytes ≤ plan.captureByteBudget
  concurrency : schedule.active.entries.length ≤ plan.mode.maximumConcurrency
  serial : schedule.activeSerial = schedule.active.entries.any fun active => active.2.serial
  alone : ∀ active ∈ schedule.active.entries, active.2.serial = true → schedule.active.entries = [active]
  admitted : ∀ index, index < schedule.nextIndex ↔
    (∃ active ∈ schedule.active.entries, active.2.catalogIndex = index) ∨
      ∃ result, schedule.completed[index]? = some (some result)
  once : ∀ active ∈ schedule.active.entries, schedule.completed[active.2.catalogIndex]? = some none
  results : ∀ (index : Nat) (result : TestInvocationResult Identity Report),
    schedule.completed[index]? = some (some result) → ∃ entry, plan.entries[index]? = some entry ∧
      result.identity = entry.identity

variable {plan : TestExecutionPlan Identity} {schedule : TestAdmissionSchedule Identity Report}

theorem keeps_new (plan : TestExecutionPlan Identity) :
    Keeps plan (.new plan : TestAdmissionSchedule Identity Report) := by
  have nothing : ∀ (index : Nat) (result : TestInvocationResult Identity Report),
      (List.replicate plan.entries.length (none : Option (TestInvocationResult Identity Report)))[index]? ≠
        some (some result) := by
    intro index result found
    cases eq_of_mem_replicate (mem_of_getElem? found)
  refine ⟨rfl, Nat.zero_le _, length_replicate, nofun, rfl, UInt64.zero_le, Nat.zero_le _, rfl, nofun,
    fun index => ⟨nofun, ?_⟩, nofun, fun index result found => absurd found (nothing index result)⟩
  rintro (⟨_, mem, _⟩ | ⟨result, found⟩)
  · cases mem
  · exact absurd found (nothing index result)

/-! ## 3. Admitting -/

theorem checkedAdd_of_le {first second limit : UInt64} (fits : second ≤ saturatingSub limit first)
    (within : first ≤ limit) :
    checkedAdd first second = .ok (first + second) ∧ (first + second).toNat = first.toNat + second.toNat ∧
      first + second ≤ limit := by
  rw [saturatingSub, if_pos within] at fits
  have sub : (limit - first).toNat = limit.toNat - first.toNat := UInt64.toNat_sub_of_le _ _ within
  have le : second.toNat ≤ limit.toNat - first.toNat := sub ▸ UInt64.le_iff_toNat_le.mp fits
  have within' := UInt64.le_iff_toNat_le.mp within
  have small : first.toNat + second.toNat < UInt64.size := by
    have := limit.toNat_lt_size
    omega
  have sum : (first + second).toNat = first.toNat + second.toNat := by
    exact Nat.mod_eq_of_lt small
  refine ⟨if_pos small, sum, UInt64.le_iff_toNat_le.mpr ?_⟩
  omega

section

variable (wf : plan.WellFormed) (keeps : Keeps plan schedule)
include wf keeps

/-- **Starting the next entry** keeps the limits, where they allow it. -/
theorem keeps_start
    {invocation : TestInvocationPlan Identity} (next : plan.entries[schedule.nextIndex]? = some entry)
    (next' : plan.invocations[schedule.nextIndex]? = some invocation)
    (free : schedule.active.entries.length < plan.mode.maximumConcurrency) (open_ : schedule.activeSerial = false)
    (solitary : entry.constraint = .serial → schedule.active.entries = [])
    (fits : captureReservation invocation.capture ≤
      saturatingSub plan.captureByteBudget schedule.activeCaptureBytes) :
    Keeps plan (schedule.start entry invocation
      (schedule.activeCaptureBytes + captureReservation invocation.capture)) := by
  obtain ⟨_, sum, budget⟩ := checkedAdd_of_le fits keeps.budget
  have identity := wf.identity_eq next next'
  obtain ⟨short, _⟩ := List.getElem_of_getElem? next
  -- the next entry is not active yet
  have absent : ∀ active ∈ schedule.active.entries, active.1 ≠ invocation.identity := by
    intro active mem same
    obtain ⟨other, _, at_, _, identity', _⟩ := keeps.planned active mem
    have here : active.2.catalogIndex < schedule.nextIndex := (keeps.admitted _).mpr (.inl ⟨active, mem, rfl⟩)
    have := wf.index_eq at_ next (identity'.trans (same.trans identity.symm))
    omega
  have perm := @SortedMap.insert_perm _ _ _ _ ⟨schedule.nextIndex, captureReservation invocation.capture,
    decide (entry.constraint = .serial)⟩ _ _ _ absent
  have quiet : ∀ active ∈ schedule.active.entries, active.2.serial = false := by
    intro active mem
    have := keeps.serial
    rw [open_] at this
    exact Bool.eq_false_iff.mpr fun serial => by
      rw [any_eq_true.mpr ⟨active, mem, serial⟩] at this
      cases this
  unfold TestAdmissionSchedule.start
  constructor
  case ofPlan => exact keeps.ofPlan
  case within => exact short
  case slots => exact keeps.slots
  case planned =>
    intro active mem
    rcases mem_cons.mp (perm.mem_iff.mp mem) with rfl | old
    · exact ⟨entry, invocation, next, next', identity, rfl, rfl, rfl⟩
    · exact keeps.planned active old
  case inUse =>
    rw [(perm.map _).sum_nat, map_cons, sum_cons, ← keeps.inUse, bytes, sum]
    exact Nat.add_comm _ _
  case budget => exact budget
  case concurrency =>
    rw [perm.length_eq]
    exact free
  case serial =>
    rw [perm.any_eq, any_cons, ← keeps.serial, open_, Bool.or_false]
  case alone =>
    intro active mem serial
    rcases mem_cons.mp (perm.mem_iff.mp mem) with rfl | old
    · rw [solitary (of_decide_eq_true serial)] at perm
      exact perm_singleton.mp perm
    · rw [quiet active old] at serial
      cases serial
  case admitted =>
    intro index
    have split : (∃ active ∈ (schedule.active.insert invocation.identity ⟨schedule.nextIndex,
          captureReservation invocation.capture, decide (entry.constraint = .serial)⟩).entries,
          active.2.catalogIndex = index) ↔
        schedule.nextIndex = index ∨ ∃ active ∈ schedule.active.entries, active.2.catalogIndex = index := by
      simp only [perm.mem_iff, exists_mem_cons_iff]
    rw [split, or_assoc, ← keeps.admitted]
    show index < schedule.nextIndex + 1 ↔ _
    omega
  case once =>
    intro active mem
    rcases mem_cons.mp (perm.mem_iff.mp mem) with rfl | old
    · -- nothing has a result from the next index on
      have here : schedule.nextIndex < schedule.completed.length := keeps.slots ▸ short
      rw [getElem?_eq_getElem here]
      cases found : schedule.completed[schedule.nextIndex] with
      | none => rfl
      | some result =>
        have := (keeps.admitted schedule.nextIndex).mpr
          (.inr ⟨result, by rw [getElem?_eq_getElem here, found]⟩)
        omega
    · exact keeps.once active old
  case results => exact keeps.results

/-- **Admitting** keeps the limits, and admits the next entry or changes nothing. -/
theorem admitNext_spec :
    ∃ schedule' admission, schedule.admitNext = .ok (schedule', admission) ∧ Keeps plan schedule' ∧
      (admission = none ∧ schedule' = schedule ∨
        ∃ admission', admission = some admission' ∧ admission'.catalogIndex = schedule.nextIndex ∧
          plan.entries[schedule.nextIndex]? = some admission'.entry ∧
          plan.invocations[schedule.nextIndex]? = some admission'.invocation ∧
          schedule'.nextIndex = schedule.nextIndex + 1) := by
  unfold TestAdmissionSchedule.admitNext
  rw [keeps.ofPlan]
  split
  · exact ⟨_, _, rfl, keeps, .inl ⟨rfl, rfl⟩⟩
  · rename_i limits
    obtain ⟨_, limits⟩ := not_or.mp limits
    obtain ⟨open_, free⟩ := not_or.mp limits
    split
    · exact ⟨_, _, rfl, keeps, .inl ⟨rfl, rfl⟩⟩
    · rename_i entry next
      obtain ⟨short, _⟩ := List.getElem_of_getElem? next
      rw [getElem?_eq_getElem (wf.length ▸ short)]
      simp only
      have next' := getElem?_eq_getElem (wf.length ▸ short : schedule.nextIndex < plan.invocations.length)
      unfold TestAdmissionSchedule.admitEntry
      split
      · exact ⟨_, _, rfl, keeps, .inl ⟨rfl, rfl⟩⟩
      · rename_i solitary
        split
        · exact ⟨_, _, rfl, keeps, .inl ⟨rfl, rfl⟩⟩
        · rename_i fits
          rw [keeps.ofPlan] at fits
          obtain ⟨added, _⟩ := checkedAdd_of_le (UInt64.not_lt.mp fits) keeps.budget
          rw [added]
          refine ⟨_, _, rfl, ?_, .inr ⟨_, rfl, rfl, next, rfl, rfl⟩⟩
          refine keeps_start wf keeps next next' (Nat.not_le.mp free) (Bool.eq_false_iff.mpr open_) ?_
            (UInt64.not_lt.mp fits)
          intro serial
          by_contra other
          exact solitary ⟨serial, other⟩

/-- **Nothing gets stuck**: with nothing active, the next entry is admitted. -/
theorem admitNext_of_settled (going : schedule.stopReason = none) (settled : schedule.active.entries = [])
    (remain : schedule.nextIndex < plan.entries.length) :
    ∃ schedule' admission, schedule.admitNext = .ok (schedule', some admission) ∧
      admission.catalogIndex = schedule.nextIndex := by
  have unused : schedule.activeCaptureBytes = 0 := by
    have := keeps.inUse
    rw [settled] at this
    exact UInt64.toNat_inj.mp this
  have open_ : schedule.activeSerial = false := by rw [keeps.serial, settled]; rfl
  have remain' : schedule.nextIndex < plan.invocations.length := wf.length ▸ remain
  have fits := wf.fits _ (getElem_mem remain')
  have whole : saturatingSub plan.captureByteBudget 0 = plan.captureByteBudget := by
    rw [saturatingSub, if_pos UInt64.zero_le, UInt64.sub_zero]
  have sum : checkedAdd 0 (captureReservation plan.invocations[schedule.nextIndex].capture) = .ok _ :=
    (checkedAdd_of_le (whole.symm ▸ fits) UInt64.zero_le).1
  have limits : ¬ (schedule.stopReason.isSome = true ∨ schedule.activeSerial = true ∨
      (plan.mode.maximumConcurrency : Nat) ≤ schedule.active.entries.length) := by
    rw [going, open_, settled]
    simp
  unfold TestAdmissionSchedule.admitNext TestAdmissionSchedule.admitEntry
  rw [keeps.ofPlan, if_neg limits, getElem?_eq_getElem remain, getElem?_eq_getElem remain']
  simp only
  rw [if_neg (fun both => both.2 settled), unused, whole, if_neg (UInt64.not_lt.mpr fits), sum]
  exact ⟨_, _, rfl, rfl⟩

end

/-! ## 4. Completing -/

/-- **A result that is recorded** releases what its entry had reserved. -/
theorem keeps_release (keeps : Keeps plan schedule) {active : ActiveAdmission}
    {result : TestInvocationResult Identity Report} (found : schedule.active.get? result.identity = some active) :
    Keeps plan (schedule.release active result) := by
  obtain ⟨before, after, entries, erased, below, above⟩ := SortedMap.entries_of_get? found
  have split := @List.perm_middle _ (result.identity, active) before after
  rw [← entries] at split
  have mem : (result.identity, active) ∈ schedule.active.entries := split.mem_iff.mpr (.head _)
  have old : ∀ other ∈ before ++ after, other ∈ schedule.active.entries :=
    fun other mem' => split.mem_iff.mpr (.tail _ mem')
  obtain ⟨entry, _, at_, _, identity, _, _, _⟩ := keeps.planned _ mem
  have here : active.catalogIndex < schedule.completed.length := by
    obtain ⟨short, _⟩ := List.getElem_of_getElem? at_
    exact keeps.slots ▸ short
  -- no other active entry is at this place
  have elsewhere : ∀ other ∈ before ++ after, active.catalogIndex ≠ other.2.catalogIndex := by
    intro other mem' same
    obtain ⟨entry', _, at_', _, identity', _⟩ := keeps.planned other (old other mem')
    rw [← same] at at_'
    obtain rfl := Option.some.inj (at_.symm.trans at_')
    have self : compare other.1 result.identity = .eq := compare_eq_iff_eq.mpr (identity'.symm.trans identity)
    rcases mem_append.mp mem' with front | back
    · cases self.symm.trans (below other front)
    · cases self.symm.trans (above other back)
  have total := keeps.inUse
  rw [(split.map _).sum_nat, map_cons, sum_cons] at total
  have part : active.captureBytes ≤ schedule.activeCaptureBytes := by
    rw [UInt64.le_iff_toNat_le, total]
    exact Nat.le_add_right _ _
  have rest : (saturatingSub schedule.activeCaptureBytes active.captureBytes).toNat =
      schedule.activeCaptureBytes.toNat - active.captureBytes.toNat := by
    rw [saturatingSub, if_pos part]
    exact UInt64.toNat_sub_of_le _ _ part
  have solitary : active.serial = true → before ++ after = [] := by
    intro serial
    have := keeps.alone _ mem serial
    rw [this] at split
    exact (List.cons.inj (singleton_perm.mp split)).2.symm
  unfold TestAdmissionSchedule.release
  constructor
  case ofPlan => exact keeps.ofPlan
  case within => exact keeps.within
  case slots =>
    rw [length_set]
    exact keeps.slots
  case planned =>
    intro other mem'
    exact keeps.planned other (old other (erased ▸ mem'))
  case inUse =>
    rw [erased, rest, total, bytes, Nat.add_sub_cancel_left]
  case budget =>
    refine UInt64.le_trans (UInt64.le_iff_toNat_le.mpr ?_) keeps.budget
    rw [rest]
    exact Nat.sub_le _ _
  case concurrency =>
    have := keeps.concurrency
    rw [split.length_eq, length_cons] at this
    rw [erased]
    omega
  case serial =>
    have := keeps.serial
    rw [split.any_eq, any_cons] at this
    rw [erased, this]
    cases serial : active.serial with
    | true => simp [solitary serial]
    | false => simp
  case alone =>
    intro other mem' serial
    rw [erased] at mem' ⊢
    have single := keeps.alone other (old other mem') serial
    -- an entry that is alone is the one that is removed
    have same : (result.identity, active) = other := mem_singleton.mp (single ▸ mem)
    subst same
    rw [solitary serial] at mem'
    cases mem'
  case admitted =>
    intro index
    rw [keeps.admitted, erased]
    simp only [split.mem_iff, exists_mem_cons_iff]
    by_cases place : active.catalogIndex = index
    · subst place
      refine iff_of_true (.inl (.inl rfl)) (.inr ⟨result, ?_⟩)
      rw [getElem?_set_self here]
    · simp [place]
  case once =>
    intro other mem'
    rw [erased] at mem'
    rw [getElem?_set_ne (elsewhere other mem')]
    exact keeps.once other (old other mem')
  case results =>
    intro index other found'
    by_cases place : active.catalogIndex = index
    · subst place
      rw [getElem?_set_self here] at found'
      cases found'
      exact ⟨entry, at_, identity.symm⟩
    · rw [getElem?_set_ne place] at found'
      exact keeps.results index other found'

/-- **Completing** keeps the limits; a result that is rejected changes nothing. -/
theorem complete_spec (keeps : Keeps plan schedule) (admission : TestAdmission Identity)
    (result : TestInvocationResult Identity Report) :
    ∃ schedule' outcome, schedule.complete admission result = .ok (schedule', outcome) ∧ Keeps plan schedule' ∧
      schedule'.nextIndex = schedule.nextIndex ∧ (∀ error, outcome = .error error → schedule' = schedule) := by
  unfold TestAdmissionSchedule.complete
  split
  · exact ⟨_, _, rfl, keeps, rfl, fun _ _ => rfl⟩
  · split
    · exact ⟨_, _, rfl, keeps, rfl, fun _ _ => rfl⟩
    · rename_i active found
      split
      · rw [SortedMap.insert_erase found]
        exact ⟨_, _, rfl, keeps, rfl, fun _ _ => rfl⟩
      · obtain ⟨before, after, entries, _⟩ := SortedMap.entries_of_get? found
        have mem : (result.identity, active) ∈ schedule.active.entries := by
          rw [entries]
          exact mem_append_right _ (.head _)
        have here := keeps.once _ mem
        obtain ⟨short, _⟩ := List.getElem_of_getElem? here
        rw [if_pos short]
        exact ⟨_, _, rfl, keeps_release keeps found, rfl, nofun⟩

theorem keeps_stop (keeps : Keeps plan schedule) (reason : TestStopReason) : Keeps plan (schedule.stop reason).1 :=
  { keeps with }

/-! ## 5. Runs -/

/-- What one call does. -/
theorem step_spec (wf : plan.WellFormed) (keeps : Keeps plan schedule) (operation : Operation Identity Report) :
    ∃ schedule' answer, step schedule operation = .ok (schedule', answer) ∧ Keeps plan schedule' := by
  cases operation with
  | admitNext =>
    obtain ⟨schedule', admission, admits, keeps', _⟩ := admitNext_spec wf keeps
    exact ⟨schedule', .admitted admission, by rw [step, admits]; rfl, keeps'⟩
  | complete admission result =>
    obtain ⟨schedule', outcome, completes, keeps', _⟩ := complete_spec keeps admission result
    exact ⟨schedule', .completed outcome, by rw [step, completes]; rfl, keeps'⟩
  | stop reason => exact ⟨_, _, rfl, keeps_stop keeps reason⟩

/-- What a run admits: the entries of the plan from the first on. -/
structure InOrder (plan : TestExecutionPlan Identity) (admissions : List (TestAdmission Identity)) (next : Nat) :
    Prop where
  indices : admissions.map TestAdmission.catalogIndex = List.range next
  planned : ∀ admission ∈ admissions, plan.entries[admission.catalogIndex]? = some admission.entry ∧
    plan.invocations[admission.catalogIndex]? = some admission.invocation

/-- **Results are those of the catalog, in its order.** -/
theorem results_sublist (keeps : Keeps plan schedule) :
    (schedule.completedResults.map TestInvocationResult.identity).Sublist
      (plan.entries.map TestEntryMetadata.identity) := by
  have slots := keeps.slots
  have results := keeps.results
  unfold TestAdmissionSchedule.completedResults
  generalize schedule.completed = completed at slots results
  generalize plan.entries = entries at slots results
  induction completed generalizing entries with
  | nil => exact nil_sublist _
  | cons first completed ih =>
    cases entries with
    | nil => cases slots
    | cons entry entries =>
      have rest := ih entries (Nat.succ.inj slots) fun index result found => by
        obtain ⟨entry', at_, same⟩ := results (index + 1) result found
        exact ⟨entry', at_, same⟩
      cases first with
      | none => exact rest.cons _
      | some result =>
        obtain ⟨entry', at_, same⟩ := results 0 result rfl
        cases at_
        rw [map_cons, ← same]
        exact rest.cons_cons _

theorem run_keeps (wf : plan.WellFormed) {trace : List (Operation Identity Report × Answer Identity)}
    (run : Run step (.new plan) trace schedule) :
    Keeps plan schedule ∧ InOrder plan (Admission.admitted trace) schedule.nextIndex := by
  refine run.invariant_trace (P := fun trace schedule =>
    Keeps plan schedule ∧ InOrder plan (Admission.admitted trace) schedule.nextIndex) ?_ ⟨keeps_new plan, rfl, nofun⟩
  rintro trace schedule operation schedule' answer ⟨keeps, order⟩ stepped
  have grown : Admission.admitted (trace ++ [(operation, answer)]) =
      Admission.admitted trace ++ Admission.admitted [(operation, answer)] := filterMap_append
  rw [grown]
  cases operation with
  | admitNext =>
    obtain ⟨next, admission, admits, keeps', same | added⟩ := admitNext_spec wf keeps
    · obtain ⟨rfl, rfl⟩ := same
      rw [step, admits] at stepped
      cases stepped
      exact ⟨keeps', by rwa [show Admission.admitted [(_, _)] = [] from rfl, append_nil]⟩
    · obtain ⟨admission', rfl, index, entry, invocation, later⟩ := added
      rw [step, admits] at stepped
      cases stepped
      refine ⟨keeps', ?_, ?_⟩
      · rw [map_append, order.indices, later, range_succ]
        exact congrArg _ (congrArg (fun index => [index]) index)
      · intro other mem
        rcases mem_append.mp mem with old | new
        · exact order.planned other old
        · obtain rfl : other = admission' := mem_singleton.mp new
          rw [index]
          exact ⟨entry, invocation⟩
  | complete admission result =>
    obtain ⟨next, outcome, completes, keeps', same, _⟩ := complete_spec keeps admission result
    rw [step, completes] at stepped
    cases stepped
    rw [same]
    exact ⟨keeps', by rwa [show Admission.admitted [(_, _)] = [] from rfl, append_nil]⟩
  | stop reason =>
    cases stepped
    exact ⟨keeps_stop keeps reason, by rwa [show Admission.admitted [(_, _)] = [] from rfl, append_nil]⟩

end Bray.Admission
