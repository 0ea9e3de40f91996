/-
  File:      Bray/Pool/Exclusive.lean
  Subject:   LEASES OVER A RUN.

  The trace of a run tells which leases were issued, retired, published and dispatched (`issued`,
  `retired`, `published`, `dispatched`).

  * `Traced` -- the slots in use are those of the leases that were issued and not retired, and the
    state of each tells whether it was published and dispatched;
  * `Traced.quiet`, `Traced.issue`, `Traced.alter`, `Traced.retire` -- what a step may do to it;
  * `leases_are_exclusive` -- the statement over every run.
-/
import Bray.Pool.Lending
import Bray.Pool.Segments

namespace Bray.Pool

open Bray.Lib List

variable {V : Type}

/-! ## 1. What a trace says of the leases -/

/-- A lease that a step issued, and what for. -/
def issue : StorageOp V × StorageAnswer → Option (Lease × Descriptor)
  | (.lease (.admission descriptor _), .lease lease) => if lease.slot = 0 then none else some (lease, descriptor)
  | (.claim descriptor, .lease lease) => if lease.slot = 0 then none else some (lease, descriptor)
  | _ => none

def retirement : StorageOp V × StorageAnswer → Option Lease
  | (.lease (.retire lease), .flag true) => some lease
  | _ => none

def publication : StorageOp V × StorageAnswer → Option Lease
  | (.lease (.publishFrame lease _ _), .flag true) => some lease
  | _ => none

def dispatch : StorageOp V × StorageAnswer → Option Lease
  | (.lease (.frameAddress lease _ _ true), .address address) => if address = 0 then none else some lease
  | _ => none

abbrev StorageTrace (V : Type) := List (StorageOp V × StorageAnswer)

def issued (tr : StorageTrace V) : List (Lease × Descriptor) := tr.filterMap issue

def retired (tr : StorageTrace V) : List Lease := tr.filterMap retirement

def published (tr : StorageTrace V) : List Lease := tr.filterMap publication

def dispatched (tr : StorageTrace V) : List Lease := tr.filterMap dispatch

/-- The lease was issued, for this descriptor, and is not retired. -/
def InForce (tr : StorageTrace V) (lease : Lease) (descriptor : Descriptor) : Prop :=
  (lease, descriptor) ∈ issued tr ∧ lease ∉ retired tr

/-- The frame of a slot in this state was published. -/
def State.isPublished : State → Bool
  | .inactive _ | .dispatched | .retained _ => true
  | _ => false

/-- And dispatched. -/
def State.isDispatched : State → Bool
  | .dispatched | .retained _ => true
  | _ => false

/-- The pool agrees with what was issued, retired, published and dispatched. -/
structure Traced (target : Target) (pool : ReportPool V) (issued : List (Lease × Descriptor))
  (retired published dispatched : List Lease) : Prop where
  storage : ∃ frees, StorageOk target pool frees none
  live : ∀ lease, Live target pool lease ↔ lease ∈ issued.map Prod.fst ∧ lease ∉ retired
  descriptor : ∀ lease d, (lease, d) ∈ issued → lease ∉ retired → descriptorAt pool lease.shape = some d
  epoch_lt : ∀ lease ∈ issued.map Prod.fst, lease.epoch < pool.nextEpoch
  epochs : (issued.map fun pair => pair.1.epoch).Nodup
  retired_issued : ∀ lease ∈ retired, lease ∈ issued.map Prod.fst
  published_issued : ∀ lease ∈ published, lease ∈ issued.map Prod.fst
  dispatched_published : ∀ lease ∈ dispatched, lease ∈ published
  published_nodup : published.Nodup
  dispatched_nodup : dispatched.Nodup
  phase : ∀ lease entry, Live target pool lease → busyAt pool lease.shape lease.slot = some entry →
    (lease ∈ published ↔ entry.state.isPublished = true) ∧ (lease ∈ dispatched ↔ entry.state.isDispatched = true)

/-! ## 2. What a step may do -/

section Effects

variable {target : Target} {pool pool' : ReportPool V} {frees : List (List Nat)} {lease : Lease} {shape : Shape}
  {entry : Slot} {issued : List (Lease × Descriptor)} {retired published dispatched : List Lease}

namespace Traced

theorem start (target : Target) : Traced target (ReportPool.start V) [] [] [] [] where
  storage := ⟨[], .nil, nodup_nil, .nil, fun _ h => nomatch h⟩
  live lease := by
    constructor
    · rintro ⟨-, entry, hbusy, -⟩
      obtain ⟨-, -, shape, hshape, -⟩ := busyAt_eq_some.mp hbusy
      cases hshape
    · rintro ⟨h, -⟩
      exact nomatch h
  descriptor _ _ h := nomatch h
  epoch_lt _ h := nomatch h
  epochs := nodup_nil
  retired_issued _ h := nomatch h
  published_issued _ h := nomatch h
  dispatched_published _ h := nomatch h
  published_nodup := nodup_nil
  dispatched_nodup := nodup_nil
  phase lease entry h := by
    obtain ⟨-, entry, hbusy, -⟩ := h
    obtain ⟨-, -, shape, hshape, -⟩ := busyAt_eq_some.mp hbusy
    cases hshape

section

variable (h : Traced target pool issued retired published dispatched) (hok : StorageOk target pool' frees none)
include h hok

/-- **No slot in use is touched.** -/
theorem quiet (hbusy : busyAt pool' = busyAt pool)
    (hshapes : ∀ i o entry d, busyAt pool i o = some entry → descriptorAt pool i = some d → descriptorAt pool' i = some d)
  (hepoch : pool'.nextEpoch = pool.nextEpoch) : Traced target pool' issued retired published dispatched where
  storage := ⟨frees, hok⟩
  live lease := (live_congr hbusy lease).trans (h.live lease)
  descriptor lease d hd hr := by
    obtain ⟨-, entry, hentry, -⟩ := (h.live lease).mpr ⟨mem_map_of_mem hd, hr⟩
    exact hshapes lease.shape lease.slot entry d hentry (h.descriptor lease d hd hr)
  epoch_lt lease hl := by
    rw [hepoch]
    exact h.epoch_lt lease hl
  epochs := h.epochs
  retired_issued := h.retired_issued
  published_issued := h.published_issued
  dispatched_published := h.dispatched_published
  published_nodup := h.published_nodup
  dispatched_nodup := h.dispatched_nodup
  phase lease entry hlive hentry := by
    rw [hbusy] at hentry
    exact h.phase lease entry ((live_congr hbusy lease).mp hlive) hentry

theorem steady (hs : Steady pool pool') : Traced target pool' issued retired published dispatched :=
  h.quiet hok hs.busy (fun i _ _ d _ hd => hs.descriptors i d hd) (by rw [hs.rest])

theorem issue {descriptor : Descriptor} {state : State} (hi : Issued target pool pool' descriptor lease state)
    (hp : state.isPublished = false) (hd : state.isDispatched = false) :
    Traced target pool' (issued ++ [(lease, descriptor)]) retired published dispatched := by
  have hfresh : lease ∉ issued.map Prod.fst := fun hmem => by
    have := h.epoch_lt lease hmem
    rw [hi.epoch] at this
    exact absurd this (Nat.lt_irrefl _)
  have hmem : ∀ l, l ∈ (issued ++ [(lease, descriptor)]).map Prod.fst ↔ l ∈ issued.map Prod.fst ∨ l = lease := by
    intro l
    rw [map_append, mem_append, map_singleton, mem_singleton]
  have hself : busyAt pool' lease.shape lease.slot = some ⟨pool.nextEpoch, state, lease.address⟩ := by
    rw [hi.busy, setBusy, if_pos ⟨rfl, rfl⟩]
  have hother : ∀ l : Lease, ¬ (l.shape = lease.shape ∧ l.slot = lease.slot) →
    busyAt pool' l.shape l.slot = busyAt pool l.shape l.slot := by
    intro l hl
    rw [hi.busy, setBusy, if_neg hl]
  have hlive : ∀ l, Live target pool' l ↔ Live target pool l ∨ l = lease := hi.live_iff
  refine ⟨⟨frees, hok⟩, fun l => ?_, fun l d hl hr => ?_, fun l hl => ?_, ?_, fun l hl => ?_, fun l hl => ?_,
    h.dispatched_published, h.published_nodup, h.dispatched_nodup, fun l entry hl hentry => ?_⟩
  · rw [hlive, hmem, h.live]
    constructor
    · rintro (⟨hl, hr⟩ | rfl)
      · exact ⟨.inl hl, hr⟩
      · exact ⟨.inr rfl, fun hr => hfresh (h.retired_issued _ hr)⟩
    · rintro ⟨hl | rfl, hr⟩
      · exact .inl ⟨hl, hr⟩
      · exact .inr rfl
  · rcases mem_append.mp hl with hl | hl
    · exact hi.descriptors _ _ (h.descriptor l d hl hr)
    · cases mem_singleton.mp hl
      exact hi.descriptor
  · rw [hi.nextEpoch]
    rcases (hmem l).mp hl with hl | rfl
    · exact Nat.lt_succ_of_lt (h.epoch_lt l hl)
    · rw [hi.epoch]
      exact Nat.lt_succ_self _
  · rw [map_append, nodup_append]
    refine ⟨h.epochs, nodup_singleton _, fun a ha b hb hab => ?_⟩
    obtain ⟨pair, hpair, rfl⟩ := mem_map.mp ha
    have := h.epoch_lt pair.1 (mem_map_of_mem hpair)
    rw [map_singleton, mem_singleton] at hb
    rw [hab, hb, hi.epoch] at this
    exact absurd this (Nat.lt_irrefl _)
  · exact (hmem l).mpr (.inl (h.retired_issued l hl))
  · exact (hmem l).mpr (.inl (h.published_issued l hl))
  · by_cases hsame : l.shape = lease.shape ∧ l.slot = lease.slot
    · have hnew : Live target pool' lease := ⟨hi.domain, _, hself, hi.epoch.symm, rfl⟩
      cases hl.eq hnew hsame.1 hsame.2
      rw [hself] at hentry
      cases hentry
      have hnot : lease ∉ published := fun hl => hfresh (h.published_issued _ hl)
      refine ⟨⟨fun hl => absurd hl hnot, fun hs => ?_⟩, ⟨fun hl => absurd (h.dispatched_published _ hl) hnot, fun hs => ?_⟩⟩
      · rw [hp] at hs
        cases hs
      · rw [hd] at hs
        cases hs
    · rw [hother l hsame] at hentry
      rcases (hlive l).mp hl with hl | rfl
      · exact h.phase l entry hl hentry
      · exact absurd ⟨rfl, rfl⟩ hsame

/-- **A slot in use changes its state.** -/
theorem alter {state : State} (hlease : LeasedAt target pool lease shape entry)
  (hwrote : Wrote pool pool' lease.shape lease.slot (some { entry with state := state }))
  (hepoch : pool'.nextEpoch = pool.nextEpoch) (hp : entry.state.isPublished = true → state.isPublished = true)
  (hd : entry.state.isDispatched = true → state.isDispatched = true) :
  Traced target pool' issued retired
    (published ++ if !entry.state.isPublished && state.isPublished then [lease] else [])
    (dispatched ++ if !entry.state.isDispatched && state.isDispatched then [lease] else []) := by
  have hself : busyAt pool' lease.shape lease.slot = some { entry with state := state } := by
    rw [hwrote.busy, setBusy, if_pos ⟨rfl, rfl⟩]
  have hnew : Live target pool' lease := ⟨hlease.domain, _, hself, hlease.epoch, hlease.address⟩
  have hother : ∀ l : Lease, ¬ (l.shape = lease.shape ∧ l.slot = lease.slot) →
    busyAt pool' l.shape l.slot = busyAt pool l.shape l.slot := by
    intro l hl
    rw [hwrote.busy, setBusy, if_neg hl]
  have hlive : ∀ l, Live target pool' l ↔ Live target pool l := hlease.live_iff hwrote
  obtain ⟨hpub, hdis⟩ := h.phase lease entry hlease.live hlease.busyAt_eq
  have hissued : lease ∈ issued.map Prod.fst := ((h.live lease).mp hlease.live).1
  refine ⟨⟨frees, hok⟩, fun l => (hlive l).trans (h.live l), fun l d hl hr => ?_, fun l hl => ?_, h.epochs,
    h.retired_issued, fun l hl => ?_, fun l hl => ?_, ?_, ?_, fun l entry' hl hentry => ?_⟩
  · rw [hwrote.descriptors]
    exact h.descriptor l d hl hr
  · rw [hepoch]
    exact h.epoch_lt l hl
  · rcases mem_append.mp hl with hl | hl
    · exact h.published_issued l hl
    · split at hl
      · rw [mem_singleton.mp hl]
        exact hissued
      · cases hl
  · rcases mem_append.mp hl with hl | hl
    · exact mem_append_left _ (h.dispatched_published l hl)
    · split at hl
      · rw [mem_singleton.mp hl]
        cases hpe : entry.state.isPublished with
        | true => exact mem_append_left _ (hpub.mpr hpe)
        | false =>
          -- a dispatched frame is a published one
          have hps : state.isPublished = true := by
            cases state <;> simp_all [State.isDispatched, State.isPublished]
          rw [hps]
          exact mem_append_right _ (mem_singleton_self _)
      · cases hl
  · split
    · rename_i hnow
      refine nodup_append.mpr ⟨h.published_nodup, nodup_singleton _, fun a ha b hb hab => ?_⟩
      rw [hab, mem_singleton.mp hb] at ha
      rw [hpub.mp ha] at hnow
      cases hnow
    · rw [append_nil]
      exact h.published_nodup
  · split
    · rename_i hnow
      refine nodup_append.mpr ⟨h.dispatched_nodup, nodup_singleton _, fun a ha b hb hab => ?_⟩
      rw [hab, mem_singleton.mp hb] at ha
      rw [hdis.mp ha] at hnow
      cases hnow
    · rw [append_nil]
      exact h.dispatched_nodup
  · by_cases hsame : l.shape = lease.shape ∧ l.slot = lease.slot
    · cases hl.eq hnew hsame.1 hsame.2
      rw [hself] at hentry
      cases hentry
      rw [mem_append, mem_append, hpub, hdis]
      constructor
      · cases hpe : entry.state.isPublished with
        | true => simp [hp hpe]
        | false => cases hps : state.isPublished <;> simp
      · cases hde : entry.state.isDispatched with
        | true => simp [hd hde]
        | false => cases hds : state.isDispatched <;> simp
    · rw [hother l hsame] at hentry
      have hne : l ≠ lease := fun e => hsame (by rw [e]; exact ⟨rfl, rfl⟩)
      have hnot : ∀ b : Bool, l ∉ (if b then [lease] else []) := by
        intro b hb
        split at hb
        · exact hne (mem_singleton.mp hb)
        · cases hb
      rw [mem_append, mem_append, or_iff_left (hnot _), or_iff_left (hnot _)]
      exact h.phase l entry' ((hlive l).mp hl) hentry

end

theorem retire (h : Traced target pool issued retired published dispatched) (hok : StorageOk target pool' frees none)
    (hlease : LeasedAt target pool lease shape entry) (hwrote : Wrote pool pool' lease.shape lease.slot none)
    (hepoch : pool'.nextEpoch = pool.nextEpoch) :
    Traced target pool' issued (retired ++ [lease]) published dispatched := by
  have hother : ∀ l : Lease, ¬ (l.shape = lease.shape ∧ l.slot = lease.slot) →
    busyAt pool' l.shape l.slot = busyAt pool l.shape l.slot := by
    intro l hl
    rw [hwrote.busy, setBusy, if_neg hl]
  have hlive : ∀ l, Live target pool' l ↔ Live target pool l ∧ l ≠ lease := hlease.live_retired hwrote
  have hnot : ∀ l : Lease, l ∉ retired ++ [lease] ↔ l ∉ retired ∧ l ≠ lease := by
    intro l
    rw [mem_append, mem_singleton, not_or]
  refine ⟨⟨frees, hok⟩, fun l => ?_, fun l d hl hr => ?_, fun l hl => ?_, h.epochs, fun l hl => ?_,
    h.published_issued, h.dispatched_published, h.published_nodup, h.dispatched_nodup, fun l entry' hl hentry => ?_⟩
  · rw [hlive, h.live, hnot, and_assoc]
  · rw [hwrote.descriptors]
    exact h.descriptor l d hl ((hnot l).mp hr).1
  · rw [hepoch]
    exact h.epoch_lt l hl
  · rcases mem_append.mp hl with hl | hl
    · exact h.retired_issued l hl
    · rw [mem_singleton.mp hl]
      exact ((h.live lease).mp hlease.live).1
  · obtain ⟨hold, hne⟩ := (hlive l).mp hl
    have hsame : ¬ (l.shape = lease.shape ∧ l.slot = lease.slot) := fun e => hne (hold.eq hlease.live e.1 e.2)
    rw [hother l hsame] at hentry
    exact h.phase l entry' hold hentry

end Traced

end Effects

/-! ## 3. One step -/

section Step

variable {target : Target} {pool pool' : ReportPool V} {tr : StorageTrace V}

/-- The pool agrees with a trace. -/
def Logged (target : Target) (tr : StorageTrace V) (pool : ReportPool V) : Prop :=
  Traced target pool (issued tr) (retired tr) (published tr) (dispatched tr)

theorem filterMap_concat {α β : Type} (f : α → Option β) (xs : List α) (x : α) :
    (xs ++ [x]).filterMap f = xs.filterMap f ++ (f x).toList := by
  cases hf : f x with
  | none => simp [hf]
  | some y => simp [hf]

theorem Logged.snoc {event : StorageOp V × StorageAnswer}
    (h : Traced target pool (issued tr ++ (issue event).toList) (retired tr ++ (retirement event).toList)
      (published tr ++ (publication event).toList) (dispatched tr ++ (dispatch event).toList)) :
    Logged target (tr ++ [event]) pool := by
  rw [Logged, issued, retired, published, dispatched, filterMap_concat, filterMap_concat, filterMap_concat,
    filterMap_concat]
  exact h

/-- A step that the trace does not tell of. -/
theorem Logged.silent {event : StorageOp V × StorageAnswer}
    (h : Traced target pool (issued tr) (retired tr) (published tr) (dispatched tr)) (hi : issue event = none)
    (hr : retirement event = none) (hp : publication event = none) (hd : dispatch event = none) :
    Logged target (tr ++ [event]) pool := by
  refine Logged.snoc ?_
  rw [hi, hr, hp, hd]
  simpa using h

/-- **Every operation on leases** keeps the agreement with the trace. -/
theorem Logged.lease (h : Logged target tr pool) {op : LeaseOp V} (hheap : HeapBlocks pool (.lease op))
    {answer : StorageAnswer} (e : performLease target pool op = some (pool', answer)) :
    Logged target (tr ++ [(.lease op, answer)]) pool' := by
  obtain ⟨frees, hok⟩ := h.storage
  cases op with
  | admission descriptor prepared =>
    rcases admitLocked_spec (hok.prepare hheap) descriptor with ⟨hnone, -⟩ | ⟨reply, pool₁, prepared₁, frees₁, eadmit,
      hok₁, hcase⟩
    · simp only [performLease, hnone] at e
      cases e
    · simp only [performLease, eadmit, some_bind] at e
      rcases hcase with ⟨hempty, hsteady, -⟩ | ⟨lease, rfl, hissued, -⟩
      · cases reply with
        | error request =>
          cases e
          exact .silent (h.steady hok₁.drop hsteady) rfl rfl rfl rfl
        | ok lease =>
          cases e
          rw [hempty lease rfl]
          exact .silent (h.steady hok₁.drop hsteady) rfl rfl rfl rfl
      · cases e
        refine .snoc ?_
        have hi : issue ((.lease (.admission descriptor prepared) : StorageOp V), StorageAnswer.lease lease) =
          some (lease, descriptor) := if_neg hissued.slot_ne
        rw [hi]
        simpa [retirement, publication, dispatch] using Traced.issue h hok₁.drop hissued rfl rfl
  | activate lease descriptor =>
    rcases activateValue_spec hok lease descriptor with hno | ⟨shape, entry, hlease, -, hstate, hyes⟩
    · obtain ⟨rfl, rfl⟩ := served hno e
      exact .silent h rfl rfl rfl rfl
    · obtain ⟨rfl, rfl⟩ := served hyes e
      obtain ⟨frees', hok', hwrote, -⟩ := storeLeased_spec hok hlease (show State.active.isFree = false from rfl)
      have halter := Traced.alter h hok' hlease hwrote rfl (by rw [hstate]; exact id) (by rw [hstate]; exact id)
      exact .silent (by simpa [State.isPublished, State.isDispatched] using halter) rfl rfl rfl rfl
  | publishFrame lease descriptor identity =>
    rcases publishFrame_spec hok lease descriptor identity with hno | ⟨shape, entry, hlease, -, hstate, hyes⟩
    · obtain ⟨rfl, rfl⟩ := served hno e
      exact .silent h rfl rfl rfl rfl
    · obtain ⟨rfl, rfl⟩ := served hyes e
      obtain ⟨frees', hok', hwrote, -⟩ :=
        storeLeased_spec hok hlease (show (State.inactive identity).isFree = false from rfl)
      have halter := Traced.alter h hok' hlease hwrote rfl (fun _ => rfl) (by rw [hstate]; exact id)
      rw [hstate] at halter
      refine .snoc ?_
      simpa [State.isPublished, State.isDispatched, issue, retirement, publication, dispatch] using halter
  | frameAddress lease descriptor identity dispatching =>
    rcases frameAddress_spec hok lease descriptor identity dispatching with hno | ⟨shape, entry, hlease, -, hyes⟩
    · obtain ⟨rfl, rfl⟩ := served hno e
      refine .silent h rfl rfl rfl ?_
      cases dispatching <;> rfl
    · rcases hyes with ⟨rfl, hyes⟩ | ⟨rfl, ⟨registered, hstate⟩, hyes⟩
      · obtain ⟨rfl, rfl⟩ := served hyes e
        exact .silent h rfl rfl rfl rfl
      · obtain ⟨rfl, rfl⟩ := served hyes e
        obtain ⟨frees', hok', hwrote, -⟩ := storeLeased_spec hok hlease (show State.dispatched.isFree = false from rfl)
        have halter := Traced.alter h hok' hlease hwrote rfl (fun _ => rfl) (fun _ => rfl)
        rw [hstate] at halter
        refine .snoc ?_
        have hne := hlease.address_ne hok
        simpa [State.isPublished, State.isDispatched, issue, retirement, publication, dispatch, hne] using halter
  | retainFrame lease identity =>
    rcases retainFrame_spec hok lease identity with hno | ⟨shape, entry, hlease, hstate, hyes⟩
    · simp only [performLease, hno] at e
      cases e
    · simp only [performLease, hyes, some_bind] at e
      cases e
      obtain ⟨frees', hok', hwrote, -⟩ :=
        storeLeased_spec hok hlease (show (State.retained identity).isFree = false from rfl)
      have halter := Traced.alter h hok' hlease hwrote rfl (fun _ => rfl) (fun _ => rfl)
      rw [hstate] at halter
      exact .silent (by simpa [State.isPublished, State.isDispatched] using halter) rfl rfl rfl rfl
  | retire lease =>
    rcases releaseValue_spec hok lease with ⟨shape, entry, pool₁, frees₁, hlease, hyes, hok₁, hwrote, hrest, -⟩ |
      ⟨-, hno⟩
    · obtain ⟨rfl, rfl⟩ := served hyes e
      have hretire := Traced.retire h hok₁ hlease hwrote (by rw [hrest])
      refine .snoc ?_
      simpa [issue, retirement, publication, dispatch] using hretire
    · obtain ⟨rfl, rfl⟩ := served hno e
      exact .silent h rfl rfl rfl rfl

/-- **Every step** keeps the agreement with the trace. -/
theorem Logged.step [Inhabited V] (h : Logged target tr pool) {op : StorageOp V} (hheap : HeapBlocks pool op)
    {answer : StorageAnswer} (e : performStorage target pool op = some (pool', answer)) :
    Logged target (tr ++ [(op, answer)]) pool' := by
  obtain ⟨frees, hok⟩ := h.storage
  cases op with
  | lease op => exact h.lease hheap e
  | claim descriptor =>
    obtain ⟨⟨lease, pool₁⟩, eclaim, e⟩ := Option.bind_eq_some_iff.mp e
    cases e
    by_cases hbytes : descriptor.bytes = 0
    · rw [claimValue, if_pos hbytes] at eclaim
      cases eclaim
      exact .silent h rfl rfl rfl rfl
    · obtain ⟨hcredit, havailable, hepoch⟩ := claimValue_some hok hbytes eclaim
      obtain ⟨lease', pool₂, frees₂, eclaim', hok₂, hissued, -⟩ :=
        claimValue_total hok hbytes hcredit havailable hepoch
      rw [eclaim] at eclaim'
      cases eclaim'
      refine .snoc ?_
      have hi : issue ((.claim descriptor : StorageOp V), StorageAnswer.lease lease) = some (lease, descriptor) :=
        if_neg hissued.slot_ne
      rw [hi]
      simpa [retirement, publication, dispatch] using Traced.issue h hok₂ hissued rfl rfl
  | accept bundle prepared =>
    rcases acceptLocked_spec (hok.prepare hheap) bundle with ⟨hnone, -⟩ | ⟨reply, grown, pool₁, prepared₁, frees₁,
      eaccept, hok₁, hattempt, -⟩
    · simp only [performStorage, hnone] at e
      cases e
    · have hquiet : Traced target pool₁ (issued tr) (retired tr) (published tr) (dispatched tr) :=
      h.quiet hok₁.drop hattempt.busy (fun i _ _ d _ hd => hattempt.descriptors i d hd) hattempt.nextEpoch
      simp only [performStorage, eaccept, some_bind] at e
      cases reply with
      | error request | ok accepted =>
        cases e
        exact .silent hquiet rfl rfl rfl rfl
  | discharge bundle =>
    obtain ⟨pool₁, edischarge, e⟩ := Option.bind_eq_some_iff.mp e
    cases e
    obtain ⟨frees₁, hok₁, hbusy, hdescriptors, hrest, -⟩ := discharge_some hok edischarge
    exact .silent (h.quiet hok₁ hbusy (fun i _ _ d _ hd => hdescriptors i d hd) (by rw [hrest])) rfl rfl rfl rfl
  | release =>
    cases e
    rcases releasePool_spec hok with hno | ⟨-, hidle, hstorage, hepoch⟩
    · rw [hno]
      exact .silent h rfl rfl rfl rfl
    · have hheld : held (releasePool pool).2.storage = [] := congrArg held hstorage
      have hempty : StorageOk target (releasePool pool).2 [] none := by
        refine ⟨?_, ?_, ?_, ?_⟩
        · rw [hheld]
          exact .nil
        · rw [hheld]
          exact nodup_nil
        · rw [allRegions, hheld]
          exact .nil
        · rw [allRegions, hheld]
          exact fun _ hm => absurd hm not_mem_nil
      have hbusy : busyAt (releasePool pool).2 = busyAt pool := by
        funext i o
        rw [hidle i o, busyAt, hheld]
        split <;> rfl
      refine .silent (h.quiet hempty hbusy (fun i o entry d hentry _ => ?_) hepoch) rfl rfl rfl rfl
      rw [hidle i o] at hentry
      cases hentry

/-- **Every state of a run agrees with the trace.** -/
theorem run_logged [Inhabited V] (h : RunWhere HeapBlocks (storageStep target) (ReportPool.start V) tr pool) :
    Logged target tr pool :=
  h.invariant_trace (P := Logged target) (fun _ _ _ _ _ hlog hok hs => hlog.step hok (orStop_ok hs)) (.start target)

end Step

/-! ## 4. Runs -/

/-- The lease that a call is given. -/
def LeaseOp.lease : LeaseOp V → Option Lease
  | .admission _ _ => none
  | .activate lease _ | .publishFrame lease _ _ | .frameAddress lease _ _ _ | .retainFrame lease _
  | .retire lease => some lease

/-- The descriptor that it is given with it. -/
def LeaseOp.descriptor : LeaseOp V → Option Descriptor
  | .activate _ descriptor | .publishFrame _ descriptor _ | .frameAddress _ descriptor _ _ => some descriptor
  | _ => none

/-- The process stops, or the call fails and leaves the pool as it is. -/
def Fails (pool : ReportPool V) (outcome : Option (ReportPool V × StorageAnswer)) : Prop :=
  ∀ pool' answer, outcome = some (pool', answer) → pool' = pool ∧ (answer = .flag false ∨ answer = .address 0)

/-- A call with a lease that is not in force, or with the descriptor of another shape. -/
theorem foreign_fails {target : Target} {pool : ReportPool V} {frees : List (List Nat)}
    (h : StorageOk target pool frees none) {op : LeaseOp V} {lease : Lease} (hop : op.lease = some lease)
    (hforeign : ¬ Live target pool lease ∨
      ∃ d d', op.descriptor = some d ∧ descriptorAt pool lease.shape = some d' ∧ d ≠ d') :
    Fails pool (performLease target pool op) := by
  intro pool' answer e
  -- a lease in force has the descriptor of its shape
  have hnot : ∀ {shape entry}, LeasedAt target pool lease shape entry →
    ∀ d, op.descriptor = some d → shape.descriptor = d → False := by
    intro shape entry hlease d hd hsame
    rcases hforeign with hdead | ⟨d₁, d₂, hd₁, hd₂, hne⟩
    · exact hdead hlease.live
    · rw [hd] at hd₁
      cases hd₁
      rw [hlease.descriptorAt_eq, hsame] at hd₂
      exact hne (Option.some.inj hd₂)
  cases op with
  | admission descriptor prepared => cases hop
  | activate l descriptor =>
    cases hop
    rcases activateValue_spec h lease descriptor with hno | ⟨shape, entry, hlease, hd, -⟩
    · obtain ⟨rfl, rfl⟩ := served hno e
      exact ⟨rfl, .inr rfl⟩
    · exact (hnot hlease descriptor rfl hd).elim
  | publishFrame l descriptor identity =>
    cases hop
    rcases publishFrame_spec h lease descriptor identity with hno | ⟨shape, entry, hlease, hd, -⟩
    · obtain ⟨rfl, rfl⟩ := served hno e
      exact ⟨rfl, .inl rfl⟩
    · exact (hnot hlease descriptor rfl hd).elim
  | frameAddress l descriptor identity dispatch =>
    cases hop
    rcases frameAddress_spec h lease descriptor identity dispatch with hno | ⟨shape, entry, hlease, hd, -⟩
    · obtain ⟨rfl, rfl⟩ := served hno e
      exact ⟨rfl, .inr rfl⟩
    · exact (hnot hlease descriptor rfl hd).elim
  | retainFrame l identity =>
    cases hop
    have hdead : ¬ Live target pool lease := by
      refine hforeign.resolve_right ?_
      rintro ⟨d, d', hd, -⟩
      cases hd
    rcases retainFrame_spec h lease identity with hno | ⟨shape, entry, hlease, -⟩
    · simp only [performLease, hno] at e
      cases e
    · exact absurd hlease.live hdead
  | retire l =>
    cases hop
    have hdead : ¬ Live target pool lease := by
      refine hforeign.resolve_right ?_
      rintro ⟨d, d', hd, -⟩
      cases hd
    rcases releaseValue_spec h lease with ⟨shape, entry, pool₁, frees₁, hlease, -⟩ | ⟨-, hno⟩
    · exact absurd hlease.live hdead
    · obtain ⟨rfl, rfl⟩ := served hno e
      exact ⟨rfl, .inl rfl⟩

/-- **Leases are exclusive and are not reused.** Over every run, with blocks from the heap that do not
  overlap: no epoch is issued twice; a slot has one lease in force; the bytes of the leases in force
  are aligned, inside a slab of their shape and apart from each other; a frame is published once and
  dispatched at most once, after it was published; and a call with fields that are not those of a
  lease in force, or with the descriptor of another shape, fails or stops and changes nothing. -/
theorem leases_are_exclusive [Inhabited V] (target : Target) {tr : StorageTrace V} {pool : ReportPool V}
    (h : RunWhere HeapBlocks (storageStep target) (ReportPool.start V) tr pool) :
    ((issued tr).map fun pair => pair.1.epoch).Nodup ∧
    (∀ lease d lease' d', InForce tr lease d → InForce tr lease' d' → lease.shape = lease'.shape →
      lease.slot = lease'.slot → lease = lease') ∧
    (∀ lease d, InForce tr lease d → d.align ∣ lease.address ∧ ∃ shape ∈ held pool.storage, shape.descriptor = d ∧
      ∃ region ∈ regions shape, region.pointer ≤ lease.address ∧
        lease.address + d.bytes ≤ region.pointer + region.capacity) ∧
    (∀ lease d lease' d', InForce tr lease d → InForce tr lease' d' → lease ≠ lease' →
      lease.address + d.bytes ≤ lease'.address ∨ lease'.address + d'.bytes ≤ lease.address) ∧
    ((published tr).Nodup ∧ (dispatched tr).Nodup ∧ ∀ lease ∈ dispatched tr, lease ∈ published tr) ∧
    (∀ (op : LeaseOp V) (lease : Lease), op.lease = some lease →
      ((∀ d, ¬ InForce tr lease d) ∨ ∃ d d', op.descriptor = some d ∧ InForce tr lease d' ∧ d ≠ d') →
      Fails pool (performLease target pool op)) := by
  have hlog := run_logged h
  obtain ⟨frees, hok⟩ := hlog.storage
  have hlive : ∀ lease d, InForce tr lease d → ∃ shape entry, LeasedAt target pool lease shape entry ∧
    shape.descriptor = d := by
    intro lease d hin
    obtain ⟨shape, entry, hlease⟩ := ((hlog.live lease).mpr ⟨mem_map_of_mem hin.1, hin.2⟩).leasedAt
    have hd := hlog.descriptor lease d hin.1 hin.2
    rw [hlease.descriptorAt_eq] at hd
    exact ⟨shape, entry, hlease, Option.some.inj hd⟩
  refine ⟨hlog.epochs, fun l d l' d' hl hl' hshape hslot => ?_, fun l d hl => ?_, fun l d l' d' hl hl' hne => ?_,
    ⟨hlog.published_nodup, hlog.dispatched_nodup, hlog.dispatched_published⟩, fun op lease hop hforeign => ?_⟩
  · obtain ⟨shape, entry, hlease, -⟩ := hlive l d hl
    obtain ⟨shape', entry', hlease', -⟩ := hlive l' d' hl'
    exact hlease.live.eq hlease'.live hshape hslot
  · obtain ⟨shape, entry, hlease, rfl⟩ := hlive l d hl
    obtain ⟨halign, hinside⟩ := hlease.inside hok
    exact ⟨halign, shape, mem_of_getElem? hlease.held, rfl, hinside⟩
  · obtain ⟨shape, entry, hlease, rfl⟩ := hlive l d hl
    obtain ⟨shape', entry', hlease', rfl⟩ := hlive l' d' hl'
    refine hlease.apart hok hlease' ?_
    by_contra hsame
    simp only [not_or, not_not] at hsame
    exact hne (hlease.live.eq hlease'.live hsame.1 hsame.2)
  · refine foreign_fails hok hop (hforeign.imp (fun hnone hl => ?_) fun ⟨d, d', hd, hin, hdd⟩ => ?_)
    · obtain ⟨hmem, hret⟩ := (hlog.live lease).mp hl
      obtain ⟨pair, hpair, rfl⟩ := mem_map.mp hmem
      exact hnone pair.2 ⟨hpair, hret⟩
    · exact ⟨d, d', hd, hlog.descriptor lease d' hin.1 hin.2, hdd⟩

/-- Buffers for a shape with one slot more, the block at `address`. -/
def frameRoom (address : Nat) : Prepared Unit :=
  { records := none
    recordSlabs := none
    shapes := some (.vacant 64 4)
    storageSlabs := some (.vacant 128 4)
    slots := some (.vacant 256 1)
    bytes := some (.vacant address 48) }

/-- The first frame that is claimed. -/
def firstFrame : Lease := ⟨4096, 1, 2, 1, 8192⟩

/-- Two frames are claimed; the first is published, dispatched and retired. -/
theorem two_frames_are_apart :
    ∃ tr pool, RunWhere HeapBlocks (storageStep smallTarget) (ReportPool.start Unit) tr pool ∧
      issued tr = [(firstFrame, frameShape), (⟨4096, 1, 1, 2, 4112⟩, frameShape),
        (⟨4096, 1, 2, 3, 8192⟩, frameShape)] ∧ dispatched tr = [firstFrame] ∧
      ((issued tr).map fun pair => pair.1.epoch).Nodup ∧ (dispatched tr).Nodup ∧
      ((4112 : Nat) + frameShape.bytes ≤ 8192 ∨ 8192 + frameShape.bytes ≤ 4112) ∧
      Fails pool (performLease smallTarget pool (.activate firstFrame frameShape)) := by
  have hgrow : ∃ pool₁ pool₂ pool tr,
    storageStep smallTarget (ReportPool.start Unit) (.accept ⟨0, [frameShape]⟩ (frameRoom 4100)) =
      .ok (pool₁, .flag true) ∧
    storageStep smallTarget pool₁ (.accept ⟨0, [frameShape]⟩ (frameRoom 8192)) = .ok (pool₂, .flag true) ∧
    execute (storageStep smallTarget) pool₂
      [.claim frameShape, .claim frameShape, .lease (.publishFrame firstFrame frameShape 5),
        .lease (.frameAddress firstFrame frameShape 5 true), .lease (.retire firstFrame), .claim frameShape] =
      .ok (pool, tr) ∧
    (allRegions pool₁).map (fun region => (region.pointer, region.capacity)) = [(4100, 48)] ∧
    issued tr = [(firstFrame, frameShape), (⟨4096, 1, 1, 2, 4112⟩, frameShape), (⟨4096, 1, 2, 3, 8192⟩, frameShape)] ∧
    retired tr = [firstFrame] ∧ dispatched tr = [firstFrame] := ⟨_, _, _, _, rfl, rfl, rfl, rfl, rfl, rfl, rfl⟩
  obtain ⟨pool₁, pool₂, pool, tr, e₁, e₂, erest, hregions, hissued, hretired, hdispatched⟩ := hgrow
  have hheap₁ : HeapBlocks (ReportPool.start Unit) (.accept ⟨0, [frameShape]⟩ (frameRoom 4100)) := by
    intro region hregion
    cases hregion
    exact ⟨by decide, fun other hother => nomatch hother⟩
  have hheap₂ : HeapBlocks pool₁ (.accept ⟨0, [frameShape]⟩ (frameRoom 8192)) := by
    intro region hregion
    cases hregion
    refine ⟨by decide, fun other hother => ?_⟩
    have hmem := mem_map_of_mem (f := fun region => (region.pointer, region.capacity)) hother
    rw [hregions, mem_singleton, Prod.mk.injEq] at hmem
    rw [Apart, hmem.1, hmem.2]
    decide
  have hrun := RunWhere.cons hheap₁ e₁ (.cons hheap₂ e₂ (RunWhere.of_execute _ (fun op hop s => by
    simp only [mem_cons, not_mem_nil, or_false] at hop
    rcases hop with rfl | rfl | rfl | rfl | rfl | rfl <;> trivial) erest))
  have hissued' : issued ((.accept ⟨0, [frameShape]⟩ (frameRoom 4100), .flag true) ::
    (.accept ⟨0, [frameShape]⟩ (frameRoom 8192), .flag true) :: tr) = _ := hissued
  have hretired' : retired ((.accept ⟨0, [frameShape]⟩ (frameRoom 4100), .flag true) ::
    (.accept ⟨0, [frameShape]⟩ (frameRoom 8192), .flag true) :: tr) = _ := hretired
  obtain ⟨hepochs, -, -, hapart, ⟨-, honce, -⟩, hfails⟩ := leases_are_exclusive smallTarget hrun
  refine ⟨_, pool, hrun, hissued, hdispatched, hepochs, honce, ?_, ?_⟩
  · refine hapart ⟨4096, 1, 1, 2, 4112⟩ frameShape ⟨4096, 1, 2, 3, 8192⟩ frameShape ⟨?_, ?_⟩ ⟨?_, ?_⟩ (by decide)
    · rw [hissued']
      decide
    · rw [hretired']
      decide
    · rw [hissued']
      decide
    · rw [hretired']
      decide
  · refine hfails _ firstFrame rfl (.inl fun d hin => hin.2 ?_)
    rw [hretired']
    exact mem_singleton_self _

end Bray.Pool
