/-
  File:      Bray/Pool/Accounts.lean
  Subject:   WHAT AN ADMITTED BUNDLE MAY CLAIM. The pool, the chains and one account for each bundle.

  A credit promises a free record or slot. A claim does not consume it: the record comes off the free
  list, and the credit stays until the bundle is discharged. An account keeps what its bundle has
  claimed and not given back, so that a free list may be short of the credits by as much as the
  accounts hold, and not by more.

  * `Books` -- this inequality for the records and for every descriptor, and the one for the epochs;
  * `Legal` -- a bundle claims at most what it has reserved, and each descriptor at most twice;
  * `admitted_bundles_can_claim` -- no legal claim stops the process, in any run.
-/
import Bray.Pool.Lending

namespace Bray.Pool

open Bray.Lib List

variable {V : Type}

/-! ## 1. The machine -/

/-- An admitted bundle, and what it has claimed. -/
structure Account where
  bundle : Bundle
  /-- Records that were claimed and not given back. -/
  records : List Nat
  /-- Leases that were claimed and not retired. -/
  leases : List (Lease × Descriptor)
  /-- All claims of storage. -/
  claims : List Descriptor

namespace Account

def opened (bundle : Bundle) : Account := ⟨bundle, [], [], []⟩

def giveBack (freed : Option Nat) (account : Account) : Account :=
  { account with records := account.records.filter fun handle => some handle ≠ freed }

def retire (retired : Option Lease) (account : Account) : Account :=
  { account with leases := account.leases.filter fun pair => some pair.1 ≠ retired }

def claimRecord (handle : Nat) (account : Account) : Account := { account with records := handle :: account.records }

/-- A descriptor without bytes has no lease. -/
def claim (lease : Lease) (descriptor : Descriptor) (account : Account) : Account :=
  if descriptor.bytes = 0 then account
  else { account with
    leases := (lease, descriptor) :: account.leases
    claims := descriptor :: account.claims }

/-- How often a descriptor is claimed and not retired. -/
def outstanding (account : Account) (descriptor : Descriptor) : Nat := (account.leases.map Prod.snd).count descriptor

/-- The epochs that are reserved and not used. -/
def budget (account : Account) : Nat := 2 * account.bundle.descriptors.length - account.claims.length

end Account

/-- The board, and the accounts of the bundles that are admitted. -/
structure Desk (V : Type) where
  board : Board V
  accounts : List Account

def Desk.start (V : Type) : Desk V := ⟨.start V, []⟩

inductive DeskOp (V : Type)
  | chain (op : ChainOp V)
  | lease (op : LeaseOp V)
  /-- One locked attempt of `accept`. -/
  | accept (bundle : Bundle) (prepared : Prepared V)
  | discharge (account : Nat)
  | activateRecord (account : Nat)
  | claim (account : Nat) (descriptor : Descriptor)

inductive DeskAnswer (V : Type)
  | chain (answer : ChainAnswer V)
  | storage (answer : StorageAnswer)
  | record (handle : Nat)

def retiredBy : LeaseOp V → StorageAnswer → Option Lease
  | .retire lease, .flag true => some lease
  | _, _ => none

/-- One step. An activated record is handed out as a chain of its own. -/
def serve [Inhabited V] (target : Target) (desk : Desk V) : DeskOp V → Option (Desk V × DeskAnswer V)
  | .chain op => do
    let (board, answer) ← perform target desk.board op
    some (⟨board, desk.accounts.map (Account.giveBack (freedBy desk.board op))⟩, .chain answer)
  | .lease op => do
    let (pool, answer) ← performLease target desk.board.pool op
    some (⟨{ desk.board with pool := pool }, desk.accounts.map (Account.retire (retiredBy op answer))⟩, .storage answer)
  | .accept bundle prepared => do
    let (reply, pool, _) ← acceptLocked target desk.board.pool bundle prepared
    let board := { desk.board with pool := pool }
    match reply with
    | .error request => some (⟨board, desk.accounts⟩, .storage (.postponed request))
    | .ok false => some (⟨board, desk.accounts⟩, .storage (.flag false))
    | .ok true => some (⟨board, .opened bundle :: desk.accounts⟩, .storage (.flag true))
  | .discharge i => do
    let account ← desk.accounts[i]?
    let pool ← discharge desk.board.pool account.bundle
    some (⟨{ desk.board with pool := pool }, desk.accounts.eraseIdx i⟩, .storage .done)
  | .activateRecord i => do
    let account ← desk.accounts[i]?
    let (handle, pool) ← activateRecord desk.board.pool
    some (⟨⟨pool, desk.board.chains ++ [⟨handle, handle, 1⟩]⟩, desk.accounts.set i (account.claimRecord handle)⟩,
      .record handle)
  | .claim i descriptor => do
    let account ← desk.accounts[i]?
    let (lease, pool) ← claimValue target desk.board.pool descriptor
    some (⟨{ desk.board with pool := pool }, desk.accounts.set i (account.claim lease descriptor)⟩,
      .storage (.lease lease))

def deskStep [Inhabited V] (target : Target) (desk : Desk V) (op : DeskOp V) : Except Stop (Desk V × DeskAnswer V) :=
  orStop (serve target desk op)

/-- How the steps are to be called. A bundle has at most its reserved records and descriptors claimed,
  and claims each descriptor at most twice; it is discharged once. -/
def Legal (desk : Desk V) : DeskOp V → Prop
  | .chain op => Allowed desk.board op
  | .lease op => HeapBlocks desk.board.pool (.lease op)
  | .accept _ prepared => FromHeap desk.board.pool prepared
  | .discharge i => i < desk.accounts.length
  | .activateRecord i => ∃ account, desk.accounts[i]? = some account ∧ account.records.length < account.bundle.records
  | .claim i descriptor => ∃ account, desk.accounts[i]? = some account ∧ descriptor ∈ account.bundle.descriptors ∧
    (descriptor.bytes ≠ 0 → account.outstanding descriptor < account.bundle.descriptors.count descriptor ∧
      account.claims.count descriptor < 2 * account.bundle.descriptors.count descriptor)

/-! ## 2. The books -/

/-- What an account may hold. -/
structure Account.Within (account : Account) : Prop where
  records : account.records.length ≤ account.bundle.records
  leases : ∀ d, account.outstanding d ≤ account.bundle.descriptors.count d
  claims : ∀ d, account.claims.count d ≤ 2 * account.bundle.descriptors.count d

/-- The records, the leases and the descriptors of all accounts. -/
def allRecords (accounts : List Account) : List Nat := accounts.flatMap Account.records

def allLeases (accounts : List Account) : List (Lease × Descriptor) := accounts.flatMap Account.leases

def allDescriptors (accounts : List Account) : List Descriptor := accounts.flatMap fun account => account.bundle.descriptors

/-- The pool keeps what it has promised to the accounts. -/
structure Books (target : Target) (pool : ReportPool V) (lists : List (List Nat)) (accounts : List Account) : Prop where
  within : ∀ account ∈ accounts, account.Within
  records_nodup : (allRecords accounts).Nodup
  records_held : ∀ x ∈ allRecords accounts, x ∈ lists.flatten
  leases_nodup : ((allLeases accounts).map Prod.fst).Nodup
  leases_live : ∀ pair ∈ allLeases accounts, Live target pool pair.1 ∧ descriptorAt pool pair.1.shape = some pair.2
  credits : pool.credits = (accounts.map fun account => account.bundle.records).sum
  shape_credits : ∀ d, creditAt pool d = demand (allDescriptors accounts) d
  record_room : pool.credits ≤ pool.available + (allRecords accounts).length
  lease_room : ∀ d, creditAt pool d ≤ availableAt pool d + ((allLeases accounts).map Prod.snd).count d
  epochs : pool.nextEpoch + pool.remainingEpochs + (accounts.map Account.budget).sum ≤ u64Max

section Sums

variable {accounts accounts' : List Account} {account : Account}

/-- The order of the accounts does not matter. -/
theorem Books.perm {target : Target} {pool : ReportPool V} {lists : List (List Nat)} (h : Books target pool lists accounts)
    (hperm : accounts.Perm accounts') : Books target pool lists accounts' := by
  have hrecords : (allRecords accounts).Perm (allRecords accounts') := hperm.flatMap_right _
  have hleases : (allLeases accounts).Perm (allLeases accounts') := hperm.flatMap_right _
  have hdescriptors : (allDescriptors accounts).Perm (allDescriptors accounts') := hperm.flatMap_right _
  refine ⟨fun a ha => h.within a (hperm.mem_iff.mpr ha), hrecords.nodup_iff.mp h.records_nodup,
    fun x hx => h.records_held x (hrecords.mem_iff.mpr hx), (hleases.map Prod.fst).nodup_iff.mp h.leases_nodup,
    fun pair hpair => h.leases_live pair (hleases.mem_iff.mpr hpair), ?_, fun d => ?_, ?_, fun d => ?_, ?_⟩
  · rw [h.credits]
    exact (hperm.map _).sum_nat
  · rw [h.shape_credits, demand, demand, hdescriptors.count_eq]
  · rw [← hrecords.length_eq]
    exact h.record_room
  · rw [← (hleases.map Prod.snd).count_eq]
    exact h.lease_room d
  · rw [← (hperm.map Account.budget).sum_nat]
    exact h.epochs

/-- What the accounts hold of a descriptor is not more than they have reserved. -/
theorem outstanding_le (h : ∀ account ∈ accounts, account.Within) (d : Descriptor) :
    ((allLeases accounts).map Prod.snd).count d ≤ (allDescriptors accounts).count d := by
  induction accounts with
  | nil => exact Nat.le_refl _
  | cons account rest ih =>
    have hhead := (h account (.head _)).leases d
    have htail := ih fun a ha => h a (.tail _ ha)
    rw [allLeases, allDescriptors, flatMap_cons, flatMap_cons, map_append, count_append, count_append]
    exact Nat.add_le_add hhead htail

theorem records_le (h : ∀ account ∈ accounts, account.Within) :
    (allRecords accounts).length ≤ (accounts.map fun account => account.bundle.records).sum := by
  induction accounts with
  | nil => exact Nat.le_refl _
  | cons account rest ih =>
    have hhead := (h account (.head _)).records
    have htail := ih fun a ha => h a (.tail _ ha)
    rw [allRecords, flatMap_cons, length_append, map_cons, sum_cons]
    exact Nat.add_le_add hhead htail

/-- Claims of each descriptor at most twice are at most two for each descriptor. -/
theorem length_le_twice {claims descriptors : List Descriptor} (h : ∀ d, claims.count d ≤ 2 * descriptors.count d) :
    claims.length ≤ 2 * descriptors.length := by
  have hsub : claims.Subperm (descriptors ++ descriptors) := by
    refine subperm_ext_iff.mpr fun d _ => ?_
    have := h d
    rw [count_append]
    omega
  have := hsub.length_le
  rw [length_append] at this
  omega

/-- One record is given back, if any. -/
theorem length_giveBack {xs : List Nat} (h : xs.Nodup) (freed : Option Nat) :
    xs.length ≤ (xs.filter fun handle => some handle ≠ freed).length + freed.toList.length := by
  cases freed with
  | none => simp
  | some x =>
    induction xs with
    | nil => exact Nat.zero_le _
    | cons y xs ih =>
      obtain ⟨hy, hxs⟩ := nodup_cons.mp h
      by_cases hyx : y = x
      · subst hyx
        have hsame : (xs.filter fun handle => some handle ≠ some y) = xs := by
          refine filter_eq_self.mpr fun z hz => ?_
          have hne : z ≠ y := fun e => hy (e ▸ hz)
          simpa using hne
        rw [filter_cons_of_neg (by simp), hsame]
        exact Nat.le_refl _
      · rw [filter_cons_of_pos (by simpa using hyx)]
        have := ih hxs
        rw [length_cons, length_cons]
        omega

theorem count_retire {xs : List (Lease × Descriptor)} (h : (xs.map Prod.fst).Nodup) {lease : Lease} {v : Descriptor}
    (hv : ∀ pair ∈ xs, pair.1 = lease → pair.2 = v) (d : Descriptor) : (xs.map Prod.snd).count d ≤
      ((xs.filter fun pair => some pair.1 ≠ some lease).map Prod.snd).count d + if d = v then 1 else 0 := by
  induction xs with
  | nil => exact Nat.zero_le _
  | cons pair xs ih =>
    obtain ⟨hp, hxs⟩ := nodup_cons.mp h
    by_cases hkey : pair.1 = lease
    · have hsame : (xs.filter fun pair => some pair.1 ≠ some lease) = xs := by
        refine filter_eq_self.mpr fun q hq => ?_
        have hne : q.1 ≠ lease := fun e => hp (by rw [hkey, ← e]; exact mem_map_of_mem hq)
        simpa using hne
      rw [filter_cons_of_neg (by simpa using hkey), hsame, map_cons, count_cons,
        hv pair (.head _) hkey]
      by_cases hd : v = d
      · simp [hd]
      · have hd' : ¬ d = v := fun e => hd e.symm
        simp [hd, hd']
    · rw [filter_cons_of_pos (by simpa using hkey), map_cons, map_cons, count_cons, count_cons]
      have := ih hxs fun q hq => hv q (.tail _ hq)
      omega

end Sums

/-! ## 3. What a step does to the books -/

section Steps

variable {target : Target} {pool pool' : ReportPool V} {lists lists' : List (List Nat)} {accounts rest : List Account}
  {account : Account} {frees : List (List Nat)}

section

variable (h : RecordsOnly pool pool')
include h

theorem RecordsOnly.creditAt_eq (d : Descriptor) : creditAt pool' d = creditAt pool d := by
  rw [creditAt, creditAt, shapeAt, shapeAt, h.storage]

theorem RecordsOnly.availableAt_eq (d : Descriptor) : availableAt pool' d = availableAt pool d := by
  rw [availableAt, availableAt, shapeAt, shapeAt, h.storage]

theorem RecordsOnly.live_iff (lease : Lease) : Live target pool' lease ↔ Live target pool lease :=
  live_congr (busyAt_congr (congrArg held h.storage)) lease

theorem RecordsOnly.descriptorAt_eq (i : Nat) : descriptorAt pool' i = descriptorAt pool i := by
  rw [descriptorAt, descriptorAt, h.storage]

end

theorem allRecords_giveBack (freed : Option Nat) (accounts : List Account) :
    allRecords (accounts.map (Account.giveBack freed)) =
      (allRecords accounts).filter fun handle => some handle ≠ freed := by
  rw [allRecords, allRecords, flatMap_map, filter_flatMap]
  rfl

theorem allLeases_giveBack (freed : Option Nat) (accounts : List Account) :
    allLeases (accounts.map (Account.giveBack freed)) = allLeases accounts := by
  rw [allLeases, allLeases, flatMap_map]
  rfl

theorem allRecords_retire (retired : Option Lease) (accounts : List Account) :
    allRecords (accounts.map (Account.retire retired)) = allRecords accounts := by
  rw [allRecords, allRecords, flatMap_map]
  rfl

theorem allLeases_retire (retired : Option Lease) (accounts : List Account) :
    allLeases (accounts.map (Account.retire retired)) =
      (allLeases accounts).filter fun pair => some pair.1 ≠ retired := by
  rw [allLeases, allLeases, flatMap_map, filter_flatMap]
  rfl

structure SameBundles (accounts accounts' : List Account) : Prop where
  descriptors : allDescriptors accounts' = allDescriptors accounts
  records : accounts'.map (fun account => account.bundle.records) = accounts.map fun account => account.bundle.records
  budget : accounts'.map Account.budget = accounts.map Account.budget

theorem sameBundles_giveBack (freed : Option Nat) (accounts : List Account) :
    SameBundles accounts (accounts.map (Account.giveBack freed)) := by
  refine ⟨?_, ?_, ?_⟩
  · rw [allDescriptors, allDescriptors, flatMap_map]
    rfl
  · rw [map_map]
    rfl
  · rw [map_map]
    rfl

theorem sameBundles_retire (retired : Option Lease) (accounts : List Account) :
    SameBundles accounts (accounts.map (Account.retire retired)) := by
  refine ⟨?_, ?_, ?_⟩
  · rw [allDescriptors, allDescriptors, flatMap_map]
    rfl
  · rw [map_map]
    rfl
  · rw [map_map]
    rfl

/-- What an operation on leases does, seen from the credits. -/
structure Lent (target : Target) (pool pool' : ReportPool V) (retired : Option Lease) : Prop where
  rest : pool' = { pool with
    storage := pool'.storage, nextEpoch := pool'.nextEpoch, remainingEpochs := pool'.remainingEpochs }
  credits : ∀ d, creditAt pool' d = creditAt pool d
  epochs : pool'.nextEpoch + pool'.remainingEpochs = pool.nextEpoch + pool.remainingEpochs
  live : ∀ l, Live target pool l → retired ≠ some l → Live target pool' l
  descriptors : ∀ i d, descriptorAt pool i = some d → descriptorAt pool' i = some d
  available : ∀ d, creditAt pool d ≤ availableAt pool' d ∨
    availableAt pool d + (if retired.bind (fun l => descriptorAt pool l.shape) = some d then 1 else 0) ≤
      availableAt pool' d

theorem Lent.refl (pool : ReportPool V) : Lent target pool pool none where
  rest := rfl
  credits _ := rfl
  epochs := rfl
  live _ h _ := h
  descriptors _ _ h := h
  available _ := .inr (Nat.le_refl _)

/-- A slot in use changes its state. -/
theorem Lent.alter {lease : Lease} {shape : Shape} {entry : Slot} {state : State}
    (h : LeasedAt target pool lease shape entry)
  (hwrote : Wrote pool pool' lease.shape lease.slot (some { entry with state := state }))
  (hrest : pool' = { pool with storage := pool'.storage }) (havailable : ∀ d, availableAt pool' d = availableAt pool d) :
  Lent target pool pool' none where
  rest := by rw [hrest]
  credits := hwrote.credits
  epochs := by rw [hrest]
  live l hl _ := (h.live_iff hwrote l).mpr hl
  descriptors i d hd := by
    rw [hwrote.descriptors]
    exact hd
  available d := .inr (Nat.le_of_eq (havailable d).symm)

/-- **Every operation on leases.** -/
theorem performLease_lent (h : StorageOk target pool frees none) {op : LeaseOp V}
    (hheap : HeapBlocks pool (.lease op)) {answer : StorageAnswer}
    (e : performLease target pool op = some (pool', answer)) :
    ∃ frees', StorageOk target pool' frees' none ∧ Lent target pool pool' (retiredBy op answer) := by
  have same : ∃ frees', StorageOk target pool frees' none ∧ Lent target pool pool none := ⟨frees, h, .refl pool⟩
  have alters {lease shape entry state} (hlease : LeasedAt target pool lease shape entry) (hstate : state.isFree = false) :
      ∃ frees', StorageOk target (storeLeased pool lease shape { entry with state := state }) frees' none ∧
        Lent target pool (storeLeased pool lease shape { entry with state := state }) none := by
    obtain ⟨frees', hok', hwrote, havailable⟩ := storeLeased_spec h hlease hstate
    exact ⟨frees', hok', .alter hlease hwrote rfl havailable⟩
  cases op with
  | admission descriptor prepared =>
    rcases admitLocked_spec (h.prepare hheap) descriptor with ⟨hnone, -⟩ | ⟨reply, pool₁, prepared₁, frees₁, eadmit,
      hok₁, hcase⟩
    · simp only [performLease, hnone] at e
      cases e
    · simp only [performLease, eadmit, some_bind] at e
      rcases hcase with ⟨-, hsteady, hkeep⟩ | ⟨lease, rfl, hissued, hremaining, hrest, hspace⟩
      · have hlent : Lent target pool pool₁ none := by
          refine ⟨?_, fun d => (hkeep d).1, ?_, fun l hl _ => ?_, hsteady.descriptors, fun d => .inr (hkeep d).2⟩
          · rw [hsteady.rest]
          · rw [hsteady.rest]
          · exact (live_congr hsteady.busy l).mpr hl
        cases reply with
        | error request | ok lease =>
          cases e
          exact ⟨frees₁, hok₁.drop, hlent⟩
      · cases e
        refine ⟨frees₁, hok₁.drop, ⟨?_, hissued.credits, ?_, fun l hl _ => (hissued.live_iff l).mpr (.inl hl),
          hissued.descriptors, hspace⟩⟩
        · rw [hrest]
        · rw [hrest]
          show pool.nextEpoch + 1 + (pool.remainingEpochs - 1) = _
          omega
  | activate lease descriptor =>
    rcases activateValue_spec h lease descriptor with hno | ⟨shape, entry, hlease, -, -, hyes⟩
    · obtain ⟨rfl, rfl⟩ := served hno e
      exact same
    · obtain ⟨rfl, rfl⟩ := served hyes e
      exact alters hlease rfl
  | publishFrame lease descriptor identity =>
    rcases publishFrame_spec h lease descriptor identity with hno | ⟨shape, entry, hlease, -, -, hyes⟩
    · obtain ⟨rfl, rfl⟩ := served hno e
      exact same
    · obtain ⟨rfl, rfl⟩ := served hyes e
      exact alters hlease rfl
  | frameAddress lease descriptor identity dispatching =>
    rcases frameAddress_spec h lease descriptor identity dispatching with hno | ⟨shape, entry, hlease, -, hyes⟩
    · obtain ⟨rfl, rfl⟩ := served hno e
      exact same
    · rcases hyes with ⟨-, hyes⟩ | ⟨-, -, hyes⟩
      · obtain ⟨rfl, rfl⟩ := served hyes e
        exact same
      · obtain ⟨rfl, rfl⟩ := served hyes e
        exact alters hlease rfl
  | retainFrame lease identity =>
    rcases retainFrame_spec h lease identity with hno | ⟨shape, entry, hlease, -, hyes⟩
    · simp only [performLease, hno] at e
      cases e
    · simp only [performLease, hyes, some_bind] at e
      cases e
      exact alters hlease rfl
  | retire lease =>
    rcases releaseValue_spec h lease with ⟨shape, entry, pool₁, frees₁, hlease, hyes, hok₁, hwrote, hrest, hspace⟩ |
      ⟨-, hno⟩
    · obtain ⟨rfl, rfl⟩ := served hyes e
      refine ⟨frees₁, hok₁, ⟨?_, hwrote.credits, ?_, fun l hl hne => ?_, fun i d hd => ?_, fun d => .inr ?_⟩⟩
      · rw [hrest]
      · rw [hrest]
      · exact (hlease.live_retired hwrote l).mpr ⟨hl, fun e => hne (by rw [e]; rfl)⟩
      · rw [hwrote.descriptors]
        exact hd
      · show availableAt pool d + (if descriptorAt pool lease.shape = some d then 1 else 0) ≤ _
        rw [hlease.descriptorAt_eq, hspace d]
        by_cases hd : d = shape.descriptor
        · rw [if_pos hd, if_pos (by rw [hd]), hd, availableAt, h.shapeAt_eq hlease.held]
          exact Nat.le_refl _
        · rw [if_neg hd, if_neg fun e => hd (Option.some.inj e).symm]
          exact Nat.le_refl _
    · obtain ⟨rfl, rfl⟩ := served hno e
      exact same

namespace Books

/-- **An operation on leases.** -/
theorem lease {retired : Option Lease} (h : Books target pool lists accounts) (hlent : Lent target pool pool' retired) :
    Books target pool' lists (accounts.map (Account.retire retired)) := by
  have hsame := sameBundles_retire retired accounts
  have hcredits : pool'.credits = pool.credits := by rw [hlent.rest]
  have havailable : pool'.available = pool.available := by rw [hlent.rest]
  have hmem : ∀ pair ∈ allLeases (accounts.map (Account.retire retired)),
    pair ∈ allLeases accounts ∧ some pair.1 ≠ retired := by
    intro pair hpair
    rw [allLeases_retire, mem_filter, decide_eq_true_eq] at hpair
    exact hpair
  refine ⟨fun a ha => ?_, ?_, fun x hx => ?_, ?_, fun pair hpair => ?_, ?_, fun d => ?_, ?_, fun d => ?_, ?_⟩
  · obtain ⟨b, hb, rfl⟩ := mem_map.mp ha
    have hwithin := h.within b hb
    refine ⟨hwithin.records, fun d => Nat.le_trans ?_ (hwithin.leases d), hwithin.claims⟩
    exact (filter_sublist.map Prod.snd).count_le d
  · rw [allRecords_retire]
    exact h.records_nodup
  · rw [allRecords_retire] at hx
    exact h.records_held x hx
  · rw [allLeases_retire]
    exact h.leases_nodup.sublist (filter_sublist.map Prod.fst)
  · obtain ⟨hold, hne⟩ := hmem pair hpair
    obtain ⟨hlive, hd⟩ := h.leases_live pair hold
    exact ⟨hlent.live pair.1 hlive fun e => hne e.symm, hlent.descriptors _ _ hd⟩
  · rw [hcredits, hsame.records]
    exact h.credits
  · rw [hlent.credits, hsame.descriptors]
    exact h.shape_credits d
  · rw [hcredits, havailable, allRecords_retire]
    exact h.record_room
  · have hroom := h.lease_room d
    rw [hlent.credits, allLeases_retire]
    rcases hlent.available d with hle | hle
    · exact Nat.le_trans hle (Nat.le_add_right _ _)
    · cases retired with
      | none =>
        have hall : ((allLeases accounts).filter fun pair => some pair.1 ≠ none) = allLeases accounts :=
          filter_eq_self.mpr fun pair _ => by simp
        rw [hall]
        omega
      | some lease =>
        cases hd : descriptorAt pool lease.shape with
        | none =>
          -- a lease of an account has a shape
          have hall : ((allLeases accounts).filter fun pair => some pair.1 ≠ some lease) = allLeases accounts := by
            refine filter_eq_self.mpr fun pair hpair => ?_
            have hne : pair.1 ≠ lease := fun e => by
              have := (h.leases_live pair hpair).2
              rw [e, hd] at this
              cases this
            simpa using hne
          rw [hall]
          omega
        | some v =>
          have hv : ∀ pair ∈ allLeases accounts, pair.1 = lease → pair.2 = v := by
            intro pair hpair hpl
            have := (h.leases_live pair hpair).2
            rw [hpl, hd] at this
            exact (Option.some.inj this).symm
          have hcount := count_retire h.leases_nodup hv d
          rw [Option.bind_some, hd] at hle
          by_cases hdv : d = v
          · rw [if_pos hdv] at hcount
            rw [if_pos (by rw [hdv])] at hle
            omega
          · rw [if_neg hdv] at hcount
            omega
  · rw [hlent.epochs, hsame.budget]
    exact h.epochs

/-- **An operation on chains.** -/
theorem chain {board board' : Board V} {free free' : List Nat} {freed : Option Nat}
    (h : Books target board.pool lists accounts) (heffect : Effect board board' free free' lists lists' freed)
    (hfree : FreeList board.pool free) (hfree' : FreeList board'.pool free') :
    Books target board'.pool lists' (accounts.map (Account.giveBack freed)) := by
  have hrest := heffect.toRecordsOnly
  have hsame := sameBundles_giveBack freed accounts
  refine ⟨fun a ha => ?_, ?_, fun x hx => ?_, ?_, fun pair hpair => ?_, ?_, fun d => ?_, ?_, fun d => ?_, ?_⟩
  · obtain ⟨b, hb, rfl⟩ := mem_map.mp ha
    have hwithin := h.within b hb
    exact ⟨Nat.le_trans (length_filter_le _ _) hwithin.records, hwithin.leases, hwithin.claims⟩
  · rw [allRecords_giveBack]
    exact h.records_nodup.filter _
  · rw [allRecords_giveBack, mem_filter, decide_eq_true_eq] at hx
    exact (heffect.kept x (h.records_held x hx.1)).resolve_right fun e => hx.2 e.symm
  · rw [allLeases_giveBack]
    exact h.leases_nodup
  · rw [allLeases_giveBack] at hpair
    rw [hrest.live_iff, hrest.descriptorAt_eq]
    exact h.leases_live pair hpair
  · rw [hrest.credits, hsame.records]
    exact h.credits
  · rw [hrest.creditAt_eq, hsame.descriptors]
    exact h.shape_credits d
  · have hroom := h.record_room
    have hout := length_giveBack h.records_nodup freed
    rw [allRecords_giveBack, hrest.credits, hfree'.length_eq]
    rw [hfree.length_eq] at hroom
    rcases heffect.room with hle | hle
    · omega
    · omega
  · rw [hrest.creditAt_eq, hrest.availableAt_eq, allLeases_giveBack]
    exact h.lease_room d
  · rw [hrest.nextEpoch, hrest.remainingEpochs, hsame.budget]
    exact h.epochs

/-- **A bundle is admitted**, or not. -/
theorem accept {grown : ReportPool V} {bundle : Bundle} {reply : Reply Request Bool}
    (h : Books target pool lists accounts) (hattempt : Attempt pool grown pool' bundle reply)
    (havailable : pool.available ≤ pool'.available)
    (hready : reply = .ok true → pool.credits + bundle.records ≤ pool'.available) :
    Books target pool' lists (if reply = .ok true then .opened bundle :: accounts else accounts) := by
  have hlive : ∀ pair ∈ allLeases accounts, Live target pool' pair.1 ∧ descriptorAt pool' pair.1.shape = some pair.2 := by
    intro pair hpair
    obtain ⟨hl, hd⟩ := h.leases_live pair hpair
    exact ⟨(live_congr hattempt.busy pair.1).mpr hl, hattempt.descriptors _ _ hd⟩
  split
  · rename_i hyes
    obtain ⟨hcredits, hremaining, hcreditAt⟩ := hattempt.accepted hyes
    refine ⟨fun a ha => ?_, h.records_nodup, h.records_held, h.leases_nodup, hlive, ?_, fun d => ?_, ?_, fun d => ?_, ?_⟩
    · rcases mem_cons.mp ha with rfl | ha
      · exact ⟨Nat.zero_le _, fun d => Nat.zero_le _, fun d => Nat.zero_le _⟩
      · exact h.within a ha
    · rw [hcredits, h.credits, map_cons, sum_cons, Nat.add_comm]
      rfl
    · have hall : allDescriptors (.opened bundle :: accounts) = bundle.descriptors ++ allDescriptors accounts :=
        flatMap_cons
      rw [(hcreditAt d).1, h.shape_credits, hall, demand_append, Nat.add_comm]
    · rw [hcredits]
      exact Nat.le_trans (hready hyes) (Nat.le_add_right _ _)
    · rcases (hcreditAt d).2 with hsame | hle
      · rw [hsame]
        exact Nat.le_trans (h.lease_room d) (Nat.add_le_add_right (hattempt.available d) _)
      · exact Nat.le_trans hle (Nat.le_add_right _ _)
    · have hbudget : (Account.opened bundle).budget = bundle.descriptors.length * 2 := by
        rw [Account.budget, Nat.mul_comm]
        rfl
      have hepochs := h.epochs
      rw [hattempt.nextEpoch, map_cons, sum_cons, hbudget]
      omega
  · rename_i hno
    obtain ⟨hcredits, hremaining, hcreditAt⟩ := hattempt.refused hno
    refine ⟨h.within, h.records_nodup, h.records_held, h.leases_nodup, hlive, ?_, fun d => ?_, ?_, fun d => ?_, ?_⟩
    · rw [hcredits]
      exact h.credits
    · rw [hcreditAt]
      exact h.shape_credits d
    · rw [hcredits]
      exact Nat.le_trans h.record_room (Nat.add_le_add_right havailable _)
    · rw [hcreditAt]
      exact Nat.le_trans (h.lease_room d) (Nat.add_le_add_right (hattempt.available d) _)
    · rw [hattempt.nextEpoch, hremaining]
      exact h.epochs

section

variable (h : Books target pool lists (account :: rest))
include h

theorem covers :
    account.bundle.records ≤ pool.credits ∧ ∀ d, demand account.bundle.descriptors d ≤ creditAt pool d := by
  refine ⟨?_, fun d => ?_⟩
  · rw [h.credits, map_cons, sum_cons]
    exact Nat.le_add_right _ _
  · rw [h.shape_credits, allDescriptors, flatMap_cons, demand_append]
    exact Nat.le_add_right _ _

theorem discharge (hok : StorageOk target pool frees none) (e : Pool.discharge pool account.bundle = some pool') :
    (∃ frees', StorageOk target pool' frees' none) ∧ Books target pool' lists rest := by
  obtain ⟨frees', hok', hbusy, hdescriptors, hrest, hcredits, hcreditAt⟩ := discharge_some hok e
  have hrecords : allRecords (account :: rest) = account.records ++ allRecords rest := flatMap_cons
  have hleases : allLeases (account :: rest) = account.leases ++ allLeases rest := flatMap_cons
  have hwithin := h.within account (.head _)
  refine ⟨⟨frees', hok'⟩, fun a ha => h.within a (.tail _ ha), ?_, fun x hx => ?_, ?_,
    fun pair hpair => ?_, ?_, fun d => ?_, ?_, fun d => ?_, ?_⟩
  · have := h.records_nodup
    exact this.of_append_right
  · exact h.records_held x (by rw [hrecords]; exact mem_append_right _ hx)
  · have := h.leases_nodup
    rw [hleases, map_append] at this
    exact this.of_append_right
  · obtain ⟨hl, hd⟩ := h.leases_live pair (by rw [hleases]; exact mem_append_right _ hpair)
    exact ⟨(live_congr hbusy pair.1).mpr hl, hdescriptors _ _ hd⟩
  · have := h.credits
    rw [hcredits, map_cons, sum_cons] at this
    omega
  · have := h.shape_credits d
    rw [(hcreditAt d).1, allDescriptors, flatMap_cons, demand_append] at this
    rw [allDescriptors]
    omega
  · have hroom := h.record_room
    have hlen := hwithin.records
    have hsame : pool'.available = pool.available := by rw [hrest]
    rw [hcredits, hrecords, length_append] at hroom
    omega
  · have hroom := h.lease_room d
    rw [(hcreditAt d).1, hleases, map_append, count_append] at hroom
    rw [(hcreditAt d).2]
    by_cases hbytes : d.bytes = 0
    · -- without bytes there are no credits
      have hzero : creditAt pool d = 0 := by rw [h.shape_credits, demand, if_pos hbytes]
      have := (hcreditAt d).1
      omega
    · have hout := hwithin.leases d
      rw [Account.outstanding] at hout
      rw [demand, if_neg hbytes] at hroom
      omega
  · have hepochs := h.epochs
    have hnext : pool'.nextEpoch = pool.nextEpoch := by rw [hrest]
    have hremaining : pool'.remainingEpochs = pool.remainingEpochs := by rw [hrest]
    rw [map_cons, sum_cons] at hepochs
    omega

/-- An account that may claim a record finds one. -/
theorem record_free (hlt : account.records.length < account.bundle.records) : 0 < pool.available := by
  have hroom := h.record_room
  have hrest := records_le fun a ha => h.within a (mem_cons_of_mem account ha)
  rw [h.credits, allRecords, flatMap_cons, length_append, map_cons, sum_cons] at hroom
  rw [allRecords] at hrest
  omega

theorem claimRecord {handle : Nat} (hkept : RecordsOnly pool pool')
    (havailable : pool.available = pool'.available + 1) (hfresh : handle ∉ lists.flatten)
    (hlt : account.records.length < account.bundle.records) :
    Books target pool' (lists ++ [[handle]]) (account.claimRecord handle :: rest) := by
  have hrecords : allRecords (account.claimRecord handle :: rest) = handle :: allRecords (account :: rest) := rfl
  refine ⟨fun a ha => ?_, ?_, fun x hx => ?_, h.leases_nodup, fun pair hpair => ?_, ?_, fun d => ?_, ?_, fun d => ?_, ?_⟩
  · rcases mem_cons.mp ha with rfl | ha
    · have hwithin := h.within account (.head _)
      exact ⟨hlt, hwithin.leases, hwithin.claims⟩
    · exact h.within a (.tail _ ha)
  · exact nodup_cons.mpr ⟨fun hx => hfresh (h.records_held handle hx), h.records_nodup⟩
  · rw [flatten_append, mem_append]
    rcases mem_cons.mp hx with rfl | hx
    · exact .inr (by simp)
    · exact .inl (h.records_held x hx)
  · rw [hkept.live_iff, hkept.descriptorAt_eq]
    exact h.leases_live pair hpair
  · rw [hkept.credits]
    exact h.credits
  · rw [hkept.creditAt_eq]
    exact h.shape_credits d
  · have hroom := h.record_room
    rw [hkept.credits, hrecords, length_cons]
    omega
  · rw [hkept.creditAt_eq, hkept.availableAt_eq]
    exact h.lease_room d
  · rw [hkept.nextEpoch, hkept.remainingEpochs]
    exact h.epochs

end

section Claim

variable {descriptor : Descriptor} {lease : Lease}

/-- An account that may claim a descriptor finds a credit, a free slot and an epoch. -/
theorem lease_free (h : Books target pool lists (account :: rest)) (hbytes : descriptor.bytes ≠ 0)
    (hlt : account.outstanding descriptor < account.bundle.descriptors.count descriptor)
    (hclaims : account.claims.count descriptor < 2 * account.bundle.descriptors.count descriptor) :
    creditAt pool descriptor ≠ 0 ∧ 0 < availableAt pool descriptor ∧ pool.nextEpoch ≠ u64Max := by
  have hroom := h.lease_room descriptor
  have hrest := outstanding_le (fun a ha => h.within a (mem_cons_of_mem account ha)) descriptor
  have hcredit := h.shape_credits descriptor
  rw [demand, if_neg hbytes, allDescriptors, flatMap_cons, count_append] at hcredit
  rw [allLeases, flatMap_cons, map_append, count_append] at hroom
  rw [Account.outstanding] at hlt
  rw [allLeases, allDescriptors] at hrest
  have hbudget : 0 < account.budget := by
    have hone : (descriptor :: account.claims).length ≤ 2 * account.bundle.descriptors.length := by
      refine length_le_twice fun d => ?_
      have := (h.within account (.head _)).claims d
      by_cases hd : descriptor = d
      · subst hd
        rw [count_cons_self]
        omega
      · rw [count_cons_of_ne hd]
        exact this
    rw [length_cons] at hone
    rw [Account.budget]
    omega
  have hepochs := h.epochs
  rw [map_cons, sum_cons] at hepochs
  exact ⟨by omega, by omega, by omega⟩

theorem claim (h : Books target pool lists (account :: rest)) (hbytes : descriptor.bytes ≠ 0)
    (hissued : Issued target pool pool' descriptor lease .active)
  (hrest : pool' = { pool with storage := pool'.storage, nextEpoch := pool.nextEpoch + 1 })
  (havailable : ∀ d, availableAt pool' d = if d = descriptor then availableAt pool d - 1 else availableAt pool d)
  (hlt : account.outstanding descriptor < account.bundle.descriptors.count descriptor)
  (hclaims : account.claims.count descriptor < 2 * account.bundle.descriptors.count descriptor) :
  Books target pool' lists (account.claim lease descriptor :: rest) := by
  have hclaim : account.claim lease descriptor = { account with
    leases := (lease, descriptor) :: account.leases
    claims := descriptor :: account.claims } := if_neg hbytes
  rw [hclaim]
  have hwithin := h.within account (.head _)
  have hcredits : pool'.credits = pool.credits := by rw [hrest]
  have hfree : pool'.available = pool.available := by rw [hrest]
  have hremaining : pool'.remainingEpochs = pool.remainingEpochs := by rw [hrest]
  -- the new lease was not in force before
  have hdead : ¬ Live target pool lease := by
    rintro ⟨-, entry, hbusy, -⟩
    rw [hissued.fresh] at hbusy
    cases hbusy
  have hcount : ∀ d, (descriptor :: account.claims).count d ≤ 2 * account.bundle.descriptors.count d := by
    intro d
    by_cases hd : descriptor = d
    · subst hd
      rw [count_cons_self]
      exact hclaims
    · rw [count_cons_of_ne hd]
      exact hwithin.claims d
  refine ⟨fun a ha => ?_, h.records_nodup, h.records_held, ?_, fun pair hpair => ?_, ?_, fun d => ?_, ?_, fun d => ?_, ?_⟩
  · rcases mem_cons.mp ha with rfl | ha
    · refine ⟨hwithin.records, fun d => ?_, hcount⟩
      rw [Account.outstanding, map_cons]
      by_cases hd : descriptor = d
      · subst hd
        rw [count_cons_self]
        exact hlt
      · rw [count_cons_of_ne hd]
        exact hwithin.leases d
    · exact h.within a (.tail _ ha)
  · refine nodup_cons.mpr ⟨fun hmem => ?_, h.leases_nodup⟩
    obtain ⟨pair, hpair, hpl⟩ := mem_map.mp hmem
    have hsame : pair.1 = lease := hpl
    exact hdead (hsame ▸ (h.leases_live pair hpair).1)
  · rcases mem_cons.mp hpair with rfl | hpair
    · exact ⟨(hissued.live_iff lease).mpr (.inr rfl), hissued.descriptor⟩
    · obtain ⟨hl, hd⟩ := h.leases_live pair hpair
      exact ⟨(hissued.live_iff pair.1).mpr (.inl hl), hissued.descriptors _ _ hd⟩
  · rw [hcredits]
    exact h.credits
  · rw [hissued.credits]
    exact h.shape_credits d
  · rw [hcredits, hfree]
    exact h.record_room
  · have hroom := h.lease_room d
    show creditAt pool' d ≤ availableAt pool' d + (descriptor :: (allLeases (account :: rest)).map Prod.snd).count d
    rw [hissued.credits, havailable]
    by_cases hd : descriptor = d
    · subst hd
      rw [if_pos rfl, count_cons_self]
      omega
    · rw [if_neg fun e => hd e.symm, count_cons_of_ne hd]
      exact hroom
  · have hepochs := h.epochs
    have hlen := length_le_twice hcount
    rw [map_cons, sum_cons, Account.budget] at hepochs
    rw [hissued.nextEpoch, hremaining, map_cons, sum_cons, Account.budget]
    simp only [length_cons] at hlen ⊢
    omega

end Claim

end Books

end Steps

end Bray.Pool
