/-
  File:      Bray/Pool/Solvent.lean
  Subject:   AN ADMITTED BUNDLE CAN ALWAYS BE CLAIMED.

  In every state of a run the handles are a partition, the storage is well formed and the books are
  in order (`Solvent`). From that, no legal step of admission, claim, retirement or discharge stops
  the process.
-/
import Bray.Pool.Accounts
import Bray.Pool.Segments

namespace Bray.Pool

open Bray.Lib List

variable {V : Type}

/-! ## 1. One step -/

section Step

variable {target : Target} {desk desk' : Desk V}

/-- What every state of a run satisfies. -/
def Solvent (target : Target) (desk : Desk V) : Prop :=
  (∃ free lists, Holds target desk.board free lists ∧ Books target desk.board.pool lists desk.accounts) ∧
    ∃ frees, StorageOk target desk.board.pool frees none

variable {lists : List (List Nat)} {pool : ReportPool V}

theorem Holds.repool {board : Board V} {free : List Nat}
    (h : Holds target board free lists) (hslabs : pool.slabs = board.pool.slabs) (hfree : pool.free = board.pool.free)
    (havailable : pool.available = board.pool.available) (htotal : pool.total = board.pool.total) :
    Holds target { board with pool := pool } free lists := by
  have hrecords : pool.records = board.pool.records := by rw [ReportPool.records, ReportPool.records, hslabs]
  have hnext : pool.next = board.pool.next := by
    funext y
    rw [ReportPool.next, ReportPool.next, hrecords]
  refine ⟨⟨⟨?_, ?_, ?_⟩, ?_⟩, ⟨?_, ?_⟩, h.headers⟩
  · rw [hslabs]
    exact h.laid.indexed.contiguous
  · rw [hrecords, htotal]
    exact h.laid.indexed.total_eq
  · rw [htotal]
    exact h.laid.indexed.limit
  · rw [hnext, htotal]
    exact h.laid.strands
  · rw [hfree]
    exact h.freeList.head_eq
  · rw [havailable]
    exact h.freeList.length_eq

/-- The account with the number `i` comes to the front. -/
theorem Books.front {accounts : List Account} {i : Nat} {account : Account}
    (h : Books target pool lists accounts) (hi : accounts[i]? = some account) :
    Books target pool lists (account :: accounts.eraseIdx i) := by
  obtain ⟨hlt, rfl⟩ := List.getElem_of_getElem? hi
  exact h.perm (getElem_cons_eraseIdx_perm hlt).symm

theorem Books.back {accounts : List Account} {i : Nat} {account : Account}
    (hlt : i < accounts.length) (h : Books target pool lists (account :: accounts.eraseIdx i)) :
    Books target pool lists (accounts.set i account) :=
  h.perm (set_perm_cons_eraseIdx hlt account).symm

variable [Inhabited V]

theorem solvent_start (target : Target) : Solvent target (Desk.start V) := by
  refine ⟨⟨[], [], .start target, ?_⟩, ⟨[], .nil, nodup_nil, .nil, fun _ h => absurd h not_mem_nil⟩⟩
  refine ⟨fun a ha => absurd ha not_mem_nil, nodup_nil, fun x hx => absurd hx not_mem_nil,
    nodup_nil, fun x hx => absurd hx not_mem_nil, rfl, fun d => (demand_nil d).symm, Nat.zero_le _,
    fun d => Nat.zero_le _, ?_⟩
  show 1 + (u64Max - 1) + 0 ≤ u64Max
  decide

namespace Solvent

section

variable (h : Solvent target desk)
include h

theorem chain {op : ChainOp V} (hlegal : Legal desk (.chain op)) {answer : DeskAnswer V}
    (e : serve target desk (.chain op) = some (desk', answer)) :
    Solvent target desk' ∧ RecordsOnly desk.board.pool desk'.board.pool := by
  obtain ⟨⟨free, lists, hholds, hbooks⟩, frees, hok⟩ := h
  obtain ⟨⟨board, reply⟩, eperform, e⟩ := Option.bind_eq_some_iff.mp e
  cases e
  obtain ⟨free', lists', hholds', heffect⟩ := hholds.step hlegal eperform
  exact ⟨⟨⟨free', lists', hholds', hbooks.chain heffect hholds.freeList hholds'.freeList⟩, frees,
    hok.congr heffect.storage⟩, heffect.toRecordsOnly⟩

theorem lease {op : LeaseOp V} (hlegal : Legal desk (.lease op)) {answer : DeskAnswer V}
    (e : serve target desk (.lease op) = some (desk', answer)) : Solvent target desk' := by
  obtain ⟨⟨free, lists, hholds, hbooks⟩, frees, hok⟩ := h
  obtain ⟨⟨pool, reply⟩, eperform, e⟩ := Option.bind_eq_some_iff.mp e
  cases e
  obtain ⟨frees', hok', hlent⟩ := performLease_lent hok hlegal eperform
  have hrest := hlent.rest
  exact ⟨⟨free, lists, hholds.repool (by rw [hrest]) (by rw [hrest]) (by rw [hrest]) (by rw [hrest]),
    hbooks.lease hlent⟩, frees', hok'⟩

/-- **An attempt to admit a bundle** does not stop, and where it is not granted the credits and the
  epochs stay. -/
theorem accept {bundle : Bundle} {prepared : Prepared V} (hlegal : Legal desk (.accept bundle prepared)) :
    ∃ desk' answer, serve target desk (.accept bundle prepared) = some (desk', answer) ∧ Solvent target desk' ∧
      (answer ≠ .storage (.flag true) → desk'.board.pool.credits = desk.board.pool.credits ∧
        desk'.board.pool.remainingEpochs = desk.board.pool.remainingEpochs ∧
        ∀ d, creditAt desk'.board.pool d = creditAt desk.board.pool d) := by
  obtain ⟨⟨free, lists, hholds, hbooks⟩, frees, hok⟩ := h
  obtain ⟨ready, grown, prepared₁, fresh, ereserve, hlaid, hfree, -, hready⟩ :=
    reserveRecords_spec hholds.laid hholds.freeList (desk.board.pool.credits + bundle.records) prepared
  rcases acceptLocked_spec (hok.prepare hlegal) bundle with ⟨-, hnone⟩ | ⟨reply, grown', pool', prepared', frees',
    eaccept, hok', hattempt, hgrown⟩
  · rw [ereserve] at hnone
    cases hnone
  · -- the records are those of the board, or the board with a longer free list
    obtain ⟨free', hholds', hlen, hpromise⟩ : ∃ free', Holds target { desk.board with pool := pool' } free' lists ∧
      free.length ≤ free'.length ∧
      (reply = .ok true → desk.board.pool.credits + bundle.records ≤ free'.length) := by
      have hrest := hattempt.rest
      rcases hgrown with ⟨rfl, hno⟩ | ⟨ready', prepared₂, ereserve', hyes⟩
      · exact ⟨free, hholds.repool (by rw [hrest]) (by rw [hrest]) (by rw [hrest]) (by rw [hrest]), Nat.le_refl _,
          fun e => absurd e hno⟩
      · rw [ereserve] at ereserve'
        cases ereserve'
        have hboard : Holds target { desk.board with pool := grown } (fresh ++ free) lists :=
          ⟨hlaid, hfree, hholds.headers⟩
        refine ⟨fresh ++ free, hboard.repool (by rw [hrest]) (by rw [hrest]) (by rw [hrest]) (by rw [hrest]), ?_,
          fun e => hready (hyes e)⟩
        rw [length_append]
        exact Nat.le_add_left _ _
    have hbooks' := hbooks.accept hattempt
      (by rw [hholds.freeList.length_eq]; exact Nat.le_trans hlen (Nat.le_of_eq hholds'.freeList.length_eq.symm))
      (fun e => Nat.le_trans (hpromise e) (Nat.le_of_eq hholds'.freeList.length_eq.symm))
    simp only [serve, eaccept, some_bind]
    match reply, hattempt, hbooks' with
    | .error request, hattempt, hbooks' =>
      exact ⟨_, _, rfl, ⟨⟨free', lists, hholds', hbooks'⟩, frees', hok'.drop⟩,
        fun _ => hattempt.refused fun e => by cases e⟩
    | .ok false, hattempt, hbooks' =>
      exact ⟨_, _, rfl, ⟨⟨free', lists, hholds', hbooks'⟩, frees', hok'.drop⟩,
        fun _ => hattempt.refused fun e => by cases e⟩
    | .ok true, hattempt, hbooks' =>
      exact ⟨_, _, rfl, ⟨⟨free', lists, hholds', hbooks'⟩, frees', hok'.drop⟩, fun hno => absurd rfl hno⟩

/-- **A discharge** does not stop. -/
theorem discharge {i : Nat} (hlegal : Legal desk (.discharge i)) :
    ∃ desk' answer, serve target desk (.discharge i) = some (desk', answer) ∧ Solvent target desk' := by
  obtain ⟨⟨free, lists, hholds, hbooks⟩, frees, hok⟩ := h
  have hi := getElem?_eq_getElem hlegal
  have hfront := hbooks.front hi
  obtain ⟨hrecords, hdemand⟩ := hfront.covers
  obtain ⟨pool', edischarge⟩ := discharge_total hok hrecords hdemand
  obtain ⟨⟨frees', hok'⟩, hbooks'⟩ := hfront.discharge hok edischarge
  obtain ⟨-, -, -, -, hrest, -⟩ := discharge_some hok edischarge
  simp only [serve, hi, edischarge, some_bind]
  exact ⟨_, _, rfl, ⟨free, lists, hholds.repool (by rw [hrest]) (by rw [hrest]) (by rw [hrest]) (by rw [hrest]), hbooks'⟩,
    frees', hok'⟩

/-- **A claim of a record** does not stop. -/
theorem activateRecord {i : Nat} (hlegal : Legal desk (.activateRecord i)) :
    ∃ desk' answer, serve target desk (.activateRecord i) = some (desk', answer) ∧ Solvent target desk' := by
  obtain ⟨⟨free, lists, hholds, hbooks⟩, frees, hok⟩ := h
  obtain ⟨account, hi, hlt⟩ := hlegal
  have hfront := hbooks.front hi
  have hpos := hfront.record_free hlt
  rw [hholds.freeList.length_eq] at hpos
  cases free with
  | nil => exact absurd hpos (Nat.lt_irrefl 0)
  | cons handle free =>
    obtain ⟨pool', eactivate, hlaid', hfree', hkept⟩ := activateRecord_spec hholds.laid hholds.freeList
    have hfresh : handle ∉ lists.flatten := fun hmem => (hholds.mem_lists.mp hmem).2 (.head _)
    have hrest := RecordsOnly.of_kept hkept
    have havailable : desk.board.pool.available = pool'.available + 1 := by
      rw [hholds.freeList.length_eq, hfree'.length_eq, length_cons]
    have hperm : ([handle] :: free :: lists).Perm (free :: (lists ++ [[handle]])) :=
      (perm_append_singleton [handle] (free :: lists)).symm
    have hheaders : List.Forall₂ Describes (desk.board.chains ++ [⟨handle, handle, 1⟩]) (lists ++ [[handle]]) :=
      rel_append hholds.headers (.cons ⟨rfl, rfl, rfl⟩ .nil)
    simp only [serve, hi, eactivate, some_bind]
    exact ⟨_, _, rfl, ⟨free, lists ++ [[handle]], ⟨hlaid'.reorder hperm, hfree', hheaders⟩,
      .back (List.getElem_of_getElem? hi).1 (hfront.claimRecord hrest havailable hfresh hlt)⟩, frees,
      hok.congr hrest.storage⟩

/-- **A claim of storage** does not stop. -/
theorem claim {i : Nat} {descriptor : Descriptor} (hlegal : Legal desk (.claim i descriptor)) :
    ∃ desk' answer, serve target desk (.claim i descriptor) = some (desk', answer) ∧ Solvent target desk' := by
  obtain ⟨⟨free, lists, hholds, hbooks⟩, frees, hok⟩ := h
  obtain ⟨account, hi, -, hlimits⟩ := hlegal
  by_cases hbytes : descriptor.bytes = 0
  · have hsame : desk.accounts.set i (account.claim emptyLease descriptor) = desk.accounts := by
      rw [Account.claim, if_pos hbytes]
      exact set_same hi
    refine ⟨desk, .storage (.lease emptyLease), ?_, ⟨free, lists, hholds, hbooks⟩, frees, hok⟩
    simp [serve, hi, claimValue, if_pos hbytes, some_bind, hsame]
  · obtain ⟨hlt, hclaims⟩ := hlimits hbytes
    have hfront := hbooks.front hi
    obtain ⟨hcredit, hspace, hepoch⟩ := hfront.lease_free hbytes hlt hclaims
    obtain ⟨lease, pool', frees', eclaim, hok', hissued, hrest, havailable⟩ :=
      claimValue_total hok hbytes hcredit hspace hepoch
    simp only [serve, hi, eclaim, some_bind]
    exact ⟨_, _, rfl, ⟨free, lists, hholds.repool (by rw [hrest]) (by rw [hrest]) (by rw [hrest]) (by rw [hrest]),
      .back (List.getElem_of_getElem? hi).1 (hfront.claim hbytes hissued hrest havailable hlt hclaims)⟩, frees', hok'⟩

end

/-- **Every legal step** keeps the promises. -/
theorem step (h : Solvent target desk) {op : DeskOp V} (hlegal : Legal desk op) {answer : DeskAnswer V}
    (e : serve target desk op = some (desk', answer)) : Solvent target desk' := by
  cases op with
  | chain op => exact (h.chain hlegal e).1
  | lease op => exact h.lease hlegal e
  | accept bundle prepared =>
    obtain ⟨desk₁, answer₁, e₁, h₁, -⟩ := h.accept hlegal
    rw [e₁] at e
    cases e
    exact h₁
  | discharge i =>
    obtain ⟨desk₁, answer₁, e₁, h₁⟩ := h.discharge hlegal
    rw [e₁] at e
    cases e
    exact h₁
  | activateRecord i =>
    obtain ⟨desk₁, answer₁, e₁, h₁⟩ := h.activateRecord hlegal
    rw [e₁] at e
    cases e
    exact h₁
  | claim i descriptor =>
    obtain ⟨desk₁, answer₁, e₁, h₁⟩ := h.claim hlegal
    rw [e₁] at e
    cases e
    exact h₁

end Solvent

/-- **Every state of a run** keeps the promises. -/
theorem run_solvent {tr : List (DeskOp V × DeskAnswer V)}
    (h : RunWhere Legal (deskStep target) (Desk.start V) tr desk) : Solvent target desk :=
  h.invariant_trace (P := fun _ desk => Solvent target desk)
    (fun _ _ _ _ _ hs hok e => hs.step hok (orStop_ok e)) (solvent_start target)

end Step

/-! ## 2. Runs -/

/-- The steps that an admitted bundle, a direct admission and a retirement rely on. -/
def Promised (desk : Desk V) : DeskOp V → Prop
  | .chain (.admission i _ _) => i < desk.board.chains.length
  | .lease (.admission _ _) | .lease (.retire _) | .accept _ _ | .discharge _ | .activateRecord _ | .claim _ _ => True
  | _ => False

/-- An admission is refused, or has to be tried again. -/
def Refused : DeskOp V → DeskAnswer V → Prop
  | .chain (.admission _ _ _), .chain (.status status) => status ≠ 0
  | .chain (.admission _ _ _), .chain (.postponed _) => True
  | .lease (.admission _ _), .storage (.lease lease) => lease.slot = 0
  | .lease (.admission _ _), .storage (.postponed _) => True
  | .accept _ _, .storage (.flag accepted) => accepted = false
  | .accept _ _, .storage (.postponed _) => True
  | _, _ => False

section Promises

variable [Inhabited V] {target : Target} {desk : Desk V}

/-- **What is promised does not stop.** -/
theorem Solvent.promised (h : Solvent target desk) {op : DeskOp V} (hlegal : Legal desk op)
    (hpromised : Promised desk op) : ∃ desk' answer, serve target desk op = some (desk', answer) := by
  cases op with
  | accept bundle prepared =>
    obtain ⟨desk', answer, e, -⟩ := h.accept hlegal
    exact ⟨desk', answer, e⟩
  | discharge i =>
    obtain ⟨desk', answer, e, -⟩ := h.discharge hlegal
    exact ⟨desk', answer, e⟩
  | activateRecord i =>
    obtain ⟨desk', answer, e, -⟩ := h.activateRecord hlegal
    exact ⟨desk', answer, e⟩
  | claim i descriptor =>
    obtain ⟨desk', answer, e, -⟩ := h.claim hlegal
    exact ⟨desk', answer, e⟩
  | chain op =>
    obtain ⟨⟨free, lists, hholds, -⟩, -⟩ := h
    cases op with
    | admission i count prepared =>
      obtain ⟨xs, hxs, -⟩ := hholds.get (getElem?_eq_getElem hpromised)
      obtain ⟨board', answer, fresh, moved, e, -⟩ := hholds.admission hxs count prepared
      simp only [serve, e, some_bind]
      exact ⟨_, _, rfl⟩
    | fresh => cases hpromised
    | take source count destination => cases hpromised
    | append destination source => cases hpromised
    | mark i segment => cases hpromised
    | segmentTake i => cases hpromised
    | pop i => cases hpromised
  | lease op =>
    obtain ⟨⟨free, lists, -, hbooks⟩, frees, hok⟩ := h
    cases op with
    | admission descriptor prepared =>
      rcases admitLocked_spec (hok.prepare hlegal) descriptor with ⟨-, hremaining, hepoch⟩ | ⟨reply, pool', prepared',
        frees', e, -⟩
      · -- an epoch is left as long as the counter of those that remain is not zero
        have := hbooks.epochs
        omega
      · simp only [serve, performLease, e, some_bind]
        cases reply <;> exact ⟨_, _, rfl⟩
    | retire lease =>
      rcases releaseValue_spec hok lease with ⟨shape, entry, pool', frees', -, e, -⟩ | ⟨-, e⟩
      · simp only [serve, performLease, e, some_bind]
        exact ⟨_, _, rfl⟩
      · simp only [serve, performLease, e, some_bind]
        exact ⟨_, _, rfl⟩
    | activate lease descriptor => cases hpromised
    | publishFrame lease descriptor identity => cases hpromised
    | frameAddress lease descriptor identity dispatching => cases hpromised
    | retainFrame lease identity => cases hpromised

/-- **An admission that is not granted** leaves the credits and the epochs as they were. -/
theorem Solvent.refused (h : Solvent target desk) {op : DeskOp V} (hlegal : Legal desk op) {desk' : Desk V}
    {answer : DeskAnswer V} (e : serve target desk op = some (desk', answer)) (hrefused : Refused op answer) :
    desk'.board.pool.credits = desk.board.pool.credits ∧
      desk'.board.pool.remainingEpochs = desk.board.pool.remainingEpochs ∧
      ∀ d, creditAt desk'.board.pool d = creditAt desk.board.pool d := by
  cases op with
  | chain op =>
    obtain ⟨-, hrest⟩ := h.chain hlegal e
    exact ⟨hrest.credits, hrest.remainingEpochs, hrest.creditAt_eq⟩
  | accept bundle prepared =>
    obtain ⟨desk₁, answer₁, e₁, -, hkeep⟩ := h.accept hlegal
    rw [e₁] at e
    cases e
    refine hkeep fun hyes => ?_
    rw [hyes] at hrefused
    cases hrefused
  | lease op =>
    cases op with
    | admission descriptor prepared =>
      obtain ⟨⟨free, lists, -, -⟩, frees, hok⟩ := h
      rcases admitLocked_spec (hok.prepare hlegal) descriptor with ⟨hnone, -⟩ | ⟨reply, pool', prepared', frees',
        eadmit, -, hcase⟩
      · simp only [serve, performLease, hnone] at e
        cases e
      · simp only [serve, performLease, eadmit, some_bind] at e
        rcases hcase with ⟨-, hsteady, hkeep⟩ | ⟨lease, rfl, hissued, -⟩
        · have hpool : desk'.board.pool = pool' := by
            cases reply <;> (cases e; rfl)
          rw [hpool]
          exact ⟨by rw [hsteady.rest], by rw [hsteady.rest], fun d => (hkeep d).1⟩
        · cases e
          exact absurd hrefused hissued.slot_ne
    | activate lease descriptor => cases hrefused
    | publishFrame lease descriptor identity => cases hrefused
    | frameAddress lease descriptor identity dispatching => cases hrefused
    | retainFrame lease identity => cases hrefused
    | retire lease => cases hrefused
  | discharge i => cases hrefused
  | activateRecord i => cases hrefused
  | claim i descriptor => cases hrefused

end Promises

theorem ShapeOk.chain {target : Target} {shape : Shape} {free : List Nat} (h : ShapeOk target shape free) :
    Chain (freeNext shape) shape.free free := by
  rw [h.head_eq]
  exact h.strung.chain h.nodup fun h0 => ((h.mem_iff 0).mp h0).1 rfl

/-- **An admitted bundle can always be claimed.** In every run whose steps are legal, and whatever
  comes of the requests for memory: no legal claim, admission, retirement or discharge stops the
  process; an admission that is refused or postponed leaves all credits and the epochs that remain as
  they were; and every counter of what is available is the length of its free list. -/
theorem admitted_bundles_can_claim [Inhabited V] (target : Target) {tr : List (DeskOp V × DeskAnswer V)} {desk : Desk V}
    (h : RunWhere Legal (deskStep target) (Desk.start V) tr desk) :
    (∀ op, Legal desk op → Promised desk op → ∃ desk' answer, deskStep target desk op = .ok (desk', answer)) ∧
    (∀ op desk' answer, Legal desk op → deskStep target desk op = .ok (desk', answer) → Refused op answer →
      desk'.board.pool.credits = desk.board.pool.credits ∧
        desk'.board.pool.remainingEpochs = desk.board.pool.remainingEpochs ∧
        ∀ d, creditAt desk'.board.pool d = creditAt desk.board.pool d) ∧
    (∃ free, Chain desk.board.pool.next desk.board.pool.free free ∧ desk.board.pool.available = free.length) ∧
    (∀ shape ∈ held desk.board.pool.storage,
      ∃ free, Chain (freeNext shape) shape.free free ∧ shape.available = free.length) := by
  have hsolvent := run_solvent h
  obtain ⟨⟨free, lists, hholds, -⟩, frees, hok⟩ := hsolvent
  refine ⟨fun op hlegal hpromised => ?_, fun op desk' answer hlegal e => (run_solvent h).refused hlegal (orStop_ok e),
    ⟨free, ?_, hholds.freeList.length_eq⟩, fun shape hshape => ?_⟩
  · obtain ⟨desk', answer, e⟩ := (run_solvent h).promised hlegal hpromised
    exact ⟨desk', answer, by rw [deskStep, e]; rfl⟩
  · rw [hholds.freeList.head_eq]
    exact hholds.laid.strands.strand_chain (.head _)
  · obtain ⟨i, hi⟩ := mem_iff_getElem?.mp hshape
    obtain ⟨free', -, hok'⟩ := agree_get hok.shapes hi
    exact ⟨free', hok'.chain, hok'.length_eq⟩

/-- Buffers for one record and one frame. -/
def bundleRoom : Prepared Unit :=
  { records := some (.vacant 32 1)
    recordSlabs := some (.vacant 48 4)
    shapes := some (.vacant 64 4)
    storageSlabs := some (.vacant 128 4)
    slots := some (.vacant 256 1)
    bytes := some (.vacant 4100 48) }

/-- A bundle of one record and one frame claims the frame, retires it, and may claim it once more. -/
theorem a_bundle_claims_twice : ∃ tr desk, RunWhere Legal (deskStep smallTarget) (Desk.start Unit) tr desk ∧
    desk.accounts = [⟨⟨1, [frameShape]⟩, [], [], [frameShape]⟩] ∧
    (∃ desk' answer, deskStep smallTarget desk (.claim 0 frameShape) = .ok (desk', answer)) ∧
    ∃ desk' answer, deskStep smallTarget desk (.activateRecord 0) = .ok (desk', answer) := by
  have hrun : ∃ desk₁ desk₂ desk₃, deskStep smallTarget (Desk.start Unit) (.accept ⟨1, [frameShape]⟩ bundleRoom) =
    .ok (desk₁, .storage (.flag true)) ∧
    deskStep smallTarget desk₁ (.claim 0 frameShape) = .ok (desk₂, .storage (.lease ⟨4096, 1, 1, 1, 4112⟩)) ∧
    deskStep smallTarget desk₂ (.lease (.retire ⟨4096, 1, 1, 1, 4112⟩)) = .ok (desk₃, .storage (.flag true)) ∧
    desk₁.accounts = [.opened ⟨1, [frameShape]⟩] ∧
    desk₃.accounts = [⟨⟨1, [frameShape]⟩, [], [], [frameShape]⟩] := ⟨_, _, _, rfl, rfl, rfl, rfl, rfl⟩
  obtain ⟨desk₁, desk₂, desk₃, e₁, e₂, e₃, haccounts₁, haccounts₃⟩ := hrun
  have hlegal₁ : Legal (Desk.start Unit) (.accept ⟨1, [frameShape]⟩ bundleRoom) := by
    intro region hregion
    cases hregion
    exact ⟨by decide, fun other hother => nomatch hother⟩
  have hlegal₂ : Legal desk₁ (.claim 0 frameShape) := by
    refine ⟨.opened ⟨1, [frameShape]⟩, by rw [haccounts₁]; rfl, by decide, fun _ => ?_⟩
    decide
  have hlegal₃ : Legal desk₂ (.lease (.retire ⟨4096, 1, 1, 1, 4112⟩)) := trivial
  have hwhere := RunWhere.cons hlegal₁ e₁ (.cons hlegal₂ e₂ (.cons hlegal₃ e₃ (.nil desk₃)))
  obtain ⟨hserved, -⟩ := admitted_bundles_can_claim smallTarget hwhere
  refine ⟨_, desk₃, hwhere, haccounts₃, hserved _ ⟨_, by rw [haccounts₃]; rfl, by decide, fun _ => by decide⟩ trivial,
    hserved _ ⟨_, by rw [haccounts₃]; rfl, by decide⟩ trivial⟩

end Bray.Pool
