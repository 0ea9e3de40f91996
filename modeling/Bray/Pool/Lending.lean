/-
  File:      Bray/Pool/Lending.lean
  Subject:   THE STORAGE OF THE POOL AS A MACHINE. A step is one function with the lock held.

  Its caller may hand in any lease and any descriptor, issued or not. What it may not choose are the
  blocks of memory: these come from the heap, and none of them overlaps another (`HeapBlocks`).

  Here are the steps, where the bytes of a lease lie, and what each function does with a lease.
-/
import Bray.Pool.Bundles
import Bray.Pool.Partition

namespace Bray.Pool

open Bray.Lib List

variable {V : Type}

/-! ## 1. The machine -/

/-- What is done with a lease, or to get one. -/
inductive LeaseOp (V : Type)
  /-- One locked attempt of `admit_value`. -/
  | admission (descriptor : Descriptor) (prepared : Prepared V)
  | activate (lease : Lease) (descriptor : Descriptor)
  | publishFrame (lease : Lease) (descriptor : Descriptor) (identity : Nat)
  | frameAddress (lease : Lease) (descriptor : Descriptor) (identity : Nat) (dispatch : Bool)
  | retainFrame (lease : Lease) (descriptor : Nat)
  | retire (lease : Lease)

inductive StorageOp (V : Type)
  | lease (op : LeaseOp V)
  | claim (descriptor : Descriptor)
  /-- One locked attempt of `accept`. -/
  | accept (bundle : Bundle) (prepared : Prepared V)
  | discharge (bundle : Bundle)
  | release

inductive StorageAnswer
  | done
  | flag (flag : Bool)
  | address (address : Nat)
  | lease (lease : Lease)
  | postponed (request : Request)

def performLease (target : Target) (pool : ReportPool V) : LeaseOp V → Option (ReportPool V × StorageAnswer)
  | .admission descriptor prepared => do
    let (reply, pool, _) ← admitLocked target pool descriptor prepared
    match reply with
    | .error request => some (pool, .postponed request)
    | .ok lease => some (pool, .lease lease)
  | .activate lease descriptor => do
    let (address, pool) ← activateValue target pool lease descriptor
    some (pool, .address address)
  | .publishFrame lease descriptor identity => do
    let (published, pool) ← publishFrame target pool lease descriptor identity
    some (pool, .flag published)
  | .frameAddress lease descriptor identity dispatch => do
    let (address, pool) ← frameAddress target pool lease descriptor identity dispatch
    some (pool, .address address)
  | .retainFrame lease descriptor => do
    let pool ← retainFrame target pool lease descriptor
    some (pool, .done)
  | .retire lease => do
    let (retired, pool) ← releaseValue target pool lease
    some (pool, .flag retired)

/-- What is served of a step that succeeds. -/
theorem served {α : Type} {call : Option (α × ReportPool V)} {answered : α → StorageAnswer} {r : α}
    {pool₁ pool' : ReportPool V} {answer : StorageAnswer} (h : call = some (r, pool₁))
    (e : (call >>= fun x => some (x.2, answered x.1)) = some (pool', answer)) : pool₁ = pool' ∧ answered r = answer := by
  rw [h] at e
  cases e
  exact ⟨rfl, rfl⟩

def performStorage [Inhabited V] (target : Target) (pool : ReportPool V) :
  StorageOp V → Option (ReportPool V × StorageAnswer)
  | .lease op => performLease target pool op
  | .claim descriptor => do
    let (lease, pool) ← claimValue target pool descriptor
    some (pool, .lease lease)
  | .accept bundle prepared => do
    let (reply, pool, _) ← acceptLocked target pool bundle prepared
    match reply with
    | .error request => some (pool, .postponed request)
    | .ok accepted => some (pool, .flag accepted)
  | .discharge bundle => do
    let pool ← discharge pool bundle
    some (pool, .done)
  | .release => some ((releasePool pool).2, .flag (releasePool pool).1)

def storageStep [Inhabited V] (target : Target) (pool : ReportPool V) (op : StorageOp V) :
  Except Stop (ReportPool V × StorageAnswer) :=
  orStop (performStorage target pool op)

/-- A block that the heap handed out is none of those the pool holds. -/
def FromHeap (pool : ReportPool V) (prepared : Prepared V) : Prop :=
  ∀ region, prepared.bytes = some region → region.pointer ≠ 0 ∧ ∀ other ∈ allRegions pool, Apart other region

/-- What the heap promises of the blocks that a step brings along. -/
def HeapBlocks (pool : ReportPool V) : StorageOp V → Prop
  | .lease (.admission _ prepared) => FromHeap pool prepared
  | .accept _ prepared => FromHeap pool prepared
  | _ => True

/-- A frame of 24 bytes. -/
def frameShape : Descriptor := ⟨.replicate 32 7, 24, 16⟩

/-! ## 2. The bytes of a lease -/

section Bytes

variable {target : Target} {pool : ReportPool V} {frees : List (List Nat)} {bytes : Option (RawBuffer UInt8)}
  {lease lease' : Lease} {shape shape' : Shape} {entry entry' : Slot}

/-- Two values of a list that are pairwise related, at two places. -/
theorem pairwise_get {α : Type} {R : α → α → Prop} {xs : List α} {i j : Nat} {a b : α} (h : xs.Pairwise R)
    (hsymm : ∀ {a b}, R a b → R b a) (hi : xs[i]? = some a) (hj : xs[j]? = some b) (hne : i ≠ j) : R a b := by
  obtain ⟨hilt, rfl⟩ := List.getElem_of_getElem? hi
  obtain ⟨hjlt, rfl⟩ := List.getElem_of_getElem? hj
  rcases Nat.lt_or_gt_of_ne hne with hlt | hlt
  · exact pairwise_iff_getElem.mp h i j hilt hjlt hlt
  · exact hsymm (pairwise_iff_getElem.mp h j i hjlt hilt hlt)

theorem Live.leasedAt (h : Live target pool lease) : ∃ shape entry, LeasedAt target pool lease shape entry := by
  obtain ⟨hdomain, entry, hbusy, hepoch, haddress⟩ := h
  obtain ⟨hshape, hslot, shape, hheld, hcell, hstate⟩ := busyAt_eq_some.mp hbusy
  exact ⟨shape, entry, hdomain, hshape, hslot, hheld, hcell, hstate, hepoch, haddress⟩

/-- A lease in force is known by its slot. -/
theorem Live.eq (h : Live target pool lease) (h' : Live target pool lease') (hshape : lease.shape = lease'.shape)
    (hslot : lease.slot = lease'.slot) : lease = lease' := by
  obtain ⟨hdomain, entry, hbusy, hepoch, haddress⟩ := h
  obtain ⟨hdomain', entry', hbusy', hepoch', haddress'⟩ := h'
  rw [hshape, hslot, hbusy'] at hbusy
  cases hbusy
  cases lease
  cases lease'
  subst_vars
  rfl

theorem LeasedAt.descriptorAt_eq (h : LeasedAt target pool lease shape entry) :
    descriptorAt pool lease.shape = some shape.descriptor := by
  have := descriptorAt_of_held h.held
  rwa [Nat.sub_add_cancel (Nat.pos_of_ne_zero h.shape_ne)] at this

/-- **The bytes of a lease** are aligned and inside a slab of its shape. -/
theorem LeasedAt.inside (hok : StorageOk target pool frees bytes) (h : LeasedAt target pool lease shape entry) :
    shape.descriptor.align ∣ lease.address ∧ ∃ region ∈ regions shape, region.pointer ≤ lease.address ∧
      lease.address + shape.descriptor.bytes ≤ region.pointer + region.capacity := by
  obtain ⟨free, -, hshape⟩ := agree_get hok.shapes h.held
  obtain ⟨k, slab, hslab, -, hcell⟩ := hshape.located h.slot_ne h.cell
  obtain ⟨halign, hle, hend⟩ := (hshape.slabs slab (mem_of_getElem? hslab)).entry_inside hcell
  rw [← h.address]
  exact ⟨halign, slab.backing, mem_map_of_mem (mem_of_getElem? hslab), hle, hend⟩

/-- **The bytes of two leases** are apart. -/
theorem LeasedAt.apart (hok : StorageOk target pool frees bytes) (h : LeasedAt target pool lease shape entry)
    (h' : LeasedAt target pool lease' shape' entry') (hne : lease.shape ≠ lease'.shape ∨ lease.slot ≠ lease'.slot) :
    lease.address + shape.descriptor.bytes ≤ lease'.address ∨
      lease'.address + shape'.descriptor.bytes ≤ lease.address := by
  have hpairs := pairwise_flatMap.mp (pairwise_append.mp hok.apart).1
  by_cases hshape : lease.shape = lease'.shape
  · have hheld := h'.held
    rw [← hshape, h.held] at hheld
    cases hheld
    obtain ⟨free, -, hok'⟩ := agree_get hok.shapes h.held
    obtain ⟨k, slab, hslab, hfirst, hcell⟩ := hok'.located h.slot_ne h.cell
    obtain ⟨k', slab', hslab', hfirst', hcell'⟩ := hok'.located h'.slot_ne h'.cell
    have hslabOk := hok'.slabs slab (mem_of_getElem? hslab)
    rw [← h.address, ← h'.address]
    by_cases hk : k = k'
    · subst hk
      rw [hslab] at hslab'
      cases hslab'
      exact hslabOk.entries_apart hcell hcell' (by omega)
    · -- two slabs of one shape
      have hregions := hpairs.1 shape (mem_of_getElem? h.held)
      have hapart : Apart slab.backing slab'.backing := pairwise_get hregions Apart.symm
        (by rw [regions, getElem?_map, hslab]; rfl) (by rw [regions, getElem?_map, hslab']; rfl) hk
      obtain ⟨-, hle, hend⟩ := hslabOk.entry_inside hcell
      obtain ⟨-, hle', hend'⟩ := (hok'.slabs slab' (mem_of_getElem? hslab')).entry_inside hcell'
      rcases hapart with hapart | hapart
      · exact .inl (by omega)
      · exact .inr (by omega)
  · -- two shapes
    obtain ⟨-, region, hregion, hle, hend⟩ := h.inside hok
    obtain ⟨-, region', hregion', hle', hend'⟩ := h'.inside hok
    have hplaces : lease.shape - 1 ≠ lease'.shape - 1 := by
      have := h.shape_ne
      have := h'.shape_ne
      omega
    have hall := pairwise_get hpairs.2 (fun hab x hx y hy => (hab y hy x hx).symm) h.held h'.held hplaces
    rcases hall region hregion region' hregion' with hapart | hapart
    · exact .inl (by omega)
    · exact .inr (by omega)

end Bytes

/-! ## 3. Which leases are in force -/

section Force

variable {target : Target} {pool pool' : ReportPool V} {lease : Lease} {shape : Shape} {entry : Slot}

/-- **After a lease was issued.** -/
theorem Issued.live_iff {descriptor : Descriptor} {state : State} (h : Issued target pool pool' descriptor lease state)
    (l : Lease) : Live target pool' l ↔ Live target pool l ∨ l = lease := by
  by_cases hl : l.shape = lease.shape ∧ l.slot = lease.slot
  · have hself : busyAt pool' lease.shape lease.slot = some ⟨pool.nextEpoch, state, lease.address⟩ := by
      rw [h.busy, setBusy, if_pos ⟨rfl, rfl⟩]
    have hnew : Live target pool' lease := ⟨h.domain, _, hself, h.epoch.symm, rfl⟩
    constructor
    · exact fun hlive => .inr (hlive.eq hnew hl.1 hl.2)
    · rintro (⟨-, entry, hbusy, -⟩ | rfl)
      · rw [hl.1, hl.2, h.fresh] at hbusy
        cases hbusy
      · exact hnew
  · have hne : l ≠ lease := fun e => hl (by rw [e]; exact ⟨rfl, rfl⟩)
    rw [Live, h.busy, setBusy, if_neg hl, or_iff_left hne]
    rfl

/-- **After the state of its slot was changed.** -/
theorem LeasedAt.live_iff {state : State} (h : LeasedAt target pool lease shape entry)
  (hwrote : Wrote pool pool' lease.shape lease.slot (some { entry with state := state })) (l : Lease) :
  Live target pool' l ↔ Live target pool l := by
  have hself : busyAt pool' lease.shape lease.slot = some { entry with state := state } := by
    rw [hwrote.busy, setBusy, if_pos ⟨rfl, rfl⟩]
  have hnew : Live target pool' lease := ⟨h.domain, _, hself, h.epoch, h.address⟩
  by_cases hl : l.shape = lease.shape ∧ l.slot = lease.slot
  · constructor
    · intro hlive
      rw [hlive.eq hnew hl.1 hl.2]
      exact h.live
    · intro hlive
      rw [hlive.eq h.live hl.1 hl.2]
      exact hnew
  · rw [Live, hwrote.busy, setBusy, if_neg hl]
    rfl

/-- **After it was retired.** -/
theorem LeasedAt.live_retired (h : LeasedAt target pool lease shape entry)
    (hwrote : Wrote pool pool' lease.shape lease.slot none) (l : Lease) :
    Live target pool' l ↔ Live target pool l ∧ l ≠ lease := by
  by_cases hl : l.shape = lease.shape ∧ l.slot = lease.slot
  · constructor
    · rintro ⟨-, entry', hentry, -⟩
      rw [hwrote.busy, setBusy, if_pos hl] at hentry
      cases hentry
    · rintro ⟨hlive, hne⟩
      exact absurd (hlive.eq h.live hl.1 hl.2) hne
  · have hne : l ≠ lease := fun e => hl (by rw [e]; exact ⟨rfl, rfl⟩)
    rw [Live, hwrote.busy, setBusy, if_neg hl, and_iff_left hne]
    rfl

theorem live_congr (h : busyAt pool' = busyAt pool) (lease : Lease) :
    Live target pool' lease ↔ Live target pool lease := by
  rw [Live, Live, h]

end Force

/-! ## 4. What the functions do with a lease -/

section Calls

variable {target : Target} {pool pool' : ReportPool V} {frees : List (List Nat)} {shape : Shape} {free : List Nat}

theorem ShapeOk.idle (h : ShapeOk target shape free) (hall : shape.available = shape.total) {k : Nat} {entry : Slot}
    (hentry : (slots shape)[k]? = some entry) : entry.state.isFree = true := by
  have hsub : free ⊆ List.range' 1 shape.total := by
    intro i hi
    obtain ⟨h0, e, he, -⟩ := (h.mem_iff i).mp hi
    have := (List.getElem_of_getElem? he).1
    rw [h.total_eq] at this
    rw [mem_range'_1]
    omega
  have hperm : free.Perm (List.range' 1 shape.total) := by
    refine (h.nodup.subperm hsub).perm_of_length_le ?_
    rw [length_range', ← hall, h.length_eq]
  have hk := (List.getElem_of_getElem? hentry).1
  rw [h.total_eq] at hk
  have hmem : k + 1 ∈ free := hperm.mem_iff.mpr (by rw [mem_range'_1]; omega)
  obtain ⟨-, e, he, hfree⟩ := (h.mem_iff (k + 1)).mp hmem
  rw [Nat.add_sub_cancel, hentry] at he
  cases he
  exact hfree

section

variable (h : StorageOk target pool frees none)
include h

/-- **The pool is released** only while no slot is in use. -/
theorem releasePool_spec :
    releasePool pool = (false, pool) ∨ (releasePool pool).1 = true ∧ (∀ i o, busyAt pool i o = none) ∧
      (releasePool pool).2.storage = none ∧ (releasePool pool).2.nextEpoch = pool.nextEpoch := by
  rw [releasePool]
  split
  · exact .inl rfl
  · rename_i hidle
    simp only [not_or, Bool.not_eq_true', Bool.not_eq_false] at hidle
    refine .inr ⟨rfl, fun i o => ?_, rfl, rfl⟩
    cases hbusy : busyAt pool i o with
    | none => rfl
    | some entry =>
      obtain ⟨-, -, shape, hshape, hcell, hstate⟩ := busyAt_eq_some.mp hbusy
      have hcan := all_eq_true.mp hidle.2.2 shape (mem_of_getElem? hshape)
      simp only [Bool.and_eq_true, beq_iff_eq] at hcan
      obtain ⟨free, -, hok⟩ := agree_get h.shapes hshape
      rw [hok.idle hcan.2 hcell] at hstate
      cases hstate

/-- **A reserved lease is activated**, or nothing changes. -/
theorem activateValue_spec (lease : Lease) (descriptor : Descriptor) :
    activateValue target pool lease descriptor = some (0, pool) ∨
      ∃ shape entry, LeasedAt target pool lease shape entry ∧ shape.descriptor = descriptor ∧
        entry.state = .reserved ∧ activateValue target pool lease descriptor =
          some (entry.address, storeLeased pool lease shape { entry with state := .active }) := by
  rw [activateValue]
  rcases leasedAs_spec h lease descriptor with ⟨shape, entry, e, hlease, hd⟩ | ⟨e, -⟩
  · rw [e, some_bind]
    by_cases hstate : entry.state = .reserved
    · exact .inr ⟨shape, entry, hlease, hd, hstate, if_pos hstate⟩
    · exact .inl (if_neg hstate)
  · rw [e]
    exact .inl rfl

/-- **A frame is published**, or nothing changes. -/
theorem publishFrame_spec (lease : Lease) (descriptor : Descriptor)
    (identity : Nat) : publishFrame target pool lease descriptor identity = some (false, pool) ∨
      ∃ shape entry, LeasedAt target pool lease shape entry ∧ shape.descriptor = descriptor ∧
        entry.state = .active ∧ publishFrame target pool lease descriptor identity =
          some (true, storeLeased pool lease shape { entry with state := .inactive identity }) := by
  rw [publishFrame]
  split
  · exact .inl rfl
  · rcases leasedAs_spec h lease descriptor with ⟨shape, entry, e, hlease, hd⟩ | ⟨e, -⟩
    · rw [e, some_bind]
      by_cases hstate : entry.state = .active
      · exact .inr ⟨shape, entry, hlease, hd, hstate, if_pos hstate⟩
      · exact .inl (if_neg hstate)
    · rw [e]
      exact .inl rfl

/-- **A frame is inspected or dispatched**, or nothing changes. -/
theorem frameAddress_spec (lease : Lease) (descriptor : Descriptor) (identity : Nat) (dispatch : Bool) :
    frameAddress target pool lease descriptor identity dispatch = some (0, pool) ∨
      ∃ shape entry, LeasedAt target pool lease shape entry ∧ shape.descriptor = descriptor ∧
        ((dispatch = false ∧ frameAddress target pool lease descriptor identity dispatch = some (entry.address, pool)) ∨
          dispatch = true ∧ (∃ registered, entry.state = .inactive registered) ∧
            frameAddress target pool lease descriptor identity dispatch =
              some (entry.address, storeLeased pool lease shape { entry with state := .dispatched })) := by
  rw [frameAddress]
  rcases leasedAs_spec h lease descriptor with ⟨shape, entry, e, hlease, hd⟩ | ⟨e, -⟩
  · simp only [e, some_bind]
    by_cases hopen : frameOpen identity dispatch entry.state = true
    · refine .inr ⟨shape, entry, hlease, hd, ?_⟩
      rw [if_pos hopen]
      cases dispatch with
      | false => exact .inl ⟨rfl, rfl⟩
      | true =>
        refine .inr ⟨rfl, ?_, rfl⟩
        -- only an inactive frame is open to dispatch
        cases hstate : entry.state with
        | inactive registered => exact ⟨registered, rfl⟩
        | free next => rw [hstate] at hopen; cases hopen
        | reserved => rw [hstate] at hopen; cases hopen
        | active => rw [hstate] at hopen; cases hopen
        | dispatched => rw [hstate] at hopen; cases hopen
        | retained registered => rw [hstate] at hopen; cases hopen
    · exact .inl (if_neg hopen)
  · rw [e]
    exact .inl rfl

/-- **A dispatched frame is retained**, or the process stops. -/
theorem retainFrame_spec (lease : Lease) (identity : Nat) : retainFrame target pool lease identity = none ∨
      ∃ shape entry, LeasedAt target pool lease shape entry ∧ entry.state = .dispatched ∧
        retainFrame target pool lease identity =
          some (storeLeased pool lease shape { entry with state := .retained identity }) := by
  rw [retainFrame]
  split
  · exact .inl rfl
  · rcases leased_spec h lease with ⟨shape, entry, e, hlease⟩ | ⟨e, -⟩
    · rw [e, some_bind]
      by_cases hstate : entry.state = .dispatched
      · exact .inr ⟨shape, entry, hlease, hstate, if_pos hstate⟩
      · exact .inl (if_neg hstate)
    · rw [e]
      exact .inl rfl

end

theorem LeasedAt.address_ne (hok : StorageOk target pool frees none) {lease : Lease} {entry : Slot}
    (h : LeasedAt target pool lease shape entry) : entry.address ≠ 0 :=
  hok.address_ne_zero h.held h.slot_ne h.cell

/-- The region that a step brings along is one more beside those of the pool. -/
theorem StorageOk.prepare {prepared : Prepared V} (h : StorageOk target pool frees none)
    (hheap : FromHeap pool prepared) : StorageOk target pool frees prepared.bytes := by
  cases hb : prepared.bytes with
  | none => exact h
  | some region =>
    obtain ⟨hpointer, hapart⟩ := hheap region hb
    have hregions : (allRegions pool).Pairwise Apart := (pairwise_append.mp h.apart).1
    refine ⟨h.shapes, h.distinct, pairwise_append.mpr ⟨hregions, pairwise_singleton _ _, ?_⟩, ?_⟩
    · intro other hother x hx
      rw [mem_singleton.mp hx]
      exact hapart other hother
    · intro other hother
      rcases mem_append.mp hother with hother | hother
      · exact h.nonnull other (mem_append_left _ hother)
      · rw [mem_singleton.mp hother]
        exact hpointer

end Calls

end Bray.Pool
