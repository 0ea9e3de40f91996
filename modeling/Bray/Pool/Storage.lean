/-
  File:      Bray/Pool/Storage.lean
  Subject:   STORAGE, LEASES AND BUNDLES, as storage/{admission,activation,boundary,bundle}.bray,
    outgoing/admission.bray and pool/access.bray compute them. Definitions only.

  An address is a number, and a null pointer is zero. Everything here runs with the lock held; the
  loops around it, which drop the lock to prepare what a reply asks for and try again, call these
  functions with other buffers prepared.
-/
import Bray.Pool.Records

namespace Bray.Pool

open Bray.Lib

variable {V : Type}

/-! ## 1. Shapes and their slots -/

/-- `shapes`. -/
def shapes (pool : ReportPool V) : Option (List Shape) := pool.storage.map RawBuffer.items

/-- What is written through the slice that `shapes` returns. -/
def storeShape (pool : ReportPool V) (index : Nat) (shape : Shape) : ReportPool V :=
  { pool with storage := pool.storage.map fun buffer => buffer.write index shape }

/-- The loop of `find`. -/
def findFrom (descriptor : Descriptor) : List Shape → Nat → Nat
  | [], _ => 0
  | shape :: values, index =>
    if sameShape shape.descriptor descriptor then index + 1 else findFrom descriptor values (index + 1)

/-- `find`. -/
def find (pool : ReportPool V) (descriptor : Descriptor) : Nat :=
  match shapes pool with
  | none => 0
  | some values => findFrom descriptor values 0

/-- `register`. -/
def register (target : Target) (pool : ReportPool V) (descriptor : Descriptor) (prepared : Prepared V) :
  Option (Reply Request Nat × ReportPool V × Prepared V) :=
  if find pool descriptor ≠ 0 then some (.ok (find pool descriptor), pool, prepared)
  else if !validLayout descriptor then some (.ok 0, pool, prepared)
  else
    let (reply, storage, shapes) := reserveBuffer target pool.storage prepared.shapes
    let prepared := { prepared with shapes := shapes }
    match reply with
    | .error count => some (.error (.shapes count), { pool with storage := storage }, prepared)
    | .ok false => some (.ok 0, { pool with storage := storage }, prepared)
    | .ok true =>
      match storage with
      | none => some (.ok 0, { pool with storage := none }, prepared)
      | some buffer => do
        let buffer ← buffer.initializeSpare ⟨descriptor, none, 0, 0, 0, 0⟩
        some (.ok buffer.initialized, { pool with storage := some buffer }, prepared)

/-- `slot`. -/
def slot (shape : Shape) (ordinal : Nat) : Option Slot := do
  let storage ← shape.slabs
  Slab.get storage.items ordinal

/-- What is written through the reference that `slot` returns. -/
def storeSlot (shape : Shape) (ordinal : Nat) (entry : Slot) : Shape :=
  { shape with
    slabs := shape.slabs.map fun storage =>
      storage.overwrite (fun slabs => Slab.put slabs ordinal entry) fun slabs => Slab.length_put slabs ordinal entry }

/-! ## 2. Growth of a shape -/

/-- The most a slab of slots may take. -/
def Target.storageMax (target : Target) : Nat := target.usizeMax >>> 1

def Target.complement (target : Target) (word : Nat) : Nat := target.usizeMax ^^^ word

/-- A slot of a new slab. -/
def freshSlot (base stride : Nat) (head index : Nat) : Slot := ⟨0, .free head, base + index * stride⟩

/-- How many slots a growth adds. -/
def additionalSlots (total maximum required : Nat) : Nat :=
  if required < total ∧ total ≤ maximum / 2 then total else required

/-- The first aligned address of a region. -/
def alignedBase (align padding address : Nat) : Nat := address + ((align - (address &&& padding)) &&& padding)

/-- A filled slab and the region it points into are put behind the others. -/
def installSlots (shape : Shape) (padding stride additional : Nat) (region : RawBuffer UInt8)
  (entries : RawBuffer Slot) : Option Shape := do
  let first := shape.total + 1
  let base := alignedBase shape.descriptor.align padding region.pointer
  let (entries, head) ← fill (freshSlot base stride) first additional entries shape.free 0
  let slabs ← shape.slabs
  let slabs ← slabs.initializeSpare ⟨first, entries.items, region⟩
  some { shape with
    slabs := some slabs
    free := head
    total := shape.total + additional
    available := shape.available + additional }

/-- The part of `storage.reserve` that follows its checks: `additional` slots are added. -/
def growSlots (target : Target) (shape : Shape) (padding stride additional : Nat) (prepared : Prepared V) :
  Option (Reply Request Bool × Shape × Prepared V) :=
  let bytes := stride * additional + padding + 1
  let (reply, slabs, storageSlabs) := reserveBuffer target shape.slabs prepared.storageSlabs
  let shape := { shape with slabs := slabs }
  let prepared := { prepared with storageSlabs := storageSlabs }
  match reply with
  | .error capacity => some (.error (.storageSlabs capacity), shape, prepared)
  | .ok false => some (.ok false, shape, prepared)
  | .ok true =>
    match prepared.bytes, prepared.slots with
    | some region, some entries =>
      if bytes ≤ region.capacity ∧ additional ≤ entries.capacity ∧ region.initialized = 0 ∧
        entries.initialized = 0 then do
        let shape ← installSlots shape padding stride additional region entries
        some (.ok true, shape, { prepared with bytes := none, slots := none })
      else some (.error (.storage bytes additional), shape, prepared)
    | _, _ => some (.error (.storage bytes additional), shape, prepared)

/-- `storage.reserve`. -/
def reserveSlots (target : Target) (shape : Shape) (count : Nat) (prepared : Prepared V) :
  Option (Reply Request Bool × Shape × Prepared V) :=
  if count ≤ shape.available then some (.ok true, shape, prepared)
  else do
    let maximum := target.storageMax
    let padding ← checkedSub shape.descriptor.align 1
    if maximum ≤ padding ∨ maximum - padding < shape.descriptor.bytes then some (.ok false, shape, prepared)
    else
      let stride := (shape.descriptor.bytes + padding) &&& target.complement padding
      let additional := additionalSlots shape.total maximum (count - shape.available)
      if stride ≠ 0 ∧ (maximum - padding - 1) / stride < additional then some (.ok false, shape, prepared)
      else do
        let rest ← checkedSub maximum shape.total
        if rest < additional then some (.ok false, shape, prepared)
        else growSlots target shape padding stride additional prepared

/-! ## 3. Leases -/

def State.isFree : State → Bool
  | .free _ => true
  | _ => false

/-- `reserve_lease`. -/
def reserveLease (target : Target) (pool : ReportPool V) (index : Nat) : Option (Lease × ReportPool V) :=
  if pool.nextEpoch = u64Max then none
  else do
    let values ← shapes pool
    if index = 0 ∨ values.length < index then none
    else do
      let shape ← values[index - 1]?
      if shape.free = 0 then none
      else do
        let entry ← slot shape shape.free
        match entry.state with
        | .free next => do
          let available ← checkedSub shape.available 1
          let reserved := storeSlot shape shape.free { entry with epoch := pool.nextEpoch, state := .reserved }
          let pool' := storeShape pool (index - 1) { reserved with free := next, available := available }
          some (⟨target.identity, index, shape.free, pool.nextEpoch, entry.address⟩,
            { pool' with nextEpoch := pool.nextEpoch + 1 })
        | _ => none

/-- The slot that a lease names, where it names one. -/
def leased (target : Target) (pool : ReportPool V) (lease : Lease) : Option (Option (Shape × Slot)) :=
  match shapes pool with
  | none => some none
  | some values =>
    if lease.domain ≠ target.identity ∨ lease.shape = 0 ∨ lease.slot = 0 ∨ values.length < lease.shape then
      some none
    else do
      let shape ← values[lease.shape - 1]?
      if shape.total < lease.slot then some none
      else do
        let entry ← slot shape lease.slot
        if !entry.state.isFree && entry.epoch == lease.epoch && entry.address == lease.address then
          some (some (shape, entry))
        else some none

/-- What is written to the slot of a lease. -/
def storeLeased (pool : ReportPool V) (lease : Lease) (shape : Shape) (entry : Slot) : ReportPool V :=
  storeShape pool (lease.shape - 1) (storeSlot shape lease.slot entry)

/-- The slot of a lease, where `matches_shape` holds. -/
def leasedAs (target : Target) (pool : ReportPool V) (lease : Lease) (descriptor : Descriptor) :
  Option (Option (Shape × Slot)) := do
  match ← leased target pool lease with
  | some (shape, entry) =>
    if sameShape shape.descriptor descriptor then some (some (shape, entry)) else some none
  | none => some none

/-- `activate_value`: the address, or null. -/
def activateValue (target : Target) (pool : ReportPool V) (lease : Lease) (descriptor : Descriptor) :
  Option (Nat × ReportPool V) := do
  match ← leasedAs target pool lease descriptor with
  | none => some (0, pool)
  | some (shape, entry) =>
    if entry.state = .reserved then
      some (entry.address, storeLeased pool lease shape { entry with state := .active })
    else some (0, pool)

/-- `publish_frame`. -/
def publishFrame (target : Target) (pool : ReportPool V) (lease : Lease) (descriptor : Descriptor) (identity : Nat) :
  Option (Bool × ReportPool V) :=
  if identity = 0 then some (false, pool)
  else do
    match ← leasedAs target pool lease descriptor with
    | none => some (false, pool)
    | some (shape, entry) =>
      if entry.state = .active then
        some (true, storeLeased pool lease shape { entry with state := .inactive identity })
      else some (false, pool)

/-- Whether a frame in this state may be inspected or dispatched. -/
def frameOpen (identity : Nat) (dispatch : Bool) : State → Bool
  | .inactive registered => registered == identity
  | .retained registered => !dispatch && registered == identity
  | _ => false

/-- `frame_address`. -/
def frameAddress (target : Target) (pool : ReportPool V) (lease : Lease) (descriptor : Descriptor) (identity : Nat)
  (dispatch : Bool) : Option (Nat × ReportPool V) := do
  match ← leasedAs target pool lease descriptor with
  | none => some (0, pool)
  | some (shape, entry) =>
    if frameOpen identity dispatch entry.state then
      if dispatch then some (entry.address, storeLeased pool lease shape { entry with state := .dispatched })
      else some (entry.address, pool)
    else some (0, pool)

/-- `retain_frame`. -/
def retainFrame (target : Target) (pool : ReportPool V) (lease : Lease) (descriptor : Nat) : Option (ReportPool V) :=
  if descriptor = 0 then none
  else do
    match ← leased target pool lease with
    | none => none
    | some (shape, entry) =>
      if entry.state = .dispatched then
        some (storeLeased pool lease shape { entry with state := .retained descriptor })
      else none

/-- `release_value`. -/
def releaseValue (target : Target) (pool : ReportPool V) (lease : Lease) : Option (Bool × ReportPool V) := do
  match ← leased target pool lease with
  | none => some (false, pool)
  | some (shape, entry) =>
    let freed := storeSlot shape lease.slot { entry with state := .free shape.free }
    some (true, storeShape pool (lease.shape - 1) { freed with
      free := lease.slot
      available := shape.available + 1 })

/-- `claim_value`. -/
def claimValue (target : Target) (pool : ReportPool V) (descriptor : Descriptor) : Option (Lease × ReportPool V) :=
  if descriptor.bytes = 0 then some (emptyLease, pool)
  else
    let index := find pool descriptor
    if index = 0 then none
    else do
      let values ← shapes pool
      let shape ← values[index - 1]?
      if shape.credits = 0 then none
      else do
        let (lease, pool) ← reserveLease target pool index
        let (address, pool) ← activateValue target pool lease descriptor
        if address = 0 then none else some (lease, pool)

/-- `admit_locked`. -/
def admitLocked (target : Target) (pool : ReportPool V) (descriptor : Descriptor) (prepared : Prepared V) :
  Option (Reply Request Lease × ReportPool V × Prepared V) :=
  if pool.remainingEpochs = 0 then some (.ok emptyLease, pool, prepared)
  else do
    let (reply, pool, prepared) ← register target pool descriptor prepared
    match reply with
    | .error request => some (.error request, pool, prepared)
    | .ok 0 => some (.ok emptyLease, pool, prepared)
    | .ok (position + 1) => do
      let values ← shapes pool
      let shape ← values[position]?
      if shape.credits = target.usizeMax then some (.ok emptyLease, pool, prepared)
      else do
        let (reply, shape, prepared) ← reserveSlots target shape (shape.credits + 1) prepared
        let pool := storeShape pool position shape
        match reply with
        | .error request => some (.error request, pool, prepared)
        | .ok false => some (.ok emptyLease, pool, prepared)
        | .ok true => do
          let remaining ← checkedSub pool.remainingEpochs 1
          let (lease, pool) ← reserveLease target { pool with remainingEpochs := remaining } (position + 1)
          some (.ok lease, pool, prepared)

/-! ## 4. Bundles -/

/-- `reserve_requirement`. -/
def reserveRequirement (target : Target) (pool : ReportPool V) (descriptor : Descriptor) (prepared : Prepared V) :
  Option (Reply Request Bool × ReportPool V × Prepared V) :=
  if descriptor.bytes = 0 then some (.ok (validLayout descriptor), pool, prepared)
  else do
    let (reply, pool, prepared) ← register target pool descriptor prepared
    match reply with
    | .error request => some (.error request, pool, prepared)
    | .ok 0 => some (.ok false, pool, prepared)
    | .ok (position + 1) => do
      let values ← shapes pool
      let shape ← values[position]?
      if shape.credits = target.usizeMax then some (.ok false, pool, prepared)
      else do
        let (reply, shape, prepared) ← reserveSlots target shape (shape.credits + 1) prepared
        match reply with
        | .error request => some (.error request, storeShape pool position shape, prepared)
        | .ok false => some (.ok false, storeShape pool position shape, prepared)
        | .ok true =>
          some (.ok true, storeShape pool position { shape with credits := shape.credits + 1 }, prepared)

/-- `discharge_bundle`, over the descriptors that were acquired. -/
def dischargeBundle (pool : ReportPool V) : List Descriptor → Option (ReportPool V)
  | [] => some pool
  | descriptor :: rest =>
    if descriptor.bytes = 0 then dischargeBundle pool rest
    else
      let index := find pool descriptor
      if index = 0 then none
      else do
        let values ← shapes pool
        let shape ← values[index - 1]?
        if shape.credits = 0 then none
        else dischargeBundle (storeShape pool (index - 1) { shape with credits := shape.credits - 1 }) rest

/-- The loop of `reserve_bundle`: what was acquired so far is discharged when a requirement is
  postponed or refused. -/
def reserveLoop (target : Target) (acquired : List Descriptor) :
  List Descriptor → ReportPool V → Prepared V → Option (Reply Request Bool × ReportPool V × Prepared V)
  | [], pool, prepared => some (.ok true, pool, prepared)
  | descriptor :: rest, pool, prepared => do
    let (reply, pool, prepared) ← reserveRequirement target pool descriptor prepared
    match reply with
    | .error request => do
      let pool ← dischargeBundle pool acquired
      some (.error request, pool, prepared)
    | .ok false => do
      let pool ← dischargeBundle pool acquired
      some (.ok false, pool, prepared)
    | .ok true => reserveLoop target (acquired ++ [descriptor]) rest pool prepared

/-- `reserve_bundle`. -/
def reserveBundle (target : Target) (pool : ReportPool V) (descriptors : List Descriptor) (prepared : Prepared V) :
  Option (Reply Request Bool × ReportPool V × Prepared V) :=
  if pool.remainingEpochs / 2 < descriptors.length then some (.ok false, pool, prepared)
  else do
    let (reply, pool, prepared) ← reserveLoop target [] descriptors pool prepared
    match reply with
    | .ok true => do
      let remaining ← checkedSub pool.remainingEpochs (descriptors.length * 2)
      some (.ok true, { pool with remainingEpochs := remaining }, prepared)
    | reply => some (reply, pool, prepared)

/-- `accept_locked`. -/
def acceptLocked [Inhabited V] (target : Target) (pool : ReportPool V) (bundle : Bundle) (prepared : Prepared V) :
  Option (Reply Request Bool × ReportPool V × Prepared V) :=
  if target.usizeMax - pool.credits < bundle.records then some (.ok false, pool, prepared)
  else do
    let (reply, pool, prepared) ← reserveRecords target pool (pool.credits + bundle.records) prepared
    match reply with
    | .ok true => do
      let (reply, pool, prepared) ← reserveBundle target pool bundle.descriptors prepared
      match reply with
      | .ok true => some (.ok true, { pool with credits := pool.credits + bundle.records }, prepared)
      | reply => some (reply, pool, prepared)
    | reply => some (reply, pool, prepared)

/-- `discharge`. -/
def discharge (pool : ReportPool V) (bundle : Bundle) : Option (ReportPool V) :=
  if pool.credits < bundle.records then none
  else do
    let pool ← dischargeBundle pool bundle.descriptors
    let credits ← checkedSub pool.credits bundle.records
    some { pool with credits := credits }

/-! ## 5. Release -/

/-- `can_release`. -/
def canRelease (pool : ReportPool V) : Bool :=
  (held pool.storage).all fun shape => shape.credits == 0 && shape.available == shape.total

/-- The first locked part of `release`: the slabs and shapes are given up where nothing is in use. -/
def releasePool (pool : ReportPool V) : Bool × ReportPool V :=
  if pool.credits ≠ 0 ∨ pool.available ≠ pool.total ∨ !canRelease pool then (false, pool)
  else (true, { pool with slabs := none, storage := none, free := 0, available := 0, total := 0 })

end Bray.Pool
