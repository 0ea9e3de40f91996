/-
  File:      Bray/Pool/Leases.lean
  Subject:   WHAT THE STORAGE FUNCTIONS DO, seen through the slots in use.

  `busyAt pool i o` is the slot with the ordinal `o` of the shape `i`, where it is in use. All that a
  lease is checked against is in this map. Growth, registration, credits and refusals do not touch
  it; a lease writes one entry, a change of state rewrites it, a retirement clears it.

  * `StorageOk` -- every shape is well formed, no descriptor is registered twice, and no two regions
    overlap, the prepared one included;
  * one lemma for each function: what it makes of `StorageOk` and of `busyAt`.
-/
import Bray.Pool.Shapes

namespace Bray.Pool

open Bray.Lib Option
open List (append_assoc append_nil getElem?_set_ne getElem?_set_self mem_of_getElem? not_mem_nil)
open scoped List

variable {V : Type} {target : Target} {pool pool' : ReportPool V} {shape shape' : Shape} {frees : List (List Nat)}
  {free : List Nat} {bytes bytes' : Option (RawBuffer UInt8)} {i o : Nat} {entry : Slot}

/-! ## 1. The storage of a pool -/

/-- Two regions do not overlap. -/
def Apart (a b : RawBuffer UInt8) : Prop :=
  a.pointer + a.capacity ≤ b.pointer ∨ b.pointer + b.capacity ≤ a.pointer

theorem Apart.symm {a b : RawBuffer UInt8} (h : Apart a b) : Apart b a := Or.symm h

/-- The regions of all shapes. -/
def allRegions (pool : ReportPool V) : List (RawBuffer UInt8) := (held pool.storage).flatMap regions

/-- A well-formed storage, with the free lists of its shapes and a region that is prepared. -/
structure StorageOk (target : Target) (pool : ReportPool V) (frees : List (List Nat))
  (bytes : Option (RawBuffer UInt8)) : Prop where
  shapes : List.Forall₂ (ShapeOk target) (held pool.storage) frees
  distinct : ((held pool.storage).map Shape.descriptor).Nodup
  apart : (allRegions pool ++ bytes.toList).Pairwise Apart
  nonnull : ∀ region ∈ allRegions pool ++ bytes.toList, region.pointer ≠ 0

theorem held_storeShape (pool : ReportPool V) (i : Nat) (shape : Shape) :
    held (storeShape pool i shape).storage = (held pool.storage).set i shape := by
  rw [storeShape]
  cases hs : pool.storage with
  | none => rfl
  | some buffer => rfl

theorem shapes_of_held (h : (held pool.storage)[i]? = some shape) : shapes pool = some (held pool.storage) := by
  rw [shapes]
  cases hs : pool.storage with
  | none =>
    rw [hs] at h
    cases h
  | some buffer => rfl

namespace StorageOk

section

variable (h : StorageOk target pool frees bytes)
include h

/-- What is prepared may be dropped. -/
theorem drop : StorageOk target pool frees none where
  shapes := h.shapes
  distinct := h.distinct
  apart := by
    rw [toList_none, append_nil]
    exact (List.pairwise_append.mp h.apart).1
  nonnull region hmem := by
    rw [toList_none, append_nil] at hmem
    exact h.nonnull region (List.mem_append_left _ hmem)

/-- Only the storage matters. -/
theorem congr (hstorage : pool'.storage = pool.storage) : StorageOk target pool' frees bytes := by
  refine ⟨?_, ?_, ?_, ?_⟩
  · rw [hstorage]
    exact h.shapes
  · rw [hstorage]
    exact h.distinct
  · rw [allRegions, hstorage]
    exact h.apart
  · rw [allRegions, hstorage]
    exact h.nonnull

/-- The regions are the same up to their order. -/
theorem of_perm {frees' : List (List Nat)} (hshapes : List.Forall₂ (ShapeOk target) (held pool'.storage) frees')
    (hdistinct : ((held pool'.storage).map Shape.descriptor).Nodup)
    (hperm : (allRegions pool' ++ bytes'.toList).Perm (allRegions pool ++ bytes.toList)) :
  StorageOk target pool' frees' bytes' where
  shapes := hshapes
  distinct := hdistinct
  apart := (hperm.pairwise_iff Apart.symm).mpr h.apart
  nonnull region hmem := h.nonnull region (hperm.mem_iff.mp hmem)

/-- **One shape is written.** -/
theorem update (hi : (held pool.storage)[i]? = some shape)
    (hheld : held pool'.storage = (held pool.storage).set i shape') (hshape : ShapeOk target shape' free)
    (hdescriptor : shape'.descriptor = shape.descriptor)
    (hregions : regions shape' ++ bytes'.toList = regions shape ++ bytes.toList) :
    StorageOk target pool' (frees.set i free) bytes' := by
  obtain ⟨hlt, hget⟩ := List.getElem_of_getElem? hi
  refine h.of_perm ?_ ?_ ?_
  · rw [hheld]
    exact agree_set h.shapes hshape
  · have hmap : ((held pool.storage).map Shape.descriptor).set i shape'.descriptor =
      (held pool.storage).map Shape.descriptor := by
      refine set_same ?_
      rw [List.getElem?_map, hi, hdescriptor]
      rfl
    rw [hheld, List.map_set, hmap]
    exact h.distinct
  · rw [allRegions, allRegions, hheld]
    have hnew := (List.set_perm_cons_eraseIdx hlt shape').flatMap_right regions
    have hold := (List.getElem_cons_eraseIdx_perm hlt).flatMap_right regions
    rw [hget] at hold
    calc ((held pool.storage).set i shape').flatMap regions ++ bytes'.toList
      _ ~ (regions shape' ++ ((held pool.storage).eraseIdx i).flatMap regions) ++ bytes'.toList :=
        hnew.append_right _
      _ ~ (regions shape' ++ bytes'.toList) ++ ((held pool.storage).eraseIdx i).flatMap regions := by
        rw [append_assoc, append_assoc]
        exact List.perm_append_comm.append_left _
      _ = (regions shape ++ bytes.toList) ++ ((held pool.storage).eraseIdx i).flatMap regions := by rw [hregions]
      _ ~ (regions shape ++ ((held pool.storage).eraseIdx i).flatMap regions) ++ bytes.toList := by
        rw [append_assoc, append_assoc]
        exact List.perm_append_comm.append_left _
      _ ~ (held pool.storage).flatMap regions ++ bytes.toList := hold.append_right _

end

end StorageOk

/-! ## 2. The slots in use -/

/-- The slot `o` of the shape `i`, where it is in use. -/
def busyAt (pool : ReportPool V) (i o : Nat) : Option Slot :=
  if i = 0 ∨ o = 0 then none
  else ((held pool.storage)[i - 1]?.bind fun shape => (slots shape)[o - 1]?).filter fun entry => !entry.state.isFree

theorem busyAt_eq_some : busyAt pool i o = some entry ↔ i ≠ 0 ∧ o ≠ 0 ∧ ∃ shape,
    (held pool.storage)[i - 1]? = some shape ∧ (slots shape)[o - 1]? = some entry ∧ entry.state.isFree = false := by
  rw [busyAt]
  split
  · rename_i h
    constructor
    · intro e
      cases e
    · rintro ⟨hi, ho, -⟩
      exact absurd h (not_or.mpr ⟨hi, ho⟩)
  · rename_i h
    rw [filter_eq_some_iff, bind_eq_some_iff]
    simp only [Bool.not_eq_true']
    constructor
    · rintro ⟨⟨shape, hshape, hslot⟩, hfree⟩
      exact ⟨fun e => h (.inl e), fun e => h (.inr e), shape, hshape, hslot, hfree⟩
    · rintro ⟨-, -, shape, hshape, hslot, hfree⟩
      exact ⟨⟨shape, hshape, hslot⟩, hfree⟩

/-- One entry of the map is written. -/
def setBusy (busy : Nat → Nat → Option Slot) (i o : Nat) (entry : Option Slot) : Nat → Nat → Option Slot :=
  fun i' o' => if i' = i ∧ o' = o then entry else busy i' o'

theorem busyAt_congr (h : held pool'.storage = held pool.storage) : busyAt pool' = busyAt pool := by
  funext i o
  rw [busyAt, busyAt, h]

/-- A shape is written whose slots are the same, but for new ones that are free. -/
theorem busyAt_grown {pos : Nat} (hi : (held pool.storage)[pos]? = some shape)
    (hheld : held pool'.storage = (held pool.storage).set pos shape')
    (hslots : ∃ fresh, slots shape' = slots shape ++ fresh ∧ ∀ entry ∈ fresh, entry.state.isFree = true) :
    busyAt pool' = busyAt pool := by
  obtain ⟨fresh, hslots, hfree⟩ := hslots
  have hlt := (List.getElem_of_getElem? hi).1
  funext i o
  rw [busyAt, busyAt]
  split
  · rfl
  · rw [hheld]
    by_cases hpos : pos = i - 1
    · subst hpos
      rw [getElem?_set_self hlt, hi, bind_some, bind_some, hslots]
      by_cases hin : o - 1 < (slots shape).length
      · rw [List.getElem?_append_left hin]
      · rw [List.getElem?_append_right (Nat.not_lt.mp hin), List.getElem?_eq_none (Nat.not_lt.mp hin),
          filter_none, filter_eq_none_iff]
        intro entry hentry
        rw [hfree entry (mem_of_getElem? hentry)]
        decide
    · rw [getElem?_set_ne hpos]

theorem busyAt_written {pos ordinal : Nat} {entry' : Slot} (hi : (held pool.storage)[pos]? = some shape)
    (h0 : ordinal ≠ 0) (hentry : (slots shape)[ordinal - 1]? = some entry)
    (hheld : held pool'.storage = (held pool.storage).set pos shape')
    (hslots : slots shape' = (slots shape).set (ordinal - 1) entry') :
    busyAt pool' = setBusy (busyAt pool) (pos + 1) ordinal (if entry'.state.isFree then none else some entry') := by
  have hlt := (List.getElem_of_getElem? hi).1
  have hin := (List.getElem_of_getElem? hentry).1
  funext i o
  rw [setBusy]
  split
  · rename_i heq
    obtain ⟨rfl, rfl⟩ := heq
    rw [busyAt, if_neg (by omega), hheld, Nat.add_sub_cancel, getElem?_set_self hlt, bind_some, hslots,
      getElem?_set_self hin]
    cases hf : entry'.state.isFree with
    | true => simp [hf]
    | false => simp [hf]
  · rw [busyAt, busyAt]
    split
    · rfl
    · rw [hheld]
      by_cases hpos : pos = i - 1
      · subst hpos
        have ho : ordinal - 1 ≠ o - 1 := by omega
        rw [getElem?_set_self hlt, hi, bind_some, bind_some, hslots, getElem?_set_ne ho]
      · rw [getElem?_set_ne hpos]

/-! ## 3. Shapes by their descriptors -/

section Descriptors

variable {descriptor : Descriptor} {pos : Nat}

def shapeAt (pool : ReportPool V) (descriptor : Descriptor) : Option Shape :=
  (held pool.storage).find? fun shape => shape.descriptor = descriptor

theorem findFrom_spec (descriptor : Descriptor) (values : List Shape) (k : Nat) :
    (findFrom descriptor values k = 0 ∧ ∀ shape ∈ values, shape.descriptor ≠ descriptor) ∨
      ∃ pos shape, findFrom descriptor values k = k + pos + 1 ∧ values[pos]? = some shape ∧
        shape.descriptor = descriptor := by
  induction values generalizing k with
  | nil => exact .inl ⟨rfl, fun _ h => nomatch h⟩
  | cons shape values ih =>
    rw [findFrom]
    by_cases hsame : sameShape shape.descriptor descriptor = true
    · rw [if_pos hsame]
      exact .inr ⟨0, shape, rfl, rfl, sameShape_iff.mp hsame⟩
    · rw [if_neg hsame]
      rcases ih (k + 1) with ⟨hzero, hnone⟩ | ⟨pos, other, hpos, hget, hd⟩
      · refine .inl ⟨hzero, fun other hother => ?_⟩
        rcases List.mem_cons.mp hother with rfl | hother
        · exact fun e => hsame (sameShape_iff.mpr e)
        · exact hnone other hother
      · exact .inr ⟨pos + 1, other, by rw [hpos]; omega, hget, hd⟩

/-- `find` returns the place of the shape with the descriptor, counted from one. -/
theorem find_spec (pool : ReportPool V) (descriptor : Descriptor) :
    (find pool descriptor = 0 ∧ ∀ shape ∈ held pool.storage, shape.descriptor ≠ descriptor) ∨
      ∃ pos shape, find pool descriptor = pos + 1 ∧ (held pool.storage)[pos]? = some shape ∧
        shape.descriptor = descriptor := by
  rw [find, shapes]
  cases hs : pool.storage with
  | none => exact .inl ⟨rfl, fun _ h => nomatch h⟩
  | some buffer =>
    rcases findFrom_spec descriptor buffer.items 0 with h | ⟨pos, shape, hpos, hget, hd⟩
    · exact .inl h
    · exact .inr ⟨pos, shape, by rw [map_some]; simpa using hpos, hget, hd⟩

theorem StorageOk.pos_unique (h : StorageOk target pool frees bytes) {pos' : Nat}
    (hi : (held pool.storage)[pos]? = some shape) (hj : (held pool.storage)[pos']? = some shape')
    (hd : shape.descriptor = shape'.descriptor) : pos = pos' := by
  have hmap : ((held pool.storage).map Shape.descriptor)[pos]? =
    ((held pool.storage).map Shape.descriptor)[pos']? := by
    rw [List.getElem?_map, List.getElem?_map, hi, hj, map_some, map_some, hd]
  have hlt : pos < ((held pool.storage).map Shape.descriptor).length := by
    rw [List.length_map]
    exact (List.getElem_of_getElem? hi).1
  exact (List.getElem?_inj hlt h.distinct).mp hmap

theorem StorageOk.shapeAt_eq (h : StorageOk target pool frees bytes) (hi : (held pool.storage)[pos]? = some shape) :
    shapeAt pool shape.descriptor = some shape := by
  cases hfind : shapeAt pool shape.descriptor with
  | none =>
    have := List.find?_eq_none.mp hfind shape (mem_of_getElem? hi)
    simp at this
  | some other =>
    have hd : other.descriptor = shape.descriptor := by simpa using List.find?_some hfind
    obtain ⟨pos', hpos'⟩ := List.mem_iff_getElem?.mp (List.mem_of_find?_eq_some hfind)
    have := h.pos_unique hpos' hi hd
    subst this
    rw [hi] at hpos'
    exact hpos'.symm

theorem shapeAt_some (h : shapeAt pool descriptor = some shape) :
    shape.descriptor = descriptor ∧ ∃ pos : Nat, (held pool.storage)[pos]? = some shape :=
  ⟨by simpa using List.find?_some h, List.mem_iff_getElem?.mp (List.mem_of_find?_eq_some h)⟩

/-- A shape that is written is the shape of its descriptor, and the others stay. -/
theorem StorageOk.shapeAt_update (h : StorageOk target pool frees bytes) {frees' : List (List Nat)}
    (h' : StorageOk target pool' frees' bytes') (hi : (held pool.storage)[pos]? = some shape)
    (hheld : held pool'.storage = (held pool.storage).set pos shape')
    (hdescriptor : shape'.descriptor = shape.descriptor) (d : Descriptor) :
    shapeAt pool' d = if d = shape.descriptor then some shape' else shapeAt pool d := by
  have hlt := (List.getElem_of_getElem? hi).1
  split
  · rename_i hd
    have hget : (held pool'.storage)[pos]? = some shape' := by rw [hheld, getElem?_set_self hlt]
    rw [hd, ← hdescriptor]
    exact h'.shapeAt_eq hget
  · rename_i hd
    cases hfind : shapeAt pool d with
    | none =>
      rw [shapeAt, hheld, List.find?_eq_none]
      intro other hother
      rcases List.mem_or_eq_of_mem_set hother with hmem | rfl
      · exact List.find?_eq_none.mp hfind other hmem
      · rw [hdescriptor]
        simpa using fun e => hd e.symm
    | some other =>
      obtain ⟨hod, pos', hpos'⟩ := shapeAt_some hfind
      have hne : pos ≠ pos' := fun e => by
        subst e
        rw [hi] at hpos'
        cases hpos'
        exact hd hod.symm
      have hget : (held pool'.storage)[pos']? = some other := by rw [hheld, getElem?_set_ne hne, hpos']
      have hsame := h'.shapeAt_eq hget
      rw [hod] at hsame
      exact hsame

def creditAt (pool : ReportPool V) (descriptor : Descriptor) : Nat := ((shapeAt pool descriptor).map Shape.credits).getD 0

/-- The free slots of a descriptor. -/
def availableAt (pool : ReportPool V) (descriptor : Descriptor) : Nat :=
  ((shapeAt pool descriptor).map Shape.available).getD 0

end Descriptors

/-! ## 4. Functions that leave the leases alone -/

/-- The descriptor of the shape `i`. -/
def descriptorAt (pool : ReportPool V) (i : Nat) : Option Descriptor :=
  if i = 0 then none else (held pool.storage)[i - 1]?.map Shape.descriptor

/-- Leases, epochs and records are kept, and so are the shapes that are registered. -/
structure Steady (pool pool' : ReportPool V) : Prop where
  busy : busyAt pool' = busyAt pool
  rest : pool' = { pool with storage := pool'.storage }
  descriptors : ∀ i d, descriptorAt pool i = some d → descriptorAt pool' i = some d

namespace Steady

theorem refl (pool : ReportPool V) : Steady pool pool := ⟨rfl, rfl, fun _ _ h => h⟩

theorem trans {a b c : ReportPool V} (h : Steady a b) (h' : Steady b c) : Steady a c := by
  refine ⟨h'.busy.trans h.busy, ?_, fun i d hd => h'.descriptors i d (h.descriptors i d hd)⟩
  rw [h'.rest, h.rest]

theorem of_held (h : held pool'.storage = held pool.storage) (hrest : pool' = { pool with storage := pool'.storage }) :
  Steady pool pool' :=
  ⟨busyAt_congr h, hrest, fun i d hd => by rw [descriptorAt, h]; exact hd⟩

end Steady

theorem descriptorAt_set {pos : Nat} (hi : (held pool.storage)[pos]? = some shape)
    (hheld : held pool'.storage = (held pool.storage).set pos shape')
    (hdescriptor : shape'.descriptor = shape.descriptor) (i : Nat) : descriptorAt pool' i = descriptorAt pool i := by
  have hlt := (List.getElem_of_getElem? hi).1
  rw [descriptorAt, descriptorAt, hheld]
  split
  · rfl
  · by_cases hpos : pos = i - 1
    · subst hpos
      rw [getElem?_set_self hlt, hi, map_some, map_some, hdescriptor]
    · rw [getElem?_set_ne hpos]

section Push

variable {descriptor : Descriptor}

/-- A shape as it is registered. -/
def newShape (descriptor : Descriptor) : Shape := ⟨descriptor, none, 0, 0, 0, 0⟩

theorem shapeOk_newShape (target : Target) (h : validLayout descriptor = true) :
    ShapeOk target (newShape descriptor) [] := by
  refine ⟨trivial, rfl, Nat.zero_le _, h, fun _ hmem => absurd hmem not_mem_nil, trivial, List.nodup_nil,
    fun i => ⟨fun hmem => absurd hmem not_mem_nil, ?_⟩, rfl, rfl⟩
  rintro ⟨-, e, he, -⟩
  cases he

theorem StorageOk.push (h : StorageOk target pool frees bytes)
    (hheld : held pool'.storage = held pool.storage ++ [newShape descriptor]) (hlayout : validLayout descriptor = true)
    (hnone : ∀ shape ∈ held pool.storage, shape.descriptor ≠ descriptor) :
    StorageOk target pool' (frees ++ [[]]) bytes := by
  refine h.of_perm ?_ ?_ ?_
  · rw [hheld]
    exact List.rel_append h.shapes (.cons (shapeOk_newShape target hlayout) .nil)
  · rw [hheld, List.map_append]
    refine List.nodup_append.mpr ⟨h.distinct, List.nodup_singleton _, fun a ha b hb hab => ?_⟩
    obtain ⟨other, hother, rfl⟩ := List.mem_map.mp ha
    have hb' : b = descriptor := List.mem_singleton.mp hb
    exact hnone other hother (hab.trans hb')
  · have hnil : [newShape descriptor].flatMap regions = [] := rfl
    rw [allRegions, hheld, List.flatMap_append, hnil, append_nil, allRegions]

theorem Steady.push (hheld : held pool'.storage = held pool.storage ++ [newShape descriptor])
    (hrest : pool' = { pool with storage := pool'.storage }) : Steady pool pool' := by
  refine ⟨?_, hrest, fun i d hd => ?_⟩
  · funext i o
    rw [busyAt, busyAt, hheld]
    split
    · rfl
    · by_cases hi : i - 1 < (held pool.storage).length
      · rw [List.getElem?_append_left hi]
      · rw [List.getElem?_append_right (Nat.not_lt.mp hi), List.getElem?_eq_none (Nat.not_lt.mp hi), bind_none]
        -- the new shape has no slot
        cases i - 1 - (held pool.storage).length with
        | zero => rfl
        | succ k => rfl
  · rw [descriptorAt] at hd ⊢
    split at hd
    · cases hd
    · rename_i hi
      have hlt : i - 1 < (held pool.storage).length := by
        by_contra hge
        rw [List.getElem?_eq_none (Nat.not_lt.mp hge)] at hd
        cases hd
      rw [if_neg hi, hheld, List.getElem?_append_left hlt]
      exact hd

theorem credit_push (hheld : held pool'.storage = held pool.storage ++ [newShape descriptor]) (d : Descriptor) :
    creditAt pool' d = creditAt pool d ∧ availableAt pool' d = availableAt pool d := by
  rw [creditAt, creditAt, availableAt, availableAt, shapeAt, shapeAt, hheld, List.find?_append]
  cases hfind : (held pool.storage).find? fun shape => shape.descriptor = d with
  | some other => exact ⟨rfl, rfl⟩
  | none =>
    rw [none_or, List.find?_singleton]
    split <;> exact ⟨rfl, rfl⟩

end Push

/-- **A shape is registered**, or found. -/
theorem register_spec {prepared : Prepared V} (h : StorageOk target pool frees prepared.bytes)
    (descriptor : Descriptor) :
    ∃ reply pool' prepared' frees', register target pool descriptor prepared = some (reply, pool', prepared') ∧
      StorageOk target pool' frees' prepared'.bytes ∧ Steady pool pool' ∧
      (∀ d, creditAt pool' d = creditAt pool d ∧ availableAt pool' d = availableAt pool d) ∧
      ∀ position, reply = .ok (position + 1) →
        ∃ shape, (held pool'.storage)[position]? = some shape ∧ shape.descriptor = descriptor := by
  rw [register]
  rcases find_spec pool descriptor with ⟨hzero, hnone⟩ | ⟨pos, shape, hpos, hget, hd⟩
  · rw [if_neg (by rw [hzero]; decide)]
    split
    · exact ⟨_, pool, prepared, frees, rfl, h, .refl pool, fun d => ⟨rfl, rfl⟩, fun position e => by cases e⟩
    · rename_i hlayout
      obtain ⟨hheld, hready⟩ := reserveBuffer_spec target pool.storage prepared.shapes
      rcases hreply : reserveBuffer target pool.storage prepared.shapes with ⟨reply, storage, prepshapes⟩
      rw [hreply] at hheld hready
      have hsame : StorageOk target { pool with storage := storage } frees prepared.bytes :=
        h.of_perm (by rw [hheld]; exact h.shapes) (by rw [hheld]; exact h.distinct)
          (by rw [allRegions, allRegions, hheld])
      have hsteady : Steady pool { pool with storage := storage } := Steady.of_held hheld rfl
      have hcredit : ∀ d, creditAt { pool with storage := storage } d = creditAt pool d ∧
        availableAt { pool with storage := storage } d = availableAt pool d := by
        intro d
        rw [creditAt, creditAt, availableAt, availableAt, shapeAt, shapeAt, hheld]
        exact ⟨rfl, rfl⟩
      simp only
      split
      · exact ⟨_, _, _, frees, rfl, hsame, hsteady, hcredit, fun position e => by cases e⟩
      · exact ⟨_, _, _, frees, rfl, hsame, hsteady, hcredit, fun position e => by cases e⟩
      · obtain ⟨buffer, hbuffer, hroom⟩ := hready rfl
        have hbuffer' : storage = some buffer := hbuffer
        subst hbuffer'
        obtain ⟨buffer', epush, hitems, -, -⟩ := RawBuffer.initializeSpare_eq hroom (newShape descriptor)
        have hheld' : buffer.items = held pool.storage := hheld
        rw [hheld'] at hitems
        have epush' : buffer.initializeSpare ⟨descriptor, none, 0, 0, 0, 0⟩ = some buffer' := epush
        simp only [epush', some_bind]
        refine ⟨_, { pool with storage := some buffer' }, _, frees ++ [[]], rfl,
          h.push hitems (by simpa using hlayout) hnone, .push hitems rfl, credit_push hitems, fun position e => ?_⟩
        have hlen : buffer'.items.length = position + 1 := Except.ok.inj e
        rw [hitems, List.length_append, List.length_singleton, Nat.add_right_cancel_iff] at hlen
        refine ⟨newShape descriptor, ?_, rfl⟩
        show buffer'.items[position]? = _
        rw [hitems, ← hlen, List.getElem?_concat_length]
  · rw [if_pos (by rw [hpos]; exact Nat.succ_ne_zero pos), hpos]
    refine ⟨_, pool, prepared, frees, rfl, h, .refl pool, fun d => ⟨rfl, rfl⟩, fun position e => ?_⟩
    cases e
    exact ⟨shape, hget, hd⟩

/-- **A shape grows**, or is left as it is. -/
theorem growShape_spec {prepared : Prepared V} {pos : Nat} (h : StorageOk target pool frees prepared.bytes)
    (hi : (held pool.storage)[pos]? = some shape) (count : Nat) :
    ∃ reply shape' prepared' frees', reserveSlots target shape count prepared = some (reply, shape', prepared') ∧
      StorageOk target (storeShape pool pos shape') frees' prepared'.bytes ∧
      Steady pool (storeShape pool pos shape') ∧ shape'.descriptor = shape.descriptor ∧
      shape'.credits = shape.credits ∧ shape.available ≤ shape'.available ∧
      (reply = .ok true → count ≤ shape'.available) := by
  obtain ⟨free, hfree, hok⟩ := agree_get h.shapes hi
  obtain ⟨reply, shape', prepared', fresh, e, hok', hgrown, hready⟩ := reserveSlots_spec hok count prepared
  have hheld := held_storeShape pool pos shape'
  refine ⟨reply, shape', prepared', _, e, h.update hi hheld hok' hgrown.descriptor hgrown.regions,
    ⟨busyAt_grown hi hheld hgrown.slots, rfl, fun i d hd => ?_⟩, hgrown.descriptor, hgrown.credits, ?_, fun hr => ?_⟩
  · rw [descriptorAt_set hi hheld hgrown.descriptor]
    exact hd
  · rw [hok.length_eq, hok'.length_eq, List.length_append]
    exact Nat.le_add_left _ _
  · rw [hok'.length_eq]
    exact hready hr

/-! ## 5. Leases -/

/-- What a function that writes one slot does, seen from outside. -/
structure Wrote (pool pool' : ReportPool V) (i o : Nat) (entry : Option Slot) : Prop where
  busy : busyAt pool' = setBusy (busyAt pool) i o entry
  descriptors : ∀ i, descriptorAt pool' i = descriptorAt pool i
  credits : ∀ d, creditAt pool' d = creditAt pool d

section Lease

variable {lease : Lease} {pos ordinal : Nat}

section

variable (h : StorageOk target pool frees bytes)
include h

/-- A slot of a well-formed storage has an address. -/
theorem StorageOk.address_ne_zero (hi : (held pool.storage)[pos]? = some shape)
    (h0 : ordinal ≠ 0) (hentry : (slots shape)[ordinal - 1]? = some entry) : entry.address ≠ 0 := by
  obtain ⟨free, -, hok⟩ := agree_get h.shapes hi
  obtain ⟨k, slab, hslab, -, hcell⟩ := hok.located h0 hentry
  obtain ⟨-, hle, -⟩ := (hok.slabs slab (mem_of_getElem? hslab)).entry_inside hcell
  have hregion : slab.backing ∈ allRegions pool := List.mem_flatMap.mpr
    ⟨shape, mem_of_getElem? hi, List.mem_map_of_mem (mem_of_getElem? hslab)⟩
  have hne := h.nonnull _ (List.mem_append_left _ hregion)
  omega

theorem credit_set {frees' : List (List Nat)}
    (h' : StorageOk target pool' frees' bytes') (hi : (held pool.storage)[pos]? = some shape)
    (hheld : held pool'.storage = (held pool.storage).set pos shape')
    (hdescriptor : shape'.descriptor = shape.descriptor) (hcredits : shape'.credits = shape.credits) (d : Descriptor) :
    creditAt pool' d = creditAt pool d := by
  rw [creditAt, creditAt, h.shapeAt_update h' hi hheld hdescriptor]
  split
  · rename_i hd
    rw [hd, h.shapeAt_eq hi, map_some, map_some, hcredits]
  · rfl

theorem available_set {frees' : List (List Nat)}
    (h' : StorageOk target pool' frees' bytes') (hi : (held pool.storage)[pos]? = some shape)
    (hheld : held pool'.storage = (held pool.storage).set pos shape')
    (hdescriptor : shape'.descriptor = shape.descriptor) (d : Descriptor) :
    availableAt pool' d = if d = shape.descriptor then shape'.available else availableAt pool d := by
  rw [availableAt, availableAt, h.shapeAt_update h' hi hheld hdescriptor]
  split
  · rfl
  · rfl

/-- **A lease is reserved**: the first free slot of the shape comes into use under a new epoch. -/
theorem reserveLease_spec (hi : (held pool.storage)[pos]? = some shape)
    (hepoch : pool.nextEpoch ≠ u64Max) (havailable : 0 < shape.available) :
    ∃ ordinal address pool' frees', reserveLease target pool (pos + 1) =
      some (⟨target.identity, pos + 1, ordinal, pool.nextEpoch, address⟩, pool') ∧
      StorageOk target pool' frees' bytes ∧ ordinal ≠ 0 ∧ address ≠ 0 ∧ busyAt pool (pos + 1) ordinal = none ∧
      Wrote pool pool' (pos + 1) ordinal (some ⟨pool.nextEpoch, .reserved, address⟩) ∧
    pool' = { pool with storage := pool'.storage, nextEpoch := pool.nextEpoch + 1 } ∧
    ∀ d, availableAt pool' d = if d = shape.descriptor then shape.available - 1 else availableAt pool d := by
  obtain ⟨free, hfree, hok⟩ := agree_get h.shapes hi
  cases free with
  | nil =>
    rw [hok.length_eq] at havailable
    exact absurd havailable (Nat.lt_irrefl 0)
  | cons ordinal free =>
    obtain ⟨h0, entry, hentry, hisfree⟩ := (hok.mem_iff ordinal).mp List.mem_cons_self
    have hlt := (List.getElem_of_getElem? hentry).1
    rw [hok.total_eq] at hlt
    have hhead : shape.free = ordinal := hok.head_eq
    have hslot : slot shape ordinal = some entry := by rw [hok.slot_eq h0 (by omega), hentry]
    have haddress : ({ entry with epoch := pool.nextEpoch, state := .reserved } : Slot).address = entry.address := rfl
    obtain ⟨hstate, hok'⟩ := hok.reserve hentry haddress rfl
    obtain ⟨-, hslots, hregions, -⟩ := hok.store h0 hentry haddress
    have hheld : held (storeShape pool pos { storeSlot shape ordinal
      { entry with epoch := pool.nextEpoch, state := .reserved } with
      free := free.headD 0, available := shape.available - 1 }).storage = (held pool.storage).set pos _ :=
      held_storeShape pool pos _
    have hstored := h.update hi hheld hok' rfl (congrArg (fun rs => rs ++ bytes.toList) hregions)
    have hstored' : StorageOk target { storeShape pool pos { storeSlot shape ordinal
      { entry with epoch := pool.nextEpoch, state := .reserved } with
      free := free.headD 0, available := shape.available - 1 } with nextEpoch := pool.nextEpoch + 1 }
      (frees.set pos free) bytes := hstored.congr rfl
    refine ⟨ordinal, entry.address, _, _, ?_, hstored', h0, h.address_ne_zero hi h0 hentry, ?_, ⟨?_, ?_, ?_⟩, rfl, ?_⟩
    · have hshapes := shapes_of_held hi
      have hle : ¬ (pos + 1 = 0 ∨ (held pool.storage).length < pos + 1) := by
        have := (List.getElem_of_getElem? hi).1
        omega
      simp only [reserveLease, if_neg hepoch, hshapes, some_bind, if_neg hle,
        Nat.add_sub_cancel, hi, hhead, if_neg h0, hslot, hstate, checkedSub_eq (show 1 ≤ shape.available from havailable)]
    · cases hb : busyAt pool (pos + 1) ordinal with
      | none => rfl
      | some other =>
        obtain ⟨-, -, other', hother, hcell, hbusy⟩ := busyAt_eq_some.mp hb
        rw [Nat.add_sub_cancel, hi] at hother
        cases hother
        rw [hentry] at hcell
        cases hcell
        rw [hisfree] at hbusy
        cases hbusy
    · exact busyAt_written hi h0 hentry hheld hslots
    · exact descriptorAt_set hi hheld rfl
    · exact credit_set h hstored' hi hheld rfl rfl
    · exact available_set h hstored' hi hheld rfl

/-- Where a lease is returned, there was an epoch and a free slot for it. -/
theorem reserveLease_some {r : Lease × ReportPool V}
    (e : reserveLease target pool i = some r) : ∃ pos shape, i = pos + 1 ∧ (held pool.storage)[pos]? = some shape ∧
      pool.nextEpoch ≠ u64Max ∧ 0 < shape.available := by
  rw [reserveLease] at e
  split at e
  · cases e
  · rename_i hepoch
    obtain ⟨values, hvalues, e⟩ := bind_eq_some_iff.mp e
    split at e
    · cases e
    · obtain ⟨shape, hshape, e⟩ := bind_eq_some_iff.mp e
      split at e
      · cases e
      · rename_i hhead
        have hget : (held pool.storage)[i - 1]? = some shape := by
          rw [shapes] at hvalues
          cases hs : pool.storage with
          | none => rw [hs] at hvalues; cases hvalues
          | some buffer =>
            rw [hs] at hvalues
            cases hvalues
            exact hshape
        obtain ⟨free, -, hok⟩ := agree_get h.shapes hget
        refine ⟨i - 1, shape, by omega, hget, hepoch, ?_⟩
        rw [hok.length_eq]
        rw [hok.head_eq] at hhead
        exact List.length_pos_of_ne_nil fun hnil => hhead (by rw [hnil]; rfl)

end

/-- A lease that is in force: its fields are those of a slot in use. -/
def Live (target : Target) (pool : ReportPool V) (lease : Lease) : Prop :=
  lease.domain = target.identity ∧ ∃ entry, busyAt pool lease.shape lease.slot = some entry ∧
    entry.epoch = lease.epoch ∧ entry.address = lease.address

/-- The slot of a lease in force. -/
structure LeasedAt (target : Target) (pool : ReportPool V) (lease : Lease) (shape : Shape) (entry : Slot) : Prop where
  domain : lease.domain = target.identity
  shape_ne : lease.shape ≠ 0
  slot_ne : lease.slot ≠ 0
  held : (held pool.storage)[lease.shape - 1]? = some shape
  cell : (slots shape)[lease.slot - 1]? = some entry
  busy : entry.state.isFree = false
  epoch : entry.epoch = lease.epoch
  address : entry.address = lease.address

theorem LeasedAt.busyAt_eq (h : LeasedAt target pool lease shape entry) :
    busyAt pool lease.shape lease.slot = some entry :=
  busyAt_eq_some.mpr ⟨h.shape_ne, h.slot_ne, shape, h.held, h.cell, h.busy⟩

theorem LeasedAt.live (h : LeasedAt target pool lease shape entry) : Live target pool lease :=
  ⟨h.domain, entry, h.busyAt_eq, h.epoch, h.address⟩

/-- **A lease is looked up**: it finds the slot it is in force for, and nothing else. -/
theorem leased_spec (h : StorageOk target pool frees bytes) (lease : Lease) :
    (∃ shape entry, leased target pool lease = some (some (shape, entry)) ∧ LeasedAt target pool lease shape entry) ∨
      leased target pool lease = some none ∧ ¬ Live target pool lease := by
  rw [leased]
  cases hstorage : pool.storage with
  | none =>
    refine .inr ⟨by rw [shapes, hstorage]; rfl, ?_⟩
    rintro ⟨-, entry, hbusy, -⟩
    obtain ⟨-, -, shape, hshape, -⟩ := busyAt_eq_some.mp hbusy
    rw [hstorage] at hshape
    cases hshape
  | some buffer =>
    have hshapes : shapes pool = some (held pool.storage) := by rw [shapes, hstorage]; rfl
    rw [hshapes]
    simp only
    split
    · rename_i hout
      refine .inr ⟨rfl, ?_⟩
      rintro ⟨hdomain, entry, hbusy, -⟩
      obtain ⟨hshape0, hslot0, shape, hshape, -⟩ := busyAt_eq_some.mp hbusy
      have := (List.getElem_of_getElem? hshape).1
      rcases hout with hout | hout | hout | hout
      · exact hout hdomain
      · exact hshape0 hout
      · exact hslot0 hout
      · omega
    · rename_i hin
      simp only [not_or, not_not] at hin
      obtain ⟨hdomain, hshape0, hslot0, hlen⟩ := hin
      have hlt : lease.shape - 1 < (held pool.storage).length := by omega
      obtain ⟨shape, hshape⟩ : ∃ shape, (held pool.storage)[lease.shape - 1]? = some shape :=
        ⟨_, List.getElem?_eq_getElem hlt⟩
      obtain ⟨free, -, hok⟩ := agree_get h.shapes hshape
      rw [hshape, some_bind]
      split
      · refine .inr ⟨rfl, ?_⟩
        rintro ⟨-, entry, hbusy, -⟩
        obtain ⟨-, -, shape', hshape', hcell, -⟩ := busyAt_eq_some.mp hbusy
        rw [hshape] at hshape'
        cases hshape'
        have := (List.getElem_of_getElem? hcell).1
        rw [hok.total_eq] at this
        omega
      · rename_i htotal
        obtain ⟨entry, hslot, hcell⟩ := hok.slot_some hslot0 (Nat.not_lt.mp htotal)
        rw [hslot, some_bind]
        split
        · rename_i hmatch
          simp only [Bool.and_eq_true, Bool.not_eq_true', beq_iff_eq] at hmatch
          exact .inl ⟨shape, entry, rfl, hdomain, hshape0, hslot0, hshape, hcell, hmatch.1.1, hmatch.1.2, hmatch.2⟩
        · rename_i hmatch
          refine .inr ⟨rfl, ?_⟩
          rintro ⟨-, entry', hbusy, hepoch, haddress⟩
          obtain ⟨-, -, shape', hshape', hcell', hfree⟩ := busyAt_eq_some.mp hbusy
          rw [hshape] at hshape'
          cases hshape'
          rw [hcell] at hcell'
          cases hcell'
          exact hmatch (by rw [hfree, hepoch, haddress]; simp)

/-- **The state of a leased slot changes.** -/
theorem storeLeased_spec (h : StorageOk target pool frees bytes) (hlease : LeasedAt target pool lease shape entry)
    {state : State} (hstate : state.isFree = false) :
  ∃ frees', StorageOk target (storeLeased pool lease shape { entry with state := state }) frees' bytes ∧
    Wrote pool (storeLeased pool lease shape { entry with state := state }) lease.shape lease.slot
      (some { entry with state := state }) ∧
    ∀ d, availableAt (storeLeased pool lease shape { entry with state := state }) d = availableAt pool d := by
  obtain ⟨free, hfree, hok⟩ := agree_get h.shapes hlease.held
  have haddress : ({ entry with state := state } : Slot).address = entry.address := rfl
  have hok' := hok.alter hlease.slot_ne hlease.cell hlease.busy haddress hstate
  obtain ⟨-, hslots, hregions, -⟩ := hok.store hlease.slot_ne hlease.cell haddress
  have hheld : held (storeLeased pool lease shape { entry with state := state }).storage =
    (held pool.storage).set (lease.shape - 1) (storeSlot shape lease.slot { entry with state := state }) :=
    held_storeShape pool _ _
  have hstored := h.update hlease.held hheld hok' rfl (congrArg (fun rs => rs ++ bytes.toList) hregions)
  have hsucc : lease.shape - 1 + 1 = lease.shape := Nat.succ_pred hlease.shape_ne
  refine ⟨_, hstored, ⟨?_, descriptorAt_set hlease.held hheld rfl, credit_set h hstored hlease.held hheld rfl rfl⟩,
    fun d => ?_⟩
  · have hwritten := busyAt_written hlease.held hlease.slot_ne hlease.cell hheld hslots
    rw [hsucc, hstate] at hwritten
    exact hwritten
  · rw [available_set h hstored hlease.held hheld rfl]
    split
    · rename_i hd
      rw [hd, availableAt, h.shapeAt_eq hlease.held]
      rfl
    · rfl

/-- **A lease is retired**: its slot is free again. -/
theorem releaseValue_spec (h : StorageOk target pool frees bytes) (lease : Lease) :
    (∃ shape entry pool' frees', LeasedAt target pool lease shape entry ∧
       releaseValue target pool lease = some (true, pool') ∧ StorageOk target pool' frees' bytes ∧
     Wrote pool pool' lease.shape lease.slot none ∧ pool' = { pool with storage := pool'.storage } ∧
     ∀ d, availableAt pool' d = if d = shape.descriptor then shape.available + 1 else availableAt pool d) ∨
    ¬ Live target pool lease ∧ releaseValue target pool lease = some (false, pool) := by
  rcases leased_spec h lease with ⟨shape, entry, e, hlease⟩ | ⟨e, hnot⟩
  · obtain ⟨free, hfree, hok⟩ := agree_get h.shapes hlease.held
    have haddress : ({ entry with state := .free shape.free } : Slot).address = entry.address := rfl
    have hok' := hok.release hlease.slot_ne hlease.cell hlease.busy
    obtain ⟨-, hslots, hregions, -⟩ := hok.store hlease.slot_ne hlease.cell haddress
    have hheld : held (storeShape pool (lease.shape - 1) { storeSlot shape lease.slot
      { entry with state := .free shape.free } with
      free := lease.slot, available := shape.available + 1 }).storage =
      (held pool.storage).set (lease.shape - 1) _ := held_storeShape pool _ _
    have hstored := h.update hlease.held hheld hok' rfl (congrArg (fun rs => rs ++ bytes.toList) hregions)
    have hsucc : lease.shape - 1 + 1 = lease.shape := Nat.succ_pred hlease.shape_ne
    refine .inl ⟨shape, entry, _, _, hlease, ?_, hstored, ⟨?_, descriptorAt_set hlease.held hheld rfl,
      credit_set h hstored hlease.held hheld rfl rfl⟩, rfl, available_set h hstored hlease.held hheld rfl⟩
    · rw [releaseValue, e]
      rfl
    · have hwritten := busyAt_written hlease.held hlease.slot_ne hlease.cell hheld hslots
      rw [hsucc] at hwritten
      exact hwritten
  · exact .inr ⟨hnot, by rw [releaseValue, e]; rfl⟩

end Lease

end Bray.Pool
