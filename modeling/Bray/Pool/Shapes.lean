/-
  File:      Bray/Pool/Shapes.lean
  Subject:   WHAT A WELL-FORMED SHAPE IS, and what the slot operations make of it.

  * `SlabOk` -- the slots of a slab point into its region, aligned and one stride apart;
  * `ShapeOk` -- the slots are found by their ordinals, and the free ones are linked in the free list;
  * `ShapeOk.reserve`, `ShapeOk.release`, `ShapeOk.alter` -- a slot is taken from the free list, put
    back, or changes its state in between;
  * `reserveSlots_spec` -- growth adds free slots, and nothing else.
-/
import Bray.Lib.Align
import Bray.Pool.Chains
import Bray.Pool.Storage

namespace Bray.Pool

open Bray.Lib List

variable {V : Type} {target : Target} {shape : Shape} {free : List Nat} {ordinal : Nat} {entry entry' : Slot}

/-! ## 1. Regions -/

/-- The distance of two slots of a shape. -/
def strideOf (target : Target) (descriptor : Descriptor) : Nat :=
  (descriptor.bytes + (descriptor.align - 1)) &&& target.complement (descriptor.align - 1)

/-- The slots of a slab lie in its region. -/
def SlabOk (target : Target) (descriptor : Descriptor) (slab : StorageSlab) : Prop :=
  ∃ base, slab.backing.pointer ≤ base ∧ descriptor.align ∣ base ∧ descriptor.align ∣ strideOf target descriptor ∧
    descriptor.bytes ≤ strideOf target descriptor ∧
    base + slab.entries.length * strideOf target descriptor ≤ slab.backing.pointer + slab.backing.capacity ∧
    ∀ i entry, slab.entries[i]? = some entry → entry.address = base + i * strideOf target descriptor

namespace SlabOk

variable {descriptor : Descriptor} {slab : StorageSlab} {i j : Nat}

section

variable (h : SlabOk target descriptor slab) (hi : slab.entries[i]? = some entry)
include h hi

theorem entry_inside : descriptor.align ∣ entry.address ∧ slab.backing.pointer ≤ entry.address ∧
      entry.address + descriptor.bytes ≤ slab.backing.pointer + slab.backing.capacity := by
  obtain ⟨base, hbase, halign, hstride, hbytes, hend, haddress⟩ := h
  have hlt : i < slab.entries.length := (List.getElem_of_getElem? hi).1
  have hmul : (i + 1) * strideOf target descriptor ≤ slab.entries.length * strideOf target descriptor :=
    Nat.mul_le_mul_right _ hlt
  rw [Nat.add_mul, Nat.one_mul] at hmul
  rw [haddress i entry hi]
  exact ⟨Nat.dvd_add halign (Nat.dvd_trans hstride (Nat.dvd_mul_left _ _)), by omega, by omega⟩

/-- Two slots of a slab are apart. -/
theorem entries_apart (hj : slab.entries[j]? = some entry') (hne : i ≠ j) :
    entry.address + descriptor.bytes ≤ entry'.address ∨ entry'.address + descriptor.bytes ≤ entry.address := by
  obtain ⟨base, -, -, -, hbytes, -, haddress⟩ := h
  rw [haddress i entry hi, haddress j entry' hj]
  rcases Nat.lt_or_gt_of_ne hne with hlt | hlt
  · have hmul : (i + 1) * strideOf target descriptor ≤ j * strideOf target descriptor := Nat.mul_le_mul_right _ hlt
    rw [Nat.add_mul, Nat.one_mul] at hmul
    exact .inl (by omega)
  · have hmul : (j + 1) * strideOf target descriptor ≤ i * strideOf target descriptor := Nat.mul_le_mul_right _ hlt
    rw [Nat.add_mul, Nat.one_mul] at hmul
    exact .inr (by omega)

/-- The state of a slot may change, its address may not. -/
theorem set (haddress : entry'.address = entry.address) :
    SlabOk target descriptor { slab with entries := slab.entries.set i entry' } := by
  obtain ⟨base, hbase, halign, hstride, hbytes, hend, hentries⟩ := h
  refine ⟨base, hbase, halign, hstride, hbytes, ?_, fun j other hj => ?_⟩
  · rw [length_set]
    exact hend
  · have hget : (slab.entries.set i entry')[j]? = some other := hj
    by_cases hij : i = j
    · subst hij
      rw [List.getElem?_set_self (List.getElem_of_getElem? hi).1] at hget
      cases hget
      rw [haddress]
      exact hentries i entry hi
    · rw [getElem?_set_ne hij] at hget
      exact hentries j other hget

end

end SlabOk

/-! ## 2. Slots and the free list -/

/-- All slots, in the order of their ordinals. -/
def slots (shape : Shape) : List Slot := Slab.flat (held shape.slabs)

def regions (shape : Shape) : List (RawBuffer UInt8) := (held shape.slabs).map Slab.backing

def State.link : State → Nat
  | .free next => next
  | _ => 0

def freeNext (shape : Shape) (ordinal : Nat) : Nat :=
  if ordinal = 0 then 0 else ((slots shape)[ordinal - 1]?.map fun entry => entry.state.link).getD 0

/-- A well-formed shape with its free list. -/
structure ShapeOk (target : Target) (shape : Shape) (free : List Nat) : Prop where
  contiguous : Slab.Contiguous 1 (held shape.slabs)
  total_eq : (slots shape).length = shape.total
  total_le : shape.total ≤ target.storageMax
  layout : validLayout shape.descriptor = true
  slabs : ∀ slab ∈ held shape.slabs, SlabOk target shape.descriptor slab
  strung : Strung (freeNext shape) free 0
  nodup : free.Nodup
  mem_iff : ∀ i, i ∈ free ↔ i ≠ 0 ∧ ∃ entry, (slots shape)[i - 1]? = some entry ∧ entry.state.isFree = true
  head_eq : shape.free = free.headD 0
  length_eq : shape.available = free.length

namespace ShapeOk

section

variable (h : ShapeOk target shape free) (h0 : ordinal ≠ 0)
include h h0

theorem bounds (hle : ordinal ≤ shape.total) :
    1 ≤ ordinal ∧ ordinal < 1 + (Slab.flat (held shape.slabs)).length := by
  have := h.total_eq
  rw [slots] at this
  omega

theorem slot_eq (hle : ordinal ≤ shape.total) : slot shape ordinal = (slots shape)[ordinal - 1]? := by
  obtain ⟨hpos, hlt⟩ := h.bounds h0 hle
  have hget := h.contiguous.get_eq hpos hlt
  rw [slot]
  cases hs : shape.slabs with
  | none =>
    rw [hs, held_none, Slab.flat_nil, length_nil] at hlt
    omega
  | some storage =>
    rw [hs, held_some] at hget
    rw [some_bind, hget, slots, hs, held_some]

theorem slot_some (hle : ordinal ≤ shape.total) :
    ∃ entry, slot shape ordinal = some entry ∧ (slots shape)[ordinal - 1]? = some entry := by
  have hlt : ordinal - 1 < (slots shape).length := by
    rw [h.total_eq]
    omega
  rw [h.slot_eq h0 hle, getElem?_eq_getElem hlt]
  exact ⟨_, rfl, rfl⟩

/-- Where a slot lies. -/
theorem located (hentry : (slots shape)[ordinal - 1]? = some entry) :
    ∃ (k : Nat) (slab : StorageSlab), (held shape.slabs)[k]? = some slab ∧ slab.first ≤ ordinal ∧
      slab.entries[ordinal - slab.first]? = some entry := by
  have hlt := (List.getElem_of_getElem? hentry).1
  rw [h.total_eq] at hlt
  obtain ⟨hpos, hup⟩ := h.bounds h0 (by omega)
  obtain ⟨k, slab, -, hget, hfirst, hsame⟩ := h.contiguous.locate hpos hup
  exact ⟨k, slab, hget, hfirst, hsame.trans hentry⟩

/-- A slot that is written keeps its place and its address. -/
theorem store (hentry : (slots shape)[ordinal - 1]? = some entry) (haddress : entry'.address = entry.address) :
    Slab.Contiguous 1 (held (storeSlot shape ordinal entry').slabs) ∧
      slots (storeSlot shape ordinal entry') = (slots shape).set (ordinal - 1) entry' ∧
      regions (storeSlot shape ordinal entry') = regions shape ∧
      ∀ slab ∈ held (storeSlot shape ordinal entry').slabs, SlabOk target shape.descriptor slab := by
  have hlt := (List.getElem_of_getElem? hentry).1
  rw [h.total_eq] at hlt
  obtain ⟨hpos, hup⟩ := h.bounds h0 (by omega)
  have hheld : held (storeSlot shape ordinal entry').slabs = Slab.put (held shape.slabs) ordinal entry' := by
    rw [storeSlot]
    cases hs : shape.slabs with
    | none =>
      rw [hs, held_none, Slab.flat_nil, length_nil] at hup
      omega
    | some storage => rfl
  obtain ⟨k, slab, hget, hoffset, hposition, hput⟩ := h.contiguous.put_eq hpos hup entry'
  have hcell : slab.entries[ordinal - slab.first]? = some entry := by
    have hold : (Slab.flat (held shape.slabs))[ordinal - 1]? = some entry := hentry
    rw [Slab.flat_split hget, hposition, Slab.offset, getElem?_append_right (Nat.le_add_right _ _),
      Nat.add_sub_cancel_left, getElem?_append_left hoffset] at hold
    exact hold
  refine ⟨?_, ?_, ?_, fun other hother => ?_⟩
  · rw [hheld]
    exact h.contiguous.put_contiguous hpos hup entry'
  · rw [slots, hheld, h.contiguous.flat_put hpos hup]
    rfl
  · rw [regions, regions, hheld, hput, map_set]
    refine set_same ?_
    rw [getElem?_map, hget]
    rfl
  · rw [hheld, hput] at hother
    rcases mem_or_eq_of_mem_set hother with hmem | rfl
    · exact h.slabs other hmem
    · exact (h.slabs slab (mem_of_getElem? hget)).set hcell haddress

theorem freeNext_store_self
    (hentry : (slots shape)[ordinal - 1]? = some entry) (haddress : entry'.address = entry.address) :
    freeNext (storeSlot shape ordinal entry') ordinal = entry'.state.link := by
  rw [freeNext, if_neg h0, (h.store h0 hentry haddress).2.1,
    List.getElem?_set_self (List.getElem_of_getElem? hentry).1]
  rfl

theorem freeNext_store_ne
    (hentry : (slots shape)[ordinal - 1]? = some entry) (haddress : entry'.address = entry.address) {y : Nat}
    (hy : y ≠ ordinal) : freeNext (storeSlot shape ordinal entry') y = freeNext shape y := by
  rw [freeNext, freeNext]
  split
  · rfl
  · rw [(h.store h0 hentry haddress).2.1, getElem?_set_ne (by omega)]

theorem isFree_iff
    (hentry : (slots shape)[ordinal - 1]? = some entry) : entry.state.isFree = true ↔ ordinal ∈ free := by
  rw [h.mem_iff]
  constructor
  · intro hfree
    exact ⟨h0, entry, hentry, hfree⟩
  · rintro ⟨-, other, hother, hfree⟩
    rw [hentry] at hother
    cases hother
    exact hfree

/-- A slot is written, and the free list is what the new states make it. -/
theorem rewrite {free' : List Nat} {head available : Nat}
    (hentry : (slots shape)[ordinal - 1]? = some entry) (haddress : entry'.address = entry.address)
    (hstrung : Strung (freeNext (storeSlot shape ordinal entry')) free' 0) (hnodup : free'.Nodup)
    (hself : ordinal ∈ free' ↔ entry'.state.isFree = true) (hother : ∀ i, i ≠ ordinal → (i ∈ free' ↔ i ∈ free))
    (hhead : head = free'.headD 0) (hlength : available = free'.length) :
    ShapeOk target { storeSlot shape ordinal entry' with free := head, available := available } free' := by
  obtain ⟨hcontiguous, hslots, -, hslabs⟩ := h.store h0 hentry haddress
  have hlt := (List.getElem_of_getElem? hentry).1
  refine ⟨hcontiguous, ?_, h.total_le, h.layout, hslabs, hstrung, hnodup, fun i => ?_, hhead, hlength⟩
  · show (slots (storeSlot shape ordinal entry')).length = shape.total
    rw [hslots, length_set]
    exact h.total_eq
  · show i ∈ free' ↔ i ≠ 0 ∧ ∃ e, (slots (storeSlot shape ordinal entry'))[i - 1]? = some e ∧ _
    rw [hslots]
    by_cases hi : i = ordinal
    · subst hi
      rw [hself, List.getElem?_set_self hlt]
      exact ⟨fun hf => ⟨h0, entry', rfl, hf⟩, fun ⟨_, e, he, hf⟩ => by cases he; exact hf⟩
    · rw [hother i hi, h.mem_iff]
      refine and_congr_right fun hi0 => ?_
      rw [getElem?_set_ne (by omega)]

end

/-- **The first free slot is taken.** -/
theorem reserve (h : ShapeOk target shape (ordinal :: free)) (hentry : (slots shape)[ordinal - 1]? = some entry)
    (haddress : entry'.address = entry.address) (hbusy : entry'.state.isFree = false) :
    entry.state = .free (free.headD 0) ∧ ShapeOk target { storeSlot shape ordinal entry' with
      free := free.headD 0, available := shape.available - 1 } free := by
  have h0 : ordinal ≠ 0 := ((h.mem_iff ordinal).mp (.head _)).1
  obtain ⟨hnot, hnodup⟩ := nodup_cons.mp h.nodup
  have hfree : entry.state.isFree = true := (h.isFree_iff h0 hentry).mpr (.head _)
  have hlink : entry.state.link = free.headD 0 := by
    have hnext := h.strung.1
    rw [freeNext, if_neg h0, hentry] at hnext
    exact hnext
  constructor
  · cases hs : entry.state with
    | free next =>
      rw [hs] at hlink
      exact congrArg State.free hlink
    | reserved => rw [hs] at hfree; cases hfree
    | active => rw [hs] at hfree; cases hfree
    | inactive descriptor => rw [hs] at hfree; cases hfree
    | dispatched => rw [hs] at hfree; cases hfree
    | retained descriptor => rw [hs] at hfree; cases hfree
  · refine h.rewrite h0 hentry haddress ?_ hnodup ?_ (fun i hi => ?_) rfl ?_
    · refine h.strung.2.congr fun y hy => h.freeNext_store_ne h0 hentry haddress fun e => hnot (e ▸ hy)
    · rw [hbusy]
      exact ⟨fun hmem => absurd hmem hnot, fun hfalse => by cases hfalse⟩
    · rw [mem_cons]
      exact ⟨.inr, fun hmem => hmem.resolve_left hi⟩
    · rw [h.length_eq]
      rfl

/-- **A slot is put back** in front of the free list. -/
theorem release (h : ShapeOk target shape free) (h0 : ordinal ≠ 0)
    (hentry : (slots shape)[ordinal - 1]? = some entry) (hbusy : entry.state.isFree = false) :
  ShapeOk target { storeSlot shape ordinal { entry with state := .free shape.free } with
    free := ordinal, available := shape.available + 1 } (ordinal :: free) := by
  have hnot : ordinal ∉ free := fun hmem => by
    rw [(h.isFree_iff h0 hentry).mpr hmem] at hbusy
    cases hbusy
  have haddress : ({ entry with state := .free shape.free } : Slot).address = entry.address := rfl
  refine h.rewrite h0 hentry haddress ⟨?_, ?_⟩ (nodup_cons.mpr ⟨hnot, h.nodup⟩) ?_ (fun i hi => ?_) rfl ?_
  · rw [h.freeNext_store_self h0 hentry haddress]
    exact h.head_eq
  · exact h.strung.congr fun y hy => h.freeNext_store_ne h0 hentry haddress fun e => hnot (e ▸ hy)
  · exact ⟨fun _ => rfl, fun _ => (.head _)⟩
  · rw [mem_cons]
    exact ⟨fun hmem => hmem.resolve_left hi, .inr⟩
  · rw [h.length_eq]
    rfl

/-- **A slot in use changes its state.** -/
theorem alter (h : ShapeOk target shape free) (h0 : ordinal ≠ 0)
    (hentry : (slots shape)[ordinal - 1]? = some entry) (hbusy : entry.state.isFree = false)
    (haddress : entry'.address = entry.address) (hbusy' : entry'.state.isFree = false) :
    ShapeOk target (storeSlot shape ordinal entry') free := by
  have hnot : ordinal ∉ free := fun hmem => by
    rw [(h.isFree_iff h0 hentry).mpr hmem] at hbusy
    cases hbusy
  refine h.rewrite h0 hentry haddress ?_ h.nodup ?_ (fun i _ => Iff.rfl) h.head_eq h.length_eq
  · exact h.strung.congr fun y hy => h.freeNext_store_ne h0 hentry haddress fun e => hnot (e ▸ hy)
  · rw [hbusy']
    exact ⟨fun hmem => absurd hmem hnot, fun hfalse => by cases hfalse⟩

end ShapeOk

/-! ## 3. Growth -/

theorem align_eq {descriptor : Descriptor} (h : validLayout descriptor = true) : ∃ k, descriptor.align = 2 ^ k := by
  simp only [validLayout, Bool.and_eq_true, bne_iff_ne, ne_eq, beq_iff_eq] at h
  exact isPowerOfTwo_of_mask h.1 h.2

/-- A new slab lies in its region. -/
theorem slabOk_fresh {descriptor : Descriptor} {slab : StorageSlab} {n : Nat} (hlayout : validLayout descriptor = true)
    (hfits : descriptor.bytes + (descriptor.align - 1) < 2 ^ target.width) (hlength : slab.entries.length = n)
    (hregion : strideOf target descriptor * n + (descriptor.align - 1) + 1 ≤ slab.backing.capacity)
    (hentries : ∀ i entry, slab.entries[i]? = some entry → entry.address =
      alignedBase descriptor.align (descriptor.align - 1) slab.backing.pointer + i * strideOf target descriptor) :
    SlabOk target descriptor slab := by
  obtain ⟨k, hk⟩ := align_eq hlayout
  have hstride : strideOf target descriptor =
    (descriptor.bytes + (2 ^ k - 1)) &&& ((2 ^ target.width - 1) ^^^ (2 ^ k - 1)) := by
    rw [strideOf, hk]
    rfl
  rw [hk] at hfits
  refine ⟨alignedBase descriptor.align (descriptor.align - 1) slab.backing.pointer, Nat.le_add_right _ _, ?_, ?_, ?_,
    ?_, hentries⟩
  · rw [hk]
    exact alignUp_dvd _ k
  · rw [hstride, hk]
    exact roundUp_dvd hfits
  · rw [hstride]
    exact le_roundUp hfits
  · have hskip := alignUp_le slab.backing.pointer k
    rw [← hk] at hskip
    rw [hlength, alignedBase, Nat.mul_comm n]
    omega

/-- What a growth of a shape leaves as it was. A prepared region is still there, or in use. -/
structure Grown (shape shape' : Shape) (bytes bytes' : Option (RawBuffer UInt8)) : Prop where
  descriptor : shape'.descriptor = shape.descriptor
  credits : shape'.credits = shape.credits
  slots : ∃ fresh, slots shape' = slots shape ++ fresh ∧ ∀ entry ∈ fresh, entry.state.isFree = true
  regions : regions shape' ++ bytes'.toList = regions shape ++ bytes.toList

/-- **A slab of free slots is put behind the others.** -/
theorem installSlots_spec {index : RawBuffer StorageSlab} {n : Nat} {region : RawBuffer UInt8} {entries : RawBuffer Slot}
    (h : ShapeOk target shape free) (hindex : shape.slabs = some index) (hroom : index.items.length < index.capacity)
    (hfits : shape.descriptor.bytes + (shape.descriptor.align - 1) < 2 ^ target.width) (hpos : 0 < n)
    (hentries : n ≤ entries.capacity) (hempty : entries.items = [])
    (hregion : strideOf target shape.descriptor * n + (shape.descriptor.align - 1) + 1 ≤ region.capacity)
    (hlimit : shape.total + n ≤ target.storageMax) :
    ∃ shape', installSlots shape (shape.descriptor.align - 1) (strideOf target shape.descriptor) n region entries =
      some shape' ∧
      ShapeOk target shape' (freshHandles shape.total n ++ free) ∧ Grown shape shape' (some region) none := by
  have hspace : entries.items.length + n ≤ entries.capacity := by
    rw [hempty, length_nil, Nat.zero_add]
    exact hentries
  obtain ⟨slab, efill, hslab⟩ := fill_spec (freshSlot (alignedBase shape.descriptor.align (shape.descriptor.align - 1)
    region.pointer) (strideOf target shape.descriptor)) (shape.total + 1) shape.free 0 hspace
  rw [hempty, nil_append, Nat.add_zero] at hslab
  obtain ⟨index', eindex, hitems', -, -⟩ := RawBuffer.initializeSpare_eq hroom
    (⟨shape.total + 1, slab.items, region⟩ : StorageSlab)
  have hlen : slab.items.length = n := by rw [hslab, length_map, length_range]
  have hflat : Slab.flat index.items = slots shape := by rw [slots, hindex, held_some]
  have hflat' : Slab.flat index'.items = slots shape ++ slab.items := by rw [hitems', Slab.flat_concat, hflat]
  have hcell : ∀ i entry, slab.items[i]? = some entry → i < n ∧ entry = freshSlot (alignedBase shape.descriptor.align
    (shape.descriptor.align - 1) region.pointer) (strideOf target shape.descriptor)
    (headAt (shape.total + 1) shape.free i) i := by
    intro i entry hi
    have hin : i < n := hlen ▸ (List.getElem_of_getElem? hi).1
    rw [hslab, getElem?_map, getElem?_range hin, Option.map_some, Option.some.injEq, Nat.zero_add] at hi
    exact ⟨hin, hi.symm⟩
  have hfresh : ∀ entry ∈ slab.items, entry.state.isFree = true := by
    intro entry hmem
    obtain ⟨i, hi⟩ := mem_iff_getElem?.mp hmem
    rw [(hcell i entry hi).2]
    rfl
  have hhandle : ∀ i, i ∈ freshHandles shape.total n ↔ shape.total < i ∧ i ≤ shape.total + n := by
    intro i
    rw [freshHandles, mem_reverse, mem_range'_1]
    omega
  have hsmall : ∀ i ∈ free, i ≠ 0 ∧ i ≤ shape.total := by
    intro i hi
    obtain ⟨hi0, e, he, -⟩ := (h.mem_iff i).mp hi
    have hlt := (List.getElem_of_getElem? he).1
    rw [h.total_eq] at hlt
    exact ⟨hi0, by omega⟩
  refine ⟨{ shape with
    slabs := some index', free := headAt (shape.total + 1) shape.free n
    total := shape.total + n, available := shape.available + n }, ?_,
    ⟨?_, ?_, hlimit, h.layout, fun other hother => ?_, ?_, ?_, fun i => ?_, ?_, ?_⟩,
    ⟨rfl, rfl, ⟨slab.items, hflat', hfresh⟩, ?_⟩⟩
  · simp [installSlots, efill, hindex, eindex, some_bind, Nat.add_zero]
  · show Slab.Contiguous 1 index'.items
    rw [hitems']
    have hold := h.contiguous
    rw [hindex, held_some] at hold
    refine hold.append ?_ (ne_nil_of_length_pos (hlen ▸ hpos))
    rw [hflat, h.total_eq, Nat.add_comm]
  · show (Slab.flat index'.items).length = shape.total + n
    rw [hflat', length_append, h.total_eq, hlen]
  · have hmem : other ∈ index'.items := hother
    rw [hitems'] at hmem
    rcases mem_append.mp hmem with hmem | hmem
    · exact h.slabs other (by rw [hindex, held_some]; exact hmem)
    · rw [mem_singleton.mp hmem]
      refine slabOk_fresh h.layout hfits hlen hregion fun i entry hi => ?_
      rw [(hcell i entry hi).2]
      rfl
  · refine Strung.append_iff.mpr ⟨?_, ?_⟩
    · rw [← h.head_eq]
      refine strung_fresh fun k hk => ?_
      rw [freeNext, if_neg (by omega)]
      show ((Slab.flat index'.items)[shape.total + 1 + k - 1]?.map _).getD 0 = _
      have hpos' : shape.total + 1 + k - 1 = (slots shape).length + k := by
        rw [h.total_eq]
        omega
      rw [hflat', hpos', getElem?_append_right (Nat.le_add_right _ _), Nat.add_sub_cancel_left, hslab,
        getElem?_map, getElem?_range hk]
      rfl
    · refine h.strung.congr fun y hy => ?_
      rw [freeNext, freeNext, if_neg (hsmall y hy).1, if_neg (hsmall y hy).1]
      show ((Slab.flat index'.items)[y - 1]?.map _).getD 0 = _
      rw [hflat', getElem?_append_left (by rw [h.total_eq]; have := hsmall y hy; omega)]
  · refine nodup_append.mpr ⟨?_, h.nodup, fun a ha b hb hab => ?_⟩
    · exact nodup_reverse.mpr (nodup_range' 1)
    · have := (hhandle a).mp ha
      have := hsmall b hb
      omega
  · show i ∈ freshHandles shape.total n ++ free ↔
    i ≠ 0 ∧ ∃ e, (Slab.flat index'.items)[i - 1]? = some e ∧ e.state.isFree = true
    rw [mem_append, hhandle, hflat']
    by_cases hi : i - 1 < (slots shape).length
    · rw [getElem?_append_left hi, h.mem_iff]
      rw [h.total_eq] at hi
      exact ⟨fun hor => hor.resolve_left (by omega), .inr⟩
    · rw [getElem?_append_right (Nat.not_lt.mp hi)]
      rw [h.total_eq] at hi ⊢
      constructor
      · intro hor
        rcases hor with hor | hor
        · have hin : i - 1 - shape.total < slab.items.length := by omega
          exact ⟨by omega, _, getElem?_eq_getElem hin, hfresh _ (getElem_mem hin)⟩
        · have := hsmall i hor
          omega
      · rintro ⟨hi0, e, he, -⟩
        have := (List.getElem_of_getElem? he).1
        exact .inl (by omega)
  · rw [freshHandles, Strung.headD_append, headD_fresh, h.head_eq]
  · show shape.available + n = (freshHandles shape.total n ++ free).length
    rw [length_append, freshHandles, length_reverse, length_range', h.length_eq, Nat.add_comm]
  · show index'.items.map Slab.backing ++ [] = regions shape ++ [region]
    rw [hitems', append_nil, map_append, regions, hindex, held_some]
    rfl

theorem storageMax_lt (target : Target) : target.storageMax < 2 ^ target.width := by
  have hpos : 0 < 2 ^ target.width := Nat.two_pow_pos _
  have hle : target.storageMax ≤ target.usizeMax := Nat.shiftRight_le _ _
  rw [Target.usizeMax] at hle
  omega

theorem additionalSlots_ge (total maximum required : Nat) : required ≤ additionalSlots total maximum required := by
  unfold additionalSlots
  split <;> omega

/-- The table that holds the slabs is replaced by another with the same slabs. -/
theorem ShapeOk.reindex {slabs : Option (RawBuffer StorageSlab)} (h : ShapeOk target shape free)
    (hslabs : held slabs = held shape.slabs) (bytes : Option (RawBuffer UInt8)) :
    ShapeOk target { shape with slabs := slabs } free ∧ Grown shape { shape with slabs := slabs } bytes bytes := by
  have hslots : slots { shape with slabs := slabs } = slots shape := by rw [slots, slots, hslabs]
  have hnext : freeNext { shape with slabs := slabs } = freeNext shape := by
    funext y
    rw [freeNext, freeNext, hslots]
  refine ⟨⟨?_, ?_, h.total_le, h.layout, ?_, ?_, h.nodup, ?_, h.head_eq, h.length_eq⟩,
    ⟨rfl, rfl, ⟨[], ?_, fun _ hmem => nomatch hmem⟩, ?_⟩⟩
  · rw [hslabs]
    exact h.contiguous
  · rw [hslots]
    exact h.total_eq
  · rw [hslabs]
    exact h.slabs
  · rw [hnext]
    exact h.strung
  · rw [hslots]
    exact h.mem_iff
  · rw [hslots, append_nil]
  · rw [regions, regions, hslabs]

theorem growSlots_spec {n : Nat} (h : ShapeOk target shape free)
    (hfits : shape.descriptor.bytes + (shape.descriptor.align - 1) < 2 ^ target.width) (hpos : 0 < n)
    (hlimit : shape.total + n ≤ target.storageMax) (prepared : Prepared V) :
    ∃ reply shape' prepared' fresh, growSlots target shape (shape.descriptor.align - 1)
      (strideOf target shape.descriptor) n prepared = some (reply, shape', prepared') ∧
      ShapeOk target shape' (fresh ++ free) ∧ Grown shape shape' prepared.bytes prepared'.bytes ∧
      (reply = .ok true → free.length + n ≤ (fresh ++ free).length) := by
  obtain ⟨hheld, hready⟩ := reserveBuffer_spec target shape.slabs prepared.storageSlabs
  rw [growSlots]
  rcases hreply : reserveBuffer target shape.slabs prepared.storageSlabs with ⟨reply, slabs, storageSlabs⟩
  rw [hreply] at hheld hready
  obtain ⟨hok, hgrown⟩ := h.reindex hheld prepared.bytes
  simp only
  split
  · exact ⟨_, _, _, [], rfl, hok, hgrown, fun e => by cases e⟩
  · exact ⟨_, _, _, [], rfl, hok, hgrown, fun e => by cases e⟩
  · obtain ⟨index, hindex, hroom⟩ := hready rfl
    split
    · rename_i region entries hbytes hslots
      split
      · rename_i hspace
        obtain ⟨shape', einstall, hok', hgrown'⟩ := installSlots_spec hok hindex hroom hfits hpos hspace.2.1
          (eq_nil_of_length_eq_zero hspace.2.2.2) hspace.1 hlimit
        have einstall' : installSlots { shape with slabs := slabs } (shape.descriptor.align - 1)
          (strideOf target shape.descriptor) n region entries = some shape' := einstall
        rw [einstall', some_bind]
        refine ⟨_, shape', _, _, rfl, hok', ?_, fun _ => ?_⟩
        · obtain ⟨fresh, hfresh, hfree⟩ := hgrown'.slots
          refine ⟨hgrown'.descriptor, hgrown'.credits, ⟨fresh, ?_, hfree⟩, ?_⟩
          · rw [hfresh]
            exact congrArg (· ++ fresh) (by rw [slots, slots, hheld])
          · have hsame : regions { shape with slabs := slabs } = regions shape := by rw [regions, regions, hheld]
            have hbytes' : prepared.bytes = some region := hbytes
            rw [hbytes', ← hsame]
            exact hgrown'.regions
        · rw [length_append, freshHandles, length_reverse, length_range', Nat.add_comm]
      · exact ⟨_, _, _, [], rfl, hok, hgrown, fun e => by cases e⟩
    · exact ⟨_, _, _, [], rfl, hok, hgrown, fun e => by cases e⟩

/-- **A reservation of slots** never stops the process. It may put new slots in front of the free list,
  and where it is ready the free list is long enough. -/
theorem reserveSlots_spec (h : ShapeOk target shape free) (count : Nat) (prepared : Prepared V) :
    ∃ reply shape' prepared' fresh, reserveSlots target shape count prepared = some (reply, shape', prepared') ∧
      ShapeOk target shape' (fresh ++ free) ∧ Grown shape shape' prepared.bytes prepared'.bytes ∧
      (reply = .ok true → count ≤ (fresh ++ free).length) := by
  obtain ⟨hself, hgrown⟩ := h.reindex rfl prepared.bytes
  rw [reserveSlots]
  split
  · rename_i hcount
    exact ⟨_, shape, prepared, [], rfl, hself, hgrown, fun _ => h.length_eq ▸ hcount⟩
  · have halign : 1 ≤ shape.descriptor.align := by
      obtain ⟨k, hk⟩ := align_eq h.layout
      rw [hk]
      exact Nat.two_pow_pos k
    rw [checkedSub_eq halign, Option.bind_eq_bind, Option.bind_some]
    split
    · exact ⟨_, shape, prepared, [], rfl, hself, hgrown, fun e => by cases e⟩
    · have hfits : shape.descriptor.bytes + (shape.descriptor.align - 1) < 2 ^ target.width := by
        have := storageMax_lt target
        omega
      dsimp only
      split
      · exact ⟨_, shape, prepared, [], rfl, hself, hgrown, fun e => by cases e⟩
      · rw [checkedSub_eq h.total_le, Option.bind_some]
        split
        · exact ⟨_, shape, prepared, [], rfl, hself, hgrown, fun e => by cases e⟩
        · have hge := additionalSlots_ge shape.total target.storageMax (count - shape.available)
          have hpos : 0 < additionalSlots shape.total target.storageMax (count - shape.available) := by omega
          have hlimit : shape.total + additionalSlots shape.total target.storageMax (count - shape.available) ≤
            target.storageMax := by omega
          obtain ⟨reply, shape', prepared', fresh, egrow, hok, hgrown', hready⟩ :=
            growSlots_spec h hfits hpos hlimit prepared
          refine ⟨reply, shape', prepared', fresh, egrow, hok, hgrown', fun hreply => ?_⟩
          have hlength := h.length_eq
          have := hready hreply
          omega

end Bray.Pool
