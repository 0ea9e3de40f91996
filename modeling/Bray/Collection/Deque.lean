/-
  File:      Bray/Collection/Deque.lean
  Subject:   THE DOUBLE-ENDED QUEUE (std/collection/deque.bray) over a ring of slots, and the list it refines.

  `Holds deque values` reads the ring by logical index: the slot of index `i` holds the `i`th value, and nothing where
  there is none. `ringIndex` is one-to-one below the capacity, so that each operation is followed index by index.
-/
import Bray.Channel.State
import Bray.Collection.Memory
import Bray.Lib.Run

namespace Bray.Collection

open Bray.Lib List
open Bray.Channel (ringIndex)

variable {T : Type}

/-! ## 1. The index of a ring -/

section Ring

variable {head capacity i j : Nat}

section

variable (hhead : head < capacity)
include hhead

theorem ringIndex_lt (hi : i < capacity) : ringIndex head capacity i < capacity := by
  unfold ringIndex
  split <;> omega

theorem ringIndex_inj (hi : i < capacity) (hj : j < capacity)
    (h : ringIndex head capacity i = ringIndex head capacity j) : i = j := by
  unfold ringIndex at h
  split at h <;> split at h <;> omega

/-- Every slot has a logical index. -/
theorem exists_ringIndex (hj : j < capacity) : ∃ i < capacity, ringIndex head capacity i = j := by
  unfold ringIndex
  by_cases wrapped : j < head
  · exact ⟨j + (capacity - head), by omega, by rw [if_neg (by omega)]; omega⟩
  · exact ⟨j - head, by omega, by rw [if_pos (by omega)]; omega⟩

theorem ringIndex_zero : ringIndex head capacity 0 = head := by
  unfold ringIndex
  rw [if_pos (by omega), Nat.add_zero]

/-- The ring one slot further on. -/
theorem ringIndex_succ (hi : i + 1 < capacity) :
    ringIndex (if head + 1 = capacity then 0 else head + 1) capacity i = ringIndex head capacity (i + 1) := by
  unfold ringIndex
  split <;> split <;> split <;> omega

end

end Ring

/-! ## 2. The operations -/

inductive CapacityGrowth where
  | amortized
  | exact

/-- `growth_capacity` -/
def capacityFor (usizeMax length capacity additional : Nat) : CapacityGrowth → Except MemoryLayoutError Nat
  | .amortized => growthCapacity usizeMax length capacity additional
  | .exact => if additional > usizeMax - length then .error .sizeOverflow else .ok (length + additional)

structure Deque (T : Type) where
  /-- A buffer of nullable slots. -/
  storage : List (Option T)
  head : Nat
  count : Nat

namespace Deque

variable (target : Target)

/-- `nullable_buffer` -/
def nullableBuffer (capacity : Nat) : Except MemoryLayoutError (List (Option T)) := do
  rawBuffer target.first capacity
  .ok (List.replicate capacity none)

def construct (capacity : Nat) : Except MemoryLayoutError (Deque T) := do
  let storage ← nullableBuffer target capacity
  .ok ⟨storage, 0, 0⟩

def capacity (deque : Deque T) : Nat := deque.storage.length

/-- `borrow_deque_element` -/
def borrow (deque : Deque T) (logicalIndex : Nat) : Except Panic T :=
  Slot.get deque.storage (ringIndex deque.head deque.capacity logicalIndex)

/-- `index`; nothing where its assertion fails. -/
def index (deque : Deque T) (selector : Nat) : Except Panic (Option T) :=
  if selector < deque.count then some <$> deque.borrow selector else .ok none

/-- The loop of `reallocate_deque`: so many values are still to be moved, the next one is `moved`. -/
def moveLoop (head : Nat) : Nat → Nat → List (Option T) → List (Option T) → Except Panic (List (Option T))
  | 0, _, _, replacement => .ok replacement
  | turns + 1, moved, storage, replacement => do
    let (value, storage) ← Slot.take storage (ringIndex head storage.length moved)
    if moved < replacement.length then
      moveLoop head turns (moved + 1) storage (replacement.set moved (some value))
    else .error .outOfRange

/-- `reallocate_deque` -/
def reallocate (deque : Deque T) (newCapacity : Nat) : Except Panic (Deque T × Except MemoryLayoutError Unit) :=
  match nullableBuffer target newCapacity with
  | .error e => .ok (deque, .error e)
  | .ok replacement => do
    let storage ← moveLoop deque.head deque.count 0 deque.storage replacement
    .ok (⟨storage, 0, deque.count⟩, .ok ())

/-- `reserve_deque` -/
def reserveFor (deque : Deque T) (additional : Nat) (growth : CapacityGrowth) :
  Except Panic (Deque T × Except MemoryLayoutError Unit) :=
  if additional ≤ deque.capacity - deque.count then .ok (deque, .ok ())
  else match capacityFor target.usizeMax deque.count deque.capacity additional growth with
    | .error e => .ok (deque, .error e)
    | .ok replacement => deque.reallocate target replacement

def reserve (deque : Deque T) (additional : Nat) := deque.reserveFor target additional .amortized

def reserveExact (deque : Deque T) (additional : Nat) := deque.reserveFor target additional .exact

def shrinkToFit (deque : Deque T) : Except Panic (Deque T × Except MemoryLayoutError Unit) :=
  if deque.count = deque.capacity then .ok (deque, .ok ()) else deque.reallocate target deque.count

def pushFront (deque : Deque T) (value : T) : Except Panic (Deque T × Except MemoryLayoutError Unit) := do
  let (deque, reserved) ← deque.reserve target 1
  match reserved with
  | .error e => .ok (deque, .error e)
  | .ok () => do
    let head := if deque.head = 0 then deque.capacity - 1 else deque.head - 1
    let storage ← Slot.write deque.storage head value
    .ok (⟨storage, head, deque.count + 1⟩, .ok ())

def pushBack (deque : Deque T) (value : T) : Except Panic (Deque T × Except MemoryLayoutError Unit) := do
  let (deque, reserved) ← deque.reserve target 1
  match reserved with
  | .error e => .ok (deque, .error e)
  | .ok () => do
    let storage ← Slot.write deque.storage (ringIndex deque.head deque.capacity deque.count) value
    .ok ({ deque with storage := storage, count := deque.count + 1 }, .ok ())

/-- `take_deque_front` -/
def takeFront (deque : Deque T) : Except Panic (Deque T × T) := do
  let (value, storage) ← Slot.take deque.storage deque.head
  let head := if deque.head + 1 = storage.length then 0 else deque.head + 1
  .ok (⟨storage, if deque.count - 1 = 0 then 0 else head, deque.count - 1⟩, value)

/-- `take_deque_back` -/
def takeBack (deque : Deque T) : Except Panic (Deque T × T) := do
  let (value, storage) ← Slot.take deque.storage (ringIndex deque.head deque.capacity (deque.count - 1))
  .ok (⟨storage, if deque.count - 1 = 0 then 0 else deque.head, deque.count - 1⟩, value)

def popFront (deque : Deque T) : Except Panic (Deque T × Option T) :=
  if deque.count = 0 then .ok (deque, none)
  else do
    let (deque, value) ← deque.takeFront
    .ok (deque, some value)

def popBack (deque : Deque T) : Except Panic (Deque T × Option T) :=
  if deque.count = 0 then .ok (deque, none)
  else do
    let (deque, value) ← deque.takeBack
    .ok (deque, some value)

/-- The loop of `clear`, so many turns. -/
def clearLoop : Nat → Deque T → Except Panic (Deque T)
  | 0, deque => .ok deque
  | turns + 1, deque => do
    let (deque, _) ← deque.takeBack
    clearLoop turns deque

def clear (deque : Deque T) : Except Panic (Deque T) := clearLoop deque.count deque

/-! ## 3. What a deque holds -/

/-- **The values in the order of the ring**: the slot of a logical index holds the value of that index, a slot behind
  the last value holds none. -/
structure Holds (deque : Deque T) (values : List T) : Prop where
  head : deque.head < deque.storage.length ∨ deque.head = 0 ∧ deque.storage.length = 0
  count : deque.count = values.length
  fits : values.length ≤ deque.storage.length
  slot : ∀ i < deque.storage.length, deque.storage[ringIndex deque.head deque.storage.length i]? = some values[i]?

variable {target} {deque : Deque T} {values : List T} {value : T}

theorem Holds.slot_value (h : Holds deque values) {i : Nat} (hi : i < values.length) :
    deque.storage[ringIndex deque.head deque.storage.length i]? = some (some values[i]) := by
  rw [h.slot i (Nat.lt_of_lt_of_le hi h.fits), getElem?_eq_getElem hi]

theorem Holds.head_lt (h : Holds deque values) (some_ : 0 < deque.storage.length) :
    deque.head < deque.storage.length := by
  rcases h.head with lt | ⟨-, none_⟩ <;> omega

/-- The slot of an index after another one was written. -/
theorem getElem?_set_ringIndex {storage : List (Option T)} {head i j : Nat} (hhead : head < storage.length)
    (hi : i < storage.length) (hj : j < storage.length) (slot : Option T) :
    (storage.set (ringIndex head storage.length j) slot)[ringIndex head storage.length i]? =
      if i = j then some slot else storage[ringIndex head storage.length i]? := by
  split
  · rename_i same
    rw [same, getElem?_set_self (ringIndex_lt hhead hj)]
  · rename_i other
    exact getElem?_set_ne fun same => other (ringIndex_inj hhead hj hi same).symm

theorem head_zero (capacity : Nat) : 0 < capacity ∨ 0 = 0 ∧ capacity = 0 :=
  capacity.eq_zero_or_pos.elim (fun none_ => .inr ⟨rfl, none_⟩) .inl

theorem holds_front (values : List T) (room : Nat) :
  Holds ⟨values.map some ++ List.replicate room none, 0, values.length⟩ values where
  head := head_zero _
  count := rfl
  fits := by
    simp only [length_append, length_map]
    omega
  slot := fun i hi => by
    rw [ringIndex, if_pos (by omega), Nat.zero_add]
    by_cases inside : i < values.length
    · rw [getElem?_append_left (by simpa using inside), getElem?_map, getElem?_eq_getElem inside]
      rfl
    · simp only [length_append, length_map, length_replicate] at hi
      rw [getElem?_append_right (by simpa using inside), getElem?_eq_none (Nat.le_of_not_lt inside),
        length_map, getElem?_replicate_of_lt (by omega)]

/-- An empty deque may have its head anywhere. -/
theorem Holds.reset (h : Holds deque []) : Holds { deque with head := 0 } [] where
  head := head_zero _
  count := h.count
  fits := h.fits
  slot := fun i hi => by
    have positive := Nat.zero_lt_of_lt hi
    obtain ⟨j, hj, at_⟩ := exists_ringIndex (h.head_lt positive) (ringIndex_lt positive hi)
    have slot := h.slot j hj
    rw [at_] at slot
    exact slot

theorem Holds.borrow (h : Holds deque values) {i : Nat} (hi : i < values.length) :
  deque.borrow i = .ok values[i] := Slot.get_eq (h.slot_value hi)

/-- The loop brings the values to the front of the new buffer. -/
theorem moveLoop_eq {head turns moved : Nat} {storage replacement : List (Option T)}
    (hhead : head < storage.length ∨ turns = 0) (hcount : moved + turns = values.length)
    (hfits : values.length ≤ storage.length) (hroom : values.length ≤ replacement.length)
    (slot : ∀ i, moved ≤ i → (hi : i < values.length) →
      storage[ringIndex head storage.length i]? = some (some values[i])) :
    moveLoop head turns moved storage replacement =
      .ok (replacement.take moved ++ (values.drop moved).map some ++ replacement.drop values.length) := by
  induction turns generalizing moved storage replacement with
  | zero =>
    rw [moveLoop, drop_of_length_le (by omega), map_nil, append_nil, show values.length = moved by omega,
      take_append_drop]
  | succ turns ih =>
    have hmoved : moved < values.length := by omega
    have hhead : head < storage.length := by omega
    rw [moveLoop, Slot.take_eq (slot moved (Nat.le_refl _) hmoved), ok_bind]
    simp only
    rw [if_pos (by omega), @ih (moved + 1) _ _ (by simp; omega) (by omega) (by simpa using hfits) (by simpa using hroom)]
    · rw [take_add_one, getElem?_set_self (by omega), take_set_of_le (Nat.le_refl _),
      drop_set_of_lt (by omega), drop_eq_getElem_cons hmoved, map_cons, Option.toList_some]
      simp
    · intro i hle hi
      rw [length_set, getElem?_set_ringIndex hhead (by omega) (by omega), if_neg (by omega)]
      exact slot i (by omega) hi

theorem nullableBuffer_eq {capacity : Nat} {storage : List (Option T)}
    (h : nullableBuffer target capacity = .ok storage) : storage = List.replicate capacity none := by
  unfold nullableBuffer at h
  cases fits : rawBuffer target.first capacity with
  | error e => rw [fits] at h; cases h
  | ok u => rw [fits] at h; cases h; rfl

/-! ## 4. What an operation does -/

/-- **A reallocation keeps the values**, or the deque as it was. -/
theorem Holds.reallocate (h : Holds deque values) {newCapacity : Nat} (room : values.length ≤ newCapacity) :
    (∃ e, deque.reallocate target newCapacity = .ok (deque, .error e)) ∨
    ∃ deque', deque.reallocate target newCapacity = .ok (deque', .ok ()) ∧ Holds deque' values ∧
      deque'.storage.length = newCapacity := by
  rw [Deque.reallocate]
  cases allocated : (nullableBuffer target newCapacity : Except _ (List (Option T))) with
  | error e => exact .inl ⟨e, rfl⟩
  | ok replacement =>
    obtain rfl := nullableBuffer_eq allocated
    have hcount := h.count
    have hhead : deque.head < deque.storage.length ∨ deque.count = 0 := by
      have := h.fits
      rcases h.head with lt | ⟨-, none_⟩ <;> omega
    have moved := moveLoop_eq hhead (show 0 + deque.count = values.length by omega) h.fits
      (show values.length ≤ (List.replicate newCapacity none).length by rwa [length_replicate])
      fun i _ hi => h.slot_value hi
    simp only
    rw [moved, hcount, take_zero, nil_append, drop_zero, drop_replicate]
    refine .inr ⟨_, rfl, holds_front values _, ?_⟩
    simp only [length_append, length_map, length_replicate]
    omega

theorem capacityFor_ge {usizeMax length capacity additional new : Nat} {growth : CapacityGrowth}
    (h : capacityFor usizeMax length capacity additional growth = .ok new) (more : capacity < length + additional) :
    length + additional ≤ new := by
  cases growth with
  | amortized => exact (growthCapacity_ge h more).1
  | exact =>
    rw [capacityFor] at h
    split at h
    · cases h
    · cases h
      exact Nat.le_refl _

/-- **Room is made**, or the deque is as it was. -/
theorem Holds.reserveFor (h : Holds deque values) (additional : Nat) (growth : CapacityGrowth) :
    (∃ e, deque.reserveFor target additional growth = .ok (deque, .error e)) ∨
    ∃ deque', deque.reserveFor target additional growth = .ok (deque', .ok ()) ∧ Holds deque' values ∧
      values.length + additional ≤ deque'.storage.length := by
  have hcount := h.count
  have hfits := h.fits
  rw [Deque.reserveFor, capacity]
  split
  · exact .inr ⟨deque, rfl, h, by omega⟩
  · cases grown : capacityFor target.usizeMax deque.count deque.storage.length additional growth with
    | error e => exact .inl ⟨e, rfl⟩
    | ok new =>
      have large := capacityFor_ge grown (by omega)
      rcases @Holds.reallocate _ target _ _ h new (by omega) with failed | ⟨deque', e, h', hcap⟩
      · exact .inl failed
      · exact .inr ⟨deque', e, h', by omega⟩

theorem Holds.shrinkToFit (h : Holds deque values) : (∃ e, deque.shrinkToFit target = .ok (deque, .error e)) ∨
    ∃ deque', deque.shrinkToFit target = .ok (deque', .ok ()) ∧ Holds deque' values := by
  rw [Deque.shrinkToFit]
  split
  · exact .inr ⟨deque, rfl, h⟩
  · rcases @Holds.reallocate _ target _ _ h _ (Nat.le_of_eq h.count.symm) with failed | ⟨deque', e, h', -⟩
    · exact .inl failed
    · exact .inr ⟨deque', e, h'⟩

/-- A value is written behind the last one. -/
theorem Holds.write_back (h : Holds deque values) (room : values.length < deque.storage.length) (value : T) :
    ∃ storage, Slot.write deque.storage (ringIndex deque.head deque.storage.length deque.count) value = .ok storage ∧
      Holds ⟨storage, deque.head, deque.count + 1⟩ (values ++ [value]) := by
  have hhead := h.head_lt (by omega)
  have free := h.slot deque.count (by rw [h.count]; exact room)
  rw [h.count, getElem?_eq_none (Nat.le_refl _)] at free
  rw [h.count]
  refine ⟨_, Slot.write_eq free, .inl (by simpa using hhead), by simp, by simpa using Nat.succ_le_of_lt room,
    fun i hi => ?_⟩
  rw [length_set] at hi
  simp only [length_set]
  rw [getElem?_set_ringIndex hhead hi room]
  split
  · rename_i last
    rw [last, getElem?_concat_length]
  · rw [h.slot i hi, getElem?_append]
    split
    · rfl
    · rw [getElem?_eq_none (by omega), getElem?_eq_none (by simp; omega)]

/-- The slot before the head is the last one of the ring. -/
theorem ringIndex_pred {head capacity i : Nat} (hhead : head < capacity) (hi : i < capacity) :
    ringIndex (if head = 0 then capacity - 1 else head - 1) capacity i =
      ringIndex head capacity (if i = 0 then capacity - 1 else i - 1) := by
  unfold ringIndex
  split <;> split <;> split <;> split <;> omega

/-- A value is written before the first one. -/
theorem Holds.write_front (h : Holds deque values) (room : values.length < deque.storage.length) (value : T) :
    ∃ storage, Slot.write deque.storage
      (if deque.head = 0 then deque.storage.length - 1 else deque.head - 1) value = .ok storage ∧
      Holds ⟨storage, if deque.head = 0 then deque.storage.length - 1 else deque.head - 1, deque.count + 1⟩
        (value :: values) := by
  have hhead := h.head_lt (by omega)
  generalize hnew : (if deque.head = 0 then deque.storage.length - 1 else deque.head - 1) = head
  have hhead' : head < deque.storage.length := by
    rw [← hnew]
    split <;> omega
  have pred {i : Nat} (hi : i < deque.storage.length) := ringIndex_pred hhead hi
  rw [hnew] at pred
  have before := pred (i := 0) (by omega)
  rw [ringIndex_zero hhead', if_pos rfl] at before
  have free := h.slot (deque.storage.length - 1) (by omega)
  rw [← before, @List.getElem?_eq_none _ values _ (by omega)] at free
  refine ⟨_, Slot.write_eq free, .inl (by simpa using hhead'), by simp [h.count],
    by simpa using Nat.succ_le_of_lt room, fun i hi => ?_⟩
  rw [length_set] at hi
  simp only [length_set]
  rw [pred hi, before, getElem?_set_ringIndex hhead (by split <;> omega) (by omega)]
  cases i with
  | zero => simp
  | succ i =>
    rw [if_neg (by simp; omega), if_neg (by omega)]
    exact h.slot i (by omega)

theorem Holds.takeFront (h : Holds deque (value :: values)) :
    ∃ deque', deque.takeFront = .ok (deque', value) ∧ Holds deque' values := by
  have hfits := h.fits
  rw [length_cons] at hfits
  have hhead := h.head_lt (by omega)
  have at_head := ringIndex_zero hhead
  have first := h.slot_value (i := 0) (by simp)
  rw [at_head] at first
  have taken : Holds ⟨deque.storage.set deque.head none,
    if deque.head + 1 = deque.storage.length then 0 else deque.head + 1, deque.count - 1⟩ values := by
    refine ⟨.inl ?_, by simp [h.count], by simp; omega, fun i hi => ?_⟩
    · simp only [length_set]
      split <;> omega
    · rw [length_set] at hi
      simp only [length_set]
      by_cases last : i + 1 < deque.storage.length
      · have set := getElem?_set_ringIndex hhead last (Nat.zero_lt_of_lt hi) none
        rw [at_head, if_neg (by omega)] at set
        rw [ringIndex_succ hhead last, set]
        exact h.slot (i + 1) last
      · -- the slot that was the head is the last one now
        have wrapped : ringIndex (if deque.head + 1 = deque.storage.length then 0 else deque.head + 1)
          deque.storage.length i = deque.head := by
          unfold ringIndex
          split <;> split <;> omega
        rw [wrapped, getElem?_set_self hhead, getElem?_eq_none (by omega)]
  rw [Deque.takeFront, Slot.take_eq first, ok_bind]
  refine ⟨_, rfl, ?_⟩
  simp only [length_set]
  split
  · rename_i none_
    obtain rfl := eq_nil_of_length_eq_zero (taken.count.symm.trans none_)
    exact taken.reset
  · exact taken

theorem Holds.takeBack (h : Holds deque (values ++ [value])) :
    ∃ deque', deque.takeBack = .ok (deque', value) ∧ Holds deque' values := by
  have hfits := h.fits
  have hcount := h.count
  rw [length_append, length_singleton] at hfits hcount
  have hhead := h.head_lt (by omega)
  have last := h.slot_value (i := values.length) (by simp)
  rw [getElem_concat_length (by rfl)] at last
  have taken : Holds ⟨deque.storage.set (ringIndex deque.head deque.storage.length values.length) none, deque.head,
    values.length⟩ values := by
    refine ⟨.inl (by simpa using hhead), rfl, by simp; omega, fun i hi => ?_⟩
    rw [length_set] at hi
    simp only [length_set]
    rw [getElem?_set_ringIndex hhead hi (by omega)]
    split
    · rename_i same
      rw [same, getElem?_eq_none (Nat.le_refl _)]
    · rw [h.slot i hi, getElem?_append]
      split
      · rfl
      · rw [getElem?_eq_none (by simp; omega), getElem?_eq_none (by omega)]
  rw [Deque.takeBack, hcount, Nat.add_sub_cancel, capacity, Slot.take_eq last, ok_bind]
  refine ⟨_, rfl, ?_⟩
  split
  · rename_i none_
    obtain rfl := eq_nil_of_length_eq_zero none_
    exact taken.reset
  · exact taken

theorem Holds.clearLoop (h : Holds deque values) :
    ∃ deque', clearLoop values.length deque = .ok deque' ∧ Holds deque' [] := by
  induction values using List.reverseRecOn generalizing deque with
  | nil => exact ⟨deque, rfl, h⟩
  | append_singleton values value ih =>
    obtain ⟨deque₁, e, h₁⟩ := h.takeBack
    obtain ⟨deque', e', h'⟩ := ih h₁
    exact ⟨deque', by rw [length_append, length_singleton, Deque.clearLoop, e, ok_bind]; exact e', h'⟩

end Deque

/-! ## 5. Every sequence of operations -/

inductive DequeOp (T : Type) where
  | index (selector : Nat)
  | reserve (additional : Nat)
  | reserveExact (additional : Nat)
  | shrinkToFit
  | pushFront (value : T)
  | pushBack (value : T)
  | popFront
  | popBack
  | clear

inductive DequeAnswer (T : Type) where
  | value (found : Option T)
  | result (result : Except MemoryLayoutError Unit)
  | done

/-- **What the operations answer of a list**, and what they leave of it: an operation that needs room may fail, and
then leaves the list as it is. -/
def DequeAnswers (values : List T) : DequeOp T → DequeAnswer T → List T → Prop
  | .index selector, answer, values' => answer = .value values[selector]? ∧ values' = values
  | .reserve _, answer, values' | .reserveExact _, answer, values' | .shrinkToFit, answer, values' => (∃ result, answer = .result result) ∧ values' = values
  | .pushFront value, answer, values' =>
    (∃ e, answer = .result (.error e)) ∧ values' = values ∨ answer = .result (.ok ()) ∧ values' = value :: values
  | .pushBack value, answer, values' =>
    (∃ e, answer = .result (.error e)) ∧ values' = values ∨ answer = .result (.ok ()) ∧ values' = values ++ [value]
  | .popFront, answer, values' => answer = .value values.head? ∧ values' = values.tail
  | .popBack, answer, values' => answer = .value values.getLast? ∧ values' = values.dropLast
  | .clear, answer, values' => answer = .done ∧ values' = []

namespace Deque

variable (target : Target)

/-- A changed deque and what its operation answers. -/
def answered {α : Type} (answer : α → DequeAnswer T) (outcome : Except Panic (Deque T × α)) :
  Except Panic (Deque T × DequeAnswer T) := do
  let (deque, a) ← outcome
  .ok (deque, answer a)

def step (deque : Deque T) : DequeOp T → Except Panic (Deque T × DequeAnswer T)
  | .index selector => do
    let found ← deque.index selector
    .ok (deque, .value found)
  | .reserve additional => answered .result (deque.reserve target additional)
  | .reserveExact additional => answered .result (deque.reserveExact target additional)
  | .shrinkToFit => answered .result (deque.shrinkToFit target)
  | .pushFront value => answered .result (deque.pushFront target value)
  | .pushBack value => answered .result (deque.pushBack target value)
  | .popFront => answered .value deque.popFront
  | .popBack => answered .value deque.popBack
  | .clear => do
    let deque ← deque.clear
    .ok (deque, .done)

variable {target} {deque : Deque T} {values : List T}

/-- **What a step does**: it does not panic, and answers as the list does. -/
theorem step_refines (deque : Deque T) (values : List T) (op : DequeOp T) (h : Holds deque values) :
    ∃ deque' answer values', deque.step target op = .ok (deque', answer) ∧ DequeAnswers values op answer values' ∧
      Holds deque' values' := by
  have hcount := h.count
  cases op with
  | index selector =>
    refine ⟨deque, .value values[selector]?, values, ?_, ⟨rfl, rfl⟩, h⟩
    rw [step, Deque.index, hcount]
    split
    · rename_i inside
      rw [h.borrow inside, getElem?_eq_getElem inside]
      rfl
    · rename_i outside
      rw [getElem?_eq_none (Nat.le_of_not_lt outside)]
      rfl
  | reserve additional =>
    rcases @Holds.reserveFor _ target _ _ h additional .amortized with ⟨e, failed⟩ | ⟨deque', made, h', -⟩
    · exact ⟨deque, _, values, by rw [step, reserve, failed]; rfl, ⟨⟨_, rfl⟩, rfl⟩, h⟩
    · exact ⟨deque', _, values, by rw [step, reserve, made]; rfl, ⟨⟨_, rfl⟩, rfl⟩, h'⟩
  | reserveExact additional =>
    rcases @Holds.reserveFor _ target _ _ h additional .exact with ⟨e, failed⟩ | ⟨deque', made, h', -⟩
    · exact ⟨deque, _, values, by rw [step, reserveExact, failed]; rfl, ⟨⟨_, rfl⟩, rfl⟩, h⟩
    · exact ⟨deque', _, values, by rw [step, reserveExact, made]; rfl, ⟨⟨_, rfl⟩, rfl⟩, h'⟩
  | shrinkToFit =>
    rcases @Holds.shrinkToFit _ target _ _ h with ⟨e, failed⟩ | ⟨deque', made, h'⟩
    · exact ⟨deque, _, values, by rw [step, failed]; rfl, ⟨⟨_, rfl⟩, rfl⟩, h⟩
    · exact ⟨deque', _, values, by rw [step, made]; rfl, ⟨⟨_, rfl⟩, rfl⟩, h'⟩
  | pushFront value =>
    rcases @Holds.reserveFor _ target _ _ h 1 .amortized with ⟨e, failed⟩ | ⟨deque₁, made, h₁, room⟩
    · exact ⟨deque, _, values, by rw [step, pushFront, reserve, failed]; rfl, .inl ⟨⟨_, rfl⟩, rfl⟩, h⟩
    · obtain ⟨storage, written, h'⟩ := h₁.write_front (by omega) value
      refine ⟨_, _, _, ?_, .inr ⟨rfl, rfl⟩, h'⟩
      rw [step, pushFront, reserve, made, ok_bind]
      simp only [Deque.capacity]
      rw [written]
      rfl
  | pushBack value =>
    rcases @Holds.reserveFor _ target _ _ h 1 .amortized with ⟨e, failed⟩ | ⟨deque₁, made, h₁, room⟩
    · exact ⟨deque, _, values, by rw [step, pushBack, reserve, failed]; rfl, .inl ⟨⟨_, rfl⟩, rfl⟩, h⟩
    · obtain ⟨storage, written, h'⟩ := h₁.write_back (by omega) value
      refine ⟨_, _, _, ?_, .inr ⟨rfl, rfl⟩, h'⟩
      rw [step, pushBack, reserve, made, ok_bind]
      simp only [Deque.capacity]
      rw [written]
      rfl
  | popFront =>
    cases values with
    | nil => exact ⟨deque, _, [], by rw [step, popFront, if_pos (by rw [hcount]; rfl)]; rfl, ⟨rfl, rfl⟩, h⟩
    | cons value values =>
      obtain ⟨deque', taken, h'⟩ := h.takeFront
      exact ⟨deque', _, values, by rw [step, popFront, if_neg (by rw [hcount]; simp), taken]; rfl, ⟨rfl, rfl⟩, h'⟩
  | popBack =>
    cases values using List.reverseRecOn with
    | nil => exact ⟨deque, _, [], by rw [step, popBack, if_pos (by rw [hcount]; rfl)]; rfl, ⟨rfl, rfl⟩, h⟩
    | append_singleton values value =>
      obtain ⟨deque', taken, h'⟩ := h.takeBack
      exact ⟨deque', _, values, by rw [step, popBack, if_neg (by rw [hcount]; simp), taken]; rfl,
        ⟨by simp, by simp⟩, h'⟩
  | clear =>
    obtain ⟨deque', cleared, h'⟩ := h.clearLoop
    exact ⟨deque', _, [], by rw [step, clear, hcount, cleared]; rfl, ⟨rfl, rfl⟩, h'⟩

end Deque

end Bray.Collection
