/-
  File:      Bray/Collection/Memory.lean
  Subject:   THE STORAGE OF THE COLLECTIONS (std/memory, std/collection/slot.bray): buffers of a fixed
    number of slots, the growth of a capacity, and what reading and writing a slot can panic
    with.

  Whether a buffer of a given capacity can be laid out is left to the target (`Target`): the source
  asks `layout_of`, which is declared extern.
-/
import Mathlib.Data.List.Basic
import Mathlib.Order.Lattice

namespace Bray.Collection

inductive MemoryLayoutError where
  | sizeOverflow
  | unsupportedAlignment

/-- What a collection operation can panic with. -/
inductive Panic where
  /-- An index outside a slice. -/
  | outOfRange
  /-- "collection slot is empty" -/
  | slotEmpty
  /-- "collection slot is occupied" -/
  | slotOccupied
  /-- "ordered-tree left rotation requires a right child" -/
  | leftRotation
  /-- "ordered-tree right rotation requires a left child" -/
  | rightRotation
  /-- "ordered-tree balance requires a left child" -/
  | leftBalance
  /-- "ordered-tree balance requires a right child" -/
  | rightBalance
  /-- "ordered-tree insertion requires reserved capacity" -/
  | noFreeSlot
  /-- "ordered-tree left insertion requires a parent" -/
  | leftInsertion
  /-- "ordered-tree right insertion requires a parent" -/
  | rightInsertion
  /-- "ordered-tree right subtree requires a minimum" -/
  | noMinimum
  /-- "hash-table item slot is occupied" -/
  | hashSlotOccupied
  /-- A remainder by zero. -/
  | divisionByZero
  /-- A loop that does not end. -/
  | endless

/-- The largest `usize`, and the layouts of the two buffers of a collection. -/
structure Target where
  usizeMax : Nat
  first : Nat → Except MemoryLayoutError Unit
  second : Nat → Except MemoryLayoutError Unit

/-- `RawBuffer`: no layout is asked for when the capacity is zero. -/
def rawBuffer (layout : Nat → Except MemoryLayoutError Unit) (capacity : Nat) :
  Except MemoryLayoutError Unit :=
  if capacity = 0 then .ok () else layout capacity

/-- The loop of `growth_capacity`; every turn at least adds one to the candidate. -/
def growthLoop (usizeMax required : Nat) : Nat → Nat → Nat
  | 0, candidate => candidate
  | turns + 1, candidate =>
    if candidate < required then
      if candidate > usizeMax - candidate then required
      else growthLoop usizeMax required turns (candidate + candidate)
    else candidate

/-- `growth_capacity`, amortized -/
def growthCapacity (usizeMax currentLength currentCapacity additional : Nat) :
  Except MemoryLayoutError Nat :=
  if additional > usizeMax - currentLength then .error .sizeOverflow
  else
    let required := currentLength + additional
    let candidate := if currentCapacity < 4 then 4 else currentCapacity
    .ok (growthLoop usizeMax required required candidate)

theorem growthLoop_ge {usizeMax required turns candidate : Nat} (hpos : 0 < candidate)
    (hturns : required ≤ candidate + turns) : required ≤ growthLoop usizeMax required turns candidate ∧
      (candidate ≤ growthLoop usizeMax required turns candidate ∨
        growthLoop usizeMax required turns candidate = required) := by
  induction turns generalizing candidate with
  | zero => exact ⟨hturns, .inl (Nat.le_refl _)⟩
  | succ turns ih =>
    rw [growthLoop]
    split
    · split
      · exact ⟨Nat.le_refl _, .inr rfl⟩
      · obtain ⟨h₁, h₂⟩ := @ih (candidate + candidate) (by omega) (by omega)
        refine ⟨h₁, ?_⟩
        rcases h₂ with h₂ | h₂
        · exact .inl (Nat.le_trans (Nat.le_add_left _ _) h₂)
        · exact .inr h₂
    · rename_i hge
      exact ⟨Nat.le_of_not_lt hge, .inl (Nat.le_refl _)⟩

/-- **A grown capacity holds what is asked for**, and is no smaller than before when more is asked for
  than there is. -/
theorem growthCapacity_ge {usizeMax length capacity additional new : Nat}
    (h : growthCapacity usizeMax length capacity additional = .ok new)
    (hmore : capacity < length + additional) : length + additional ≤ new ∧ capacity ≤ new := by
  unfold growthCapacity at h
  split at h
  · cases h
  · simp only [Except.ok.injEq] at h
    subst h
    have hpos : 0 < if capacity < 4 then 4 else capacity := by split <;> omega
    obtain ⟨h₁, -⟩ := @growthLoop_ge usizeMax (length + additional) (length + additional) _ hpos (by omega)
    exact ⟨h₁, Nat.le_trans (Nat.le_of_lt hmore) h₁⟩

variable {Item : Type}

@[simp] theorem ok_bind {ε α β : Type} (a : α) (f : α → Except ε β) :
  (Except.ok a >>= f) = f a := rfl

/-! ## Slots -/

namespace Slot

def isPresent (storage : List (Option Item)) (index : Nat) : Except Panic Bool :=
  match storage[index]? with
  | some slot => .ok slot.isSome
  | none => .error .outOfRange

def get (storage : List (Option Item)) (index : Nat) : Except Panic Item :=
  match storage[index]? with
  | some (some value) => .ok value
  | some none => .error .slotEmpty
  | none => .error .outOfRange

def write (storage : List (Option Item)) (index : Nat) (value : Item) :
  Except Panic (List (Option Item)) :=
  match storage[index]? with
  | some (some _) => .error .slotOccupied
  | some none => .ok (storage.set index (some value))
  | none => .error .outOfRange

def take (storage : List (Option Item)) (index : Nat) :
  Except Panic (Item × List (Option Item)) :=
  match storage[index]? with
  | some (some value) => .ok (value, storage.set index none)
  | some none => .error .slotEmpty
  | none => .error .outOfRange

/-- `get_mut`, and what is written through the reference; the item as it was. -/
def update (storage : List (Option Item)) (index : Nat) (f : Item → Item) :
  Except Panic (Item × List (Option Item)) :=
  match storage[index]? with
  | some (some value) => .ok (value, storage.set index (some (f value)))
  | some none => .error .slotEmpty
  | none => .error .outOfRange

def discard (storage : List (Option Item)) (index : Nat) : Except Panic (List (Option Item)) := do
  if ← isPresent storage index then
    let (_, storage) ← take storage index
    .ok storage
  else .ok storage

variable {storage : List (Option Item)} {index : Nat} {value : Item}

theorem get_eq (h : storage[index]? = some (some value)) : get storage index = .ok value := by
  rw [get, h]

theorem write_eq (h : storage[index]? = some none) :
    write storage index value = .ok (storage.set index (some value)) := by
  rw [write, h]

theorem take_eq (h : storage[index]? = some (some value)) :
    take storage index = .ok (value, storage.set index none) := by
  rw [take, h]

theorem update_eq (h : storage[index]? = some (some value)) (f : Item → Item) :
    update storage index f = .ok (value, storage.set index (some (f value))) := by
  rw [update, h]

theorem discard_eq (h : index < storage.length) :
    ∃ storage', discard storage index = .ok storage' ∧ storage'.length = storage.length ∧
      storage'[index]? = some none ∧ ∀ i, i ≠ index → storage'[i]? = storage[i]? := by
  have hget := List.getElem?_eq_getElem h
  rw [discard, isPresent, hget, ok_bind]
  cases hslot : storage[index] with
  | none =>
    rw [hslot] at hget
    exact ⟨storage, rfl, rfl, hget, fun _ _ => rfl⟩
  | some x =>
    rw [hslot] at hget
    refine ⟨storage.set index none, ?_, List.length_set, List.getElem?_set_self h, fun i hi => ?_⟩
    · rw [take_eq hget]
      rfl
    · exact List.getElem?_set_ne (Ne.symm hi)

end Slot

/-- What so many calls of `next` on a cursor over a list answer. -/
def yields {α : Type} : Nat → List α → List (Option α)
  | 0, _ => []
  | calls + 1, [] => none :: yields calls []
  | calls + 1, x :: xs => some x :: yields calls xs

end Bray.Collection
