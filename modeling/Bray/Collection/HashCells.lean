/-
  File:      Bray/Collection/HashCells.lean
  Subject:   THE CELLS OF A HASH TABLE: its two buffers are one list of cells, each empty or a hash with
    an item, and its operations are those of linear probing (Lib/Probe).

  `Table target table cells`: the buffers spell the cells, every cell is reached from its home, at most
  three quarters of the cells are occupied. No operation panics.
-/
import Bray.Collection.HashTable

namespace Bray.Collection

open Bray.Lib List Probe

/-! ## 1. Words -/

namespace HashTarget

variable (target : HashTarget)

theorem mask_eq : target.mask = 2 ^ target.bits - 1 := by
  rw [mask, target.usizeMax_eq, Nat.shiftRight_eq_div_pow, Nat.pow_succ]
  omega

theorem occupied_eq : target.occupied = 2 ^ target.bits := by
  rw [occupied, mask_eq, target.usizeMax_eq]
  refine Nat.eq_of_testBit_eq fun i => ?_
  by_cases h₁ : i < target.bits <;> by_cases h₂ : target.bits = i <;> simp_all <;> omega

theorem and_mask (x : Nat) : x &&& target.mask = x % 2 ^ target.bits := by
  rw [mask_eq, Nat.and_two_pow_sub_one_eq_mod]

theorem fingerprint_lt (hash : Nat) : target.fingerprint hash < 2 ^ target.bits := by
  rw [fingerprint, and_mask]
  exact Nat.mod_lt _ (Nat.two_pow_pos _)

/-- The word of an occupied bucket. -/
def encode (hash : Nat) : Nat := (hash &&& target.mask) ||| target.occupied

variable {target} {hash : Nat}

theorem encode_and_occupied : (target.encode hash &&& target.occupied) ≠ 0 := by
  rw [encode, occupied_eq]
  intro h
  have hbit := congrArg (Nat.testBit · target.bits) h
  simp [Nat.testBit_and, Nat.testBit_or, Nat.testBit_two_pow_self] at hbit

theorem encode_and_mask (h : hash < 2 ^ target.bits) : target.encode hash &&& target.mask = hash := by
  rw [encode, and_mask, and_mask, occupied_eq, Nat.or_mod_two_pow, Nat.mod_self, Nat.or_zero,
    Nat.mod_mod, Nat.mod_eq_of_lt h]

end HashTarget

variable {Item : Type}

/-! ## 2. Buffers and cells -/

/-- An empty cell, or a hash with an item. -/
abbrev Cells (Item : Type) := List (Option (Nat × Item))

/-- A word and a slot spell a cell. -/
def Spells (target : HashTarget) : Option (Nat × Item) → Nat → Option Item → Prop
  | none, w, slot => w = HashTable.empty ∧ slot = none
  | some (h, x), w, slot => w = target.encode h ∧ slot = some x ∧ h < 2 ^ target.bits

/-- **The buffers of a table spell its cells.** -/
structure Holds (target : HashTarget) (table : HashTable Item) (cells : Cells Item) : Prop where
  length_eq : table.buckets.length = cells.length
  items_length : table.items.length = cells.length
  spells : ∀ (i : Nat) (c : Option (Nat × Item)), cells[i]? = some c →
    ∃ w slot, table.buckets[i]? = some w ∧ table.items[i]? = some slot ∧ Spells target c w slot

namespace Holds

variable {target : HashTarget} {table : HashTable Item} {cells : Cells Item} {i h : Nat} {x : Item}

theorem empty (ht : Holds target table cells) (hi : cells[i]? = some none) :
    table.buckets[i]? = some HashTable.empty ∧ table.items[i]? = some none := by
  obtain ⟨w, slot, hw, hs, rfl, rfl⟩ := ht.spells i none hi
  exact ⟨hw, hs⟩

theorem filled (ht : Holds target table cells) (hi : cells[i]? = some (some (h, x))) :
    table.buckets[i]? = some (target.encode h) ∧ table.items[i]? = some (some x) ∧ h < 2 ^ target.bits := by
  obtain ⟨w, slot, hw, hs, rfl, rfl, hh⟩ := ht.spells i (some (h, x)) hi
  exact ⟨hw, hs, hh⟩

section

variable (ht : Holds target table cells)
include ht

theorem occupiedAt_empty (hi : cells[i]? = some none) :
    HashTable.occupiedAt target table.buckets i = .ok false := by
  rw [HashTable.occupiedAt, HashTable.word, (ht.empty hi).1]
  simp [HashTable.empty]

theorem occupiedAt_filled (hi : cells[i]? = some (some (h, x))) :
    HashTable.occupiedAt target table.buckets i = .ok true := by
  rw [HashTable.occupiedAt, HashTable.word, (ht.filled hi).1, ok_bind]
  have := @HashTarget.encode_and_occupied target h
  simp [this]

theorem hashAt_eq (hi : cells[i]? = some (some (h, x))) : HashTable.hashAt target table.buckets i = .ok h := by
  obtain ⟨hw, -, hlt⟩ := ht.filled hi
  rw [HashTable.hashAt, HashTable.word, hw, ok_bind, HashTarget.encode_and_mask hlt]

/-- One cell is written. -/
theorem set {c : Option (Nat × Item)} {w : Nat} {slot : Option Item}
    (count : Nat) (hi : i < cells.length) (hc : Spells target c w slot) :
    Holds target ⟨table.buckets.set i w, table.items.set i slot, count⟩ (cells.set i c) := by
  refine ⟨by simp [ht.length_eq], by simp [ht.items_length], fun j d hj => ?_⟩
  by_cases hij : i = j
  · subst hij
    rw [getElem?_set_self hi] at hj
    cases hj
    exact ⟨w, slot, getElem?_set_self (ht.length_eq ▸ hi), getElem?_set_self (ht.items_length ▸ hi), hc⟩
  · rw [getElem?_set_ne hij] at hj
    simp only [getElem?_set_ne hij]
    exact ht.spells j d hj

theorem write_eq (hi : cells[i]? = some none)
    (hh : h < 2 ^ target.bits) (x : Item) : ∃ table', HashTable.write target table x h i = .ok table' ∧
      Holds target table' (cells.set i (some (h, x))) ∧ table'.count = table.count := by
  have hlt := (List.getElem_of_getElem? hi).1
  refine ⟨_, ?_, ht.set table.count hlt ⟨rfl, rfl, hh⟩, rfl⟩
  rw [HashTable.write, ht.occupiedAt_empty hi, ok_bind]
  simp only [Bool.false_eq_true, if_false]
  rw [Slot.write_eq (ht.empty hi).2, ok_bind, HashTable.assign, if_pos (ht.length_eq ▸ hlt)]
  rfl

/-- An item is taken out of its cell. -/
theorem take_eq (hi : cells[i]? = some (some (h, x))) :
    ∃ table', table.take i = .ok (table', x) ∧ Holds target table' (cells.set i none) ∧
      table'.count = table.count := by
  have hlt := (List.getElem_of_getElem? hi).1
  refine ⟨_, ?_, ht.set table.count (c := none) hlt ⟨rfl, rfl⟩, rfl⟩
  rw [HashTable.take, Slot.take_eq (ht.filled hi).2.1, ok_bind]
  rw [HashTable.assign, if_pos (ht.length_eq ▸ hlt)]
  rfl

end

/-- An item is written over. -/
theorem update_eq (ht : Holds target table cells) (hi : cells[i]? = some (some (h, x))) (y : Item) :
    Holds target { table with items := table.items.set i (some y) } (cells.set i (some (h, y))) := by
  have hlt := (List.getElem_of_getElem? hi).1
  obtain ⟨hw, -, hh⟩ := ht.filled hi
  obtain ⟨hwl, hw⟩ := List.getElem_of_getElem? hw
  have hset := ht.set table.count (c := some (h, y)) hlt ⟨hw, rfl, hh⟩
  rwa [set_getElem_self] at hset

theorem replicate (n count : Nat) :
    Holds target (⟨List.replicate n HashTable.empty, List.replicate n none, count⟩ : HashTable Item)
      (List.replicate n none) := by
  refine ⟨by simp, by simp, fun i c hi => ?_⟩
  obtain ⟨hlt, rfl⟩ := List.getElem_of_getElem? hi
  rw [length_replicate] at hlt
  refine ⟨HashTable.empty, none, by simp [hlt], by simp [hlt], ?_⟩
  rw [getElem_replicate]
  exact ⟨rfl, rfl⟩

end Holds

/-- A cell of a table is empty or holds an item. -/
theorem cell_cases {cells : Cells Item} {i : Nat} (hi : i < cells.length) :
    cells[i]? = some none ∨ ∃ h x, cells[i]? = some (some (h, x)) := by
  rw [getElem?_eq_getElem hi]
  cases cells[i] with
  | none => exact .inl rfl
  | some b => exact .inr ⟨b.1, b.2, rfl⟩

/-! ## 3. The invariant -/

/-- **A hash table**: every item is reached from its home, and a quarter of the cells is empty. -/
structure Table (target : HashTarget) (table : HashTable Item) (cells : Cells Item) : Prop
  extends Holds target table cells where
  reached : Reached (fun b => b.1 % cells.length) cells
  count_eq : table.count = (stored cells).length
  load : table.count ≤ HashTable.bucketCapacity cells.length
  minimum : cells.length = 0 ∨ 8 ≤ cells.length

namespace Table

variable {target : HashTarget} {table : HashTable Item} {cells : Cells Item} {h : Nat} {x : Item}

/-- **At least one bucket is empty, if there are any.** -/
theorem exists_empty (ht : Table target table cells) (hpos : 0 < cells.length) :
    ∃ e : Nat, cells[e]? = some none := by
  refine Probe.exists_empty ?_
  have hload := ht.load
  have hmin := ht.minimum
  rw [ht.count_eq, HashTable.bucketCapacity] at hload
  omega

/-- An item is written over. -/
theorem update_eq {i : Nat} (ht : Table target table cells) (hi : cells[i]? = some (some (h, x))) (y : Item) :
    Table target { table with items := table.items.set i (some y) } (cells.set i (some (h, y))) := by
  have hlt := (List.getElem_of_getElem? hi).1
  have hlen : (cells.set i (some (h, y))).length = cells.length := length_set
  refine ⟨ht.toHolds.update_eq hi y, ?_, ?_, ?_, ?_⟩
  · rw [hlen]
    exact reached_set (b := (h, y)) ht.reached hlt (ht.reached i (h, x) hi)
  · rw [(stored_set_over hi).length_eq, length_cons]
    exact ht.count_eq.trans (stored_set_none hi).length_eq
  · rw [hlen]
    exact ht.load
  · rw [hlen]
    exact ht.minimum

end Table

/-! ## 4. Insertion -/

section Insert

variable {target : HashTarget} {table : HashTable Item} {cells : Cells Item} {h : Nat}

theorem bucketIndex_eq (hpos : 0 < cells.length) (hash : Nat) :
    HashTable.bucketIndex hash cells.length = .ok (hash % cells.length) :=
  if_neg (by omega)

/-- The loop stops at the first empty cell. -/
theorem insertLoop_eq {e i start turns : Nat} (ht : Holds target table cells) (item : Item)
    (hh : h < 2 ^ target.bits) (hs : start < cells.length) (he : cells[e]? = some none)
    (hi : i < cells.length) (hway : Way cells start i) (hturns : distance cells.length i e < turns) :
    ∃ table' k, HashTable.insertLoop target table item h turns i = .ok (table', k) ∧
      cells[k]? = some none ∧ Way cells start k ∧
      Holds target table' (cells.set k (some (h, item))) ∧ table'.count = table.count + 1 := by
  induction turns generalizing i with
  | zero => omega
  | succ turns ih =>
    rw [HashTable.insertLoop]
    rcases cell_cases hi with hempty | ⟨g, y, hfilled⟩
    · obtain ⟨table', e', ht', hcount⟩ := ht.write_eq hempty hh item
      refine ⟨{ table' with count := table'.count + 1 }, i, ?_, hempty, hway, ⟨ht'.1, ht'.2, ht'.3⟩,
        congrArg (· + 1) hcount⟩
      rw [ht.occupiedAt_empty hempty, ok_bind]
      simp only [Bool.false_eq_true, if_false]
      rw [e', ok_bind]
    · obtain ⟨hway', hne, hdist⟩ := hway.next hs ⟨(g, y), hfilled⟩ he
      obtain ⟨table', k, e', hk⟩ := ih (next_lt hi) hway' (by omega)
      refine ⟨table', k, ?_, hk⟩
      rw [ht.occupiedAt_filled hfilled, ok_bind]
      rw [ht.length_eq]
      exact e'

theorem insertAvailable_eq {e : Nat} (ht : Holds target table cells) (item : Item)
    (hh : h < 2 ^ target.bits) (he : cells[e]? = some none) :
    ∃ table' k, HashTable.insertAvailable target table item h = .ok (table', k) ∧
      cells[k]? = some none ∧ Way cells (h % cells.length) k ∧
      Holds target table' (cells.set k (some (h, item))) ∧ table'.count = table.count + 1 := by
  have hel := (List.getElem_of_getElem? he).1
  have hs : h % cells.length < cells.length := Nat.mod_lt _ (by omega)
  rw [HashTable.insertAvailable, ht.length_eq, bucketIndex_eq (by omega), ok_bind]
  refine insertLoop_eq ht item hh hs he hs (fun j _ hlt => ?_) (distance_lt hs hel)
  rw [distance_self] at hlt
  cases hlt

/-- **An item goes to the first empty cell after its home.** -/
theorem Table.insertAvailable_eq (ht : Table target table cells) (item : Item)
    (hh : h < 2 ^ target.bits) (hroom : table.count + 1 ≤ HashTable.bucketCapacity cells.length) :
    ∃ table' k, HashTable.insertAvailable target table item h = .ok (table', k) ∧
      cells[k]? = some none ∧ Table target table' (cells.set k (some (h, item))) := by
  have hpos : 0 < cells.length := by
    unfold HashTable.bucketCapacity at hroom
    omega
  obtain ⟨e, he⟩ := ht.exists_empty hpos
  obtain ⟨table', k, e', hk, hway, ht', hcount⟩ :=
    Collection.insertAvailable_eq ht.toHolds item hh he
  have hkl := (List.getElem_of_getElem? hk).1
  refine ⟨table', k, e', hk, ht', ?_, ?_, ?_, ?_⟩
  · have hr := reached_set (b := (h, item)) ht.reached hkl hway
    rwa [← length_set (i := k) (a := some (h, item))] at hr
  · rw [hcount, ht.count_eq, (stored_set_some hk).length_eq, length_cons]
  · rw [hcount, length_set]
    exact hroom
  · rw [length_set]
    exact ht.minimum

end Insert

/-! ## 5. Search -/

section Search

variable {target : HashTarget} {table : HashTable Item} {cells : Cells Item} {hash : Nat}

/-- No cell from one on to another, on the way from a home, has the hash. -/
def Missed (cells : Cells Item) (hash start i k : Nat) : Prop :=
  ∀ (j : Nat) (y : Item), distance cells.length start i ≤ distance cells.length start j →
    distance cells.length start j < distance cells.length start k →
    cells[j]? ≠ some (some (hash, y))

/-- Where a probe ends: at the next cell with the hash, or at an empty cell before it. -/
def Probed (cells : Cells Item) (hash start i : Nat) : Option Nat → Prop
  | some k => (∃ x, cells[k]? = some (some (hash, x))) ∧ Way cells start k ∧
    distance cells.length start i ≤ distance cells.length start k ∧
    Missed cells hash start i k
  | none => ∃ k : Nat, cells[k]? = some none ∧ Way cells start k ∧ Missed cells hash start i k

section

variable (ht : Holds target table cells)
include ht

theorem findHashLoop_eq {e i start left : Nat}
    (hs : start < cells.length) (he : cells[e]? = some none) (hi : i < cells.length)
    (hway : Way cells start i) (hleft : distance cells.length i e < left) :
    ∃ result, HashTable.findHashLoop target table.buckets hash left i = .ok result ∧
      Probed cells hash start i result := by
  induction left generalizing i with
  | zero => omega
  | succ left ih =>
    have hself : Missed cells hash start i i := fun j y h₁ h₂ => by omega
    rw [HashTable.findHashLoop]
    rcases cell_cases hi with hempty | ⟨g, y, hfilled⟩
    · refine ⟨none, ?_, i, hempty, hway, hself⟩
      rw [HashTable.word, (ht.empty hempty).1, ok_bind]
      simp [HashTable.empty]
    · obtain ⟨hw, -, hg⟩ := ht.filled hfilled
      have hocc := @HashTarget.encode_and_occupied target g
      rw [HashTable.word, hw, ok_bind, if_neg hocc, HashTarget.encode_and_mask hg]
      by_cases hgh : g = hash
      · subst hgh
        exact ⟨some i, if_pos rfl, ⟨y, hfilled⟩, hway, Nat.le_refl _, hself⟩
      · obtain ⟨hway', hne, hdist⟩ := hway.next hs ⟨(g, y), hfilled⟩ he
        obtain ⟨result, e', hres⟩ := ih (next_lt hi) hway' (by omega)
        refine ⟨result, ?_, ?_⟩
        · rw [if_neg hgh, ht.length_eq]
          exact e'
        · have hstep := distance_next hs hi hne
          have hmiss : ∀ k, Missed cells hash start (next cells.length i) k →
            Missed cells hash start i k := by
            intro k hk j z h₁ h₂
            rcases Nat.lt_or_eq_of_le h₁ with h₁ | h₁
            · exact hk j z (by omega) h₂
            · intro hj
              have hji := distance_inj hs hi (List.getElem_of_getElem? hj).1 h₁
              rw [← hji, hfilled] at hj
              cases hj
              exact hgh rfl
          cases result with
          | none =>
            obtain ⟨k, hk, hkway, hkmiss⟩ := hres
            exact ⟨k, hk, hkway, hmiss k hkmiss⟩
          | some k =>
            obtain ⟨hk, hkway, hle, hkmiss⟩ := hres
            exact ⟨hk, hkway, by omega, hmiss k hkmiss⟩

theorem findHash_none (hzero : cells.length = 0) (after : Option Nat) :
    HashTable.findHash target table after hash = .ok none :=
  if_pos (ht.length_eq.trans hzero)

/-- The first probe starts at the home. -/
theorem findHash_first {e : Nat} (he : cells[e]? = some none) :
    ∃ result, HashTable.findHash target table none hash = .ok result ∧
      Probed cells hash (hash % cells.length) (hash % cells.length) result := by
  have hel := (List.getElem_of_getElem? he).1
  have hs : hash % cells.length < cells.length := Nat.mod_lt _ (by omega)
  rw [HashTable.findHash, ht.length_eq, if_neg (by omega), HashTable.findStart, bucketIndex_eq (by omega), ok_bind]
  refine findHashLoop_eq ht hs he hs (fun j _ hlt => ?_) (distance_lt hs hel)
  rw [distance_self] at hlt
  cases hlt

/-- A later one starts after the cell the last one ended at. -/
theorem findHash_next {e p start : Nat} (he : cells[e]? = some none)
    (hs : start < cells.length) (hp : Occupied cells p) (hway : Way cells start p) :
    ∃ result, HashTable.findHash target table (some p) hash = .ok result ∧
      Probed cells hash start (next cells.length p) result := by
  have hel := (List.getElem_of_getElem? he).1
  obtain ⟨hway', -, -⟩ := hway.next hs hp he
  rw [HashTable.findHash, ht.length_eq, if_neg (by omega), HashTable.findStart, ok_bind]
  exact findHashLoop_eq ht hs he (next_lt hp.lt) hway'
    (distance_lt (next_lt hp.lt) hel)

end

end Search

/-! ## 6. Removal -/

section Remove

variable {target : HashTarget} {table : HashTable Item} {cells : Cells Item}

/-- **The opening a removal left is closed**: the items are the same, and every one is reached again. -/
theorem closeLoop_eq {e opening current turns : Nat} (ht : Holds target table cells)
    (hshift : Shifting (fun b => b.1 % cells.length) cells opening current)
    (he : cells[e]? = some none) (hne : e ≠ opening) (hpos : 0 < distance cells.length opening current)
    (hahead : distance cells.length opening current ≤ distance cells.length opening e)
    (hturns : distance cells.length current e < turns) :
    ∃ table' cells', HashTable.closeLoop target table turns opening current = .ok table' ∧
      Holds target table' cells' ∧ Reached (fun b => b.1 % cells.length) cells' ∧
      cells'.length = cells.length ∧ (stored cells').Perm (stored cells) ∧
      table'.count = table.count := by
  induction turns generalizing table cells opening current with
  | zero => omega
  | succ turns ih =>
    have hel := (List.getElem_of_getElem? he).1
    have hcl := hshift.current_lt
    have hol := hshift.opening_lt
    rw [HashTable.closeLoop]
    rcases cell_cases hcl with hempty | ⟨h, x, hfilled⟩
    · have hco : current ≠ opening := by
        rintro rfl
        rw [distance_self] at hpos
        cases hpos
      refine ⟨table, cells, ?_, ht, hshift.done hempty hco fun b _ => Nat.mod_lt _ (by omega), rfl, .refl _, rfl⟩
      rw [ht.occupiedAt_empty hempty]
      rfl
    · have hce : current ≠ e := by
        rintro rfl
        rw [he] at hfilled
        cases hfilled
      have hdist := distance_of_next hcl hel hce
      rw [ht.occupiedAt_filled hfilled, ok_bind]
      simp only [if_true]
      rw [ht.hashAt_eq hfilled, ok_bind, ht.length_eq, bucketIndex_eq (by omega), ok_bind]
      by_cases hfar : distance cells.length (h % cells.length) current >
        distance cells.length (h % cells.length) opening
      · rw [if_pos hfar]
        have hco : current ≠ opening := by
          rintro rfl
          exact absurd hfar (Nat.lt_irrefl _)
        obtain ⟨t₁, e₁, ht₁, hcount₁⟩ := ht.take_eq hfilled
        have hopen : (cells.set current none)[opening]? = some none := by
          rw [getElem?_set_ne hco]
          exact hshift.opening_empty
        obtain ⟨t₂, e₂, ht₂, hcount₂⟩ := ht₁.write_eq hopen (ht.filled hfilled).2.2 x
        have hlen : ((cells.set current none).set opening (some (h, x))).length = cells.length := by
          simp
        obtain ⟨hpos', hnear⟩ := distance_next_le hcl hel (Ne.symm hce)
        obtain ⟨table', cells', e', ht', hr, hl, hperm, hcount⟩ := ih ht₂
          (by rw [hlen]; exact hshift.move hfilled hfar)
          (by rw [getElem?_set_ne (Ne.symm hne), getElem?_set_ne hce, he]) (Ne.symm hce)
          (by rw [hlen]; exact hpos') (by rw [hlen]; exact hnear) (by rw [hlen]; omega)
        rw [hlen] at hr hl
        refine ⟨table', cells', ?_, ht', hr, hl, hperm.trans ?_, ?_⟩
        · rw [e₁, ok_bind]
          rw [e₂, ok_bind]
          exact e'
        · exact (stored_set_some hopen).trans (stored_set_none hfilled).symm
        · rw [hcount, hcount₂, hcount₁]
      · rw [if_neg hfar]
        have hlt : distance cells.length opening current < distance cells.length opening e := by
          refine Nat.lt_of_le_of_ne hahead fun heq => hce ?_
          exact distance_inj hol hcl hel heq
        have hno := next_ne_start hol hel hlt
        have hstep := distance_next hol hcl hno
        exact ih ht (hshift.keep hfilled (Nat.le_of_not_lt hfar) hno) he hne
          (by rw [hstep]; exact Nat.succ_pos _) (by rw [hstep]; exact hlt)
          (by rw [hdist] at hturns; exact Nat.lt_of_succ_lt_succ hturns)

/-- **An item is removed**; every other is still reached from its home. -/
theorem Table.removeAt_eq {i h : Nat} {x : Item} (ht : Table target table cells)
    (hi : cells[i]? = some (some (h, x))) : ∃ table' cells', HashTable.removeAt target table i = .ok (table', x) ∧
      Table target table' cells' ∧ cells'.length = cells.length ∧
      (stored cells).Perm ((h, x) :: stored cells') := by
  have hil := (List.getElem_of_getElem? hi).1
  obtain ⟨e, he⟩ := ht.exists_empty (by omega)
  have hel := (List.getElem_of_getElem? he).1
  have hne : e ≠ i := by
    rintro rfl
    rw [he] at hi
    cases hi
  obtain ⟨t₁, e₁, ht₁, hcount₁⟩ := ht.toHolds.take_eq hi
  have hlen : (cells.set i none).length = cells.length := length_set
  obtain ⟨hpos, hahead⟩ := distance_next_le hil hel hne
  obtain ⟨t₂, cells', e₂, ht₂, hr, hl, hperm, hcount₂⟩ := closeLoop_eq (e := e) ht₁
    (by rw [hlen]; exact Shifting.start ht.reached hi)
    (by rw [getElem?_set_ne (Ne.symm hne), he]) hne (by rw [hlen]; exact hpos)
    (by rw [hlen]; exact hahead)
    (by rw [hlen]; exact distance_lt (next_lt hil) hel)
  rw [hlen] at hr hl
  have hstored := (stored_set_none hi).trans (hperm.symm.cons (h, x))
  have hlength := hstored.length_eq
  rw [length_cons, ← ht.count_eq] at hlength
  have hcount : t₂.count - 1 = (stored cells').length := by
    rw [hcount₂, hcount₁, hlength]
    rfl
  refine ⟨{ t₂ with count := t₂.count - 1 }, cells', ?_,
    ⟨⟨ht₂.1, ht₂.2, ht₂.3⟩, hl ▸ hr, hcount, ?_, hl ▸ ht.minimum⟩, hl, hstored⟩
  · have hn : t₁.buckets.length = cells.length := ht₁.length_eq.trans hlen
    rw [HashTable.removeAt, e₁, ok_bind]
    simp only
    rw [HashTable.closeHole, hn, e₂]
    rfl
  · rw [hl]
    have := ht.load
    show t₂.count - 1 ≤ _
    omega

end Remove

/-! ## 7. Storage -/

namespace HashTable

theorem bucketCountLoop_ge {usizeMax capacity turns start count : Nat} (hstart : 8 ≤ start)
    (hturns : capacity ≤ bucketCapacity start + turns)
    (h : bucketCountLoop usizeMax capacity turns start = .ok count) :
    8 ≤ count ∧ capacity ≤ bucketCapacity count := by
  induction turns generalizing start with
  | zero =>
    cases h
    exact ⟨hstart, hturns⟩
  | succ turns ih =>
    rw [bucketCountLoop] at h
    split at h
    · split at h
      · cases h
      · refine ih (by omega) ?_ h
        unfold bucketCapacity at *
        omega
    · rename_i hge
      cases h
      exact ⟨hstart, Nat.le_of_not_lt hge⟩

/-- A new table has room for what is asked for. -/
theorem bucketCount_ge {usizeMax capacity count : Nat} (h : bucketCount usizeMax capacity = .ok count) :
    (count = 0 ∨ 8 ≤ count) ∧ capacity ≤ bucketCapacity count := by
  rw [bucketCount] at h
  split at h
  · cases h
    exact ⟨.inl rfl, by omega⟩
  · obtain ⟨h₁, h₂⟩ := bucketCountLoop_ge (by decide) (by omega) h
    exact ⟨.inr h₁, h₂⟩

theorem newBuckets_ge {target : Target} {capacity count : Nat} (h : newBuckets target capacity = .ok count) :
    (count = 0 ∨ 8 ≤ count) ∧ capacity ≤ bucketCapacity count := by
  rw [newBuckets] at h
  cases hcount : bucketCount target.usizeMax capacity with
  | error e => rw [hcount] at h; cases h
  | ok n =>
    rw [hcount, ok_bind] at h
    cases hfirst : rawBuffer target.first n with
    | error e => rw [hfirst] at h; cases h
    | ok u =>
      rw [hfirst, ok_bind] at h
      cases hsecond : rawBuffer target.second n with
      | error e => rw [hsecond] at h; cases h
      | ok v =>
        rw [hsecond, ok_bind] at h
        cases h
        exact bucketCount_ge hcount

/-- The number of buckets after room for more items is asked for. -/
def grownBuckets (target : Target) (count buckets additional : Nat) : Except MemoryLayoutError Nat :=
  if additional > target.usizeMax - count then .error .sizeOverflow
  else if count + additional ≤ bucketCapacity buckets then .ok buckets
  else do
    let count ← bucketCount target.usizeMax (count + additional)
    newBuckets target (bucketCapacity count)

end HashTable

section Storage

variable {target : HashTarget} {table : HashTable Item} {cells : Cells Item}

/-- The table of so many empty cells. -/
theorem Table.replicate {n : Nat} (hn : n = 0 ∨ 8 ≤ n) :
    Table target (⟨List.replicate n HashTable.empty, List.replicate n none, 0⟩ : HashTable Item)
      (List.replicate n none) := by
  refine ⟨.replicate n 0, reached_replicate n, ?_, Nat.zero_le _, ?_⟩
  · rw [stored_replicate]
    rfl
  · rwa [length_replicate]

/-- The loop of a reallocation: the items from a cell on are moved to another table. -/
theorem transferLoop_eq {k left : Nat} {destination : HashTable Item} {dcells : Cells Item}
    (ht : Holds target table cells) (hleft : k + left = cells.length) (hd : Table target destination dcells)
    (hroom : destination.count + (stored (cells.drop k)).length ≤ HashTable.bucketCapacity dcells.length) :
    ∃ destination' dcells', HashTable.transferLoop target left k table destination =
      .ok destination' ∧ Table target destination' dcells' ∧ dcells'.length = dcells.length ∧
      (stored dcells').Perm (stored (cells.drop k) ++ stored dcells) := by
  induction left generalizing k table cells destination dcells with
  | zero =>
    refine ⟨destination, dcells, rfl, hd, rfl, ?_⟩
    rw [drop_of_length_le (by omega)]
    exact .refl _
  | succ left ih =>
    have hk : k < cells.length := by omega
    rw [HashTable.transferLoop]
    rcases cell_cases hk with hempty | ⟨h, x, hfilled⟩
    · have hdrop := stored_drop_empty hempty
      rw [ht.occupiedAt_empty hempty, ok_bind]
      rw [hdrop] at hroom ⊢
      exact ih ht (by omega) hd hroom
    · have hdrop := stored_drop_filled hfilled
      rw [hdrop, length_cons] at hroom
      obtain ⟨t₁, e₁, ht₁, -⟩ := ht.take_eq hfilled
      obtain ⟨d₁, j, e₂, hj, hd₁⟩ := hd.insertAvailable_eq x (ht.filled hfilled).2.2 (by omega)
      have hcount : d₁.count = destination.count + 1 := by
        rw [hd₁.count_eq, hd.count_eq, (stored_set_some hj).length_eq, length_cons]
      obtain ⟨d', dcells', e', hd', hl, hperm⟩ := ih (k := k + 1) ht₁ (by rw [length_set]; omega)
        hd₁ (by rw [drop_set_of_lt (Nat.lt_add_one k), length_set]; omega)
      rw [drop_set_of_lt (Nat.lt_add_one k)] at hperm
      rw [length_set] at hl
      refine ⟨d', dcells', ?_, hd', hl, ?_⟩
      · rw [ht.occupiedAt_filled hfilled, ok_bind]
        rw [HashTable.transferAt, ht.hashAt_eq hfilled, ok_bind, e₁, ok_bind]
        simp only
        rw [e₂, ok_bind, ok_bind]
        exact e'
      · rw [hdrop, cons_append]
        exact (hperm.trans ((stored_set_some hj).append_left _)).trans perm_middle

/-- **Room is made or the table is unchanged.** -/
theorem Table.reserve_eq (ht : Table target table cells) (additional : Nat) :
    (∃ e, HashTable.grownBuckets target.toTarget table.count cells.length additional = .error e ∧
      HashTable.reserve target table additional = .ok (table, .error e)) ∨
    ∃ n table' cells', HashTable.grownBuckets target.toTarget table.count cells.length additional = .ok n ∧
      HashTable.reserve target table additional = .ok (table', .ok ()) ∧
      Table target table' cells' ∧ cells'.length = n ∧ (stored cells').Perm (stored cells) ∧
      table.count + additional ≤ HashTable.bucketCapacity n := by
  have hcapacity : table.capacity = HashTable.bucketCapacity cells.length := by
    rw [HashTable.capacity, ht.length_eq]
  rw [HashTable.grownBuckets, HashTable.reserve, hcapacity]
  by_cases hover : additional > target.usizeMax - table.count
  · rw [if_pos hover, if_pos hover]
    exact .inl ⟨_, rfl, rfl⟩
  rw [if_neg hover, if_neg hover]
  by_cases hroom : table.count + additional ≤ HashTable.bucketCapacity cells.length
  · rw [if_pos hroom, if_pos hroom]
    exact .inr ⟨_, table, cells, rfl, rfl, ht, rfl, .refl _, hroom⟩
  rw [if_neg hroom, if_neg hroom]
  cases hcount : HashTable.bucketCount target.usizeMax (table.count + additional) with
  | error e => exact .inl ⟨e, rfl, rfl⟩
  | ok count =>
    rw [ok_bind]
    simp only
    have hge := (HashTable.bucketCount_ge hcount).2
    rw [HashTable.reallocate, HashTable.construct]
    cases hnew : HashTable.newBuckets target.toTarget (HashTable.bucketCapacity count) with
    | error e => exact .inl ⟨e, rfl, rfl⟩
    | ok n =>
      refine .inr ?_
      obtain ⟨hn, hcap⟩ := HashTable.newBuckets_ge hnew
      obtain ⟨d, dcells, e, hd, hl, hperm⟩ := transferLoop_eq (k := 0)
        ht.toHolds (Nat.zero_add _) (Table.replicate hn) (by
          rw [drop_zero, length_replicate, ← ht.count_eq]
          show 0 + table.count ≤ _
          omega)
      have hempty : stored (List.replicate n (none : Option (Nat × Item))) = [] := by
        have := (@Table.replicate Item target _ hn).count_eq
        exact eq_nil_of_length_eq_zero this.symm
      rw [drop_zero, hempty, append_nil] at hperm
      rw [length_replicate] at hl
      refine ⟨n, d, dcells, rfl, ?_, hd, hl, hperm, hge.trans hcap⟩
      rw [ok_bind]
      simp only
      rw [ht.length_eq, e, ok_bind]

theorem clearLoop_eq {k left : Nat} (ht : Holds target table cells) (hleft : k + left = cells.length)
    (hdone : ∀ j, j < k → cells[j]? = some none) : ∃ table', HashTable.clearLoop target left k table = .ok table' ∧
      Holds target table' (List.replicate cells.length none) := by
  induction left generalizing k table cells with
  | zero =>
    refine ⟨table, rfl, ?_⟩
    have hcells : cells = List.replicate cells.length none := by
      refine ext_getElem? fun j => ?_
      rcases Nat.lt_or_ge j cells.length with hj | hj
      · rw [hdone j (by omega), getElem?_replicate, if_pos hj]
      · rw [getElem?_eq_none hj, getElem?_eq_none (by simpa using hj)]
    rw [← hcells]
    exact ht
  | succ left ih =>
    have hk : k < cells.length := by omega
    rw [HashTable.clearLoop]
    rcases cell_cases hk with hempty | ⟨h, x, hfilled⟩
    · rw [ht.occupiedAt_empty hempty, ok_bind]
      refine ih ht (by omega) fun j hj => ?_
      rcases Nat.lt_or_eq_of_le (Nat.le_of_lt_succ hj) with hj | rfl
      · exact hdone j hj
      · exact hempty
    · obtain ⟨t₁, e₁, ht₁, -⟩ := ht.take_eq hfilled
      obtain ⟨t₂, e₂, ht₂⟩ := ih (k := k + 1) ht₁ (by rw [length_set]; omega) fun j hj => by
        by_cases hjk : j = k
        · subst hjk
          exact getElem?_set_self hk
        · rw [getElem?_set_ne (Ne.symm hjk)]
          exact hdone j (by omega)
      rw [length_set] at ht₂
      refine ⟨t₂, ?_, ht₂⟩
      rw [ht.occupiedAt_filled hfilled, ok_bind]
      rw [e₁, ok_bind]
      exact e₂

theorem Table.clear_eq (ht : Table target table cells) : ∃ table', HashTable.clear target table = .ok table' ∧
      Table target table' (List.replicate cells.length none) := by
  obtain ⟨t₁, e, ht₁⟩ := clearLoop_eq (k := 0) ht.toHolds (Nat.zero_add _)
    fun j hj => absurd hj (Nat.not_lt_zero j)
  have hnew := @Table.replicate Item target _ ht.minimum
  refine ⟨{ t₁ with count := 0 }, ?_, ⟨ht₁.1, ht₁.2, ht₁.3⟩, hnew.reached, hnew.count_eq,
    Nat.zero_le _, hnew.minimum⟩
  rw [HashTable.clear, ht.length_eq, e]
  rfl

end Storage

end Bray.Collection
