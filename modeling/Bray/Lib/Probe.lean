/-
  File:      Bray/Lib/Probe.lean
  Subject:   LINEAR PROBING with removal by backward shifting. Nothing of this repository is named here.

  The cells of a table lie on a circle. Every element has a home, and is found by walking on from there:
  it is `Reached` when no cell between its home and its own is empty. A removal leaves an opening;
  walking on from it, an element whose way leads over the opening moves into it and leaves a new one
  (`Shifting`).

  * `reached_set` -- an element put at the end of its way is reached, and so are the others;
  * `Shifting.keep`, `Shifting.move`, `Shifting.done` -- one step and the end of the shifting;
  * `stored_set_some`, `stored_set_none` -- the elements of a table, as a list.
-/
import Mathlib.Data.List.Perm.Basic

namespace Bray.Lib.Probe

open List


/-! ## 1. The circle -/

/-- The next cell. -/
def next (n i : Nat) : Nat := if i + 1 = n then 0 else i + 1

/-- How many steps lead from one cell to another. -/
def distance (n start i : Nat) : Nat := if i ≥ start then i - start else n - start + i

theorem next_lt {n i : Nat} (h : i < n) : next n i < n := by
  unfold next
  split <;> omega

theorem distance_lt {n start i : Nat} (hs : start < n) (hi : i < n) : distance n start i < n := by
  unfold distance
  split <;> omega

@[simp] theorem distance_self (n i : Nat) : distance n i i = 0 := by
  unfold distance
  simp

theorem distance_inj {n start i j : Nat} (hs : start < n) (hi : i < n) (hj : j < n)
    (h : distance n start i = distance n start j) : i = j := by
  unfold distance at h
  split at h <;> split at h <;> omega

theorem distance_next {n start i : Nat} (hs : start < n) (hi : i < n) (hne : next n i ≠ start) :
    distance n start (next n i) = distance n start i + 1 := by
  unfold distance next at *
  grind

/-- A cell with another behind it is not the last one of the circle. -/
theorem next_ne_start {n start i j : Nat} (hs : start < n) (hj : j < n)
    (h : distance n start i < distance n start j) : next n i ≠ start := by
  unfold distance next at *
  grind

/-- One step leads to the next cell, and no fewer to any other. -/
theorem distance_next_le {n i j : Nat} (hi : i < n) (hj : j < n) (hne : j ≠ i) :
    0 < distance n i (next n i) ∧ distance n i (next n i) ≤ distance n i j := by
  unfold distance next
  grind

/-- A step towards a cell. -/
theorem distance_of_next {n i j : Nat} (hi : i < n) (hj : j < n) (hne : i ≠ j) :
    distance n i j = distance n (next n i) j + 1 := by
  unfold distance next
  grind

/-- A cell on the way: `a`, then `b`, then `c`. -/
theorem distance_between {n a b c : Nat} (ha : a < n) (hb : b < n) (hc : c < n)
    (h : distance n a b ≤ distance n a c) : distance n a c = distance n a b + distance n b c := by
  unfold distance at *
  grind

/-! ## 2. Tables -/

variable {β : Type}

def Occupied (cells : List (Option β)) (i : Nat) : Prop := ∃ b, cells[i]? = some (some b)

theorem Occupied.lt {cells : List (Option β)} {i : Nat} (h : Occupied cells i) : i < cells.length := by
  obtain ⟨b, hb⟩ := h
  exact (List.getElem_of_getElem? hb).1

theorem not_occupied_iff {cells : List (Option β)} {i : Nat} (hi : i < cells.length) :
    ¬Occupied cells i ↔ cells[i]? = some none := by
  rw [Occupied, getElem?_eq_getElem hi]
  cases cells[i] with
  | none => simp
  | some b => simp

theorem occupied_set_some {cells : List (Option β)} {i j : Nat} {b : β} (hi : i < cells.length) :
    Occupied (cells.set i (some b)) j ↔ j = i ∨ Occupied cells j := by
  unfold Occupied
  by_cases hij : j = i
  · subst hij
    simp [getElem?_set_self hi]
  · rw [getElem?_set_ne (Ne.symm hij)]
    simp [hij]

theorem occupied_set_none {cells : List (Option β)} {i j : Nat} (hi : i < cells.length) :
    Occupied (cells.set i none) j ↔ j ≠ i ∧ Occupied cells j := by
  unfold Occupied
  by_cases hij : j = i
  · subst hij
    simp [getElem?_set_self hi]
  · rw [getElem?_set_ne (Ne.symm hij)]
    simp [hij]

/-- No cell from a home up to a cell is empty. -/
def Way (cells : List (Option β)) (home i : Nat) : Prop :=
  ∀ j, j < cells.length → distance cells.length home j < distance cells.length home i → Occupied cells j

/-- **Every element is reached from its home.** -/
def Reached (home : β → Nat) (cells : List (Option β)) : Prop :=
  ∀ i b, cells[i]? = some (some b) → Way cells (home b) i

variable {home : β → Nat} {cells : List (Option β)} {i : Nat} {b : β}

/-- An element is put into an empty cell at the end of its way, or over another with the same home. -/
theorem reached_set (h : Reached home cells) (hi : i < cells.length) (hway : Way cells (home b) i) :
    Reached home (cells.set i (some b)) := by
  intro k c hk j hj hlt
  rw [length_set] at hj hlt
  rw [occupied_set_some hi]
  refine .inr ?_
  by_cases hki : k = i
  · subst hki
    rw [getElem?_set_self hi] at hk
    cases hk
    exact hway j hj hlt
  · rw [getElem?_set_ne (Ne.symm hki)] at hk
    exact h k c hk j hj hlt

theorem reached_replicate (n : Nat) : Reached home (List.replicate n none) := by
  intro i b hb
  have := (List.getElem_of_getElem? hb).2
  simp at this

/-! ## 3. The elements -/

/-- The elements of a table. -/
def stored (cells : List (Option β)) : List β := cells.filterMap id

theorem mem_stored : b ∈ stored cells ↔ ∃ i : Nat, cells[i]? = some (some b) := by
  rw [stored, mem_filterMap]
  constructor
  · rintro ⟨c, hc, rfl⟩
    obtain ⟨i, hi⟩ := mem_iff_getElem?.mp hc
    exact ⟨i, hi⟩
  · rintro ⟨i, hi⟩
    exact ⟨some b, mem_of_getElem? hi, rfl⟩

theorem stored_set_some (hi : cells[i]? = some none) :
    (stored (cells.set i (some b))).Perm (b :: stored cells) := by
  induction cells generalizing i with
  | nil => cases hi
  | cons c cells ih =>
    cases i with
    | zero =>
      cases hi
      exact .refl _
    | succ i =>
      have h := ih (i := i) hi
      cases c with
      | none => exact h
      | some c => exact (h.cons c).trans (.swap b c _)

theorem stored_set_none (hi : cells[i]? = some (some b)) :
    (stored cells).Perm (b :: stored (cells.set i none)) := by
  induction cells generalizing i with
  | nil => cases hi
  | cons c cells ih =>
    cases i with
    | zero =>
      cases hi
      exact .refl _
    | succ i =>
      have h := ih (i := i) hi
      cases c with
      | none => exact h
      | some c => exact (h.cons c).trans (.swap b c _)

theorem stored_set_over {b' : β} (hi : cells[i]? = some (some b)) :
    (stored (cells.set i (some b'))).Perm (b' :: stored (cells.set i none)) := by
  have hlt := (List.getElem_of_getElem? hi).1
  have h := stored_set_some (i := i) (b := b') (getElem?_set_self hlt)
  rwa [set_set] at h

theorem stored_replicate (n : Nat) : stored (List.replicate n (none : Option β)) = [] := by
  rw [stored, filterMap_eq_nil_iff]
  intro c hc
  exact (mem_replicate.mp hc).2

theorem stored_append (xs ys : List (Option β)) : stored (xs ++ ys) = stored xs ++ stored ys :=
  filterMap_append

theorem stored_drop_empty (hi : cells[i]? = some none) : stored (cells.drop i) = stored (cells.drop (i + 1)) := by
  obtain ⟨hlt, hget⟩ := List.getElem_of_getElem? hi
  rw [drop_eq_getElem_cons hlt, hget]
  rfl

theorem stored_drop_filled (hi : cells[i]? = some (some b)) :
    stored (cells.drop i) = b :: stored (cells.drop (i + 1)) := by
  obtain ⟨hlt, hget⟩ := List.getElem_of_getElem? hi
  rw [drop_eq_getElem_cons hlt, hget]
  rfl

/-- The elements up to a cell. -/
theorem stored_take_succ {c : Option β} (hi : cells[i]? = some c) :
    stored (cells.take (i + 1)) = stored (cells.take i) ++ c.toList := by
  rw [take_add_one, hi, stored_append]
  cases c <;> rfl

/-- A table with fewer elements than cells has an empty cell. -/
theorem exists_empty (h : (stored cells).length < cells.length) : ∃ i : Nat, cells[i]? = some none := by
  induction cells with
  | nil => cases h
  | cons c cells ih =>
    cases c with
    | none => exact ⟨0, rfl⟩
    | some c =>
      obtain ⟨i, hi⟩ := ih (Nat.lt_of_succ_lt_succ h)
      exact ⟨i + 1, hi⟩

theorem Way.next {start e : Nat} (h : Way cells start i) (hs : start < cells.length)
    (hi : Occupied cells i) (he : cells[e]? = some none) :
    Way cells start (next cells.length i) ∧ Probe.next cells.length i ≠ start ∧
      distance cells.length i e = distance cells.length (Probe.next cells.length i) e + 1 := by
  have hel := (List.getElem_of_getElem? he).1
  have hnot := (not_occupied_iff hel).mpr he
  have hie : i ≠ e := by
    rintro rfl
    exact hnot hi
  -- the empty cell is still ahead
  have hahead : distance cells.length start i < distance cells.length start e :=
    Nat.lt_of_le_of_ne (Nat.le_of_not_lt fun hlt => hnot (h e hel hlt)) fun heq =>
      hie (distance_inj hs hi.lt hel heq)
  have hne := next_ne_start hs hel hahead
  refine ⟨fun j hj hlt => ?_, hne, distance_of_next hi.lt hel hie⟩
  rw [distance_next hs hi.lt hne] at hlt
  rcases Nat.lt_or_eq_of_le (Nat.le_of_lt_succ hlt) with hlt | heq
  · exact h j hj hlt
  · exact distance_inj hs hj hi.lt heq ▸ hi

/-! ## 4. Backward shifting -/

/-- The opening left by a removal has been moved as far as `opening`, and the cells up to `current` have
  been looked at. -/
structure Shifting (home : β → Nat) (cells : List (Option β)) (opening current : Nat) : Prop where
  opening_empty : cells[opening]? = some none
  current_lt : current < cells.length
  way : ∀ i b, cells[i]? = some (some b) → ∀ j, j < cells.length →
    distance cells.length (home b) j < distance cells.length (home b) i → Occupied cells j ∨ j = opening
  /-- The way of an element that has been looked at does not lead over the opening. -/
  passed : ∀ i b, cells[i]? = some (some b) →
    distance cells.length opening i < distance cells.length opening current →
    distance cells.length (home b) i ≤ distance cells.length (home b) opening

namespace Shifting

variable {opening current : Nat}

theorem opening_lt (h : Shifting home cells opening current) : opening < cells.length :=
  (List.getElem_of_getElem? h.opening_empty).1

/-- An element is removed. -/
theorem start (h : Reached home cells) (hi : cells[i]? = some (some b)) :
    Shifting home (cells.set i none) i (next cells.length i) := by
  have hlt := (List.getElem_of_getElem? hi).1
  refine ⟨getElem?_set_self hlt, ?_, ?_, ?_⟩
  · rw [length_set]
    exact next_lt hlt
  · intro k c hk j hj hlt'
    have hki : k ≠ i := by
      rintro rfl
      rw [getElem?_set_self hlt] at hk
      cases hk
    rw [getElem?_set_ne hki.symm] at hk
    rw [length_set] at hj hlt'
    rw [occupied_set_none hlt]
    by_cases hji : j = i
    · exact .inr hji
    · exact .inl ⟨hji, h k c hk j hj hlt'⟩
  · intro k c hk hlt'
    have hki : k ≠ i := by
      rintro rfl
      rw [getElem?_set_self hlt] at hk
      cases hk
    have hkn := (List.getElem_of_getElem? hk).1
    rw [length_set] at hkn hlt' ⊢
    exfalso
    unfold distance next at hlt'
    split at hlt' <;> split at hlt' <;> split at hlt' <;> omega

/-- The element of the current cell does not need the opening. -/
theorem keep (h : Shifting home cells opening current) (hcur : cells[current]? = some (some b))
    (hnear : distance cells.length (home b) current ≤ distance cells.length (home b) opening)
    (hne : next cells.length current ≠ opening) : Shifting home cells opening (next cells.length current) := by
  refine ⟨h.opening_empty, next_lt h.current_lt, h.way, fun i c hi hlt => ?_⟩
  rw [distance_next h.opening_lt h.current_lt hne] at hlt
  rcases Nat.lt_or_eq_of_le (Nat.le_of_lt_succ hlt) with hlt | heq
  · exact h.passed i c hi hlt
  · have hic := distance_inj h.opening_lt (List.getElem_of_getElem? hi).1 h.current_lt heq
    subst hic
    rw [hcur] at hi
    cases hi
    exact hnear

theorem move (h : Shifting home cells opening current) (hcur : cells[current]? = some (some b))
    (hfar : distance cells.length (home b) opening < distance cells.length (home b) current) :
    Shifting home ((cells.set current none).set opening (some b)) current (next cells.length current) := by
  have hcl := h.current_lt
  have hol := h.opening_lt
  have hne : current ≠ opening := by
    rintro rfl
    exact absurd hfar (Nat.lt_irrefl _)
  have hocc : ∀ j, Occupied ((cells.set current none).set opening (some b)) j ↔
    j = opening ∨ j ≠ current ∧ Occupied cells j := by
    intro j
    rw [occupied_set_some (by rw [length_set]; exact hol), occupied_set_none hcl]
  have hempty : ((cells.set current none).set opening (some b))[current]? = some none := by
    rw [getElem?_set_ne hne.symm, getElem?_set_self hcl]
  have hlen : ((cells.set current none).set opening (some b)).length = cells.length := by simp
  refine ⟨hempty, by rw [hlen]; exact next_lt hcl, ?_, ?_⟩
  · intro i c hi j hj hlt
    rw [hlen] at hj hlt
    rw [hocc]
    by_cases hio : i = opening
    · subst hio
      rw [getElem?_set_self (by rw [length_set]; exact hol)] at hi
      cases hi
      have hjc : j ≠ current := by
        rintro rfl
        omega
      rcases h.way current b hcur j hj (by omega) with hj' | rfl
      · exact .inl (.inr ⟨hjc, hj'⟩)
      · exact .inl (.inl rfl)
    · have hic : i ≠ current := by
        rintro rfl
        rw [hempty] at hi
        cases hi
      rw [getElem?_set_ne (Ne.symm hio), getElem?_set_ne hic.symm] at hi
      rcases h.way i c hi j hj hlt with hj' | rfl
      · by_cases hjc : j = current
        · exact .inr hjc
        · exact .inl (.inr ⟨hjc, hj'⟩)
      · exact .inl (.inl rfl)
  · intro i c hi hlt
    exfalso
    have hic : i ≠ current := by
      rintro rfl
      rw [hempty] at hi
      cases hi
    unfold distance next at hlt
    split at hlt <;> split at hlt <;> split at hlt <;> omega

/-- **At an empty cell every element is reached again.** -/
theorem done (h : Shifting home cells opening current) (hcur : cells[current]? = some none)
    (hne : current ≠ opening) (hhome : ∀ b ∈ stored cells, home b < cells.length) : Reached home cells := by
  intro i b hi j hj hlt
  rcases h.way i b hi j hj hlt with hj' | rfl
  · exact hj'
  -- the way leads over the opening, so the element has not been looked at, and the way leads on over the
  -- current cell, which is empty
  · exfalso
    have hfar : distance cells.length j current ≤ distance cells.length j i := by
      rcases Nat.lt_or_ge (distance cells.length j i) (distance cells.length j current) with hn | hf
      · have := h.passed i b hi hn
        omega
      · exact hf
    have hon : distance cells.length (home b) current < distance cells.length (home b) i := by
      unfold distance at *
      grind
    rcases h.way i b hi current h.current_lt hon with ⟨c, hc⟩ | hc
    · rw [hcur] at hc
      cases hc
    · exact hne hc

end Shifting

end Bray.Lib.Probe
