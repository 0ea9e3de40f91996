/-
  File:      Bray/Lib/Slab.lean
  Subject:   SLABS: a growing table kept in pieces that never move. Nothing of this repository is named
    here.

  A slab holds the entries from an ordinal on. The slab of an ordinal is found by halving. Before
  that, what lists are like that are written in place.

  * `Contiguous` -- the slabs hold the ordinals from a first one on, without gaps;
  * `Contiguous.get_eq` -- what is read is the entry of the ordinal;
  * `Contiguous.put_eq` -- what is written is that entry, and no other.
-/
import Mathlib.Data.List.Forall2

namespace Bray.Lib

open List Option

/-- What is written back is as it was. -/
theorem set_same {α : Type} {xs : List α} {i : Nat} {x : α} (h : xs[i]? = some x) : xs.set i x = xs := by
  obtain ⟨hlt, rfl⟩ := List.getElem_of_getElem? h
  exact set_getElem_self hlt

/-! Two lists that agree place by place. -/

section Agree

variable {α β : Type} {R : α → β → Prop} {as : List α} {bs : List β} {a : α} {b : β} {i : Nat}

theorem agree_get (h : List.Forall₂ R as bs) (hi : as[i]? = some a) : ∃ b, bs[i]? = some b ∧ R a b := by
  induction h generalizing i with
  | nil => cases hi
  | cons hr _ ih =>
    cases i with
    | zero =>
      cases hi
      exact ⟨_, rfl, hr⟩
    | succ i => exact ih hi

theorem agree_get_right (h : List.Forall₂ R as bs) (hi : bs[i]? = some b) : ∃ a, as[i]? = some a ∧ R a b := by
  have hlt : i < as.length := by
    rw [h.length_eq]
    exact (List.getElem_of_getElem? hi).1
  obtain ⟨b', hb', hr⟩ := agree_get h (getElem?_eq_getElem hlt)
  rw [hi] at hb'
  cases hb'
  exact ⟨_, getElem?_eq_getElem hlt, hr⟩

theorem agree_set (h : List.Forall₂ R as bs) (hr : R a b) : List.Forall₂ R (as.set i a) (bs.set i b) := by
  induction h generalizing i with
  | nil => exact .nil
  | cons hr' hrest ih =>
    cases i with
    | zero => exact .cons hr hrest
    | succ i => exact .cons hr' ih

end Agree

/-- Entries, the first of which has the ordinal `first`, and what the slab keeps beside them. -/
structure Slab (α β : Type) where
  first : Nat
  entries : List α
  backing : β
  deriving DecidableEq

namespace Slab

variable {α β : Type}

/-- All entries, in order. -/
def flat (slabs : List (Slab α β)) : List α := slabs.flatMap entries

/-- The loop that looks for the last slab that begins at or before an ordinal. Each turn brings
  the ends closer, so that as many turns as there are slabs are enough. -/
def searchLoop (slabs : List (Slab α β)) (ordinal : Nat) : Nat → Nat → Nat → Option Nat
  | 0, low, _ => some low
  | turns + 1, low, high =>
    if low + 1 < high then do
      let slab ← slabs[low + (high - low) / 2]?
      if slab.first ≤ ordinal then searchLoop slabs ordinal turns (low + (high - low) / 2) high
      else searchLoop slabs ordinal turns low (low + (high - low) / 2)
    else some low

def search (slabs : List (Slab α β)) (ordinal : Nat) : Option Nat :=
  searchLoop slabs ordinal slabs.length 0 slabs.length

/-- The entry of an ordinal. -/
def get (slabs : List (Slab α β)) (ordinal : Nat) : Option α := do
  let low ← search slabs ordinal
  let slab ← slabs[low]?
  if slab.first ≤ ordinal then slab.entries[ordinal - slab.first]? else none

/-- The entry of an ordinal is written. -/
def put (slabs : List (Slab α β)) (ordinal : Nat) (value : α) : List (Slab α β) :=
  match search slabs ordinal with
  | some low =>
    slabs.modify low fun slab => { slab with entries := slab.entries.set (ordinal - slab.first) value }
  | none => slabs

/-- The slabs hold the ordinals from `n` on. -/
def Contiguous : Nat → List (Slab α β) → Prop
  | _, [] => True
  | n, slab :: slabs => slab.first = n ∧ slab.entries ≠ [] ∧ Contiguous (n + slab.entries.length) slabs

variable {slabs : List (Slab α β)} {slab : Slab α β} {n i ordinal : Nat}

@[simp] theorem flat_nil : flat ([] : List (Slab α β)) = [] := rfl

@[simp] theorem flat_cons (slab : Slab α β) (slabs : List (Slab α β)) :
  flat (slab :: slabs) = slab.entries ++ flat slabs := flatMap_cons

theorem flat_append (xs ys : List (Slab α β)) : flat (xs ++ ys) = flat xs ++ flat ys :=
  flatMap_append

theorem flat_concat (slabs : List (Slab α β)) (slab : Slab α β) :
    flat (slabs ++ [slab]) = flat slabs ++ slab.entries := by
  rw [flat_append, flat_cons, flat_nil, append_nil]

/-- How many entries the first slabs hold. -/
def offset (slabs : List (Slab α β)) (i : Nat) : Nat := (flat (slabs.take i)).length

theorem offset_succ (h : slabs[i]? = some slab) : offset slabs (i + 1) = offset slabs i + slab.entries.length := by
  rw [offset, offset, take_add_one, h, flat_append, length_append]
  simp

theorem offset_length (slabs : List (Slab α β)) : offset slabs slabs.length = (flat slabs).length := by
  rw [offset, take_length]

theorem flat_split (h : slabs[i]? = some slab) :
    flat slabs = flat (slabs.take i) ++ (slab.entries ++ flat (slabs.drop (i + 1))) := by
  obtain ⟨hi, rfl⟩ := List.getElem_of_getElem? h
  conv_lhs => rw [← take_append_drop i slabs, flat_append, drop_eq_getElem_cons hi, flat_cons]

theorem length_put (slabs : List (Slab α β)) (ordinal : Nat) (value : α) :
    (put slabs ordinal value).length = slabs.length := by
  unfold put
  split
  · exact length_modify _ _ _
  · rfl

namespace Contiguous

section

variable (h : Contiguous n slabs)
include h

theorem first_eq (hi : slabs[i]? = some slab) : slab.first = n + offset slabs i ∧ slab.entries ≠ [] := by
  induction slabs generalizing n i with
  | nil => cases hi
  | cons s slabs ih =>
    cases i with
    | zero =>
      cases hi
      exact ⟨h.1, h.2.1⟩
    | succ i =>
      obtain ⟨hfirst, hne⟩ := ih h.2.2 hi
      refine ⟨?_, hne⟩
      rw [hfirst, offset, offset, take_succ_cons, flat_cons, length_append, Nat.add_assoc]

theorem append (hfirst : slab.first = n + (flat slabs).length)
    (hne : slab.entries ≠ []) : Contiguous n (slabs ++ [slab]) := by
  induction slabs generalizing n with
  | nil => exact ⟨hfirst, hne, trivial⟩
  | cons s slabs ih =>
    refine ⟨h.1, h.2.1, ih h.2.2 ?_⟩
    rw [hfirst, flat_cons, length_append, Nat.add_assoc]

theorem set (hi : slabs[i]? = some slab) {entries : List α} (hlen : entries.length = slab.entries.length) :
    Contiguous n (slabs.set i { slab with entries := entries }) := by
  induction slabs generalizing n i with
  | nil => cases hi
  | cons s slabs ih =>
    cases i with
    | zero =>
      cases hi
      refine ⟨h.1, ?_, ?_⟩
      · intro hnil
        have hnil' : entries = [] := hnil
        rw [hnil'] at hlen
        exact h.2.1 (eq_nil_of_length_eq_zero hlen.symm)
      · rw [hlen]
        exact h.2.2
    | succ i => exact ⟨h.1, h.2.1, ih h.2.2 hi⟩

/-- The loop ends at the slab that holds the ordinal. -/
theorem searchLoop_eq {turns low high : Nat} (hlow : low < high)
    (hhigh : high ≤ slabs.length) (hturns : high ≤ low + turns + 1)
    (hbelow : n + offset slabs low ≤ ordinal) (habove : ordinal < n + offset slabs high) :
    ∃ k, searchLoop slabs ordinal turns low high = some k ∧ k < slabs.length ∧
      n + offset slabs k ≤ ordinal ∧ ordinal < n + offset slabs (k + 1) := by
  induction turns generalizing low high with
  | zero =>
    have hsucc : high = low + 1 := by omega
    subst hsucc
    exact ⟨low, rfl, by omega, hbelow, habove⟩
  | succ turns ih =>
    rw [searchLoop]
    by_cases hmore : low + 1 < high
    · have hmiddle : low + (high - low) / 2 < slabs.length := by omega
      have hget : slabs[low + (high - low) / 2]? = some slabs[low + (high - low) / 2] :=
        getElem?_eq_getElem hmiddle
      have hfirst := (h.first_eq hget).1
      rw [if_pos hmore, hget, bind_eq_bind, bind_some]
      by_cases hle : slabs[low + (high - low) / 2].first ≤ ordinal
      · rw [if_pos hle]
        exact ih (by omega) hhigh (by omega) (by omega) habove
      · rw [if_neg hle]
        exact ih (by omega) (by omega) (by omega) hbelow (by omega)
    · have hsucc : high = low + 1 := by omega
      subst hsucc
      rw [if_neg hmore]
      exact ⟨low, rfl, by omega, hbelow, habove⟩

theorem search_eq (hbelow : n ≤ ordinal) (habove : ordinal < n + (flat slabs).length) :
    ∃ k slab, search slabs ordinal = some k ∧ slabs[k]? = some slab ∧ slab.first = n + offset slabs k ∧
      slab.first ≤ ordinal ∧ ordinal - slab.first < slab.entries.length := by
  have hpos : 0 < slabs.length := by
    cases slabs with
    | nil => rw [flat_nil, length_nil] at habove; omega
    | cons s slabs => exact Nat.succ_pos _
  have hzero : n + offset slabs 0 ≤ ordinal := by
    exact hbelow
  have hall : ordinal < n + offset slabs slabs.length := by
    rw [offset_length]
    exact habove
  have hturns : slabs.length ≤ 0 + slabs.length + 1 := by omega
  obtain ⟨k, e, hk, hle, hlt⟩ := h.searchLoop_eq hpos (Nat.le_refl _) hturns hzero hall
  have hget : slabs[k]? = some slabs[k] := getElem?_eq_getElem hk
  have hfirst := (h.first_eq hget).1
  rw [offset_succ hget] at hlt
  exact ⟨k, slabs[k], e, hget, hfirst, by omega, by omega⟩

/-- The slab that holds an ordinal, and the entry in it. -/
theorem locate (hbelow : n ≤ ordinal) (habove : ordinal < n + (flat slabs).length) :
    ∃ k slab, search slabs ordinal = some k ∧ slabs[k]? = some slab ∧ slab.first ≤ ordinal ∧
      slab.entries[ordinal - slab.first]? = (flat slabs)[ordinal - n]? := by
  obtain ⟨k, slab, e, hget, hfirst, hle, hlt⟩ := h.search_eq hbelow habove
  refine ⟨k, slab, e, hget, hle, ?_⟩
  have hpos : ordinal - n = (flat (slabs.take k)).length + (ordinal - slab.first) := by
    rw [offset] at hfirst
    omega
  rw [flat_split hget, hpos, getElem?_append_right (Nat.le_add_right _ _), Nat.add_sub_cancel_left,
    getElem?_append_left hlt]

/-- **The entry of an ordinal is found.** -/
theorem get_eq (hbelow : n ≤ ordinal) (habove : ordinal < n + (flat slabs).length) :
    get slabs ordinal = (flat slabs)[ordinal - n]? := by
  obtain ⟨k, slab, e, hget, hle, hentry⟩ := h.locate hbelow habove
  rw [get, e, bind_eq_bind, bind_some, hget, bind_eq_bind, bind_some, if_pos hle,
    hentry]

/-- **And written**: the slabs stay where they are, and one entry of one of them changes. -/
theorem put_eq (hbelow : n ≤ ordinal) (habove : ordinal < n + (flat slabs).length) (value : α) :
    ∃ k slab, slabs[k]? = some slab ∧ ordinal - slab.first < slab.entries.length ∧
      ordinal - n = offset slabs k + (ordinal - slab.first) ∧ put slabs ordinal value =
        slabs.set k { slab with entries := slab.entries.set (ordinal - slab.first) value } := by
  obtain ⟨k, slab, e, hget, hfirst, hle, hlt⟩ := h.search_eq hbelow habove
  refine ⟨k, slab, hget, hlt, by omega, ?_⟩
  obtain ⟨hk, rfl⟩ := List.getElem_of_getElem? hget
  rw [put, e]
  exact modify_eq_set_get _ hk

theorem put_contiguous (hbelow : n ≤ ordinal)
    (habove : ordinal < n + (flat slabs).length) (value : α) : Contiguous n (put slabs ordinal value) := by
  obtain ⟨k, slab, hget, hlt, hpos, e⟩ := h.put_eq hbelow habove value
  rw [e]
  exact h.set hget length_set

theorem flat_put (hbelow : n ≤ ordinal) (habove : ordinal < n + (flat slabs).length) (value : α) :
    flat (put slabs ordinal value) = (flat slabs).set (ordinal - n) value := by
  obtain ⟨k, slab, hget, hlt, hpos, e⟩ := h.put_eq hbelow habove value
  have hset : (slabs.set k { slab with entries := slab.entries.set (ordinal - slab.first) value })[k]? =
    some { slab with entries := slab.entries.set (ordinal - slab.first) value } :=
    List.getElem?_set_self (List.getElem_of_getElem? hget).1
  rw [e, flat_split hset, flat_split hget, hpos, take_set_of_le (Nat.le_refl k),
    drop_set_of_lt (Nat.lt_succ_self k), offset, set_append_right _ _ (Nat.le_add_right _ _),
    Nat.add_sub_cancel_left, set_append_left _ _ hlt]

end

end Contiguous

end Slab

end Bray.Lib
