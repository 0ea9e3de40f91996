/-
  File:      Bray/Lib/Unordered.lean
  Subject:   COMPARISONS WITH UNORDERED VALUES. Nothing of this repository is named here.

  A value has a place in a partial order, or none (a NaN). Equality and the orderings hold only
  between values that have a place; a value without one is not equal to itself, and its negated
  comparisons give nothing. What chains of comparisons give is what a partial order gives.
-/
import Mathlib.Order.Basic

namespace Bray.Lib

namespace Unordered

variable {κ : Type} [PartialOrder κ] {a b c : Option κ}

/-- Both have the same place. -/
def Same (a b : Option κ) : Prop := ∃ k, a = some k ∧ b = some k

/-- Both have a place, the first not after the second. -/
def Le (a b : Option κ) : Prop := ∃ k l, a = some k ∧ b = some l ∧ k ≤ l

/-- Both have a place, the first before the second. -/
def Lt (a b : Option κ) : Prop := ∃ k l, a = some k ∧ b = some l ∧ k < l

omit [PartialOrder κ] in
theorem Same.symm (h : Same a b) : Same b a := by
  obtain ⟨k, ha, hb⟩ := h
  exact ⟨k, hb, ha⟩

theorem Same.le (h : Same a b) : Le a b := by
  obtain ⟨k, ha, hb⟩ := h
  exact ⟨k, k, ha, hb, le_refl k⟩

theorem Lt.le (h : Lt a b) : Le a b := by
  obtain ⟨k, l, ha, hb, hkl⟩ := h
  exact ⟨k, l, ha, hb, hkl.le⟩

theorem Le.trans (h : Le a b) (h' : Le b c) : Le a c := by
  obtain ⟨k, l, ha, hb, hkl⟩ := h
  obtain ⟨l', m, hb', hc, hlm⟩ := h'
  obtain rfl : l = l' := Option.some.inj (hb.symm.trans hb')
  exact ⟨k, m, ha, hc, hkl.trans hlm⟩

theorem Lt.trans_le (h : Lt a b) (h' : Le b c) : Lt a c := by
  obtain ⟨k, l, ha, hb, hkl⟩ := h
  obtain ⟨l', m, hb', hc, hlm⟩ := h'
  obtain rfl : l = l' := Option.some.inj (hb.symm.trans hb')
  exact ⟨k, m, ha, hc, hkl.trans_le hlm⟩

theorem Le.trans_lt (h : Le a b) (h' : Lt b c) : Lt a c := by
  obtain ⟨k, l, ha, hb, hkl⟩ := h
  obtain ⟨l', m, hb', hc, hlm⟩ := h'
  obtain rfl : l = l' := Option.some.inj (hb.symm.trans hb')
  exact ⟨k, m, ha, hc, hkl.trans_lt hlm⟩

theorem Lt.not_le (h : Lt a b) : ¬ Le b a := by
  rintro ⟨l', k', hb', ha', hlk⟩
  obtain ⟨k, l, ha, hb, hkl⟩ := h
  obtain rfl : k = k' := Option.some.inj (ha.symm.trans ha')
  obtain rfl : l = l' := Option.some.inj (hb.symm.trans hb')
  exact absurd hlk hkl.not_ge

theorem Lt.not_same (h : Lt a b) : ¬ Same a b := fun hs => h.not_le hs.symm.le

theorem Le.lt_of_not_same (h : Le a b) (hn : ¬ Same a b) : Lt a b := by
  obtain ⟨k, l, ha, hb, hkl⟩ := h
  refine ⟨k, l, ha, hb, lt_of_le_of_ne hkl fun e => hn ⟨k, ha, ?_⟩⟩
  rw [hb, e]

omit [PartialOrder κ] in
theorem same_self (h : a.isSome = true) : Same a a := by
  obtain ⟨k, hk⟩ := Option.isSome_iff_exists.mp h
  exact ⟨k, hk, hk⟩

omit [PartialOrder κ] in
theorem same_some {k l : κ} : Same (some k) (some l) ↔ k = l := by
  constructor
  · rintro ⟨m, hk, hl⟩
    exact (Option.some.inj hk).trans (Option.some.inj hl).symm
  · rintro rfl
    exact ⟨k, rfl, rfl⟩

theorem le_some {k l : κ} : Le (some k) (some l) ↔ k ≤ l := by simp [Le]

theorem lt_some {k l : κ} : Lt (some k) (some l) ↔ k < l := by simp [Lt]

theorem Le.left (h : Le a b) : a.isSome = true := by
  obtain ⟨k, _, ha, _⟩ := h
  rw [ha]; rfl

theorem Le.right (h : Le a b) : b.isSome = true := by
  obtain ⟨_, l, _, hb, _⟩ := h
  rw [hb]; rfl

end Unordered

end Bray.Lib
