/-
  File:      Bray/Lib/SortedMap.lean
  Subject:   FINITE SORTED MAPS under a comparison. Nothing of this repository is named here.

  A map is the list of its entries in strictly ascending key order. The comparison need only be
  transitive and oriented: keys that compare equal stand for one another.

  * `insertEntry_absent`, `entryOf_present`, `erase_present`, ... -- what the operations do at the place
    where a key divides the entries;
  * `range_eq` -- the entries of a range lie together;
  * `insert_perm`, `entries_of_get?`, `insert_erase` -- the operations where equal keys are the same key;
  * `get?_insert`, `get?_erase`, `get?_modify` -- what is found after them.
-/
import Bray.Lib.FiniteMap

namespace Bray.Lib

open List


/-- One end of a range of keys. -/
inductive Bound (K : Type) where
  | unbounded
  | included (key : K)
  | excluded (key : K)

variable {K V : Type}

namespace Bound

/-- A key is not below a lower bound. -/
def above (cmp : K → K → Ordering) (key : K) : Bound K → Bool
  | unbounded => true
  | included low => cmp key low != .lt
  | excluded low => cmp key low == .gt

/-- A key is not above an upper bound. -/
def below (cmp : K → K → Ordering) (key : K) : Bound K → Bool
  | unbounded => true
  | included high => cmp key high != .gt
  | excluded high => cmp key high == .lt

end Bound

/-- Entries in strictly ascending key order. -/
def Sorted (cmp : K → K → Ordering) (entries : List (K × V)) : Prop :=
  entries.Pairwise fun a b => cmp a.1 b.1 = .lt

structure SortedMap (cmp : K → K → Ordering) (V : Type) where
  entries : List (K × V)
  sorted : Sorted cmp entries

/-- The entries with one more key, or with another value for a key that is there. -/
def insertEntry (cmp : K → K → Ordering) (key : K) (value : V) : List (K × V) → List (K × V)
  | [] => [(key, value)]
  | e :: rest =>
    match cmp e.1 key with
    | .lt => e :: insertEntry cmp key value rest
    | .eq => (e.1, value) :: rest
    | .gt => (key, value) :: e :: rest

section Split

variable {cmp : K → K → Ordering} {key : K} {value : V} {before after : List (K × V)} {e : K × V}

/-- A key that is not there divides the entries. -/
theorem insertEntry_absent (hb : ∀ x ∈ before, cmp x.1 key = .lt) (ha : ∀ x ∈ after, cmp x.1 key = .gt) :
    insertEntry cmp key value (before ++ after) = before ++ (key, value) :: after := by
  induction before with
  | nil =>
    cases after with
    | nil => rfl
    | cons x xs => simp only [nil_append, insertEntry, ha x mem_cons_self]
  | cons x xs ih =>
    have hx := hb x (.head _)
    simp only [cons_append, insertEntry, hx]
    rw [ih fun y hy => hb y (mem_cons_of_mem _ hy)]

theorem insertEntry_present (hb : ∀ x ∈ before, cmp x.1 key = .lt) (he : cmp e.1 key = .eq) :
    insertEntry cmp key value (before ++ e :: after) = before ++ (e.1, value) :: after := by
  induction before with
  | nil => simp only [nil_append, insertEntry, he]
  | cons x xs ih =>
    have hx := hb x (.head _)
    simp only [cons_append, insertEntry, hx]
    rw [ih fun y hy => hb y (mem_cons_of_mem _ hy)]

variable [Std.TransCmp cmp]

theorem Sorted.divide {entries : List (K × V)} (h : Sorted cmp entries) (key : K) :
    (∃ before after, entries = before ++ after ∧ (∀ x ∈ before, cmp x.1 key = .lt) ∧
      ∀ x ∈ after, cmp x.1 key = .gt) ∨
    ∃ before e after, entries = before ++ e :: after ∧ (∀ x ∈ before, cmp x.1 key = .lt) ∧
      cmp e.1 key = .eq ∧ ∀ x ∈ after, cmp x.1 key = .gt := by
  induction entries with
  | nil => exact .inl ⟨[], [], rfl, fun _ h => absurd h not_mem_nil, fun _ h => absurd h not_mem_nil⟩
  | cons e rest ih =>
    obtain ⟨he, hrest⟩ := pairwise_cons.mp h
    cases hc : cmp e.1 key with
    | lt =>
      rcases ih hrest with ⟨b, a, rfl, hb, ha⟩ | ⟨b, x, a, rfl, hb, hx, ha⟩
      · exact .inl ⟨e :: b, a, rfl, forall_mem_cons.mpr ⟨hc, hb⟩, ha⟩
      · exact .inr ⟨e :: b, x, a, rfl, forall_mem_cons.mpr ⟨hc, hb⟩, hx, ha⟩
    | eq =>
      refine .inr ⟨[], e, rest, rfl, fun _ h => absurd h not_mem_nil, hc, fun x hx => ?_⟩
      exact Std.TransCmp.gt_of_gt_of_eq (Std.OrientedCmp.gt_of_lt (he x hx)) hc
    | gt =>
      refine .inl ⟨[], e :: rest, rfl, fun _ h => absurd h not_mem_nil,
        forall_mem_cons.mpr ⟨hc, fun x hx => ?_⟩⟩
      exact Std.TransCmp.gt_trans (Std.OrientedCmp.gt_of_lt (he x hx)) hc

theorem sorted_insertEntry {entries : List (K × V)} (h : Sorted cmp entries) (key : K) (value : V) :
    Sorted cmp (insertEntry cmp key value entries) := by
  rcases h.divide key with ⟨b, a, rfl, hb, ha⟩ | ⟨b, e, a, rfl, hb, he, -⟩
  · rw [insertEntry_absent hb ha]
    obtain ⟨h₁, h₂, h₃⟩ := pairwise_append.mp h
    refine pairwise_append.mpr ⟨h₁, pairwise_cons.mpr ⟨fun x hx => ?_, h₂⟩, fun x hx y hy => ?_⟩
    · exact Std.OrientedCmp.lt_of_gt (ha x hx)
    · rcases mem_cons.mp hy with rfl | hy
      · exact hb x hx
      · exact h₃ x hx y hy
  · rw [insertEntry_present hb he]
    obtain ⟨h₁, h₂, h₃⟩ := pairwise_append.mp h
    obtain ⟨h₄, h₅⟩ := pairwise_cons.mp h₂
    refine pairwise_append.mpr ⟨h₁, pairwise_cons.mpr ⟨h₄, h₅⟩, fun x hx y hy => ?_⟩
    rcases mem_cons.mp hy with rfl | hy
    · exact h₃ x hx e (.head _)
    · exact h₃ x hx y (.tail _ hy)

end Split

namespace SortedMap

variable {cmp : K → K → Ordering}

theorem ext_entries {m m' : SortedMap cmp V} (h : m.entries = m'.entries) : m = m' := by
  cases m
  cases h
  rfl

def empty (cmp : K → K → Ordering) (V : Type) : SortedMap cmp V := ⟨[], List.Pairwise.nil⟩

def entryOf (m : SortedMap cmp V) (key : K) : Option (K × V) :=
  m.entries.find? fun e => cmp e.1 key == .eq

def get? (m : SortedMap cmp V) (key : K) : Option V := (m.entryOf key).map Prod.snd

def lowerBound (m : SortedMap cmp V) (key : K) : Option (K × V) :=
  m.entries.find? fun e => cmp e.1 key != .lt

def upperBound (m : SortedMap cmp V) (key : K) : Option (K × V) :=
  m.entries.find? fun e => cmp e.1 key == .gt

def range (m : SortedMap cmp V) (low high : Bound K) : List (K × V) :=
  m.entries.filter fun e => low.above cmp e.1 && high.below cmp e.1

def erase (m : SortedMap cmp V) (key : K) : SortedMap cmp V :=
  ⟨m.entries.filter fun e => cmp e.1 key != .eq, m.sorted.filter _⟩

def insert [Std.TransCmp cmp] (m : SortedMap cmp V) (key : K) (value : V) : SortedMap cmp V :=
  ⟨insertEntry cmp key value m.entries, sorted_insertEntry m.sorted key value⟩

def write (m : SortedMap cmp V) (fs : List (V → V)) : SortedMap cmp V where
  entries := writeEntries fs m.entries
  sorted := by
    have h : (m.entries.map Prod.fst).Pairwise (fun a b => cmp a b = .lt) :=
      pairwise_map.mpr m.sorted
    rw [← map_fst_writeEntries fs] at h
    exact pairwise_map.mp h

/-- The value of a key is changed, if there is one. -/
def modify [Std.TransCmp cmp] (m : SortedMap cmp V) (key : K) (f : V → V) : SortedMap cmp V :=
  match m.get? key with
  | some value => m.insert key (f value)
  | none => m

/-! ## What the operations do where a key divides the entries -/

section Divided

variable {key : K} {before after : List (K × V)} {e : K × V} {m : SortedMap cmp V}

theorem find?_append_head? {α : Type} {p : α → Bool} {xs ys : List α} (hx : ∀ x ∈ xs, p x = false)
    (hy : ∀ y ∈ ys, p y = true) : (xs ++ ys).find? p = ys.head? := by
  rw [find?_append, find?_eq_none.mpr fun x h => by simp [hx x h], Option.none_or]
  cases ys with
  | nil => rfl
  | cons y ys => rw [find?_cons, hy y mem_cons_self]; rfl

theorem entryOf_absent (hm : m.entries = before ++ after) (hb : ∀ x ∈ before, cmp x.1 key = .lt)
    (ha : ∀ x ∈ after, cmp x.1 key = .gt) : m.entryOf key = none := by
  rw [entryOf, hm, find?_eq_none]
  intro x hx
  rcases mem_append.mp hx with hx | hx
  · simp [hb x hx]
  · simp [ha x hx]

theorem entryOf_present (hm : m.entries = before ++ e :: after)
    (hb : ∀ x ∈ before, cmp x.1 key = .lt) (he : cmp e.1 key = .eq) : m.entryOf key = some e := by
  rw [entryOf, hm, find?_append, find?_eq_none.mpr fun x h => by simp [hb x h],
    Option.none_or, find?_cons]
  simp [he]

theorem erase_absent (hm : m.entries = before ++ after) (hb : ∀ x ∈ before, cmp x.1 key = .lt)
    (ha : ∀ x ∈ after, cmp x.1 key = .gt) : (m.erase key).entries = m.entries := by
  show m.entries.filter _ = _
  rw [hm, filter_eq_self]
  intro x hx
  rcases mem_append.mp hx with hx | hx
  · simp [hb x hx]
  · simp [ha x hx]

theorem erase_present (hm : m.entries = before ++ e :: after)
    (hb : ∀ x ∈ before, cmp x.1 key = .lt) (he : cmp e.1 key = .eq)
    (ha : ∀ x ∈ after, cmp x.1 key = .gt) : (m.erase key).entries = before ++ after := by
  show m.entries.filter _ = _
  have hb' : before.filter (fun x => cmp x.1 key != .eq) = before :=
    filter_eq_self.mpr fun x hx => by simp [hb x hx]
  have ha' : after.filter (fun x => cmp x.1 key != .eq) = after :=
    filter_eq_self.mpr fun x hx => by simp [ha x hx]
  rw [hm, filter_append, filter_cons, hb', ha']
  simp [he]

theorem below_of_lt [Std.TransCmp cmp] {a b : K} {high : Bound K} (hlt : cmp a b = .lt)
    (h : high.below cmp b = true) : high.below cmp a = true := by
  cases high with
  | unbounded => rfl
  | included k =>
    simp only [Bound.below, bne_iff_ne, ne_eq] at h ⊢
    cases hc : cmp b k with
    | lt => simp [Std.TransCmp.lt_trans hlt hc]
    | eq => simp [Std.TransCmp.lt_of_lt_of_eq hlt hc]
    | gt => exact absurd hc h
  | excluded k =>
    simp only [Bound.below, beq_iff_eq] at h ⊢
    exact Std.TransCmp.lt_trans hlt h

/-- **The entries of a range lie together**: from the first that is not below it to the last that is not
  above. -/
theorem range_eq [Std.TransCmp cmp] {low high : Bound K} (hm : m.entries = before ++ after)
    (hb : ∀ x ∈ before, low.above cmp x.1 = false) (ha : ∀ x ∈ after, low.above cmp x.1 = true) :
    m.range low high = after.takeWhile fun e => high.below cmp e.1 := by
  have hsorted : Sorted cmp after := by
    have h := m.sorted
    rw [hm] at h
    exact (pairwise_append.mp h).2.1
  have hb' : before.filter (fun e => low.above cmp e.1 && high.below cmp e.1) = [] :=
    filter_eq_nil_iff.mpr fun x hx => by simp [hb x hx]
  have ha' : after.filter (fun e => low.above cmp e.1 && high.below cmp e.1) =
    after.filter fun e => high.below cmp e.1 :=
    filter_congr fun x hx => by simp [ha x hx]
  rw [range, hm, filter_append, hb', ha', nil_append]
  clear hm hb ha hb' ha'
  induction after with
  | nil => rfl
  | cons e rest ih =>
    obtain ⟨he, hrest⟩ := pairwise_cons.mp hsorted
    by_cases hin : high.below cmp e.1 = true
    · rw [filter_cons, if_pos hin, takeWhile_cons, if_pos hin, ih hrest]
    · rw [filter_cons, if_neg hin, takeWhile_cons, if_neg hin, filter_eq_nil_iff]
      intro x hx hxin
      exact hin (below_of_lt (he x hx) hxin)

end Divided

/-! ## Keys that compare equal only when they are the same -/

section Lawful

variable {key : K} {value : V} {m : SortedMap cmp V} [Std.TransCmp cmp] [Std.LawfulEqCmp cmp]

/-- A key that is not there is added. -/
theorem insert_perm (absent : ∀ e ∈ m.entries, e.1 ≠ key) :
    (m.insert key value).entries.Perm ((key, value) :: m.entries) := by
  rcases m.sorted.divide key with ⟨before, after, eq, below, above⟩ | ⟨before, e, after, eq, _, same, _⟩
  · show (insertEntry cmp key value m.entries).Perm _
    rw [eq, insertEntry_absent below above]
    exact perm_middle
  · have mem : e ∈ m.entries := by rw [eq]; exact mem_append_right _ (.head _)
    exact absurd (Std.LawfulEqCmp.eq_of_compare same) (absent e mem)

/-- What is found at a key is one entry, and removing the key leaves the others. -/
theorem entries_of_get? (found : m.get? key = some value) :
    ∃ before after, m.entries = before ++ (key, value) :: after ∧ (m.erase key).entries = before ++ after ∧
      (∀ e ∈ before, cmp e.1 key = .lt) ∧ ∀ e ∈ after, cmp e.1 key = .gt := by
  rcases m.sorted.divide key with ⟨before, after, eq, below, above⟩ | ⟨before, e, after, eq, below, same, above⟩
  · rw [get?, entryOf_absent eq below above] at found
    cases found
  · rw [get?, entryOf_present eq below same] at found
    obtain rfl : e.1 = key := Std.LawfulEqCmp.eq_of_compare same
    cases found
    exact ⟨before, after, eq, erase_present eq below same above, below, above⟩

/-- Putting a removed entry back restores the map. -/
theorem insert_erase (found : m.get? key = some value) : (m.erase key).insert key value = m := by
  obtain ⟨before, after, eq, erased, below, above⟩ := entries_of_get? found
  refine ext_entries ?_
  show insertEntry cmp key value (m.erase key).entries = _
  rw [erased, insertEntry_absent below above, eq]

omit [Std.TransCmp cmp] in
theorem get?_eq_some : m.get? key = some value ↔ (key, value) ∈ m.entries := by
  constructor
  · intro found
    obtain ⟨e, he, rfl⟩ := Option.map_eq_some_iff.mp found
    have same := find?_some he
    obtain rfl : e.1 = key := Std.LawfulEqCmp.eq_of_compare (beq_iff_eq.mp same)
    exact mem_of_find?_eq_some he
  · intro mem
    obtain ⟨before, after, eq⟩ := append_of_mem mem
    have sorted := m.sorted
    rw [eq] at sorted
    have below : ∀ x ∈ before, cmp x.1 key = .lt := fun x hx =>
      (pairwise_append.mp sorted).2.2 x hx _ (.head _)
    rw [get?, entryOf_present eq below Std.ReflCmp.compare_self]
    rfl

theorem mem_insert {other : K} {v : V} : (other, v) ∈ (m.insert key value).entries ↔
    other = key ∧ v = value ∨ other ≠ key ∧ (other, v) ∈ m.entries := by
  show _ ∈ insertEntry cmp key value m.entries ↔ _
  have self : cmp key key = .eq := Std.ReflCmp.compare_self
  rcases m.sorted.divide key with ⟨before, after, eq, below, above⟩ | ⟨before, e, after, eq, below, same, above⟩
  · rw [eq, insertEntry_absent below above]
    have ne : ∀ x ∈ before ++ after, x.1 ≠ key := by
      rintro x hx rfl
      rcases mem_append.mp hx with hx | hx
      · cases self.symm.trans (below x hx)
      · cases self.symm.trans (above x hx)
    rw [perm_middle.mem_iff, mem_cons, Prod.mk.injEq]
    exact or_congr_right ⟨fun hx => ⟨ne _ hx, hx⟩, And.right⟩
  · obtain rfl : e.1 = key := Std.LawfulEqCmp.eq_of_compare same
    rw [eq, insertEntry_present below same]
    have ne : ∀ x ∈ before ++ after, x.1 ≠ e.1 := by
      intro x hx h
      rcases mem_append.mp hx with hx | hx
      · have := below x hx
        rw [h, same] at this
        cases this
      · have := above x hx
        rw [h, same] at this
        cases this
    rw [perm_middle.mem_iff, perm_middle.mem_iff, mem_cons, mem_cons, Prod.mk.injEq]
    constructor
    · rintro (here | hx)
      · exact .inl here
      · exact .inr ⟨ne _ hx, .inr hx⟩
    · rintro (here | ⟨other, rfl | hx⟩)
      · exact .inl here
      · exact absurd rfl other
      · exact .inr hx

variable [DecidableEq K]

theorem get?_insert (other : K) :
    (m.insert key value).get? other = if other = key then some value else m.get? other := by
  apply Option.ext
  intro v
  rw [get?_eq_some, mem_insert]
  split
  · next h => simp [h, eq_comm]
  · next h => simp [h, get?_eq_some]

omit [Std.TransCmp cmp] in
theorem get?_erase (other : K) : (m.erase key).get? other = if other = key then none else m.get? other := by
  apply Option.ext
  intro v
  rw [get?_eq_some]
  show _ ∈ m.entries.filter _ ↔ _
  split
  · next h => simp [h]
  · next h => simp [h, get?_eq_some]

omit [Std.TransCmp cmp] in
theorem get?_foldl_erase (keys : List K) (m : SortedMap cmp V) (other : K) :
    (keys.foldl erase m).get? other = if other ∈ keys then none else m.get? other := by
  induction keys generalizing m with
  | nil => simp
  | cons key keys ih =>
    rw [foldl_cons, ih, get?_erase]
    by_cases later : other ∈ keys
    · simp [later]
    · by_cases here : other = key <;> simp [later, here]

theorem get?_modify (f : V → V) (other : K) :
    (m.modify key f).get? other = if other = key then (m.get? key).map f else m.get? other := by
  unfold modify
  split
  · next found => rw [get?_insert, found, Option.map_some]
  · next found =>
    split
    · next h => rw [h, found, Option.map_none]
    · rfl

end Lawful

end SortedMap

end Bray.Lib
