/-
  File:      Bray/Lib/FiniteMap.lean
  Subject:   FINITE MAPS under an equality of keys. Nothing of this repository is named here.

  A map is a list of entries no two of which have equal keys; the order of the list means nothing.

  * `writeEntries` -- the values of the first entries of a list are changed;
  * `entryOf_of_mem`, `entryOf_eq_none` -- the entry of a key;
  * `modify_perm`, `erase_perm` -- what changing and removing the entry of a key do, up to order.
-/
import Mathlib.Data.List.Perm.Basic

namespace Bray.Lib

open List

variable {K V : Type}

/-- The values of the first entries are changed, one function for each. -/
def writeEntries : List (V → V) → List (K × V) → List (K × V)
  | f :: fs, e :: rest => (e.1, f e.2) :: writeEntries fs rest
  | [], rest => rest
  | _, [] => []

theorem map_fst_writeEntries (fs : List (V → V)) (entries : List (K × V)) :
    (writeEntries fs entries).map Prod.fst = entries.map Prod.fst := by
  induction fs, entries using writeEntries.induct with
  | case1 f fs e rest ih => simp [writeEntries, ih]
  | case2 rest => rw [writeEntries]
  | case3 fs h => cases fs <;> rfl

/-- An equality of keys. -/
structure Equality (K : Type) where
  equals : K → K → Bool
  refl : ∀ a, equals a a = true
  symm : ∀ a b, equals a b = true → equals b a = true
  trans : ∀ a b c, equals a b = true → equals b c = true → equals a c = true

theorem Equality.comm (eq : Equality K) (a b : K) : eq.equals a b = eq.equals b a := by
  cases h : eq.equals a b with
  | true => exact (eq.symm a b h).symm
  | false =>
    cases h' : eq.equals b a with
    | true =>
      rw [eq.symm b a h'] at h
      cases h
    | false => rfl

theorem Equality.congr (eq : Equality K) {a b : K} (h : eq.equals a b = true) (c : K) :
    eq.equals c a = eq.equals c b := by
  cases hb : eq.equals c b with
  | true => exact eq.trans c b a hb (eq.symm a b h)
  | false =>
    cases ha : eq.equals c a with
    | true =>
      rw [eq.trans c a b ha h] at hb
      cases hb
    | false => rfl

/-- No two entries have equal keys. -/
def Distinct (eq : Equality K) (entries : List (K × V)) : Prop :=
  entries.Pairwise fun a b => eq.equals a.1 b.1 = false

theorem distinct_iff {eq : Equality K} {entries : List (K × V)} :
    Distinct eq entries ↔ (entries.map Prod.fst).Pairwise fun a b => eq.equals a b = false := by
  rw [pairwise_map, Distinct]

theorem Distinct.perm {eq : Equality K} {xs ys : List (K × V)} (h : Distinct eq xs) (hp : xs.Perm ys) :
    Distinct eq ys :=
  hp.pairwise h fun h => by
    rw [eq.comm]
    exact h

structure FiniteMap (eq : Equality K) (V : Type) where
  entries : List (K × V)
  distinct : Distinct eq entries

namespace FiniteMap

variable {eq : Equality K}

def empty (eq : Equality K) (V : Type) : FiniteMap eq V := ⟨[], List.Pairwise.nil⟩

def entryOf (m : FiniteMap eq V) (key : K) : Option (K × V) :=
  m.entries.find? fun e => eq.equals e.1 key

def get? (m : FiniteMap eq V) (key : K) : Option V := (m.entryOf key).map Prod.snd

/-- The value of a key is changed, if there is one. -/
def modify (m : FiniteMap eq V) (key : K) (f : V → V) : FiniteMap eq V where
  entries := m.entries.map fun e => if eq.equals e.1 key then (e.1, f e.2) else e
  distinct := by
    refine pairwise_map.mpr (m.distinct.imp fun {a b} h => ?_)
    split <;> split <;> exact h

def erase (m : FiniteMap eq V) (key : K) : FiniteMap eq V :=
  ⟨m.entries.filter fun e => !eq.equals e.1 key, m.distinct.filter _⟩

def add (m : FiniteMap eq V) (key : K) (value : V) (h : m.entryOf key = none) : FiniteMap eq V where
  entries := (key, value) :: m.entries
  distinct := by
    refine pairwise_cons.mpr ⟨fun e he => ?_, m.distinct⟩
    rw [eq.comm]
    simpa using find?_eq_none.mp h e he

variable {m : FiniteMap eq V} {key : K} {x : K × V} {rest : List (K × V)}

theorem entryOf_eq_none (h : ∀ e ∈ m.entries, eq.equals e.1 key = false) : m.entryOf key = none :=
  find?_eq_none.mpr fun e he => by simp [h e he]

theorem others (hp : m.entries.Perm (x :: rest)) (hx : eq.equals x.1 key = true) :
    ∀ e ∈ rest, eq.equals e.1 key = false := by
  intro e he
  have hd := (pairwise_cons.mp (m.distinct.perm hp)).1 e he
  rw [← eq.congr hx, eq.comm]
  exact hd

theorem entryOf_of_mem (hx : x ∈ m.entries) (hkey : eq.equals x.1 key = true) : m.entryOf key = some x := by
  obtain ⟨before, after, hsplit⟩ := append_of_mem hx
  have hp : m.entries.Perm (x :: (before ++ after)) := by
    rw [hsplit]
    exact perm_middle
  have hothers := others hp hkey
  rw [entryOf, hsplit, find?_append, find?_eq_none.mpr fun e he => by
    simp [hothers e (mem_append_left _ he)], Option.none_or, find?_cons]
  simp [hkey]

theorem modify_perm (hp : m.entries.Perm (x :: rest)) (hx : eq.equals x.1 key = true) (f : V → V) :
    (m.modify key f).entries.Perm ((x.1, f x.2) :: rest) := by
  have hothers := others hp hx
  refine (hp.map _).trans ?_
  rw [map_cons, if_pos hx]
  refine List.Perm.cons _ ?_
  rw [map_congr_left (g := id) fun e he => by simp [hothers e he], map_id]

theorem erase_perm (hp : m.entries.Perm (x :: rest)) (hx : eq.equals x.1 key = true) :
    (m.erase key).entries.Perm rest := by
  have hothers := others hp hx
  refine (hp.filter _).trans ?_
  rw [filter_cons, filter_eq_self.mpr fun e he => by simp [hothers e he]]
  simp [hx]

theorem erase_of_none (h : ∀ e ∈ m.entries, eq.equals e.1 key = false) : (m.erase key).entries = m.entries :=
  filter_eq_self.mpr fun e he => by simp [h e he]

theorem modify_of_none (h : ∀ e ∈ m.entries, eq.equals e.1 key = false) (f : V → V) :
    (m.modify key f).entries = m.entries := by
  show m.entries.map _ = m.entries
  rw [map_congr_left (g := id) fun e he => by simp [h e he], map_id]

end FiniteMap

end Bray.Lib
