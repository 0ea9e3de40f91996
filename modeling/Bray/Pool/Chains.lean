/-
  File:      Bray/Pool/Chains.lean
  Subject:   WHAT THE RECORD OPERATIONS DO TO THE STRANDS OF THE POOL.

  `Laid target pool S` says that the slabs hold the handles `1 .. total` and that the links cut them
  up into the strands `S`. The free list is one of them, each chain another. There is one lemma per
  function: which strands it cuts and ties, and what header it returns.

  `Describes header xs` is what a header says of its strand.
-/
import Bray.Pool.Records

namespace Bray.Pool

open Bray.Lib List

variable {V α : Type} {target : Target} {pool pool' : ReportPool V} {S : List (List Nat)}
  {xs ys free : List Nat} {handle : Nat} {entry : ReportRecord V}

/-! ## 1. The table of records -/

/-- The slabs hold the handles `1 .. total`, and no more than fit into the address space. -/
structure Indexed (target : Target) (pool : ReportPool V) : Prop where
  contiguous : Slab.Contiguous 1 (held pool.slabs)
  total_eq : pool.records.length = pool.total
  limit : pool.total ≤ target.recordLimit

namespace Indexed

section

variable (h : Indexed target pool)
include h

/-- **Each handle finds its own record.** -/
theorem record_eq (h0 : handle ≠ 0) (hle : handle ≤ pool.total) :
    pool.record handle = pool.records[handle - 1]? := by
  have hlen : handle < 1 + (Slab.flat (held pool.slabs)).length := by
    have := h.total_eq
    rw [ReportPool.records] at this
    omega
  have hget := h.contiguous.get_eq (Nat.pos_of_ne_zero h0) hlen
  rw [ReportPool.record, if_neg (by omega)]
  cases hs : pool.slabs with
  | none =>
    rw [hs, held_none, Slab.flat_nil, length_nil] at hlen
    omega
  | some index =>
    rw [hs, held_some] at hget
    rw [some_bind, hget, ReportPool.records, hs, held_some]

theorem record_some (h0 : handle ≠ 0) (hle : handle ≤ pool.total) :
    ∃ entry, pool.record handle = some entry ∧ pool.records[handle - 1]? = some entry := by
  have hlt : handle - 1 < pool.records.length := by
    rw [h.total_eq]
    omega
  rw [h.record_eq h0 hle, getElem?_eq_getElem hlt]
  exact ⟨_, rfl, rfl⟩

theorem next_eq (hrecord : pool.record handle = some entry) :
    pool.next handle = entry.next ∧ handle ≠ 0 ∧ handle ≤ pool.total ∧ pool.records[handle - 1]? = some entry := by
  have hbounds : handle ≠ 0 ∧ handle ≤ pool.total := by
    by_contra hb
    rw [ReportPool.record, if_pos (by omega)] at hrecord
    cases hrecord
  rw [h.record_eq hbounds.1 hbounds.2] at hrecord
  refine ⟨?_, hbounds.1, hbounds.2, hrecord⟩
  rw [ReportPool.next, if_neg hbounds.1, hrecord]
  rfl

theorem records_store (h0 : handle ≠ 0) (hle : handle ≤ pool.total)
    (entry : ReportRecord V) : (pool.store handle entry).records = pool.records.set (handle - 1) entry := by
  have hlen : handle < 1 + (Slab.flat (held pool.slabs)).length := by
    have := h.total_eq
    rw [ReportPool.records] at this
    omega
  have hput := h.contiguous.flat_put (Nat.pos_of_ne_zero h0) hlen entry
  rw [ReportPool.records, ReportPool.records, ReportPool.store]
  cases hs : pool.slabs with
  | none => rfl
  | some index =>
    rw [hs, held_some] at hput
    exact hput

theorem store (h0 : handle ≠ 0) (hle : handle ≤ pool.total)
  (entry : ReportRecord V) : Indexed target (pool.store handle entry) where
  contiguous := by
    have hlen : handle < 1 + (Slab.flat (held pool.slabs)).length := by
      have := h.total_eq
      rw [ReportPool.records] at this
      omega
    have hput := h.contiguous.put_contiguous (Nat.pos_of_ne_zero h0) hlen entry
    rw [ReportPool.store]
    cases hs : pool.slabs with
    | none => trivial
    | some index =>
      rw [hs, held_some] at hput
      exact hput
  total_eq := by
    rw [h.records_store h0 hle, length_set]
    exact h.total_eq
  limit := h.limit

theorem next_store_self (h0 : handle ≠ 0) (hle : handle ≤ pool.total)
    (entry : ReportRecord V) : (pool.store handle entry).next handle = entry.next := by
  have hlt : handle - 1 < pool.records.length := by
    rw [h.total_eq]
    omega
  rw [ReportPool.next, if_neg h0, h.records_store h0 hle, getElem?_set_self hlt]
  rfl

theorem next_store_ne (h0 : handle ≠ 0) (hle : handle ≤ pool.total)
    (entry : ReportRecord V) {y : Nat} (hy : y ≠ handle) : (pool.store handle entry).next y = pool.next y := by
  rw [ReportPool.next, ReportPool.next]
  split
  · rfl
  · rw [h.records_store h0 hle, getElem?_set_ne (by omega)]

end

end Indexed

/-! ## 2. What an operation on links keeps -/

def ReportRecord.body (entry : ReportRecord V) : ReportRecord V := { entry with next := 0 }

/-- Reports, marks, credits and storage are kept. -/
structure Kept (pool pool' : ReportPool V) : Prop where
  bodies : pool'.records.map ReportRecord.body = pool.records.map ReportRecord.body
  total : pool'.total = pool.total
  credits : pool'.credits = pool.credits
  storage : pool'.storage = pool.storage
  nextEpoch : pool'.nextEpoch = pool.nextEpoch
  remainingEpochs : pool'.remainingEpochs = pool.remainingEpochs

namespace Kept

theorem refl (pool : ReportPool V) : Kept pool pool := ⟨rfl, rfl, rfl, rfl, rfl, rfl⟩

theorem trans {a b c : ReportPool V} (h : Kept a b) (h' : Kept b c) : Kept a c :=
  ⟨h'.bodies.trans h.bodies, h'.total.trans h.total, h'.credits.trans h.credits,
    h'.storage.trans h.storage, h'.nextEpoch.trans h.nextEpoch,
    h'.remainingEpochs.trans h.remainingEpochs⟩

end Kept

/-- The free list is kept as well. -/
structure Relinked (pool pool' : ReportPool V) : Prop extends Kept pool pool' where
  free : pool'.free = pool.free
  available : pool'.available = pool.available

namespace Relinked

theorem refl (pool : ReportPool V) : Relinked pool pool := ⟨.refl pool, rfl, rfl⟩

theorem trans {a b c : ReportPool V} (h : Relinked a b) (h' : Relinked b c) : Relinked a c :=
  ⟨h.toKept.trans h'.toKept, h'.free.trans h.free, h'.available.trans h.available⟩

end Relinked

theorem set_body {records : List (ReportRecord V)} {i : Nat} (h : records[i]? = some entry)
    {entry' : ReportRecord V} (hbody : entry'.body = entry.body) :
    (records.set i entry').map ReportRecord.body = records.map ReportRecord.body := by
  rw [map_set, hbody]
  refine set_same ?_
  rw [getElem?_map, h]
  rfl

theorem relinked_store (h : Indexed target pool) (hrecord : pool.record handle = some entry)
    {entry' : ReportRecord V} (hbody : entry'.body = entry.body) : Relinked pool (pool.store handle entry') := by
  obtain ⟨-, h0, hle, hget⟩ := h.next_eq hrecord
  refine ⟨⟨?_, rfl, rfl, rfl, rfl, rfl⟩, rfl, rfl⟩
  rw [h.records_store h0 hle]
  exact set_body hget hbody

/-! ## 3. Strands of the pool -/

/-- The handles lie in slabs, and their links cut them up into `S`. -/
structure Laid (target : Target) (pool : ReportPool V) (S : List (List Nat)) : Prop where
  indexed : Indexed target pool
  strands : Strands pool.next pool.total S

/-- What a header says of its strand. -/
structure Describes (header : ReportRecords) (xs : List Nat) : Prop where
  head_eq : header.head = xs.headD 0
  tail_eq : header.tail = xs.getLastD 0
  count_eq : header.count = xs.length

/-- What the pool says of its free list. -/
structure FreeList (pool : ReportPool V) (free : List Nat) : Prop where
  head_eq : pool.free = free.headD 0
  length_eq : pool.available = free.length

theorem Relinked.freeList (h : Relinked pool pool') (hfree : FreeList pool free) : FreeList pool' free :=
  ⟨h.free.trans hfree.head_eq, h.available.trans hfree.length_eq⟩

namespace Describes

variable {chain : ReportRecords}

theorem empty : Describes emptyRecords [] := ⟨rfl, rfl, rfl⟩

theorem count_zero (h : Describes chain []) : chain.count = 0 := h.count_eq

theorem count_ne_zero (h : Describes chain xs) (hne : xs ≠ []) : chain.count ≠ 0 := by
  rw [h.count_eq]
  exact fun hnil => hne (eq_nil_of_length_eq_zero hnil)

end Describes

theorem getLastD_concat (xs : List Nat) (x d : Nat) : (xs ++ [x]).getLastD d = x := by simp

namespace Laid

theorem reorder {S' : List (List Nat)} (h : Laid target pool S) (hperm : S.Perm S') : Laid target pool S' :=
  ⟨h.indexed, h.strands.reorder hperm⟩

theorem record_some (h : Laid target pool S) (hxs : xs ∈ S) (hx : handle ∈ xs) :
    ∃ entry, pool.record handle = some entry := by
  obtain ⟨h0, hle⟩ := h.strands.mem_bounds hxs hx
  obtain ⟨entry, hrecord, -⟩ := h.indexed.record_some h0 hle
  exact ⟨entry, hrecord⟩

variable {l r : List Nat} {entry' : ReportRecord V}

/-- A link of the strand in front is cleared. -/
theorem cut (h : Laid target pool ((l ++ handle :: r) :: S))
    (hrecord : pool.record handle = some entry) (hnext : entry'.next = 0) :
    Laid target (pool.store handle entry') ((l ++ [handle]) :: r :: S) := by
  obtain ⟨-, h0, hle, -⟩ := h.indexed.next_eq hrecord
  exact ⟨h.indexed.store h0 hle entry', h.strands.cut
    (fun y hy => h.indexed.next_store_ne h0 hle entry' hy)
    ((h.indexed.next_store_self h0 hle entry').trans hnext)⟩

/-- The last link of the strand in front is set to the strand behind it. -/
theorem tie (h : Laid target pool ((l ++ [handle]) :: r :: S))
    (hrecord : pool.record handle = some entry) (hnext : entry'.next = r.headD 0) :
    Laid target (pool.store handle entry') ((l ++ handle :: r) :: S) := by
  obtain ⟨-, h0, hle, -⟩ := h.indexed.next_eq hrecord
  exact ⟨h.indexed.store h0 hle entry', h.strands.tie
    (fun y hy => h.indexed.next_store_ne h0 hle entry' hy)
    ((h.indexed.next_store_self h0 hle entry').trans hnext)⟩

/-- What is written beside the link moves nothing. -/
theorem store (h : Laid target pool S) (hrecord : pool.record handle = some entry)
    (hnext : entry'.next = entry.next) : Laid target (pool.store handle entry') S := by
  obtain ⟨hlink, h0, hle, -⟩ := h.indexed.next_eq hrecord
  have hsame : (pool.store handle entry').next = pool.next := by
    funext y
    by_cases hy : y = handle
    · rw [hy, h.indexed.next_store_self h0 hle, hnext, hlink]
    · exact h.indexed.next_store_ne h0 hle entry' hy
  refine ⟨h.indexed.store h0 hle entry', ?_⟩
  rw [hsame]
  exact h.strands

/-- The link of a cell is the head of what follows it. -/
theorem next_eq (h : Laid target pool ((l ++ handle :: r) :: S)) : pool.next handle = r.headD 0 :=
  (Strung.append_iff.mp (h.strands.strung _ (.head _))).2.1

theorem mem_front : handle ∈ l ++ handle :: r :=
  mem_append_right l (.head _)

end Laid

/-! ## 4. Free list and chains -/

/-- **A free record is activated**: the first of the free list becomes a strand of its own. -/
theorem activateRecord_spec (h : Laid target pool ((handle :: free) :: S))
    (hfree : FreeList pool (handle :: free)) :
    ∃ pool', activateRecord pool = some (handle, pool') ∧ Laid target pool' ([handle] :: free :: S) ∧
      FreeList pool' free ∧ Kept pool pool' := by
  have hhead : pool.free = handle := hfree.head_eq
  have h0 : handle ≠ 0 := (h.strands.mem_bounds (.head _) (.head _)).1
  obtain ⟨entry, hrecord⟩ := h.record_some (.head _) (.head _)
  have hnext : entry.next = free.headD 0 := by
    rw [← (h.indexed.next_eq hrecord).1]
    exact Laid.next_eq h (l := [])
  have hkept : Relinked pool (pool.store handle { entry with next := 0 }) := relinked_store h.indexed hrecord rfl
  refine ⟨{ pool.store handle { entry with next := 0 } with
    free := entry.next, available := pool.available - 1 }, ?_, ?_, ⟨hnext, ?_⟩, ?_⟩
  · have hpos : 1 ≤ pool.available := by
      rw [hfree.length_eq]
      exact Nat.succ_pos _
    rw [activateRecord, hhead, if_neg h0, hrecord, checkedSub_eq hpos]
    rfl
  · exact ⟨⟨(h.cut hrecord rfl (l := [])).indexed.contiguous, (h.cut hrecord rfl (l := [])).indexed.total_eq,
      h.indexed.limit⟩, (h.cut hrecord rfl (l := [])).strands⟩
  · rw [hfree.length_eq]
    rfl
  · exact ⟨hkept.bodies, rfl, rfl, rfl, rfl, rfl⟩

variable {chain : ReportRecords}

/-- **A record is put behind a chain.** -/
theorem appendRecord_spec (h : Laid target pool (xs :: [handle] :: S)) (hchain : Describes chain xs) :
    ∃ pool' chain', appendRecord pool chain handle = some (pool', chain') ∧
      Laid target pool' ((xs ++ [handle]) :: S) ∧ Describes chain' (xs ++ [handle]) ∧ Relinked pool pool' := by
  rcases eq_nil_or_concat xs with rfl | ⟨l, x, rfl⟩
  · refine ⟨pool, ⟨handle, handle, chain.count + 1⟩, ?_, ?_, ?_, .refl pool⟩
    · rw [appendRecord, if_pos hchain.count_zero]
    · exact ⟨h.indexed, ⟨h.strands.perm, fun ys hys => h.strands.strung ys (.tail _ hys)⟩⟩
    · exact ⟨rfl, rfl, by rw [hchain.count_eq]; rfl⟩
  · have htail : chain.tail = x := by rw [hchain.tail_eq, concat_eq_append, getLastD_concat]
    rw [concat_eq_append] at h hchain ⊢
    obtain ⟨entry, hrecord⟩ := h.record_some (.head _) (Laid.mem_front (r := []))
    refine ⟨pool.store x { entry with next := handle }, ⟨chain.head, handle, chain.count + 1⟩, ?_, ?_, ?_, ?_⟩
    · rw [appendRecord, if_neg (hchain.count_ne_zero (append_ne_nil_of_right_ne_nil l (cons_ne_nil x []))),
        htail, hrecord]
      rfl
    · rw [append_assoc]
      exact h.tie hrecord rfl
    · refine ⟨?_, by rw [getLastD_concat], ?_⟩
      · rw [hchain.head_eq, append_assoc, singleton_append, headD_append_cons, headD_append_cons]
      · rw [length_append, ← hchain.count_eq]
        rfl
    · exact relinked_store h.indexed hrecord rfl

/-- **The first record of a chain is detached.** -/
theorem detachRecord_spec (h : Laid target pool ((handle :: xs) :: S)) (hchain : Describes chain (handle :: xs)) :
    ∃ pool' chain', detachRecord pool chain = some (handle, pool', chain') ∧
      Laid target pool' ([handle] :: xs :: S) ∧ Describes chain' xs ∧ Relinked pool pool' := by
  have hhead : chain.head = handle := hchain.head_eq
  have hcount : chain.count - 1 = xs.length := by
    rw [hchain.count_eq]
    rfl
  obtain ⟨entry, hrecord⟩ := h.record_some (.head _) (.head _)
  have hnext : entry.next = xs.headD 0 := by
    rw [← (h.indexed.next_eq hrecord).1]
    exact Laid.next_eq h (l := [])
  refine ⟨pool.store handle { entry with next := 0 },
    ⟨entry.next, if xs.length = 0 then 0 else chain.tail, xs.length⟩, ?_, ?_, ⟨hnext, ?_, rfl⟩, ?_⟩
  · rw [detachRecord, if_neg (hchain.count_ne_zero (cons_ne_nil handle xs)), hhead, hrecord, hcount]
    rfl
  · exact h.cut hrecord rfl (l := [])
  · cases xs with
    | nil => rfl
    | cons a xs =>
      rw [hchain.tail_eq]
      show (handle :: a :: xs).getLastD 0 = (a :: xs).getLastD 0
      rw [getLastD_cons, getLastD_cons, getLastD_cons]
  · exact relinked_store h.indexed hrecord rfl

/-- Nothing is detached from an empty chain. -/
theorem detachRecord_nil (hchain : Describes chain []) : detachRecord pool chain = none := by
  rw [detachRecord, if_pos hchain.count_zero]

/-- **The loop of an admission** moves the front of the free list behind a chain. -/
theorem admitLoop_spec {output : ReportRecords} {n : Nat} (h : Laid target pool (free :: xs :: S))
    (hfree : FreeList pool free) (houtput : Describes output xs) (hn : n ≤ free.length) :
    ∃ pool' output', admitLoop n pool output = some (pool', output') ∧
      Laid target pool' (free.drop n :: (xs ++ free.take n) :: S) ∧ FreeList pool' (free.drop n) ∧
      Describes output' (xs ++ free.take n) ∧ Kept pool pool' := by
  induction n generalizing pool output free xs with
  | zero =>
    rw [take_zero, append_nil]
    exact ⟨pool, output, rfl, h, hfree, houtput, .refl pool⟩
  | succ n ih =>
    cases free with
    | nil => exact absurd hn (Nat.not_succ_le_zero n)
    | cons handle free =>
      obtain ⟨pool₁, e₁, hlaid₁, hfree₁, hkept₁⟩ := activateRecord_spec h hfree
      have hperm₁ : [[handle], free, xs].Perm [xs, [handle], free] :=
        (perm_append_singleton xs [[handle], free]).symm.symm
      obtain ⟨pool₂, output₂, e₂, hlaid₂, houtput₂, hkept₂⟩ :=
        appendRecord_spec (hlaid₁.reorder (hperm₁.append_right S)) houtput
      obtain ⟨pool₃, output₃, e₃, hlaid₃, hfree₃, houtput₃, hkept₃⟩ :=
        ih (hlaid₂.reorder (.swap _ _ _)) (hkept₂.freeList hfree₁) houtput₂ (Nat.le_of_succ_le_succ hn)
      rw [append_assoc] at hlaid₃ houtput₃
      refine ⟨pool₃, output₃, ?_, hlaid₃, hfree₃, houtput₃, (hkept₁.trans hkept₂.toKept).trans hkept₃⟩
      simp only [admitLoop, e₁, e₂, some_bind]
      exact e₃

/-- **Records are taken** from the front of one chain and put behind another. More than there are
  cannot be taken. -/
theorem takeRecordValues_spec {input output : ReportRecords} {n : Nat} (h : Laid target pool (xs :: ys :: S))
    (hinput : Describes input xs) (houtput : Describes output ys) :
    (xs.length < n ∧ takeRecordValues n pool input output = none) ∨
      n ≤ xs.length ∧ ∃ pool' input' output', takeRecordValues n pool input output = some (pool', input', output') ∧
        Laid target pool' (xs.drop n :: (ys ++ xs.take n) :: S) ∧ Describes input' (xs.drop n) ∧
        Describes output' (ys ++ xs.take n) ∧ Relinked pool pool' := by
  induction n generalizing pool input output xs ys with
  | zero =>
    rw [take_zero, append_nil]
    exact .inr ⟨Nat.zero_le _, pool, input, output, rfl, h, hinput, houtput, .refl pool⟩
  | succ n ih =>
    cases xs with
    | nil =>
      refine .inl ⟨Nat.succ_pos n, ?_⟩
      rw [takeRecordValues, detachRecord_nil hinput]
      rfl
    | cons handle xs =>
      obtain ⟨pool₁, input₁, e₁, hlaid₁, hinput₁, hkept₁⟩ := detachRecord_spec h hinput
      have hperm₁ : [[handle], xs, ys].Perm [ys, [handle], xs] :=
        (perm_append_singleton ys [[handle], xs]).symm.symm
      obtain ⟨pool₂, output₂, e₂, hlaid₂, houtput₂, hkept₂⟩ :=
        appendRecord_spec (hlaid₁.reorder (hperm₁.append_right S)) houtput
      have hstep : takeRecordValues (n + 1) pool input output = takeRecordValues n pool₂ input₁ output₂ := by
        simp only [takeRecordValues, e₁, e₂, some_bind]
      rcases ih (hlaid₂.reorder (.swap _ _ _)) hinput₁ houtput₂ with ⟨hlt, hnone⟩ | ⟨hle, pool₃, input₃, output₃,
        e₃, hlaid₃, hinput₃, houtput₃, hkept₃⟩
      · exact .inl ⟨Nat.succ_lt_succ hlt, hstep.trans hnone⟩
      · rw [append_assoc] at hlaid₃ houtput₃
        exact .inr ⟨Nat.succ_le_succ hle, pool₃, input₃, output₃, hstep.trans e₃, hlaid₃, hinput₃, houtput₃,
          (hkept₁.trans hkept₂).trans hkept₃⟩

/-- **A chain is put behind another.** -/
theorem appendRecordValues_spec {left right : ReportRecords} (h : Laid target pool (xs :: ys :: S))
    (hleft : Describes left xs) (hright : Describes right ys) :
    ∃ pool' left' right', appendRecordValues pool left right = some (pool', left', right') ∧
      Laid target pool' ((xs ++ ys) :: [] :: S) ∧ Describes left' (xs ++ ys) ∧ Describes right' [] ∧
      Relinked pool pool' := by
  rw [appendRecordValues]
  by_cases hys : ys = []
  · subst hys
    rw [if_pos hright.count_zero, append_nil]
    exact ⟨pool, left, right, rfl, h, hleft, hright, .refl pool⟩
  · rw [if_neg (hright.count_ne_zero hys)]
    rcases eq_nil_or_concat xs with rfl | ⟨l, x, rfl⟩
    · rw [if_pos hleft.count_zero, nil_append]
      refine ⟨pool, ⟨right.head, right.tail, left.count + right.count⟩, emptyRecords, rfl,
        h.reorder (.swap _ _ _), ⟨hright.head_eq, hright.tail_eq, ?_⟩, .empty, .refl pool⟩
      rw [hleft.count_zero, hright.count_eq, Nat.zero_add]
    · have htail : left.tail = x := by rw [hleft.tail_eq, concat_eq_append, getLastD_concat]
      rw [concat_eq_append] at h hleft ⊢
      obtain ⟨entry, hrecord⟩ := h.record_some (.head _) (Laid.mem_front (r := []))
      have hne : l ++ [x] ≠ [] := append_ne_nil_of_right_ne_nil l (cons_ne_nil x [])
      rw [if_neg (hleft.count_ne_zero hne), htail, hrecord]
      refine ⟨pool.store x { entry with next := right.head },
        ⟨left.head, right.tail, left.count + right.count⟩, emptyRecords, rfl, ?_, ⟨?_, ?_, ?_⟩, .empty,
        relinked_store h.indexed hrecord rfl⟩
      · have htie : Laid target (pool.store x { entry with next := right.head }) ((l ++ x :: ys) :: S) :=
          h.tie hrecord hright.head_eq
        rw [append_assoc]
        exact Laid.reorder ⟨htie.indexed, htie.strands.cons_nil⟩ (.swap _ _ _)
      · rw [hleft.head_eq, append_assoc, singleton_append, headD_append_cons, headD_append_cons]
      · obtain ⟨y, ys', rfl⟩ := exists_cons_of_ne_nil hys
        rw [hright.tail_eq, getLastD_cons_append, getLastD_cons]
      · rw [hleft.count_eq, hright.count_eq, ← length_append]

/-- **The first record of a chain is given back**: it leaves the chain and opens the free list, with
  its report handed out and its extent cleared. -/
theorem popRecordValue_spec [Inhabited V] (h : Laid target pool ((handle :: xs) :: free :: S))
    (hchain : Describes chain (handle :: xs)) (hfree : FreeList pool free) :
    ∃ entry pool' chain', pool.record handle = some entry ∧
      popRecordValue pool chain = some (entry.value, pool', chain') ∧
      Laid target pool' (xs :: (handle :: free) :: S) ∧ Describes chain' xs ∧ FreeList pool' (handle :: free) ∧
      pool'.credits = pool.credits ∧ pool'.storage = pool.storage ∧ pool'.nextEpoch = pool.nextEpoch ∧
      pool'.remainingEpochs = pool.remainingEpochs := by
  obtain ⟨entry, hrecord⟩ := h.record_some (.head _) (.head _)
  obtain ⟨pool₁, chain₁, e₁, hlaid₁, hchain₁, hkept₁⟩ := detachRecord_spec h hchain
  obtain ⟨entry₁, hrecord₁⟩ := hlaid₁.record_some (.head _) (.head _)
  have hvalue : entry₁.value = entry.value := by
    have hget := (h.indexed.next_eq hrecord).2.2.2
    have hget₁ := (hlaid₁.indexed.next_eq hrecord₁).2.2.2
    have hbody : (pool₁.records.map ReportRecord.body)[handle - 1]? =
      (pool.records.map ReportRecord.body)[handle - 1]? := by rw [hkept₁.bodies]
    rw [getElem?_map, getElem?_map, hget, hget₁, Option.map_some, Option.map_some] at hbody
    have hsame : entry₁.body = entry.body := Option.some.inj hbody
    exact (ReportRecord.mk.inj hsame).1
  have hperm : ([handle] :: xs :: free :: S).Perm ([handle] :: free :: xs :: S) := (List.Perm.swap _ _ _).cons _
  have htie : Laid target (pool₁.store handle { entry₁ with
    value := default, segmentCount := 0, segmentTail := 0, next := pool₁.free }) ((handle :: free) :: xs :: S) :=
    (hlaid₁.reorder hperm).tie hrecord₁ (hkept₁.freeList hfree).head_eq (l := [])
  refine ⟨entry, { pool₁.store handle { entry₁ with
    value := default, segmentCount := 0, segmentTail := 0, next := pool₁.free } with
    free := handle, available := pool₁.available + 1 }, chain₁, hrecord, ?_,
    Laid.reorder ⟨⟨htie.indexed.contiguous, htie.indexed.total_eq, htie.indexed.limit⟩, htie.strands⟩ (.swap _ _ _),
    hchain₁, ⟨rfl, ?_⟩, hkept₁.credits, hkept₁.storage, hkept₁.nextEpoch, hkept₁.remainingEpochs⟩
  · simp only [popRecordValue, e₁, hrecord₁, some_bind, hvalue]
    rfl
  · rw [hkept₁.available, hfree.length_eq]
    rfl

/-! ## 5. Segments -/

/-- The extent that the first record of `xs` keeps is that of `xs`. -/
def Marked (pool : ReportPool V) (xs : List Nat) (segment : ReportSegment) : Prop :=
  ∃ entry, pool.record (xs.headD 0) = some entry ∧ entry.segment = segment ∧
    entry.segmentTail = xs.getLastD 0 ∧ entry.segmentCount = xs.length

theorem reportSegmentMark_spec (h : Laid target pool (xs :: S)) (hchain : Describes chain xs)
    (hne : xs ≠ []) (segment : ReportSegment) :
    ∃ entry pool', pool.record (xs.headD 0) = some entry ∧ reportSegmentMark pool chain segment = some pool' ∧
      pool' = pool.store (xs.headD 0) { entry with
      segment := segment, segmentTail := xs.getLastD 0, segmentCount := xs.length } ∧
    Laid target pool' (xs :: S) := by
  obtain ⟨x, xs, rfl⟩ := exists_cons_of_ne_nil hne
  obtain ⟨entry, hrecord⟩ := h.record_some (.head _) (.head _)
  refine ⟨entry, _, hrecord, ?_, rfl, h.store hrecord rfl⟩
  rw [reportSegmentMark, hchain.head_eq, hchain.tail_eq, hchain.count_eq, headD_cons, hrecord]
  rfl

/-- **A segment is taken** from the front of a chain. -/
theorem takeSegmentValues_spec {source : ReportRecords} {segment : ReportSegment}
    (h : Laid target pool ((xs ++ ys) :: S)) (hsource : Describes source (xs ++ ys)) (hne : xs ≠ [])
    (hmarked : Marked pool xs segment) :
    ∃ pool' source' output, takeSegmentValues pool source = some (pool', source', segment, output) ∧
      Laid target pool' (xs :: ys :: S) ∧ Describes source' ys ∧ Describes output xs ∧ Relinked pool pool' := by
  obtain ⟨first, hfirst, hsegment, htail, hcount⟩ := hmarked
  have hhead : source.head = xs.headD 0 := by
    rw [hsource.head_eq]
    obtain ⟨x, xs, rfl⟩ := exists_cons_of_ne_nil hne
    rfl
  rcases eq_nil_or_concat xs with rfl | ⟨l, x, rfl⟩
  · exact absurd rfl hne
  rw [concat_eq_append] at *
  have hfront : ((l ++ [x]) ++ ys) = l ++ x :: ys := by rw [append_assoc]; rfl
  rw [hfront] at h
  rw [getLastD_concat] at htail
  obtain ⟨entry, hrecord⟩ := h.record_some (.head _) (Laid.mem_front (r := ys))
  have hnext : entry.next = ys.headD 0 := by
    rw [← (h.indexed.next_eq hrecord).1]
    exact Laid.next_eq h
  have hsub : checkedSub source.count (l ++ [x]).length = some ys.length := by
    have hlen : (l ++ [x] ++ ys).length = (l ++ [x]).length + ys.length := length_append
    rw [hsource.count_eq, hlen, checkedSub_eq (Nat.le_add_right _ _), Nat.add_sub_cancel_left]
  refine ⟨pool.store x { entry with next := 0 }, ⟨entry.next, if ys.length = 0 then 0 else source.tail, ys.length⟩,
    ⟨(l ++ [x]).headD 0, x, (l ++ [x]).length⟩, ?_, h.cut hrecord rfl, ⟨hnext, ?_, rfl⟩, ⟨rfl, ?_, rfl⟩,
    relinked_store h.indexed hrecord rfl⟩
  · rw [takeSegmentValues, recordSegmentValue, hhead, hfirst]
    simp only [some_bind, htail, hrecord, hcount, hsub, hsegment]
  · cases ys with
    | nil => rfl
    | cons y ys =>
      show source.tail = _
      rw [hsource.tail_eq, getLastD_cons_append, getLastD_cons]
  · exact (getLastD_concat l x 0).symm

/-! ## 6. Growth -/

/-- The head that the entry with index `k` of a new slab is linked to. -/
def headAt (first head k : Nat) : Nat := if k = 0 then head else first + (k - 1)

/-- The loop fills in `n` entries, each linked to the one before. -/
theorem fill_spec (make : Nat → Nat → α) (first head index : Nat) {n : Nat} {buffer : RawBuffer α}
    (hroom : buffer.items.length + n ≤ buffer.capacity) :
    ∃ buffer', fill make first n buffer head index = some (buffer', headAt (first + index) head n) ∧
      buffer'.items = buffer.items ++ (List.range n).map fun k => make (headAt (first + index) head k) (index + k) := by
  induction n generalizing buffer head index with
  | zero => exact ⟨buffer, rfl, by rw [range_zero, map_nil, append_nil]⟩
  | succ n ih =>
    obtain ⟨buffer₁, e₁, hitems₁, hcap₁, -⟩ :=
      RawBuffer.initializeSpare_eq (show buffer.items.length < buffer.capacity by omega) (make head index)
    have hroom₁ : buffer₁.items.length + n ≤ buffer₁.capacity := by
      rw [hitems₁, hcap₁, length_append, length_singleton]
      omega
    -- the entry just made is the head of the entries to come
    have hheads : ∀ k, headAt (first + (index + 1)) (first + index) k = headAt (first + index) head (k + 1) := by
      intro k
      unfold headAt
      split
      · subst_vars
        rfl
      · rw [if_neg (Nat.succ_ne_zero k)]
        omega
    obtain ⟨buffer₂, e₂, hitems₂⟩ := ih (first + index) (index + 1) hroom₁
    refine ⟨buffer₂, ?_, ?_⟩
    · rw [fill, e₁, some_bind, e₂, hheads]
    · rw [hitems₂, hitems₁, append_assoc, range_succ_eq_map, map_cons, map_map]
      refine congrArg (buffer.items ++ ·) (congrArg₂ List.cons rfl (map_congr_left fun k _ => ?_))
      rw [hheads, Function.comp_apply, Nat.succ_eq_add_one, Nat.add_right_comm index 1 k, Nat.add_assoc index k 1]

/-- The new cells, from the last one down, are linked in front of `head`. -/
theorem strung_fresh {next : Nat → Nat} {first head n : Nat}
    (h : ∀ k, k < n → next (first + k) = headAt first head k) : Strung next (List.range' first n).reverse head := by
  induction n with
  | zero => trivial
  | succ n ih =>
    rw [range'_1_concat, reverse_append, reverse_singleton, singleton_append]
    refine ⟨?_, ih fun k hk => h k (Nat.lt_succ_of_lt hk)⟩
    rw [h n (Nat.lt_succ_self n), headAt]
    cases n with
    | zero => rfl
    | succ n =>
      rw [if_neg (Nat.succ_ne_zero n), range'_1_concat, reverse_append, reverse_singleton]
      rfl

theorem headD_fresh (first head n : Nat) : (List.range' first n).reverse.headD head = headAt first head n := by
  cases n with
  | zero => rfl
  | succ n =>
    rw [range'_1_concat, reverse_append, reverse_singleton]
    rfl

/-- The handles that a growth by `n` adds to the free list. -/
def freshHandles (total n : Nat) : List Nat := (List.range' (total + 1) n).reverse

/-- Credits and storage are kept, and the old records are. -/
structure Extended (pool pool' : ReportPool V) : Prop where
  records : ∃ fresh, pool'.records = pool.records ++ fresh
  credits : pool'.credits = pool.credits
  storage : pool'.storage = pool.storage
  nextEpoch : pool'.nextEpoch = pool.nextEpoch
  remainingEpochs : pool'.remainingEpochs = pool.remainingEpochs

/-- **A filled slab is put behind the others**, and its records in front of the free list. -/
theorem installRecords_spec [Inhabited V] {n : Nat} {index : RawBuffer (ReportSlab V)}
    {storage : RawBuffer (ReportRecord V)} (h : Laid target pool (free :: S)) (hfree : FreeList pool free)
    (hindex : pool.slabs = some index) (hroom : index.items.length < index.capacity)
    (hstorage : n ≤ storage.capacity) (hempty : storage.items = []) (hpos : 0 < n)
    (hlimit : pool.total + n ≤ target.recordLimit) : ∃ pool', installRecords pool n storage = some pool' ∧
      Laid target pool' ((freshHandles pool.total n ++ free) :: S) ∧
      FreeList pool' (freshHandles pool.total n ++ free) ∧ pool'.total = pool.total + n ∧ Extended pool pool' := by
  have hspace : storage.items.length + n ≤ storage.capacity := by
    rw [hempty, length_nil, Nat.zero_add]
    exact hstorage
  obtain ⟨slab, efill, hslab⟩ := fill_spec (freshRecord (V := V)) (pool.total + 1) pool.free 0 hspace
  rw [hempty, nil_append, Nat.add_zero] at hslab
  obtain ⟨index', eindex, hitems', -, -⟩ := RawBuffer.initializeSpare_eq hroom
    (⟨pool.total + 1, slab.items, ()⟩ : ReportSlab V)
  have hlen : slab.items.length = n := by rw [hslab, length_map, length_range]
  have hrecords : Slab.flat index.items = pool.records := by rw [ReportPool.records, hindex, held_some]
  have hrecords' : Slab.flat index'.items = pool.records ++ slab.items := by
    rw [hitems', Slab.flat_concat, hrecords]
  refine ⟨{ pool with
    slabs := some index', free := headAt (pool.total + 1) pool.free n
    available := pool.available + n, total := pool.total + n }, ?_, ⟨⟨?_, ?_, hlimit⟩, ?_⟩, ⟨?_, ?_⟩, rfl,
    ⟨⟨slab.items, hrecords'⟩, rfl, rfl, rfl, rfl⟩⟩
  · simp only [installRecords, efill, hindex, eindex, some_bind, Nat.add_zero]
  · show Slab.Contiguous 1 index'.items
    rw [hitems']
    have hold := h.indexed.contiguous
    rw [hindex, held_some] at hold
    refine hold.append ?_ ?_
    · rw [hrecords, h.indexed.total_eq, Nat.add_comm]
    · exact ne_nil_of_length_pos (hlen ▸ hpos)
  · show (Slab.flat index'.items).length = pool.total + n
    rw [hrecords', length_append, h.indexed.total_eq, hlen]
  · refine h.strands.grow (reverse_perm _) (fun y h0 hle => ?_) ?_
    · rw [ReportPool.next, ReportPool.next, if_neg h0, if_neg h0]
      show ((Slab.flat index'.items)[y - 1]?.map ReportRecord.next).getD 0 = _
      rw [hrecords', getElem?_append_left (by rw [h.indexed.total_eq]; omega)]
    · rw [← hfree.head_eq]
      refine strung_fresh fun k hk => ?_
      rw [ReportPool.next, if_neg (by omega)]
      show ((Slab.flat index'.items)[pool.total + 1 + k - 1]?.map ReportRecord.next).getD 0 = _
      have hpos' : pool.total + 1 + k - 1 = pool.records.length + k := by
        rw [h.indexed.total_eq]
        omega
      rw [hrecords', hpos', getElem?_append_right (Nat.le_add_right _ _), Nat.add_sub_cancel_left, hslab,
        getElem?_map, getElem?_range hk]
      rfl
  · rw [freshHandles, Strung.headD_append, headD_fresh, hfree.head_eq]
  · show pool.available + n = (freshHandles pool.total n ++ free).length
    rw [length_append, freshHandles, length_reverse, length_range', hfree.length_eq, Nat.add_comm]

theorem additionalRecords_bounds (total : Nat) {limit required : Nat} (h : required ≤ limit) :
    required ≤ additionalRecords total limit required ∧ additionalRecords total limit required ≤ limit := by
  unfold additionalRecords
  split <;> omega

/-- The table that holds the slabs is replaced by another with the same slabs. -/
theorem Laid.reindex {slabs : Option (RawBuffer (ReportSlab V))} (h : Laid target pool S)
    (hslabs : held slabs = held pool.slabs) :
    Laid target { pool with slabs := slabs } S ∧ Extended pool { pool with slabs := slabs } := by
  have hrecords : ({ pool with slabs := slabs } : ReportPool V).records = pool.records := by
    rw [ReportPool.records, ReportPool.records, hslabs]
  have hnext : ({ pool with slabs := slabs } : ReportPool V).next = pool.next := by
    funext y
    rw [ReportPool.next, ReportPool.next, hrecords]
  refine ⟨⟨⟨?_, ?_, h.indexed.limit⟩, ?_⟩, ⟨⟨[], ?_⟩, rfl, rfl, rfl, rfl⟩⟩
  · rw [hslabs]
    exact h.indexed.contiguous
  · rw [hrecords]
    exact h.indexed.total_eq
  · rw [hnext]
    exact h.strands
  · rw [hrecords, append_nil]

/-- **A reservation of records** never stops the process. It may put new records in front of the free
  list, and where it is ready the free list is long enough. -/
theorem reserveRecords_spec [Inhabited V] (h : Laid target pool (free :: S)) (hfree : FreeList pool free)
    (count : Nat) (prepared : Prepared V) :
    ∃ reply pool' prepared' fresh, reserveRecords target pool count prepared = some (reply, pool', prepared') ∧
      Laid target pool' ((fresh ++ free) :: S) ∧ FreeList pool' (fresh ++ free) ∧ Extended pool pool' ∧
      (reply = .ok true → count ≤ (fresh ++ free).length) := by
  have hself : Extended pool pool := ⟨⟨[], (append_nil _).symm⟩, rfl, rfl, rfl, rfl⟩
  rw [reserveRecords]
  split
  · rename_i hcount
    exact ⟨_, pool, prepared, [], rfl, h, hfree, hself, fun _ => hfree.length_eq ▸ hcount⟩
  · rw [checkedSub_eq h.indexed.limit, some_bind]
    split
    · exact ⟨_, pool, prepared, [], rfl, h, hfree, hself, fun e => by cases e⟩
    · rename_i hrequired
      obtain ⟨hge, hle⟩ := additionalRecords_bounds pool.total (Nat.not_lt.mp hrequired)
      obtain ⟨hheld, hready⟩ := reserveBuffer_spec target pool.slabs prepared.recordSlabs
      rcases hreply : reserveBuffer target pool.slabs prepared.recordSlabs with ⟨reply, slabs, recordSlabs⟩
      rw [hreply] at hheld hready
      obtain ⟨hlaid, hext⟩ := h.reindex hheld
      have hfree' : FreeList { pool with slabs := slabs } free := ⟨hfree.head_eq, hfree.length_eq⟩
      simp only
      split
      · exact ⟨_, _, _, [], rfl, hlaid, hfree', hext, fun e => by cases e⟩
      · exact ⟨_, _, _, [], rfl, hlaid, hfree', hext, fun e => by cases e⟩
      · obtain ⟨index, hindex, hroom⟩ := hready rfl
        split
        · exact ⟨_, _, _, [], rfl, hlaid, hfree', hext, fun e => by cases e⟩
        · split
          · exact ⟨_, _, _, [], rfl, hlaid, hfree', hext, fun e => by cases e⟩
          · rename_i hspace
            rw [not_or, not_not] at hspace
            obtain ⟨pool', einstall, hlaid', hfree'', -, hext'⟩ := installRecords_spec hlaid hfree' hindex hroom
              (Nat.not_lt.mp hspace.1) (eq_nil_of_length_eq_zero hspace.2) (by omega) (by
                show pool.total + _ ≤ _
                omega)
            rw [einstall, some_bind]
            refine ⟨_, pool', _, _, rfl, hlaid', hfree'', ?_, fun _ => ?_⟩
            · obtain ⟨fresh, hfresh⟩ := hext'.records
              obtain ⟨fresh₀, hfresh₀⟩ := hext.records
              exact ⟨⟨fresh₀ ++ fresh, by rw [hfresh, hfresh₀, append_assoc]⟩, hext'.credits, hext'.storage,
                hext'.nextEpoch, hext'.remainingEpochs⟩
            · rw [length_append, freshHandles, length_reverse, length_range', ← hfree.length_eq]
              omega

end Bray.Pool
