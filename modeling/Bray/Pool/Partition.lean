/-
  File:      Bray/Pool/Partition.lean
  Subject:   THE CHAINS OF A RUN. The pool together with the headers that its callers hold, and the
    operations they may call on them.

  A caller holds headers by value. `step` reads the headers that an operation names, calls the
  function and writes the headers back in the order of the source. Whatever stops the process ends
  the run.

  * `Holds` -- the handles are the free list and one list for each header;
  * `step_holds` -- every operation keeps that, where it is called as `Allowed` says;
  * `reachable_holds` -- so every run does.
-/
import Bray.Lib.Run
import Bray.Pool.Chains

namespace Bray.Pool

open Bray.Lib List Option

variable {V : Type}

/-! ## 1. The machine -/

/-- The pool and the headers that are held outside it. -/
structure Board (V : Type) where
  pool : ReportPool V
  chains : List ReportRecords

def Board.start (V : Type) : Board V := ⟨.start V, []⟩

inductive ChainOp (V : Type)
  /-- A caller makes an empty header. -/
  | fresh
  /-- One locked attempt of `report_records_admit`. -/
  | admission (i count : Nat) (prepared : Prepared V)
  | take (source count destination : Nat)
  | append (destination source : Nat)
  | mark (i : Nat) (segment : ReportSegment)
  | segmentTake (i : Nat)
  | pop (i : Nat)

inductive ChainAnswer (V : Type)
  | done
  | status (status : Nat)
  | postponed (request : Request)
  | segment (metadata : ReportSegment) (records : ReportRecords)
  | value (value : V)

/-- The process has stopped. -/
inductive Stop
  | stopped

def orStop {α : Type} : Option α → Except Stop α
  | some a => .ok a
  | none => .error .stopped

theorem orStop_ok {α : Type} {x : Option α} {a : α} (h : orStop x = .ok a) : x = some a := by
  cases x with
  | none => cases h
  | some b => cases h; rfl

/-- One operation, as its caller sees it. -/
def perform [Inhabited V] (target : Target) (board : Board V) : ChainOp V → Option (Board V × ChainAnswer V)
  | .fresh => some ({ board with chains := board.chains ++ [emptyRecords] }, .done)
  | .admission i count prepared => do
    let output ← board.chains[i]?
    let (reply, pool, _) ← admitRecordValues target board.pool count output prepared
    match reply with
    | .error request => some ({ board with pool := pool }, .postponed request)
    | .ok (status, output) => some (⟨pool, board.chains.set i output⟩, .status status)
  | .take source count destination => do
    let input ← board.chains[source]?
    let output ← board.chains[destination]?
    let (pool, input, output) ← takeRecordValues count board.pool input output
    some (⟨pool, (board.chains.set source input).set destination output⟩, .done)
  | .append destination source => do
    let left ← board.chains[destination]?
    let right ← board.chains[source]?
    let (pool, left, right) ← appendRecordValues board.pool left right
    some (⟨pool, (board.chains.set destination left).set source right⟩, .done)
  | .mark i segment => do
    let chain ← board.chains[i]?
    let pool ← reportSegmentMark board.pool chain segment
    some ({ board with pool := pool }, .done)
  | .segmentTake i => do
    let source ← board.chains[i]?
    let (pool, source, segment, output) ← takeSegmentValues board.pool source
    some (⟨pool, board.chains.set i source ++ [output]⟩, .segment segment output)
  | .pop i => do
    let chain ← board.chains[i]?
    let (value, pool, chain) ← popRecordValue board.pool chain
    some (⟨pool, board.chains.set i chain⟩, .value value)

def step [Inhabited V] (target : Target) (board : Board V) (op : ChainOp V) :
  Except Stop (Board V × ChainAnswer V) :=
  orStop (perform target board op)

/-- How the operations are to be called. The two chains of an operation are two chains, and a segment
  is taken from a chain whose first record keeps the extent of a front part of the chain. -/
def Allowed (board : Board V) : ChainOp V → Prop
  | .take source _ destination => source ≠ destination
  | .append destination source => destination ≠ source
  | .segmentTake i => ∃ chain xs ys segment, board.chains[i]? = some chain ∧
    Chain board.pool.next chain.head (xs ++ ys) ∧ xs ≠ [] ∧ Marked board.pool xs segment
  | _ => True

/-! ## 2. What every state satisfies -/

/-- The handles are the free list and one list for each header. -/
structure Holds (target : Target) (board : Board V) (free : List Nat) (lists : List (List Nat)) : Prop where
  laid : Laid target board.pool (free :: lists)
  freeList : FreeList board.pool free
  headers : List.Forall₂ Describes board.chains lists

/-- Only records are touched. -/
structure RecordsOnly (pool pool' : ReportPool V) : Prop where
  credits : pool'.credits = pool.credits
  storage : pool'.storage = pool.storage
  nextEpoch : pool'.nextEpoch = pool.nextEpoch
  remainingEpochs : pool'.remainingEpochs = pool.remainingEpochs

namespace RecordsOnly

variable {pool pool' : ReportPool V}

theorem refl (pool : ReportPool V) : RecordsOnly pool pool := ⟨rfl, rfl, rfl, rfl⟩

theorem trans {a b c : ReportPool V} (h : RecordsOnly a b) (h' : RecordsOnly b c) : RecordsOnly a c :=
  ⟨h'.credits.trans h.credits, h'.storage.trans h.storage, h'.nextEpoch.trans h.nextEpoch,
    h'.remainingEpochs.trans h.remainingEpochs⟩

theorem of_kept (h : Kept pool pool') : RecordsOnly pool pool' :=
  ⟨h.credits, h.storage, h.nextEpoch, h.remainingEpochs⟩

theorem of_extended (h : Extended pool pool') : RecordsOnly pool pool' :=
  ⟨h.credits, h.storage, h.nextEpoch, h.remainingEpochs⟩

end RecordsOnly

section Lists

variable {target : Target} {pool : ReportPool V} {free xs ys : List Nat} {lists : List (List Nat)} {i j : Nat}
  {chains : List ReportRecords} {header header' : ReportRecords}

/-- A chain is taken in hand. -/
theorem Laid.lift (h : Laid target pool (free :: lists)) (hi : lists[i]? = some xs) :
    Laid target pool (xs :: free :: lists.set i []) :=
  ⟨h.indexed, h.strands.lift (i := i + 1) hi⟩

/-- And put back. -/
theorem Laid.place (h : Laid target pool (xs :: free :: lists)) (hi : lists[i]? = some []) :
    Laid target pool (free :: lists.set i xs) :=
  ⟨h.indexed, h.strands.place (i := i + 1) hi⟩

/-- A second chain is taken in hand. -/
theorem Laid.lift_two (h : Laid target pool (free :: lists)) (hne : i ≠ j) (hi : lists[i]? = some xs)
    (hj : lists[j]? = some ys) : Laid target pool (xs :: ys :: free :: (lists.set i []).set j []) := by
  have hj' : (lists.set i [])[j]? = some ys := by rw [getElem?_set_ne hne, hj]
  have h' : Laid target pool (ys :: xs :: free :: (lists.set i []).set j []) :=
    ⟨h.indexed, (h.lift hi).strands.lift (i := j + 2) hj'⟩
  exact h'.reorder (.swap _ _ _)

theorem Laid.place_two (h : Laid target pool (xs :: ys :: free :: (lists.set i []).set j [])) (hne : i ≠ j)
    (hi : i < lists.length) (hj : j < lists.length) : Laid target pool (free :: (lists.set i xs).set j ys) := by
  have hi' : ((lists.set i []).set j [])[i]? = some [] := by
    rw [getElem?_set_ne hne.symm, getElem?_set_self hi]
  have hj' : ((lists.set i xs).set j [])[j]? = some [] :=
    getElem?_set_self (by rw [length_set]; exact hj)
  have h₁ : Laid target pool (ys :: free :: ((lists.set i []).set j []).set i xs) :=
    ⟨h.indexed, h.strands.place (i := i + 2) hi'⟩
  rw [set_comm _ _ hne.symm, set_set] at h₁
  have h₂ := h₁.place hj'
  rwa [set_set] at h₂

end Lists

theorem mem_flatten_set {lists : List (List Nat)} {i x : Nat} {xs zs : List Nat} (hi : lists[i]? = some xs)
    (hsub : x ∈ xs → x ∈ zs) (hx : x ∈ lists.flatten) : x ∈ (lists.set i zs).flatten := by
  obtain ⟨ys, hys, hxy⟩ := List.mem_flatten.mp hx
  obtain ⟨j, hj⟩ := mem_iff_getElem?.mp hys
  by_cases hij : i = j
  · subst hij
    rw [hi] at hj
    cases hj
    exact List.mem_flatten.mpr ⟨zs, List.mem_of_getElem? (getElem?_set_self (List.getElem_of_getElem? hi).1),
      hsub hxy⟩
  · exact List.mem_flatten.mpr ⟨ys, List.mem_of_getElem? (by rw [getElem?_set_ne hij, hj]), hxy⟩

/-- The record that an operation gives back. -/
def freedBy (board : Board V) : ChainOp V → Option Nat
  | .pop i => (board.chains[i]?).map ReportRecords.head
  | _ => none

/-- What an operation does to the free list: it keeps it, puts the freed record in front, or leaves as
  many records as there are credits. The records of the chains stay in chains, but for the freed one. -/
structure Effect (board board' : Board V) (free free' : List Nat) (lists lists' : List (List Nat))
  (freed : Option Nat) : Prop extends RecordsOnly board.pool board'.pool where
  kept : ∀ x ∈ lists.flatten, x ∈ lists'.flatten ∨ freed = some x
  room : board.pool.credits ≤ free'.length ∨ free.length + freed.toList.length ≤ free'.length

/-! ## 3. One operation -/

namespace Holds

variable [Inhabited V] {target : Target} {board : Board V} {free xs ys : List Nat} {lists : List (List Nat)}
  {i j n : Nat} {segment : ReportSegment}

theorem start (target : Target) : Holds target (Board.start V) [] [] where
  laid := {
    indexed := ⟨trivial, rfl, Nat.zero_le _⟩
    strands := ⟨.refl _, fun xs hxs => by
      rcases mem_singleton.mp hxs with rfl
      trivial⟩ }
  freeList := ⟨rfl, rfl⟩
  headers := .nil

theorem get (h : Holds target board free lists) {header : ReportRecords} (hi : board.chains[i]? = some header) :
  ∃ xs, lists[i]? = some xs ∧ Describes header xs := agree_get h.headers hi

theorem header (h : Holds target board free lists) (hi : lists[i]? = some xs) :
  ∃ header, board.chains[i]? = some header ∧ Describes header xs := agree_get_right h.headers hi

theorem length_pos (hi : lists[i]? = some xs) : i < lists.length := (List.getElem_of_getElem? hi).1

section

variable (h : Holds target board free lists)
include h

/-- The strand of a header is the list of its chain. -/
theorem chain {header : ReportRecords} (hi : board.chains[i]? = some header)
    (hxs : lists[i]? = some xs) : Chain board.pool.next header.head xs ∧ Describes header xs := by
  obtain ⟨xs', hxs', hd⟩ := h.get hi
  rw [hxs] at hxs'
  cases hxs'
  refine ⟨?_, hd⟩
  rw [hd.head_eq]
  exact h.laid.strands.strand_chain (.tail _ (List.mem_of_getElem? hxs))

theorem fresh :
  Holds target { board with chains := board.chains ++ [emptyRecords] } free (lists ++ [[]]) where
  laid := by
    have hperm : ([] :: free :: lists).Perm (free :: (lists ++ [[]])) :=
      (perm_append_singleton [] (free :: lists)).symm
    exact Laid.reorder ⟨h.laid.indexed, h.laid.strands.cons_nil⟩ hperm
  freeList := h.freeList
  headers := rel_append h.headers (.cons .empty .nil)

/-- **An admission** either leaves the chains as they are, or moves the front of the free list, new
  records included, behind its chain. -/
theorem admission (hi : lists[i]? = some xs) (count : Nat) (prepared : Prepared V) :
    ∃ board' answer fresh moved, perform target board (.admission i count prepared) = some (board', answer) ∧
      (moved = 0 ∨ moved = count ∧ board.pool.credits + count ≤ (fresh ++ free).length) ∧
      Holds target board' ((fresh ++ free).drop moved) (lists.set i (xs ++ (fresh ++ free).take moved)) ∧
      RecordsOnly board.pool board'.pool := by
  obtain ⟨header, hheader, hd⟩ := h.header hi
  have hset : lists.set i xs = lists := set_same hi
  simp only [perform, hheader, admitRecordValues, bind_eq_bind, bind_some]
  split
  · refine ⟨_, _, [], 0, rfl, .inl rfl, ⟨?_, h.freeList, ?_⟩, .refl _⟩
    · rw [take_zero, append_nil, hset]
      exact h.laid
    · rw [take_zero, append_nil]
      exact agree_set h.headers hd
  · obtain ⟨reply, pool, prepared', fresh, ereserve, hlaid, hfree, hext, hready⟩ :=
    reserveRecords_spec h.laid h.freeList (board.pool.credits + count) prepared
    simp only [ereserve, bind_some]
    match reply, hready with
    | .error request, _ =>
      refine ⟨_, _, fresh, 0, rfl, .inl rfl, ⟨?_, hfree, ?_⟩, .of_extended hext⟩
      · rw [take_zero, append_nil, hset]
        exact hlaid
      · rw [take_zero, append_nil, hset]
        exact h.headers
    | .ok false, _ =>
      refine ⟨_, _, fresh, 0, rfl, .inl rfl, ⟨?_, hfree, ?_⟩, .of_extended hext⟩
      · rw [take_zero, append_nil, hset]
        exact hlaid
      · rw [take_zero, append_nil]
        exact agree_set h.headers hd
    | .ok true, hready =>
      have hcount : count ≤ (fresh ++ free).length := Nat.le_trans (Nat.le_add_left _ _) (hready rfl)
      obtain ⟨pool', output', eloop, hlaid', hfree', hd', hkept⟩ :=
        admitLoop_spec ((hlaid.lift hi).reorder (.swap _ _ _)) hfree hd hcount
      simp only [eloop, bind_some]
      refine ⟨_, _, fresh, count, rfl, .inr ⟨rfl, hready rfl⟩, ⟨?_, hfree', agree_set h.headers hd'⟩,
        (RecordsOnly.of_extended hext).trans (.of_kept hkept)⟩
      have hplace := (hlaid'.reorder (.swap _ _ _)).place
        (getElem?_set_self (a := ([] : List Nat)) (length_pos hi))
      rwa [set_set] at hplace

/-- **Records are taken** from one chain and put behind another. -/
theorem take (hne : i ≠ j) (hi : lists[i]? = some xs) (hj : lists[j]? = some ys)
    {board' : Board V} {answer : ChainAnswer V} (e : perform target board (.take i n j) = some (board', answer)) :
    Holds target board' free ((lists.set i (xs.drop n)).set j (ys ++ xs.take n)) ∧ Relinked board.pool board'.pool := by
  obtain ⟨input, hinput, hdi⟩ := h.header hi
  obtain ⟨output, houtput, hdo⟩ := h.header hj
  simp only [perform, hinput, houtput, some_bind] at e
  rcases takeRecordValues_spec (n := n) (h.laid.lift_two hne hi hj) hdi hdo with ⟨-, hnone⟩ | ⟨-, pool', input', output',
    etake, hlaid', hdi', hdo', hkept⟩
  · rw [hnone] at e
    cases e
  · simp only [etake, bind_some, Option.some.injEq, Prod.mk.injEq] at e
    obtain ⟨rfl, -⟩ := e
    exact ⟨⟨hlaid'.place_two hne (length_pos hi) (length_pos hj), hkept.freeList h.freeList,
      agree_set (agree_set h.headers hdi') hdo'⟩, hkept⟩

/-- **A chain is put behind another.** -/
theorem append (hne : i ≠ j) (hi : lists[i]? = some xs) (hj : lists[j]? = some ys) :
    ∃ board', perform target board (.append i j) = some (board', .done) ∧
      Holds target board' free ((lists.set i (xs ++ ys)).set j []) ∧ Relinked board.pool board'.pool := by
  obtain ⟨left, hleft, hdl⟩ := h.header hi
  obtain ⟨right, hright, hdr⟩ := h.header hj
  obtain ⟨pool', left', right', eappend, hlaid', hdl', hdr', hkept⟩ :=
    appendRecordValues_spec (h.laid.lift_two hne hi hj) hdl hdr
  simp only [perform, hleft, hright, eappend, some_bind]
  exact ⟨_, rfl, ⟨hlaid'.place_two hne (length_pos hi) (length_pos hj), hkept.freeList h.freeList,
    agree_set (agree_set h.headers hdl') hdr'⟩, hkept⟩

theorem mark (hi : lists[i]? = some xs) (hne : xs ≠ []) (segment : ReportSegment) :
    ∃ entry board', board.pool.record (xs.headD 0) = some entry ∧
      perform target board (.mark i segment) = some (board', .done) ∧ board'.chains = board.chains ∧
      board'.pool = board.pool.store (xs.headD 0) { entry with
      segment := segment, segmentTail := xs.getLastD 0, segmentCount := xs.length } ∧
    Holds target board' free lists := by
  obtain ⟨header, hheader, hd⟩ := h.header hi
  obtain ⟨entry, pool', hrecord, emark, hpool, hlaid⟩ :=
    reportSegmentMark_spec (h.laid.lift hi) hd hne segment
  simp only [perform, hheader, emark, some_bind]
  refine ⟨entry, _, hrecord, rfl, rfl, hpool, ⟨?_, ?_, h.headers⟩⟩
  · have hplace := hlaid.place (getElem?_set_self (a := ([] : List Nat)) (length_pos hi))
    rwa [set_set, set_same hi] at hplace
  · rw [hpool]
    exact ⟨h.freeList.head_eq, h.freeList.length_eq⟩

theorem segmentTake (hi : lists[i]? = some (xs ++ ys)) (hne : xs ≠ []) (hmarked : Marked board.pool xs segment) :
    ∃ board' output, perform target board (.segmentTake i) = some (board', .segment segment output) ∧
      Describes output xs ∧ Holds target board' free (lists.set i ys ++ [xs]) ∧
      Relinked board.pool board'.pool := by
  obtain ⟨source, hsource, hd⟩ := h.header hi
  obtain ⟨pool', source', output, etake, hlaid', hds, hdo, hkept⟩ :=
    takeSegmentValues_spec (h.laid.lift hi) hd hne hmarked
  simp only [perform, hsource, etake, some_bind]
  refine ⟨_, output, rfl, hdo, ⟨?_, hkept.freeList h.freeList, ?_⟩, hkept⟩
  · have hperm : (xs :: ys :: free :: lists.set i []).Perm (ys :: free :: (lists.set i [] ++ [xs])) :=
    (perm_append_singleton xs (ys :: free :: lists.set i [])).symm
    have hget : (lists.set i [] ++ [xs])[i]? = some [] := by
      rw [getElem?_append_left (by rw [length_set]; exact length_pos hi),
        getElem?_set_self (length_pos hi)]
    have hplace := (hlaid'.reorder hperm).place hget
    rwa [set_append_left _ _ (by rw [length_set]; exact length_pos hi), set_set] at hplace
  · exact rel_append (agree_set h.headers hds) (.cons hdo .nil)

/-- **A record is given back.** -/
theorem pop (hi : lists[i]? = some xs) {board' : Board V} {answer : ChainAnswer V}
    (e : perform target board (.pop i) = some (board', answer)) :
    ∃ x, xs = x :: xs.tail ∧ (board.chains[i]?).map ReportRecords.head = some x ∧
      Holds target board' (x :: free) (lists.set i xs.tail) ∧ RecordsOnly board.pool board'.pool := by
  obtain ⟨header, hheader, hd⟩ := h.header hi
  simp only [perform, hheader, some_bind] at e
  cases xs with
  | nil =>
    simp only [popRecordValue, detachRecord_nil hd] at e
    cases e
  | cons x xs =>
    obtain ⟨entry, pool', chain', -, epop, hlaid', hd', hfree', hcredits, hstorage, hnext, hremaining⟩ :=
      popRecordValue_spec (h.laid.lift hi) hd h.freeList
    simp only [epop, bind_some, Option.some.injEq, Prod.mk.injEq] at e
    obtain ⟨rfl, -⟩ := e
    refine ⟨x, rfl, ?_, ⟨?_, hfree', agree_set h.headers hd'⟩, ⟨hcredits, hstorage, hnext, hremaining⟩⟩
    · rw [hheader]
      exact congrArg some hd.head_eq
    have hplace := hlaid'.place (getElem?_set_self (a := ([] : List Nat)) (length_pos hi))
    rwa [set_set] at hplace

/-- The handles of the chains are those that are not free. -/
theorem mem_lists {x : Nat} : x ∈ lists.flatten ↔ (x ≠ 0 ∧ x ≤ board.pool.total) ∧ x ∉ free := by
  have hmem := h.laid.strands.mem_iff (x := x)
  have hnodup := h.laid.strands.nodup
  rw [flatten_cons, mem_append] at hmem
  rw [flatten_cons, nodup_append] at hnodup
  rw [← hmem]
  constructor
  · exact fun hx => ⟨.inr hx, fun hfree => hnodup.2.2 x hfree x hx rfl⟩
  · exact fun ⟨hx, hfree⟩ => hx.resolve_left hfree

/-- Links are moved, and the free list is not touched. -/
theorem effect_relinked {board' : Board V} {lists' : List (List Nat)}
    (h' : Holds target board' free lists') (htotal : board'.pool.total = board.pool.total)
  (hrest : RecordsOnly board.pool board'.pool) : Effect board board' free free lists lists' none where
  toRecordsOnly := hrest
  kept x hx := by
    refine .inl (h'.mem_lists.mpr ?_)
    rw [htotal]
    exact h.mem_lists.mp hx
  room := .inr (Nat.le_refl _)

end

/-- **Every operation keeps the partition**, where it is called as it is to be called. -/
theorem step (h : Holds target board free lists) {op : ChainOp V} (hop : Allowed board op) {board' : Board V}
    {answer : ChainAnswer V} (e : perform target board op = some (board', answer)) :
    ∃ free' lists', Holds target board' free' lists' ∧
      Effect board board' free free' lists lists' (freedBy board op) := by
  cases op with
  | fresh =>
    cases e
    exact ⟨_, _, h.fresh, h.effect_relinked h.fresh rfl (.refl _)⟩
  | admission i count prepared =>
    obtain ⟨header, hheader, -⟩ := bind_eq_some_iff.mp e
    obtain ⟨xs, hxs, -⟩ := h.get hheader
    obtain ⟨board₁, answer₁, fresh, moved, e₁, hmoved, h₁, hrest⟩ := h.admission hxs count prepared
    rw [e₁] at e
    cases e
    refine ⟨_, _, h₁, hrest, fun x hx => .inl (mem_flatten_set hxs (mem_append_left _) hx), ?_⟩
    rw [length_drop]
    rcases hmoved with rfl | ⟨rfl, hready⟩
    · refine .inr ?_
      rw [length_append]
      exact Nat.le_add_left _ _
    · exact .inl (by omega)
  | take source count destination =>
    obtain ⟨input, hsource, hrest⟩ := bind_eq_some_iff.mp e
    obtain ⟨output, hdestination, -⟩ := bind_eq_some_iff.mp hrest
    obtain ⟨xs, hxs, -⟩ := h.get hsource
    obtain ⟨ys, hys, -⟩ := h.get hdestination
    obtain ⟨h₁, hkept⟩ := h.take hop hxs hys e
    exact ⟨_, _, h₁, h.effect_relinked h₁ hkept.total (.of_kept hkept.toKept)⟩
  | append destination source =>
    obtain ⟨left, hdestination, hrest⟩ := bind_eq_some_iff.mp e
    obtain ⟨right, hsource, -⟩ := bind_eq_some_iff.mp hrest
    obtain ⟨xs, hxs, -⟩ := h.get hdestination
    obtain ⟨ys, hys, -⟩ := h.get hsource
    obtain ⟨board₁, e₁, h₁, hkept⟩ := h.append hop hxs hys
    rw [e₁] at e
    cases e
    exact ⟨_, _, h₁, h.effect_relinked h₁ hkept.total (.of_kept hkept.toKept)⟩
  | mark i segment =>
    obtain ⟨header, hheader, hrest⟩ := bind_eq_some_iff.mp e
    obtain ⟨xs, hxs, hd⟩ := h.get hheader
    by_cases hne : xs = []
    · -- an empty chain has no record to mark
      obtain ⟨pool', hmark, -⟩ := bind_eq_some_iff.mp hrest
      obtain ⟨first, hfirst, -⟩ := bind_eq_some_iff.mp hmark
      rw [hd.head_eq, hne] at hfirst
      cases hfirst
    · obtain ⟨entry, board₁, -, e₁, -, hpool, h₁⟩ := h.mark hxs hne segment
      rw [e₁] at e
      cases e
      refine ⟨_, _, h₁, h.effect_relinked h₁ ?_ ⟨?_, ?_, ?_, ?_⟩⟩ <;> rw [hpool] <;> rfl
  | segmentTake i =>
    obtain ⟨header, xs, ys, segment, hheader, hchain, hne, hmarked⟩ := hop
    obtain ⟨zs, hzs, -⟩ := h.get hheader
    have hsame : zs = xs ++ ys := (h.chain hheader hzs).1.unique hchain
    rw [hsame] at hzs
    obtain ⟨board₁, output, e₁, -, h₁, hkept⟩ := h.segmentTake hzs hne hmarked
    rw [e₁] at e
    cases e
    exact ⟨_, _, h₁, h.effect_relinked h₁ hkept.total (.of_kept hkept.toKept)⟩
  | pop i =>
    obtain ⟨header, hheader, -⟩ := bind_eq_some_iff.mp e
    obtain ⟨xs, hxs, -⟩ := h.get hheader
    obtain ⟨x, hcons, hhead, h₁, hrest⟩ := h.pop hxs e
    refine ⟨_, _, h₁, hrest, fun y hy => ?_, .inr ?_⟩
    · by_cases hyx : y = x
      · exact .inr (by rw [freedBy, hhead, hyx])
      · refine .inl (mem_flatten_set hxs (fun hmem => ?_) hy)
        rw [hcons] at hmem
        exact (mem_cons.mp hmem).resolve_left hyx
    · rw [freedBy, hhead]
      exact Nat.le_refl _

end Holds

/-- **Every state of a run is a partition of the pool.** -/
theorem reachable_holds [Inhabited V] {target : Target} {tr : List (ChainOp V × ChainAnswer V)} {board : Board V}
    (h : RunWhere Allowed (step target) (Board.start V) tr board) : ∃ free lists, Holds target board free lists := by
  refine h.invariant_trace (P := fun _ board => ∃ free lists, Holds target board free lists) ?_ ⟨[], [], .start target⟩
  rintro tr board op board' answer ⟨free, lists, hholds⟩ hok hs
  obtain ⟨free', lists', hholds', -⟩ := hholds.step hok (orStop_ok hs)
  exact ⟨free', lists', hholds'⟩

end Bray.Pool
