/-
  File:      Bray/Pool/Segments.lean
  Subject:   SEGMENTS. Chains that are marked and put behind one another come back one by one.

  The extent of a segment is kept in its first record. It says where the segment ends as long as the
  records behind the first one stay where they are: marking, putting chains behind one another and
  taking segments leave them there (`gathered`, `taken`). Taking single records does not, and a
  segment taken afterwards is not the chain that was marked (`stale_extent_breaks_chains`).
-/
import Bray.Pool.Partition

namespace Bray.Pool

open Bray.Lib List

variable {V : Type} {target : Target} {pool pool' : ReportPool V} {xs : List Nat} {segment : ReportSegment}

/-! ## 1. Marks are kept -/

theorem Kept.record {handle : Nat} {entry : ReportRecord V} (h : Kept pool pool') (hi : Indexed target pool)
    (hi' : Indexed target pool') (hrecord : pool.record handle = some entry) :
    ∃ entry', pool'.record handle = some entry' ∧ entry'.body = entry.body := by
  obtain ⟨-, h0, hle, hget⟩ := hi.next_eq hrecord
  obtain ⟨entry', hrecord', hget'⟩ := hi'.record_some h0 (h.total.symm ▸ hle)
  refine ⟨entry', hrecord', ?_⟩
  have hbody : (pool'.records.map ReportRecord.body)[handle - 1]? =
    (pool.records.map ReportRecord.body)[handle - 1]? := by rw [h.bodies]
  rw [getElem?_map, getElem?_map, hget, hget', Option.map_some, Option.map_some] at hbody
  exact Option.some.inj hbody

theorem Marked.kept (hmarked : Marked pool xs segment) (h : Kept pool pool') (hi : Indexed target pool)
    (hi' : Indexed target pool') : Marked pool' xs segment := by
  obtain ⟨entry, hrecord, hsegment, htail, hcount⟩ := hmarked
  obtain ⟨entry', hrecord', hbody⟩ := h.record hi hi' hrecord
  obtain ⟨-, -, hsegment', htail', hcount'⟩ := ReportRecord.mk.inj hbody
  exact ⟨entry', hrecord', hsegment'.trans hsegment, htail'.trans htail, hcount'.trans hcount⟩

theorem Indexed.record_store_ne {handle y : Nat} (h : Indexed target pool) (h0 : handle ≠ 0)
    (hle : handle ≤ pool.total) (entry : ReportRecord V) (hy : y ≠ handle) :
    (pool.store handle entry).record y = pool.record y := by
  by_cases hbounds : y ≠ 0 ∧ y ≤ pool.total
  · rw [(h.store h0 hle entry).record_eq hbounds.1 hbounds.2, h.record_eq hbounds.1 hbounds.2,
      h.records_store h0 hle, getElem?_set_ne (by omega)]
  · have hout : y = 0 ∨ pool.total < y := by omega
    rw [ReportPool.record, ReportPool.record, if_pos hout]
    exact if_pos hout

theorem Indexed.record_store_self {handle : Nat} (h : Indexed target pool) (h0 : handle ≠ 0)
    (hle : handle ≤ pool.total) (entry : ReportRecord V) :
    (pool.store handle entry).record handle = some entry := by
  have hlt : handle - 1 < pool.records.length := by
    rw [h.total_eq]
    omega
  rw [(h.store h0 hle entry).record_eq h0 hle, h.records_store h0 hle, getElem?_set_self hlt]

/-! ## 2. Marking and gathering -/

/-- `ops` mark the chains of `picks` and put them behind the chain `d` in their order, each of them
  after it was marked. `marks` is what the chains were last marked with. -/
def Gathers (d : Nat) : (Nat → Option ReportSegment) → List (ChainOp V) → List (Nat × ReportSegment) → Prop
  | _, [], picks => picks = []
  | marks, .mark i segment :: ops, picks =>
    i ∈ picks.map Prod.fst ∧ Gathers d (Function.update marks i (some segment)) ops picks
  | marks, .append destination source :: ops, picks =>
    destination = d ∧ ∃ segment rest, picks = (source, segment) :: rest ∧ marks source = some segment ∧
      Gathers d marks ops rest
  | _, _ :: _, _ => False

/-- The segments that were put behind one another. -/
abbrev Parts := List (ReportSegment × List Nat)

def Parts.handles (parts : Parts) : List Nat := (parts.map Prod.snd).flatten

/-- Each of them is still marked as it was. -/
def Carried (pool : ReportPool V) (parts : Parts) : Prop :=
  ∀ part ∈ parts, part.2 ≠ [] ∧ Marked pool part.2 part.1

section Gather

variable [Inhabited V] {board : Board V} {free : List Nat} {lists : List (List Nat)} {d : Nat}
  {marks : Nat → Option ReportSegment} {ops : List (ChainOp V)} {picks : List (Nat × ReportSegment)} {parts : Parts}

/-- A chain that is picked stays what it was until it is gathered. -/
structure Ready (board : Board V) (lists : List (List Nat)) (d : Nat) (marks : Nat → Option ReportSegment)
  (content : Nat → List Nat) (picks : List (Nat × ReportSegment)) : Prop where
  nodup : (picks.map Prod.fst).Nodup
  fresh : d ∉ picks.map Prod.fst
  list : ∀ i ∈ picks.map Prod.fst, lists[i]? = some (content i) ∧ content i ≠ []
  marked : ∀ i ∈ picks.map Prod.fst, ∀ segment, marks i = some segment → Marked board.pool (content i) segment

/-- Two chains have no record in common. -/
theorem Holds.head_ne (h : Holds target board free lists) {i j : Nat} {ys zs : List Nat} (hne : i ≠ j)
    (hi : lists[i]? = some xs) (hj : lists[j]? = some ys) (hzs : zs ⊆ ys) (hx : xs ≠ []) (hz : zs ≠ []) :
    zs.headD 0 ≠ xs.headD 0 := by
  obtain ⟨x, xs', rfl⟩ := exists_cons_of_ne_nil hx
  obtain ⟨z, zs', rfl⟩ := exists_cons_of_ne_nil hz
  intro hsame
  have hmem : z ∈ ys := hzs (.head _)
  have hzx : z = x := hsame
  rw [hzx] at hmem
  exact (h.laid.lift_two hne hi hj).strands.not_mem_rest (.head _) (.head _) hmem

theorem Parts.subset_handles {part : ReportSegment × List Nat} (h : part ∈ parts) : part.2 ⊆ parts.handles :=
  fun _ hx => mem_flatten.mpr ⟨part.2, mem_map_of_mem h, hx⟩

theorem Parts.handles_concat (parts : Parts) (part : ReportSegment × List Nat) :
    Parts.handles (parts ++ [part]) = parts.handles ++ part.2 := by
  rw [Parts.handles, Parts.handles, map_append, flatten_append]
  simp

variable {content : Nat → List Nat}

/-- A mark is written into the first record of its chain, and no other mark is touched. -/
theorem Ready.mark (h : Holds target board free lists)
    (hready : Ready board lists d marks content picks) (hd : lists[d]? = some parts.handles)
    (hcarried : Carried board.pool parts) {i : Nat} (hi : i ∈ picks.map Prod.fst) (segment : ReportSegment) :
    ∃ board', perform target board (.mark i segment) = some (board', .done) ∧ Holds target board' free lists ∧
      Ready board' lists d (Function.update marks i (some segment)) content picks ∧ Carried board'.pool parts := by
  obtain ⟨hlist, hne⟩ := hready.list i hi
  obtain ⟨entry, board', hrecord, e, -, hpool, h'⟩ := h.mark hlist hne segment
  obtain ⟨-, h0, hle, -⟩ := h.laid.indexed.next_eq hrecord
  have hother : ∀ {ys : List Nat} {s : ReportSegment}, ys.headD 0 ≠ (content i).headD 0 →
    Marked board.pool ys s → Marked board'.pool ys s := by
    rintro ys s hys ⟨entry', hrecord', hrest⟩
    refine ⟨entry', ?_, hrest⟩
    rw [hpool, h.laid.indexed.record_store_ne h0 hle _ hys, hrecord']
  refine ⟨board', e, h', ⟨hready.nodup, hready.fresh, hready.list, fun j hj s hs => ?_⟩, fun part hpart => ?_⟩
  · by_cases hji : j = i
    · subst hji
      rw [Function.update_self, Option.some.injEq] at hs
      subst hs
      refine ⟨{ entry with
        segment := segment, segmentTail := (content j).getLastD 0, segmentCount := (content j).length },
        ?_, rfl, rfl, rfl⟩
      rw [hpool]
      exact h.laid.indexed.record_store_self h0 hle _
    · rw [Function.update_of_ne hji] at hs
      obtain ⟨hlist', hne'⟩ := hready.list j hj
      exact hother (h.head_ne (fun e => hji e.symm) hlist hlist' (List.Subset.refl _) hne hne')
        (hready.marked j hj s hs)
  · obtain ⟨hpart', hmarked⟩ := hcarried part hpart
    have hid : i ≠ d := fun e => hready.fresh (e ▸ hi)
    exact ⟨hpart', hother (h.head_ne hid hlist hd (Parts.subset_handles hpart) hne hpart') hmarked⟩

/-- A marked chain is gathered. -/
theorem Ready.append {i : Nat} {rest : List (Nat × ReportSegment)}
    (h : Holds target board free lists) (hready : Ready board lists d marks content ((i, segment) :: rest))
    (hd : lists[d]? = some parts.handles) (hcarried : Carried board.pool parts) (hmark : marks i = some segment) :
    ∃ board' lists', perform target board (.append d i) = some (board', .done) ∧ Holds target board' free lists' ∧
      Ready board' lists' d marks content rest ∧
      lists'[d]? = some (Parts.handles (parts ++ [(segment, content i)])) ∧
      Carried board'.pool (parts ++ [(segment, content i)]) := by
  have hi : i ∈ ((i, segment) :: rest).map Prod.fst := (.head _)
  have hnodup : i ∉ rest.map Prod.fst ∧ (rest.map Prod.fst).Nodup := nodup_cons.mp hready.nodup
  have hdi : d ≠ i := fun e => hready.fresh (e ▸ hi)
  obtain ⟨hlist, hne⟩ := hready.list i hi
  obtain ⟨board', e, h', hkept⟩ := h.append hdi hd hlist
  have hkeep : ∀ {ys : List Nat} {s : ReportSegment}, Marked board.pool ys s → Marked board'.pool ys s :=
    fun hm => hm.kept hkept.toKept h.laid.indexed h'.laid.indexed
  refine ⟨board', _, e, h', ⟨hnodup.2, fun hmem => hready.fresh (.tail _ hmem), fun j hj => ?_,
    fun j hj s hs => hkeep (hready.marked j (.tail _ hj) s hs)⟩, ?_, fun part hpart => ?_⟩
  · have hji : i ≠ j := fun e => hnodup.1 (e ▸ hj)
    have hjd : d ≠ j := fun e => hready.fresh (e ▸ .tail _ hj)
    rw [getElem?_set_ne hji, getElem?_set_ne hjd]
    exact hready.list j (.tail _ hj)
  · rw [getElem?_set_ne hdi.symm, getElem?_set_self (Holds.length_pos hd), Parts.handles_concat]
  · rcases mem_append.mp hpart with hpart | hpart
    · exact ⟨(hcarried part hpart).1, hkeep (hcarried part hpart).2⟩
    · rw [mem_singleton.mp hpart]
      exact ⟨hne, hkeep (hready.marked i hi segment hmark)⟩

theorem step_done {op : ChainOp V} {board' : Board V} {answer : ChainAnswer V}
    (e : perform target board op = some (board', answer)) : step target board op = .ok (board', answer) := by
  rw [step, e]
  rfl

/-- **Chains that are marked and put behind one another** are one chain of marked segments. -/
theorem gathered (h : Holds target board free lists)
    (hready : Ready board lists d marks content picks) (hd : lists[d]? = some parts.handles)
    (hcarried : Carried board.pool parts) (hops : Gathers d marks ops picks) :
    ∃ board' tr lists', execute (step target) board ops = .ok (board', tr) ∧ Holds target board' free lists' ∧
      lists'[d]? = some (Parts.handles (parts ++ picks.map fun pick => (pick.2, content pick.1))) ∧
      Carried board'.pool (parts ++ picks.map fun pick => (pick.2, content pick.1)) := by
  induction ops generalizing board lists marks picks parts with
  | nil =>
    have hnil : picks = [] := hops
    subst hnil
    rw [map_nil, append_nil]
    exact ⟨board, [], lists, rfl, h, hd, hcarried⟩
  | cons op ops ih =>
    cases op with
    | mark i segment =>
      obtain ⟨hi, hrest⟩ := hops
      obtain ⟨board₁, e₁, h₁, hready₁, hcarried₁⟩ := hready.mark h hd hcarried hi segment
      obtain ⟨board₂, tr, lists₂, e₂, hfinal⟩ := ih h₁ hready₁ hd hcarried₁ hrest
      refine ⟨board₂, (.mark i segment, .done) :: tr, lists₂, ?_, hfinal⟩
      simp only [execute, step_done e₁, bind, Except.bind, e₂]
      rfl
    | append destination source =>
      obtain ⟨rfl, segment, rest, rfl, hmark, hrest⟩ := hops
      obtain ⟨board₁, lists₁, e₁, h₁, hready₁, hd₁, hcarried₁⟩ := hready.append h hd hcarried hmark
      obtain ⟨board₂, tr, lists₂, e₂, hfinal⟩ := ih h₁ hready₁ hd₁ hcarried₁ hrest
      rw [append_assoc] at hfinal
      refine ⟨board₂, (.append destination source, .done) :: tr, lists₂, ?_, hfinal⟩
      simp only [execute, step_done e₁, bind, Except.bind, e₂]
      rfl
    | fresh => exact absurd hops id
    | admission i count prepared => exact absurd hops id
    | take source count destination => exact absurd hops id
    | segmentTake i => exact absurd hops id
    | pop i => exact absurd hops id

def headerOf (xs : List Nat) : ReportRecords := ⟨xs.headD 0, xs.getLastD 0, xs.length⟩

theorem Describes.eq_headerOf {header : ReportRecords} (h : Describes header xs) : header = headerOf xs := by
  exact congr (congrArg₂ ReportRecords.mk h.head_eq h.tail_eq) h.count_eq

/-- **Marked segments are taken back one by one.** -/
theorem taken (h : Holds target board free lists) (hd : lists[d]? = some parts.handles)
    (hcarried : Carried board.pool parts) :
    ∃ board' tr, execute (step target) board (List.replicate parts.length (.segmentTake d)) = .ok (board', tr) ∧
      tr.map Prod.snd = parts.map (fun part => .segment part.1 (headerOf part.2)) ∧
      Holds target board' free (lists.set d [] ++ parts.map Prod.snd) := by
  induction parts generalizing board lists with
  | nil =>
    have hempty : lists[d]? = some [] := hd
    refine ⟨board, [], rfl, rfl, ?_⟩
    rw [map_nil, append_nil, set_same hempty]
    exact h
  | cons part parts ih =>
    obtain ⟨hne, hmarked⟩ := hcarried part (.head _)
    have hfront : lists[d]? = some (part.2 ++ Parts.handles parts) := hd
    obtain ⟨board₁, output, e₁, houtput, h₁, hkept⟩ := h.segmentTake hfront hne hmarked
    have hcarried₁ : Carried board₁.pool parts := fun p hp =>
      ⟨(hcarried p (.tail _ hp)).1,
        (hcarried p (.tail _ hp)).2.kept hkept.toKept h.laid.indexed h₁.laid.indexed⟩
    have hlt := Holds.length_pos hd
    have hlt' : d < (lists.set d (Parts.handles parts)).length := by
      rw [length_set]
      exact hlt
    have hd₁ : (lists.set d (Parts.handles parts) ++ [part.2])[d]? = some (Parts.handles parts) := by
      rw [getElem?_append_left hlt', getElem?_set_self hlt]
    obtain ⟨board₂, tr, e₂, hanswers, h₂⟩ := ih h₁ hd₁ hcarried₁
    refine ⟨board₂, (.segmentTake d, .segment part.1 output) :: tr, ?_, ?_, ?_⟩
    · simp only [length_cons, replicate_succ, execute, step_done e₁, bind, Except.bind, e₂]
      rfl
    · rw [map_cons, map_cons, hanswers, houtput.eq_headerOf]
    · rw [set_append_left _ _ hlt', set_set, append_assoc] at h₂
      exact h₂

end Gather

/-! ## 3. Runs -/

/-- **The chains of a run are a partition of the pool, and segments come back intact.** Every handle
  is in exactly one of the free list and the chains, every header describes the records it links,
  every handle finds its own record; and nonempty chains that are marked and put behind an empty one
  are taken back as they were, in their order and with their metadata. -/
theorem chains_partition_the_pool [Inhabited V] (target : Target) {tr : List (ChainOp V × ChainAnswer V)}
    {board : Board V} (h : RunWhere Allowed (step target) (Board.start V) tr board) :
    (∃ free lists, (free ++ lists.flatten).Perm (List.range' 1 board.pool.total) ∧
      Chain board.pool.next board.pool.free free ∧
      List.Forall₂ (fun header xs => Chain board.pool.next header.head xs ∧ header.tail = xs.getLastD 0 ∧
        header.count = xs.length) board.chains lists) ∧ (∀ handle, handle ≠ 0 → handle ≤ board.pool.total →
      ∃ entry, board.pool.record handle = some entry ∧ board.pool.records[handle - 1]? = some entry) ∧
    (∀ (d : Nat) (picks : List (Nat × ReportSegment)) (ops : List (ChainOp V)), (picks.map Prod.fst).Nodup →
      d ∉ picks.map Prod.fst → board.chains[d]? = some emptyRecords →
      (∀ i ∈ picks.map Prod.fst, ∃ header, board.chains[i]? = some header ∧ header.count ≠ 0) →
      Gathers d (fun _ => none) ops picks →
      ∃ gatheredBoard trace takenBoard answers, execute (step target) board ops = .ok (gatheredBoard, trace) ∧
        execute (step target) gatheredBoard (List.replicate picks.length (.segmentTake d)) =
          .ok (takenBoard, answers) ∧ answers.map Prod.snd =
          picks.map (fun pick => .segment pick.2 ((board.chains[pick.1]?).getD emptyRecords)) ∧
        takenBoard.chains[d]? = some emptyRecords ∧
        ∀ pick ∈ picks, ∀ header xs, board.chains[pick.1]? = some header →
          Chain board.pool.next header.head xs → Chain takenBoard.pool.next header.head xs) := by
  obtain ⟨free, lists, hholds⟩ := reachable_holds h
  refine ⟨⟨free, lists, hholds.laid.strands.perm, ?_, ?_⟩, fun handle h0 hle => ?_, ?_⟩
  · rw [hholds.freeList.head_eq]
    exact hholds.laid.strands.strand_chain (.head _)
  · refine forall₂_iff_get.mpr ⟨hholds.headers.length_eq, fun i hi hi' => ?_⟩
    obtain ⟨hchain, hd⟩ := hholds.chain (getElem?_eq_getElem hi) (getElem?_eq_getElem hi')
    exact ⟨hchain, hd.tail_eq, hd.count_eq⟩
  · exact hholds.laid.indexed.record_some h0 hle
  · intro d picks ops hnodup hfresh hd hpicks hops
    have hcontent : ∀ i ∈ picks.map Prod.fst, ∃ header xs, board.chains[i]? = some header ∧ lists[i]? = some xs ∧
      Describes header xs ∧ xs ≠ [] := by
      intro i hi
      obtain ⟨header, hheader, hcount⟩ := hpicks i hi
      obtain ⟨xs, hxs, hdesc⟩ := hholds.get hheader
      exact ⟨header, xs, hheader, hxs, hdesc, fun hnil => hcount (by rw [hdesc.count_eq, hnil]; rfl)⟩
    have hready : Ready board lists d (fun _ => none) (fun i => (lists[i]?).getD []) picks := by
      refine ⟨hnodup, hfresh, fun i hi => ?_, fun i _ s hs => by cases hs⟩
      obtain ⟨header, xs, -, hxs, -, hne⟩ := hcontent i hi
      rw [hxs]
      exact ⟨rfl, hne⟩
    obtain ⟨ds, hds, hdescd⟩ := hholds.get hd
    have hempty : ds = [] := eq_nil_of_length_eq_zero hdescd.count_eq.symm
    subst hempty
    have hnone : lists[d]? = some (Parts.handles []) := hds
    obtain ⟨board₁, trace, lists₁, e₁, h₁, hd₁, hcarried₁⟩ :=
      gathered hholds hready hnone (fun part hpart => absurd hpart not_mem_nil) hops
    rw [nil_append] at hd₁ hcarried₁
    obtain ⟨board₂, answers, e₂, hanswers, h₂⟩ := taken h₁ hd₁ hcarried₁
    rw [length_map] at e₂
    rw [map_map] at hanswers
    have hlt : d < lists₁.length := Holds.length_pos hd₁
    refine ⟨board₁, trace, board₂, answers, e₁, e₂, hanswers.trans (map_congr_left fun pick hpick => ?_), ?_, ?_⟩
    · obtain ⟨header, xs, hheader, hxs, hdesc, -⟩ := hcontent pick.1 (mem_map_of_mem hpick)
      rw [Function.comp_apply, hxs, hheader]
      exact congrArg _ hdesc.eq_headerOf.symm
    · have hlast : (lists₁.set d [] ++ (picks.map fun pick => (pick.2, (lists[pick.1]?).getD [])).map Prod.snd)[d]? =
        some [] := by
        rw [getElem?_append_left (by rw [length_set]; exact hlt), getElem?_set_self hlt]
      obtain ⟨header, hheader, hdesc⟩ := h₂.header hlast
      rw [hheader, hdesc.eq_headerOf]
      rfl
    · intro pick hpick header xs hheader hchain
      obtain ⟨header', xs', hheader', hxs', hdesc', -⟩ := hcontent pick.1 (mem_map_of_mem hpick)
      rw [hheader] at hheader'
      cases hheader'
      have hsame : xs = xs' := hchain.unique (hholds.chain hheader hxs').1
      subst hsame
      rw [hdesc'.head_eq]
      refine h₂.laid.strands.strand_chain (.tail _ (mem_append_right _ ?_))
      rw [map_map]
      exact mem_map.mpr ⟨pick, hpick, by rw [Function.comp_apply, hxs']; rfl⟩

/-- A target of today, with records of 256 bytes. -/
def smallTarget : Target := ⟨64, 256, 4096, by decide, by decide⟩

/-- Buffers for growth by `n` records. -/
def roomFor (n : Nat) : Prepared Unit :=
  { records := some (.vacant 0 n)
    recordSlabs := some (.vacant 0 4)
    shapes := none
    storageSlabs := none
    slots := none
    bytes := none }

/-- Two chains of two records are marked, gathered and taken back. -/
theorem two_segments_come_back : ∃ tr board, RunWhere Allowed (step smallTarget) (Board.start Unit) tr board ∧
      ∃ gatheredBoard trace takenBoard answers,
        execute (step smallTarget) board [.mark 0 .blank, .append 2 0, .mark 1 .blank, .append 2 1] =
          .ok (gatheredBoard, trace) ∧
        execute (step smallTarget) gatheredBoard [.segmentTake 2, .segmentTake 2] = .ok (takenBoard, answers) ∧
        answers.map Prod.snd = [.segment .blank ((board.chains[0]?).getD emptyRecords),
          .segment .blank ((board.chains[1]?).getD emptyRecords)] ∧ takenBoard.chains[2]? = some emptyRecords := by
  have hrun : ∃ board tr, execute (step smallTarget) (Board.start Unit)
    [.fresh, .fresh, .fresh, .admission 0 4 (roomFor 4), .take 0 2 1] = .ok (board, tr) ∧
    board.chains = [⟨2, 1, 2⟩, ⟨4, 3, 2⟩, emptyRecords] := ⟨_, _, rfl, rfl⟩
  obtain ⟨board, tr, e, hchains⟩ := hrun
  have hwhere : RunWhere Allowed (step smallTarget) (Board.start Unit) tr board := by
    refine RunWhere.of_execute _ (fun op hop board => ?_) e
    simp only [mem_cons, not_mem_nil, or_false] at hop
    rcases hop with rfl | rfl | rfl | rfl | rfl
    · trivial
    · trivial
    · trivial
    · trivial
    · show (0 : Nat) ≠ 1
      decide
  obtain ⟨gatheredBoard, trace, takenBoard, answers, h₁, h₂, h₃, h₄, -⟩ :=
    (chains_partition_the_pool smallTarget hwhere).2.2 2 [(0, .blank), (1, .blank)]
      [.mark 0 .blank, .append 2 0, .mark 1 .blank, .append 2 1] (by decide) (by decide) (by rw [hchains]; rfl)
      (by
        rw [hchains]
        decide)
      ⟨by decide, rfl, .blank, _, rfl, rfl, by decide, rfl, .blank, _, rfl, rfl, rfl⟩
  exact ⟨tr, board, hwhere, gatheredBoard, trace, takenBoard, answers, h₁, h₂, h₃, h₄⟩

/-- What a run with other calls may end in: a state whose headers do not describe their chains, or
  whose handles are not in any of them.

  First, a marked chain loses its first record to another chain, which two records are put behind:
  what is taken from it as a segment has the extent of the chain that was marked. Then, a chain is
  put behind itself. -/
theorem stale_extent_breaks_chains :
    (∃ tr board board' answer, RunWhere Allowed (step smallTarget) (Board.start Unit) tr board ∧
      step smallTarget board (.segmentTake 1) = .ok (board', answer) ∧
      ¬ ∃ lists, List.Forall₂ (fun header xs => Chain board'.pool.next header.head xs ∧
        header.tail = xs.getLastD 0 ∧ header.count = xs.length) board'.chains lists) ∧
    (∃ tr board board' answer, RunWhere Allowed (step smallTarget) (Board.start Unit) tr board ∧
      step smallTarget board (.append 0 0) = .ok (board', answer) ∧
      ¬ ∃ free lists, (free ++ lists.flatten).Perm (List.range' 1 board'.pool.total) ∧
        Chain board'.pool.next board'.pool.free free ∧
        List.Forall₂ (fun header xs => Chain board'.pool.next header.head xs ∧ header.tail = xs.getLastD 0 ∧
          header.count = xs.length) board'.chains lists) := by
  constructor
  · have hrun : ∃ board tr board' answer, execute (step smallTarget) (Board.start Unit)
      [.fresh, .fresh, .fresh, .admission 0 3 (roomFor 3), .mark 0 .blank, .take 0 1 1, .admission 2 2 (roomFor 3),
        .append 1 2] = .ok (board, tr) ∧ step smallTarget board (.segmentTake 1) = .ok (board', answer) ∧
      board'.chains = [⟨2, 1, 2⟩, emptyRecords, emptyRecords, ⟨3, 1, 3⟩] ∧
      walk board'.pool.next 3 3 = [3, 6, 5] := ⟨_, _, _, _, rfl, rfl, rfl, rfl⟩
    obtain ⟨board, tr, board', answer, e, estep, hchains, hwalk⟩ := hrun
    refine ⟨tr, board, board', answer, ?_, estep, ?_⟩
    · refine RunWhere.of_execute _ (fun op hop board => ?_) e
      simp only [mem_cons, not_mem_nil, or_false] at hop
      rcases hop with rfl | rfl | rfl | rfl | rfl | rfl | rfl | rfl
      · trivial
      · trivial
      · trivial
      · trivial
      · trivial
      · show (0 : Nat) ≠ 1
        decide
      · trivial
      · show (1 : Nat) ≠ 2
        decide
    · rintro ⟨lists, hlists⟩
      rw [hchains] at hlists
      obtain ⟨xs, hchain, htail, hcount⟩ : ∃ xs, Chain board'.pool.next 3 xs ∧ 1 = xs.getLastD 0 ∧ 3 = xs.length := by
        rcases hlists with _ | ⟨-, _ | ⟨-, _ | ⟨-, _ | ⟨hlast, -⟩⟩⟩⟩
        exact ⟨_, hlast⟩
      -- the links from the head of the segment are those of other records
      have hxs : xs = [3, 6, 5] := by
        rw [← hwalk, hchain.walk_eq (Nat.le_of_eq hcount.symm)]
      rw [hxs] at htail
      exact absurd htail (by decide)
  · have hrun : ∃ board tr board' answer, execute (step smallTarget) (Board.start Unit)
      [.fresh, .admission 0 2 (roomFor 2)] = .ok (board, tr) ∧
      step smallTarget board (.append 0 0) = .ok (board', answer) ∧
      board'.chains = [emptyRecords] ∧ board'.pool.free = 0 ∧ board'.pool.total = 2 :=
      ⟨_, _, _, _, rfl, rfl, rfl, rfl, rfl⟩
    obtain ⟨board, tr, board', answer, e, estep, hchains, hfree, htotal⟩ := hrun
    refine ⟨tr, board, board', answer, ?_, estep, ?_⟩
    · refine RunWhere.of_execute _ (fun op hop board => ?_) e
      simp only [mem_cons, not_mem_nil, or_false] at hop
      rcases hop with rfl | rfl <;> trivial
    · rintro ⟨free, lists, hperm, hchain, hlists⟩
      rw [hchains] at hlists
      rw [hfree] at hchain
      obtain ⟨xs, rfl, hxs⟩ : ∃ xs, lists = [xs] ∧ xs = [] := by
        rcases hlists with _ | ⟨hlast, _ | _⟩
        exact ⟨_, rfl, eq_nil_of_length_eq_zero hlast.2.2.symm⟩
      have hlen := hperm.length_eq
      rw [hchain.head_zero.mp rfl, hxs, htotal] at hlen
      exact absurd hlen (by decide)

end Bray.Pool
