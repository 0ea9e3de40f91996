/-
  File:      Bray/Scheduler/Admit.lean
  Subject:   ADMISSION REFINES THE BOARD. The arenas grow in step, `try_admit` ends within its
             fuel, and what it does to the lists is `Replenish` and `enrol`.

  The arenas double. Between two doublings of the entries the headers double once, but not in
  the same step: another thread may see entries of twice the headers' capacity, with nothing
  initialized yet. `Storage` says that these are the only two shapes. Storage that an admission
  prepares outside the lock was asked for at most the next size, so what is installed has exactly
  the size `Storage` needs (`Ready`).
-/
import Bray.Scheduler.Refine

namespace Bray.Scheduler

open Bray.Lib List

/-! ## 1. Storage -/

/-- The size after the next doubling. -/
def grown (capacity : Nat) : Nat := if capacity = 0 then 1 else capacity * 2

theorem grown_mono {a b : Nat} (h : a ≤ b) : grown a ≤ grown b := by
  unfold grown; split <;> split <;> omega

theorem lt_grown (a : Nat) : a < grown a := by
  unfold grown; split <;> omega

section Reserve

variable {α : Type}

def rowsOf (buffer : Option (RawBuffer α)) : List α := buffer.elim [] RawBuffer.rows

/-- Prepared storage is no larger than the next size of the buffer it is for. -/
def Ready (buffer prepared : Option (RawBuffer α)) : Prop :=
  capacityOf prepared ≤ grown (capacityOf buffer)

theorem Ready.mono {buffer buffer' prepared : Option (RawBuffer α)} (h : Ready buffer prepared)
    (hc : capacityOf buffer ≤ capacityOf buffer') : Ready buffer' prepared :=
  Nat.le_trans h (grown_mono hc)

theorem grow_spec {b : RawBuffer α} {prepared : Option (RawBuffer α)}
    (h : capacityOf prepared ≤ grown b.capacity) (hc : b.capacity < u32Max) :
    (∃ b' prepared', b.grow prepared = (.ok true, b', prepared') ∧ b'.rows = b.rows ∧
      capacityOf prepared' ≤ grown b'.capacity ∧
      b'.capacity = (if b.rows.length < b.capacity then b.capacity else grown b.capacity)) ∨
    b.grow prepared = (.error (grown b.capacity), b, prepared) ∧ b.rows.length = b.capacity := by
  have hmax : ¬ b.capacity > usizeMax - b.capacity := by
    have h1 : u32Max = 4294967295 := rfl
    have h2 : usizeMax = 18446744073709551615 := rfl
    omega
  unfold RawBuffer.grow RawBuffer.initialized
  by_cases hs : b.rows.length < b.capacity
  · rw [if_pos hs, if_pos hs]
    exact .inl ⟨b, prepared, rfl, rfl, h, rfl⟩
  have hfull : b.rows.length = b.capacity := by have := b.fits; omega
  rw [if_neg hs, if_neg hmax, if_neg hs]
  cases prepared with
  | none => exact .inr ⟨rfl, hfull⟩
  | some p =>
    have hle : p.capacity ≤ grown b.capacity := h
    by_cases hbad : p.capacity < grown b.capacity ∨ p.rows.length ≠ 0
    · exact .inr ⟨if_pos hbad, hfull⟩
    · have hge : p.capacity = grown b.capacity := by rw [not_or] at hbad; omega
      have hlt := lt_grown b.capacity
      have hfits : b.rows.length ≤ p.capacity := by omega
      refine .inl ⟨⟨p.capacity, b.rows, hfits⟩, some (.fresh b.capacity),
        (if_neg hbad).trans (dif_pos hfits), rfl, ?_, hge⟩
      show b.capacity ≤ grown p.capacity
      have := lt_grown p.capacity
      omega

/-- **`reserve`** answers with room for another row, at the next size if need be, or asks for
    exactly the next size and changes nothing. -/
theorem reserve_spec {buffer prepared : Option (RawBuffer α)} (h : Ready buffer prepared)
    (hc : capacityOf buffer < u32Max) :
    (∃ buffer' prepared', RawBuffer.reserve buffer prepared = (.ok true, some buffer', prepared') ∧
      buffer'.rows = rowsOf buffer ∧ Ready (some buffer') prepared' ∧
      buffer'.capacity = (if (rowsOf buffer).length < capacityOf buffer then capacityOf buffer
        else grown (capacityOf buffer))) ∨
    RawBuffer.reserve buffer prepared = (.error (grown (capacityOf buffer)), buffer, prepared) ∧
      (rowsOf buffer).length = capacityOf buffer := by
  cases buffer with
  | none =>
    cases prepared with
    | none => exact .inr ⟨rfl, rfl⟩
    | some p =>
      have hle : p.capacity ≤ 1 := h
      by_cases hbad : p.capacity < 1 ∨ p.initialized ≠ 0
      · exact .inr ⟨if_pos hbad, rfl⟩
      · have hb := hbad
        rw [not_or, not_not] at hb
        refine .inl ⟨p, none, if_neg hbad, eq_nil_of_length_eq_zero hb.2, Nat.zero_le _, ?_⟩
        show p.capacity = 1
        omega
  | some b =>
    have e : RawBuffer.reserve (some b) prepared =
      ((b.grow prepared).1, some (b.grow prepared).2.1, (b.grow prepared).2.2) := rfl
    rw [e]
    rcases grow_spec h hc with ⟨b', p', e', h1, h2, h3⟩ | ⟨e', h1⟩
    · rw [e']; exact .inl ⟨b', p', rfl, h1, h2, h3⟩
    · rw [e']; exact .inr ⟨rfl, h1⟩

end Reserve

/-- **The two shapes of the arenas**: both of one size and filled, or the entries one doubling
    ahead with nothing new initialized. -/
inductive Storage (s : State) : Prop where
  | level (hc : capacityOf s.entries = capacityOf s.queues)
    (he : s.entryCount = min (capacityOf s.entries) u32Max)
    (hq : s.queueCount = capacityOf s.queues)
  | ahead (hc : capacityOf s.entries = grown (capacityOf s.queues))
    (he : s.entryCount = capacityOf s.queues) (hq : s.queueCount = capacityOf s.queues)
    (hm : capacityOf s.queues < u32Max)

variable {s s' : State}

theorem Storage.of_sized (h : Storage s) (f : Sized s s') : Storage s' := by
  cases h with
  | level hc he hq =>
    exact .level (by rw [f.entries, f.queues, hc]) (by rw [f.entryCount, f.entries, he])
      (by rw [f.queueCount, f.queues, hq])
  | ahead hc he hq hm =>
    exact .ahead (by rw [f.entries, f.queues, hc]) (by rw [f.entryCount, f.queues, he])
      (by rw [f.queueCount, f.queues, hq]) (by rw [f.queues]; exact hm)

/-! ## 2. Fresh rows -/

section Fresh

variable {s : State} {v : View}

theorem getD_append_single {α : Type} (xs : List α) (x d : α) (i : Nat) :
    (xs ++ [x]).getD i d = if i = xs.length then x else xs.getD i d := by
  simp only [getD_eq_getElem?_getD]
  by_cases h : i = xs.length
  · subst h; simp
  · rw [if_neg h]
    by_cases hl : i < xs.length
    · rw [getElem?_append_left hl]
    · have h1 : (xs ++ [x])[i]? = none := by
        rw [getElem?_eq_none_iff, length_append, length_singleton]; omega
      have h2 : xs[i]? = none := by rw [getElem?_eq_none_iff]; omega
      rw [h1, h2]

/-- **A fresh header joins the free ones.** -/
theorem Layout.newHeader (h : Layout s v) (s' : State) (he : s'.entryRows = s.entryRows)
    (hq : s'.queueRows = s.queueRows ++ [emptyQueue s.freeQueue])
    (h1 : s'.freeQueue = s.queueCount + 1) (h2 : s'.free = s.free) (h3 : s'.head = s.head) (h4 : s'.tail = s.tail) :
    Layout s' { v with freeQueues := (s.queueCount + 1) :: v.freeQueues } ∧
      ∀ q, q ≠ s.queueCount + 1 → s'.header q = s.header q := by
  have hh : ∀ q, s'.header q =
      if q = s.queueCount + 1 then emptyQueue s.freeQueue else s.header q := fun q => by
    unfold State.header
    rw [hq, getD_append_single]
    by_cases h0 : q = 0
    · subst h0; simp
    · by_cases hs : q = s.queueCount + 1
      · have : q - 1 = s.queueRows.length := by unfold State.queueCount at hs; omega
        simp [hs, State.queueCount]
      · have : ¬ q - 1 = s.queueRows.length := by unfold State.queueCount at hs; omega
        simp [h0, hs, this]
  have ho : ∀ q, q ≠ s.queueCount + 1 → s'.header q = s.header q := fun q hq' => by
    rw [hh, if_neg hq']
  have hnew : ∀ q, s.HasHeader q → q ≠ s.queueCount + 1 := fun q hq' => by
    have := hq'.2; omega
  have hact : ∀ q ∈ v.active, s'.header q = s.header q := fun q hq' =>
    ho q (hnew q (h.hasHeader hq'))
  have hfr : ∀ q ∈ v.freeQueues, s'.header q = s.header q := fun q hq' =>
    ho q (hnew q ((h.headers q).mpr (.inr hq')))
  have er : ∀ i, s'.row i = s.row i := fun i => by simp only [State.row, he]
  have ec : s'.entryCount = s.entryCount := by simp only [State.entryCount, he]
  have hr : ∀ i, s'.HasRow i ↔ s.HasRow i := fun i => by simp only [State.HasRow, ec]
  have qc : s'.queueCount = s.queueCount + 1 := by simp [State.queueCount, hq]
  have hni : s.queueCount + 1 ∉ v.active ∧ s.queueCount + 1 ∉ v.freeQueues :=
    ⟨fun m => hnew _ (h.hasHeader m) rfl, fun m => hnew _ ((h.headers _).mpr (.inr m)) rfl⟩
  refine ⟨⟨?_, fun q hqa => ?_, fun q hqa e hm => ?_, fun p hp q hqa e => ?_, ?_, fun q hqf => ?_,
    fun q => ?_, fun q hqa m => ?_, ?_, fun e hm => ?_, h.freeApart, fun e hm => ?_⟩, ho⟩
  · rw [h3, h4]
    exact h.lanes.congr (fun y hy => by rw [hact y hy]) (fun y hy => by rw [hact y hy])
  · rw [hact q hqa]; simp only [er]; exact h.queues q hqa
  · rw [hact q hqa, er, hr]; exact h.own q hqa e hm
  · rw [hact p hp, hact q hqa] at e; exact h.distinct p hp q hqa e
  · rw [h1]
    refine h.freeQueue.push hni.2 (by omega) (fun y hy => by rw [hfr y hy]) ?_
    rw [hh, if_pos rfl]; rfl
  · rcases mem_cons.mp hqf with rfl | hqf
    · rw [hh, if_pos rfl]; rfl
    · rw [hfr q hqf]; exact h.unused q hqf
  · have := h.headers q
    simp only [State.HasHeader, qc, mem_cons] at this ⊢
    by_cases hs : q = s.queueCount + 1
    · exact ⟨fun _ => .inr (.inl hs), fun _ => by omega⟩
    · have e : (q ≠ 0 ∧ q ≤ s.queueCount + 1) ↔ (q ≠ 0 ∧ q ≤ s.queueCount) := by omega
      rw [e, this]; tauto
  · rcases mem_cons.mp m with rfl | m
    · exact hni.1 hqa
    · exact h.apart q hqa m
  · rw [h2]; simp only [er]; exact h.freeEntry
  · rw [hr]; exact h.freeRow e hm
  · rw [er, qc]; exact Nat.le_succ_of_le (h.cached e ((hr e).mp hm))

/-- **A fresh entry joins the free ones**; it shows on the board as the cell it already was. -/
theorem Layout.newEntry (h : Layout s v) (s' : State)
    (he : s'.entryRows = s.entryRows ++ [emptyEntry s.free]) (hq : s'.queueRows = s.queueRows)
    (h1 : s'.freeQueue = s.freeQueue) (h2 : s'.free = s.entryCount + 1) (h3 : s'.head = s.head)
    (h4 : s'.tail = s.tail) (h5 : s'.running = s.running) :
    Layout s' { v with freeEntries := (s.entryCount + 1) :: v.freeEntries } ∧
      board s' { v with freeEntries := (s.entryCount + 1) :: v.freeEntries } =
        { board s v with count := s.entryCount + 1, free := (s.entryCount + 1) :: v.freeEntries } := by
  have hh : ∀ i, s'.row i = if i = s.entryCount + 1 then emptyEntry s.free else s.row i := fun i => by
    unfold State.row
    rw [he, getD_append_single]
    by_cases h0 : i = 0
    · subst h0; simp
    · by_cases hs : i = s.entryCount + 1
      · simp [hs, State.entryCount]
      · have : ¬ i - 1 = s.entryRows.length := by unfold State.entryCount at hs; omega
        simp [h0, hs, this]
  have hout : s.row (s.entryCount + 1) = emptyEntry 0 := by
    simp [State.row, State.entryCount]
  have ho : ∀ i, s.HasRow i → s'.row i = s.row i := fun i hi => by
    have : i ≠ s.entryCount + 1 := by have := hi.2; omega
    rw [hh, if_neg this]
  have eh : ∀ q, s'.header q = s.header q := fun q => by simp only [State.header, hq]
  have qc : s'.queueCount = s.queueCount := by simp only [State.queueCount, hq]
  have ec : s'.entryCount = s.entryCount + 1 := by simp [State.entryCount, he]
  have hrow : ∀ i, s.HasRow i → s'.HasRow i := fun i hi => ⟨hi.1, by rw [ec]; exact Nat.le_succ_of_le hi.2⟩
  have hnew : ∀ i, s.HasRow i → i ≠ s.entryCount + 1 := fun i hi => by have := hi.2; omega
  refine ⟨⟨?_, fun q hqa => ?_, fun q hqa e hm => ?_, fun p hp q hqa e => ?_, ?_, fun q hqf => ?_,
    fun q => ?_, h.apart, ?_, fun e hm => ?_, fun q hqa e hm m => ?_, fun e hm => ?_⟩, ?_⟩
  · rw [h3, h4]; simp only [eh]; exact h.lanes
  · rw [eh]
    refine (h.queues q hqa).congr (fun y hy => ?_) (fun y hy => ?_)
    · rw [ho y (h.own q hqa y hy).1]
    · rw [ho y (h.own q hqa y hy).1]
  · obtain ⟨a, b, c⟩ := h.own q hqa e hm
    rw [ho e a, eh]; exact ⟨hrow e a, b, c⟩
  · rw [eh, eh] at e; exact h.distinct p hp q hqa e
  · rw [h1]; simp only [eh]; exact h.freeQueue
  · rw [eh]; exact h.unused q hqf
  · rw [← h.headers q]; simp only [State.HasHeader, qc]
  · rw [h2]
    refine h.freeEntry.push (fun m => hnew _ (h.freeRow _ m) rfl) (by omega) (fun y hy => ?_) ?_
    · rw [ho y (h.freeRow y hy)]
    · rw [hh, if_pos rfl]; rfl
  · rcases mem_cons.mp hm with rfl | hm
    · exact ⟨by omega, by rw [ec]⟩
    · exact hrow e (h.freeRow e hm)
  · rcases mem_cons.mp m with rfl | m
    · exact hnew _ (h.own q hqa _ hm).1 rfl
    · exact h.freeApart q hqa e hm m
  · rw [hh, qc]
    split
    · exact Nat.zero_le _
    · rename_i hs
      exact h.cached e ⟨hm.1, by have := hm.2; rw [ec] at this; omega⟩
  · unfold board View.rota
    simp only [ec, h5, eh, Board.mk.injEq, true_and, and_true]
    funext i
    rw [hh]
    split
    · rename_i hs; rw [hs, hout]; rfl
    · rfl

theorem initializeSpare_ok {α : Type} {b : RawBuffer α} (x : α) (h : b.rows.length < b.capacity) :
    ∃ b', b.initializeSpare x = .ok b' ∧ b'.rows = b.rows ++ [x] ∧ b'.capacity = b.capacity := by
  unfold RawBuffer.initializeSpare
  rw [dif_pos h]
  exact ⟨_, rfl, rfl, rfl⟩

/-- The loop over fresh headers. The state's own `queues` field is stale inside the loop; the
    buffer that is threaded through replaces it at the end. -/
theorem fillQueues_spec (n : Nat) : ∀ {s : State} {b : RawBuffer Queue} {v : View},
    Layout { s with queues := some b } v → b.rows.length + n ≤ b.capacity →
    ∃ s' v', fillQueues n s b = .ok s' ∧ Layout s' v' ∧ s'.entries = s.entries ∧
      s'.running = s.running ∧ s'.free = s.free ∧ s'.waiters = s.waiters ∧
      s'.queueCount = b.rows.length + n ∧ capacityOf s'.queues = b.capacity ∧
      v'.active = v.active ∧ v'.members = v.members ∧
      board s' v' = board { s with queues := some b } v := by
  induction n with
  | zero =>
    intro s b v h _
    exact ⟨_, v, rfl, h, rfl, rfl, rfl, rfl, rfl, rfl, rfl, rfl, rfl⟩
  | succ n ih =>
    intro s b v h hle
    obtain ⟨b', e, hrows, hcap⟩ := initializeSpare_ok (b := b) (emptyQueue s.freeQueue) (by omega)
    have hlen : b'.rows.length = b.rows.length + 1 := by rw [hrows]; simp
    obtain ⟨h', ho⟩ := h.newHeader
      { s with freeQueue := b'.initialized, queues := some b' } rfl hrows hlen rfl rfl rfl
    obtain ⟨s', v', e', hL, h1, h2, h3, h4, h5, h6, h7, h8, h9⟩ :=
      ih (s := { s with freeQueue := b'.initialized }) h' (by rw [hlen, hcap]; omega)
    refine ⟨s', v', ?_, hL, h1, h2, h3, h4, ?_, by rw [h6, hcap], h7, h8, ?_⟩
    · simp only [fillQueues, e, ok_bind]; exact e'
    · rw [h5, hlen]; omega
    · rw [h9]
      unfold board View.rota
      simp only [Board.mk.injEq, and_true]
      refine ⟨rfl, rfl, map_congr_left fun q hq => ?_⟩
      have hne : q ≠ b.rows.length + 1 := by
        have := (h.hasHeader hq).2
        have e0 : ({ s with queues := some b } : State).queueCount = b.rows.length := rfl
        rw [e0] at this; omega
      exact congrArg (fun x : Queue => (x.lane, v.members q)) (ho q hne)

theorem range'_reverse_succ (c n : Nat) :
    (List.range' (c + 1) (n + 1)).reverse = (List.range' (c + 2) n).reverse ++ [c + 1] := by
  rw [range'_succ, reverse_cons]

/-- The loop over fresh entries. -/
theorem fillEntries_spec (n : Nat) : ∀ {s : State} {b : RawBuffer Entry} {v : View},
    Layout { s with entries := some b } v → b.rows.length + n ≤ b.capacity →
    ∃ s' v', fillEntries n s b = .ok s' ∧ Layout s' v' ∧ s'.queues = s.queues ∧
      s'.waiters = s.waiters ∧ s'.entryCount = b.rows.length + n ∧
      capacityOf s'.entries = b.capacity ∧ v'.active = v.active ∧ v'.members = v.members ∧
      board s' v' = { board { s with entries := some b } v with
        count := b.rows.length + n,
        free := (List.range' (b.rows.length + 1) n).reverse ++ v.freeEntries } := by
  induction n with
  | zero =>
    intro s b v h _
    exact ⟨_, v, rfl, h, rfl, rfl, rfl, rfl, rfl, rfl, rfl⟩
  | succ n ih =>
    intro s b v h hle
    obtain ⟨b', e, hrows, hcap⟩ := initializeSpare_ok (b := b) (emptyEntry s.free) (by omega)
    have hlen : b'.rows.length = b.rows.length + 1 := by rw [hrows]; simp
    obtain ⟨h', hb⟩ := h.newEntry
      { s with free := b'.initialized, entries := some b' } hrows rfl rfl hlen rfl rfl rfl
    obtain ⟨s', v', e', hL, h1, h2, h3, h4, h5, h6, h7⟩ :=
      ih (s := { s with free := b'.initialized }) h' (by rw [hlen, hcap]; omega)
    refine ⟨s', v', ?_, hL, h1, h2, ?_, by rw [h4, hcap], h5, h6, ?_⟩
    · simp only [fillEntries, e, ok_bind]; exact e'
    · rw [h3, hlen]; omega
    · have hcnt : ({ s with entries := some b } : State).entryCount = b.rows.length := rfl
      rw [h7, hb, hlen, hcnt, range'_reverse_succ, append_assoc, singleton_append]
      simp only [Nat.add_assoc, Nat.add_comm 1 n]

end Fresh

/-! ## 3. The body of the growth loop -/

/-- The prepared storage of an admission fits the arenas. -/
structure Prepared.Fits (s : State) (prepared : Prepared) : Prop where
  entries : Ready s.entries prepared.entries
  queues : Ready s.queues prepared.queues

/-- A request an admission has been given asks for no more than the next size. -/
def Growth.Fits (s : State) : Growth → Prop
  | .entries capacity => capacity ≤ grown (capacityOf s.entries)
  | .queues capacity => capacity ≤ grown (capacityOf s.queues)

/-- Capacities never shrink. -/
def Wider (s s' : State) : Prop :=
  capacityOf s.entries ≤ capacityOf s'.entries ∧ capacityOf s.queues ≤ capacityOf s'.queues

theorem Wider.refl (s : State) : Wider s s := ⟨Nat.le_refl _, Nat.le_refl _⟩

theorem Wider.trans {s'' : State} (h : Wider s s') (h' : Wider s' s'') : Wider s s'' :=
  ⟨h.1.trans h'.1, h.2.trans h'.2⟩

theorem Sized.wider (f : Sized s s') : Wider s s' :=
  ⟨Nat.le_of_eq f.entries.symm, Nat.le_of_eq f.queues.symm⟩

theorem Prepared.Fits.wider {prepared : Prepared} (h : prepared.Fits s) (hw : Wider s s') : prepared.Fits s' :=
  ⟨h.entries.mono hw.1, h.queues.mono hw.2⟩

theorem Growth.Fits.wider {g : Growth} (h : g.Fits s) (hw : Wider s s') : g.Fits s' := by
  cases g with
  | entries c => exact Nat.le_trans h (grown_mono hw.1)
  | queues c => exact Nat.le_trans h (grown_mono hw.2)

/-- How one pass of the growth loop leaves the state. -/
inductive Refilled (s : State) (v : View) (s' : State) (v' : View) :
    Option (Except Growth Nat) → Prop where
  /-- the arenas are as large as tokens can number -/
  | full (hb : board s' v' = board s v) : Refilled s v s' v' (some (.ok 0))
  /-- storage is missing -/
  | wait {g : Growth} (hb : board s' v' = board s v) (hg : g.Fits s') :
    Refilled s v s' v' (some (.error g))
  /-- fresh cells are there -/
  | filled {n : Nat} (hn : s.entryCount < n) (hm : n ≤ u32Max)
    (hb : board s' v' = { board s v with
      count := n, free := (List.range' (s.entryCount + 1) (n - s.entryCount)).reverse }) :
    Refilled s v s' v' none

theorem fillArena_spec {v : View} {entries : RawBuffer Entry} {queues : RawBuffer Queue}
    (h : Laid s v) (he : s.entries = some entries) (hq : s.queues = some queues)
    (hf : v.freeEntries = []) (hqi : queues.rows.length ≤ entries.capacity)
    (hqc : queues.capacity = entries.capacity) (hei : entries.rows.length < min entries.capacity u32Max) :
    ∃ s' v', fillArena s entries queues = .ok s' ∧ Laid s' v' ∧ Storage s' ∧
      s'.waiters = s.waiters ∧ capacityOf s'.entries = capacityOf s.entries ∧
      capacityOf s'.queues = capacityOf s.queues ∧ Refilled s v s' v' none := by
  have e0 : ({ s with queues := some queues } : State) = s := by rw [← hq]
  obtain ⟨s₁, v₁, e₁, hL₁, h1, h2, h3, h4, h5, h6, h7, h8, h9⟩ :=
    fillQueues_spec (entries.capacity - queues.rows.length) (s := s) (b := queues) (v := v)
      (by rw [e0]; exact h.toLayout) (by omega)
  rw [e0] at h9
  have e1 : ({ s₁ with entries := some entries } : State) = s₁ := by rw [← he, ← h1]
  obtain ⟨s₂, v₂, e₂, hL₂, g1, g2, g3, g4, g5, g6, g7⟩ :=
    fillEntries_spec (min entries.capacity 0xffffffff - entries.rows.length) (s := s₁)
      (b := entries) (v := v₁) (by rw [e1]; exact hL₁) (by omega)
  rw [e1, h9] at g7
  have hcnt : s.entryCount = entries.rows.length := by simp [State.entryCount, State.entryRows, he]
  have hmin : entries.rows.length + (min entries.capacity 0xffffffff - entries.rows.length) =
      min entries.capacity u32Max := by
    have : u32Max = 0xffffffff := rfl
    omega
  have hq₂ : s₂.queueCount = entries.capacity := by
    have : s₂.queueCount = s₁.queueCount := by simp only [State.queueCount, State.queueRows, g1]
    rw [this, h5]; omega
  have hcq : capacityOf s₂.queues = entries.capacity := by rw [g1, h6, hqc]
  refine ⟨s₂, v₂, ?_, ⟨hL₂, ?_, ?_⟩, ?_, g2.trans h4, ?_, ?_, ?_⟩
  · simp only [fillArena, RawBuffer.initialized, e₁, ok_bind]; exact e₂
  · intro q hqa
    rw [g6, h8]
    exact h.busy q (by rw [← h7, ← g5]; exact hqa)
  · rw [g3, hq₂, hmin]; exact Nat.min_le_left _ _
  · exact .level (by rw [g4, hcq]) (by rw [g3, g4, hmin]) (by rw [hq₂, hcq])
  · rw [g4, he]; rfl
  · rw [hcq, hq, ← hqc]; rfl
  · have hfe : v₁.freeEntries = [] := by
      have : v₁.freeEntries = v.freeEntries := congrArg Board.free h9
      rw [this, hf]
    refine .filled (n := min entries.capacity u32Max) (by rw [hcnt]; exact hei)
      (Nat.min_le_right _ _) ?_
    rw [g7, hmin, hcnt, hfe, append_nil,
      show min entries.capacity 0xffffffff = min entries.capacity u32Max from rfl]

/-- **One pass of the growth loop.** -/
theorem refill_spec {v : View} {prepared : Prepared} (h : Laid s v) (hs : Storage s)
    (hp : prepared.Fits s) (hf : v.freeEntries = []) :
    ∃ s' v' prepared' result, refill s prepared = .ok (s', prepared', result) ∧ Laid s' v' ∧
      Storage s' ∧ prepared'.Fits s' ∧ Wider s s' ∧ s'.waiters = s.waiters ∧ Refilled s v s' v' result := by
  unfold refill
  by_cases hmax : s.entries.elim 0 RawBuffer.capacity ≥ 0xffffffff
  · rw [if_pos hmax]
    exact ⟨s, v, prepared, _, rfl, h, hs, hp, .refl s, rfl, .full rfl⟩
  rw [if_neg hmax]
  have hlt : capacityOf s.entries < u32Max := Nat.lt_of_not_le hmax
  have hce : s.entryCount = (rowsOf s.entries).length := rfl
  have hcq : s.queueCount = (rowsOf s.queues).length := rfl
  rcases reserve_spec hp.entries hlt with ⟨entries, spare, e, hrows, hready, hcap⟩ | ⟨e, _⟩
  swap
  · rw [e]
    exact ⟨s, v, prepared, _, rfl, h, hs, hp, .refl s, rfl, .wait rfl (Nat.le_refl _)⟩
  rw [e]
  simp only [refillQueues]
  -- the entries have the next size now, or had it already; the rows are the same
  let s₁ : State := { s with entries := some entries }
  have hL₁ : Laid s₁ v := h.of_eq hrows rfl rfl rfl rfl rfl
  have hb₁ : board s₁ v = board s v := board_of_eq hrows rfl rfl
  have hnext : entries.capacity = grown (capacityOf s.queues) ∧ s.entryCount = capacityOf s.queues ∧
      s.queueCount = capacityOf s.queues ∧ capacityOf s.queues < u32Max ∧
      capacityOf s.entries ≤ entries.capacity := by
    have := lt_grown (capacityOf s.entries)
    cases hs with
    | level hc he hq =>
      have hfull : ¬ (rowsOf s.entries).length < capacityOf s.entries := by rw [← hce, he]; omega
      rw [if_neg hfull, hc] at hcap
      rw [hc] at he hlt this ⊢
      exact ⟨hcap, by omega, hq, hlt, by omega⟩
    | ahead hc he hq hm =>
      have := lt_grown (capacityOf s.queues)
      have hroom : (rowsOf s.entries).length < capacityOf s.entries := by rw [← hce, he, hc]; omega
      rw [if_pos hroom] at hcap
      exact ⟨by rw [hcap, hc], he, hq, hm, by omega⟩
  obtain ⟨hcap', hecount, hqcount, hqlt, hwide⟩ := hnext
  rcases reserve_spec hp.queues hqlt with ⟨queues, spareq, eq, hrowsq, hreadyq, hcapq⟩ | ⟨eq, _⟩
  swap
  · rw [eq]
    refine ⟨s₁, v, ⟨spare, prepared.queues⟩, _, rfl, hL₁, ?_, ⟨hready, hp.queues⟩,
      ⟨hwide, Nat.le_refl _⟩, rfl, .wait hb₁ (Nat.le_refl _)⟩
    refine .ahead hcap' ?_ hqcount hqlt
    have : s₁.entryCount = s.entryCount := congrArg List.length hrows
    rw [this]; exact hecount
  rw [eq]
  simp only []
  let s₂ : State := { s₁ with queues := some queues }
  have hL₂ : Laid s₂ v := hL₁.of_eq rfl hrowsq rfl rfl rfl rfl
  have hb₂ : board s₂ v = board s v := board_of_eq hrows hrowsq rfl
  have hfullq : ¬ (rowsOf s.queues).length < capacityOf s.queues := by rw [← hcq, hqcount]; omega
  rw [if_neg hfullq] at hcapq
  have hg := lt_grown (capacityOf s.queues)
  have hlenq : queues.rows.length = capacityOf s.queues := by rw [hrowsq, ← hcq, hqcount]
  have hlene : entries.rows.length = capacityOf s.queues := by rw [hrows, ← hce, hecount]
  obtain ⟨s₃, v₃, e₃, hL₃, hS₃, hw₃, hc₃, hd₃, hR₃⟩ := fillArena_spec hL₂ rfl rfl hf (by omega) (by omega) (by omega)
  refine ⟨s₃, v₃, ⟨spare, spareq⟩, none, ?_, hL₃, hS₃, ⟨?_, ?_⟩, ⟨?_, ?_⟩, hw₃, ?_⟩
  · exact (bind_of_ok e₃ _).trans rfl
  · exact hready.mono (Nat.le_of_eq hc₃.symm)
  · exact hreadyq.mono (Nat.le_of_eq hd₃.symm)
  · exact hwide.trans (Nat.le_of_eq hc₃.symm)
  · refine Nat.le_trans ?_ (Nat.le_of_eq hd₃.symm)
    show capacityOf s.queues ≤ queues.capacity
    omega
  · cases hR₃ with
    | filled hn hm hb =>
      have hcnt : s₂.entryCount = s.entryCount := congrArg List.length hrows
      rw [hcnt] at hn hb
      exact .filled hn hm (by rw [hb, hb₂])

/-! ## 4. `try_admit` -/

theorem Laid.pop_free {v : View} {i : Nat} {rest : List Nat} (h : Laid s v) (hf : v.freeEntries = i :: rest) :
    Laid { s with free := (s.row i).next } { v with freeEntries := rest } := by
  have hc := h.freeEntry
  rw [hf] at hc
  refine ⟨⟨h.lanes, h.queues, h.own, h.distinct, h.freeQueue, h.unused, h.headers, h.apart, hc.pop,
    fun e hm => ?_, fun q hq e he m => ?_, h.cached⟩, h.busy, h.enough⟩
  · exact h.freeRow e (hf ▸ .tail _ hm)
  · exact h.freeApart q hq e he (hf ▸ .tail _ m)

/-- How an attempt to admit leaves the board. -/
inductive Tried (task : Nat) (lane : Lane) (b : Board) : Except Growth Nat → Board → Prop where
  | refused {b' : Board} {result : Except Growth Nat} (h : b.Replenish b')
    (hr : ∀ token, result = .ok token → token = 0) : Tried task lane b result b'
  | admitted {b' : Board} {i : Nat} {rest : List Nat} (h : b.Replenish b')
    (hf : b'.free = i :: rest) (hg : (b'.cell i).generation ≠ u32Max) :
    Tried task lane b (.ok (token ((b'.cell i).generation + 1) i))
      { b'.amend i (admitRow task lane) with free := rest }

theorem Tried.discard {task : Nat} {lane : Lane} {b b' : Board} {result : Except Growth Nat}
    {i : Nat} {rest : List Nat} (hf : b.free = i :: rest) (hg : (b.cell i).generation = u32Max)
    (h : Tried task lane { b with free := rest } result b') : Tried task lane b result b' := by
  cases h with
  | refused h hr => exact .refused (.discard hf hg h) hr
  | admitted h hf' hg' => exact .admitted (.discard hf hg h) hf' hg'

theorem Tried.grow {task : Nat} {lane : Lane} {b b' : Board} {result : Except Growth Nat} {n : Nat}
    (hf : b.free = []) (hn : b.count < n) (hm : n ≤ u32Max) (h : Tried task lane
      { b with count := n, free := (List.range' (b.count + 1) (n - b.count)).reverse } result b') :
    Tried task lane b result b' := by
  cases h with
  | refused h hr => exact .refused (.grow hf hn hm h) hr
  | admitted h hf' hg' => exact .admitted (.grow hf hn hm h) hf' hg'

/-- What an attempt guarantees of state, storage and result. -/
structure Attempt (s : State) (v : View) (task : Nat) (lane : Lane) (s' : State)
    (prepared' : Prepared) (result : Except Growth Nat) (v' : View) : Prop where
  laid : Laid s' v'
  storage : Storage s'
  fits : prepared'.Fits s'
  wider : Wider s s'
  request : ∀ g, result = .error g → g.Fits s'
  tried : Tried task lane (board s v) result (board s' v')

section TryAdmit

variable {s : State} {v : View} {prepared : Prepared} (task : Nat) (lane : Lane) {limit : Nat}

/-- A cell that is not exhausted is admitted in one turn of the loop. -/
theorem tryAdmitLoop_enrol (fuel : Nat) (h : Laid s v) (hs : Storage s) (hp : prepared.Fits s)
    {i : Nat} {rest : List Nat} (hf : v.freeEntries = i :: rest) (hg : (s.row i).generation ≠ u32Max) :
    ∃ s' v' prepared' result, tryAdmitLoop task lane (fuel + 1) s prepared = .ok (s', prepared', result) ∧
      Attempt s v task lane s' prepared' result v' := by
  have hfree : s.free = i := by rw [h.freeEntry.head_eq, hf]; rfl
  have hi : s.HasRow i := h.freeRow i (hf ▸ (.head _))
  have hnd : (i :: rest).Nodup := hf ▸ h.freeEntry.nodup
  have h0 : s.free ≠ 0 := by rw [hfree]; exact hi.1
  have hL := h.pop_free hf
  have hloose : ({ v with freeEntries := rest } : View).Loose i :=
    ⟨fun q hq hm => h.freeApart q hq i hm (hf ▸ (.head _)), (nodup_cons.mp hnd).1⟩
  have hL' := hL.setRow_loose (r := admitRow task lane (s.row i)) hi hloose rfl
  have hfr : Sized s (({ s with free := (s.row i).next } : State).setRow i
      (admitRow task lane (s.row i))) := by
    obtain ⟨a, b, c, d⟩ := (Frame.setRow s i (admitRow task lane (s.row i))).sized
    exact ⟨a, b, c, d⟩
  have hw := hfr.wider
  refine ⟨_, { v with freeEntries := rest }, prepared, .ok (token ((s.row i).generation + 1) i), ?_,
    hL', ?_, hp.wider ?_, ?_, ?_, ?_⟩
  · subst hfree
    simp only [tryAdmitLoop, if_neg h0, entry_ok hi, ok_bind, if_neg hg, modifyEntry_ok hi, pure_ok]
    rfl
  · exact hs.of_sized hfr
  · exact hw
  · exact hw
  · exact fun g e => by cases e
  · have hb : board (({ s with free := (s.row i).next } : State).setRow i
        (admitRow task lane (s.row i))) { v with freeEntries := rest } =
        { (board s v).amend i (admitRow task lane) with free := rest } := by
      rw [board_setRow (s := { s with free := (s.row i).next }) hi (admitRow task lane) rfl]
      rfl
    rw [hb]
    exact @Tried.admitted task lane (board s v) (board s v) i rest (.refl _) hf hg

/-- **The loop of `try_admit`** ends with a result. Every turn on an exhausted cell shortens the
    free list; a turn on an empty free list fills it with cells that are not exhausted. -/
theorem tryAdmitLoop_spec (n : Nat) : ∀ {s : State} {v : View} {prepared : Prepared} (fuel : Nat),
    Laid s v → (board s v).Ok limit → Storage s → prepared.Fits s → v.freeEntries.length = n → n + 2 ≤ fuel →
    ∃ s' v' prepared' result, tryAdmitLoop task lane fuel s prepared = .ok (s', prepared', result) ∧
      Attempt s v task lane s' prepared' result v' := by
  induction n with
  | zero =>
    intro s v prepared fuel h ho hs hp hlen hfuel
    obtain ⟨fuel, rfl⟩ : ∃ m, fuel = m + 2 := ⟨fuel - 2, by omega⟩
    have hf : v.freeEntries = [] := eq_nil_of_length_eq_zero hlen
    have h0 : s.free = 0 := h.freeEntry.head_zero.mpr hf
    obtain ⟨s₁, v₁, p₁, res, e₁, hL₁, hS₁, hP₁, hW₁, _, hR⟩ := refill_spec h hs hp hf
    rw [tryAdmitLoop, if_pos h0, e₁, ok_bind]
    cases hR with
    | full hb =>
      refine ⟨s₁, v₁, p₁, _, rfl, hL₁, hS₁, hP₁, hW₁, fun g e => ?_, ?_⟩
      · cases e
      · rw [hb]; exact .refused (.refl _) fun t e => (Except.ok.inj e).symm
    | @wait g hb hg =>
      refine ⟨s₁, v₁, p₁, _, rfl, hL₁, hS₁, hP₁, hW₁, fun g' e => ?_, ?_⟩
      · exact Except.error.inj e ▸ hg
      · rw [hb]; exact .refused (.refl _) fun t e => by cases e
    | @filled n hn hm hb =>
      have hfree₁ : v₁.freeEntries =
          (List.range' (s.entryCount + 1) (n - s.entryCount)).reverse := congrArg Board.free hb
      obtain ⟨m, hm'⟩ : ∃ m, n - s.entryCount = m + 1 := ⟨n - s.entryCount - 1, by omega⟩
      have hcons : v₁.freeEntries = n :: (List.range' (s.entryCount + 1) m).reverse := by
        rw [hfree₁, hm', range'_concat, reverse_append]
        simp
        omega
      -- the first fresh cell was never used
      have hgen : (s₁.row n).generation ≠ u32Max := by
        have e : (s₁.row n).data = (s.row n).data := congrFun (congrArg Board.cell hb) n
        have hout : (s.row n).data = emptyEntry 0 :=
          ho.outside n fun c => by have : n ≤ s.entryCount := c.2; omega
        have : (s₁.row n).data.generation = 0 := by rw [e, hout]; rfl
        have h0 : (s₁.row n).generation = 0 := this
        rw [h0]; decide
      obtain ⟨s₂, v₂, p₂, res, e₂, a⟩ :=
        tryAdmitLoop_enrol task lane fuel hL₁ hS₁ hP₁ hcons hgen
      refine ⟨s₂, v₂, p₂, res, e₂, a.laid, a.storage, a.fits, hW₁.trans a.wider, a.request, ?_⟩
      have ht := a.tried
      rw [hb] at ht
      exact .grow hf hn hm ht
  | succ n ih =>
    intro s v prepared fuel h ho hs hp hlen hfuel
    obtain ⟨fuel, rfl⟩ : ∃ m, fuel = m + 1 := ⟨fuel - 1, by omega⟩
    obtain ⟨i, rest, hf⟩ : ∃ i rest, v.freeEntries = i :: rest := by
      cases hc : v.freeEntries with
      | nil => rw [hc] at hlen; cases hlen
      | cons i rest => exact ⟨i, rest, rfl⟩
    have hfree : s.free = i := by rw [h.freeEntry.head_eq, hf]; rfl
    have hi : s.HasRow i := h.freeRow i (hf ▸ (.head _))
    by_cases hg : (s.row i).generation = u32Max
    · have hok : (board { s with free := (s.row i).next } { v with freeEntries := rest }).Ok limit :=
        (ho.replenish (.discard hf hg (.refl _))).1
      obtain ⟨s', v', p', res, e, a⟩ := ih (s := { s with free := (s.row i).next })
        (v := { v with freeEntries := rest }) fuel (h.pop_free hf) hok
        (hs.of_sized ⟨rfl, rfl, rfl, rfl⟩) (hp.wider (Wider.refl s)) (by rw [hf] at hlen; simpa using hlen)
        (by omega)
      refine ⟨s', v', p', res, ?_, a.laid, a.storage, a.fits, a.wider, a.request, ?_⟩
      · subst hfree
        simp only [tryAdmitLoop, if_neg hi.1, entry_ok hi, ok_bind, if_pos hg]
        exact e
      · exact .discard hf hg a.tried
    · exact tryAdmitLoop_enrol task lane fuel h hs hp hf hg

/-- **`try_admit` ends**, replenishes the board and admits at most one registration. -/
theorem tryAdmit_spec (h : Laid s v) (ho : (board s v).Ok limit) (hs : Storage s) (hp : prepared.Fits s) :
    ∃ s' v' prepared' result, tryAdmit s prepared task lane = .ok (s', prepared', result) ∧
      Attempt s v task lane s' prepared' result v' := by
  refine tryAdmitLoop_spec task lane v.freeEntries.length (s.entryCount + 3) h ho hs hp rfl ?_
  have : v.freeEntries.length ≤ s.entryCount :=
    length_le_of_nodup h.freeEntry.nodup h.freeRow
  omega

end TryAdmit

end Bray.Scheduler
