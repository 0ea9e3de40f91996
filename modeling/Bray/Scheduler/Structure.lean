/-
  File:      Bray/Scheduler/Structure.lean
  Subject:   THE LISTS AND THE SLOTS IN EVERY REACHABLE STATE.

  `Structural s v` is the structural invariant, read off the links of the state: the lists `v`
  names are exactly what `next`, `previous`, `head` and `tail` spell. The free list of entries
  holds retired entries only, and misses a retired entry only when its generation is exhausted:
  `try_admit` drops such an entry instead of reusing it.
-/
import Bray.Scheduler.Tokens

namespace Bray.Scheduler

open Bray.Lib

/-! ## 1. The lists -/

/-- **The structural invariant.** -/
structure Structural (s : State) (v : View) : Prop where
  /-- the active lanes are one doubly linked list -/
  active : Linked s.qnext s.qprev s.head s.tail v.active
  /-- the entries of an active header are one doubly linked list -/
  lane : ∀ q ∈ v.active, Linked s.rnext s.rprev (s.header q).head (s.header q).tail (v.members q)
  /-- a ready entry is in exactly one of them, and that header has its lane -/
  ready : ∀ e, s.HasRow e → (s.row e).phase = 1 →
    ∃ q ∈ v.active, e ∈ v.members q ∧ (s.header q).lane = (s.row e).lane ∧ ∀ p ∈ v.active, e ∈ v.members p → p = q
  /-- nothing else is in one -/
  members : ∀ q ∈ v.active, ∀ e ∈ v.members q, s.HasRow e ∧ (s.row e).phase = 1
  nonempty : ∀ q ∈ v.active, v.members q ≠ []
  distinct : ∀ p ∈ v.active, ∀ q ∈ v.active, (s.header p).lane = (s.header q).lane → p = q
  /-- the free headers are the unused ones -/
  headers : Chain s.qnext s.freeQueue v.freeQueues ∧ ∀ q, q ∈ v.freeQueues ↔ s.HasHeader q ∧ q ∉ v.active
  /-- the free entries are retired -/
  entries : Chain s.rnext s.free v.freeEntries ∧ ∀ e ∈ v.freeEntries, s.HasRow e ∧ (s.row e).phase = 3

/-- Every retired entry is in the free list. -/
def FreesAll (s : State) (v : View) : Prop :=
  ∀ e, s.HasRow e → (s.row e).phase = 3 → e ∈ v.freeEntries

/-- Every retired entry is in the free list unless its generation is exhausted. -/
def FreesUsable (s : State) (v : View) : Prop :=
  ∀ e, s.HasRow e → (s.row e).phase = 3 → e ∉ v.freeEntries → (s.row e).generation = u32Max

theorem Healthy.structural {sys : System} {b : Board} (h : Healthy sys b) :
    ∃ v, Structural sys.domain.state v ∧ FreesUsable sys.domain.state v := by
  obtain ⟨⟨v, hL, rfl⟩, ho⟩ := h.sound
  refine ⟨v, ⟨hL.lanes, hL.queues, fun e _ hp => ?_, fun q hq e he => ?_, hL.busy, hL.distinct,
    ⟨hL.freeQueue, fun q => ?_⟩, hL.freeEntry, fun e he => ?_⟩, fun e he hp hf => ?_⟩
  · obtain ⟨q, hq, he, hl⟩ := hL.header_of_ready ho hp
    exact ⟨q, hq, he, hl, fun p hpa hep => hL.member_unique hpa hq hep he⟩
  · have hm : e ∈ (v.rota sys.domain.state).queue (sys.domain.state.header q).lane := by
      rw [rota_queue hL.toLayout hq]; exact he
    exact ⟨(hL.own q hq e he).1, ((ho.queued e _).mp hm).1⟩
  · rw [hL.headers q]
    constructor
    · exact fun hf => ⟨.inr hf, fun ha => hL.apart q ha hf⟩
    · rintro ⟨ha | hf, hn⟩
      · exact absurd ha hn
      · exact hf
  · exact ⟨hL.freeRow e he, (ho.free e he).2⟩
  · exact ho.exhausted e he hp hf

/-- **THE STRUCTURE OF THE SCHEDULER in every reachable state.** The lists are well formed, ready
  entries and headers are where they belong, the free lists hold retired entries and unused
  headers and miss only exhausted entries, and no operation finds the free headers exhausted. -/
theorem reached_structural {s : System} (h : Reached s) :
    (∃ v, Structural s.domain.state v ∧ FreesUsable s.domain.state v) ∧
      ∀ op, step s op ≠ .error .headersExhausted := by
  obtain ⟨b, hb⟩ := h.healthy
  refine ⟨hb.structural, fun op he => ?_⟩
  rcases step_sim hb op with ⟨f, e, hm⟩ | ⟨_, _, _, e, _⟩
  · rw [he] at e
    cases e
    cases op <;> exact hm
  · rw [he] at e; cases e

/-- The state after one registration has been dispatched. -/
theorem reached_structural_first : ∃ s, Reached s ∧ s.domain.state.running = 1 ∧
    (∃ v, Structural s.domain.state v ∧ FreesUsable s.domain.state v) ∧
      ∀ op, step s op ≠ .error .headersExhausted := by
  have h : Run step (System.initial 0 0 1) _ _ := .of_execute
    (firstAdmission ++ [.wake firstToken 1 0, .acquisition 0 1]) rfl
  exact ⟨_, ⟨0, 0, 1, _, h⟩, rfl, reached_structural ⟨0, 0, 1, _, h⟩⟩

/-! ## 2. The slots -/

theorem State.entryRows_eq (s : State) : s.entryRows = (List.range' 1 s.entryCount).map s.row := by
  refine List.ext_getElem (by simp [State.entryCount]) fun i h1 h2 => ?_
  simp [State.row, Nat.add_comm 1 i, List.getD_eq_getElem?_getD, h1]

/-- **SLOT ACCOUNTING.** In every state a domain of `limit` slots reaches: the running counter is
  the number of entries that hold a slot, it is within the limit, an entry that holds a slot is
  running, and no operation takes the counter below zero. -/
theorem slot_accounting (capabilities main limit : Nat) {s : System}
    (h : Reachable step (System.initial capabilities main limit) s) :
    s.domain.state.running = s.domain.state.entryRows.countP (·.slot) ∧ s.domain.state.running ≤ limit ∧
    (∀ row ∈ s.domain.state.entryRows, row.slot = true → row.phase = 2) ∧ ∀ op, step s op ≠ .error .underflow := by
  obtain ⟨tr, hr⟩ := h
  obtain ⟨⟨b, hb⟩, hl⟩ := hr.invariant
    (P := fun s => (∃ b, Healthy s b) ∧ s.domain.limit = limit)
    (fun s i s' o hb hs => by
      obtain ⟨⟨b, hb⟩, hl⟩ := hb
      obtain ⟨b', hb', hl', _⟩ := hb.step hs
      exact ⟨⟨b', hb'⟩, hl'.trans hl⟩)
    ⟨⟨_, Healthy.initial capabilities main limit⟩, rfl⟩
  obtain ⟨⟨v, hL, rfl⟩, ho⟩ := hb.sound
  rw [State.entryRows_eq]
  refine ⟨?_, hl ▸ ho.limit, fun row hrow hs => ?_, fun op he => ?_⟩
  · rw [List.countP_map]; exact ho.running
  · obtain ⟨i, _, rfl⟩ := List.mem_map.mp hrow
    exact ho.slot i hs
  · rcases step_sim hb op with ⟨f, e, hm⟩ | ⟨_, _, _, e, _⟩
    · rw [he] at e
      cases e
      cases op <;> exact hm
    · rw [he] at e; cases e

/-- One registration holds the only slot. -/
theorem slot_accounting_first : ∃ s, Reachable step (System.initial 0 0 1) s ∧
    s.domain.state.entryRows.countP (·.slot) = 1 ∧
    s.domain.state.running = s.domain.state.entryRows.countP (·.slot) ∧ s.domain.state.running ≤ 1 ∧
    (∀ row ∈ s.domain.state.entryRows, row.slot = true → row.phase = 2) ∧ ∀ op, step s op ≠ .error .underflow := by
  have h : Run step (System.initial 0 0 1) _ _ := .of_execute
    (firstAdmission ++ [.wake firstToken 1 0, .acquisition 0 1]) rfl
  exact ⟨_, ⟨_, h⟩, rfl, slot_accounting 0 0 1 ⟨_, h⟩⟩

/-! ## 3. An exhausted entry leaves the free list

The generations of one entry are used up by admitting and withdrawing it `2 ^ 32 - 1` times. -/

/-- One entry, retired in generation `n`, and one unused header. -/
def spent (n free : Nat) : State where
  entries := some ⟨1, [{ emptyEntry 0 with generation := n }], Nat.le_refl 1⟩
  queues := some ⟨1, [emptyQueue 0], Nat.le_refl 1⟩
  freeQueue := 1
  free := free
  head := 0
  tail := 0
  running := 0
  waiters := fun _ => 0

/-- A system in which nothing is in progress but the state is `state`. -/
def Rests (s : System) (state : State) : Prop :=
  s.domain.state = state ∧ s.admissions 0 = none

theorem spent_first : ∃ s, Reached s ∧ Rests s (spent 1 1) := by
  refine ⟨_, ⟨0, 0, 1, _, .of_execute [.admission 0 0 emptyLane, .tryAdmit 0,
    .prepareGrowth 0 true, .tryAdmit 0, .prepareGrowth 0 true, .tryAdmit 0,
    .withdrawal 4294967297] rfl⟩, rfl, rfl⟩

theorem spent_hasRow (n free : Nat) : (spent n free).HasRow 1 := ⟨by decide, Nat.le_refl 1⟩

/-- The registration of the next generation. -/
theorem next_token {n : Nat} (h : n < u32Max) : (UInt64.ofNat (token (n + 1) 1)).toNat = token (n + 1) 1 ∧
    token (n + 1) 1 % 2 ^ 32 = 1 ∧ (token (n + 1) 1 >>> 32) % 2 ^ 32 = n + 1 := by
  have h1 : 1 ≤ u32Max := by decide
  refine ⟨?_, token_index h1, token_generation h1 h⟩
  rw [UInt64.toNat_ofNat']
  exact Nat.mod_eq_of_lt (token_lt h1 h)

/-- The entry, admitted in generation `n`. -/
def held (n : Nat) : State :=
  { spent n 0 with
    entries := some ⟨1, [{ emptyEntry 0 with generation := n, phase := 0 }], Nat.le_refl 1⟩ }

theorem held_hasRow (n : Nat) : (held n).HasRow 1 := ⟨by decide, Nat.le_refl 1⟩

theorem spent_tryAdmit {n : Nat} (hn : n < u32Max) : tryAdmit (spent n 1) ⟨none, none⟩ 0 emptyLane =
    .ok (held (n + 1), ⟨none, none⟩, .ok (token (n + 1) 1)) := by
  have hg : ((spent n 1).row 1).generation ≠ u32Max := by
    show n ≠ u32Max
    omega
  have hr := spent_hasRow n 1
  show tryAdmitLoop 0 emptyLane (3 + 1) (spent n 1) ⟨none, none⟩ = _
  rw [tryAdmitLoop, if_neg (show (spent n 1).free ≠ 0 from Nat.one_ne_zero)]
  simp only [show (spent n 1).free = 1 from rfl, entry_ok hr, ok_bind, if_neg hg, modifyEntry_ok hr]
  rfl

theorem held_withdrawal {n : Nat} (hn : n < u32Max) {d : Domain} (hd : d.state = held (n + 1)) :
    ∃ d', withdrawal d (token (n + 1) 1) = .ok d' ∧ d'.state = spent (n + 1) 1 := by
  obtain ⟨_, e2, e3⟩ := next_token hn
  have hr := held_hasRow (n + 1)
  have hi : indexOf (held (n + 1)) (token (n + 1) 1) = .ok 1 := by
    have e : indexOf (held (n + 1)) (token (n + 1) 1) = (do
      let row ← entry (held (n + 1)) 1
      if row.generation ≠ n + 1 ∨ row.phase = 3 then pure 0 else pure 1) := by
      simp only [indexOf, e2, e3]; rfl
    have hlive : ¬ (((held (n + 1)).row 1).generation ≠ n + 1 ∨ ((held (n + 1)).row 1).phase = 3) := by
      rintro (h | h)
      · exact h rfl
      · have : (0 : Nat) = 3 := h
        cases this
    rw [e, entry_ok hr, ok_bind, if_neg hlive]
    rfl
  refine ⟨(prepareSignal { d with state := spent (n + 1) 1 }).1, ?_, rfl⟩
  simp only [withdrawal, hd, hi, ok_bind, entry_ok hr]
  rfl

theorem admission_enters {s : System} (ha : s.admissions 0 = none) :
    ∃ s₁, step s (.admission 0 0 emptyLane) = .ok (s₁, .pending) ∧ s₁.domain = s.domain ∧
      s₁.admissions 0 = some ⟨0, emptyLane, ⟨none, none⟩, none⟩ := by
  refine ⟨s.setAdmission 0 (some ⟨0, emptyLane, ⟨none, none⟩, none⟩), ?_, rfl, ?_⟩
  · simp only [step, ha]
  · simp [System.setAdmission, Function.update_self]

/-- Admission and withdrawal of the entry: one more generation is used up. -/
theorem spent_next {n : Nat} (hn : n < u32Max) {s : System} (h : Rests s (spent n 1)) :
    ∃ s', Reachable step s s' ∧ Rests s' (spent (n + 1) 1) := by
  obtain ⟨hs, ha⟩ := h
  have hpos := token_pos n 1
  obtain ⟨t, ht⟩ : ∃ t, token (n + 1) 1 = t + 1 := ⟨token (n + 1) 1 - 1, by omega⟩
  have htry := spent_tryAdmit hn
  rw [← hs, ht] at htry
  -- the call enters, `try_admit` takes the entry, the registration is withdrawn
  obtain ⟨s₁, st₁, hs₁, ha₁⟩ := admission_enters ha
  obtain ⟨s₂, st₂, hs₂, ha₂⟩ : ∃ s₂, step s₁ (.tryAdmit 0) = .ok (s₂, .admitted (t + 1)) ∧
    s₂.domain.state = held (n + 1) ∧ s₂.admissions 0 = none := by
    refine ⟨({ s₁ with domain := { s₁.domain with state := held (n + 1) } } : System).setAdmission 0
      none, ?_, rfl, ?_⟩
    · simp only [step, System.tryAdmit, ha₁, hs₁, htry, ok_bind]
      rfl
    · simp [System.setAdmission, Function.update_self]
  obtain ⟨d, e, hd⟩ := held_withdrawal hn hs₂
  have st₃ : step s₂ (.withdrawal (UInt64.ofNat (token (n + 1) 1))) = .ok ({ s₂ with domain := d }, .idle) := by
    simp only [step, (next_token hn).1, e, ok_bind]
    rfl
  exact ⟨_, ((Reachable.refl s).next st₁ |>.next st₂ |>.next st₃), hd, ha₂⟩

theorem spent_all (n : Nat) (hn : n < u32Max) : ∃ s, Reached s ∧ Rests s (spent (n + 1) 1) := by
  induction n with
  | zero => exact spent_first
  | succ n ih =>
    obtain ⟨s, ⟨c, m, l, hr⟩, hs⟩ := ih (by omega)
    obtain ⟨s', ⟨tr, hr'⟩, hs'⟩ := spent_next hn hs
    exact ⟨s', ⟨c, m, l, hr.run hr'⟩, hs'⟩

/-- The next admission drops the exhausted entry and asks for storage. -/
theorem spent_dropped : ∃ s, Reached s ∧ s.domain.state = spent u32Max 0 := by
  obtain ⟨s, ⟨c, m, l, hr⟩, hs, ha⟩ := spent_all (u32Max - 1) (by decide)
  have hs : s.domain.state = spent u32Max 1 := hs
  obtain ⟨s₁, st₁, hs₁, ha₁⟩ := admission_enters ha
  have htry : tryAdmit (spent u32Max 1) ⟨none, none⟩ 0 emptyLane =
    .ok (spent u32Max 0, ⟨none, none⟩, .error (.entries 2)) := by
    rfl
  rw [← hs, ← hs₁] at htry
  have st₂ : step s₁ (.tryAdmit 0) =
    .ok (({ s₁ with domain := { s₁.domain with state := spent u32Max 0 } } : System).setAdmission 0
      (some ⟨0, emptyLane, ⟨none, none⟩, some (.entries 2)⟩), .pending) := by
    simp only [step, System.tryAdmit, ha₁, htry, ok_bind]
    rfl
  exact ⟨_, ⟨c, m, l, (hr.next st₁).next st₂⟩, rfl⟩

/-- **The free list does not hold every retired entry.** -/
theorem retired_entry_not_free :
    ¬ ∀ s, Reached s → ∃ v, Structural s.domain.state v ∧ FreesAll s.domain.state v := by
  intro hall
  obtain ⟨s, hr, hs⟩ := spent_dropped
  obtain ⟨v, hv, hf⟩ := hall s hr
  rw [hs] at hv hf
  have hm : 1 ∈ v.freeEntries := hf 1 (spent_hasRow u32Max 0) rfl
  have hnil : v.freeEntries = [] := hv.entries.1.head_zero.mp rfl
  rw [hnil] at hm
  exact List.not_mem_nil hm

end Bray.Scheduler
