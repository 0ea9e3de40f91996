/-
  File:      Bray/Scheduler/Wakes.lean
  Subject:   NO LOST AND NO DUPLICATED WAKE.

  An accepted wake is OWED: its registration is ready, or it is running with a wake recorded that
  the next release turns into readiness. `Owed` is preserved by every step except the dispatch
  that delivers the wake and the withdrawal of the registration (`Owed.step`). A wake that
  arrives while one is owed changes nothing, so the cause that is delivered is the first one.

  A dispatch is a claim. Until its holder releases it the cell stays in the running phase, and a
  running cell is not dispatched (`Held.step`).
-/
import Bray.Scheduler.Ready

namespace Bray.Scheduler

open Bray.Lib List

/-! ## 1. On the board -/

namespace Board

variable {limit : Nat} {b b' : Board} {op : Op} {out : Out}

/-- The registration is ready, or running with a recorded wake. -/
def Owed (b : Board) (r : UInt64) : Prop :=
  ∃ i, b.Live r i ∧ ((b.cell i).phase = 1 ∨ (b.cell i).phase = 2 ∧ (b.cell i).pending ≠ 0)

/-- The step dispatches the registration `r`. -/
def Dispatches (r : Nat) : Op → Out → Prop
  | .acquisition _ _, .observed (some o) => o.registration = r
  | _, _ => False

theorem Live.eq {r r' : UInt64} {i : Nat} (h : b.Live r i) (h' : b.Live r' i) : r = r' :=
  UInt64.toNat_inj.mp (h.token.trans h'.token.symm)

/-- A registration lives on in its cell while the generation stays and the phase is not 3. -/
theorem Live.of_eq {r : UInt64} {i : Nat} (h : b.Live r i) (ho : Ok limit b')
    (hg : (b'.cell i).generation = (b.cell i).generation) (hp : (b'.cell i).phase ≠ 3) : b'.Live r i :=
  ⟨ho.cell_of_phase hp, h.2.1, hg.trans h.2.2.1, hp⟩

theorem Owed.of_wake {r : UInt64} {cause now code : Nat} (ho : Ok limit b)
    (st : Step limit b (.wake r cause now) (.status code) b') (hc : code ≠ 2) (h0 : cause ≠ 0) : b'.Owed r := by
  have ho' := ho.step st
  cases st with
  | stay h => exact absurd h id
  | stale => exact absurd rfl hc
  | join h hp => exact ⟨_, h, hp⟩
  | note h hp hn =>
    refine ⟨_, h.of_eq ho' ?_ ?_, .inr ?_⟩
    · rw [amend_self, noted_generation]
    · rw [amend_self, noted_phase]; omega
    · rw [amend_self, noted_phase, noted_pending]; exact ⟨hp, h0⟩
  | wake h hp =>
    refine ⟨_, h.of_eq ho' ?_ ?_, .inl ?_⟩ <;> simp [amend]

/-- **An owed wake stays owed** until its registration is dispatched or withdrawn. -/
theorem Owed.step {r : UInt64} (h : b.Owed r) (ho : Ok limit b) (st : Step limit b op out b') :
    b'.Owed r ∨ op = .withdrawal r ∨ Dispatches r.toNat op out := by
  obtain ⟨i, hl, hp⟩ := h
  have ho' := ho.step st
  have hc := st.change ho i
  have h3 := hl.2.2.2
  generalize he : b'.cell i = e at hc
  have live : e.generation = (b.cell i).generation → e.phase ≠ 3 → b'.Live r i := fun hg hp =>
    hl.of_eq ho' (by rw [he]; exact hg) (by rw [he]; exact hp)
  cases hc with
  | same => exact .inl ⟨i, live rfl h3, by rw [he]; exact hp⟩
  | note _ hp2 hn =>
    rcases hp with h1 | h2
    · omega
    · exact absurd hn h2.2
  | wake _ hp0 => omega
  | dispatch _ => exact .inr (.inr hl.token.symm)
  | idle _ _ hd =>
    rcases hp with h1 | h2
    · omega
    · unfold due at hd
      rw [if_pos h2.2] at hd
      exact absurd hd h2.2
  | requeue _ _ _ => exact .inl ⟨i, live rfl (by simp), .inl (by rw [he]; rfl)⟩
  | lend _ hp2 | borrow _ hp2 =>
    exact .inl ⟨i, live rfl (by simpa using h3), by rw [he]; simpa using hp⟩
  | retire h' => exact .inr (.inl (by rw [hl.eq h']))
  | enrol hp3 _ => exact absurd hp3 h3

/-- The claim on `r` is held: its cell is running, or the registration is gone. -/
def Held (b : Board) (r : Nat) : Prop :=
  b.Gone r ∨ (b.cell (r % 2 ^ 32)).generation = (r >>> 32) % 2 ^ 32 ∧ (b.cell (r % 2 ^ 32)).phase = 2

/-- The step releases the registration `r`. -/
def Releases (r : Nat) : Op → Out → Prop
  | .release r' _ _ _, .status 0 => r'.toNat = r
  | _, _ => False

/-- **A claim is held until it is released.** -/
theorem Held.step {r : Nat} (hr : r < 2 ^ 64) (h : b.Held r) (ho : Ok limit b) (st : Step limit b op out b') :
    b'.Held r ∨ Releases r op out := by
  rcases h with hg | ⟨hg, hp⟩
  · exact .inl (.inl (hg.step ho st))
  · have hc := st.change ho (r % 2 ^ 32)
    generalize he : b'.cell (r % 2 ^ 32) = e at hc
    have keep : e.generation = (b.cell (r % 2 ^ 32)).generation → e.phase = 2 → b'.Held r :=
      fun h1 h2 => .inr (by rw [he]; exact ⟨h1.trans hg, h2⟩)
    have named : ∀ r' : UInt64, b.Live r' (r % 2 ^ 32) → r'.toNat = r := fun r' h => by
      have hi : r % 2 ^ 32 ≤ u32Max := h.1.2.trans ho.count
      rw [h.token, token_eq hi, hg, Nat.shiftRight_eq_div_pow]
      omega
    cases hc with
    | same => exact .inl (keep rfl hp)
    | note _ _ _ => exact .inl (keep (by simp) (by simpa using hp))
    | wake _ hp0 => omega
    | dispatch hp1 => omega
    | idle h' _ _ => exact .inr (named _ h')
    | requeue h' _ _ => exact .inr (named _ h')
    | lend _ _ => exact .inl (keep rfl hp)
    | borrow _ _ => exact .inl (keep rfl hp)
    | retire _ => exact .inl (.inl (.inr (by rw [he]; exact ⟨hg, rfl⟩)))
    | enrol hp3 _ => omega

/-- A dispatch takes the claim; nobody holds it at that moment. -/
theorem Held.of_dispatch {thread lanes : Nat} {o : Observation} (ho : Ok limit b)
    (st : Step limit b (.acquisition thread lanes) (.observed (some o)) b') :
    o.registration < 2 ^ 64 ∧ b'.Held o.registration ∧ ¬ b.Held o.registration := by
  cases st with
  | stay h => exact absurd h id
  | @dispatch _ _ i lane ready hr hs =>
    have hm : i ∈ b.ready.queue lane :=
      (Rota.queue_serve ho.rota.keys hs).1 ▸ (.head _)
    have hp := ((ho.queued i lane).mp hm).1
    have hi : i ≤ u32Max := ho.item_le (Rota.mem_items_of_queue hm)
    have hg := ho.generation i
    have e1 : (observe i (b.cell i)).registration % 2 ^ 32 = i := token_index hi
    have e2 : ((observe i (b.cell i)).registration >>> 32) % 2 ^ 32 = (b.cell i).generation :=
      token_generation hi hg
    refine ⟨token_lt hi hg, .inr ?_, ?_⟩
    · rw [e1, e2]
      simp [amend]
    · rintro (hgone | ⟨_, h2⟩)
      · unfold Gone at hgone
        rw [e1, e2] at hgone
        rcases hgone with h | h
        · omega
        · omega
      · rw [e1] at h2
        omega

end Board

/-! ## 2. Along a run -/

/-- The wake of `r` is delivered in the trace. -/
def Delivered (r : UInt64) (tr : List (Op × Out)) : Prop :=
  ∃ thread lanes o, (.acquisition thread lanes, .observed (some o)) ∈ tr ∧ o.registration = r.toNat

theorem owed_run {s s' : System} {b : Board} {tr : List (Op × Out)} {r : UInt64}
    (hr : Run step s tr s') (h : Healthy s b) (hw : b.Owed r) (hd : ¬ Delivered r tr)
    (hn : ∀ out, (.withdrawal r, out) ∉ tr) : ∃ b', Healthy s' b' ∧ b'.Owed r := by
  induction hr generalizing b with
  | nil s => exact ⟨b, h, hw⟩
  | @cons s s₁ s₂ op out tr hs _ ih =>
    obtain ⟨b₁, h₁, _, st⟩ := h.step hs
    rcases hw.step h.sound.ok st with hw₁ | rfl | hdis
    · refine ih h₁ hw₁ ?_ fun out m => hn out (.tail _ m)
      rintro ⟨thread, lanes, o, m, e⟩
      exact hd ⟨thread, lanes, o, .tail _ m, e⟩
    · exact absurd (.head _) (hn out)
    · cases op <;> try exact absurd hdis id
      rename_i thread lanes
      cases out <;> try exact absurd hdis id
      rename_i o
      cases o with
      | none => exact absurd hdis id
      | some o => exact absurd ⟨thread, lanes, o, (.head _), hdis⟩ hd

theorem held_run {s s' : System} {b : Board} {tr : List (Op × Out)} {r : Nat} (h64 : r < 2 ^ 64)
    (hr : Run step s tr s') (h : Healthy s b) (hw : b.Held r)
    (hn : ∀ x ∈ tr, ¬ Board.Releases r x.1 x.2) : ∃ b', Healthy s' b' ∧ b'.Held r := by
  induction hr generalizing b with
  | nil s => exact ⟨b, h, hw⟩
  | cons hs _ ih =>
    obtain ⟨b₁, h₁, _, st⟩ := h.step hs
    rcases hw.step h64 h.sound.ok st with hw₁ | hrel
    · exact ih h₁ hw₁ fun x m => hn x (.tail _ m)
    · exact absurd hrel (hn _ (.head _))

/-! ## 3. On the state -/

/-- The cell a registration names. -/
def State.entryOf (s : State) (r : UInt64) : Entry := s.row (r.toNat % 2 ^ 32)

/-- The registration is queued as ready. -/
def State.IsReady (s : State) (r : UInt64) : Prop := r.toNat ∈ s.ready.items

/-- The registration is running with a wake recorded. -/
def State.IsPending (s : State) (r : UInt64) : Prop :=
  s.HasRow (r.toNat % 2 ^ 32) ∧ (s.entryOf r).generation = (r.toNat >>> 32) % 2 ^ 32 ∧
    (s.entryOf r).phase = 2 ∧ (s.entryOf r).pending ≠ 0

section Reading

variable {s : System} {b : Board} {r : UInt64}

section

variable (h : Healthy s b)
include h

theorem live_of_isReady (hr : s.domain.state.IsReady r) :
    b.Live r (r.toNat % 2 ^ 32) ∧ (b.cell (r.toNat % 2 ^ 32)).phase = 1 := by
  have ho := h.sound.ok
  unfold State.IsReady at hr
  rw [h.ready_eq, Board.registrations, Rota.items_rename] at hr
  obtain ⟨i, hi, e⟩ := mem_map.mp hr
  obtain ⟨k, hk⟩ := Rota.exists_queue ho.rota.keys hi
  have hp := ((ho.queued i k).mp hk).1
  have hle := ho.item_le hi
  have e1 : r.toNat % 2 ^ 32 = i := by rw [← e]; exact token_index hle
  have e2 : (r.toNat >>> 32) % 2 ^ 32 = (b.cell i).generation := by
    rw [← e]; exact token_generation hle (ho.generation i)
  rw [e1]
  exact ⟨⟨ho.cell_of_phase (by omega), e1.symm, e2.symm, by omega⟩, hp⟩

theorem live_of_isPending (hp : s.domain.state.IsPending r) :
    b.Live r (r.toNat % 2 ^ 32) ∧ (b.cell (r.toNat % 2 ^ 32)).phase = 2 ∧
      (b.cell (r.toNat % 2 ^ 32)).pending ≠ 0 := by
  obtain ⟨⟨v, _, rfl⟩, _⟩ := h.sound
  obtain ⟨h1, h2, h3, h4⟩ := hp
  have h3' : ((board s.domain.state v).cell (r.toNat % 2 ^ 32)).phase = 2 := h3
  exact ⟨⟨h1, rfl, h2, by omega⟩, h3, h4⟩

theorem owed_shown (hw : b.Owed r) : s.domain.state.IsReady r ∨ s.domain.state.IsPending r := by
  have ho := h.sound.ok
  obtain ⟨i, hl, hp⟩ := hw
  obtain rfl := hl.2.1
  rcases hp with h1 | h2
  · left
    unfold State.IsReady
    rw [h.ready_eq]
    exact Rota.mem_items_of_queue ((ho.mem_registrations hl _).mpr ⟨h1, rfl⟩)
  · right
    obtain ⟨⟨v, _, rfl⟩, _⟩ := h.sound
    exact ⟨hl.1, hl.2.2.1, h2.1, h2.2⟩

/-- **A wake that finds one owed joins it**: the whole system stays as it is. -/
theorem wake_joins (cause now : Nat) (hw : s.domain.state.IsReady r ∨ s.domain.state.IsPending r) :
    step s (.wake r cause now) = .ok (s, .status 0) := by
  obtain ⟨hl, hp⟩ : b.Live r (r.toNat % 2 ^ 32) ∧ ((b.cell (r.toNat % 2 ^ 32)).phase = 1 ∨
      (b.cell (r.toNat % 2 ^ 32)).phase = 2 ∧ (b.cell (r.toNat % 2 ^ 32)).pending ≠ 0) := by
    rcases hw with hw | hw
    · exact ⟨(live_of_isReady h hw).1, .inl (live_of_isReady h hw).2⟩
    · exact ⟨(live_of_isPending h hw).1, .inr (live_of_isPending h hw).2⟩
  obtain ⟨⟨v, _, rfl⟩, _⟩ := h.sound
  obtain ⟨i, e, hc⟩ := indexOf_spec s.domain.state v r
  rcases hc with ⟨_, hn⟩ | ⟨h0, hi⟩
  · exact absurd hl (hn _)
  · obtain rfl := hi.2.1
    simp only [step, wake, e, ok_bind, if_neg h0, entry_ok hi.hasRow]
    rcases hp with h1 | h2
    · have h1 : (s.domain.state.row (r.toNat % 2 ^ 32)).phase = 1 := h1
      rw [if_pos h1]; rfl
    · have h2 : (s.domain.state.row (r.toNat % 2 ^ 32)).phase = 2 ∧
        (s.domain.state.row (r.toNat % 2 ^ 32)).pending ≠ 0 := h2
      rw [if_neg (by omega), if_pos h2]; rfl

/-- **A release delivers the recorded wake**: the registration is ready in its new lane, with the
  recorded cause. -/
theorem release_delivers (hp : s.domain.state.IsPending r) {lane : Lane}
    {cancellation now : Nat} {s' : System} {out : Out}
    (hs : step s (.release r lane cancellation now) = .ok (s', out)) : r.toNat ∈ s'.domain.state.ready.queue lane ∧
      (s'.domain.state.entryOf r).cause = (s.domain.state.entryOf r).pending := by
  obtain ⟨hl, h2, hn⟩ := live_of_isPending h hp
  obtain ⟨b', h', _, st⟩ := h.step hs
  have ho' := h'.sound.ok
  have hcell : (b'.cell (r.toNat % 2 ^ 32)).cause = (b.cell (r.toNat % 2 ^ 32)).pending ∧
    (b'.cell (r.toNat % 2 ^ 32)).phase = 1 ∧ (b'.cell (r.toNat % 2 ^ 32)).lane = lane ∧
    (b'.cell (r.toNat % 2 ^ 32)).generation = (b.cell (r.toNat % 2 ^ 32)).generation := by
    have hdue : Board.due (b.cell (r.toNat % 2 ^ 32)) cancellation =
      (b.cell (r.toNat % 2 ^ 32)).pending := if_pos hn
    cases st with
    | stay hq => exact absurd hl (hq _)
    | idle hl' _ _ hd =>
      obtain rfl := hl'.2.1
      exact absurd (hdue.symm.trans hd) hn
    | requeue hl' _ _ _ =>
      obtain rfl := hl'.2.1
      generalize r.toNat % 2 ^ 32 = i at hdue ⊢
      simp [hdue]
  refine ⟨?_, ?_⟩
  · rw [h'.ready_eq]
    have hl' : b'.Live r (r.toNat % 2 ^ 32) := hl.of_eq ho' hcell.2.2.2 (by rw [hcell.2.1]; decide)
    exact (ho'.mem_registrations hl' lane).mpr ⟨hcell.2.1, hcell.2.2.1⟩
  · obtain ⟨⟨v, _, rfl⟩, _⟩ := h.sound
    obtain ⟨⟨v', _, rfl⟩, _⟩ := h'.sound
    exact hcell.1

/-- **A wake of an idle registration** makes it ready with its cause. -/
theorem wake_readies {cause now : Nat} {s' : System} (hs : step s (.wake r cause now) = .ok (s', .status 1)) :
    s'.domain.state.IsReady r ∧ (s'.domain.state.entryOf r).cause = cause := by
  obtain ⟨b', h', _, st⟩ := h.step hs
  have ho' := h'.sound.ok
  have hcell : b'.Live r (r.toNat % 2 ^ 32) ∧ (b'.cell (r.toNat % 2 ^ 32)).cause = cause ∧
    (b'.cell (r.toNat % 2 ^ 32)).phase = 1 := by
    cases st with
    | stay hq => exact absurd hq id
    | wake hl _ =>
      obtain rfl := hl.2.1
      exact ⟨hl.of_eq ho' (by simp) (by simp), by simp, by simp⟩
  refine ⟨?_, ?_⟩
  · unfold State.IsReady
    rw [h'.ready_eq]
    exact Rota.mem_items_of_queue ((ho'.mem_registrations hcell.1 _).mpr ⟨hcell.2.2, rfl⟩)
  · obtain ⟨⟨v', _, rfl⟩, _⟩ := h'.sound
    exact hcell.2.1

end

end Reading

end Bray.Scheduler
