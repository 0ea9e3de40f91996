/-
  File:      Bray/Scheduler/Tokens.lean
  Subject:   REGISTRATION TOKENS. No token is issued twice, an exhausted entry is never used
    again, and a retired token reaches nothing.

  A token is a generation above an index. What makes it unique is the life of ONE CELL: its
  generation never falls, it rises by one exactly when the cell is admitted, and only a live
  registration moves the cell in between (`Change`).
-/
import Bray.Scheduler.Invariant

namespace Bray.Scheduler

open Bray.Lib List

/-! ## 1. The halves of a token -/

section Halves

variable {g i : Nat}

theorem token_eq (hi : i ≤ u32Max) : token g i = g * 2 ^ 32 + i := by
  have h : i < 2 ^ 32 := Nat.lt_of_le_of_lt hi (by decide)
  unfold token
  rw [← Nat.shiftLeft_add_eq_or_of_lt h, Nat.shiftLeft_eq]

theorem token_index (hi : i ≤ u32Max) : token g i % 2 ^ 32 = i := by
  have h : i < 2 ^ 32 := Nat.lt_of_le_of_lt hi (by decide)
  rw [token_eq hi]
  omega

theorem token_generation (hi : i ≤ u32Max) (hg : g ≤ u32Max) : (token g i >>> 32) % 2 ^ 32 = g := by
  have h : i < 2 ^ 32 := Nat.lt_of_le_of_lt hi (by decide)
  have h' : g < 2 ^ 32 := Nat.lt_of_le_of_lt hg (by decide)
  rw [token_eq hi, Nat.shiftRight_eq_div_pow]
  omega

theorem token_lt (hi : i ≤ u32Max) (hg : g ≤ u32Max) : token g i < 2 ^ 64 := by
  have h : i < 2 ^ 32 := Nat.lt_of_le_of_lt hi (by decide)
  have h' : g < 2 ^ 32 := Nat.lt_of_le_of_lt hg (by decide)
  rw [token_eq hi]
  omega

end Halves

namespace Board

variable {limit : Nat} {b b' : Board} {op : Op} {out : Out}

theorem Live.token {r : UInt64} {i : Nat} (h : b.Live r i) : r.toNat = Scheduler.token (b.cell i).generation i := by
  have hr : r.toNat < 2 ^ 64 := r.toNat_lt
  have hi : i ≤ u32Max := by
    have e : u32Max + 1 = 2 ^ 32 := by decide
    rw [h.2.1]; omega
  rw [token_eq hi, h.2.2.1, Nat.shiftRight_eq_div_pow]
  conv_rhs => rw [h.2.1]
  omega

def registration (b : Board) (i : Nat) : Nat := Scheduler.token (b.cell i).generation i

theorem registration_inj {i j : Nat} (hi : i ≤ u32Max) (hj : j ≤ u32Max)
    (e : b.registration i = b.registration j) : i = j := by
  have := congrArg (· % 2 ^ 32) e
  simpa only [registration, token_index hi, token_index hj] using this

/-! ## 2. The life of a cell -/

/-- What a step can do to cell `i`, with the label under which it does it. -/
inductive Change (b : Board) (i : Nat) : Op → Out → Entry → Prop where
  | same {op : Op} {out : Out} : Change b i op out (b.cell i)
  | note {r : UInt64} {cause now : Nat} (h : b.Live r i) (hp : (b.cell i).phase = 2)
    (hn : (b.cell i).pending = 0) :
    Change b i (.wake r cause now) (.status 0) (noted cause (b.cell i))
  | wake {r : UInt64} {cause now : Nat} (h : b.Live r i) (hp : (b.cell i).phase = 0) :
    Change b i (.wake r cause now) (.status 1) (readied cause now (countWake (b.cell i)))
  | dispatch {thread lanes : Nat} (hp : (b.cell i).phase = 1) :
    Change b i (.acquisition thread lanes) (.observed (some (observe i (b.cell i))))
      (claimed (b.cell i))
  | idle {r : UInt64} {cancellation now : Nat} {lane : Lane} (h : b.Live r i)
    (hp : (b.cell i).phase = 2) (hd : due (b.cell i) cancellation = 0) :
    Change b i (.release r lane cancellation now) (.status 0) (releaseRow lane (b.cell i))
  | requeue {r : UInt64} {cancellation now : Nat} {lane : Lane} (h : b.Live r i)
    (hp : (b.cell i).phase = 2) (hd : due (b.cell i) cancellation ≠ 0) :
    Change b i (.release r lane cancellation now) (.status 0)
      (readied (due (b.cell i) cancellation) now (releaseRow lane (b.cell i)))
  | lend {r : UInt64} (h : b.Live r i) (hp : (b.cell i).phase = 2) :
    Change b i (.slotRelease r) (.status 1) (lent (b.cell i))
  | borrow {r : UInt64} (h : b.Live r i) (hp : (b.cell i).phase = 2) :
    Change b i (.slotAcquisition r) (.status 1) (borrowed (b.cell i))
  | retire {r : UInt64} (h : b.Live r i) : Change b i (.withdrawal r) .idle (retired (b.cell i))
  | enrol {thread task : Nat} {lane : Lane} (hp : (b.cell i).phase = 3)
    (hg : (b.cell i).generation ≠ u32Max) :
    Change b i (.tryAdmit thread) (.admitted (Scheduler.token ((b.cell i).generation + 1) i))
      (admitRow task lane (b.cell i))

theorem Change.of_update {b : Board} {i j : Nat} {e : Entry} (h : Change b j op out e) :
    Change b i op out (Function.update b.cell j e i) := by
  by_cases hij : i = j
  · subst hij; rw [Function.update_self]; exact h
  · rw [Function.update_of_ne hij]; exact .same

/-- **Every step changes every cell in one of these ways.** -/
theorem Step.change (ho : Ok limit b) (st : Step limit b op out b') (i : Nat) : Change b i op out (b'.cell i) := by
  cases st with
  | stay => exact .same
  | stale => exact .same
  | join => exact .same
  | note h hp hn => exact .of_update (.note h hp hn)
  | wake h hp => exact .of_update (.wake h hp)
  | @dispatch thread lanes j lane ready hr hs =>
    have hm : j ∈ b.ready.queue lane :=
      (Rota.queue_serve ho.rota.keys hs).1 ▸ (.head _)
    exact .of_update (.dispatch ((ho.queued j lane).mp hm).1)
  | idle h hp _ hd => exact .of_update (.idle h hp hd)
  | requeue h hp _ hd => exact .of_update (.requeue h hp hd)
  | lend h hp _ => exact .of_update (.lend h hp)
  | borrow h hp _ _ => exact .of_update (.borrow h hp)
  | retire h => exact .of_update (.retire h)
  | replenish hr _ => rw [(ho.replenish hr).2.1]; exact .same
  | @enrol b₁ thread task j lane rest hr hf hg =>
    obtain ⟨ho₁, hc, _⟩ := ho.replenish hr
    have hp := (ho₁.free j (hf ▸ (.head _))).2
    rw [hc] at hp hg
    simp only [amend, hc]
    exact .of_update (.enrol hp hg)

/-- The generation of a cell rises when it is admitted and never falls. -/
theorem Change.generation {i : Nat} {e : Entry} (h : Change b i op out e) :
    e.generation = (b.cell i).generation ∨ (b.cell i).phase = 3 ∧ e.generation = (b.cell i).generation + 1 ∧
      out = .admitted (Scheduler.token e.generation i) := by
  cases h with
  | enrol hp hg => exact .inr ⟨hp, rfl, rfl⟩
  | _ => exact .inl (by simp)

theorem Change.retired {i : Nat} {e : Entry} (h : Change b i op out e)
    (hp : (b.cell i).phase = 3) : e = b.cell i ∨ e.generation = (b.cell i).generation + 1 := by
  cases h with
  | same => exact .inl rfl
  | enrol => exact .inr rfl
  | dispatch h1 => exact absurd (h1.symm.trans hp) (by decide)
  | note h | wake h | idle h | requeue h | lend h | borrow h | retire h => exact absurd hp h.2.2.2

/-- The registration `r` has been retired: its cell is past its generation, or retired in it. -/
def Gone (b : Board) (r : Nat) : Prop :=
  (r >>> 32) % 2 ^ 32 < (b.cell (r % 2 ^ 32)).generation ∨
    (b.cell (r % 2 ^ 32)).generation = (r >>> 32) % 2 ^ 32 ∧ (b.cell (r % 2 ^ 32)).phase = 3

/-- **A retired registration stays retired.** -/
theorem Gone.step {r : Nat} (h : b.Gone r) (ho : Ok limit b) (st : Step limit b op out b') : b'.Gone r := by
  have hc := st.change ho (r % 2 ^ 32)
  rcases h with hlt | ⟨he, hp⟩
  · left
    rcases hc.generation with e | ⟨_, e, _⟩ <;> omega
  · rcases hc.retired hp with e | e
    · right; rw [e]; exact ⟨he, hp⟩
    · left; omega

theorem Gone.of_withdrawal {r : UInt64} (ho : Ok limit b) (st : Step limit b (.withdrawal r) out b')
    (hi : (r.toNat >>> 32) % 2 ^ 32 ≤ (b.cell (r.toNat % 2 ^ 32)).generation) : b'.Gone r.toNat := by
  by_cases hl : b.Live r (r.toNat % 2 ^ 32)
  · cases st with
    | stay h => exact absurd hl (h _)
    | @retire _ j h =>
      obtain rfl : j = r.toNat % 2 ^ 32 := h.2.1
      refine .inr ?_
      simp only [amend, Function.update_self, retired_generation, retired_phase]
      exact ⟨h.2.2.1, trivial⟩
  · -- it was retired before
    have hg : b.Gone r.toNat := by
      rcases Nat.lt_or_eq_of_le hi with hlt | heq
      · exact .inl hlt
      · by_cases hp : (b.cell (r.toNat % 2 ^ 32)).phase = 3
        · exact .inr ⟨heq.symm, hp⟩
        · exact absurd ⟨ho.cell_of_phase hp, rfl, heq.symm, hp⟩ hl
    exact hg.step ho st

theorem Gone.not_live {r : UInt64} (h : b.Gone r.toNat) (i : Nat) : ¬ b.Live r i := by
  rintro ⟨_, rfl, hg, hp⟩
  rcases h with hlt | ⟨_, h3⟩
  · omega
  · exact hp h3

end Board

/-! ## 3. Issued tokens along a run -/

/-- The tokens a trace issued, in order. -/
def issued (trace : List (Op × Out)) : List Nat :=
  trace.filterMap fun x => match x with
    | (.tryAdmit _, .admitted registration) => some registration
    | _ => none

/-- The generations of issued tokens have been reached by their cells. -/
def Covers (b : Board) (tokens : List Nat) : Prop :=
  ∀ r ∈ tokens, (r >>> 32) % 2 ^ 32 ≤ (b.cell (r % 2 ^ 32)).generation

theorem Covers.step {limit : Nat} {b b' : Board} {op : Op} {out : Out} {tokens : List Nat}
    (h : Covers b tokens) (ho : b.Ok limit) (st : b.Step limit op out b') : Covers b' tokens := by
  intro r hr
  have := h r hr
  rcases (st.change ho (r % 2 ^ 32)).generation with e | ⟨_, e, _⟩ <;> omega

/-- A token that is issued now is of the generation its cell has just reached. -/
theorem admitted_cell {limit : Nat} {b b' : Board} {thread r : Nat} (ho : b.Ok limit)
    (st : b.Step limit (.tryAdmit thread) (.admitted r) b') :
    (b'.cell (r % 2 ^ 32)).generation = (r >>> 32) % 2 ^ 32 ∧
      (b.cell (r % 2 ^ 32)).generation < (r >>> 32) % 2 ^ 32 := by
  cases st with
  | stay h => exact absurd h id
  | replenish _ hne => exact absurd rfl (hne r)
  | @enrol b₁ _ task j lane rest hr hf hg =>
    obtain ⟨ho₁, hc, _⟩ := ho.replenish hr
    have hj : j ≤ u32Max := (ho₁.free j (hf ▸ (.head _))).1.2.trans ho₁.count
    have hgen : (b₁.cell j).generation + 1 ≤ u32Max := by
      have := ho₁.generation j; omega
    rw [token_index hj, token_generation hj hgen]
    refine ⟨?_, by rw [← hc]; omega⟩
    show (Function.update b₁.cell j (admitRow task lane (b₁.cell j)) j).generation = _
    rw [Function.update_self, Board.admitRow_generation]

variable {tr : List (Op × Out)}

/-- **Along a run tokens are issued once**, and each has been reached by its cell. -/
theorem issued_nodup {s s' : System} {b : Board}
    (hr : Run step s tr s') (h : Healthy s b) (old : List Nat) (hc : Covers b old) (hn : old.Nodup) :
    ∃ b', Healthy s' b' ∧ Covers b' (old ++ issued tr) ∧ (old ++ issued tr).Nodup := by
  induction hr generalizing b old with
  | nil s => exact ⟨b, h, by simpa [issued] using hc, by simpa [issued] using hn⟩
  | @cons s s₁ s₂ op out tr hs _ ih =>
    obtain ⟨b₁, h₁, _, st⟩ := h.step hs
    have ho := h.sound.ok
    have hc₁ := hc.step ho st
    by_cases hi : ∃ thread r, op = .tryAdmit thread ∧ out = .admitted r
    · obtain ⟨thread, r, rfl, rfl⟩ := hi
      obtain ⟨e1, e2⟩ := admitted_cell ho st
      have e : issued ((Op.tryAdmit thread, Out.admitted r) :: tr) = r :: issued tr := rfl
      rw [e, show old ++ r :: issued tr = (old ++ [r]) ++ issued tr by simp]
      refine ih h₁ _ (fun x hx => ?_) (nodup_append.mpr ⟨hn, nodup_singleton r, ?_⟩)
      · rcases mem_append.mp hx with hx | hx
        · exact hc₁ x hx
        · rw [mem_singleton.mp hx, e1]
      · intro x hx y hy hxy
        obtain rfl := mem_singleton.mp hy
        have := hc x hx
        rw [hxy] at this
        omega
    · have e : issued ((op, out) :: tr) = issued tr := by
        unfold issued
        rw [filterMap_cons]
        split
        · rfl
        · rename_i r hm
          split at hm
          · rename_i thread r' e'
            cases e'
            exact absurd ⟨thread, r', rfl, rfl⟩ hi
          · cases hm
      rw [e]
      exact ih h₁ old hc₁ hn

/-- What a board has retired stays retired along a run. -/
theorem gone_run {s s' : System} {b : Board} {r : Nat}
    (hr : Run step s tr s') (h : Healthy s b) (hg : b.Gone r) : ∃ b', Healthy s' b' ∧ b'.Gone r := by
  induction hr generalizing b with
  | nil s => exact ⟨b, h, hg⟩
  | cons hs _ ih =>
    obtain ⟨b₁, h₁, _, st⟩ := h.step hs
    exact ih h₁ (hg.step h.sound.ok st)

/-! ## 4. Stale calls -/

/-- A registration that is not live reaches nothing: every entry point answers stale and leaves
  the whole system as it is. -/
structure Stale (s : System) (r : UInt64) : Prop where
  wake : ∀ cause now, step s (.wake r cause now) = .ok (s, .status 2)
  withdrawal : step s (.withdrawal r) = .ok (s, .idle)
  release : ∀ lane cancellation now, step s (.release r lane cancellation now) = .ok (s, .status 2)
  snapshot : step s (.snapshot r) = .ok (s, .status 2)
  slotRelease : step s (.slotRelease r) = .ok (s, .status 2)
  slotAcquisition : step s (.slotAcquisition r) = .ok (s, .status 2)

theorem stale_of_not_live {s : System} {b : Board} (h : Healthy s b) {r : UInt64}
    (hl : ∀ i, ¬ b.Live r i) : Stale s r := by
  obtain ⟨⟨v, hL, rfl⟩, _⟩ := h.sound
  have e : indexOf s.domain.state r.toNat = .ok 0 := by
    obtain ⟨i, e, hc⟩ := indexOf_spec s.domain.state v r
    rcases hc with ⟨rfl, _⟩ | ⟨_, hi⟩
    · exact e
    · exact absurd hi (hl i)
  refine ⟨fun _ _ => ?_, ?_, fun _ _ _ => ?_, ?_, ?_, ?_⟩
  · simp [step, Scheduler.wake, e, ok_bind, pure_ok]
  · simp [step, Scheduler.withdrawal, e, ok_bind, pure_ok]
  · simp [step, Scheduler.release, e, ok_bind, pure_ok]
  · simp [step, Scheduler.snapshot, e, ok_bind, pure_ok]
  · simp [step, Scheduler.slotRelease, e, ok_bind, pure_ok]
  · simp [step, Scheduler.slotAcquisition, e, ok_bind, pure_ok]

/-- A retired entry of the last generation is never admitted again. -/
theorem exhausted_stays {s s' : System} {b : Board} {i : Nat}
    (hr : Run step s tr s') (h : Healthy s b) (hg : (b.cell i).generation = u32Max) (hp : (b.cell i).phase = 3) :
    ∃ b', Healthy s' b' ∧ (b'.cell i).generation = u32Max ∧ (b'.cell i).phase = 3 := by
  induction hr generalizing b with
  | nil s => exact ⟨b, h, hg, hp⟩
  | cons hs _ ih =>
    obtain ⟨b₁, h₁, _, st⟩ := h.step hs
    have ho₁ := h₁.sound.ok.generation i
    rcases (st.change h.sound.ok i).retired hp with e | e
    · exact ih h₁ (by rw [e]; exact hg) (by rw [e]; exact hp)
    · omega

/-- **TOKENS ARE NEVER REISSUED.** Over every run of a new domain: no token is returned twice by
  `try_admit`; an entry retired in its last generation stays retired for good; and once a token
  that was issued has been withdrawn, every operation called with it answers stale and leaves
  the whole system unchanged. -/
theorem tokens_never_reissued (capabilities main limit : Nat) {tr : List (Op × Out)} {s : System}
    (hr : Run step (System.initial capabilities main limit) tr s) : (issued tr).Nodup ∧
    (∀ i, s.domain.state.HasRow i → (s.domain.state.row i).generation = u32Max →
      (s.domain.state.row i).phase = 3 → ∀ tr' s', Run step s tr' s' →
        (s'.domain.state.row i).generation = u32Max ∧ (s'.domain.state.row i).phase = 3) ∧
    ∀ tr₁ tr₂ r out, tr = tr₁ ++ (.withdrawal r, out) :: tr₂ → r.toNat ∈ issued tr₁ → Stale s r := by
  have h0 := Healthy.initial capabilities main limit
  refine ⟨?_, fun i _ hg hp tr' s' hr' => ?_, fun tr₁ tr₂ r out e hm => ?_⟩
  · obtain ⟨_, _, _, hn⟩ := issued_nodup hr h0 [] (fun r h => absurd h not_mem_nil)
      nodup_nil
    exact hn
  · obtain ⟨b, hb, _, _⟩ := issued_nodup hr h0 [] (fun r h => absurd h not_mem_nil)
      nodup_nil
    obtain ⟨⟨v, _, rfl⟩, _⟩ := hb.sound
    obtain ⟨b', hb', h1, h2⟩ := exhausted_stays hr' hb (i := i) hg hp
    obtain ⟨⟨v', _, rfl⟩, _⟩ := hb'.sound
    exact ⟨h1, h2⟩
  · subst e
    obtain ⟨s₁, h₁, hrest⟩ := hr.split
    obtain ⟨b₁, hb₁, hc, _⟩ := issued_nodup h₁ h0 [] (fun r h => absurd h not_mem_nil)
      nodup_nil
    cases hrest with
    | cons hs h₂ =>
      obtain ⟨b₂, hb₂, _, st⟩ := hb₁.step hs
      have hgone := Board.Gone.of_withdrawal hb₁.sound.ok st (hc r.toNat hm)
      obtain ⟨b₃, hb₃, hgone₃⟩ := gone_run h₂ hb₂ hgone
      exact stale_of_not_live hb₃ fun i => hgone₃.not_live i

/-- Admit and withdraw: one token was issued, and it is stale. -/
theorem tokens_never_reissued_first : ∃ s,
    Run step (System.initial 0 0 1) (firstTrace ++ [(.withdrawal firstToken, .idle)]) s ∧
      issued firstTrace = [firstToken.toNat] ∧ Stale s firstToken := by
  have hr : Run step (System.initial 0 0 1) (firstTrace ++ [(.withdrawal firstToken, .idle)]) _ :=
    .of_execute (firstAdmission ++ [.withdrawal firstToken]) rfl
  exact ⟨_, hr, rfl, (tokens_never_reissued 0 0 1 hr).2.2 firstTrace [] firstToken .idle rfl (.head _)⟩

end Bray.Scheduler
