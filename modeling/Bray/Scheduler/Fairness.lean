/-
  File:      Bray/Scheduler/Fairness.lean
  Subject:   FIFO WITHIN A LANE, BOUNDED BYPASS ACROSS LANES.

  Within a lane: a log that appends a registration when it becomes ready and strikes its last
  entry when it is withdrawn while ready is, at every moment, what the lane has dispatched
  followed by what it still holds. The log is a ghost (`logged` is `step` with the log carried
  along), so dispatches come in the order of the log.

  Across lanes: every dispatch that a lane could have had and another lane got brings it one
  place forward, and nothing takes it back (`ahead_step`).
-/
import Bray.Scheduler.Ready

namespace Bray.Scheduler

open Bray.Lib List Rota

/-! ## 1. One step, seen by one lane -/

namespace Board

variable {limit : Nat} {b b' : Board} {op : Op} {out : Out}

theorem Change.registration {i : Nat} {e : Entry} (h : Change b i op out e) (hp : e.phase = 1) :
    e.generation = (b.cell i).generation := by
  rcases h.generation with hg | ⟨_, _, _⟩
  · exact hg
  · cases h with
    | enrol => simp at hp
    | _ => simp

/-- The tokens of the cells that are ready after a step are the ones they had before. -/
theorem Step.registrations (ho : Ok limit b) (st : Step limit b op out b') (k : Lane) :
    b'.registrations.queue k = (b'.ready.queue k).map b.registration := by
  unfold Board.registrations
  rw [queue_rename]
  refine map_congr_left fun i hi => ?_
  have hp := (((ho.step st).queued i k).mp hi).1
  unfold Board.registration
  rw [(st.change ho i).registration hp]

/-- What the queue of lane `k` does in a step: it stays, it gets a registration at its end, it
  loses a withdrawn one, or it loses its first to a dispatch. -/
inductive Lined (k : Lane) (before : List Nat) : Op → Out → List Nat → Prop where
  | same {op : Op} {out : Out}
    (hd : ∀ t l o, op = .acquisition t l → out = .observed (some o) → o.lane ≠ k)
    (hw : ∀ r, op = .withdrawal r → r.toNat ∉ before) : Lined k before op out before
  | wake {r : UInt64} {cause now : Nat} {out : Out} (hr : r.toNat ∉ before) :
    Lined k before (.wake r cause now) out (before ++ [r.toNat])
  | release {r : UInt64} {lane : Lane} {cancellation now : Nat} {out : Out}
    (hr : r.toNat ∉ before) :
    Lined k before (.release r lane cancellation now) out (before ++ [r.toNat])
  | withdraw {r : UInt64} {out : Out} : Lined k before (.withdrawal r) out (before.erase r.toNat)
  | dispatch {t l : Nat} {o : Observation} {after : List Nat} (hl : o.lane = k)
    (hb : before = o.registration :: after) :
    Lined k before (.acquisition t l) (.observed (some o)) after

theorem Ok.live_of_mem (h : Ok limit b) {r : UInt64} {k : Lane} (hr : r.toNat ∈ b.registrations.queue k) :
    ∃ i, b.Live r i ∧ (b.cell i).phase = 1 ∧ (b.cell i).lane = k := by
  unfold Board.registrations at hr
  rw [queue_rename] at hr
  obtain ⟨i, hi, e⟩ := mem_map.mp hr
  obtain ⟨hp, hl⟩ := (h.queued i k).mp hi
  have hle := h.item_le (mem_items_of_queue hi)
  refine ⟨i, ⟨h.cell_of_phase (by omega), ?_, ?_, by omega⟩, hp, hl⟩
  · rw [← e]; exact (token_index hle).symm
  · rw [← e]; exact (token_generation hle (h.generation i)).symm

theorem Step.lined_push (ho : Ok limit b) (st : Step limit b op out b') {r : UInt64} {i : Nat}
    {lane : Lane} (hl : b.Live r i) (hp : (b.cell i).phase ≠ 1)
    (he : b'.ready = b.ready.push lane i) (k : Lane) : b'.registrations.queue k =
      (if k = lane then b.registrations.queue k ++ [r.toNat] else b.registrations.queue k) ∧
      r.toNat ∉ b.registrations.queue k := by
  refine ⟨?_, fun hm => ?_⟩
  · rw [st.registrations ho, he, queue_push]
    unfold Board.registrations
    rw [queue_rename]
    split
    · rename_i e
      subst e
      rw [map_append, hl.token]
      rfl
    · rfl
  · obtain ⟨j, hj, h1, _⟩ := ho.live_of_mem hm
    obtain rfl : i = j := hl.2.1.trans hj.2.1.symm
    exact hp h1

/-- The queue of the served lane loses its first registration to the dispatch. -/
theorem Step.lined_dispatch (ho : Ok limit b) {thread lanes i : Nat} {lane : Lane}
    {ready : Rota Lane Nat} (hr : b.running ≠ limit)
    (hs : b.ready.serve (accepts thread lanes) = some (lane, i, ready)) (k : Lane) :
    Lined k (b.registrations.queue k) (.acquisition thread lanes) (.observed (some (observe i (b.cell i))))
    (({ b.amend i claimed with ready := ready, running := b.running + 1 } : Board).registrations.queue
      k) := by
  obtain ⟨hq, hother⟩ := queue_serve ho.rota.keys hs
  have hlane : (b.cell i).lane = lane := ((ho.queued i lane).mp (hq ▸ (.head _))).2
  rw [(Step.dispatch hr hs).registrations ho]
  unfold Board.registrations
  rw [queue_rename]
  by_cases hk : k = lane
  · subst hk
    rw [hq]
    exact .dispatch hlane rfl
  · rw [hother k hk]
    refine .same (fun t l o e1 e2 e => ?_) (fun _ e => by cases e)
    cases e2
    exact hk (e.symm.trans hlane)

/-- The queue a withdrawn registration leaves. -/
theorem Step.lined_retire (ho : Ok limit b) {r : UInt64} {i : Nat} (hl : b.Live r i)
    (st : Step limit b op out b') (he : b'.ready = b.ready.remove i) (k : Lane) :
    b'.registrations.queue k = (b.registrations.queue k).erase r.toNat := by
  rw [st.registrations ho, he, queue_remove ho.rota.keys, hl.token]
  unfold Board.registrations
  rw [queue_rename]
  refine map_erase_of_unique b.registration fun x hx e => ?_
  exact registration_inj (ho.item_le (mem_items_of_queue hx)) (hl.1.2.trans ho.count) e

/-- **Every step treats every lane's queue in one of these ways.** -/
theorem Step.lined (ho : Ok limit b) (st : Step limit b op out b') (k : Lane) :
    Lined k (b.registrations.queue k) op out (b'.registrations.queue k) := by
  -- the steps that keep the rota and neither dispatch nor withdraw
  have still : b'.ready = b.ready → (∀ t l o, op = .acquisition t l → out = .observed (some o) → o.lane ≠ k) →
    (∀ r, op = .withdrawal r → r.toNat ∉ b.registrations.queue k) →
    Lined k (b.registrations.queue k) op out (b'.registrations.queue k) := fun he hd hw => by
    have : b'.registrations.queue k = b.registrations.queue k := by
      rw [st.registrations ho, he]
      unfold Board.registrations
      rw [queue_rename]
    rw [this]
    exact .same hd hw
  have hst := st
  cases st with
  | stay h =>
    refine still rfl (fun t l o e1 e2 => ?_) (fun r e1 hm => ?_)
    · subst e1; subst e2; exact absurd h id
    · subst e1
      obtain ⟨i, hi, _⟩ := ho.live_of_mem hm
      exact h i hi
  | stale | join | note | idle | lend | borrow =>
    exact still rfl (fun _ _ _ e => by cases e) (fun _ e => by cases e)
  | wake hl hp =>
    obtain ⟨e, hn⟩ := hst.lined_push ho hl (by omega) rfl k
    rw [e]
    split
    · exact .wake hn
    · exact .same (fun _ _ _ e => by cases e) (fun _ e => by cases e)
  | dispatch hr hs => exact Step.lined_dispatch ho hr hs k
  | requeue hl hp _ _ =>
    obtain ⟨e, hn⟩ := hst.lined_push ho hl (by omega) rfl k
    rw [e]
    split
    · exact .release hn
    · exact .same (fun _ _ _ e => by cases e) (fun _ e => by cases e)
  | retire hl =>
    rw [hst.lined_retire ho hl rfl k]
    exact .withdraw
  | replenish hr _ => exact still (ho.replenish hr).2.2.1 (fun _ _ _ e => by cases e) (fun _ e => by cases e)
  | enrol hr _ _ =>
    exact still (ho.replenish hr).2.2.1 (fun _ _ _ e => by cases e) (fun _ e => by cases e)

/-! ## 2. Turns -/

/-- The step dispatched an entry. -/
def isDispatch : Op × Out → Bool
  | (.acquisition _ _, .observed (some _)) => true
  | _ => false

/-- **Bounded bypass, one step**: a lane that keeps its place loses none, and gains one with every
  dispatch it could have had. -/
theorem Step.ahead (ho : Ok limit b) (st : Step limit b op out b') {k : Lane}
    (hk : k ∈ b.ready.keys) (hk' : k ∈ b'.ready.keys)
    (hd : ∀ t l o, op = .acquisition t l → out = .observed (some o) → accepts t l k = true ∧ o.lane ≠ k) :
    b'.ready.ahead k + (isDispatch (op, out)).toNat ≤ b.ready.ahead k := by
  -- only a dispatch counts
  have quiet : isDispatch (op, out) = false → b'.ready.ahead k ≤ b.ready.ahead k →
    b'.ready.ahead k + (isDispatch (op, out)).toNat ≤ b.ready.ahead k := fun e h => by
    rw [e]; exact h
  cases st with
  | stay h =>
    refine quiet ?_ (Nat.le_refl _)
    cases hc : isDispatch (op, out) with
    | false => rfl
    | true =>
      unfold isDispatch at hc
      split at hc
      · rename_i e; cases e; exact absurd h id
      · cases hc
  | stale => exact quiet rfl (Nat.le_refl _)
  | join => exact quiet rfl (Nat.le_refl _)
  | note => exact quiet rfl (Nat.le_refl _)
  | wake | requeue => exact quiet rfl (Nat.le_of_eq (ahead_push hk))
  | dispatch hr hs =>
    obtain ⟨hacc, hne⟩ := hd _ _ _ rfl rfl
    have hm := (ho.queued _ _).mp ((queue_serve ho.rota.keys hs).1 ▸ mem_cons_self)
    exact Nat.le_of_eq (ahead_serve hs hacc hk fun e => hne (hm.2.trans e.symm))
  | idle => exact quiet rfl (Nat.le_refl _)
  | lend => exact quiet rfl (Nat.le_refl _)
  | borrow => exact quiet rfl (Nat.le_refl _)
  | retire => exact quiet rfl (ahead_remove_le ho.rota.keys hk')
  | @replenish _ thread out hr _ =>
    have e := (ho.replenish hr).2.2.1
    exact quiet (by cases out <;> rfl) (by rw [e])
  | enrol hr _ _ =>
    have e := (ho.replenish hr).2.2.1
    exact quiet rfl (Nat.le_of_eq (congrArg (Rota.ahead k) e))

/-- A lane that opens opens behind the others; only dispatches and withdrawals reorder or close. -/
theorem Step.keys_prefix (ho : Ok limit b) (st : Step limit b op out b')
    (ha : ∀ t l, op ≠ .acquisition t l) (hw : ∀ r, op ≠ .withdrawal r) : b.ready.keys <+: b'.ready.keys := by
  have pushed : ∀ lane i, b.ready.keys <+: (b.ready.push lane i).keys := fun lane i => by
    rw [keys_push]
    split
    · exact prefix_refl _
    · exact prefix_append _ _
  cases st with
  | stay | stale | join | note | idle | lend | borrow => exact prefix_refl _
  | wake => exact pushed _ _
  | requeue => exact pushed _ _
  | dispatch => exact absurd rfl (ha _ _)
  | retire => exact absurd rfl (hw _)
  | replenish hr _ | enrol hr _ _ => exact (ho.replenish hr).2.2.1 ▸ prefix_refl _

theorem Step.keys_sublist {r : UInt64} (st : Step limit b (.withdrawal r) out b') : b'.ready.keys.Sublist b.ready.keys := by
  cases st with
  | stay => exact List.Sublist.refl _
  | retire => exact keys_remove _ _

/-- The lane that is served goes behind all others, or leaves when it was its last. -/
theorem Step.rotates {thread lanes : Nat} {o : Observation} (ho : Ok limit b)
    (st : Step limit b (.acquisition thread lanes) (.observed (some o)) b') :
    ∃ l xs t, b.registrations = l ++ (o.lane, o.registration :: xs) :: t ∧
      (∀ x ∈ l, accepts thread lanes x.1 = false) ∧ accepts thread lanes o.lane = true ∧
      b'.registrations = l ++ t ++ rest o.lane xs := by
  cases st with
  | stay h => exact absurd h id
  | @dispatch _ _ i lane ready hr hs =>
    have hq := (queue_serve ho.rota.keys hs).1
    have hlane : (b.cell i).lane = lane := ((ho.queued i lane).mp (hq ▸ (.head _))).2
    obtain ⟨l, xs, t, e, hl, ha, e'⟩ := serve_eq hs
    have hsame : ({ b.amend i claimed with ready := ready, running := b.running + 1 } :
      Board).registration = b.registration := by
      funext j
      unfold Board.registration
      by_cases hj : j = i
      · subst hj; simp [claimed]
      · simp [Board.amend, hj]
    have ho' : (observe i (b.cell i)).lane = lane := hlane
    refine ⟨rename b.registration l, xs.map b.registration, rename b.registration t, ?_,
      fun x hx => ?_, ho' ▸ ha, ?_⟩
    · rw [ho']
      unfold Board.registrations
      rw [e, rename_append]
      rfl
    · obtain ⟨y, hy, rfl⟩ := mem_map.mp hx
      exact hl y hy
    · unfold Board.registrations
      rw [hsame, ho', ← rename_rest, ← rename_append, ← rename_append, ← e']

end Board

/-! ## 3. The log of a lane -/

/-- The registrations lane `k` has dispatched, first one first. -/
def dispatches (k : Lane) (tr : List (Op × Out)) : List Nat :=
  tr.filterMap fun
    | (.acquisition _ _, .observed (some o)) => if o.lane = k then some o.registration else none
    | _ => none

/-- The list without its last `a`. -/
def eraseLast (a : Nat) (xs : List Nat) : List Nat := (xs.reverse.erase a).reverse

/-- What a step adds to the log of lane `k`: a registration that becomes ready in the lane is
  appended, a ready one that is withdrawn loses its last entry. -/
def logStep (k : Lane) (s : System) (op : Op) (s' : System) (log : List Nat) : List Nat :=
  let before := s.domain.state.ready.queue k
  let after := s'.domain.state.ready.queue k
  match op with
  | .wake r _ _ => if r.toNat ∉ before ∧ r.toNat ∈ after then log ++ [r.toNat] else log
  | .release r _ _ _ => if r.toNat ∉ before ∧ r.toNat ∈ after then log ++ [r.toNat] else log
  | .withdrawal r => if r.toNat ∈ before then eraseLast r.toNat log else log
  | _ => log

/-- `step` with the log of lane `k` carried along. -/
def logged (k : Lane) (s : System × List Nat) (op : Op) :
  Except Fault ((System × List Nat) × Out) := do
  let (s', out) ← step s.1 op
  return ((s', logStep k s.1 op s' s.2), out)

theorem eraseLast_append {a : Nat} (d : List Nat) {q : List Nat} (ha : a ∈ q) (hq : q.Nodup) :
    eraseLast a (d ++ q) = d ++ q.erase a := by
  have hr : q.reverse.erase a = (q.erase a).reverse := by
    rw [(nodup_reverse.mpr hq).erase_eq_filter, hq.erase_eq_filter, filter_reverse]
  unfold eraseLast
  rw [reverse_append, erase_append_left _ (mem_reverse.mpr ha), hr,
    reverse_append, reverse_reverse, reverse_reverse]

/-- One step keeps the log equal to what is dispatched followed by what is held. -/
theorem logStep_eq {k : Lane} {s s' : System} {op : Op} {out : Out} (d : List Nat)
    (hn : (s.domain.state.ready.queue k).Nodup)
    (h : Board.Lined k (s.domain.state.ready.queue k) op out (s'.domain.state.ready.queue k)) :
    logStep k s op s' (d ++ s.domain.state.ready.queue k) =
      d ++ dispatches k [(op, out)] ++ s'.domain.state.ready.queue k := by
  unfold logStep
  generalize s.domain.state.ready.queue k = before at *
  generalize s'.domain.state.ready.queue k = after at *
  cases h with
  | same hd hw =>
    have hdis : dispatches k [(op, out)] = [] := by
      unfold dispatches
      rw [filterMap_cons_none]
      · rfl
      · split
        · rename_i t l o e
          cases e
          exact if_neg (hd t l o rfl rfl)
        · rfl
    rw [hdis, append_nil]
    have hno : ∀ r : UInt64, ¬ (r.toNat ∉ before ∧ r.toNat ∈ before) := fun r h => h.1 h.2
    cases op with
    | wake r cause now => exact if_neg (hno r)
    | release r lane c now => exact if_neg (hno r)
    | withdrawal r => exact if_neg (hw r rfl)
    | _ => rfl
  | @wake r cause now out hr =>
    rw [show dispatches k [(.wake r cause now, out)] = [] from rfl, append_nil]
    show (if _ then _ else _) = _
    rw [if_pos ⟨hr, mem_append_right _ mem_cons_self⟩, append_assoc]
  | @release r lane c now out hr =>
    rw [show dispatches k [(.release r lane c now, out)] = [] from rfl, append_nil]
    show (if _ then _ else _) = _
    rw [if_pos ⟨hr, mem_append_right _ mem_cons_self⟩, append_assoc]
  | @withdraw r out =>
    rw [show dispatches k [(.withdrawal r, out)] = [] from rfl, append_nil]
    show (if _ then _ else _) = _
    split
    · rename_i hm
      exact eraseLast_append d hm hn
    · rename_i hm
      rw [erase_of_not_mem hm]
  | dispatch hl hb =>
    subst hb
    simp [dispatches, if_pos hl, filterMap_nil, append_assoc]

theorem Healthy.queue_nodup {s : System} {b : Board} (h : Healthy s b) (k : Lane) :
    (s.domain.state.ready.queue k).Nodup := by
  rw [h.ready_eq]
  exact h.sound.ok.registrations_nodup.sublist (queue_sublist _ _)

/-- **First in, first out.** Every run can be logged, and its log is what was dispatched followed
  by what is held. -/
theorem logged_run {s s' : System} {tr : List (Op × Out)} (hr : Run step s tr s') {b : Board}
    (h : Healthy s b) (k : Lane) (d : List Nat) :
    ∃ log, Run (logged k) (s, d ++ s.domain.state.ready.queue k) tr (s', log) ∧
      log = d ++ dispatches k tr ++ s'.domain.state.ready.queue k := by
  induction hr generalizing b d with
  | nil s => exact ⟨_, .nil _, by simp [dispatches]⟩
  | @cons s s₁ s' op out tr hs _ ih =>
    obtain ⟨b₁, h₁, _, st⟩ := h.step hs
    have hlined := st.lined h.sound.ok k
    rw [← h.ready_eq, ← h₁.ready_eq] at hlined
    obtain ⟨log, hrun, e⟩ := ih h₁ (d ++ dispatches k [(op, out)])
    refine ⟨log, .cons ?_ hrun, ?_⟩
    · simp only [logged, hs, ok_bind, logStep_eq d (h.queue_nodup k) hlined]
      rfl
    · rw [e, append_assoc d, dispatches, dispatches, dispatches, ← filterMap_append]
      rfl

/-! ## 4. Bypass over runs -/

/-- Lane `k` holds a registration in every state of the run. -/
def Busy (k : Lane) (s : System) (tr : List (Op × Out)) : Prop :=
  ∀ tr₁ tr₂ s₁, tr = tr₁ ++ tr₂ → Run step s tr₁ s₁ → s₁.domain.state.ready.queue k ≠ []

/-- **Bounded bypass, a whole run.** -/
theorem bypass_run {s s' : System} {tr : List (Op × Out)} (hr : Run step s tr s') {b : Board}
    (h : Healthy s b) {k : Lane} (hk : Busy k s tr)
    (hd : ∀ t l o, (.acquisition t l, .observed (some o)) ∈ tr → accepts t l k = true ∧ o.lane ≠ k) :
    tr.countP Board.isDispatch + s'.domain.state.ready.ahead k ≤ s.domain.state.ready.ahead k := by
  induction hr generalizing b with
  | nil s => simp
  | @cons s s₁ s' op out tr hs hr ih =>
    obtain ⟨b₁, h₁, _, st⟩ := h.step hs
    have ih := ih h₁ (fun tr₁ tr₂ s₂ e hr₂ => hk ((op, out) :: tr₁) tr₂ s₂ (by rw [e]; rfl)
      (.cons hs hr₂)) fun t l o m => hd t l o (.tail _ m)
    have k₀ : k ∈ b.ready.keys := by
      have := mem_keys_of_queue (hk [] _ s rfl (.nil s))
      rwa [h.ready_eq, Board.registrations, keys_rename] at this
    have k₁ : k ∈ b₁.ready.keys := by
      have := mem_keys_of_queue (hk [(op, out)] tr s₁ rfl (.single hs))
      rwa [h₁.ready_eq, Board.registrations, keys_rename] at this
    have hone := st.ahead h.sound.ok k₀ k₁ fun t l o e1 e2 =>
      hd t l o (e1 ▸ e2 ▸ (.head _))
    have e₀ : s.domain.state.ready.ahead k = b.ready.ahead k := by
      rw [h.ready_eq]; exact ahead_rename _ _ _
    have e₁ : s₁.domain.state.ready.ahead k = b₁.ready.ahead k := by
      rw [h₁.ready_eq]; exact ahead_rename _ _ _
    rw [countP_cons]
    cases hc : Board.isDispatch (op, out)
    · simp only [Bool.toNat_false, Bool.false_eq_true, if_false] at hone ⊢
      omega
    · rw [hc] at hone
      simp only [Bool.toNat_true, if_true] at hone ⊢
      omega

theorem Healthy.keys_eq {s : System} {b : Board} (h : Healthy s b) : s.domain.state.ready.keys = b.ready.keys := by
  rw [h.ready_eq]
  exact keys_rename _ _

/-- **FAIRNESS**, at every point `s` of every run of a new domain.

  A lane dispatches in the order of its log. A lane that stays nonempty, accepted by every
  consumer that gets an entry and not served, is passed at most as often as lanes are ahead of
  it. This is so because a dispatch serves the first lane its consumer accepts and moves what is
  left of it behind all others, a lane that becomes active does so at the end, and a withdrawal
  keeps the order. -/
theorem lane_fairness (capabilities main limit : Nat) {tr : List (Op × Out)} {s : System}
    (hr : Run step (System.initial capabilities main limit) tr s) :
    (∀ k, ∃ log, Run (logged k) (System.initial capabilities main limit, []) tr (s, log) ∧
      log = dispatches k tr ++ s.domain.state.ready.queue k) ∧
    (∀ k tr' s', Run step s tr' s' → Busy k s tr' → (∀ t l o, (.acquisition t l, .observed (some o)) ∈ tr' →
      accepts t l k = true ∧ o.lane ≠ k) → tr'.countP Board.isDispatch ≤ s.domain.state.ready.ahead k) ∧
    (∀ t l o s', step s (.acquisition t l) = .ok (s', .observed (some o)) → ∃ before xs behind,
      s.domain.state.ready = before ++ (o.lane, o.registration :: xs) :: behind ∧
      (∀ x ∈ before, accepts t l x.1 = false) ∧ accepts t l o.lane = true ∧
      s'.domain.state.ready = before ++ behind ++ rest o.lane xs) ∧
    (∀ op out s', step s op = .ok (s', out) → (∀ t l, op ≠ .acquisition t l) →
      (∀ r, op ≠ .withdrawal r) → s.domain.state.ready.keys <+: s'.domain.state.ready.keys) ∧
    ∀ r out s', step s (.withdrawal r) = .ok (s', out) →
      s'.domain.state.ready.keys.Sublist s.domain.state.ready.keys := by
  obtain ⟨b, hb⟩ := Reached.healthy ⟨capabilities, main, limit, _, hr⟩
  refine ⟨fun k => ?_, fun k tr' s' hr' hk hd => ?_, fun t l o s' hs => ?_,
    fun op out s' hs ha hw => ?_, fun r out s' hs => ?_⟩
  · exact logged_run hr (Healthy.initial capabilities main limit) k []
  · exact (Nat.le_add_right _ _).trans (bypass_run hr' hb hk hd)
  · obtain ⟨b', hb', _, st⟩ := hb.step hs
    rw [hb.ready_eq, hb'.ready_eq]
    exact st.rotates hb.sound.ok
  · obtain ⟨b', hb', _, st⟩ := hb.step hs
    rw [hb.keys_eq, hb'.keys_eq]
    exact st.keys_prefix hb.sound.ok ha hw
  · obtain ⟨b', hb', _, st⟩ := hb.step hs
    rw [hb.keys_eq, hb'.keys_eq]
    exact st.keys_sublist

/-- The first registration, woken and dispatched. -/
theorem lane_fairness_first : ∃ s s' o,
    Run step (System.initial 0 0 1) (firstTrace ++ [(.wake firstToken 1 0, .status 1)]) s ∧
    step s (.acquisition 0 1) = .ok (s', .observed (some o)) ∧
    (∃ log, Run (logged emptyLane) (System.initial 0 0 1, [])
      (firstTrace ++ [(.wake firstToken 1 0, .status 1)]) (s, log) ∧
      log = dispatches emptyLane (firstTrace ++ [(.wake firstToken 1 0, .status 1)]) ++
        s.domain.state.ready.queue emptyLane) ∧ ∃ before xs behind,
      s.domain.state.ready = before ++ (o.lane, o.registration :: xs) :: behind ∧
      (∀ x ∈ before, accepts 0 1 x.1 = false) ∧ accepts 0 1 o.lane = true ∧
      s'.domain.state.ready = before ++ behind ++ rest o.lane xs := by
  have hr : Run step (System.initial 0 0 1) (firstTrace ++ [(.wake firstToken 1 0, .status 1)]) _ :=
    .of_execute (firstAdmission ++ [.wake firstToken 1 0]) rfl
  have hall := lane_fairness 0 0 1 hr
  exact ⟨_, _, _, hr, rfl, hall.1 emptyLane, hall.2.2.1 0 1 _ _ rfl⟩

end Bray.Scheduler
