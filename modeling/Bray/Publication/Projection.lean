/-
  File:      Bray/Publication/Projection.lean
  Subject:   THE PUBLIC FILES UNDER A PROJECTION AND ITS ROLLBACK.

  A projection changes the paths of its list one after the other, and every one of them has a
  backup of what the path held before. So the store in the middle differs from the store before
  only at these paths, and a rollback that goes through gives the store before.

  * `Store.backup`, `Store.project` -- what a backup holds, and the store a projection leads to;
  * `Frame` -- a store that differs from another only at some public paths;
  * `rollback_spec` -- a rollback leads back, and fails only at a step of its own;
  * `meets_rolledBack` -- the rule of a step whose failure is rolled back;
  * `commit_spec` -- the projection leads to `Store.project`, or back;
  * `project_at` -- what the projected store holds, path by path.
-/
import Bray.Publication.Publish
import Bray.Publication.Restored

namespace Bray.Publication

open Lib List PreparedPublicProjection

variable {Path : Type} [LinearOrder Path]

/-! ## 1. Backups and projections -/

def Store.backup (s : Store Path) (p : Path) : Option CompletedStagedFile :=
  (s.publicFiles p).map fun file => ⟨file, some file.permissions, .replaceExisting⟩

/-- One projection carried out. -/
def Store.projectOne (s : Store Path) (projection : PreparedPublicProjection Path) : Store Path :=
  match projection.staged with
  | some staged => s.place projection.destination staged.published
  | none => s.remove projection.destination

/-- **The store a projection leads to.** -/
def Store.project (s : Store Path) (projections : List (PreparedPublicProjection Path)) :
  Store Path :=
  projections.foldl Store.projectOne s

/-- The record of a projection that was carried out. -/
def PreparedPublicProjection.committed (projection : PreparedPublicProjection Path) :
  CommittedPublicProjection Path :=
  ⟨projection.destination, projection.backup⟩

/-- **A store that differs from `s₀` at most in the public files of these paths.** -/
structure Frame (s₀ : Store Path) (paths : List Path) (s : Store Path) : Prop where
  journal : s.journal = s₀.journal
  reference : s.reference = s₀.reference
  generations : s.generations = s₀.generations
  files : ∀ p, p ∉ paths → s.publicFiles p = s₀.publicFiles p

section

variable {s s₀ : Store Path} {paths paths' : List Path} {p : Path}

theorem Frame.refl (s₀ : Store Path) (paths : List Path) : Frame s₀ paths s₀ :=
  ⟨rfl, rfl, rfl, fun _ _ => rfl⟩

theorem Frame.mono (h : Frame s₀ paths s) (hsub : ∀ p ∈ paths, p ∈ paths') : Frame s₀ paths' s :=
  { h with files := fun p hp => h.files p fun hmem => hp (hsub p hmem) }

/-- A frame without paths is the store itself. -/
theorem Frame.eq (h : Frame s₀ [] s) : s = s₀ := by
  obtain ⟨hj, hr, hg, hf⟩ := h
  cases s
  cases s₀
  subst hj hr hg
  simp only [Store.mk.injEq, and_true]
  exact funext fun p => hf p (by simp)

/-- A change of one more path. -/
theorem Frame.update (h : Frame s₀ paths s) (file : Option File) :
  Frame s₀ (p :: paths) { s with publicFiles := Function.update s.publicFiles p file } where
  journal := h.journal
  reference := h.reference
  generations := h.generations
  files q hq := by
    obtain ⟨hne, hq⟩ := not_or.mp (mem_cons.not.mp hq)
    simpa [hne] using h.files q hq

/-- Giving a path what it held before takes it out of the frame. -/
theorem Frame.undo (h : Frame s₀ (p :: paths) s) :
  Frame s₀ paths { s with publicFiles := Function.update s.publicFiles p (s₀.publicFiles p) } where
  journal := h.journal
  reference := h.reference
  generations := h.generations
  files q hq := by
    by_cases hne : q = p
    · subst hne
      simp
    · simpa [hne] using h.files q (by simp [hne, hq])

theorem Frame.projectOne (h : Frame s₀ paths s) (projection : PreparedPublicProjection Path) :
    Frame s₀ (projection.destination :: paths) (s.projectOne projection) := by
  simp only [Store.projectOne]
  split
  · exact h.update _
  · exact h.update _

theorem project_append (projections : List (PreparedPublicProjection Path))
    (projection : PreparedPublicProjection Path) :
    s.project (projections ++ [projection]) = (s.project projections).projectOne projection := by
  simp [Store.project]

theorem project_frame (projections : List (PreparedPublicProjection Path)) :
    Frame s (projections.map destination) (s.project projections) := by
  induction projections using List.reverseRecOn with
  | nil => exact .refl s []
  | append_singleton projections projection ih =>
    rw [project_append]
    exact (ih.projectOne projection).mono fun p hp => by
      simpa [or_comm] using hp

/-- **What a projection of distinct paths leaves at each of them.** -/
theorem project_at {projections : List (PreparedPublicProjection Path)}
    (hnodup : (projections.map destination).Nodup)
    {projection : PreparedPublicProjection Path} (h : projection ∈ projections) :
    (s.project projections).publicFiles projection.destination =
      projection.staged.map CompletedStagedFile.published := by
  induction projections using List.reverseRecOn with
  | nil => cases h
  | append_singleton projections last ih =>
    rw [project_append]
    rw [map_append, nodup_append] at hnodup
    rcases mem_append.mp h with h | h
    · have hne : projection.destination ≠ last.destination :=
        hnodup.2.2 _ (mem_map_of_mem h) _ (by simp)
      rw [← ih hnodup.1 h]
      simp only [Store.projectOne]
      split <;> simp [Store.place, Store.remove, hne]
    · rw [mem_singleton] at h
      subst h
      simp only [Store.projectOne]
      split <;> rename_i hstaged <;> simp [Store.place, Store.remove, hstaged]

end

/-! ## 2. Rolling back -/

def Step.IsRollback : Step → Prop
  | .rollback _ | .rollbackFlush => True
  | _ => False

def RollbackFails (fate : Step → Fate Cause) : Prop :=
  ∃ step : Step, step.IsRollback ∧ ∃ cause, fate step = .fails cause

section Spec

variable {s₀ : Store Path} {fate : Step → Fate Cause}

theorem rollbackProjection_spec (round : Nat) (projection : CommittedPublicProjection Path)
    (hbackup : projection.backup = s₀.backup projection.destination) (paths : List Path) :
    Meets fate (Frame s₀ (projection.destination :: paths)) (rollbackProjection round projection)
      ⟨fun _ => Frame s₀ paths, fun _ _ s => Frame s₀ (projection.destination :: paths) s ∧ RollbackFails fate,
        Frame s₀ (projection.destination :: paths)⟩ := by
  have hfails : ∀ cause, fate (.rollback round) = .fails cause → RollbackFails fate :=
    fun cause h => ⟨.rollback round, trivial, cause, h⟩
  simp only [rollbackProjection, hbackup, Store.backup]
  match hfile : s₀.publicFiles projection.destination with
  | none =>
    refine meets_write (fun s hs => ?_) (fun s cause hs h => ⟨hs, hfails cause h⟩) fun s hs _ => hs
    have hundo := hs.undo
    rw [hfile] at hundo
    exact hundo
  | some file =>
    refine meets_act (fun s a s' hs he => ?_) (fun s e hs he => ?_)
      (fun s cause hs h => ⟨hs, hfails cause h⟩) fun s hs _ => hs
    · split at he
      · cases he
      · cases he
        have hundo := hs.undo
        rw [hfile] at hundo
        exact hundo
    · simp at he

/-- **A rollback leads back to the store before**; only a failing step of its own keeps it from
  there. -/
theorem rollback_spec (projections : List (CommittedPublicProjection Path))
    (hbackup : ∀ c ∈ projections, c.backup = s₀.backup c.destination) :
    Meets fate (Frame s₀ (projections.map CommittedPublicProjection.destination))
      (rollbackPublicProjections projections) ⟨fun _ s => s = s₀, fun _ _ s =>
         Frame s₀ (projections.map CommittedPublicProjection.destination) s ∧ RollbackFails fate,
        Frame s₀ (projections.map CommittedPublicProjection.destination)⟩ := by
  -- the invariant of the loop: only the paths still to come differ
  have hround : ∀ round c rest, Meets fate
    (fun s => (∀ d ∈ c :: rest, d ∈ projections) ∧
      Frame s₀ ((c :: rest).map CommittedPublicProjection.destination) s)
    (rollbackProjection round c)
    ⟨fun _ s => (∀ d ∈ rest, d ∈ projections) ∧ Frame s₀ (rest.map CommittedPublicProjection.destination) s,
      fun _ _ s =>
        Frame s₀ (projections.map CommittedPublicProjection.destination) s ∧ RollbackFails fate,
      Frame s₀ (projections.map CommittedPublicProjection.destination)⟩ := by
    intro round c rest
    refine meets_of_start fun s hs => ?_
    have hwiden : ∀ s', Frame s₀ ((c :: rest).map CommittedPublicProjection.destination) s' →
      Frame s₀ (projections.map CommittedPublicProjection.destination) s' := by
      intro s' h
      refine h.mono fun p hp => ?_
      obtain ⟨d, hd, rfl⟩ := mem_map.mp hp
      exact mem_map_of_mem (hs.1 d hd)
    exact (rollbackProjection_spec round c (hbackup c (hs.1 c (by simp))) _).weaken
      (fun _ he => he ▸ hs.2) (fun _ _ hd => ⟨fun d hd' => hs.1 d (by simp [hd']), hd⟩)
      (fun _ _ s' hf => ⟨hwiden s' hf.1, hf.2⟩) hwiden
  have hloop := meets_eachFrom (I := fun rest s => (∀ c ∈ rest, c ∈ projections) ∧
    Frame s₀ (rest.map CommittedPublicProjection.destination) s) hround 0 projections.reverse
  refine meets_bind (R := fun _ s => s = s₀) (hloop.weaken (fun s hs => ⟨by simp, ?_⟩)
    (fun _ s hd => hd.2.eq) (fun _ _ _ hf => hf) fun _ hc => hc) fun _ => ?_
  · exact hs.mono fun p hp => by simpa using hp
  · exact meets_check (fun s cause hs h => ⟨hs ▸ .refl s₀ _, ⟨.rollbackFlush, trivial, cause, h⟩⟩)
      fun s hs _ => hs ▸ .refl s₀ _

/-- How a step ends whose failure is rolled back: with the store as it was before the projection, or
  cut short within it. -/
def RolledBack (fate : Step → Fate Cause) (s₀ : Store Path) (paths : List Path)
  (steps : Step → Prop) (step : Step) (s : Store Path) : Prop :=
  (s = s₀ ∧ steps step) ∨ (Frame s₀ paths s ∧ RollbackFails fate)

variable {paths : List Path}

section

variable {done : List (PreparedPublicProjection Path)} (hpaths : ∀ c ∈ done, c.destination ∈ paths)
include hpaths

theorem project_within {s : Store Path}
    (h : Frame s₀ (done.map destination) s) : Frame s₀ paths s := by
  refine h.mono fun p hp => ?_
  obtain ⟨c, hc, rfl⟩ := mem_map.mp hp
  exact hpaths c hc

/-- **The rule of a rolled-back step** after the projections `done`. -/
theorem meets_rolledBack {α : Type} (hbackup : ∀ c ∈ done, c.backup = s₀.backup c.destination)
    {m : Operation Path ArtifactPublicationFailure α} {R : α → Store Path → Prop}
    (steps : Step → Prop) {C : Store Path → Prop} (hC : ∀ s, Frame s₀ paths s → C s)
    (hm : Meets fate (fun s => s = s₀.project done) m
      ⟨R, fun step _ s => s = s₀.project done ∧ steps step, C⟩) : Meets fate (fun s => s = s₀.project done)
      (.undoing m (rollbackPublicProjections (done.map PreparedPublicProjection.committed)))
      ⟨R, fun step _ => RolledBack fate s₀ paths steps step, C⟩ := by
  refine meets_undoing hm fun step e => ?_
  have hmap : (done.map PreparedPublicProjection.committed).map
    CommittedPublicProjection.destination = done.map destination := by
    simp [Function.comp_def, PreparedPublicProjection.committed]
  have hsaved : ∀ c ∈ done.map PreparedPublicProjection.committed, c.backup = s₀.backup c.destination := by
    intro c hc
    obtain ⟨d, hd, rfl⟩ := mem_map.mp hc
    exact hbackup d hd
  have hback : Meets fate _ _ _ := rollback_spec _ hsaved
  rw [hmap] at hback
  refine meets_of_start fun s hs => ?_
  exact hback.weaken (fun _ he => he ▸ hs.1 ▸ project_frame done) (fun _ _ hd => .inl ⟨hd, hs.2⟩)
    (fun _ _ s hf => .inr ⟨project_within hpaths hf.1, hf.2⟩) fun s hc => hC s (project_within hpaths hc)

end

/-! ## 3. Carrying out the projections -/

/-- The steps at which the projection itself can fail. -/
def Step.IsPromotion : Step → Prop
  | .promotePoll _ | .promote _ => True
  | _ => False

/-- One projection, with a store that still holds the stale path. -/
theorem promoteProjection_spec (s : Store Path) (round : Nat) (projection : PreparedPublicProjection Path) :
    Meets fate (fun s' => s' = s) (promoteProjection round projection)
      ⟨fun _ s' => s' = s.projectOne projection, fun step _ s' => s' = s ∧ step.IsPromotion, fun s' => s' = s⟩ := by
  simp only [promoteProjection, Store.projectOne]
  cases projection.staged with
  | some staged =>
    refine meets_act (fun s' a s'' hs he => ?_) (fun s' e hs _ => ⟨hs, trivial⟩)
      (fun s' _ hs _ => ⟨hs, trivial⟩) fun s' hs _ => hs
    subst hs
    split at he
    · cases he
    · cases he
      rfl
  | none =>
    refine meets_act (fun s' a s'' hs he => ?_) (fun s' e hs _ => ⟨hs, trivial⟩)
      (fun s' _ hs _ => ⟨hs, trivial⟩) fun s' hs _ => hs
    subst hs
    split at he
    · cases he
      rfl
    · cases he

/-- **The projection leads to `Store.project`, or back.** Induction on the projections still to
  carry out. -/
theorem commit_spec (done rest : List (PreparedPublicProjection Path))
    (hpaths : ∀ c ∈ done ++ rest, c.destination ∈ paths)
    (hbackup : ∀ c ∈ done ++ rest, c.backup = s₀.backup c.destination) (round : Nat) :
    Meets fate (fun s => s = s₀.project done)
      (commitPublicProjectionsFrom round rest (done.map PreparedPublicProjection.committed))
      ⟨fun committed s => committed = (done ++ rest).map PreparedPublicProjection.committed ∧
         s = s₀.project (done ++ rest),
        fun step _ => RolledBack fate s₀ paths Step.IsPromotion step, Frame s₀ paths⟩ := by
  induction rest generalizing done round with
  | nil => exact fun s hs => ⟨by simp, by simpa using hs⟩
  | cons projection rest ih =>
    have hmem : ∀ c ∈ done, c ∈ done ++ projection :: rest := fun c hc => by simp [hc]
    have hdone : ∀ c ∈ done, c.destination ∈ paths := fun c hc => hpaths c (hmem c hc)
    have hsaved : ∀ c ∈ done, c.backup = s₀.backup c.destination := fun c hc =>
      hbackup c (hmem c hc)
    have hframe : ∀ s, s = s₀.project done → Frame s₀ paths s := fun s hs =>
      hs ▸ project_within hdone (project_frame done)
    refine meets_bind (R := fun _ s => s = s₀.project done) ?_ fun _ => ?_
    · exact meets_rolledBack hdone hsaved _ (fun _ hs => hs) (meets_checkCancelled
        (fun s hs _ => ⟨hs, trivial⟩) fun s hs _ => hframe s hs)
    refine meets_bind (R := fun _ s => s = s₀.project (done ++ [projection])) ?_ fun _ => ?_
    · refine meets_rolledBack hdone hsaved _ (fun _ hs => hs) ?_
      rw [project_append]
      exact (promoteProjection_spec _ round projection).weaken (fun _ hs => hs) (fun _ _ hd => hd)
        (fun _ _ _ hf => hf) hframe
    · have hrest := ih (done ++ [projection]) (fun c hc => hpaths c (by simpa using hc))
        (fun c hc => hbackup c (by simpa using hc)) (round + 1)
      rw [map_append, append_assoc] at hrest
      exact hrest

end Spec

end Bray.Publication
