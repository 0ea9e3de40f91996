/-
  File:      Bray/Publication/History.lean
  Subject:   EVERY HISTORY OF A STORE: publications and recoveries one after another, each with a plan of its
    own and each ending at any of its steps.

  * `Store.Kept` -- the store is sound, and with nothing pending it shows its generation;
  * `publish_kept` -- a publication keeps that, however it ends;
  * `history_recovers` -- whatever was cut short before, a recovery leads to the current generation.
-/
import Bray.Publication.Unchanged

namespace Bray.Publication

open Lib

variable {Path : Type} [LinearOrder Path] {env : Environment Path} {plan : ManagedPlan Path}
  {replacement : ReplacementPolicy} {ready : PreparedPublication Path} {s s' s₁ : Store Path}

/-- The manifest of a plan is valid: planning refuses what the validation looks for. -/
theorem plan_valid : validateManifest (plan.generation env).manifest = .ok () := by
  rw [validateManifest, if_pos]
  rw [plan_manifest]
  simp only [List.map_map, Function.comp_def, PreparedArtifact.staged]
  exact ⟨plan.identity_distinct, plan.relative_distinct, plan.published_distinct⟩

/-- **What is published is sound**: its manifest is the plan's, its files are whole, and the new
  reference does not name one generation twice. -/
theorem Published.sound (h : Ready env plan replacement ready s₁) (hpub : Published s₁ ready s)
  (hs : s₁.Sound env) : s.Sound env where
  journal j hj := by
    rcases hpub.journal with hj' | hj' <;> cases hj'.symm.trans hj
    rfl
  reference reference href := by
    cases hpub.reference.symm.trans href
    have hne : ready.reference.previous ≠ some ready.reference.current := by
      intro hprevious
      obtain ⟨prior, hprior, hsame⟩ := Option.bind_eq_some_iff.mp hprevious
      split at hsame
      · -- the same generation again: its own predecessor was a different one
        rename_i hcurrent
        have hcheck := hs.reference prior (h.reference.symm.trans hprior)
        have hequal : prior.previous = some prior.current := hsame.trans (congrArg some hcurrent)
        simp only [GenerationReference.check, hequal, if_true] at hcheck
        split at hcheck <;> cases hcheck
      · rename_i hcurrent
        exact hcurrent (Option.some.inj hsame).symm
    have hrevision : ready.reference.revision = REFERENCE_REVISION := rfl
    simp [GenerationReference.check, hrevision, hne]
  readable reference href := by
    cases hpub.reference.symm.trans href
    obtain ⟨settled, hlook, hmanifest, hwhole⟩ := h.generation
    have hfound : s.lookup ready.locator = some settled := by
      rw [hpub.lookup _ (by simp [GenerationReference.retained, PreparedPublication.reference,
        GenerationReference.publish])]
      exact hlook
    refine ⟨settled, hfound, ?_, hwhole⟩
    have hvalid : validateManifest settled.manifest = .ok () := by
      rw [hmanifest, h.manifest]
      exact plan_valid
    simp only [Store.manifest, PreparedPublication.reference, GenerationReference.publish, hfound,
      h.identity, ← hmanifest, ne_eq, not_true_eq_false, if_false, hvalid]
    rfl

/-- **A sound store that shows its generation** as soon as its pending replay is done. -/
structure Store.Kept (env : Environment Path) (s : Store Path) : Prop where
  sound : s.Sound env
  shows : ShowsCurrent s.restored

/-- A completed replay is the one that nothing disturbs. -/
theorem Store.Kept.of_recovered (hs : s.Sound env)
    (h : ∀ s₃, Attempts (recoverPublication env) s s₃ → Recovered s₁ ready s s₃) : s.Kept env :=
  ⟨hs, (h _ (.completes (fun _ => .proceeds) (recover_completes hs fun _ => rfl))).shows⟩

theorem Untouched.kept (h : Untouched env s s') (hs : s.Kept env) : s'.Kept env := by
  refine ⟨h.sound hs.sound, ?_⟩
  rcases h with h | h
  · rw [h.restored_eq]
    exact hs.shows
  · rw [restored_of_none (h.journal.trans (restored_journal s))]
    intro reference href
    obtain ⟨generation, hlook, hfiles⟩ := hs.shows reference (h.reference.symm.trans href)
    refine ⟨generation, h.lookup _ _ hlook, ?_⟩
    rw [h.publicFiles]
    exact hfiles

variable {fate : Step → Fate Cause}

/-- **Every run of a publication**, however it ends. -/
theorem publish_kept : Keeps fate (Store.Kept env) (publishManagedGeneration env plan replacement) := by
  refine meets_of_start fun s hs => ?_
  refine meets_bind (prepare_spec.weaken (fun _ he => he) (fun _ _ hd => hd)
    (fun _ _ s' hf => hf.2.kept hs) fun s' hc => hc.kept hs) fun ready => ?_
  refine meets_of_start fun s₁ hs₁ => ?_
  obtain ⟨hext, hready, _⟩ := hs₁
  have hunrecorded : s₁.Kept env := Untouched.kept (.inr hext) hs
  have hpublished (s' : Store Path) (h : Published s₁ ready s') : s'.Kept env :=
    .of_recovered (h.sound hready hunrecorded.sound) fun s₃ => recovers_published hready h
  have hframed (s' : Store Path) (h : Frame (s₁.recorded ready.manifest)
      (ready.projections.map PreparedPublicProjection.destination) s') : s'.Kept env :=
    .of_recovered (h.sound hunrecorded.sound) fun s₃ => recovers_frame hready h
  refine (publish_spec hready).weaken (fun _ he => he) (fun _ s' hd => hpublished s' hd)
    (fun step _ s' hf => ?_) fun s' hc => ?_
  · rcases hf with ⟨rfl, _⟩ | ⟨rfl, _⟩ | ⟨rfl, _⟩ | ⟨hframe, _⟩
    · exact hunrecorded
    · exact hframed _ (.refl _ _)
    · exact hframed _ (project_frame _)
    · exact hframed _ hframe
  · rcases hc with ⟨rfl, _⟩ | hpub | hframe
    · exact hunrecorded
    · exact hpublished _ hpub
    · exact hframed _ hframe

/-- **The histories of a store**: nothing is published at first; then publications and recoveries run,
  each of them to whatever end. -/
inductive History (env : Environment Path) : Store Path → Prop where
  | fresh {s : Store Path} (hj : s.journal = none) (href : s.reference = none) : History env s
  | publishes {s s' : Store Path} {o : Outcome Step ArtifactPublicationFailure ManagedGenerationPublication}
    (plan : ManagedPlan Path) (replacement : ReplacementPolicy) (fate : Step → Fate Cause) (h : History env s)
    (hrun : (publishManagedGeneration env plan replacement).run fate s = (o, s')) : History env s'
  | recovers {s s' : Store Path} {o : Outcome Step StorageErrorKind Unit} (fate : Step → Fate Cause)
    (h : History env s) (hrun : (recoverPublication env).run fate s = (o, s')) : History env s'

theorem History.kept (h : History env s) : s.Kept env := by
  induction h with
  | fresh hj href =>
    refine ⟨⟨fun j hsome => ?_, fun r hsome => ?_, fun r hsome => ?_⟩, fun r hsome => ?_⟩
    · cases hj.symm.trans hsome
    · cases href.symm.trans hsome
    · cases href.symm.trans hsome
    · rw [restored_reference] at hsome
      cases href.symm.trans hsome
  | publishes plan replacement fate _ hrun ih => exact publish_kept.hold ih hrun
  | recovers fate _ hrun ih => exact (Untouched.kept (.inl (recover_onTheWay hrun)) ih)

/-- **Publications and recoveries may be cut short at any step, in any order, any number of times**: the
  store stays sound, a recovery in which every step proceeds completes, and a recovery that completes
  leaves no journal and every public path of the current generation with that generation's artifact. -/
theorem history_recovers (h : History env s) :
    s.Sound env ∧ (∀ fate, (∀ step, fate step = .proceeds) → ((recoverPublication env).run fate s).1 = .done ()) ∧
      ∀ s', Attempts (recoverPublication env) s s' → s'.journal = none ∧ ShowsCurrent s' := by
  refine ⟨h.kept.sound, fun fate hfate => ?_, fun s' hrec => ?_⟩
  · rw [recover_completes h.kept.sound hfate]
  · obtain ⟨rfl, -⟩ := recover_attempts hrec
    exact ⟨restored_journal s, h.kept.shows⟩

/-- A publication that fails at the lease, and one that stops at the reference. -/
theorem history_recovers_twice : ∃ s, s.journal.isSome ∧
    ∀ s', Attempts (recoverPublication plainEnvironment) s s' → s'.journal = none ∧ ShowsCurrent s' := by
  refine ⟨_, ?_, (history_recovers (.publishes oneArtifact .replaceExisting
    (fun step => if step = .referencePromote then .stops else .proceeds) (.publishes oneArtifact .replaceExisting
      leaseFails (.fresh (s := freshStore) rfl rfl) rfl) rfl)).2.2⟩
  decide +kernel

end Bray.Publication
