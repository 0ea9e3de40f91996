/-
  File:      Bray/Publication/CrashSafe.lean
  Subject:   A PUBLICATION THAT STOPS ANYWHERE IS RECOVERED TO ONE OF TWO STATES.

  From the journal on, the store is always in one of two situations. Before the reference it differs
  from the store before only at journalled and current public paths, and a replay overwrites exactly
  these. From the reference on the public files are already those of the new generation, and a replay
  copies them once more.

  * `ShowsCurrent` -- the public paths of the named generation hold its artifacts;
  * `Recovered` -- what a completed replay leaves;
  * `recovers_frame`, `recovers_published` -- the two situations;
  * `stopped_publication_recovers` -- wherever a publication ends from the journal on, and however
    often the replay itself is cut short.
-/
import Bray.Publication.Transaction

namespace Bray.Publication

open Lib Finset

variable {Path : Type} [LinearOrder Path]

/-- Every public path of the generation the reference names holds that generation's artifact. -/
def ShowsCurrent (s : Store Path) : Prop :=
  ∀ reference, s.reference = some reference → ∃ generation, s.lookup reference.current.locator = some generation ∧
    ∀ artifact ∈ generation.manifest.artifacts, ∃ file, generation.files artifact.path = some file ∧
      (s.publicFiles artifact.publishedPath).map File.bytes = some file.bytes

/-- **What a completed replay leaves** of the store `s₂` a publication from `s₁` ended in. -/
structure Recovered (s₁ : Store Path) (ready : PreparedPublication Path) (s₂ s₃ : Store Path) :
  Prop where
  journal : s₃.journal = none
  reference : s₃.reference = s₂.reference
  oneOfTwo : s₃.reference = s₁.reference ∨ s₃.reference = some ready.reference
  shows : ShowsCurrent s₃
  absent : ∀ p ∈ s₁.currentPaths ∪ ready.manifest.publicPaths, p ∉ s₃.currentPaths → s₃.publicFiles p = none
  others : ∀ p ∉ s₁.currentPaths ∪ ready.manifest.publicPaths, s₃.publicFiles p = s₁.publicFiles p

section

variable {env : Environment Path} {plan : ManagedPlan Path} {replacement : ReplacementPolicy}
  {ready : PreparedPublication Path} {s s₁ s₂ s₃ : Store Path}

theorem validate_some {file : Option File} {artifact : ManifestArtifact Path}
    (h : validateArtifactFile env file artifact = .ok ()) : ∃ f, file = some f := by
  match file with
  | none => cases h
  | some f => exact ⟨f, rfl⟩

theorem Store.currentPaths_congr (href : s.reference = s₁.reference)
    (hgen : s.generations = s₁.generations) : s.currentPaths = s₁.currentPaths := by
  simp [Store.currentPaths, Store.current, Store.lookup, href, hgen]

theorem Store.current_restored : s.restored.currentPaths = s.currentPaths :=
  Store.currentPaths_congr (restored_reference s) (restored_generations s)

variable {j : PendingPublication Path}

/-- **A replay of a readable store shows its generation.** -/
theorem restored_shows (hj : s.journal = some j) (hread : s.Readable env) : ShowsCurrent s.restored := by
  intro reference href
  rw [restored_reference] at href
  obtain ⟨generation, hlook, hmanifest, hvalid⟩ := hread reference href
  obtain ⟨generation', hlook', _, _, hok⟩ := manifest_ok hmanifest
  refine ⟨generation, by simpa [Store.lookup] using hlook, fun artifact hmem => ?_⟩
  obtain ⟨file, hfile⟩ := validate_some (hvalid artifact hmem)
  have hcurrent : s.currentFile artifact.publishedPath = some file := by
    simp [Store.currentFile, Store.current_eq href hlook, find_published (validateManifest_ok hok).2.2 hmem, hfile]
  exact ⟨file, hfile, by simp [Store.restored, hj, Store.restoredFile, hcurrent]⟩

/-- A path the replay neither copies nor removes keeps its content. -/
theorem restored_other (hj : s.journal = some j) {p : Path}
    (hcurrent : p ∉ s.currentPaths) (hp : p ∉ j.paths) : s.restored.publicFiles p = s.publicFiles p := by
  simp [Store.restored, hj, Store.restoredFile, currentFile_none hcurrent, hp]

theorem restored_removed (hj : s.journal = some j) {p : Path}
    (hcurrent : p ∉ s.currentPaths) (hp : p ∈ j.paths) : s.restored.publicFiles p = none := by
  simp [Store.restored, hj, Store.restoredFile, currentFile_none hcurrent, hp]

/-- **Before the reference**, the replay gives the current generation back. -/
theorem recovers_frame (h : Ready env plan replacement ready s₁) (hframe : Frame (s₁.recorded ready.manifest)
      (ready.projections.map PreparedPublicProjection.destination) s₂)
    (hrec : Attempts (recoverPublication env) s₂ s₃) : Recovered s₁ ready s₂ s₃ := by
  obtain ⟨rfl, hread⟩ := recover_attempts hrec
  have hj : s₂.journal = some ⟨REVISION, ready.manifest.publicPaths⟩ := hframe.journal
  have href : s₂.reference = s₁.reference := hframe.reference
  have hpaths : s₂.currentPaths = s₁.currentPaths :=
    Store.currentPaths_congr href hframe.generations
  refine ⟨restored_journal _, restored_reference _, .inl (by simp [href]),
    restored_shows hj (hread (by simp [hj])), fun p hp hnot => ?_, fun p hp => ?_⟩
  · rw [Store.current_restored] at hnot
    rw [← hpaths] at hp
    exact restored_removed hj hnot ((mem_union.mp hp).resolve_left hnot)
  · rw [mem_union, not_or] at hp
    rw [restored_other hj (hpaths ▸ hp.1) hp.2, hframe.files p]
    · rfl
    · intro hmem
      obtain ⟨c, hc, rfl⟩ := List.mem_map.mp hmem
      rcases mem_union.mp (h.within c hc) with hin | hin
      · exact hp.2 hin
      · exact hp.1 hin

/-- **From the reference on**, the replay has nothing left to change. -/
theorem recovers_published (h : Ready env plan replacement ready s₁)
    (hpub : Published s₁ ready s₂) (hrec : Attempts (recoverPublication env) s₂ s₃) : Recovered s₁ ready s₂ s₃ := by
  obtain ⟨rfl, hread⟩ := recover_attempts hrec
  obtain ⟨settled, hlook, hmanifest, _⟩ := h.generation
  have hlook₂ : s₂.lookup ready.reference.current.locator = some settled := by
    rw [hpub.lookup _ (by simp [GenerationReference.retained])]
    exact hlook
  have hpaths : s₂.currentPaths = ready.manifest.publicPaths := by
    simp [Store.currentPaths, Store.current_eq hpub.reference hlook₂, hmanifest]
  have hstale : ∀ p ∈ s₁.currentPaths, p ∉ ready.manifest.publicPaths → s₂.publicFiles p = none := by
    intro p hp hnot
    rw [hpub.publicFiles]
    exact h.stale (by rfl) (mem_sdiff.mpr ⟨hp, hnot⟩)
  have hother : ∀ p ∉ s₁.currentPaths ∪ ready.manifest.publicPaths, s₂.publicFiles p = s₁.publicFiles p := by
    intro p hp
    rw [hpub.publicFiles, (project_frame _).files p]
    · rfl
    · intro hmem
      obtain ⟨c, hc, rfl⟩ := List.mem_map.mp hmem
      rw [union_comm] at hp
      exact hp (h.within c hc)
  rcases hpub.journal with hj | hj
  · refine ⟨restored_journal _, restored_reference _, .inr (by simp [hpub.reference]),
    restored_shows hj (hread (by simp [hj])), fun p hp hnot => ?_, fun p hp => ?_⟩
    · rw [Store.current_restored, hpaths] at hnot
      rw [restored_other hj (hpaths ▸ hnot) hnot]
      exact hstale p ((mem_union.mp hp).resolve_right hnot) hnot
    · have hnot := (not_or.mp (mem_union.not.mp hp)).2
      rw [restored_other hj (hpaths ▸ hnot) hnot, hother p hp]
  · rw [restored_of_none hj]
    refine ⟨hj, rfl, .inr hpub.reference, fun reference href => ?_, fun p hp hnot => ?_, hother⟩
    · cases hpub.reference.symm.trans href
      refine ⟨settled, hlook₂, fun artifact hmem => ?_⟩
      rw [hmanifest, h.manifest, plan_manifest] at hmem
      obtain ⟨a, ha, rfl⟩ := List.mem_map.mp hmem
      obtain ⟨c, file, _, hstored, _, hbytes⟩ := h.artifact (s₁.recorded ready.manifest) ha
      simp only [Store.stored, hlook, Option.bind_some] at hstored
      exact ⟨file, hstored, by rw [hpub.publicFiles]; exact hbytes⟩
    · rw [hpaths] at hnot
      exact hstale p ((mem_union.mp hp).resolve_right hnot) hnot

/-- **A publication may stop at any step from the journal on, and its recovery at any of its own,
  any number of times.** Once a recovery completes, the store shows the generation its reference
  names, at every public path and at no other path of the two generations; the journal is gone, the
  reference is as it was, and however the recovery went, the store is the same. -/
theorem stopped_publication_recovers (env : Environment Path) (plan : ManagedPlan Path)
    (replacement : ReplacementPolicy) (fate fate' : Step → Fate Cause) (s₀ s₁ s₂ : Store Path)
    (ready : PreparedPublication Path) (o : Outcome Step ArtifactPublicationFailure ManagedGenerationPublication)
    (hprepared : (preparePublication env plan replacement).run fate s₀ = (.done ready, s₁))
    (hrun : (publishPrepared env replacement ready).run fate' s₁ = (o, s₂))
    (hstaged : fate' .journalStage = .proceeds) (hjournal : fate' .journalPromote = .proceeds) :
    ∀ s₃, Attempts (recoverPublication env) s₂ s₃ →
      Recovered s₁ ready s₂ s₃ ∧ ∀ s₃', Attempts (recoverPublication env) s₂ s₃' → s₃' = s₃ := by
  intro s₃ hrec
  have hready : Ready env plan replacement ready s₁ := by
    exact (prepare_spec.hold rfl hprepared).2.1
  have hspec := (publish_spec hready).hold rfl hrun
  refine ⟨?_, fun s₃' hrec' => (recover_attempts hrec').1.trans (recover_attempts hrec).1.symm⟩
  have hrecorded : ¬ Unrecorded fate' := by simp [Unrecorded, hstaged, hjournal]
  match o with
  | .done _ => exact recovers_published hready hspec hrec
  | .failed step e =>
    rcases hspec with ⟨_, _, hnot⟩ | ⟨rfl, _⟩ | ⟨rfl, _⟩ | ⟨hframe, _⟩
    · exact absurd hnot hrecorded
    · exact recovers_frame hready (.refl _ _) hrec
    · exact recovers_frame hready (project_frame _) hrec
    · exact recovers_frame hready hframe hrec
  | .stopped =>
    rcases hspec with ⟨_, hnot⟩ | hpub | hframe
    · exact absurd hnot hrecorded
    · exact recovers_published hready hpub hrec
    · exact recovers_frame hready hframe hrec

end

/-- Digests that are the content itself, and locators that count the attempts. -/
def plainEnvironment : Environment Nat where
  manifestDigest manifest := manifest.artifacts.flatMap ManifestArtifact.digest
  contentDigest _ bytes := bytes
  forIdentity identity attempt := identity ++ [UInt8.ofNat attempt]
  leased _ := false

/-- One executable, published at path 7. -/
def oneArtifact : ManagedPlan Nat where
  description := "application"
  artifacts := [⟨.executable, 0, 1, 7, [65, 66], "required product"⟩]
  identity_distinct := by decide
  relative_distinct := by decide
  published_distinct := by decide

/-- A store that was never published to, with one file of the user's. -/
def freshStore : Store Nat where
  publicFiles p := if p = 7 then some ⟨[1], ⟨some 0o600, false⟩⟩ else none
  journal := none
  reference := none
  generations := []

/-- The process ends after the projections and before the reference. -/
theorem stopped_before_reference_recovers : ∃ ready s₁ s₂,
    ((preparePublication plainEnvironment oneArtifact .replaceExisting).run (fun _ => .proceeds)
      freshStore = (.done ready, s₁)) ∧ s₂ = ((publishPrepared plainEnvironment .replaceExisting ready).run
      (fun step => if step = .lease then .stops else .proceeds) s₁).2 ∧
    ∀ s₃, Attempts (recoverPublication plainEnvironment) s₂ s₃ → Recovered s₁ ready s₂ s₃ ∧
      ∀ s₃', Attempts (recoverPublication plainEnvironment) s₂ s₃' → s₃' = s₃ := by
  have hdone : ((preparePublication plainEnvironment oneArtifact .replaceExisting).run
    (fun _ => .proceeds) freshStore).1.isDone = true := by decide +kernel
  obtain ⟨ready, s₁, hprepared⟩ := Program.exists_done hdone
  exact ⟨ready, s₁, _, hprepared, rfl, stopped_publication_recovers plainEnvironment oneArtifact
    .replaceExisting (fun _ => .proceeds) (fun step => if step = .lease then .stops else .proceeds)
    freshStore s₁ _ ready _ hprepared rfl rfl rfl⟩

end Bray.Publication
