/-
  File:      Bray/Publication/Unchanged.lean
  Subject:   WHEN A FAILED PUBLICATION CHANGES NOTHING PUBLIC.

  A failure up to the journal's rename leaves the store as it was or as a pending journal's replay
  makes it. A failure from there on is rolled back, but the journal stays: a later replay finds it.
  Two steps after the projections, the encoding of the reference and the generation's lease, return
  their failure without a rollback.

  * `Store.Sound.transport` -- a sound store stays sound under the same reference;
  * `Unchanged` -- the public files and the reference are as before, and stay so under any replay;
  * `Store.Undisturbed` -- a replay with these journalled paths has nothing to change;
  * `Harmless` -- the condition on the store, the plan and the step that fails;
  * `failed_publication_unchanged_iff` -- a failed publication changes nothing exactly under it.
-/
import Bray.Publication.CrashSafe

namespace Bray.Publication

open Lib

variable {Path : Type} [LinearOrder Path]

section

variable {env : Environment Path} {plan : ManagedPlan Path} {replacement : ReplacementPolicy}
  {ready : PreparedPublication Path} {s s' s₁ s₂ : Store Path} {paths : Finset Path}
  {fate : Step → Fate Cause}

/-! ## 1. Sound stores -/

/-- A store with the same reference and at least the same generations is sound as well. -/
theorem Store.Sound.transport (h : s.Sound env) (href : s'.reference = s.reference)
    (hlook : ∀ locator generation, s.lookup locator = some generation → s'.lookup locator = some generation)
  (hj : ∀ j, s'.journal = some j → j.revision = REVISION) : s'.Sound env where
  journal := hj
  reference reference hsome := h.reference reference (href.symm.trans hsome)
  readable reference hsome := by
    obtain ⟨generation, hfound, hmanifest, hvalid⟩ := h.readable reference (href.symm.trans hsome)
    refine ⟨generation, hlook _ _ hfound, ?_, hvalid⟩
    simpa [Store.manifest, hfound, hlook _ _ hfound] using hmanifest

theorem OnTheWay.sound (h : OnTheWay env s s') (hs : s.Sound env) : s'.Sound env := by
  refine hs.transport h.reference (fun l g hl => by simpa [Store.lookup, h.generations] using hl)
    fun j hj => ?_
  rcases h with ⟨j', hj', h⟩ | ⟨rfl, _⟩ | rfl
  · exact hs.journal j (h.journal.symm.trans hj)
  · simp at hj
  · exact hs.journal j hj

theorem Store.Sound.restored (hs : s.Sound env) : s.restored.Sound env :=
  hs.transport (restored_reference s) (fun l g hl => by simpa [Store.lookup] using hl)
    fun j hj => by simp at hj

theorem Extends.sound (h : Extends s s') (hs : s.Sound env) : s'.Sound env :=
  hs.transport h.reference h.lookup fun j hj => hs.journal j (h.journal.symm.trans hj)

theorem Untouched.sound (h : Untouched env s s') (hs : s.Sound env) : s'.Sound env :=
  h.elim (fun h => h.sound hs) fun h => h.sound hs.restored

theorem Frame.sound {within : List Path} (h : Frame (s₁.recorded ready.manifest) within s)
    (hs : s₁.Sound env) : s.Sound env := by
  refine hs.transport h.reference (fun l g hl => ?_) fun j hj => ?_
  · rw [Store.lookup, h.generations]
    exact hl
  · cases h.journal.symm.trans hj
    rfl

/-! ## 2. Replays with nothing to change -/

/-- **A replay with these journalled paths changes no public file.** -/
def Store.Undisturbed (s : Store Path) (paths : Finset Path) : Prop :=
  (∀ p source, s.currentFile p = some source → (s.publicFiles p).map File.bytes = some source.bytes) ∧
  ∀ p ∈ paths, s.currentFile p = none → s.publicFiles p = none

theorem undisturbed_iff : s.restoredFile paths = s.publicFiles ↔ s.Undisturbed paths := by
  constructor
  · intro h
    refine ⟨fun p source hsource => ?_, fun p hp hnone => ?_⟩
    · have hp := congrFun h p
      simp only [Store.restoredFile, hsource] at hp
      rw [← hp]
      rfl
    · have hp' := congrFun h p
      simpa [Store.restoredFile, hnone, hp] using hp'.symm
  · rintro ⟨hcurrent, hnone⟩
    funext p
    cases hsource : s.currentFile p with
    | some source =>
      obtain ⟨file, hfile, hbytes⟩ := Option.map_eq_some_iff.mp (hcurrent p source hsource)
      simp [Store.restoredFile, hsource, hfile, ← hbytes]
    | none =>
      by_cases hp : p ∈ paths
      · simp [Store.restoredFile, hsource, hp, hnone p hp hsource]
      · simp [Store.restoredFile, hsource, hp]

/-- A pending journal whose replay changes nothing, or no journal. -/
def Store.Calm (s : Store Path) : Prop := ∀ j, s.journal = some j → s.Undisturbed j.paths

theorem calm_iff : s.restored.publicFiles = s.publicFiles ↔ s.Calm := by
  match hj : s.journal with
  | none => simp [Store.restored, Store.Calm, hj]
  | some j => simp [Store.restored, Store.Calm, hj, undisturbed_iff]

theorem Store.Undisturbed.congr (hpub : s'.publicFiles = s.publicFiles)
    (hcur : s'.currentFile = s.currentFile) : s'.Undisturbed paths ↔ s.Undisturbed paths := by
  simp [Store.Undisturbed, hpub, hcur]

/-- **No way to a calm end changes a public file.** -/
theorem OnTheWay.publicFiles (h : OnTheWay env s s') (hcalm : s.Calm) : s'.publicFiles = s.publicFiles := by
  have hrestored := calm_iff.mpr hcalm
  rcases h with ⟨j, hj, h⟩ | ⟨rfl, _⟩ | rfl
  · funext p
    have hp : s.restoredFile j.paths p = s.publicFiles p :=
      congrFun (undisturbed_iff.mpr (hcalm j hj)) p
    rcases h.files p with hfile | hfile
    · exact hfile
    · exact hfile.trans hp
  · exact hrestored
  · rfl

/-! ## 3. Failed publications -/

/-- **Nothing public is changed**, and no later replay, however it ends, changes anything. -/
structure Unchanged (env : Environment Path) (s s' : Store Path) : Prop where
  publicFiles : s'.publicFiles = s.publicFiles
  reference : s'.reference = s.reference
  later : ∀ fate o s'', (recoverPublication env).run fate s' = (o, s'') → s''.publicFiles = s.publicFiles

/-- **Of a sound store with the same public files, nothing changes exactly when it is calm.** -/
theorem unchanged_iff (hsound : s'.Sound env) (href : s'.reference = s.reference) :
    Unchanged env s s' ↔ s'.publicFiles = s.publicFiles ∧ s'.Calm := by
  constructor
  · intro h
    refine ⟨h.publicFiles, calm_iff.mp ?_⟩
    -- the replay in which every step proceeds
    rw [h.later _ _ _ (recover_completes hsound fun _ => rfl), h.publicFiles]
  · rintro ⟨hpub, hcalm⟩
    exact ⟨hpub, href, fun fate o s'' hrun =>
      ((recover_onTheWay hrun).publicFiles hcalm).trans hpub⟩

def ManagedPlan.publicPaths (plan : ManagedPlan Path) : Finset Path :=
  (plan.artifacts.map PreparedArtifact.published).toFinset

/-- The generation the publication would end up with is public already, and nothing is stale. -/
def Republishes (env : Environment Path) (plan : ManagedPlan Path) (s : Store Path) : Prop :=
  (∃ settled, settledGeneration env s (env.manifestDigest (plan.generation env).manifest)
    (plan.generation env) LOCATOR_ATTEMPTS 0 = some settled ∧
    ∀ a ∈ plan.artifacts, (s.publicFiles a.published).map File.bytes = (settled.files a.relative).map File.bytes) ∧
  ∀ p ∈ s.currentPaths \ plan.publicPaths, s.publicFiles p = none

/-- **The condition under which a failure at `step` changes nothing public.** -/
structure Harmless (env : Environment Path) (plan : ManagedPlan Path) (s : Store Path) (step : Step) :
  Prop where
  calm : s.Calm
  undisturbed : ¬ step.IsEarly → s.Undisturbed plan.publicPaths
  republishes : step.IsUnprotected → Republishes env plan s

theorem Ready.publicPaths (h : Ready env plan replacement ready s) :
    ready.manifest.publicPaths = plan.publicPaths := by
  ext p
  rw [h.public_mem]
  simp [ManagedPlan.publicPaths]

theorem currentFile_none_iff (hs : s.Sound env) {p : Path} : s.currentFile p = none ↔ p ∉ s.currentPaths := by
  refine ⟨fun h hp => ?_, currentFile_none⟩
  match href : s.reference with
  | none => simp [Store.currentPaths, Store.current, href] at hp
  | some reference =>
    obtain ⟨generation, hlook, hmanifest, hvalid⟩ := hs.readable reference href
    obtain ⟨_, _, _, _, hok⟩ := manifest_ok hmanifest
    have hcur := Store.current_eq href hlook
    simp only [Store.currentPaths, hcur, Option.elim_some, mem_publicPaths] at hp
    obtain ⟨a, ha, rfl⟩ := hp
    obtain ⟨file, hfile⟩ := validate_some (hvalid a ha)
    simp [Store.currentFile, hcur, find_published (validateManifest_ok hok).2.2 ha, hfile] at h

/-- Adding generations does not change what a sound store's reference names. -/
theorem currentFile_extends (hs : s.Sound env) (href : s'.reference = s.reference)
    (hlook : ∀ locator generation, s.lookup locator = some generation →
      s'.lookup locator = some generation) : s'.currentFile = s.currentFile := by
  funext p
  match hsome : s.reference with
  | none => simp [Store.currentFile, Store.current, href, hsome]
  | some reference =>
    obtain ⟨generation, hfound, _⟩ := hs.readable reference hsome
    simp [Store.currentFile, Store.current_eq hsome hfound,
      Store.current_eq (href.trans hsome) (hlook _ _ hfound)]

/-- An early failure changes nothing exactly where the store is calm. -/
theorem early_unchanged_iff (hs : s.Sound env) (h : Untouched env s s') : Unchanged env s s' ↔ s.Calm := by
  rcases h with h | h
  · rw [unchanged_iff (h.sound hs) h.reference, ← calm_iff, ← calm_iff, h.restored_eq]
    constructor
    · rintro ⟨hpub, hcalm⟩
      exact hcalm.trans hpub
    · intro hcalm
      have hpub := h.publicFiles (calm_iff.mp hcalm)
      exact ⟨hpub, hcalm.trans hpub.symm⟩
  · have hcalm : s'.Calm := fun j hj => by simp [h.journal] at hj
    rw [unchanged_iff (h.sound hs.restored) (by simp [h.reference]), h.publicFiles, calm_iff]
    exact and_iff_left hcalm

section

variable (hs : s.Sound env) (hready : Ready env plan replacement ready s₁) (hext : Extends s.restored s₁)
include hs hready hext

/-- A store with the journal of the publication is calm exactly where its paths are undisturbed. -/
theorem recorded_calm_iff (hj : s'.journal = (s₁.recorded ready.manifest).journal)
    (href : s'.reference = s₁.reference) (hgen : s'.generations = s₁.generations)
    (hpub : s'.publicFiles = s.publicFiles) : s'.Calm ↔ s.Undisturbed plan.publicPaths := by
  have hcur : s'.currentFile = s.currentFile := by
    refine currentFile_extends hs (by simp [href, hext.reference]) fun l g hl => ?_
    rw [Store.lookup, hgen]
    exact hext.lookup l g (by simpa [Store.lookup] using hl)
  have hjournal : s'.journal = some ⟨REVISION, plan.publicPaths⟩ := by
    rw [hj, ← hready.publicPaths]
    rfl
  rw [← Store.Undisturbed.congr hpub hcur]
  simp [Store.Calm, hjournal]

/-- A rolled-back failure changes nothing exactly where no replay has anything to change. -/
theorem recorded_unchanged_iff :
    Unchanged env s (s₁.recorded ready.manifest) ↔ s.Calm ∧ s.Undisturbed plan.publicPaths := by
  have hpub : (s₁.recorded ready.manifest).publicFiles = s.publicFiles ↔ s.Calm := by
    rw [← calm_iff, ← hext.publicFiles]
    rfl
  have hsound : (s₁.recorded ready.manifest).Sound env :=
    (Frame.refl _ []).sound (hext.sound hs.restored)
  rw [unchanged_iff hsound (hext.reference.trans (restored_reference s)), hpub]
  refine and_congr_right fun hcalm => ?_
  exact recorded_calm_iff hs hready hext rfl rfl rfl (hpub.mpr hcalm)

end

/-- **The projected store shows the files of before** exactly where the settled generation is public
  already. -/
theorem project_eq_iff (hready : Ready env plan replacement ready s₁)
    (hsettles : Settles env plan s ready s₁) (hpaths : s₁.currentPaths = s.currentPaths)
    (hpub : s₁.publicFiles = s.publicFiles) :
    ((s₁.recorded ready.manifest).project ready.projections).publicFiles = s.publicFiles ↔
      Republishes env plan s := by
  obtain ⟨settled, hlook, _⟩ := hready.generation
  have hstored : ∀ path, s₁.stored ready.locator path = settled.files path := fun path => by
    simp [Store.stored, hlook]
  constructor
  · intro hproject
    refine ⟨⟨settled, hsettles.trans hlook, fun a ha => ?_⟩, fun p hp => ?_⟩
    · obtain ⟨c, file, _, hfile, _, hbytes⟩ := hready.artifact (s₁.recorded ready.manifest) ha
      rw [hproject] at hbytes
      rw [hbytes, ← hstored, hfile, Option.map_some]
    · rw [← hproject]
      rw [← hpaths, ← hready.publicPaths] at hp
      exact hready.stale (by rfl) hp
  · rintro ⟨⟨settled', hsettled, hbytes⟩, hstale⟩
    cases hsettled.symm.trans (hsettles.trans hlook)
    funext p
    by_cases hp : p ∈ ready.manifest.publicPaths
    · obtain ⟨a, ha, rfl⟩ := hready.public_mem.mp hp
      obtain ⟨c, file, hproj, hfile, hat, _⟩ := hready.artifact (s₁.recorded ready.manifest) ha
      have hsame := hbytes a ha
      rw [← hstored, hfile, Option.map_some] at hsame
      obtain ⟨before, hbefore, hequal⟩ := Option.map_eq_some_iff.mp hsame
      -- the path was there, so the plan allows replacing it and its permissions are kept
      have hreplace : replacement = .replaceExisting := by
        cases replacement with
        | replaceExisting => rfl
        | requireAbsent =>
          have habsent := hproj.absent rfl
          rw [hpub, hbefore] at habsent
          cases habsent
      obtain ⟨file', hfile', hstaged⟩ := hproj.staged
      cases hfile.symm.trans hfile'
      rw [hat, hstaged, hpub, hbefore, hreplace]
      simp [CompletedStagedFile.published, replacementMode, ← hequal]
    · by_cases hcurrent : p ∈ s₁.currentPaths
      · have hmem := Finset.mem_sdiff.mpr ⟨hcurrent, hp⟩
        rw [hready.stale (by rfl) hmem]
        rw [hpaths, hready.publicPaths] at hmem
        exact (hstale p hmem).symm
      · rw [(project_frame _).files p]
        · exact congrFun hpub p
        · intro hmem
          obtain ⟨c, hc, rfl⟩ := List.mem_map.mp hmem
          rcases Finset.mem_union.mp (hready.within c hc) with hin | hin
          · exact hp hin
          · exact hcurrent hin

/-- A failure that is not rolled back changes nothing exactly where, besides, the projection had
  nothing to change. -/
theorem unprotected_unchanged_iff (hs : s.Sound env) (hready : Ready env plan replacement ready s₁)
    (hext : Extends s.restored s₁) (hsettles : Settles env plan s ready s₁) :
    Unchanged env s ((s₁.recorded ready.manifest).project ready.projections) ↔
      s.Calm ∧ s.Undisturbed plan.publicPaths ∧ Republishes env plan s := by
  have hframe := project_frame (s := s₁.recorded ready.manifest) ready.projections
  have hlook : ∀ locator generation, s.lookup locator = some generation →
    s₁.lookup locator = some generation := fun l g hl =>
    hext.lookup l g (by simpa [Store.lookup] using hl)
  have href : s₁.reference = s.reference := by simp [hext.reference]
  have hcur : s₁.currentFile = s.currentFile := currentFile_extends hs href hlook
  have hpaths : s₁.currentPaths = s.currentPaths := by
    ext p
    have hs₁ : s₁.Sound env := hext.sound hs.restored
    rw [← not_iff_not, ← currentFile_none_iff hs₁, ← currentFile_none_iff hs, hcur]
  rw [unchanged_iff (hframe.sound (hext.sound hs.restored)) (hframe.reference.trans href)]
  constructor
  · rintro ⟨hpub, hcalm⟩
    rw [recorded_calm_iff hs hready hext hframe.journal hframe.reference hframe.generations hpub]
      at hcalm
    have hsc : s.Calm := by
      intro j hj
      refine ⟨hcalm.1, fun p hp hnone => ?_⟩
      by_cases hnew : p ∈ plan.publicPaths
      · exact hcalm.2 p hnew hnone
      · -- the replay before the publication removed it, and the publication did not touch it
        have hcurrent := (currentFile_none_iff hs).mp hnone
        rw [← hpub, hframe.files p]
        · change s₁.publicFiles p = none
          rw [hext.publicFiles]
          exact restored_removed hj hcurrent hp
        · intro hmem
          obtain ⟨c, hc, rfl⟩ := List.mem_map.mp hmem
          rcases Finset.mem_union.mp (hready.within c hc) with hin | hin
          · exact hnew (hready.publicPaths ▸ hin)
          · exact hcurrent (hpaths ▸ hin)
    refine ⟨hsc, hcalm, (project_eq_iff hready hsettles hpaths ?_).mp hpub⟩
    exact hext.publicFiles.trans (calm_iff.mpr hsc)
  · rintro ⟨hsc, hundisturbed, hsame⟩
    have hpub := (project_eq_iff hready hsettles hpaths
      (hext.publicFiles.trans (calm_iff.mpr hsc))).mpr hsame
    refine ⟨hpub, ?_⟩
    rw [recorded_calm_iff hs hready hext hframe.journal hframe.reference hframe.generations hpub]
    exact hundisturbed

/-- How a publication fails, from a sound store. -/
theorem publish_fails {step : Step} {e : ArtifactPublicationFailure}
    (hrun : (publishManagedGeneration env plan replacement).run fate s = (.failed step e, s')) :
    EndsEarly (Untouched env s) step s' ∨ ∃ ready s₁, Extends s.restored s₁ ∧
      Ready env plan replacement ready s₁ ∧ Settles env plan s ready s₁ ∧ Fails fate s₁ ready step s' := by
  have hspec : Meets fate (fun s₀ => s₀ = s) (publishManagedGeneration env plan replacement)
    ⟨fun _ _ => True, fun step _ s' => EndsEarly (Untouched env s) step s' ∨ ∃ ready s₁,
      Extends s.restored s₁ ∧ Ready env plan replacement ready s₁ ∧ Settles env plan s ready s₁ ∧
      Fails fate s₁ ready step s', fun _ => True⟩ := by
    refine meets_bind (prepare_spec.weaken (fun _ he => he) (fun _ _ hd => hd)
      (fun _ _ _ hf => .inl hf) fun _ _ => trivial) fun ready => ?_
    refine meets_of_start fun s₁ hs₁ => ?_
    exact (publish_spec hs₁.2.1).weaken (fun _ he => he) (fun _ _ _ => trivial)
      (fun _ _ _ hf => .inr ⟨ready, s₁, hs₁.1, hs₁.2.1, hs₁.2.2, hf⟩) fun _ _ => trivial
  exact hspec.hold rfl hrun

/-- **A failed publication changes nothing public exactly where its failure is harmless**, as long as
  its own rollback does not fail. -/
theorem failed_publication_unchanged_iff (env : Environment Path) (plan : ManagedPlan Path)
    (replacement : ReplacementPolicy) (fate : Step → Fate Cause) (s s' : Store Path) (step : Step)
    (e : ArtifactPublicationFailure) (hsound : s.Sound env) (hrollback : ¬ RollbackFails fate)
    (hrun : (publishManagedGeneration env plan replacement).run fate s = (.failed step e, s')) :
    Unchanged env s s' ↔ Harmless env plan s step := by
  rcases publish_fails hrun with ⟨hearly, huntouched⟩ | ⟨ready, s₁, hext, hready, hsettles, hfails⟩
  · rw [early_unchanged_iff hsound huntouched]
    exact ⟨fun h => ⟨h, fun hnot => absurd hearly hnot, fun hnot => absurd hnot hearly.2⟩, fun h => h.calm⟩
  rcases hfails with ⟨rfl, hearly, _⟩ | ⟨rfl, hrecorded⟩ | ⟨rfl, hunprotected⟩ | ⟨_, hfailed⟩
  · rw [early_unchanged_iff hsound (.inr hext)]
    exact ⟨fun h => ⟨h, fun hnot => absurd hearly hnot, fun hnot => absurd hnot hearly.2⟩, fun h => h.calm⟩
  · rw [recorded_unchanged_iff hsound hready hext]
    have hprotected : ¬ step.IsUnprotected := by
      cases step <;> simp_all [Step.IsUnprotected, Step.IsRecorded]
    exact ⟨fun h => ⟨h.1, fun _ => h.2, fun hnot => absurd hnot hprotected⟩,
      fun h => ⟨h.calm, h.undisturbed fun hearly => hearly.1 hrecorded⟩⟩
  · rw [unprotected_unchanged_iff hsound hready hext hsettles]
    exact ⟨fun h => ⟨h.1, fun _ => h.2.1, fun _ => h.2.2⟩,
      fun h => ⟨h.calm, h.undisturbed fun hearly => hearly.2 hunprotected, h.republishes hunprotected⟩⟩
  · exact absurd hfailed hrollback

end

/-! ## 4. The lease that cannot be acquired -/

/-- Only the lease of the new generation fails. -/
def leaseFails (step : Step) : Fate Cause :=
  if step = .lease then .fails (.io .permissionDenied) else .proceeds

theorem leaseFails_rolls_back : ¬ RollbackFails leaseFails := by
  intro h
  obtain ⟨step, hstep, cause, hfate⟩ := h
  cases step <;> simp_all [Step.IsRollback, leaseFails]

theorem freshStore_sound : freshStore.Sound plainEnvironment where
  journal _ hj := by cases hj
  reference _ href := by cases href
  readable _ href := by cases href

theorem lease_failure_run : ((publishManagedGeneration plainEnvironment oneArtifact .replaceExisting).run leaseFails
      freshStore).1 = .failed .lease (.failed (.storage (.io .lock .permissionDenied))) := by
  decide +kernel

theorem failed_lease_harmless_iff : Unchanged plainEnvironment freshStore
    ((publishManagedGeneration plainEnvironment oneArtifact .replaceExisting).run leaseFails
      freshStore).2 ↔ Harmless plainEnvironment oneArtifact freshStore .lease :=
  failed_publication_unchanged_iff plainEnvironment oneArtifact .replaceExisting leaseFails freshStore
    _ .lease (.failed (.storage (.io .lock .permissionDenied))) freshStore_sound leaseFails_rolls_back
    (Prod.ext lease_failure_run rfl)

/-- **The failure of the lease leaves the new file in place of the user's.** -/
theorem failed_lease_replaces_files : ¬ ∀ (fate : Step → Fate Cause) (s s' : Store Nat) (step : Step)
    (e : ArtifactPublicationFailure), s.Sound plainEnvironment → ¬ RollbackFails fate →
    (publishManagedGeneration plainEnvironment oneArtifact .replaceExisting).run fate s =
      (.failed step e, s') → Unchanged plainEnvironment s s' := by
  intro h
  have hunchanged := h leaseFails freshStore _ .lease _ freshStore_sound leaseFails_rolls_back
    (Prod.ext lease_failure_run rfl)
  have hbytes : (((publishManagedGeneration plainEnvironment oneArtifact .replaceExisting).run
    leaseFails freshStore).2.publicFiles 7).map File.bytes = some [65, 66] := by decide +kernel
  rw [hunchanged.publicFiles] at hbytes
  exact absurd hbytes (by decide)

end Bray.Publication
