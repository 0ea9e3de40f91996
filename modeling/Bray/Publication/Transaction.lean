/-
  File:      Bray/Publication/Transaction.lean
  Subject:   FROM THE JOURNAL TO THE REFERENCE.

  A prepared publication ends in one of four ways: with nothing written, with the journal written
  and every public file as before, with the public files of the new generation but without its
  reference, or published. Only the third is not meant to be.

  * `Ready.backups`, `Ready.distinct`, `Ready.artifact`, `Ready.stale` -- what the projections of a
    prepared publication do to each public path;
  * `Published` -- the reference names the new generation and the public files are its files;
  * `publish_spec` -- how `publishPrepared` ends.
-/
import Bray.Publication.Prepare

namespace Bray.Publication

open Lib List PreparedPublicProjection

variable {Path : Type} [LinearOrder Path]

/-! ## 1. The projections of a prepared publication -/

section Projections

variable {env : Environment Path} {plan : ManagedPlan Path} {replacement : ReplacementPolicy}
  {ready : PreparedPublication Path} {s : Store Path}

/-- The partner of an element in a pointwise related list. -/
theorem forall₂_partner {α β : Type} {r : α → β → Prop} {xs : List α} {ys : List β}
    (h : List.Forall₂ r xs ys) : (∀ y ∈ ys, ∃ x ∈ xs, r x y) ∧ ∀ x ∈ xs, ∃ y ∈ ys, r x y := by
  induction h with
  | nil => simp
  | cons hxy _ ih =>
    simp only [forall_mem_cons, exists_mem_cons_iff]
    exact ⟨⟨.inl hxy, fun y hy => .inr (ih.1 y hy)⟩, ⟨.inl hxy, fun x hx => .inr (ih.2 x hx)⟩⟩

theorem staleProjection_eq {p : Path} {c : PreparedPublicProjection Path}
    (h : s.staleProjection p = some c) : c.destination = p ∧ c.staged = none ∧ c.backup = s.backup p := by
  simp only [Store.staleProjection, Option.map_eq_some_iff] at h
  obtain ⟨backup, hbackup, rfl⟩ := h
  exact ⟨rfl, rfl, hbackup.symm⟩

section

variable (h : Ready env plan replacement ready s)
include h

theorem Ready.public_mem {p : Path} : p ∈ ready.manifest.publicPaths ↔ ∃ a ∈ plan.artifacts, a.published = p := by
  rw [h.manifest, mem_publicPaths, plan_manifest]
  simp [PreparedArtifact.staged]

/-- A projection is that of an artifact, or of a path only the current generation has. -/
theorem Ready.cases {c : PreparedPublicProjection Path}
    (hc : c ∈ ready.projections) : (∃ a ∈ plan.artifacts, Projects s ready.locator replacement a c) ∨
      ∃ p ∈ s.currentPaths \ ready.manifest.publicPaths, s.staleProjection p = some c := by
  obtain ⟨artifacts, hall, hprojections⟩ := h.projections
  rw [hprojections, mem_append] at hc
  rcases hc with hc | hc
  · exact .inl ((forall₂_partner hall).1 c hc)
  · obtain ⟨p, hp, hstale⟩ := mem_filterMap.mp hc
    exact .inr ⟨p, (Finset.mem_sort _).mp hp, hstale⟩

theorem Ready.backups : ∀ c ∈ ready.projections, c.backup = s.backup c.destination := by
  intro c hc
  rcases h.cases hc with ⟨a, _, hproj⟩ | ⟨p, _, hstale⟩
  · rw [hproj.backup, hproj.destination]
  · obtain ⟨hdest, _, hbackup⟩ := staleProjection_eq hstale
    rw [hbackup, hdest]

theorem Ready.within : ∀ c ∈ ready.projections, c.destination ∈ ready.manifest.publicPaths ∪ s.currentPaths := by
  intro c hc
  rw [Finset.mem_union]
  rcases h.cases hc with ⟨a, ha, hproj⟩ | ⟨p, hp, hstale⟩
  · exact .inl (h.public_mem.mpr ⟨a, ha, hproj.destination.symm⟩)
  · rw [(staleProjection_eq hstale).1]
    exact .inr (Finset.mem_sdiff.mp hp).1

/-- **No public path is projected twice.** -/
theorem Ready.distinct : (ready.projections.map destination).Nodup := by
  obtain ⟨artifacts, hall, hprojections⟩ := h.projections
  have hdest : artifacts.map destination =
    plan.artifacts.map PreparedArtifact.published := by
    have hmap := forall₂_map_left_iff.mpr
      (forall₂_map_right_iff.mpr (hall.imp fun a c hproj => hproj.destination.symm))
    rw [forall₂_eq_eq_eq] at hmap
    exact hmap.symm
  have hstale : ∀ ps : List Path, ((ps.filterMap s.staleProjection).map
    destination).Sublist ps := by
    intro ps
    induction ps with
    | nil => exact .slnil
    | cons p ps ih =>
      rw [filterMap_cons]
      match hp : s.staleProjection p with
      | none => exact ih.cons p
      | some c => exact (staleProjection_eq hp).1 ▸ ih.cons_cons _
  rw [hprojections, map_append, hdest, nodup_append]
  refine ⟨plan.published_distinct, (hstale _).nodup (Finset.sort_nodup _ _), ?_⟩
  intro p hp q hq hpq
  subst hpq
  obtain ⟨a, ha, hap⟩ := mem_map.mp hp
  have hmem := (Finset.mem_sort _).mp ((hstale _).subset hq)
  exact (Finset.mem_sdiff.mp hmem).2 (h.public_mem.mpr ⟨a, ha, hap⟩)

/-- **The projected store holds every artifact of the new generation** at its public path. -/
theorem Ready.artifact (s' : Store Path) {a : PreparedArtifact Path} (ha : a ∈ plan.artifacts) :
    ∃ c file, Projects s ready.locator replacement a c ∧ s.stored ready.locator a.relative = some file ∧
      (s'.project ready.projections).publicFiles a.published = c.staged.map CompletedStagedFile.published ∧
      ((s'.project ready.projections).publicFiles a.published).map File.bytes = some file.bytes := by
  obtain ⟨artifacts, hall, hprojections⟩ := h.projections
  obtain ⟨c, hc, hproj⟩ := (forall₂_partner hall).2 a ha
  obtain ⟨file, hfile, hstaged⟩ := hproj.staged
  have hmem : c ∈ ready.projections := by simp [hprojections, hc]
  have hat : (s'.project ready.projections).publicFiles c.destination = _ :=
    project_at h.distinct hmem
  rw [hproj.destination] at hat
  exact ⟨c, file, hproj, hfile, hat, by simp [hat, hstaged, CompletedStagedFile.published]⟩

/-- **The projected store holds nothing at a stale path.** -/
theorem Ready.stale {s' : Store Path} (hs' : s'.publicFiles = s.publicFiles) {p : Path}
    (hp : p ∈ s.currentPaths \ ready.manifest.publicPaths) :
    (s'.project ready.projections).publicFiles p = none := by
  obtain ⟨artifacts, hall, hprojections⟩ := h.projections
  match hfile : s.publicFiles p with
  | some file =>
    have hstale : s.staleProjection p = some ⟨p, none, s.backup p⟩ := by
      simp [Store.staleProjection, Store.backup, hfile]
    have hmem : (⟨p, none, s.backup p⟩ : PreparedPublicProjection Path) ∈ ready.projections := by
      rw [hprojections, mem_append]
      exact .inr (mem_filterMap.mpr ⟨p, (Finset.mem_sort _).mpr hp, hstale⟩)
    exact project_at h.distinct hmem
  | none =>
    have hnot : p ∉ ready.projections.map destination := by
      intro hmem
      obtain ⟨c, hc, rfl⟩ := mem_map.mp hmem
      rcases h.cases hc with ⟨a, ha, hproj⟩ | ⟨q, _, hstale⟩
      · exact (Finset.mem_sdiff.mp hp).2 (h.public_mem.mpr ⟨a, ha, hproj.destination.symm⟩)
      · obtain ⟨hdest, _, _⟩ := staleProjection_eq hstale
        simp [Store.staleProjection, Store.backup, ← hdest, hfile] at hstale
    rw [(project_frame _).files p hnot, hs', hfile]

end

end Projections

/-! ## 2. How a prepared publication ends -/

def Store.recorded (s : Store Path) (manifest : GenerationManifest Path) : Store Path :=
  { s with journal := some ⟨REVISION, manifest.publicPaths⟩ }

def PreparedPublication.reference (ready : PreparedPublication Path) : GenerationReference :=
  .publish ⟨ready.locator, ready.identity⟩ ready.priorReference

/-- **The new generation is published**; the journal may still be there, and generations the new
  reference does not keep may be gone. -/
structure Published (s₁ : Store Path) (ready : PreparedPublication Path) (s : Store Path) : Prop where
  publicFiles : s.publicFiles = ((s₁.recorded ready.manifest).project ready.projections).publicFiles
  journal : s.journal = some ⟨REVISION, ready.manifest.publicPaths⟩ ∨ s.journal = none
  reference : s.reference = some ready.reference
  lookup : ∀ locator ∈ ready.reference.retained, s.lookup locator = s₁.lookup locator

/-- The journal is not written: one of the two steps of `record_publication` up to its rename does
  not proceed. -/
def Unrecorded (fate : Step → Fate Cause) : Prop :=
  fate .journalStage ≠ .proceeds ∨ fate .journalPromote ≠ .proceeds

/-- **How a publication fails** from `record_publication` on. -/
def Fails (fate : Step → Fate Cause) (s₁ : Store Path) (ready : PreparedPublication Path)
  (step : Step) (s : Store Path) : Prop :=
  (s = s₁ ∧ step.IsEarly ∧ Unrecorded fate) ∨ (s = s₁.recorded ready.manifest ∧ step.IsRecorded) ∨
    (s = (s₁.recorded ready.manifest).project ready.projections ∧ step.IsUnprotected) ∨
    (Frame (s₁.recorded ready.manifest)
      (ready.projections.map destination) s ∧ RollbackFails fate)

/-- **Where a publication is stopped** from `record_publication` on. -/
def Stops (fate : Step → Fate Cause) (s₁ : Store Path) (ready : PreparedPublication Path)
  (s : Store Path) : Prop :=
  (s = s₁ ∧ Unrecorded fate) ∨ Published s₁ ready s ∨ Frame (s₁.recorded ready.manifest)
      (ready.projections.map destination) s

section Spec

variable {env : Environment Path} {plan : ManagedPlan Path} {replacement : ReplacementPolicy}
  {ready : PreparedPublication Path} {s₁ : Store Path} {fate : Step → Fate Cause}

theorem recordPublication_spec {manifest : GenerationManifest Path} :
    Meets fate (fun s => s = s₁) (recordPublication manifest) ⟨fun _ s => s = s₁.recorded manifest,
      fun step _ s => (s = s₁ ∧ step.IsEarly ∧ Unrecorded fate) ∨ (s = s₁.recorded manifest ∧ step.IsRecorded),
      fun s => (s = s₁ ∧ Unrecorded fate) ∨ s = s₁.recorded manifest⟩ := by
  refine meets_bind (meets_check
    (fun s _ hs hfate => .inl ⟨hs, ⟨id, id⟩, .inl (by simp [hfate])⟩)
    fun s hs hfate => .inl ⟨hs, .inl (by simp [hfate])⟩) fun _ => ?_
  refine meets_bind (R := fun _ s => s = s₁.recorded manifest) ?_ fun _ => ?_
  · exact meets_write (fun s hs => hs ▸ rfl)
      (fun s _ hs hfate => .inl ⟨hs, ⟨id, id⟩, .inr (by simp [hfate])⟩)
      fun s hs hfate => .inl ⟨hs, .inr (by simp [hfate])⟩
  · exact meets_check (fun s _ hs _ => .inr ⟨hs, trivial⟩) fun s hs _ => .inr hs

/-- The steps of `commit_reference`. -/
def Step.IsReference : Step → Prop
  | .referenceCreate | .referenceWrite | .referenceFinish | .referencePoll | .referencePromote => True
  | _ => False

/-- The reference is committed, or nothing is changed. -/
theorem commitReference_spec {reference : GenerationReference} :
    Meets fate (fun s => s = s₁) (commitReference replacement reference)
    ⟨fun _ s => s = { s₁ with reference := some reference }, fun step _ s => s = s₁ ∧ step.IsReference,
      fun s => s = s₁ ∨ s = { s₁ with reference := some reference }⟩ := by
  refine meets_bind (meets_check (fun s _ hs _ => ⟨hs, trivial⟩) fun s hs _ => .inl hs) fun _ => ?_
  refine meets_bind (meets_check (fun s _ hs _ => ⟨hs, trivial⟩) fun s hs _ => .inl hs) fun _ => ?_
  refine meets_bind (meets_check (fun s _ hs _ => ⟨hs, trivial⟩) fun s hs _ => .inl hs) fun _ => ?_
  refine meets_bind (meets_checkCancelled (fun s hs _ => ⟨hs, trivial⟩) fun s hs _ => .inl hs)
    fun _ => ?_
  refine meets_bind (R := fun _ s => s = { s₁ with reference := some reference }) ?_ fun _ => ?_
  · refine meets_act (fun s a s' hs he => ?_) (fun s e hs _ => ⟨hs, trivial⟩)
      (fun s _ hs _ => ⟨hs, trivial⟩) fun s hs _ => .inl hs
    subst hs
    split at he
    · cases he
    · cases he
      rfl
  · exact meets_tolerate (meets_check (F := fun _ _ s => s = { s₁ with reference := some reference })
      (fun s _ hs _ => hs) fun s hs _ => .inr hs) (fun _ hs => hs) fun _ _ _ hs => hs

/-- Removing one generation leaves the others to be found. -/
theorem lookup_filter {s : Store Path} {locator locator' : List UInt8} (hne : locator' ≠ locator) :
  ({ s with generations := s.generations.filter fun entry => entry.1 ≠ locator } :
    Store Path).lookup locator' = s.lookup locator' := by
  change (s.generations.filter fun entry => entry.1 ≠ locator).lookup locator' = s.generations.lookup locator'
  induction s.generations with
  | nil => rfl
  | cons entry entries ih =>
    obtain ⟨key, generation⟩ := entry
    by_cases hkey : key = locator
    · subst hkey
      rw [filter_cons_of_neg (by simp), ih, lookup_cons, beq_false_of_ne hne]
    · rw [filter_cons_of_pos (by simpa using hkey), lookup_cons, lookup_cons, ih]

/-- Pruning keeps what was published: the reference keeps its own generation and the one before. -/
theorem retain_spec : Keeps fate (Published s₁ ready) (retainRecentGenerations env ready.reference) := by
  refine meets_bind (R := fun _ => Published s₁ ready) (meets_read fun s hs => hs) fun children => ?_
  refine meets_bind (R := fun _ => Published s₁ ready) ?_ fun _ => ?_
  · refine meets_eachFrom (I := fun _ => Published s₁ ready) (fun round locator rest => ?_) 0 children
    simp only [pruneGeneration]
    split
    · exact fun _ hs => hs
    · rename_i hretained
      refine meets_write (fun s hs => ?_) (fun s _ hs _ => hs) fun s hs _ => hs
      split
      · exact hs
      · refine ⟨hs.publicFiles, hs.journal, hs.reference, fun l hl => ?_⟩
        rw [lookup_filter fun he : l = locator => hretained (he ▸ hl)]
        exact hs.lookup l hl
  · exact meets_check (fun s _ hs _ => hs) fun s hs _ => hs

/-- **How a prepared publication ends.** -/
theorem publish_spec (h : Ready env plan replacement ready s₁) :
    Meets fate (fun s => s = s₁) (publishPrepared env replacement ready)
      ⟨fun _ => Published s₁ ready, fun step _ => Fails fate s₁ ready step, Stops fate s₁ ready⟩ := by
  have hrecorded : ∀ s, s = s₁.recorded ready.manifest → Stops fate s₁ ready s :=
    fun s hs => .inr (.inr (hs ▸ .refl _ _))
  have hprojected : ∀ s, s = (s₁.recorded ready.manifest).project ready.projections →
    Stops fate s₁ ready s := fun s hs => .inr (.inr (hs ▸ project_frame _))
  have hrolled : ∀ (steps : Step → Prop), (∀ step, steps step → step.IsRecorded) → ∀ step s,
    RolledBack fate (s₁.recorded ready.manifest)
      (ready.projections.map destination) steps step s →
    Fails fate s₁ ready step s := by
    intro steps hsteps step s hs
    rcases hs with ⟨rfl, hstep⟩ | hs
    · exact .inr (.inl ⟨rfl, hsteps step hstep⟩)
    · exact .inr (.inr (.inr hs))
  have hmem : ∀ c ∈ ready.projections, c.destination ∈ ready.projections.map destination :=
    fun c hc => mem_map_of_mem hc
  have hbackup : ∀ c ∈ ready.projections, c.backup = (s₁.recorded ready.manifest).backup c.destination := h.backups
  refine meets_bind (R := fun _ s => s = s₁.recorded ready.manifest) ?_ fun _ => ?_
  · refine meets_renamed (recordPublication_spec.weaken (fun _ hs => hs) (fun _ _ hd => hd)
      (fun step _ s hf => ?_) fun s hc => hc.elim .inl (hrecorded s))
    exact hf.elim .inl fun hf => .inr (.inl hf)
  refine meets_bind (R := fun committed s =>
    committed = ready.projections.map PreparedPublicProjection.committed ∧
    s = (s₁.recorded ready.manifest).project ready.projections) ?_ fun committed => ?_
  · refine (commit_spec [] ready.projections hmem hbackup 0).weaken (fun _ hs => hs)
      (fun _ _ hd => hd) (fun step _ s hf => hrolled _ (fun step hstep => ?_) step s hf)
      fun _ hc => .inr (.inr hc)
    cases step <;> first | trivial | cases hstep
  refine meets_of_start fun s hs => ?_
  obtain ⟨rfl, rfl⟩ := hs
  refine meets_bind (R := fun _ s => s = (s₁.recorded ready.manifest).project ready.projections) ?_
    fun _ => ?_
  · refine Meets.weaken (meets_rolledBack hmem hbackup (fun step => step = .projectionFlush)
      (fun _ hs => .inr (.inr hs)) (meets_check (fun s _ hs _ => ⟨hs, rfl⟩)
      fun s hs _ => hprojected s hs)) (fun _ hs => hs) (fun _ _ hd => hd)
      (fun step _ s hf => hrolled (fun step => step = .projectionFlush) (fun step hstep => ?_) step s hf)
      fun _ hc => hc
    exact hstep ▸ trivial
  refine meets_bind (meets_check (fun s _ hs _ => .inr (.inr (.inl ⟨hs, trivial⟩)))
    fun s hs _ => hprojected s hs) fun _ => ?_
  refine meets_bind (meets_renamed (E := Fails fate s₁ ready)
    (meets_check (fun s _ hs _ => .inr (.inr (.inl ⟨hs, trivial⟩))) fun s hs _ => hprojected s hs))
    fun _ => ?_
  have hpublished : ∀ s, s = { (s₁.recorded ready.manifest).project ready.projections with
    reference := some ready.reference } → Published s₁ ready s := by
    intro s hs
    subst hs
    have hframe := project_frame (s := s₁.recorded ready.manifest) ready.projections
    refine ⟨rfl, .inl hframe.journal, rfl, fun locator _ => ?_⟩
    simp only [Store.lookup, hframe.generations]
    rfl
  refine meets_bind (R := fun _ => Published s₁ ready) ?_ fun referenceWarning => ?_
  · refine Meets.weaken (meets_rolledBack hmem hbackup Step.IsReference
      (fun _ hs => .inr (.inr hs)) (commitReference_spec.weaken (fun _ hs => hs)
        (fun _ s hd => hpublished s hd) (fun _ _ _ hf => hf)
        fun s hc => hc.elim (hprojected s) fun hc => .inr (.inl (hpublished s hc))))
      (fun _ hs => hs) (fun _ _ hd => hd)
      (fun step _ s hf => hrolled Step.IsReference (fun step hstep => ?_) step s hf) fun _ hc => hc
    cases step <;> first | trivial | cases hstep
  -- from here on every failure is a warning
  have hstops : ∀ s, Published s₁ ready s → Stops fate s₁ ready s := fun s hs => .inr (.inl hs)
  refine meets_bind (R := fun _ => Published s₁ ready) ?_ fun journalWarning => ?_
  · refine meets_tolerate (meets_renamed (E := fun _ => Published s₁ ready)
      (completePublication_spec (P := Published s₁ ready) (Q := Published s₁ ready)
        (fun s hs => ⟨hs.publicFiles, .inr rfl, hs.reference, hs.lookup⟩)
        (fun _ _ s _ hs _ => hs.elim id id) fun s hs _ => hstops s (hs.elim id id)))
      (fun _ hs => hs) fun _ _ _ hs => hs
  refine meets_bind (R := fun _ => Published s₁ ready)
    (meets_poll (fun _ hs => hs) (fun _ hs _ => hs) fun s hs _ => hstops s hs) fun cancelled => ?_
  by_cases hskip : cancelled = true ∨ journalWarning.isSome = true
  · simp only [if_pos hskip]
    exact fun _ hs => hs
  · simp only [if_neg hskip]
    refine meets_bind (R := fun _ => Published s₁ ready) ?_ fun retentionWarning => fun _ hs => hs
    exact meets_tolerate (meets_renamed (E := fun _ => Published s₁ ready) (retain_spec.weaken
      (fun _ hs => hs) (fun _ _ hd => hd) (fun _ _ _ hf => hf) hstops)) (fun _ hs => hs)
      fun _ _ _ hs => hs

end Spec

end Bray.Publication
