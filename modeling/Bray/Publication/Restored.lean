/-
  File:      Bray/Publication/Restored.lean
  Subject:   WHAT A REPLAY OF THE JOURNAL LEADS TO.

  The replay works on the public files one path at a time, and every path it has handled holds
  already what it will hold at the end. So a replay that is cut short changes nothing about where
  the next one ends: the permissions a copy preserves are those the copy before it left.

  * `Store.currentFile`, `Store.currentPaths` -- what the reference names;
  * `Store.restored` -- the store a replay leads to;
  * `Replaying` -- the store in the middle of a replay; `Replaying.restored_eq`;
  * `Store.Readable` -- the generation the reference names is there and whole;
  * `recover_spec` -- however a replay ends, it is on the way to `Store.restored`, and where it
    completes it is there; `recover_completes` -- it completes where nothing fails;
  * `recover_attempts` -- cut short and begun again any number of times, it ends there too.
-/
import Bray.Publication.Recover
import Bray.Lib.Check

namespace Bray.Publication

open Lib List

variable {Path : Type} [LinearOrder Path]

/-! ## 1. The store a replay leads to -/

def Store.current (s : Store Path) : Option (Generation Path) :=
  s.reference.bind fun reference => s.lookup reference.current.locator

/-- The file of that generation whose public path is `p`. -/
def Store.currentFile (s : Store Path) (p : Path) : Option File :=
  s.current.bind fun generation =>
    (generation.manifest.artifacts.find? fun artifact => artifact.publishedPath = p).bind
      fun artifact => generation.files artifact.path

def Store.currentPaths (s : Store Path) : Finset Path :=
  s.current.elim ∅ fun generation => generation.manifest.publicPaths

/-- What a replay of a journal with these paths makes of one public path. -/
def Store.restoredFile (s : Store Path) (paths : Finset Path) (p : Path) : Option File :=
  match s.currentFile p with
  | some source =>
    some ⟨source.bytes, ((s.publicFiles p).map File.permissions).getD source.permissions⟩
  | none => if p ∈ paths then none else s.publicFiles p

/-- **The store a replay leads to.** -/
def Store.restored (s : Store Path) : Store Path :=
  match s.journal with
  | none => s
  | some journal =>
    { s with publicFiles := s.restoredFile journal.paths, journal := none }

/-- The generation the reference names is there, its manifest is valid and its files are whole. -/
def Store.Readable (env : Environment Path) (s : Store Path) : Prop :=
  ∀ reference, s.reference = some reference → ∃ generation, s.lookup reference.current.locator = some generation ∧
    s.manifest env reference.current = .ok generation.manifest ∧
    ∀ artifact ∈ generation.manifest.artifacts,
      validateArtifactFile env (generation.files artifact.path) artifact = .ok ()

section

variable {env : Environment Path} {s s₀ : Store Path} {paths : Finset Path} {p : Path}

theorem Store.current_eq {generation : Generation Path} {reference : GenerationReference}
    (href : s.reference = some reference) (hlook : s.lookup reference.current.locator = some generation) :
    s.current = some generation := by
  simp [Store.current, href, hlook]

theorem Store.currentFile_congr (href : s.reference = s₀.reference)
    (hgen : s.generations = s₀.generations) : s.currentFile = s₀.currentFile := by
  funext p
  simp [Store.currentFile, Store.current, Store.lookup, href, hgen]

variable {manifest : GenerationManifest Path}

/-- A valid manifest names every public path once. -/
theorem validateManifest_ok (h : validateManifest manifest = .ok ()) :
    (manifest.artifacts.map fun a => (a.kind, a.ordinal)).Nodup ∧
      (manifest.artifacts.map ManifestArtifact.path).Nodup ∧
      (manifest.artifacts.map ManifestArtifact.publishedPath).Nodup := by
  simp only [validateManifest] at h
  split at h
  · assumption
  · cases h

theorem manifest_ok {entry : GenerationReferenceEntry} (h : s.manifest env entry = .ok manifest) : ∃ generation,
      s.lookup entry.locator = some generation ∧ generation.manifest = manifest ∧
      env.manifestDigest manifest = entry.manifestDigest ∧ validateManifest manifest = .ok () := by
  simp only [Store.manifest] at h
  split at h
  · cases h
  · rename_i generation hlook
    split at h
    · cases h
    · rename_i hdigest
      obtain ⟨_, hvalid, h⟩ := except_bind_eq_ok.mp h
      cases h
      exact ⟨generation, hlook, rfl, not_not.mp hdigest, hvalid⟩

/-- The artifact a search by public path finds in a list that names every path once. -/
theorem find_published {artifacts : List (ManifestArtifact Path)}
    (hnodup : (artifacts.map ManifestArtifact.publishedPath).Nodup)
    {artifact : ManifestArtifact Path} (h : artifact ∈ artifacts) :
    artifacts.find? (fun a => a.publishedPath = artifact.publishedPath) = some artifact := by
  induction artifacts with
  | nil => cases h
  | cons a artifacts ih =>
    rw [map_cons, nodup_cons] at hnodup
    rcases mem_cons.mp h with rfl | h
    · simp
    · have hne : a.publishedPath ≠ artifact.publishedPath := fun he =>
        hnodup.1 (he ▸ mem_map_of_mem h)
      rw [find?_cons_of_neg (by simpa using hne)]
      exact ih hnodup.2 h

theorem mem_publicPaths : p ∈ manifest.publicPaths ↔ ∃ a ∈ manifest.artifacts, a.publishedPath = p := by
  simp [GenerationManifest.publicPaths]

theorem currentFile_none (h : p ∉ s.currentPaths) : s.currentFile p = none := by
  simp only [Store.currentFile, Store.currentPaths] at h ⊢
  match hcur : s.current with
  | none => rfl
  | some generation =>
    rw [hcur] at h
    have hfind : (generation.manifest.artifacts.find? fun a => a.publishedPath = p) = none := by
      rw [find?_eq_none]
      intro a ha hp
      exact h (mem_publicPaths.mpr ⟨a, ha, by simpa using hp⟩)
    simp [hfind]

/-- **A path that holds what the replay gives it is given the same again.** -/
theorem restoredFile_again (hcur : s.currentFile p = s₀.currentFile p)
    (hfile : s.publicFiles p = s₀.publicFiles p ∨ s.publicFiles p = s₀.restoredFile paths p) :
    s.restoredFile paths p = s₀.restoredFile paths p := by
  simp only [Store.restoredFile, hcur] at hfile ⊢
  match hsource : s₀.currentFile p with
  | none =>
    rw [hsource] at hfile
    by_cases hp : p ∈ paths
    · simp [hp]
    · simpa [hp] using hfile
  | some source =>
    rw [hsource] at hfile
    rcases hfile with hfile | hfile <;> simp [hfile]

end

/-! ## 2. The middle of a replay -/

/-- **The store in the middle of a replay from `s₀`**: every path has its first or its last
  content, and only the pending ones may still have their first. -/
structure Replaying (s₀ : Store Path) (paths : Finset Path) (pending : Path → Prop)
  (s : Store Path) : Prop where
  journal : s.journal = s₀.journal
  reference : s.reference = s₀.reference
  generations : s.generations = s₀.generations
  files : ∀ p, s.publicFiles p = s₀.publicFiles p ∨ s.publicFiles p = s₀.restoredFile paths p
  settled : ∀ p, ¬ pending p → s.publicFiles p = s₀.restoredFile paths p

namespace Replaying

variable {env : Environment Path} {s s₀ : Store Path} {paths : Finset Path}
  {pending pending' : Path → Prop} {p : Path}

theorem start : Replaying s₀ paths (fun p => p ∈ s₀.currentPaths ∨ p ∈ paths) s₀ where
  journal := rfl
  reference := rfl
  generations := rfl
  files _ := .inl rfl
  settled p hp := by
    obtain ⟨hcur, hp⟩ := not_or.mp hp
    simp [Store.restoredFile, currentFile_none hcur, hp]

section

variable (h : Replaying s₀ paths pending s)
include h

theorem mono (hp : ∀ p, pending p → pending' p) : Replaying s₀ paths pending' s :=
  { h with settled := fun p hn => h.settled p fun hpend => hn (hp p hpend) }

/-- What the replay still has to do can be forgotten. -/
theorem forget : Replaying s₀ paths (fun _ => True) s :=
  h.mono fun _ _ => trivial

theorem currentFile : s.currentFile = s₀.currentFile :=
  Store.currentFile_congr h.reference h.generations

theorem stored (locator : List UInt8) (path : Path) : s.stored locator path = s₀.stored locator path := by
  simp [Store.stored, Store.lookup, h.generations]

/-- **Giving one path its last content** takes it off the pending ones. -/
theorem set {file : Option File}
    (hfile : file = s₀.restoredFile paths p) : Replaying s₀ paths (fun q => pending q ∧ q ≠ p)
    { s with publicFiles := Function.update s.publicFiles p file } where
  journal := h.journal
  reference := h.reference
  generations := h.generations
  files q := by
    by_cases hq : q = p
    · subst hq
      exact .inr (by simp [hfile])
    · simpa [hq] using h.files q
  settled q hn := by
    by_cases hq : q = p
    · subst hq
      simp [hfile]
    · simpa [hq] using h.settled q fun hpend => hn ⟨hpend, hq⟩

end

/-- **A replay that was cut short is on its way to the same store.** -/
theorem restored_eq {j : PendingPublication Path} (h : Replaying s₀ j.paths pending s)
    (hj : s₀.journal = some j) : s.restored = s₀.restored := by
  have hfiles : s.restoredFile j.paths = s₀.restoredFile j.paths := by
    funext p
    exact restoredFile_again (congrFun h.currentFile p) (h.files p)
  simp [Store.restored, h.journal.trans hj, hj, hfiles, h.reference, h.generations]

/-- With nothing pending, only the journal is left to remove. -/
theorem finish {j : PendingPublication Path} (h : Replaying s₀ j.paths (fun _ => False) s)
    (hj : s₀.journal = some j) : { s with journal := none } = s₀.restored := by
  have hfiles : s.publicFiles = s₀.restoredFile j.paths := funext fun p => h.settled p id
  simp [Store.restored, hj, hfiles, h.reference, h.generations]

end Replaying

/-- A store without a journal is where its replay leads. -/
theorem restored_of_none {s : Store Path} (h : s.journal = none) : s.restored = s := by
  simp [Store.restored, h]

@[simp] theorem restored_journal (s : Store Path) : s.restored.journal = none := by
  simp only [Store.restored]
  split
  · assumption
  · rfl

@[simp] theorem restored_reference (s : Store Path) : s.restored.reference = s.reference := by
  simp only [Store.restored]
  split <;> rfl

@[simp] theorem restored_generations (s : Store Path) : s.restored.generations = s.generations := by
  simp only [Store.restored]
  split <;> rfl

/-- **Where a replay can end**: in the middle, or restored, or with nothing done. -/
def OnTheWay (env : Environment Path) (s₀ s : Store Path) : Prop :=
  (∃ j, s₀.journal = some j ∧ Replaying s₀ j.paths (fun _ => True) s) ∨
    (s = s₀.restored ∧ (s₀.journal.isSome → s₀.Readable env)) ∨ s = s₀

section

variable {env : Environment Path} {s s₀ : Store Path}

theorem OnTheWay.restored_eq (h : OnTheWay env s₀ s) : s.restored = s₀.restored := by
  rcases h with ⟨j, hj, h⟩ | ⟨rfl, _⟩ | rfl
  · exact h.restored_eq hj
  · exact restored_of_none (restored_journal s₀)
  · rfl

theorem OnTheWay.reference (h : OnTheWay env s₀ s) : s.reference = s₀.reference := by
  rcases h with ⟨j, _, h⟩ | ⟨rfl, _⟩ | rfl
  · exact h.reference
  · simp
  · rfl

theorem OnTheWay.generations (h : OnTheWay env s₀ s) : s.generations = s₀.generations := by
  rcases h with ⟨j, _, h⟩ | ⟨rfl, _⟩ | rfl
  · exact h.generations
  · simp
  · rfl

theorem Store.Readable.congr (h : s.Readable env) (href : s.reference = s₀.reference)
    (hgen : s.generations = s₀.generations) : s₀.Readable env := by
  intro reference hsome
  obtain ⟨generation, hlook, hmanifest, hvalid⟩ := h reference (href.trans hsome)
  refine ⟨generation, ?_, ?_, hvalid⟩
  · simpa [Store.lookup, hgen] using hlook
  · simpa [Store.manifest, Store.lookup, hgen] using hmanifest

end

/-! ## 3. The replay -/

/-- **A store the code left whole**: its journal and its reference have the current revision, and
  the generation the reference names is readable. -/
structure Store.Sound (env : Environment Path) (s : Store Path) : Prop where
  journal : ∀ j, s.journal = some j → j.revision = REVISION
  reference : ∀ reference, s.reference = some reference → reference.check = .ok ()
  readable : s.Readable env

def Troubled (fate : Step → Fate Cause) : Prop := ∃ step, fate step ≠ .proceeds

theorem Troubled.of_fails {fate : Step → Fate Cause} {step : Step} {cause : Cause}
    (h : fate step = .fails cause) : Troubled fate :=
  ⟨step, by simp [h]⟩

theorem Troubled.of_stops {fate : Step → Fate Cause} {step : Step} (h : fate step = .stops) : Troubled fate :=
  ⟨step, by simp [h]⟩

section Spec

variable {env : Environment Path} {s₀ : Store Path} {fate : Step → Fate Cause}
  {Error : Type} {P : Store Path → Prop} {R : Unit → Store Path → Prop}
  {F : Step → Error → Store Path → Prop} {C : Store Path → Prop}

theorem meets_checkCancelled {step : Step} {cancelled : Error}
    (hF : ∀ s, P s → fate step ≠ .proceeds → F step cancelled s) (hC : ∀ s, P s → fate step = .stops → C s) :
    Meets fate P (checkCancelled step cancelled : Operation Path Error Unit) ⟨fun _ => P, F, C⟩ := by
  refine meets_bind (R := fun b s => P s ∧ (b = true → fate step ≠ .proceeds)) ?_ fun b => ?_
  · exact meets_poll (fun s hs => ⟨hs, by simp⟩) (fun s hs hfate => ⟨hs, fun _ => hfate⟩) hC
  · cases b with
    | false => exact fun _ hs => hs.1
    | true => exact fun s hs => hF s hs.1 (hs.2 rfl)

omit [LinearOrder Path] in
/-- A staged copy is of the source as it was, for the destination as it was. -/
theorem meets_stageOwnedCopy {step : Step} {source : Store Path → Option File}
    {destination : Path} {replacement : FileReplacementMode}
    {R : CompletedStagedFile → Store Path → Prop} {F : Step → StorageErrorKind → Store Path → Prop}
    (hR : ∀ s file, P s → source s = some file →
      R ⟨file, if replacement = .replaceExisting then (s.publicFiles destination).map File.permissions
        else none, replacement⟩ s) (hnone : ∀ s e, P s → source s = none → F step e s)
    (hF : ∀ s e, P s → Troubled fate → F step e s) (hC : ∀ s, P s → Troubled fate → C s) :
    Meets fate P (stageOwnedCopy step source destination replacement) ⟨R, F, C⟩ := by
  refine meets_act (fun s a s' hs he => ?_) (fun s e hs he => ?_)
    (fun s cause hs hfate => hF s _ hs (.of_fails hfate)) fun s hs hfate => hC s hs (.of_stops hfate)
  · split at he
    · cases he
    · rename_i file hsource
      cases he
      exact hR s file hs hsource
  · split at he
    · exact hnone s e hs ‹_›
    · cases he

omit [LinearOrder Path] in
/-- A removed journal is not written again by the flush after it. -/
theorem completePublication_spec {remove flush : Step} {Q : Store Path → Prop}
    {F : Step → StorageErrorKind → Store Path → Prop}
  (h : ∀ s, P s → Q { s with journal := none })
  (hF : ∀ step e s, step = remove ∨ step = flush → P s ∨ Q s → Troubled fate → F step e s)
  (hC : ∀ s, P s ∨ Q s → Troubled fate → C s) :
  Meets fate P (completePublication remove flush) ⟨fun _ => Q, F, C⟩ := by
  refine meets_bind (R := fun _ => Q) ?_ fun removed => ?_
  · refine meets_act (fun s a s' hs he => ?_) (fun s e _ he => ?_)
      (fun s cause hs hfate => hF _ _ s (.inl rfl) (.inl hs) (.of_fails hfate))
      fun s hs hfate => hC s (.inl hs) (.of_stops hfate)
    · cases he
      exact h s hs
    · cases he
  · cases removed with
    | false => exact fun _ hs => hs
    | true =>
      exact meets_check (fun s _ hs hfate => hF _ _ s (.inr rfl) (.inr hs) (.of_fails hfate))
        fun s hs hfate => hC s (.inr hs) (.of_stops hfate)

variable {paths : Finset Path} {generation : Generation Path} {reference : GenerationReference}

def Step.IsRecovery : Step → Prop
  | .recovery _ => True
  | _ => False

/-- A replay of a sound store is cut short by a step that does not proceed. -/
def CutShort (env : Environment Path) (fate : Step → Fate Cause) (s₀ : Store Path)
  (paths : Finset Path) (s : Store Path) : Prop :=
  Replaying s₀ paths (fun _ => True) s ∧ (s₀.Sound env → Troubled fate)

section

variable (href : s₀.reference = some reference) (hlook : s₀.lookup reference.current.locator = some generation) (hnodup : (generation.manifest.artifacts.map ManifestArtifact.publishedPath).Nodup)
include href hlook hnodup

/-- One round: the artifact's public path gets its last content. -/
theorem recoverArtifact_spec {artifact : ManifestArtifact Path} (hmem : artifact ∈ generation.manifest.artifacts)
    (pending : Path → Prop) (round : Nat) : Meets fate (Replaying s₀ paths pending)
      (recoverArtifact env reference.current.locator round artifact)
      ⟨fun _ s => Replaying s₀ paths (fun q => pending q ∧ q ≠ artifact.publishedPath) s ∧
         validateArtifactFile env (generation.files artifact.path) artifact = .ok (),
        fun step _ s => step.IsRecovery ∧ CutShort env fate s₀ paths s, CutShort env fate s₀ paths⟩ := by
  have hstored : ∀ s, Replaying s₀ paths pending s →
    s.stored reference.current.locator artifact.path = generation.files artifact.path := by
    intro s hs
    rw [hs.stored]
    simp [Store.stored, hlook]
  have hcurrent : s₀.currentFile artifact.publishedPath = generation.files artifact.path := by
    simp [Store.currentFile, Store.current_eq href hlook, find_published hnodup hmem]
  have hsound : s₀.Sound env → validateArtifactFile env (generation.files artifact.path) artifact = .ok () := by
    intro hsound
    obtain ⟨generation', hlook', _, hvalid⟩ := hsound.readable reference href
    cases hlook.symm.trans hlook'
    exact hvalid artifact hmem
  refine meets_bind (meets_checkCancelled (fun s hs hfate => ⟨trivial, hs.forget, fun _ => ⟨_, hfate⟩⟩)
    fun s hs hfate => ⟨hs.forget, fun _ => .of_stops hfate⟩) fun _ => ?_
  refine meets_bind (R := fun _ s => Replaying s₀ paths pending s ∧
    validateArtifactFile env (generation.files artifact.path) artifact = .ok ()) ?_ fun _ => ?_
  · refine meets_act (fun s a s' hs he => ?_) (fun s e hs he => ⟨trivial, hs.forget, fun hs₀ => ?_⟩)
      (fun s _ hs hfate => ⟨trivial, hs.forget, fun _ => .of_fails hfate⟩)
      fun s hs hfate => ⟨hs.forget, fun _ => .of_stops hfate⟩
    · obtain ⟨_, hvalid, he⟩ := except_bind_eq_ok.mp he
      cases he
      exact ⟨hs, hstored s hs ▸ hvalid⟩
    · simp [hstored s hs, hsound hs₀] at he
  refine meets_bind (meets_check (fun s _ hs hfate => ⟨trivial, hs.1.forget, fun _ => .of_fails hfate⟩)
    fun s hs hfate => ⟨hs.1.forget, fun _ => .of_stops hfate⟩) fun _ => ?_
  refine meets_bind (R := fun copy s => (Replaying s₀ paths pending s ∧
    validateArtifactFile env (generation.files artifact.path) artifact = .ok ()) ∧
    some copy.published = s₀.restoredFile paths artifact.publishedPath ∧
    copy.replacement = .replaceExisting) ?_ fun copy => ?_
  · refine meets_stageOwnedCopy (fun s file hs hsource => ⟨hs, ?_, rfl⟩)
      (fun s _ hs hsource => ⟨trivial, hs.1.forget, fun _ => ?_⟩)
      (fun s _ hs hfate => ⟨trivial, hs.1.forget, fun _ => hfate⟩)
      fun s hs hfate => ⟨hs.1.forget, fun _ => hfate⟩
    · rw [hstored s hs.1] at hsource
      rw [← restoredFile_again (congrFun hs.1.currentFile _) (hs.1.files _)]
      simp [Store.restoredFile, hs.1.currentFile, hcurrent, hsource, CompletedStagedFile.published]
    · -- the file was there when it was validated
      rw [hstored s hs.1] at hsource
      rw [hsource] at hs
      cases hs.2
  refine meets_bind (R := fun _ s =>
    Replaying s₀ paths (fun q => pending q ∧ q ≠ artifact.publishedPath) s ∧
    validateArtifactFile env (generation.files artifact.path) artifact = .ok ()) ?_ fun _ => ?_
  · refine meets_act (fun s a s' hs he => ?_) (fun s e hs he => ?_)
      (fun s _ hs hfate => ⟨trivial, hs.1.1.forget, fun _ => .of_fails hfate⟩)
      fun s hs hfate => ⟨hs.1.1.forget, fun _ => .of_stops hfate⟩
    · split at he
      · cases he
      · cases he
        exact ⟨hs.1.1.set hs.2.1, hs.1.2⟩
    · simp [hs.2.2] at he
  · exact meets_check (fun s _ hs hfate => ⟨trivial, hs.1.forget, fun _ => .of_fails hfate⟩)
      fun s hs hfate => ⟨hs.1.forget, fun _ => .of_stops hfate⟩

/-- The copying loop: induction on the artifacts still to copy. -/
theorem recoverArtifacts_spec (artifacts : List (ManifestArtifact Path))
    (hsub : ∀ a ∈ artifacts, a ∈ generation.manifest.artifacts) (uncommitted : Finset Path) (round : Nat) :
    Meets fate (Replaying s₀ paths fun p => p ∈ artifacts.map ManifestArtifact.publishedPath ∨ p ∈ uncommitted)
      (recoverArtifacts env reference.current.locator round artifacts uncommitted)
      ⟨fun left s => Replaying s₀ paths (fun p => p ∈ left) s ∧
         (∀ p ∈ left, p ∈ uncommitted ∧ p ∉ artifacts.map ManifestArtifact.publishedPath) ∧
         ∀ a ∈ artifacts, validateArtifactFile env (generation.files a.path) a = .ok (),
        fun step _ s => step.IsRecovery ∧ CutShort env fate s₀ paths s, CutShort env fate s₀ paths⟩ := by
  induction artifacts generalizing round uncommitted with
  | nil =>
    exact fun s hs => ⟨hs.mono fun p hp => by simpa using hp, fun p hp => ⟨hp, by simp⟩, by simp⟩
  | cons artifact artifacts ih =>
    have hmem := hsub artifact ((.head _) ..)
    refine meets_bind (recoverArtifact_spec href hlook hnodup hmem _ round) fun _ => ?_
    refine meets_of_start fun s hs => ?_
    have hrest := ih (fun a ha => hsub a (.tail _ ha))
      (uncommitted.erase artifact.publishedPath) (round + 1)
    refine hrest.weaken (fun s' he => ?_) (fun left s' hd => ⟨hd.1, ?_, ?_⟩)
      (fun _ _ _ hf => hf) fun _ hc => hc
    · subst he
      refine hs.1.mono fun p hp => ?_
      rw [map_cons, mem_cons] at hp
      rw [Finset.mem_erase]
      tauto
    · intro p hp
      obtain ⟨hleft, hrest⟩ := hd.2.1 p hp
      obtain ⟨hne, hleft⟩ := Finset.mem_erase.mp hleft
      exact ⟨hleft, by simpa [hne] using hrest⟩
    · intro a ha
      rcases mem_cons.mp ha with rfl | ha
      · exact hs.2
      · exact hd.2.2 a ha

end

/-- The removing loop gives a path no current artifact has its last content, which is none. -/
theorem removeUncommitted_spec (env : Environment Path) (round : Nat) (p : Path) (hp : p ∈ paths)
    (hcurrent : s₀.currentFile p = none) (pending : Path → Prop) :
    Meets fate (Replaying s₀ paths pending) (removeUncommitted round p)
      ⟨fun _ => Replaying s₀ paths (fun q => pending q ∧ q ≠ p),
        fun step _ s => step.IsRecovery ∧ CutShort env fate s₀ paths s, CutShort env fate s₀ paths⟩ := by
  refine meets_bind (meets_checkCancelled (fun s hs hfate => ⟨trivial, hs.forget, fun _ => ⟨_, hfate⟩⟩)
    fun s hs hfate => ⟨hs.forget, fun _ => .of_stops hfate⟩) fun _ => ?_
  refine meets_write (fun s hs => ?_) (fun s _ hs hfate => ⟨trivial, hs.forget, fun _ => .of_fails hfate⟩)
    fun s hs hfate => ⟨hs.forget, fun _ => .of_stops hfate⟩
  exact hs.set (by simp [Store.restoredFile, hcurrent, hp])

/-- What the copying leaves to the removing loop. -/
structure Copied (env : Environment Path) (s₀ : Store Path) (paths left : Finset Path)
  (s : Store Path) : Prop where
  replaying : Replaying s₀ paths (fun p => p ∈ left) s
  uncommitted : ∀ p ∈ left, p ∈ paths ∧ s₀.currentFile p = none
  readable : s₀.Readable env

theorem recoverCurrent_spec : Meets fate (fun s => s = s₀) (recoverCurrent env paths s₀.reference)
    ⟨Copied env s₀ paths, fun step _ s => step.IsRecovery ∧ CutShort env fate s₀ paths s, CutShort env fate s₀ paths⟩ := by
  have hstart : ∀ s, s = s₀ → Replaying s₀ paths (fun _ => True) s := by
    intro s hs
    subst hs
    exact Replaying.start.forget
  match href : s₀.reference with
  | none =>
    intro s hs
    subst hs
    have hcur : ∀ p, s.currentFile p = none := fun p => by
      simp [Store.currentFile, Store.current, href]
    refine ⟨Replaying.start.mono fun p hp => ?_, fun p hp => ⟨hp, hcur p⟩, by simp [Store.Readable, href]⟩
    simpa [Store.currentPaths, Store.current, href] using hp
  | some reference =>
    refine meets_bind (R := fun manifest s => s = s₀ ∧
      s₀.manifest env reference.current = .ok manifest) ?_ fun manifest => ?_
    · refine meets_act (fun s a s' hs he => ?_) (fun s e hs he => ⟨trivial, hstart s hs, fun hs₀ => ?_⟩)
        (fun s _ hs hfate => ⟨trivial, hstart s hs, fun _ => .of_fails hfate⟩)
        fun s hs hfate => ⟨hstart s hs, fun _ => .of_stops hfate⟩
      · subst hs
        obtain ⟨_, hmanifest, he⟩ := except_bind_eq_ok.mp he
        cases he
        exact ⟨rfl, hmanifest⟩
      · subst hs
        obtain ⟨generation, _, hmanifest, _⟩ := hs₀.readable reference href
        simp [hmanifest] at he
    refine meets_bind (meets_check
      (fun s _ hs hfate => ⟨trivial, hstart s hs.1, fun _ => .of_fails hfate⟩)
      fun s hs hfate => ⟨hstart s hs.1, fun _ => .of_stops hfate⟩) fun _ => ?_
    refine meets_of_start fun s hs => ?_
    obtain ⟨hs, hmanifest⟩ := hs
    subst hs
    obtain ⟨generation, hlook, rfl, _, hvalid⟩ := manifest_ok hmanifest
    have hcur := Store.current_eq href hlook
    refine (recoverArtifacts_spec href hlook (validateManifest_ok hvalid).2.2 _ (fun a ha => ha)
      paths 0).weaken (fun s' he => ?_) (fun left s' hd => ?_) (fun _ _ _ hf => hf) fun _ hc => hc
    · subst he
      refine Replaying.start.mono fun p hp => ?_
      simpa [Store.currentPaths, hcur, mem_publicPaths] using hp
    · refine ⟨hd.1, fun p hp => ⟨(hd.2.1 p hp).1, currentFile_none ?_⟩, ?_⟩
      · have hnot := (hd.2.1 p hp).2
        simpa [Store.currentPaths, hcur, mem_publicPaths] using hnot
      · intro reference' href'
        cases href.symm.trans href'
        exact ⟨generation, hlook, hmanifest, hd.2.2⟩

/-- **However a replay ends, it is on the way to the restored store**; where it completes it is
  there, and had something to copy from. -/
theorem recover_spec (s₀ : Store Path) : Meets fate (fun s => s = s₀) (recoverPublication env)
    ⟨fun _ s => s = s₀.restored ∧ (s₀.journal.isSome → s₀.Readable env),
      fun step _ s => step.IsRecovery ∧ OnTheWay env s₀ s ∧ (s₀.Sound env → Troubled fate),
      fun s => OnTheWay env s₀ s ∧ (s₀.Sound env → Troubled fate)⟩ := by
  have hstart : ∀ s, s = s₀ → OnTheWay env s₀ s := fun s hs => .inr (.inr hs)
  refine meets_bind (R := fun journal s => s = s₀ ∧ journal = s₀.journal) ?_ fun journal => ?_
  · refine meets_act (fun s a s' hs he => ?_) (fun s e hs he => ⟨trivial, hstart s hs, fun hs₀ => ?_⟩)
      (fun s _ hs hfate => ⟨trivial, hstart s hs, fun _ => .of_fails hfate⟩)
      fun s hs hfate => ⟨hstart s hs, fun _ => .of_stops hfate⟩
    · subst hs
      split at he
      · cases he
        exact ⟨rfl, by simp [*]⟩
      · split at he
        · cases he
        · cases he
          exact ⟨rfl, by simp [*]⟩
    · subst hs
      split at he
      · cases he
      · rename_i j hj
        simp [hs₀.journal j hj] at he
  refine meets_of_start fun s hs => ?_
  obtain ⟨hs, rfl⟩ := hs
  subst hs
  match hj : s.journal with
  | none =>
    intro s' hs'
    subst hs'
    exact ⟨(restored_of_none hj).symm, by simp⟩
  | some j =>
    have hcut : ∀ s', CutShort env fate s j.paths s' → OnTheWay env s s' ∧ (s.Sound env → Troubled fate) :=
      fun s' h => ⟨.inl ⟨j, hj, h.1⟩, h.2⟩
    refine meets_bind (R := fun reference s' => s' = s ∧ reference = s.reference) ?_
      fun reference => ?_
    · refine meets_act (fun s' a s'' hs he => ?_) (fun s' e hs he => ⟨trivial, hstart s' hs, fun hs₀ => ?_⟩)
        (fun s' _ hs hfate => ⟨trivial, hstart s' hs, fun _ => .of_fails hfate⟩)
        fun s' hs hfate => ⟨hstart s' hs, fun _ => .of_stops hfate⟩
      · subst hs
        split at he
        · cases he
          exact ⟨rfl, by simp [*]⟩
        · obtain ⟨_, _, he⟩ := except_bind_eq_ok.mp he
          cases he
          exact ⟨rfl, by simp [*]⟩
      · subst hs
        split at he
        · cases he
        · rename_i reference href
          simp [hs₀.reference reference href] at he
    refine meets_bind (meets_check
      (fun s' _ hs hfate => ⟨trivial, hstart s' hs.1, fun _ => .of_fails hfate⟩)
      fun s' hs hfate => ⟨hstart s' hs.1, fun _ => .of_stops hfate⟩) fun _ => ?_
    refine meets_of_start fun s' hs => ?_
    obtain ⟨hs, rfl⟩ := hs
    subst hs
    refine meets_bind (R := Copied env s' j.paths) ?_ fun left => ?_
    · exact recoverCurrent_spec.weaken (fun _ he => he) (fun _ _ hd => hd) (fun _ _ s'' hf => ⟨hf.1, hcut s'' hf.2⟩)
        fun s'' hc => hcut s'' hc
    refine meets_bind (R := fun _ s'' => Copied env s' j.paths ∅ s'') ?_ fun _ => ?_
    · -- the invariant of the removing loop: only the paths still to come are pending
      refine (meets_eachFrom (I := fun ps s'' => Copied env s' j.paths ps.toFinset s'')
        (fun round p ps => ?_) 0 (left.sort (· ≤ ·))).weaken (fun s'' hs => ?_)
        (fun _ s'' hd => by simpa using hd) (fun _ _ _ hf => hf) fun _ hc => hc
      · refine meets_of_start fun s'' hs => ?_
        obtain ⟨hp, hcurrent⟩ := hs.uncommitted p (by simp)
        refine (removeUncommitted_spec env round p hp hcurrent
          (fun q => q ∈ (p :: ps).toFinset)).weaken (fun _ he => he ▸ hs.replaying)
          (fun _ _ hd => ⟨hd.mono fun q hq => ?_, fun q hq => hs.uncommitted q ?_, hs.readable⟩)
          (fun _ _ s'' hf => ⟨hf.1, hcut s'' hf.2⟩) fun s'' hc => hcut s'' hc
        · have hq' := hq.1
          simp only [toFinset_cons, Finset.mem_insert] at hq'
          exact hq'.resolve_left hq.2
        · simp only [toFinset_cons, Finset.mem_insert]
          exact .inr hq
      · simpa using hs
    · refine (completePublication_spec (P := fun s'' => Copied env s' j.paths ∅ s'')
        (Q := fun s'' => s'' = s'.restored ∧ s'.Readable env) (fun s'' hs => ⟨?_, hs.readable⟩)
        (fun step _ s'' hstep hs hfate => ⟨?_, ?_, fun _ => hfate⟩)
        fun s'' hs hfate => ⟨?_, fun _ => hfate⟩).weaken (fun _ he => he)
        (fun _ s'' hd => ⟨hd.1, fun _ => hd.2⟩) (fun _ _ _ hf => hf) fun _ hc => hc
      · exact (hs.replaying.mono fun p hp => by simp at hp).finish hj
      · rcases hstep with rfl | rfl <;> trivial
      · exact hs.elim (fun h => .inl ⟨j, hj, h.replaying.forget⟩)
          fun h => .inr (.inl ⟨h.1, fun _ => h.2⟩)
      · exact hs.elim (fun h => .inl ⟨j, hj, h.replaying.forget⟩)
          fun h => .inr (.inl ⟨h.1, fun _ => h.2⟩)

/-- A replay of a sound store completes where every step proceeds. -/
theorem recover_completes (hs : s₀.Sound env) (hfate : ∀ step, fate step = .proceeds) :
    (recoverPublication env).run fate s₀ = (.done (), s₀.restored) := by
  match hrun : (recoverPublication env).run fate s₀ with
  | (.done (), s) =>
    have hspec := (recover_spec s₀).hold rfl hrun
    rw [hspec.1]
  | (.failed step e, s) =>
    have hspec := (recover_spec s₀).hold rfl hrun
    obtain ⟨step, hstep⟩ := hspec.2.2 hs
    exact absurd (hfate step) hstep
  | (.stopped, s) =>
    have hspec := (recover_spec s₀).hold rfl hrun
    obtain ⟨step, hstep⟩ := hspec.2 hs
    exact absurd (hfate step) hstep

/-- Every end of a run of the replay is on the way. -/
theorem recover_onTheWay {o : Outcome Step StorageErrorKind Unit} {s : Store Path}
    (h : (recoverPublication env).run fate s₀ = (o, s)) : OnTheWay env s₀ s := by
  have hspec := (recover_spec s₀).hold rfl h
  match o with
  | .done () => exact .inr (.inl hspec)
  | .failed step e => exact hspec.2.1
  | .stopped => exact hspec.1

end Spec

/-- **However often a replay is cut short and begun again, it ends in the restored store.** -/
theorem recover_attempts {env : Environment Path} {s s' : Store Path} (h : Attempts (recoverPublication env) s s') :
    s' = s.restored ∧ (s.journal.isSome → s.Readable env) := by
  have hkeeps : ∀ fate, Keeps fate (fun s₁ => s₁.restored = s.restored ∧
    s₁.reference = s.reference ∧ s₁.generations = s.generations ∧
    (s.journal.isSome → s₁.journal.isSome ∨ s.Readable env)) (recoverPublication env) := by
    intro fate
    refine meets_of_start fun s₁ hs₁ => ?_
    obtain ⟨hrestored, href, hgen, hjournal⟩ := hs₁
    have hway : ∀ s₂, OnTheWay env s₁ s₂ → s₂.restored = s.restored ∧
      s₂.reference = s.reference ∧ s₂.generations = s.generations ∧
      (s.journal.isSome → s₂.journal.isSome ∨ s.Readable env) := by
      intro s₂ h
      refine ⟨h.restored_eq.trans hrestored, h.reference.trans href, h.generations.trans hgen, fun hj => ?_⟩
      rcases h with ⟨j, hj₁, h⟩ | ⟨_, hread⟩ | rfl
      · exact .inl (by simp [h.journal, hj₁])
      · exact (hjournal hj).elim (fun h => .inr ((hread h).congr href hgen)) .inr
      · exact hjournal hj
    exact (recover_spec s₁).weaken (fun _ he => he) (fun _ s₂ hd => hway s₂ (.inr (.inl hd)))
      (fun _ _ s₂ hf => hway s₂ hf.2.1) fun s₂ hc => hway s₂ hc.1
  obtain ⟨s₁, ⟨hrestored, href, hgen, hjournal⟩, fate, hrun⟩ :=
    h.invariant hkeeps ⟨rfl, rfl, rfl, .inl⟩
  have hspec := (recover_spec s₁).hold rfl hrun
  refine ⟨hspec.1.trans hrestored, fun hj => ?_⟩
  exact (hjournal hj).elim (fun h => (hspec.2 h).congr href hgen) id

end Bray.Publication
