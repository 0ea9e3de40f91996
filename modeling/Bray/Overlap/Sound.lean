/-
  File:      Bray/Overlap/Sound.lean
  Subject:   WHEN AN ANSWER OF `false` MEANS THAT TWO HEADERS ARE APART.

  An assignment that makes two values equal makes every two values equal that the unifier goes on to
  compare, and agrees with every binding it makes. So `false` is right wherever the unifier reads a
  difference that no assignment can remove. There are three it reads and an assignment can remove: two
  flexible arrays (which it has no case for), two callables with different dependency contracts, and
  two closed constants of different types.
-/
import Bray.Overlap.Unifier

namespace Bray.Overlap

open Bray.Lib List

/-! ## 1. Assignments -/

/-- **An assignment** of types and constant terms to the parameters of the headers. -/
structure Assigns (parameters : List Parameter) (σ : Parameter → Value) : Prop where
  kinds : ∀ p, Value.kind (σ p) = p.kind
  others : ∀ p, p ∉ parameters → σ p = .param p

/-- Two headers are the header of one implementation, for some assignment. -/
def CommonInstance (left right : ImplementationHeader) : Prop :=
  ∃ σ, Assigns (left.parameters ++ right.parameters) σ ∧ left.subject.instantiate σ = right.subject.instantiate σ ∧
    left.traitApplication.instantiate σ = right.traitApplication.instantiate σ

/-- An assignment makes the two sides of a comparison equal. -/
def Comparison.Solved (σ : Parameter → Value) (c : Comparison) : Prop :=
  c.same = true ∧ c.left.instantiate σ = c.right.instantiate σ

/-- Two values that differ where an assignment can remove the difference, and are not compared there.
  (The last line is about values that are never compared.) -/
def Comparison.Missed (c : Comparison) : Prop :=
  match c.left, c.right with
  | .node .flexibleArray args, .node .flexibleArray args' => args ≠ args'
  | .node (.callable data) args, .node (.callable data') args' =>
    SemanticUnifier.contractsOf data args ≠ SemanticUnifier.contractsOf data' args'
  | .node (.value kind) args, .node (.value kind') args' => kind ≠ kind' ∨ args ≠ args'
  | left, _ => Value.kind left = .other

/-- The next comparison is one of those. -/
def Progress.Misses : Progress → Prop
  | .pending _ (c :: _) => c.Missed
  | _ => False

section Sound

variable {parameters : List Parameter} {σ : Parameter → Value} {u : SemanticUnifier} {left right : Value}

theorem kind_instantiate (hσ : Assigns parameters σ) (v : Value) : Value.kind (v.instantiate σ) = Value.kind v := by
  cases v with
  | param p => exact hσ.kinds p
  | atom a => rfl
  | node l args =>
    rfl

/-! ## 2. Lists of comparisons -/

variable {args args' : List Value}

theorem zip_solved (h : args.map (·.instantiate σ) = args'.map (·.instantiate σ)) :
    ∀ pair ∈ args.zip args', pair.1.instantiate σ = pair.2.instantiate σ := by
  induction args generalizing args' with
  | nil => simp
  | cons a args ih =>
    cases args' with
    | nil => simp
    | cons b args' =>
      obtain ⟨hhead, htail⟩ := List.cons.inj h
      intro pair hpair
      rcases mem_cons.mp hpair with rfl | hpair
      · exact hhead
      · exact ih htail pair hpair

theorem listsMayOverlap_solved (h : args.map (·.instantiate σ) = args'.map (·.instantiate σ)) :
    ∃ asked, SemanticUnifier.listsMayOverlap args args' = some asked ∧ ∀ c ∈ asked, c.Solved σ := by
  have hlen : args.length = args'.length := by simpa using congrArg List.length h
  refine ⟨_, if_pos hlen, fun c hc => ?_⟩
  rw [← map_uncurry_zip_eq_zipWith] at hc
  obtain ⟨pair, hpair, rfl⟩ := mem_map.mp hc
  exact ⟨rfl, zip_solved h pair hpair⟩

theorem flags_eq {α : Type} [DecidableEq α] (ps : List α) :
    ∀ flag ∈ List.zipWith (fun p q => decide (p = q)) ps ps, flag = true := by
  induction ps with
  | nil => simp
  | cons p ps ih =>
    intro flag hflag
    rcases mem_cons.mp hflag with rfl | hflag
    · exact decide_eq_true rfl
    · exact ih flag hflag

theorem flagged_solved {flags : List Bool} (hflags : ∀ flag ∈ flags, flag = true)
    (h : args.map (·.instantiate σ) = args'.map (·.instantiate σ)) :
    ∀ c ∈ List.zipWith (fun (same : Bool) (pair : Value × Value) => Comparison.mk same pair.1 pair.2) flags
      (args.zip args'), c.Solved σ := by
  intro c hc
  rw [← map_uncurry_zip_eq_zipWith] at hc
  obtain ⟨⟨flag, pair⟩, hmem, rfl⟩ := mem_map.mp hc
  obtain ⟨hflag, hpair⟩ := of_mem_zip hmem
  exact ⟨hflags flag hflag, zip_solved h pair hpair⟩

/-! ## 3. Values that are no parameters of the headers -/

/-- Such values that can be made equal have one label. -/
theorem same_label (hσ : Assigns parameters σ) (hleft : ∀ p, left = .param p → p ∉ parameters)
    (hright : ∀ p, right = .param p → p ∉ parameters) (hne : left ≠ right)
    (h : left.instantiate σ = right.instantiate σ) : ∃ l args args', left = .node l args ∧ right = .node l args' ∧
      args.map (·.instantiate σ) = args'.map (·.instantiate σ) := by
  cases left with
  | param p =>
    rw [Term.instantiate_param, hσ.others p (hleft p rfl)] at h
    cases right with
    | param q =>
      rw [Term.instantiate_param, hσ.others q (hright q rfl)] at h
      exact absurd h hne
    | atom b => cases h
    | node k args =>
      cases h
  | atom a =>
    cases right with
    | param q =>
      rw [Term.instantiate_param, hσ.others q (hright q rfl)] at h
      cases h
    | atom b => exact absurd h hne
    | node k args =>
      cases h
  | node l args =>
    rw [Term.instantiate_node] at h
    cases right with
    | param q =>
      rw [Term.instantiate_param, hσ.others q (hright q rfl)] at h
      cases h
    | atom b => cases h
    | node k args' =>
      rw [Term.instantiate_node] at h
      obtain ⟨rfl, hargs⟩ := Term.node.inj h
      exact ⟨l, args, args', rfl, rfl, hargs⟩

theorem typeData_solved {l : Label} (hkind : l.kind = .type)
    (hne : args ≠ args') (h : args.map (·.instantiate σ) = args'.map (·.instantiate σ))
    (hmissed : ¬ Comparison.Missed ⟨true, .node l args, .node l args'⟩) :
    ∃ asked, SemanticUnifier.typeDataMayOverlap (.node l args) (.node l args') = some asked ∧
      ∀ c ∈ asked, c.Solved σ := by
  cases l with
  | named definition | borrow kind => simpa [SemanticUnifier.typeDataMayOverlap] using listsMayOverlap_solved h
  | typeValuedMemberProjection member =>
    simpa [SemanticUnifier.typeDataMayOverlap] using listsMayOverlap_solved h
  | tuple => exact listsMayOverlap_solved h
  | array => exact listsMayOverlap_solved h
  | flexibleArray => exact absurd hne hmissed
  | slice => exact listsMayOverlap_solved h
  | generator => exact listsMayOverlap_solved h
  | nullable => exact listsMayOverlap_solved h
  | traitView => exact listsMayOverlap_solved h
  | ownedIndirection => exact listsMayOverlap_solved h
  | callable data =>
    have hcontracts : SemanticUnifier.contractsOf data args = SemanticUnifier.contractsOf data args' := by
      by_contra hdiffer
      exact hmissed hdiffer
    refine ⟨_, if_neg (by simp [hcontracts]), flagged_solved (fun flag hflag => ?_) h⟩
    rcases mem_append.mp hflag with hflag | hflag
    · exact flags_eq data.parameters flag hflag
    · exact mem_singleton.mp hflag
  | _ => cases hkind

theorem constantData_solved {l : Label} (hne : args ≠ args')
    (hmissed : ¬ Comparison.Missed ⟨true, .node l args, .node l args'⟩) :
    ∃ asked, SemanticUnifier.constantDataMayOverlap (.node l args) (.node l args') = some asked ∧
      ∀ c ∈ asked, c.Solved σ := by
  refine ⟨[], ?_, fun c hc => nomatch hc⟩
  cases l with
  | value kind => exact absurd (.inr hne) hmissed
  | _ => rfl

/-! ## 4. One comparison -/

/-- What is left to be solved after a call. -/
def SemanticUnifier.Reply.Solved (σ : Parameter → Value) (u : SemanticUnifier) (r : Reply) : Prop :=
  ∃ u' asked, r = some (u', asked) ∧ u'.parameters = u.parameters ∧ Term.Respects σ u'.bound ∧
    ∀ c ∈ asked, c.Solved σ

theorem SemanticUnifier.respects_insert (hu : Term.Respects σ u.bound) {p : Parameter} {v : Value}
    (hp : σ p = v.instantiate σ) : Term.Respects σ (u.insert p v).bound := by
  rw [bound_insert]
  exact hu.bind hp

open SemanticUnifier

/-- A parameter of the headers is compared with another value: it is bound already, or it can be. -/
theorem parameter_solved (hu : Term.Respects σ u.bound) {p : Parameter} {v : Value}
    (opens : Label → Nat → Nat) (hne : v ≠ .param p) (h : σ p = v.instantiate σ) :
    (∃ w, u.bound p = some w ∧ w.instantiate σ = v.instantiate σ) ∨
    u.bound p = none ∧ u.bindParameter (·.contains opens ·) p v = some (u.insert p v) ∧
      Term.Respects σ (u.insert p v).bound := by
  cases hb : u.bound p with
  | some w => exact .inl ⟨w, rfl, (hu p w hb).symm.trans h⟩
  | none =>
    refine .inr ⟨rfl, if_neg fun hcontains => ?_, respects_insert hu h⟩
    exact Term.instantiate_ne_of_contains σ hcontains hne h

/-- **A comparison of types or of constants**, for any way to look for parameters and to go on. -/
theorem valuesMayOverlap_solved {kind : Kind} (opens : Label → Nat → Nat)
    {data : Value → Value → Option (List Comparison)} (hσ : Assigns u.parameters σ)
    (hu : Term.Respects σ u.bound) (hleft : Value.kind left = kind) (hright : Value.kind right = kind)
    (h : left.instantiate σ = right.instantiate σ)
    (hdata : ∀ l args args', left = .node l args → right = .node l args' → args ≠ args' →
      args.map (·.instantiate σ) = args'.map (·.instantiate σ) →
      ∃ asked, data left right = some asked ∧ ∀ c ∈ asked, c.Solved σ) :
    Reply.Solved σ u (u.valuesMayOverlap (u.headerParameter kind)
      (u.bindParameter (·.contains opens ·)) data left right) := by
  have hnothing : ∀ c ∈ ([] : List Comparison), c.Solved σ := fun c hc => nomatch hc
  by_cases heq : left = right
  · exact ⟨u, [], if_pos heq, rfl, hu, hnothing⟩
  rw [valuesMayOverlap, if_neg heq]
  cases hl : u.headerParameter kind left with
  | some p =>
    obtain ⟨rfl, -⟩ := headerParameter_some hl
    simp only
    rcases parameter_solved hu opens (Ne.symm heq) h with ⟨w, hb, hw⟩ | ⟨hb, hbind, hu'⟩
    · rw [hb]
      refine ⟨u, _, rfl, rfl, hu, fun c hc => ?_⟩
      rw [mem_singleton.mp hc]
      exact ⟨rfl, hw⟩
    · rw [hb, hbind]
      exact ⟨_, [], rfl, rfl, hu', hnothing⟩
  | none =>
    cases hr : u.headerParameter kind right with
    | some p =>
      obtain ⟨rfl, -⟩ := headerParameter_some hr
      simp only
      rcases parameter_solved hu opens heq h.symm with ⟨w, hb, hw⟩ | ⟨hb, hbind, hu'⟩
      · rw [hb]
        refine ⟨u, _, rfl, rfl, hu, fun c hc => ?_⟩
        rw [mem_singleton.mp hc]
        exact ⟨rfl, hw.symm⟩
      · rw [hb, hbind]
        exact ⟨_, [], rfl, rfl, hu', hnothing⟩
    | none =>
      obtain ⟨l, args, args', hl', hr', hargs⟩ := same_label hσ (headerParameter_none hleft hl)
        (headerParameter_none hright hr) heq h
      have hne : args ≠ args' := by
        intro hsame
        rw [hl', hr', hsame] at heq
        exact heq rfl
      obtain ⟨asked, e, hasked⟩ := hdata l args args' hl' hr' hne hargs
      exact ⟨u, asked, by simp only [e]; rfl, rfl, hu, hasked⟩

theorem substitutionsMayOverlap_solved (hleft : Value.kind left = .substitution)
    (hright : Value.kind right = .substitution) (h : left.instantiate σ = right.instantiate σ) :
    ∃ asked, substitutionsMayOverlap left right = some asked ∧ ∀ c ∈ asked, c.Solved σ := by
  obtain ⟨owner, parameters, args, rfl⟩ := kind_substitution hleft
  obtain ⟨owner', parameters', args', rfl⟩ := kind_substitution hright
  rw [Term.instantiate_node, Term.instantiate_node] at h
  obtain ⟨hlabel, hargs⟩ := Term.node.inj h
  cases hlabel
  have hlen : args.length = args'.length := by simpa using congrArg List.length hargs
  exact ⟨_, if_neg (by simp [hlen]), flagged_solved (flags_eq parameters) hargs⟩

theorem traitApplicationsMayOverlap_solved (hleft : Value.kind left = .application)
    (hright : Value.kind right = .application) (h : left.instantiate σ = right.instantiate σ) :
    ∃ asked, traitApplicationsMayOverlap left right = some asked ∧ ∀ c ∈ asked, c.Solved σ := by
  obtain ⟨definition, args, rfl⟩ := kind_application hleft
  obtain ⟨definition', args', rfl⟩ := kind_application hright
  rw [Term.instantiate_node, Term.instantiate_node] at h
  obtain ⟨hlabel, hargs⟩ := Term.node.inj h
  cases hlabel
  rw [traitApplicationsMayOverlap, if_neg (by simp)]
  exact listsMayOverlap_solved hargs

/-- **One comparison**: whatever makes its two sides equal makes equal what is compared next, and agrees
  with what is bound. -/
theorem compare_solved (hσ : Assigns u.parameters σ) (hu : Term.Respects σ u.bound) {c : Comparison}
    (h : c.Solved σ) (hmissed : ¬ c.Missed) : Reply.Solved σ u (u.compare c) := by
  obtain ⟨same, left, right⟩ := c
  obtain ⟨hsame, h⟩ := h
  cases hsame
  have hkind : Value.kind left = Value.kind right := by
    rw [← kind_instantiate hσ left, ← kind_instantiate hσ right]
    exact congrArg Value.kind h
  unfold SemanticUnifier.compare
  simp only [if_true, ← hkind]
  cases hleft : Value.kind left with
  | type =>
    refine valuesMayOverlap_solved typeOpens hσ hu hleft (hkind ▸ hleft) h
      fun l args args' hl hr hne hargs => ?_
    subst hl hr
    exact typeData_solved hleft hne hargs hmissed
  | constant =>
    refine valuesMayOverlap_solved constantOpens hσ hu hleft (hkind ▸ hleft) h
      fun l args args' hl hr hne hargs => ?_
    subst hl hr
    exact constantData_solved hne hmissed
  | substitution =>
    obtain ⟨asked, e, hasked⟩ := substitutionsMayOverlap_solved hleft (hkind ▸ hleft) h
    exact ⟨u, asked, by simp only [e]; rfl, rfl, hu, hasked⟩
  | application =>
    obtain ⟨asked, e, hasked⟩ := traitApplicationsMayOverlap_solved hleft (hkind ▸ hleft) h
    exact ⟨u, asked, by simp only [e]; rfl, rfl, hu, hasked⟩
  | other =>
    refine absurd ?_ hmissed
    cases left with
    | param p => exact hleft
    | atom a => exact hleft
    | node l args => cases l <;> first | exact hleft | cases hleft

/-- Two values that are missed are answered with `false`. -/
theorem compare_missed {c : Comparison} (h : c.Missed) : u.compare c = none := by
  obtain ⟨same, left, right⟩ := c
  cases same with
  | false => rfl
  | true =>
    unfold Comparison.Missed at h
    simp only at h
    split at h
    · have hne : ∀ args args' : List Value, args ≠ args' →
      u.typesMayOverlap (.node .flexibleArray args) (.node .flexibleArray args') = none :=
      fun args args' hne => if_neg (by simpa using hne)
      exact hne _ _ h
    · next data args data' args' =>
      have hne : Term.node (A := Atom) (P := Parameter) (.callable data) args ≠ .node (.callable data') args' := by
        intro heq
        obtain ⟨hdata, hargs⟩ := Term.node.inj heq
        cases hdata
        exact h (by rw [hargs])
      have hnone : callablesMayOverlap data args data' args' = none := if_pos (by tauto)
      show u.typesMayOverlap _ _ = none
      rw [typesMayOverlap, valuesMayOverlap, if_neg hne]
      show (callablesMayOverlap data args data' args').map _ = none
      rw [hnone]
      rfl
    · next kind args kind' args' =>
      show u.constantsMayOverlap _ _ = none
      have hne : Term.node (A := Atom) (P := Parameter) (.value kind) args ≠ .node (.value kind') args' := by
        intro heq
        obtain ⟨hkind, hargs⟩ := Term.node.inj heq
        cases hkind
        simp [hargs] at h
      rw [constantsMayOverlap, valuesMayOverlap, if_neg hne]
      have hnone : (decide (kind = kind') && decide (args = args')) = false := by
        rw [Bool.and_eq_false_iff, decide_eq_false_iff_not, decide_eq_false_iff_not]
        exact h
      simp only [constantDataMayOverlap, constantsAgree, hnone]
      rfl
    · unfold SemanticUnifier.compare
      simp only [if_true, h]

/-! ## 5. Runs -/

/-- What a run that is solved by an assignment keeps: it is solved by it, or it has answered `true`. -/
def Progress.Solved (σ : Parameter → Value) (parameters : List Parameter) : Progress → Prop
  | .pending u comparisons => u.parameters = parameters ∧ Term.Respects σ u.bound ∧
    ∀ c ∈ comparisons, c.Solved σ
  | .answered _ answer => answer = true

theorem step_solved (hσ : Assigns parameters σ) {s : Progress} (h : s.Solved σ parameters)
    (hmisses : ¬ s.Misses) : s.step.Solved σ parameters := by
  cases s with
  | answered u answer => exact h
  | pending u comparisons =>
    obtain ⟨rfl, hu, hall⟩ := h
    cases comparisons with
    | nil => rfl
    | cons c rest =>
      obtain ⟨u', asked, e, hparameters, hu', hasked⟩ :=
        compare_solved hσ hu (hall c (.head _)) hmisses
      rw [Progress.step, e]
      refine ⟨hparameters, hu', fun d hd => ?_⟩
      rcases mem_append.mp hd with hd | hd
      · exact hasked d hd
      · exact hall d (.tail _ hd)

theorem run_solved (hσ : Assigns parameters σ) {s : Progress} (h : s.Solved σ parameters)
    (hmisses : ∀ n, ¬ (s.run n).Misses) (n : Nat) : (s.run n).Solved σ parameters := by
  induction n with
  | zero => exact h
  | succ n ih => exact step_solved hσ ih (hmisses n)

theorem step_missed {s : Progress} (h : s.Misses) : ∃ u, s.step = .answered u false := by
  cases s with
  | answered u answer => cases h
  | pending u comparisons =>
    cases comparisons with
    | nil => cases h
    | cons c rest => exact ⟨u, by rw [Progress.step, compare_missed h]⟩

end Sound

/-- **When `false` means that two headers are apart**: exactly when the headers have no common instance,
  or the comparisons never come to two different flexible arrays, two callables with different
  dependency contracts or two different closed constants. -/
theorem refusal_sound_iff (left right : ImplementationHeader) :
    ((∃ calls, implementationHeadersOverlap left right calls = some false) → ¬ CommonInstance left right) ↔
      (CommonInstance left right → ∀ calls, ¬ ((headersStart left right).run calls).Misses) := by
  constructor
  · intro hsound hcommon calls hmisses
    obtain ⟨u, e⟩ := step_missed hmisses
    refine hsound ⟨calls + 1, ?_⟩ hcommon
    rw [implementationHeadersOverlap, Progress.run, e]
  · intro hcondition ⟨calls, hfalse⟩ hcommon
    have hmisses := hcondition hcommon
    obtain ⟨σ, hσ, hsubject, happlication⟩ := hcommon
    have hstart : (headersStart left right).Solved σ (left.parameters ++ right.parameters) := by
      refine ⟨rfl, (fun p v hv => by cases hv), fun c hc => ?_⟩
      simp only [mem_cons, not_mem_nil, or_false] at hc
      rcases hc with rfl | rfl
      · exact ⟨rfl, hsubject⟩
      · exact ⟨rfl, happlication⟩
    have hrun := run_solved hσ hstart hmisses calls
    rw [implementationHeadersOverlap] at hfalse
    cases hs : (headersStart left right).run calls with
    | pending u comparisons => rw [hs] at hfalse; cases hfalse
    | answered u answer =>
      rw [hs] at hfalse hrun
      cases hfalse
      cases hrun

/-! ## 6. Flexible arrays -/

/-- A type without parameters. -/
def closedType (definition : Payload) : Value := .node (.named definition) [.node (.substitution definition []) []]

/-- A trait without parameters. -/
def closedTrait (definition : Payload) : Value :=
  .node (.application definition) [.node (.substitution definition []) []]

def flexibleHeader : ImplementationHeader :=
  ⟨[.type 0], .node .flexibleArray [.param (.type 0)], closedTrait 1⟩

/-- An implementation of the same trait for the flexible arrays of one type. -/
def flexibleClosedHeader : ImplementationHeader := ⟨[], .node .flexibleArray [closedType 2], closedTrait 1⟩

/-- The two are the same implementation for that type, and `implementation_headers_overlap` answers
  `false`. -/
theorem flexible_arrays_missed : implementationHeadersOverlap flexibleHeader flexibleClosedHeader 1 = some false ∧
      CommonInstance flexibleHeader flexibleClosedHeader := by
  refine ⟨by decide, fun p => if p = .type 0 then closedType 2 else .param p, ⟨fun p => ?_, fun p hp => ?_⟩,
    by decide, by decide⟩
  · by_cases h : p = .type 0
    · simp only [h, if_true]
      rfl
    · simp only [if_neg h]
      rfl
  · refine if_neg fun h => hp ?_
    rw [h]
    decide

end Bray.Overlap
