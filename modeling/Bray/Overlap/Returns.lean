/-
  File:      Bray/Overlap/Returns.lean
  Subject:   WHEN THE COMPARISON OF TWO HEADERS RETURNS.

  The occurrence check looks at the value a parameter is bound to, not at what the parameters in that
  value are bound to. A run whose bindings never lead back to the parameter being bound returns: its
  parameters can be weighed, and a call then binds a parameter that was free, or asks for comparisons
  that weigh less. A run that makes a binding that does lead back has a cycle to run around.
-/
import Bray.Overlap.Unifier

namespace Bray.Overlap

open Bray.Lib List

/-- What a comparison goes on to compare: what types are made of, flexible arrays apart, and the arguments
  of substitutions; of constants nothing. -/
def walks : Label → Nat → Nat
  | .callable data, _ => data.parameters.length + 1
  | .flexibleArray, _ => 0
  | l, n => match l.kind with
    | .type | .substitution | .application => n
    | .constant | .other => 0

def Comparison.cost (ω : Parameter → Nat) (c : Comparison) : Nat :=
  c.left.weight walks ω + c.right.weight walks ω

def totalCost (ω : Parameter → Nat) (cs : List Comparison) : Nat := (cs.map (Comparison.cost ω)).sum

/-- The weights fit the bindings. -/
structure Weighs (u : SemanticUnifier) (ω : Parameter → Nat) : Prop where
  positive : ∀ p, 0 < ω p
  bound : ∀ p v, u.bound p = some v → ω p = 1 + v.weight walks ω

def SemanticUnifier.free (u : SemanticUnifier) : Nat := u.parameters.countP fun p => u.bound p = none

section Cost

variable {ω : Parameter → Nat} {u : SemanticUnifier} {left right : Value} {asked : List Comparison}

/-! ## 1. What is asked for weighs less -/

theorem totalCost_cons (c : Comparison) (cs : List Comparison) :
    totalCost ω (c :: cs) = c.cost ω + totalCost ω cs := by
  rw [totalCost, map_cons, sum_cons, totalCost]

theorem totalCost_append (cs ds : List Comparison) : totalCost ω (cs ++ ds) = totalCost ω cs + totalCost ω ds := by
  rw [totalCost, map_append, sum_append, totalCost, totalCost]

theorem totalCost_zip (flags : List Bool) (args args' : List Value) :
    totalCost ω (List.zipWith (fun (same : Bool) (pair : Value × Value) => ⟨same, pair.1, pair.2⟩) flags
      (args.zip args')) ≤ ((args.take flags.length).map (Term.weight walks ω)).sum +
        ((args'.take flags.length).map (Term.weight walks ω)).sum := by
  induction flags generalizing args args' with
  | nil => exact Nat.zero_le _
  | cons flag flags ih =>
    cases args with
    | nil => exact Nat.zero_le _
    | cons a args =>
      cases args' with
      | nil => exact Nat.zero_le _
      | cons b args' =>
        have h := ih args args'
        rw [zip_cons_cons, zipWith_cons_cons, totalCost_cons, Comparison.cost,
          length_cons, take_succ_cons, take_succ_cons, map_cons, map_cons,
          sum_cons, sum_cons]
        dsimp only
        omega

theorem sum_take_le (n : Nat) (args : List Value) :
    ((args.take n).map (Term.weight walks ω)).sum ≤ (args.map (Term.weight walks ω)).sum := by
  induction args generalizing n with
  | nil => simp
  | cons a args ih =>
    cases n with
    | zero => simp
    | succ n =>
      exact Nat.add_le_add_left (ih n) _

theorem totalCost_zip_all (args args' : List Value) : totalCost ω (List.zipWith (Comparison.mk true) args args') ≤
      (args.map (Term.weight walks ω)).sum + (args'.map (Term.weight walks ω)).sum := by
  induction args generalizing args' with
  | nil => exact Nat.zero_le _
  | cons a args ih =>
    cases args' with
    | nil => exact Nat.zero_le _
    | cons b args' =>
      have h := ih args'
      rw [zipWith_cons_cons, totalCost_cons, Comparison.cost, map_cons, map_cons,
        sum_cons, sum_cons]
      dsimp only
      omega

/-- Nodes whose arguments are compared one by one. -/
theorem listsMayOverlap_cost {l l' : Label} {args args' : List Value} (hl : walks l args.length = args.length)
    (hl' : walks l' args'.length = args'.length) (h : SemanticUnifier.listsMayOverlap args args' = some asked) :
    totalCost ω asked < Term.weight walks ω (.node l args) + Term.weight walks ω (.node l' args') := by
  unfold SemanticUnifier.listsMayOverlap at h
  split at h
  · cases h
    rw [Term.weight_node, Term.weight_node, hl, hl', take_length, take_length]
    have hzip := totalCost_zip_all (ω := ω) args args'
    omega
  · cases h

theorem substitutionsMayOverlap_cost (h : SemanticUnifier.substitutionsMayOverlap left right = some asked) :
    totalCost ω asked < left.weight walks ω + right.weight walks ω := by
  unfold SemanticUnifier.substitutionsMayOverlap at h
  split at h
  · next owner parameters args owner' parameters' args' =>
    split at h
    · cases h
    · cases h
      rw [Term.weight_node, Term.weight_node]
      have hzip := totalCost_zip (ω := ω)
        (List.zipWith (fun p q => decide (p = q)) parameters parameters') args args'
      have hargs := sum_take_le (ω := ω)
        (List.zipWith (fun p q => decide (p = q)) parameters parameters').length args
      have hargs' := sum_take_le (ω := ω)
        (List.zipWith (fun p q => decide (p = q)) parameters parameters').length args'
      simp only [walks, Label.kind, take_length]
      omega
  · cases h

theorem traitApplicationsMayOverlap_cost (h : SemanticUnifier.traitApplicationsMayOverlap left right = some asked) :
    totalCost ω asked < left.weight walks ω + right.weight walks ω := by
  unfold SemanticUnifier.traitApplicationsMayOverlap at h
  split at h
  · split at h
    · cases h
    · exact listsMayOverlap_cost rfl rfl h
  · cases h

theorem callablesMayOverlap_cost {data data' : CallableTypeData} {args args' : List Value}
    (h : SemanticUnifier.callablesMayOverlap data args data' args' = some asked) : totalCost ω asked <
      Term.weight walks ω (.node (.callable data) args) + Term.weight walks ω (.node (.callable data') args') := by
  unfold SemanticUnifier.callablesMayOverlap at h
  split at h
  · cases h
  · next hsame =>
    have hlen : data.parameters.length = data'.parameters.length := by
      by_contra hne
      exact hsame (by tauto)
    cases h
    have hflags : (List.zipWith (fun p q => decide (p = q)) data.parameters data'.parameters ++
      [true]).length = data.parameters.length + 1 := by
      simp [hlen]
    have hzip := totalCost_zip (ω := ω)
      (List.zipWith (fun p q => decide (p = q)) data.parameters data'.parameters ++ [true]) args args'
    rw [hflags] at hzip
    rw [Term.weight_node, Term.weight_node]
    simp only [walks, ← hlen]
    omega

theorem typeDataMayOverlap_cost (h : SemanticUnifier.typeDataMayOverlap left right = some asked) :
    totalCost ω asked < left.weight walks ω + right.weight walks ω := by
  unfold SemanticUnifier.typeDataMayOverlap at h
  split at h
  case h_11 => exact callablesMayOverlap_cost h
  case h_12 => cases h
  all_goals
    try
      split at h
      · cases h
    exact listsMayOverlap_cost rfl rfl h

theorem constantDataMayOverlap_asked (h : SemanticUnifier.constantDataMayOverlap left right = some asked) :
    asked = [] := by
  unfold SemanticUnifier.constantDataMayOverlap at h
  split at h
  · cases h
    rfl
  · cases h

/-! ## 2. One call -/

open SemanticUnifier

/-- **What a call does**: it answers; or it binds a free parameter and asks for nothing; or it binds
  nothing and asks for less than was asked of it. -/
theorem valuesMayOverlap_cases {kind : Kind} {contains : Value → Parameter → Bool}
    {data : Value → Value → Option (List Comparison)} {u' : SemanticUnifier}
    (hdata : ∀ asked, data left right = some asked →
      totalCost ω asked < left.weight walks ω + right.weight walks ω) (hω : Weighs u ω)
    (h : u.valuesMayOverlap (u.headerParameter kind) (u.bindParameter contains) data left right =
      some (u', asked)) : (u' = u ∧ totalCost ω asked < left.weight walks ω + right.weight walks ω) ∨
    ∃ p v, p ∈ u.parameters ∧ u.bound p = none ∧ u' = u.insert p v ∧ asked = [] := by
  have hleft : 0 < left.weight walks ω := Term.weight_pos hω.positive left
  unfold valuesMayOverlap at h
  split at h
  · cases h
    refine .inl ⟨rfl, ?_⟩
    simp only [totalCost, map_nil, sum_nil]
    omega
  · split at h
    · next p hp =>
      obtain ⟨rfl, hmem⟩ := headerParameter_some hp
      split at h
      · next v hv =>
        cases h
        refine .inl ⟨rfl, ?_⟩
        have hweight := hω.bound p v hv
        rw [totalCost_cons, Comparison.cost, Term.weight, hweight]
        simp only [totalCost, map_nil, sum_nil]
        omega
      · next hv =>
        unfold bindParameter at h
        split at h
        · cases h
        · cases h
          exact .inr ⟨p, right, hmem, hv, rfl, rfl⟩
    · split at h
      · next p hp =>
        obtain ⟨rfl, hmem⟩ := headerParameter_some hp
        split at h
        · next v hv =>
          cases h
          refine .inl ⟨rfl, ?_⟩
          have hweight := hω.bound p v hv
          rw [totalCost_cons, Comparison.cost]
          simp only [totalCost, map_nil, sum_nil, Term.weight, hweight]
          omega
        · next hv =>
          unfold bindParameter at h
          split at h
          · cases h
          · cases h
            exact .inr ⟨p, left, hmem, hv, rfl, rfl⟩
      · cases hd : data left right with
        | none => rw [hd] at h; cases h
        | some asked' =>
          rw [hd] at h
          cases h
          exact .inl ⟨rfl, hdata _ hd⟩

theorem compare_cases {c : Comparison} {u' : SemanticUnifier} (hω : Weighs u ω)
    (h : u.compare c = some (u', asked)) : (u' = u ∧ totalCost ω asked < c.cost ω) ∨
    ∃ p v, p ∈ u.parameters ∧ u.bound p = none ∧ u' = u.insert p v ∧ asked = [] := by
  unfold SemanticUnifier.compare at h
  split at h
  · split at h
    · exact valuesMayOverlap_cases (fun _ hd => typeDataMayOverlap_cost hd) hω h
    · refine valuesMayOverlap_cases (fun asked hd => ?_) hω h
      rw [constantDataMayOverlap_asked hd]
      exact Nat.add_pos_left (Term.weight_pos hω.positive _) _
    · cases hs : substitutionsMayOverlap c.left c.right with
      | none => rw [hs] at h; cases h
      | some asked' =>
        rw [hs] at h
        cases h
        exact .inl ⟨rfl, substitutionsMayOverlap_cost hs⟩
    · cases hs : traitApplicationsMayOverlap c.left c.right with
      | none => rw [hs] at h; cases h
      | some asked' =>
        rw [hs] at h
        cases h
        exact .inl ⟨rfl, traitApplicationsMayOverlap_cost hs⟩
    · cases h
  · cases h

end Cost

/-! ## 3. Runs -/

/-- A call binds a parameter. -/
def Progress.Binds (s : Progress) (p : Parameter) (v : Value) : Prop :=
  s.unifier.bound p = none ∧ s.step.unifier.bound p = some v

/-- A parameter is bound to a value that leads back to it, when the bindings made before are followed. -/
def Progress.Loops (s : Progress) : Prop :=
  ∃ p v, s.Binds p v ∧ Term.Returns walks s.unifier.bound p v

/-- The bindings can be followed, and come to an end. -/
def Progress.Founded (s : Progress) : Prop := WellFounded (Term.Leads walks s.unifier.bound)

section Runs

variable {s : Progress}

variable {u : SemanticUnifier}

theorem exists_weighs (h : WellFounded (Term.Leads walks u.bound)) : ∃ ω, Weighs u ω := by
  obtain ⟨ω, hpositive, hbound⟩ := Term.exists_weights h
  exact ⟨ω, hpositive, hbound⟩

/-- A call binds at most one parameter. -/
theorem step_unifier (h : s.Founded) : s.step.unifier = s.unifier ∨
    ∃ p v, s.Binds p v ∧ s.step.unifier = s.unifier.insert p v := by
  cases s with
  | answered u answer => exact .inl rfl
  | pending u comparisons =>
    cases comparisons with
    | nil => exact .inl rfl
    | cons c rest =>
      obtain ⟨ω, hω⟩ := exists_weighs h
      cases hc : u.compare c with
      | none => exact .inl (by rw [Progress.step, hc]; rfl)
      | some reply =>
        have hstep : (Progress.pending u (c :: rest)).step = .pending reply.1 (reply.2 ++ rest) := by
          rw [Progress.step, hc]
        rcases compare_cases hω hc with ⟨hu, -⟩ | ⟨p, v, -, hp, hu, -⟩
        · exact .inl (by rw [hstep]; exact hu)
        · refine .inr ⟨p, v, ⟨hp, ?_⟩, by rw [hstep]; exact hu⟩
          rw [hstep]
          show reply.1.bound p = some v
          rw [hu, SemanticUnifier.bound_insert]
          exact if_pos rfl

theorem founded_step (h : s.Founded) (hloops : ¬ s.Loops) : s.step.Founded := by
  rcases step_unifier h with hu | ⟨p, v, hbinds, hu⟩
  · rw [Progress.Founded, hu]
    exact h
  · rw [Progress.Founded, hu, SemanticUnifier.bound_insert]
    exact Term.wellFounded_bind h hbinds.1 fun hreturns => hloops ⟨p, v, hbinds, hreturns⟩

theorem founded_run (h : s.Founded) (hloops : ∀ n, ¬ (s.run n).Loops) (n : Nat) : (s.run n).Founded := by
  induction n with
  | zero => exact h
  | succ n ih => exact founded_step ih (hloops n)

/-- A binding that leads back closes a cycle. -/
theorem not_acyclic_step (h : s.Founded) (hloops : s.Loops) : ¬ Term.Acyclic walks s.step.unifier.bound := by
  obtain ⟨p, v, ⟨hnone, hsome⟩, hreturns⟩ := hloops
  rcases step_unifier h with hu | ⟨q, w, hbinds, hu⟩
  · rw [hu, hnone] at hsome
    cases hsome
  · rw [hu, SemanticUnifier.bound_insert] at hsome ⊢
    have hqp : p = q := by
      by_contra hne
      rw [Term.bind, if_neg hne, hnone] at hsome
      cases hsome
    subst hqp
    rw [Term.bind, if_pos rfl] at hsome
    cases hsome
    exact Term.not_acyclic_bind hnone hreturns

/-! ## 4. A run without a loop returns -/

theorem run_succ (s : Progress) (n : Nat) : s.run (n + 1) = s.step.run n := by
  induction n with
  | zero => rfl
  | succ n ih =>
    rw [Progress.run, ih]
    rfl

theorem countP_lt {α : Type} {p q : α → Bool} {xs : List α} {a : α} (hpq : ∀ x, q x = true → p x = true)
    (ha : a ∈ xs) (hp : p a = true) (hq : q a = false) : xs.countP q < xs.countP p := by
  induction xs with
  | nil => cases ha
  | cons x xs ih =>
    have hle : xs.countP q ≤ xs.countP p := countP_mono_left fun x _ => hpq x
    rw [countP_cons, countP_cons]
    rcases mem_cons.mp ha with rfl | ha
    · rw [hp, hq]
      simp only [if_true, Bool.false_eq_true, if_false]
      omega
    · have hlt := ih ha
      have hx : (if q x = true then 1 else 0) ≤ if p x = true then 1 else 0 := by
        split
        · next hqx => exact Nat.le_of_eq (if_pos (hpq x hqx)).symm
        · exact Nat.zero_le _
      omega

theorem free_insert {p : Parameter} (v : Value) (hmem : p ∈ u.parameters)
    (hp : u.bound p = none) : (u.insert p v).free < u.free := by
  refine countP_lt (fun q hq => ?_) hmem (by simpa using hp) ?_
  · rw [decide_eq_true_iff, SemanticUnifier.bound_insert, Term.bind] at hq
    split at hq
    · cases hq
    · exact decide_eq_true hq
  · rw [decide_eq_false_iff_not, SemanticUnifier.bound_insert, Term.bind, if_pos rfl]
    exact Option.some_ne_none v

/-- The run has answered. -/
def Progress.Answered : Progress → Prop
  | .pending _ _ => False
  | .answered _ _ => True

/-- **The run returns.** The outer induction is on the parameters that are free, the inner one on what
  the comparisons weigh while no parameter is bound. -/
theorem returns {comparisons : List Comparison} (hrun : ∀ n, ((Progress.pending u comparisons).run n).Founded) :
    ∃ n, ((Progress.pending u comparisons).run n).Answered := by
  induction hfree : u.free using Nat.strongRecOn generalizing u comparisons with
  | _ free ihfree =>
    have hfounded : WellFounded (Term.Leads walks u.bound) := hrun 0
    obtain ⟨ω, hω⟩ := exists_weighs hfounded
    induction hcost : totalCost ω comparisons using Nat.strongRecOn generalizing comparisons with
    | _ cost ihcost =>
      cases comparisons with
      | nil => exact ⟨1, trivial⟩
      | cons c rest =>
        have hnext : ∀ n, ((Progress.pending u (c :: rest)).step.run n).Founded := fun n => by
          rw [← run_succ]
          exact hrun (n + 1)
        have hback : (∃ n, ((Progress.pending u (c :: rest)).step.run n).Answered) →
          ∃ n, ((Progress.pending u (c :: rest)).run n).Answered := fun ⟨n, hn⟩ =>
          ⟨n + 1, by rw [run_succ]; exact hn⟩
        refine hback ?_
        rw [Progress.step] at hnext ⊢
        cases hc : u.compare c with
        | none => exact ⟨0, trivial⟩
        | some reply =>
          rw [hc] at hnext
          rcases compare_cases hω hc with ⟨hu, hless⟩ | ⟨p, v, hmem, hp, hu, hasked⟩
          · simp only [hu] at hnext ⊢
            refine ihcost _ ?_ hnext rfl
            rw [← hcost, totalCost_append, totalCost_cons]
            omega
          · refine ihfree reply.1.free ?_ hnext rfl
            rw [← hfree, hu]
            exact free_insert v hmem hp

end Runs

theorem founded_start (left right : ImplementationHeader) : (headersStart left right).Founded := by
  refine ⟨fun p => Acc.intro p fun q hq => ?_⟩
  obtain ⟨v, hv, -⟩ := hq
  cases hv

/-- **When the comparison of two headers returns**, with bindings that can be followed to their ends:
  exactly when no call binds a parameter to a value that, with the bindings made before it, leads back
  to the parameter. -/
theorem overlap_returns_iff (left right : ImplementationHeader) :
    ((∃ calls answer, implementationHeadersOverlap left right calls = some answer) ∧
      ∀ calls, Term.Acyclic walks ((headersStart left right).run calls).unifier.bound) ↔
      ∀ calls, ¬ ((headersStart left right).run calls).Loops := by
  constructor
  · intro h calls
    have hacyclic := h.2
    -- the first loop closes a cycle
    induction calls using Nat.strongRecOn with
    | _ calls ih =>
      intro hloops
      have hfounded : ((headersStart left right).run calls).Founded := by
        clear hloops
        induction calls with
        | zero => exact founded_start left right
        | succ calls ih' =>
          exact founded_step (ih' fun m hm => ih m (Nat.lt_succ_of_lt hm))
            (ih calls (Nat.lt_succ_self calls))
      exact not_acyclic_step hfounded hloops (hacyclic (calls + 1))
  · intro hloops
    have hfounded := founded_run (founded_start left right) hloops
    refine ⟨?_, fun calls => Term.acyclic_of_wellFounded (hfounded calls)⟩
    obtain ⟨calls, hanswered⟩ := returns hfounded
    refine ⟨calls, ?_⟩
    rw [implementationHeadersOverlap]
    cases hs : (headersStart left right).run calls with
    | pending u comparisons =>
      exfalso
      change ((headersStart left right).run calls).Answered at hanswered
      rw [hs] at hanswered
      exact hanswered
    | answered u answer => exact ⟨answer, rfl⟩

/-! ## 5. Two parameters bound to each other -/

/-- An implementation for tuples of five with two parameters. -/
def tupleHeader : ImplementationHeader :=
  ⟨[.type 0, .type 1],
    .node .tuple [.param (.type 0), .param (.type 0), .param (.type 1), .param (.type 1), .param (.type 0)],
    .node (.application 1) [.node (.substitution 1 []) []]⟩

/-- Another one, whose parameters are bound to each other by the first four elements. -/
def crossedHeader : ImplementationHeader :=
  ⟨[.type 2, .type 3],
    .node .tuple [.param (.type 2), .param (.type 3), .param (.type 3), .param (.type 2), .node .tuple []],
    .node (.application 1) [.node (.substitution 1 []) []]⟩

theorem answered_stays {s : Progress} {n : Nat} (h : (s.run n).Answered) (m : Nat) : (s.run (n + m)).Answered := by
  induction m with
  | zero => exact h
  | succ m ih =>
    show ((s.run (n + m)).step).Answered
    cases hs : s.run (n + m) with
    | pending u comparisons => rw [hs] at ih; cases ih
    | answered u answer => trivial

/-- A run that comes to a state twice goes around. -/
theorem run_periodic {s : Progress} {k period : Nat} (h : s.run (k + period) = s.run k) (m : Nat) :
    s.run (k + m * period) = s.run k := by
  have hshift : ∀ a b, s.run (a + b) = (s.run a).run b := fun a b => by
    induction b with
    | zero => rfl
    | succ b ih =>
      show (s.run (a + b)).step = ((s.run a).run b).step
      rw [ih]
  induction m with
  | zero => rw [Nat.zero_mul, Nat.add_zero]
  | succ m ih =>
    rw [Nat.succ_mul, ← Nat.add_assoc, hshift, ih, ← hshift, h]

/-- The comparison of the two headers never returns, and two parameters are bound to each other. -/
theorem crossed_parameters_loop : (∀ calls, implementationHeadersOverlap tupleHeader crossedHeader calls = none) ∧
      ¬ Term.Acyclic walks ((headersStart tupleHeader crossedHeader).run 8).unifier.bound := by
  constructor
  · intro calls
    have hperiod : (headersStart tupleHeader crossedHeader).run (9 + 2) =
      (headersStart tupleHeader crossedHeader).run 9 := by decide
    have hpending : ¬ ((headersStart tupleHeader crossedHeader).run 9).Answered := by
      intro h
      cases h
    rw [implementationHeadersOverlap]
    cases hs : (headersStart tupleHeader crossedHeader).run calls with
    | pending u comparisons => rfl
    | answered u answer =>
      have hanswered : ((headersStart tupleHeader crossedHeader).run calls).Answered := by
        rw [hs]
        trivial
      have hlater := answered_stays hanswered (9 + calls)
      have hagain := run_periodic hperiod calls
      rw [show calls + (9 + calls) = 9 + calls * 2 by omega, hagain] at hlater
      exact absurd hlater hpending
  · intro hacyclic
    have hleads : ∀ a b : Parameter,
      ((headersStart tupleHeader crossedHeader).run 8).unifier.bound b = some (.param a) →
      Term.Leads walks ((headersStart tupleHeader crossedHeader).run 8).unifier.bound a b :=
      fun a b h => ⟨.param a, h, decide_eq_true rfl⟩
    refine hacyclic (.type 2) (.tail (.single (hleads (.type 2) (.type 3) ?_)) (hleads _ _ ?_))
    · decide
    · decide

end Bray.Overlap
