/-
  File:      Bray/Lib/Term.lean
  Subject:   FIRST-ORDER TERMS with parameters, their instances, and parameters that are bound to terms.
    Nothing of this repository is named here.

  A walk over a term goes into the first arguments of a node, as many as the node's label opens.

  * `Term.instantiate` -- the parameters are replaced;
  * `Term.contains` -- a walk comes to a parameter;
  * `size_lt_of_contains` -- a parameter inside a term is smaller than the term, in every instance;
  * `Leads` -- a walk of what a parameter is bound to comes to another parameter;
  * `wellFounded_bind` -- a binding that leads to no cycle keeps the bindings well founded;
  * `exists_weights` -- well founded bindings can be weighed: a bound parameter weighs more than what it
    is bound to.
-/
import Mathlib

namespace Bray.Lib

inductive Term (A L P : Type) where
  | param (p : P)
  | atom (a : A)
  | node (label : L) (args : List (Term A L P))

namespace Term

variable {A L P : Type}

/-- Induction over a term: a node, when its arguments are done. -/
theorem induct {motive : Term A L P → Prop} (hparam : ∀ p, motive (.param p)) (hatom : ∀ a, motive (.atom a))
    (hnode : ∀ l args, (∀ t ∈ args, motive t) → motive (.node l args)) : ∀ t, motive t
  | .param p => hparam p
  | .atom a => hatom a
  | .node l args => hnode l args fun t _ => induct hparam hatom hnode t

/-! ## 1. Equality is decidable -/

section Decide

variable [DecidableEq A] [DecidableEq L] [DecidableEq P]

mutual

def decEq : (s t : Term A L P) → Decidable (s = t)
  | .param p, .param q => decidable_of_iff (p = q) (by simp)
  | .atom a, .atom b => decidable_of_iff (a = b) (by simp)
  | .node l ss, .node k ts =>
    match decEqList ss ts with
    | isTrue h => decidable_of_iff (l = k) (by simp [h])
    | isFalse h => isFalse (by simp [h])
  | .param _, .atom _ => isFalse (by simp)
  | .param _, .node _ _ => isFalse (by simp)
  | .atom _, .param _ => isFalse (by simp)
  | .atom _, .node _ _ => isFalse (by simp)
  | .node _ _, .param _ => isFalse (by simp)
  | .node _ _, .atom _ => isFalse (by simp)

def decEqList : (ss ts : List (Term A L P)) → Decidable (ss = ts)
  | [], [] => isTrue rfl
  | [], _ :: _ => isFalse (by simp)
  | _ :: _, [] => isFalse (by simp)
  | s :: ss, t :: ts =>
    match decEq s t, decEqList ss ts with
    | isTrue h, isTrue h' => isTrue (by rw [h, h'])
    | isFalse h, _ => isFalse (by simp [h])
    | _, isFalse h => isFalse (by simp [h])

end

instance : DecidableEq (Term A L P) := decEq

end Decide

/-! ## 2. Instances -/

mutual

/-- The parameters are replaced. -/
def instantiate (σ : P → Term A L P) : Term A L P → Term A L P
  | .param p => σ p
  | .atom a => .atom a
  | .node l args => .node l (instantiateList σ args)

def instantiateList (σ : P → Term A L P) : List (Term A L P) → List (Term A L P)
  | [] => []
  | t :: ts => instantiate σ t :: instantiateList σ ts

end

theorem instantiateList_eq (σ : P → Term A L P) (ts : List (Term A L P)) :
    instantiateList σ ts = ts.map (instantiate σ) := by
  induction ts with
  | nil => rfl
  | cons t ts ih => rw [instantiateList, ih, List.map_cons]

@[simp] theorem instantiate_param (σ : P → Term A L P) (p : P) : instantiate σ (.param p) = σ p := rfl

@[simp] theorem instantiate_atom (σ : P → Term A L P) (a : A) : instantiate σ (.atom a) = .atom a := rfl

@[simp] theorem instantiate_node (σ : P → Term A L P) (l : L) (args : List (Term A L P)) :
    instantiate σ (.node l args) = .node l (args.map (instantiate σ)) := by
  rw [instantiate, instantiateList_eq]

mutual

def size : Term A L P → Nat
  | .param _ => 1
  | .atom _ => 1
  | .node _ args => 1 + sizeList args

def sizeList : List (Term A L P) → Nat
  | [] => 0
  | t :: ts => size t + sizeList ts

end

theorem size_le_of_mem {t : Term A L P} {ts : List (Term A L P)} (h : t ∈ ts) : size t ≤ sizeList ts := by
  induction ts with
  | nil => cases h
  | cons s ts ih =>
    rcases List.mem_cons.mp h with rfl | h
    · exact Nat.le_add_right _ _
    · exact Nat.le_trans (ih h) (Nat.le_add_left _ _)

/-! ## 3. Walks -/

section Walk

variable [DecidableEq P] (opens : L → Nat → Nat)

mutual

/-- A walk comes to a parameter. -/
def contains (q : P) : Term A L P → Bool
  | .param p => p = q
  | .atom _ => false
  | .node l args => containsIn q (opens l args.length) args

/-- The same, of the first of some terms. -/
def containsIn (q : P) : Nat → List (Term A L P) → Bool
  | 0, _ => false
  | _ + 1, [] => false
  | n + 1, t :: ts => contains q t || containsIn q n ts

end

variable {opens}

theorem containsIn_iff {q : P} {n : Nat} {ts : List (Term A L P)} :
    containsIn opens q n ts = true ↔ ∃ t ∈ ts.take n, contains opens q t = true := by
  induction ts generalizing n with
  | nil => cases n <;> simp [containsIn]
  | cons t ts ih =>
    cases n with
    | zero => simp [containsIn]
    | succ n => rw [containsIn, Bool.or_eq_true, ih]; simp

theorem contains_node {q : P} {l : L} {args : List (Term A L P)} : contains opens q (.node l args) = true ↔
    ∃ t ∈ args.take (opens l args.length), contains opens q t = true := by
  rw [contains, containsIn_iff]

/-- **A parameter inside a term is smaller than the term**, whatever the parameters stand for. -/
theorem size_lt_of_contains (σ : P → Term A L P) {q : P} {t : Term A L P}
    (h : contains opens q t = true) : t = .param q ∨ size (σ q) < size (instantiate σ t) := by
  induction t using induct with
  | hparam p =>
    left
    simpa [contains] using h
  | hatom a => simp [contains] at h
  | hnode l args ih =>
    right
    obtain ⟨t, ht, hq⟩ := contains_node.mp h
    have hmem := List.mem_of_mem_take ht
    have hle : size (instantiate σ t) ≤ sizeList (args.map (instantiate σ)) :=
      size_le_of_mem (List.mem_map_of_mem hmem)
    have hq' : size (σ q) ≤ size (instantiate σ t) := by
      rcases ih t hmem hq with rfl | hlt
      · exact Nat.le_refl _
      · exact Nat.le_of_lt hlt
    rw [instantiate_node, size]
    omega

/-- No instance makes a parameter equal to a term it is inside. -/
theorem instantiate_ne_of_contains (σ : P → Term A L P) {q : P} {t : Term A L P}
    (h : contains opens q t = true) (hne : t ≠ .param q) : σ q ≠ instantiate σ t := by
  intro heq
  rcases size_lt_of_contains σ h with ht | hlt
  · exact hne ht
  · rw [heq] at hlt
    exact Nat.lt_irrefl _ hlt

variable (opens)

mutual

/-- The weight of what a walk passes. -/
def weight (ω : P → Nat) : Term A L P → Nat
  | .param p => ω p
  | .atom _ => 1
  | .node l args => 1 + weightIn ω (opens l args.length) args

def weightIn (ω : P → Nat) : Nat → List (Term A L P) → Nat
  | 0, _ => 0
  | _ + 1, [] => 0
  | n + 1, t :: ts => weight ω t + weightIn ω n ts

end

variable {opens}

omit [DecidableEq P] in
theorem weightIn_eq (ω : P → Nat) (n : Nat) (ts : List (Term A L P)) :
    weightIn opens ω n ts = ((ts.take n).map (weight opens ω)).sum := by
  induction ts generalizing n with
  | nil => cases n <;> rfl
  | cons t ts ih =>
    cases n with
    | zero => rfl
    | succ n => rw [weightIn, ih, List.take_succ_cons, List.map_cons, List.sum_cons]

omit [DecidableEq P] in
theorem weight_node (ω : P → Nat) (l : L) (args : List (Term A L P)) : weight opens ω (.node l args) =
    1 + ((args.take (opens l args.length)).map (weight opens ω)).sum := by
  rw [weight, weightIn_eq]

omit [DecidableEq P] in
theorem weight_pos {ω : P → Nat} (h : ∀ p, 0 < ω p) (t : Term A L P) : 0 < weight opens ω t := by
  cases t with
  | param p => exact h p
  | atom a => exact Nat.one_pos
  | node l args => rw [weight_node]; omega

/-- A weight depends on the parameters the walk comes to. -/
theorem weight_congr {ω ω' : P → Nat} {t : Term A L P}
    (h : ∀ q, contains opens q t = true → ω q = ω' q) : weight opens ω t = weight opens ω' t := by
  induction t using induct with
  | hparam p => exact h p (by simp [contains])
  | hatom a => rfl
  | hnode l args ih =>
    rw [weight_node, weight_node]
    congr 2
    refine List.map_congr_left fun t ht => ?_
    exact ih t (List.mem_of_mem_take ht) fun q hq => h q (contains_node.mpr ⟨t, ht, hq⟩)

/-! ## 4. Bound parameters -/

/-- What the parameters are bound to. -/
abbrev Bindings (A L P : Type) := P → Option (Term A L P)

/-- A walk of what `p` is bound to comes to `q`. -/
def Leads (opens : L → Nat → Nat) (B : Bindings A L P) (q p : P) : Prop :=
  ∃ v, B p = some v ∧ contains opens q v = true

/-- Following a parameter never leads back to it. -/
def Acyclic (opens : L → Nat → Nat) (B : Bindings A L P) : Prop :=
  ∀ p, ¬ Relation.TransGen (Leads opens B) p p

/-- Following the bindings of a term leads to a parameter. -/
def Returns (opens : L → Nat → Nat) (B : Bindings A L P) (p : P) (t : Term A L P) : Prop :=
  ∃ q, contains opens q t = true ∧ Relation.ReflTransGen (Leads opens B) p q

/-- One more parameter is bound. -/
def bind (B : Bindings A L P) (p : P) (v : Term A L P) : Bindings A L P :=
  fun q => if q = p then some v else B q

/-- The terms the parameters stand for are those they are bound to. -/
def Respects (σ : P → Term A L P) (B : Bindings A L P) : Prop :=
  ∀ p v, B p = some v → σ p = instantiate σ v

theorem Respects.bind {σ : P → Term A L P} {B : Bindings A L P} (h : Respects σ B) {p : P}
    {v : Term A L P} (hp : σ p = instantiate σ v) : Respects σ (bind B p v) := by
  intro q w hq
  rw [Term.bind] at hq
  split at hq
  · next heq =>
    cases hq
    rw [heq]
    exact hp
  · exact h q w hq

variable {B : Bindings A L P} {p : P} {v : Term A L P}

theorem leads_bind (hp : B p = none) {q r : P} :
    Leads opens (bind B p v) q r ↔ Leads opens B q r ∨ r = p ∧ contains opens q v = true := by
  constructor
  · intro ⟨w, hw, hq⟩
    rw [bind] at hw
    split at hw
    · next heq =>
      cases hw
      exact .inr ⟨heq, hq⟩
    · exact .inl ⟨w, hw, hq⟩
  · intro h
    rcases h with ⟨w, hw, hq⟩ | ⟨rfl, hq⟩
    · refine ⟨w, ?_, hq⟩
      rw [bind, if_neg]
      · exact hw
      · intro heq
        rw [heq, hp] at hw
        cases hw
    · exact ⟨v, by rw [bind, if_pos rfl], hq⟩

/-- **A binding that leads back to its parameter closes a cycle.** -/
theorem not_acyclic_bind (hp : B p = none) (h : Returns opens B p v) : ¬ Acyclic opens (bind B p v) := by
  intro hacyclic
  obtain ⟨q, hq, hpath⟩ := h
  refine hacyclic p (Relation.TransGen.tail' (b := q) ?_ ((leads_bind hp).mpr (.inr ⟨rfl, hq⟩)))
  exact Relation.ReflTransGen.mono (fun a b hab => (leads_bind hp).mpr (.inl hab)) _ _ hpath

theorem acyclic_of_wellFounded (h : WellFounded (Leads opens B)) : Acyclic opens B := by
  intro p hp
  induction p using h.transGen.induction with
  | _ p ih => exact ih p hp hp

/-- **A binding that does not lead back keeps the bindings well founded.** -/
theorem wellFounded_bind (hwf : WellFounded (Leads opens B)) (hp : B p = none)
    (h : ¬ Returns opens B p v) : WellFounded (Leads opens (bind B p v)) := by
  -- first what the new value leads to, which is followed as before
  have hold : ∀ q, ¬ Relation.ReflTransGen (Leads opens B) p q → Acc (Leads opens (bind B p v)) q := by
    intro q
    induction q using hwf.induction with
    | _ q ih =>
      intro hq
      refine Acc.intro q fun r hr => ?_
      rcases (leads_bind hp).mp hr with hr | ⟨heq, -⟩
      · exact ih r hr fun hpr => hq (hpr.tail hr)
      · exact absurd (heq ▸ Relation.ReflTransGen.refl) hq
  have hself : Acc (Leads opens (bind B p v)) p := by
    refine Acc.intro p fun r hr => ?_
    rcases (leads_bind hp).mp hr with ⟨w, hw, -⟩ | ⟨-, hr⟩
    · rw [hp] at hw
      cases hw
    · exact hold r fun hpr => h ⟨r, hr, hpr⟩
  refine ⟨fun q => ?_⟩
  induction q using hwf.induction with
  | _ q ih =>
    refine Acc.intro q fun r hr => ?_
    rcases (leads_bind hp).mp hr with hr | ⟨heq, hr⟩
    · exact ih r hr
    · exact hself.inv ((leads_bind hp).mpr (.inr ⟨rfl, hr⟩))

/-- **Well founded bindings can be weighed.** -/
theorem exists_weights (hwf : WellFounded (Leads opens B)) :
    ∃ ω : P → Nat, (∀ p, 0 < ω p) ∧ ∀ p v, B p = some v → ω p = 1 + weight opens ω v := by
  classical
  let F : ∀ p, (∀ q, Leads opens B q p → Nat) → Nat := fun p rec =>
    match B p with
    | none => 1
    | some v => 1 + weight opens (fun q => if h : Leads opens B q p then rec q h else 1) v
  have hfix : ∀ p, hwf.fix F p = F p fun q _ => hwf.fix F q := fun p => hwf.fix_eq F p
  refine ⟨hwf.fix F, fun p => ?_, fun p v hv => ?_⟩
  · rw [hfix p]
    simp only [F]
    split <;> omega
  · rw [hfix p]
    simp only [F, hv]
    congr 1
    refine weight_congr fun q hq => ?_
    exact dif_pos ⟨v, hv, hq⟩

end Walk

end Term

end Bray.Lib
