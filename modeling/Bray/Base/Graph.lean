/-
  File:      Bray/Base/Graph.lean
  Subject:   GRAPHS OF IDENTITIES (bray-base/src/graph.rs): the strongly connected components of what
    the roots reach.

  The graph is a successor function, finite from the roots on. The search keeps its own stack; the
  fuel is a bound on how often it is looked at, and with enough of it the search ends by itself.
-/
import Bray.Lib.Components

namespace Bray.Base

open Bray.Lib

variable {N : Type} [DecidableEq N]

/-- `strongly_connected_components` -/
def graphComponents (successors : N → List N) (fuel : Nat) (roots : List N) : List (List N) :=
  Lib.stronglyConnectedComponents successors fuel roots

/-- **THE COMPONENTS ARE THE STRONGLY CONNECTED ONES**: they part what the roots reach, two vertices
  share one exactly when each reaches the other, and no path leads from one to an earlier one. -/
theorem graphComponents_exact (successors : N → List N) (roots : List N) (vertices : Finset N)
    (rooted : ∀ x ∈ roots, x ∈ vertices) (closed : ∀ x ∈ vertices, ∀ y ∈ successors x, y ∈ vertices) (fuel : Nat)
    (enough : walkWork successors vertices < fuel) : (graphComponents successors fuel roots).flatten.Nodup ∧
      [] ∉ graphComponents successors fuel roots ∧ (∀ x, x ∈ (graphComponents successors fuel roots).flatten ↔
        ∃ root ∈ roots, Reaches successors root x) ∧
      (∀ component ∈ graphComponents successors fuel roots, ∀ x ∈ component, ∀ y,
        y ∈ component ↔ Reaches successors x y ∧ Reaches successors y x) ∧
      (graphComponents successors fuel roots).Pairwise fun first second =>
        ∀ x ∈ first, ∀ y ∈ second, ¬ Reaches successors y x := by
  obtain ⟨once, mem, inhabited, exact_, sorted⟩ := components_spec closed enough rooted
  exact ⟨once, inhabited, mem, exact_, sorted⟩

/-- Two vertices on a cycle, one vertex behind it and one with an edge to itself. -/
def sampleSuccessors : Nat → List Nat
  | 0 => [1, 1]
  | 1 => [0, 2]
  | 3 => [3, 1]
  | _ => []

theorem graphComponents_exact_sample : (graphComponents sampleSuccessors 20 [0, 3, 0]).flatten.Nodup ∧
    (∀ x, x ∈ (graphComponents sampleSuccessors 20 [0, 3, 0]).flatten ↔
      ∃ root ∈ [0, 3, 0], Reaches sampleSuccessors root x) ∧
    graphComponents sampleSuccessors 20 [0, 3, 0] = [[3], [0, 1], [2]] := by
  obtain ⟨once, _, mem, _, _⟩ := graphComponents_exact sampleSuccessors [0, 3, 0] {0, 1, 2, 3}
    (by decide) (by decide) 20 (by decide)
  exact ⟨once, mem, by decide⟩

end Bray.Base
