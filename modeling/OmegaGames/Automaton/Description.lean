import OmegaGames.Automaton.Acceptance
import OmegaGames.Automaton.Guard

/-!
# Descriptions of automata

An automaton over infinite words as it is written down: states with guarded edges, acceptance sets on
states and edges, and a condition on the sets visited infinitely often. A state may be described in
several pieces.
-/
namespace OmegaGames

structure DescribedEdge where
  guard : Guard
  target : Nat
  marks : List Nat
deriving Repr

structure DescribedState where
  id : Nat
  name : Option String
  /-- The acceptance sets of all edges that leave the state. -/
  marks : List Nat
  edges : List DescribedEdge
deriving Repr

structure Description where
  name : Option String
  stateCount : Nat
  start : List Nat
  aps : List String
  /-- The name of the acceptance condition, word by word. -/
  accName : List String
  acceptanceSets : Nat
  acceptance : Acceptance
  properties : List String
  /-- Header items of no consequence, in order. -/
  other : List (String × String)
  states : List DescribedState
deriving Repr

/-- Inserts a number into increasing numbers unless it is among them. -/
def insertMark (m : Nat) : List Nat → List Nat
  | [] => [m]
  | n :: ns =>
    if m < n then m :: n :: ns
    else if m = n then n :: ns
    else n :: insertMark m ns

/-- The marks in increasing order, each once. -/
def sortMarks (ms : List Nat) : List Nat := ms.foldr insertMark []

/-- An edge together with its source and with all marks that it carries. -/
structure MarkedEdge where
  source : Nat
  guard : Guard
  target : Nat
  marks : List Nat

namespace Description

def markedEdges (d : Description) : List MarkedEdge :=
  d.states.flatMap fun s => s.edges.map fun e =>
    ⟨s.id, e.guard, e.target, sortMarks (s.marks ++ e.marks)⟩

end Description

end OmegaGames
