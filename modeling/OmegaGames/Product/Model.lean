import OmegaGames.Game.Basic

/-!
# Models

The system side of a product: a graph of state nodes, where a player chooses a successor and some
propositions hold, and of distribution nodes, where the successor is drawn at random. Successors and
initial nodes need not exist.
-/
namespace OmegaGames

inductive ModelNodeKind where
  | state (controller : Nat) (propositions : List String)
  | distribution
deriving DecidableEq, Repr

structure ModelNode (W : Type) where
  kind : ModelNodeKind
  edges : List (Edge W)
deriving Repr

structure Model (W : Type) where
  nodes : Array (ModelNode W)
  initial : List Nat
deriving Repr

namespace ModelNode

variable {W : Type}

def isState (n : ModelNode W) : Bool :=
  match n.kind with
  | .state .. => true
  | .distribution => false

def holds (n : ModelNode W) (proposition : String) : Bool :=
  match n.kind with
  | .state _ propositions => propositions.contains proposition
  | .distribution => false

/-- The owner of a node in a game where a coalition plays Even. -/
def owner (n : ModelNode W) (coalition : List Nat) : Player :=
  match n.kind with
  | .state controller _ => if coalition.contains controller then .even else .odd
  | .distribution => .stochastic

def valuation (n : ModelNode W) (expressions : List String) : List Bool := expressions.map n.holds

end ModelNode

namespace Model

variable {W : Type}

def size (m : Model W) : Nat := m.nodes.size

def isState (m : Model W) (v : Nat) : Bool :=
  match m.nodes[v]? with
  | some n => n.isState
  | none => false

end Model

end OmegaGames
