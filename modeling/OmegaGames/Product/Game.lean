import OmegaGames.Product.Graph

/-!
# Games on products

The product with a deterministic parity automaton as a game: the players of a coalition play Even
against the others. The priority of a node is that of the transition taken there. Nodes where the
automaton takes no step get the largest priority, so that they never decide a play on their own.
-/
namespace OmegaGames

structure ProductGame (W : Type) where
  game : Game W
  /-- The product state behind each node. -/
  states : Array ProductState
  /-- The nodes of the initial model nodes, in the order of the model. -/
  initial : List Nat

namespace ProductGame

variable {W A : Type} [Automaton A Nat]

/-- The priority of a label; infinite where there is none. -/
def labelPriority (a : A) : Option Nat → Nat
  | some l => (Automaton.label? a l).getD infinitePriority
  | none => infinitePriority

/-- The edges to the successors of an expansion, with the weights of the model's edges. -/
def weightedEdges (node : ModelNode W) (e : Expansion) : List (Edge W) :=
  e.successors.zipIdx.filterMap fun (n, i) =>
    node.edges[i % node.edges.length]?.map fun edge => ⟨n, edge.weight⟩

def gameNode (g : ProductGraph W A) (coalition : List Nat) (n : Nat) :
    ProductGraph W A × Except ProductError (ProductState × Node W) :=
  match g.state? n with
  | none => (g, .error .noSuchNode)
  | some s =>
    match g.model.nodes[s.model]? with
    | none => (g, .error .noSuchNode)
    | some node =>
      match g.expand n with
      | (g, .error e) => (g, .error e)
      | (g, .ok e) =>
        let priority := labelPriority g.automaton e.nodeLabel
        (g, .ok (s, ⟨node.owner coalition, priority, weightedEdges node e⟩))

/-- Turns the nodes from number `next` on into game nodes, also those reached meanwhile. -/
def collect (coalition : List Nat) : Nat → Nat → ProductGraph W A → Array ProductState →
    Array (Node W) → ProductGraph W A × Except ProductError (Array ProductState × Array (Node W))
  | 0, _, g, states, nodes => (g, .ok (states, nodes))
  | steps + 1, next, g, states, nodes =>
    if next < g.nodeCount then
      match gameNode g coalition next with
      | (g, .error e) => (g, .error e)
      | (g, .ok (s, node)) => collect coalition steps (next + 1) g (states.push s) (nodes.push node)
    else (g, .ok (states, nodes))

def build (g : ProductGraph W A) (coalition : List Nat) : Except ProductError (ProductGame W) := do
  if !Automaton.isDeterministic g.automaton then throw .nondeterministicAutomaton
  match g.initialNodes with
  | (_, .error e) => throw e
  | (g, .ok initial) =>
    let (states, nodes) ← (collect coalition ProductGraph.expansionBound 0 g #[] #[]).2
    return ⟨(⟨nodes⟩ : Game W).normalize, states, initial⟩

end ProductGame

end OmegaGames
