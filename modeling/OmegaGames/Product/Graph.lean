import OmegaGames.Automaton.Basic
import OmegaGames.Interner
import OmegaGames.Product.Model

/-!
# The product of a model and an automaton

A node of the product is a model node together with the automaton state reached so far, packed into one
word. Nodes are numbered in the order in which they are first reached. The product is explored on demand:
asking for a node's successors reaches them. The successors of the node asked for last are remembered.

An operation may fail on the way; what it has reached by then stays reached.
-/
namespace OmegaGames

structure ProductState where
  model : Nat
  automaton : Nat
deriving DecidableEq, Repr

inductive ProductError where
  | insufficientStates (limit : Nat)
  | nondeterministicAutomaton
  /-- A node of the product or of the model that does not exist. -/
  | noSuchNode
  /-- A position beyond a node's successors. -/
  | noSuchEdge
deriving DecidableEq, Repr

def ProductError.message : ProductError → String
  | insufficientStates limit => s!"the product needs more than the {limit} reserved automaton states"
  | nondeterministicAutomaton => "games can only be built from deterministic automata"
  | noSuchNode => "no such node"
  | noSuchEdge => "no such successor"

namespace ProductState

def halfBits : UInt64 := 32

def halfMask : UInt64 := (1 <<< halfBits) - 1

/-- Both halves of a product state have to fit into half a machine word. -/
def halfLimit : Nat := Nat.pow 2 32

def half (n : Nat) : Except ProductError UInt64 :=
  if n < halfLimit then .ok (.ofNat n) else .error (.insufficientStates halfLimit)

/-- A product state as one machine word: the model node in the upper half, the automaton state in the lower one. -/
def pack (s : ProductState) : Except ProductError UInt64 := do
  return (← half s.model) <<< halfBits ||| (← half s.automaton)

def unpack (w : UInt64) : ProductState where
  model := (w >>> halfBits).toNat
  automaton := (w &&& halfMask).toNat

end ProductState

/-- The successors of a node and the labels of the transitions that lead to them. -/
structure Expansion where
  successors : List Nat := []
  /-- The label of the one transition of a deterministic automaton. -/
  nodeLabel : Option Nat := none
  /-- The label behind each successor for other automata. -/
  edgeLabels : List Nat := []
deriving DecidableEq, Repr

def Expansion.push (e : Expansion) (deterministic : Bool) (n : Nat) (label : Option Nat) : Expansion :=
  { e with
    successors := e.successors ++ [n]
    edgeLabels := if deterministic then e.edgeLabels else e.edgeLabels ++ label.toList }

structure ProductGraph (W A : Type) where
  model : Model W
  automaton : A
  /-- The model nodes where the automaton takes a step. -/
  moves : Nat → Bool
  /-- The largest number of nodes. -/
  limit : Option Nat
  /-- The packed product states by their numbers. -/
  nodes : Interner UInt64 := {}
  initial : Option (List Nat) := none
  /-- The node asked for last, if all its successors have been entered. -/
  last : Option Nat := none
  /-- The successors that have been entered for the node asked for last. -/
  cache : Expansion := {}

namespace ProductGraph

variable {W A L : Type} [Automaton A L]

/-- The product in which the automaton takes a step at every state node. -/
def ofModel (m : Model W) (a : A) : ProductGraph W A :=
  { model := m, automaton := a, moves := m.isState, limit := none }

def nodeCount (g : ProductGraph W A) : Nat := g.nodes.size

def state? (g : ProductGraph W A) (n : Nat) : Option ProductState := (g.nodes.get? n).map .unpack

def nodeOf? (g : ProductGraph W A) (s : ProductState) : Option Nat :=
  match s.pack with
  | .ok w => g.nodes.find? w
  | .error _ => none

/-- The number of a product state, which is reached by this if it was not before. -/
def reach (g : ProductGraph W A) (s : ProductState) : ProductGraph W A × Except ProductError Nat :=
  match s.pack with
  | .error e => (g, .error e)
  | .ok w =>
    match g.nodes.find? w with
    | some n => (g, .ok n)
    | none =>
      match g.limit with
      | some limit =>
        if limit ≤ g.nodeCount then (g, .error (.insufficientStates limit))
        else
          let (nodes, n, _) := g.nodes.intern w
          ({ g with nodes }, .ok n)
      | none =>
        let (nodes, n, _) := g.nodes.intern w
        ({ g with nodes }, .ok n)

def reachAll (g : ProductGraph W A) : List ProductState →
    ProductGraph W A × Except ProductError (List Nat)
  | [] => (g, .ok [])
  | s :: rest =>
    match g.reach s with
    | (g, .error e) => (g, .error e)
    | (g, .ok n) =>
      match g.reachAll rest with
      | (g, .error e) => (g, .error e)
      | (g, .ok ns) => (g, .ok (n :: ns))

def initialNodes (g : ProductGraph W A) : ProductGraph W A × Except ProductError (List Nat) :=
  match g.initial with
  | some ns => (g, .ok ns)
  | none =>
    let q := Automaton.initial g.automaton
    match g.reachAll (g.model.initial.map fun v => ⟨v, q⟩) with
    | (g, .error e) => (g, .error e)
    | (g, .ok ns) => ({ g with initial := some ns }, .ok ns)

/-- The steps of the automaton at a model node, each with its label: those of the automaton where it
takes a step, of which a deterministic automaton has one, and else no change. -/
def steps? (g : ProductGraph W A) (v : Nat) (node : ModelNode W) (q : Nat) :
    Option (A × List (Nat × Option Nat)) :=
  if g.moves v then do
    let valuation := node.valuation (Automaton.expressions g.automaton)
    let (a, ts) ← Automaton.query? g.automaton valuation q
    let taken := if Automaton.isDeterministic a then ts.take 1 else ts
    return (a, taken.map fun t => (t.state, some t.label))
  else some (g.automaton, [(q, none)])

/-- Pairs every step with every model successor, the steps changing slowest, and gives each pair the label of
its step. -/
def labelledTargets (node : ModelNode W) (steps : List (Nat × Option Nat)) : List (ProductState × Option Nat) :=
  steps.flatMap fun (q, label) => node.edges.map fun e => (⟨e.target, q⟩, label)

/-- Reaches the successors of a node in turn and remembers each one, up to the first failure. -/
def enter (deterministic : Bool) (g : ProductGraph W A) : List (ProductState × Option Nat) →
    ProductGraph W A × Except ProductError Unit
  | [] => (g, .ok ())
  | (s, label) :: rest =>
    match g.reach s with
    | (g, .error e) => (g, .error e)
    | (g, .ok n) => enter deterministic { g with cache := g.cache.push deterministic n label } rest

/-- Computes the successors of a node with their labels. They count as remembered once they are complete. -/
def expandAnew (g : ProductGraph W A) (n : Nat) : ProductGraph W A × Except ProductError Expansion :=
  let g := { g with last := none, cache := {} }
  match g.state? n with
  | none => (g, .error .noSuchNode)
  | some s =>
    match g.model.nodes[s.model]? with
    | none => (g, .error .noSuchNode)
    | some node =>
      match g.steps? s.model node s.automaton with
      | none => (g, .error .noSuchNode)
      | some (a, steps) =>
        let deterministic := Automaton.isDeterministic a
        let cache : Expansion := { nodeLabel := if deterministic then steps.head?.bind Prod.snd else none }
        match enter deterministic { g with automaton := a, cache } (labelledTargets node steps) with
        | (g, .error e) => (g, .error e)
        | (g, .ok ()) => ({ g with last := some n }, .ok g.cache)

def expand (g : ProductGraph W A) (n : Nat) : ProductGraph W A × Except ProductError Expansion :=
  if g.last = some n then (g, .ok g.cache) else g.expandAnew n

def inspect {α : Type} (g : ProductGraph W A) (n : Nat) (f : Expansion → Except ProductError α) :
    ProductGraph W A × Except ProductError α :=
  match g.expand n with
  | (g, .error e) => (g, .error e)
  | (g, .ok e) => (g, f e)

def successorCount (g : ProductGraph W A) (n : Nat) : ProductGraph W A × Except ProductError Nat :=
  g.inspect n fun e => .ok e.successors.length

def successors (g : ProductGraph W A) (n : Nat) : ProductGraph W A × Except ProductError (List Nat) :=
  g.inspect n fun e => .ok e.successors

def successor (g : ProductGraph W A) (n i : Nat) : ProductGraph W A × Except ProductError Nat :=
  g.inspect n fun e =>
    match e.successors[i]? with
    | some s => .ok s
    | none => .error .noSuchEdge

/-- The weight of the model edge behind position `i`; the model edges come round again for each step. -/
def modelWeight? (g : ProductGraph W A) (n i : Nat) : Option W := do
  let s ← g.state? n
  let node ← g.model.nodes[s.model]?
  let e ← node.edges[i % node.edges.length]?
  return e.weight

def weight (g : ProductGraph W A) (n i : Nat) : ProductGraph W A × Except ProductError W :=
  match g.expand n with
  | (g, .error e) => (g, .error e)
  | (g, .ok _) =>
    match g.modelWeight? n i with
    | some w => (g, .ok w)
    | none => (g, .error .noSuchEdge)

/-- The label of the transition that a deterministic automaton takes at a node; none if it takes no
step there. -/
def nodeLabel (g : ProductGraph W A) (n : Nat) : ProductGraph W A × Except ProductError (Option Nat) :=
  g.inspect n fun e => .ok e.nodeLabel

/-- The label of the transition behind a successor if the automaton is not deterministic; none if it
takes no step there. -/
def edgeLabel (g : ProductGraph W A) (n i : Nat) : ProductGraph W A × Except ProductError (Option Nat) :=
  g.inspect n fun e => .ok e.edgeLabels[i]?

/-- Expands the nodes from number `next` on, also those reached meanwhile. -/
def exploreFrom : Nat → Nat → ProductGraph W A → ProductGraph W A × Except ProductError Nat
  | 0, _, g => (g, .ok g.nodeCount)
  | steps + 1, next, g =>
    if next < g.nodeCount then
      match g.expand next with
      | (g, .error e) => (g, .error e)
      | (g, .ok _) => exploreFrom steps (next + 1) g
    else (g, .ok g.nodeCount)

/-- One more than the words, so than the nodes that can be expanded. -/
def expansionBound : Nat := ProductState.halfLimit * ProductState.halfLimit + 1

def explore (g : ProductGraph W A) : ProductGraph W A × Except ProductError Nat :=
  match g.initialNodes with
  | (g, .error e) => (g, .error e)
  | (g, .ok _) => exploreFrom expansionBound 0 g

end ProductGraph

end OmegaGames
