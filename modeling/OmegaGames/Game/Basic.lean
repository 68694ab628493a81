import OmegaGames.Scalar

/-!
# Stochastic parity games

A game is a finite graph whose nodes belong to one of the two players or to chance. Successors are
ordered, and a decision names a successor by its position. A play is won by the player favoured by
the least priority that it sees infinitely often.

A game as it is built may be malformed; `Game.firstError?` finds the first defect, and the games
without one are the valid ones.
-/
namespace OmegaGames

inductive Player where
  | even
  | odd
  | stochastic
deriving DecidableEq, Repr, Inhabited

namespace Player

/-- Chance opposes nobody but itself. -/
def opponent : Player → Player
  | even => odd
  | odd => even
  | stochastic => stochastic

def ofPriority (p : Nat) : Player := if p % 2 = 0 then even else odd

@[simp] theorem opponent_opponent (p : Player) : p.opponent.opponent = p := by cases p <;> rfl

end Player

/-- The priority of a node that has none yet. Solvers want it replaced beforehand. -/
def infinitePriority : Nat := Nat.pow 2 64 - 1

structure Edge (W : Type) where
  target : Nat
  weight : W
deriving Repr

/-- The weights are probabilities and count on stochastic nodes only. -/
structure Node (W : Type) where
  owner : Player
  priority : Nat
  edges : List (Edge W) := []
deriving Repr

structure Game (W : Type) where
  nodes : Array (Node W) := #[]
deriving Repr

inductive GameError (W : Type) where
  | successorOutOfRange (node successor : Nat)
  | deadEnd (node : Nat)
  | invalidWeight (node position : Nat) (weight : W)
  | infinitePriority (node : Nat)
deriving Repr

namespace Game

variable {W : Type}

def size (g : Game W) : Nat := g.nodes.size

def owner (g : Game W) (v : Nat) : Player :=
  match g.nodes[v]? with
  | some n => n.owner
  | none => .stochastic

def priority (g : Game W) (v : Nat) : Nat :=
  match g.nodes[v]? with
  | some n => n.priority
  | none => 0

def edges (g : Game W) (v : Nat) : List (Edge W) :=
  match g.nodes[v]? with
  | some n => n.edges
  | none => []

def succs (g : Game W) (v : Nat) : List Nat := (g.edges v).map Edge.target

def degree (g : Game W) (v : Nat) : Nat := (g.edges v).length

def succ? (g : Game W) (v i : Nat) : Option Nat := (g.succs v)[i]?

/-- The largest priority apart from the infinite one. -/
def maxPriority? (g : Game W) : Option Nat :=
  ((g.nodes.toList.map Node.priority).filter (· ≠ infinitePriority)).max?

def isClosed (g : Game W) : Bool :=
  g.nodes.toList.all fun n => n.edges.all fun e => e.target < g.size

/-! ## Validity -/

/-- The first defect of an edge; a weight matters on stochastic nodes only. -/
def edgeError? [Scalar W] (g : Game W) (v : Nat) (e : Edge W) (i : Nat) : Option (GameError W) :=
  if g.size ≤ e.target then some (.successorOutOfRange v e.target)
  else if g.owner v = .stochastic && (!Scalar.isFinite e.weight || Scalar.le e.weight Scalar.zero) then
    some (.invalidWeight v i e.weight)
  else none

def nodeError? [Scalar W] (g : Game W) (v : Nat) : Option (GameError W) :=
  if g.priority v = infinitePriority then some (.infinitePriority v)
  else if (g.edges v).isEmpty then some (.deadEnd v)
  else (g.edges v).zipIdx.findSome? fun (e, i) => g.edgeError? v e i

/-- The first defect in the order of the nodes and then of their edges. -/
def firstError? [Scalar W] (g : Game W) : Option (GameError W) :=
  (List.range g.size).findSome? g.nodeError?

def Valid [Scalar W] (g : Game W) : Prop := g.firstError? = none

/-! ## Building games -/

def addNode (g : Game W) (owner : Player) (priority : Nat) : Game W :=
  ⟨g.nodes.push ⟨owner, priority, []⟩⟩

/-- Appends an edge; `none` if its source is no node. -/
def addEdge? (g : Game W) (u : Nat) (e : Edge W) : Option (Game W) :=
  if u < g.size then
    some ⟨g.nodes.modify u fun n => { n with edges := n.edges ++ [e] }⟩
  else none

def setPriority? (g : Game W) (v p : Nat) : Option (Game W) :=
  if v < g.size then some ⟨g.nodes.modify v fun n => { n with priority := p }⟩ else none

/-- Replaces the infinite priority by one more than the largest other one. -/
def normalize (g : Game W) : Game W :=
  let top := match g.maxPriority? with
    | some p => p + 1
    | none => 0
  ⟨g.nodes.map fun n => if n.priority = infinitePriority then { n with priority := top } else n⟩

/-- The game from the other side: the players change places, and with every priority one higher each
priority favours the other player. -/
def dual (g : Game W) : Game W :=
  ⟨g.nodes.map fun n =>
    { n with
      owner := n.owner.opponent
      priority := if n.priority = infinitePriority then infinitePriority else n.priority + 1 }⟩

end Game

end OmegaGames
