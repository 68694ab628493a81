import OmegaGames.Qualitative.Lifting
import OmegaGames.Qualitative.Recursive

/-!
# Solution through two player gadgets

A stochastic node is replaced by a small two player game, so that Even wins the new game exactly where
it wins the old one with probability one. The gadget of a stochastic node of priority `p` has

* a top node of Odd with priority `p`,
* a second layer: for every even `k ≤ p + 1` a node of Even with priority `p`,
* a third layer: for every `j ≤ p` a node of priority `j`, of Odd if `j` is even and of Even otherwise.

The top leads to the whole second layer, the node for `k` to the nodes for `k - 1` and `k` where they
exist, and each node of the third layer to where the stochastic node led.
-/
namespace OmegaGames

inductive TwoPlayerSolver where
  | recursive (settings : Recursive)
  | lifting (settings : Lifting)
deriving DecidableEq, Repr

def TwoPlayerSolver.solve {W : Type} [Scalar W] (s : TwoPlayerSolver) (g : Game W) (q : Query) :
    Except (SolveError W) Regions :=
  match s with
  | .recursive r => r.solve g q
  | .lifting l => l.solve g q

namespace Gadget

variable {W : Type}

def secondCount (p : Nat) : Nat := (p + 1) / 2 + 1

def nodeCount (n : Node W) : Nat :=
  match n.owner with
  | .stochastic => 1 + secondCount n.priority + (n.priority + 1)
  | _ => 1

/-- The first of the nodes that stand for each node, and the number of all these nodes. -/
def layout (g : Game W) : Array Nat × Nat :=
  g.nodes.toList.foldl (fun (m, next) n => (m.push next, next + nodeCount n)) (#[], 0)

def mapping (g : Game W) : Array Nat := (layout g).1

def totalCount (g : Game W) : Nat := (layout g).2

/-- A game keeps 24 bytes for the edges of each node in a list that doubles whenever it is full, and twice
this many would not fit into half of a 64-bit address space. -/
def capacity : Nat := Nat.pow 2 58

variable [Scalar W]

def link (target : Nat) : Edge W := ⟨target, Scalar.one⟩

/-- The edges of the second layer's node for `k`; node `j` of the third layer has number `third + j`. -/
def secondEdges (p third k : Nat) : List (Edge W) :=
  (if 0 < k then [link (third + (k - 1))] else []) ++ (if k ≤ p then [link (third + k)] else [])

/-- The nodes that stand for a node, the first of which gets the number `base`. -/
def expand (m : Array Nat) (base : Nat) (n : Node W) : List (Node W) :=
  let onward := n.edges.map fun e => link (m.getD e.target 0)
  match n.owner with
  | .stochastic =>
    let p := n.priority
    let second := base + 1
    let third := second + secondCount p
    ⟨.odd, p, (List.range (secondCount p)).map fun i => link (second + i)⟩ ::
      (List.range (secondCount p)).map (fun i => ⟨.even, p, secondEdges p third (2 * i)⟩) ++
      (List.range (p + 1)).map (fun j => ⟨(Player.ofPriority j).opponent, j, onward⟩)
  | owner => [⟨owner, n.priority, onward⟩]

/-- Appends the nodes that stand for a node. They get the next free numbers, and the edges between them are laid
by these numbers; only the edges that lead on go by the mapping. -/
def append (m : Array Nat) (nodes : Array (Node W)) (n : Node W) : Array (Node W) :=
  nodes ++ (expand m nodes.size n).toArray

/-- What has been built when the first `k` nodes of a game are done. -/
def built (g : Game W) (k : Nat) : Array (Node W) :=
  (g.nodes.toList.take k).foldl (append (mapping g)) #[]

def transform (g : Game W) : Game W := ⟨built g g.size⟩

def transform? (g : Game W) : Option (Game W) :=
  if capacity < totalCount g then none else some (transform g)

def restore (g : Game W) (request : Request) (r : Regions) : Regions :=
  let m := mapping g
  let image v := m.getD v 0
  { even := .ofPred g.size fun v => r.even.contains (image v)
    odd := .ofPred g.size fun v => !r.even.contains (image v) && r.odd.contains (image v)
    strategy := r.strategy.map fun σ =>
      ⟨Array.ofFn fun v : Fin g.size =>
        if request.wants (g.owner v) then σ.get (image v) else none⟩ }

/-- Solves for Even winning with probability one. -/
def solveStrict (inner : TwoPlayerSolver) (g : Game W) (request : Request) :
    Except (SolveError W) Regions := do
  let g := g.normalize
  g.checkValid
  match transform? g with
  | none => .error .capacity
  | some t => return restore g request (← inner.solve t ⟨true, request⟩)

/-- Odd wins with probability one where Even does so in the dual game. -/
def solve (inner : TwoPlayerSolver) (g : Game W) (q : Query) : Except (SolveError W) Regions :=
  if q.strictEven then solveStrict inner g q.request
  else do
    let r ← solveStrict inner g.dual q.request.swapped
    return r.swapped

end Gadget

inductive QualitativeSolver where
  | recursive (settings : Recursive)
  | lifting (settings : Lifting)
  | gadget (inner : TwoPlayerSolver)
deriving DecidableEq, Repr

def QualitativeSolver.solve {W : Type} [Scalar W] (s : QualitativeSolver) (g : Game W) (q : Query) :
    Except (SolveError W) Regions :=
  match s with
  | .recursive r => r.solve g q
  | .lifting l => l.solve g q
  | .gadget inner => Gadget.solve inner g q

end OmegaGames
