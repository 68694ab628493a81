import OmegaGames.Game.Basic
import OmegaGames.PartialSums

/-!
# Predecessors

For each node, the edges that lead to it, each as the pair of its source and of its position there.
They come in increasing order of the source and then of the position. All edges stand in one table, node
after node: the edges to each node are counted, the counts give where each node's part of the table
begins, and then every edge is filed at the next free place of its target.
-/
namespace OmegaGames

structure Predecessors where
  /-- Where the edges to each node begin in the table, and where those to the last one end. -/
  offsets : Array Nat
  table : Array (Nat × Nat)

namespace Predecessors

def of (p : Predecessors) (v : Nat) : List (Nat × Nat) :=
  (p.table.extract (p.offsets.getD v 0) (p.offsets.getD (v + 1) 0)).toList

end Predecessors

structure PlacedEdge where
  source : Nat
  position : Nat
  target : Nat

structure Filing where
  /-- The next free place for an edge to each node. -/
  next : Array Nat
  table : Array (Nat × Nat)

namespace Filing

/-- Puts an edge at the next free place of its target. -/
def file (f : Filing) (e : PlacedEdge) : Filing :=
  match f.next[e.target]? with
  | some k => ⟨f.next.setIfInBounds e.target (k + 1), f.table.setIfInBounds k (e.source, e.position)⟩
  | none => f

end Filing

namespace Game

variable {W : Type}

def placedEdgesOf (g : Game W) (u : Nat) : List PlacedEdge :=
  (g.succs u).zipIdx.map fun (t, i) => ⟨u, i, t⟩

/-- All edges in order of their sources and then of their positions. -/
def placedEdges (g : Game W) : List PlacedEdge := (List.range g.size).flatMap g.placedEdgesOf

def inDegrees (g : Game W) : Array Nat :=
  g.placedEdges.foldl (fun counts e => counts.modify e.target (· + 1)) (Array.replicate g.size 0)

def predecessors (g : Game W) : Predecessors :=
  let offsets := partialSums g.inDegrees.toList
  let blank := Array.replicate (offsets.back?.getD 0) (0, 0)
  ⟨offsets, (g.placedEdges.foldl Filing.file ⟨offsets, blank⟩).table⟩

def predecessors? (g : Game W) : Option Predecessors :=
  if g.isClosed then some g.predecessors else none

end Game

/-- A game together with its predecessor lists. -/
structure Arena (W : Type) where
  game : Game W
  preds : Predecessors

namespace Game

variable {W : Type}

def arena (g : Game W) : Arena W := ⟨g, g.predecessors⟩

end Game

end OmegaGames
