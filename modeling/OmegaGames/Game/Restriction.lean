import OmegaGames.PartialSums
import OmegaGames.Strategy

/-!
# Restrictions

The game with some edges dropped and all nodes kept. Which edges stay is given by a mask with one bit
per edge, or by the decisions of one player. Each edge remembers its position in the underlying game.
-/
namespace OmegaGames

structure Restriction (W : Type) where
  game : Game W
  /-- The underlying positions of each node's edges. -/
  kept : Array (List Nat)

namespace Restriction

variable {W : Type}

def positions (r : Restriction W) (v : Nat) : List Nat := r.kept.getD v []

def origPosition (r : Restriction W) (v i : Nat) : Nat := (r.positions v).getD i 0

end Restriction

namespace Game

variable {W : Type}

def edgesAt (g : Game W) (v : Nat) (positions : List Nat) : List (Edge W) :=
  positions.filterMap fun i => (g.edges v)[i]?

/-- Keeps the edges at the positions chosen for each node. -/
def restrict (g : Game W) (positions : Nat → List Nat) : Restriction W :=
  { game := ⟨Array.ofFn fun v : Fin g.size =>
      ⟨g.owner v, g.priority v, g.edgesAt v (positions v)⟩⟩
    kept := Array.ofFn fun v : Fin g.size => positions v }

def keepEdges (g : Game W) (p : Nat → Nat → Bool) : Restriction W :=
  g.restrict fun v => (List.range (g.degree v)).filter (p v)

/-- The positions that a player's strategy leaves open: the decision where there is one on a node of
the player, and all positions elsewhere. -/
def openPositions (g : Game W) (σ : Strategy) (player : Player) (v : Nat) : List Nat :=
  match σ.get v with
  | some i => if g.owner v = player then [i] else List.range (g.degree v)
  | none => List.range (g.degree v)

def induced (g : Game W) (σ : Strategy) (player : Player) : Restriction W :=
  g.restrict (g.openPositions σ player)

/-- The induced game of a strategy for this game whose decisions for the player name edges. -/
def induced? (g : Game W) (σ : Strategy) (player : Player) : Option (Restriction W) :=
  if g.size ≤ σ.size &&
      (List.range g.size).all fun v => (g.openPositions σ player v).all (· < g.degree v) then
    some (g.induced σ player)
  else none

end Game

/-- One bit for every edge of a game. The edges are numbered through, node after node. -/
structure EdgeMask where
  /-- The number of a node's first edge. -/
  offsets : Array Nat
  bits : Array Bool

namespace EdgeMask

variable {W : Type}

/-- The number of edges before each node, and of all edges at the end. -/
def edgeOffsets (g : Game W) : Array Nat := partialSums ((List.range g.size).map g.degree)

def blank (g : Game W) : EdgeMask :=
  let offsets := edgeOffsets g
  ⟨offsets, Array.replicate (offsets.back?.getD 0) false⟩

/-- The number of the edge of `v` at position `i`. A position beyond the edges of `v` counts on into
those of the following nodes. -/
def edgeNumber? (m : EdgeMask) (v i : Nat) : Option Nat := do
  let n := (← m.offsets[v]?) + i
  if n < m.bits.size then some n else none

def mark? (m : EdgeMask) (v i : Nat) : Option EdgeMask := do
  let n ← m.edgeNumber? v i
  some { m with bits := m.bits.setIfInBounds n true }

def contains (m : EdgeMask) (v i : Nat) : Bool :=
  match m.edgeNumber? v i with
  | some n => m.bits.getD n false
  | none => false

/-- The mask of a list of edges, each given by source and position. -/
def ofList? (g : Game W) (edges : List (Nat × Nat)) : Option EdgeMask :=
  edges.foldlM (fun m (v, i) => m.mark? v i) (blank g)

end EdgeMask

namespace Game

variable {W : Type}

def mask (g : Game W) (m : EdgeMask) : Restriction W := g.keepEdges m.contains

end Game

end OmegaGames
