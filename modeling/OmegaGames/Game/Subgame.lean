import OmegaGames.NodeSet
import OmegaGames.Game.Basic

/-!
# Subgames

The game on a subset of its nodes, numbered anew from zero in increasing order. Edges that leave the
subset are dropped and the others keep their order and weights, so a stochastic node may end up with
less than full probability. Each edge remembers its position in the underlying game.
-/
namespace OmegaGames

structure Subgame (W : Type) where
  game : Game W
  /-- The underlying node of each node. -/
  toOrig : Array Nat
  /-- The node of each underlying node that was kept. -/
  toSub : Array (Option Nat)
  /-- The underlying positions of each node's edges. -/
  kept : Array (List Nat)

namespace Subgame

variable {W : Type}

def orig (s : Subgame W) (v : Nat) : Nat := s.toOrig.getD v 0

def sub? (s : Subgame W) (v : Nat) : Option Nat := s.toSub.getD v none

def positions (s : Subgame W) (v : Nat) : List Nat := s.kept.getD v []

def origPosition (s : Subgame W) (v i : Nat) : Nat := (s.positions v).getD i 0

def lift (s : Subgame W) (set : NodeSet) : NodeSet :=
  .ofList s.toSub.size (set.toList.map s.orig)

end Subgame

def Edge.renumber? {W : Type} (number : Array (Option Nat)) (e : Edge W) : Option (Edge W) :=
  (number.getD e.target none).map fun t => { e with target := t }

namespace Game

variable {W : Type}

/-- The new number of each member of a set: how many members precede it. -/
def renumbering (g : Game W) (set : NodeSet) : Array (Option Nat) :=
  set.toList.zipIdx.foldl (fun t (v, k) => t.setIfInBounds v (some k)) (Array.replicate g.size none)

/-- The edges of `v` that end in a set, each with its position. -/
def edgesInto (g : Game W) (set : NodeSet) (v : Nat) : List (Edge W × Nat) :=
  (g.edges v).zipIdx.filter fun x => set.contains x.1.target

def subgame (g : Game W) (set : NodeSet) : Subgame W :=
  let number := g.renumbering set
  let members := set.toList.toArray
  { game := ⟨members.map fun v =>
      ⟨g.owner v, g.priority v, (g.edgesInto set v).filterMap fun x => x.1.renumber? number⟩⟩
    toOrig := members
    toSub := number
    kept := members.map fun v => (g.edgesInto set v).map Prod.snd }

/-- Whether an edge that ends in a set has a target without a new number. -/
def hidesEdge (g : Game W) (set : NodeSet) : Bool :=
  let number := g.renumbering set
  set.toList.any fun v => (g.edgesInto set v).any fun x => (x.1.renumber? number).isNone

/-- The subgame on a set of nodes of the game, all of whose edges lead to numbered nodes. -/
def subgame? (g : Game W) (set : NodeSet) : Option (Subgame W) :=
  if set.within g.size && !g.hidesEdge set then some (g.subgame set) else none

end Game

end OmegaGames
