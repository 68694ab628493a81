import OmegaGames.Game.Basic

/-!
# Parity games as files describe them

Nodes have numbers of their own, not necessarily in order and not without gaps. The player of the
*highest* priority seen infinitely often wins.
-/
namespace OmegaGames.PgSolver

structure FileNode where
  id : Nat
  priority : Nat
  owner : Player
  successors : List Nat
  name : Option String
deriving DecidableEq, Repr

structure FileGame where
  /-- The largest number of a node, as the file declares it. -/
  maxId : Nat
  start : Option Nat
  nodes : List FileNode
deriving DecidableEq, Repr

end OmegaGames.PgSolver
