import OmegaGames.PgSolver.Basic
import OmegaGames.Text.Numeral

/-!
# From files to games

The nodes of a file are numbered in order. Priorities are reflected at the largest one, rounded up to
an even number: that turns their order round and keeps their parity, so that the least priority
decides where the highest did.
-/
namespace OmegaGames.PgSolver

inductive ConversionError where
  | duplicateNode (id : Nat)
  | unknownSuccessor (node successor : Nat)
  /-- The largest priority cannot be rounded up. -/
  | capacity
deriving DecidableEq, Repr

def ConversionError.message : ConversionError → String
  | duplicateNode id => s!"node {id} is declared twice"
  | unknownSuccessor node successor =>
    s!"node {node} has successor {successor} which is never declared"
  | capacity => "the largest priority is too large"

/-- A game and the numbers of its nodes in the file. -/
structure Converted (W : Type) where
  game : Game W
  ids : Array Nat

namespace Converted

variable {W : Type}

def nodeOf? (c : Converted W) (id : Nat) : Option Nat := c.ids.idxOf? id

end Converted

namespace FileGame

/-- The priority at which the others are reflected. -/
def top (f : FileGame) : Nat :=
  match (f.nodes.map FileNode.priority).max? with
  | some p => p + p % 2
  | none => 0

def firstRepeated? : List Nat → List Nat → Option Nat
  | _, [] => none
  | seen, id :: ids => if seen.contains id then some id else firstRepeated? (id :: seen) ids

variable {W : Type} [Scalar W]

def convertNode (ids : Array Nat) (top : Nat) (n : FileNode) : Except ConversionError (Node W) := do
  let edges ← n.successors.mapM fun s =>
    match ids.idxOf? s with
    | some v => .ok (⟨v, Scalar.one⟩ : Edge W)
    | none => .error (.unknownSuccessor n.id s)
  return ⟨n.owner, top - n.priority, edges⟩

def toGame (f : FileGame) : Except ConversionError (Converted W) := do
  if Text.wordLimit ≤ f.top then throw .capacity
  let ids := f.nodes.map FileNode.id
  match firstRepeated? [] ids with
  | some id => throw (.duplicateNode id)
  | none =>
    let nodes ← f.nodes.mapM (convertNode ids.toArray f.top)
    return ⟨⟨nodes.toArray⟩, ids.toArray⟩

end FileGame

end OmegaGames.PgSolver
