import OmegaGames.Attractor
import OmegaGames.Choice

/-!
# Probabilities of reaching a target

Even maximises and Odd minimises the probability of reaching a set of nodes. Nodes that cannot reach
it have value zero; the values of the others grow sweep by sweep, each sweep using the values it has
already computed, until no value changes by as much as the precision.

The iteration is written for any arithmetic, so that it can be run on floats and studied on rationals.
-/
namespace OmegaGames

structure ValueIteration (W : Type) where
  /-- The iteration ends when no value changes by this much in a sweep. -/
  precision : W
  /-- Values no further apart than this count as equal when decisions are chosen. -/
  tolerance : W
  /-- The largest number of sweeps. -/
  sweeps : Nat

inductive ReachError where
  /-- An edge leaves the game. -/
  | openGame
  /-- The values did not come to rest within the allowed sweeps. -/
  | unsettled
deriving DecidableEq, Repr

namespace ValueIteration

variable {W : Type} [Scalar W]

open Scalar

@[inline] def valueAt (values : Array W) (v : Nat) : W := values.getD v zero

@[specialize] def stepValue (g : Game W) (values : Array W) (v : Nat) : W :=
  match g.owner v with
  | .even => (g.succs v).foldl (fun best u => larger best (valueAt values u)) zero
  | .odd =>
    match g.succs v with
    | [] => zero
    | u :: us => us.foldl (fun best u => smaller best (valueAt values u)) (valueAt values u)
  | .stochastic => sum ((g.edges v).map fun e => mul e.weight (valueAt values e.target))

/-- Renews the value of one node; the second component is the largest change so far. -/
@[specialize] def renew (g : Game W) (state : Array W × W) (v : Nat) : Array W × W :=
  let value := stepValue g state.1 v
  (state.1.setIfInBounds v value, larger state.2 (distance value (valueAt state.1 v)))

@[specialize] def sweep (g : Game W) (unknown : List Nat) (values : Array W) : Array W × W :=
  unknown.foldl (renew g) (values, zero)

/-- Sweeps until the largest change is below the precision. -/
@[specialize] def settle (g : Game W) (precision : W) (unknown : List Nat) :
    Nat → Array W → Option (Array W)
  | 0, _ => none
  | sweeps + 1, values =>
    let (values, change) := sweep g unknown values
    if lt change precision then some values else settle g precision unknown sweeps values

/-- One on the target and zero elsewhere. -/
def start (g : Game W) (target : NodeSet) : Array W :=
  Array.ofFn fun v : Fin g.size => if target.contains v then one else zero

/-- The nodes outside of the target that reach it with positive probability. -/
def unknown (a : Arena W) (target : NodeSet) : List Nat :=
  ((a.strongAttractor target (.full a.game.size) .even).diff target).toList

/-! ## Decisions -/

/-- Keeps Even inside the target where that is possible. -/
def remain (g : Game W) (target : NodeSet) (σ : Strategy) : Strategy :=
  target.toList.foldl (fun σ v =>
    if g.owner v = .even then σ.set v (((g.succs v).findIdx? target.contains).getD 0) else σ) σ

/-- Takes in an edge of `u` at position `i` into the visited node `v`. Even only follows edges that
keep the value; a node of Odd is visited once all its successors are. -/
def follow (s : ValueIteration W) (g : Game W) (values : Array W) (v : Nat) (f : Front) :
    Nat × Nat → Front
  | (u, i) =>
    if f.reached.contains u || le (valueAt values u) zero then f
    else match g.owner u with
      | .even =>
        if lt s.tolerance (distance (valueAt values u) (valueAt values v)) then f
        else (f.record u i).join u
      | .odd =>
        let f := f.count u
        if 0 < f.missing u then f else f.join u
      | .stochastic => f.join u

/-- The search backwards from the target along edges that Even may follow. -/
def progress (s : ValueIteration W) (a : Arena W) (target : NodeSet) (values : Array W)
    (σ : Strategy) : Front :=
  let f : Front :=
    { reached := target
      remaining := Array.ofFn fun v : Fin a.game.size =>
        if a.game.owner v = .odd then a.game.degree v else 1
      found := target.toList.toArray
      strategy := σ }
  f.drain a.preds (s.follow a.game values) a.game.size 0

def bestPosition (g : Game W) (values : Array W) (v : Nat) : Nat :=
  firstBest (fun x y => lt y x) ((g.succs v).map (valueAt values))

def worstPosition (g : Game W) (values : Array W) (v : Nat) : Nat :=
  firstBest (fun x y => lt x y) ((g.succs v).map (valueAt values))

/-- Decides where the search did not. -/
def complete (g : Game W) (values : Array W) (request : Request) (σ : Strategy) (v : Nat) : Strategy :=
  match g.owner v with
  | .even =>
    if request.even && (σ.get v).isNone then σ.set v (bestPosition g values v) else σ
  | .odd => if request.odd then σ.set v (worstPosition g values v) else σ
  | .stochastic => σ

def strategy (s : ValueIteration W) (a : Arena W) (target : NodeSet) (values : Array W)
    (request : Request) : Strategy :=
  let blank := Strategy.blank a.game.size
  let σ :=
    if request.even then (s.progress a target values (remain a.game target blank)).strategy
    else blank
  (List.range a.game.size).foldl (complete a.game values request) σ

@[specialize] def solve (s : ValueIteration W) (g : Game W) (target : NodeSet) (request : Request) :
    Except ReachError (Outlook W) := do
  if !g.isClosed then throw .openGame
  let a := g.arena
  match settle g s.precision (unknown a target) s.sweeps (start g target) with
  | none => throw .unsettled
  | some values =>
    return ⟨values, if request.any then some (s.strategy a target values request) else none⟩

end ValueIteration

end OmegaGames
