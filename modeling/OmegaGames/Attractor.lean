import OmegaGames.Strategy
import OmegaGames.Game.Predecessors

/-!
# Attractors

The strong attractor of a target holds the nodes from which a player reaches it with positive
probability whatever the opponent does. The weak attractor holds those from which the player reaches
it with probability one.

Both are found by a search backwards from the target. Nodes are worked off in the order in which they
were found, and that order is kept: along recorded decisions it goes down to the target.
-/
namespace OmegaGames

/-- The state of a backward search. -/
structure Front where
  reached : NodeSet
  /-- How many more edges into the reached set a node needs. -/
  remaining : Array Nat
  /-- The reached nodes in the order of their discovery. -/
  found : Array Nat
  strategy : Strategy

namespace Front

def join (f : Front) (u : Nat) : Front :=
  { f with reached := f.reached.insert u, found := f.found.push u }

def record (f : Front) (u i : Nat) : Front := { f with strategy := f.strategy.set u i }

def missing (f : Front) (u : Nat) : Nat := f.remaining.getD u 0

def count (f : Front) (u : Nat) : Front :=
  { f with remaining := f.remaining.setIfInBounds u (f.missing u - 1) }

/-- Works off the found nodes from number `next` on: `visit v` takes in one edge into `v`. Each node
is found once, so as many steps as there are nodes are enough. -/
def drain (preds : Predecessors) (visit : Nat → Front → Nat × Nat → Front) : Nat → Nat → Front → Front
  | 0, _, f => f
  | steps + 1, next, f =>
    match f.found[next]? with
    | none => f
    | some v => drain preds visit steps (next + 1) ((preds.of v).foldl (visit v) f)

end Front

namespace Arena

variable {W : Type}

/-- The start of an attractor search. A node of the player or of chance needs one edge into the
attractor, a node of the opponent all its edges inside `nodes`. -/
def seed (a : Arena W) (target nodes : NodeSet) (player : Player) (σ : Strategy) : Front :=
  { reached := .ofPred a.game.size fun v => nodes.contains v && target.contains v
    remaining := Array.ofFn fun v : Fin a.game.size =>
      if a.game.owner v = player ∨ a.game.owner v = .stochastic then 1
      else ((a.game.succs v).filter nodes.contains).length
    found := (nodes.inter target).toList.toArray
    strategy := σ }

def pull (a : Arena W) (nodes blocked : NodeSet) (player : Player) (f : Front) : Nat × Nat → Front
  | (u, i) =>
    if !nodes.contains u || f.reached.contains u || blocked.contains u then f
    else
      let f := f.count u
      if f.missing u = 0 then
        let f := f.join u
        if a.game.owner u = player then f.record u i else f
      else f

/-- The attractor of `target` inside `nodes`. Blocked nodes count as part of the game and are not
attracted. The player's attracted nodes get the decision through which they were attracted. -/
def attract (a : Arena W) (target nodes blocked : NodeSet) (player : Player) (σ : Strategy) : Front :=
  (a.seed target nodes player σ).drain a.preds (fun _ => a.pull nodes blocked player) a.game.size 0

/-- The nodes of `nodes` from which the player reaches `target` with positive probability. -/
def strongAttractor (a : Arena W) (target nodes : NodeSet) (player : Player) : NodeSet :=
  (a.attract target nodes (.empty 0) player (.blank 0)).reached

/-- Records, on the nodes of the player in an attractor of `target`, how they were attracted. -/
def recordAttraction (a : Arena W) (target attractor : NodeSet) (player : Player) (σ : Strategy) :
    Strategy :=
  (a.attract target attractor (.empty 0) player σ).strategy

/-- Removes the nodes from which the opponent avoids `target` with positive probability, until the
strong attractor covers what is left. A play that has reached `target` is over, so the opponent never
attracts nodes of it. Each round removes a node. -/
def narrow (a : Arena W) (target : NodeSet) (player : Player) : Nat → NodeSet → NodeSet
  | 0, nodes => a.strongAttractor target nodes player
  | rounds + 1, nodes =>
    let same := a.strongAttractor target nodes player
    if same = nodes then same
    else
      let lost := (a.attract (nodes.diff same) nodes target player.opponent (.blank 0)).reached
      a.narrow target player rounds (nodes.diff lost)

/-- The nodes of `nodes` from which the player reaches `target` with probability one. -/
def weakAttractor (a : Arena W) (target nodes : NodeSet) (player : Player) : NodeSet :=
  a.narrow target player nodes.range nodes

end Arena

end OmegaGames
