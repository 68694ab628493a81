import OmegaGames.Attractor
import OmegaGames.Qualitative.Problem

/-!
# Recursive solution by attractors

The player favoured by the least priority attracts the nodes that have it, and the rest is solved
first. If the opponent wins nothing there, the player wins everything. Otherwise the opponent's part
is taken away together with what it attracts, and the search goes on with the remaining nodes.

Stochastic nodes are handled directly: a player who has to win with probability one only gets what it
attracts with probability one.
-/
namespace OmegaGames

structure Recursive where
  /-- Give a region whose priorities favour one player to that player at once. -/
  sameParityShortcut : Bool
deriving DecidableEq, Repr

/-- The regions found so far and the decisions recorded on the way. -/
structure Split where
  even : NodeSet
  odd : NodeSet
  strategy : Strategy

namespace Split

def won (s : Split) : Player → NodeSet
  | .even => s.even
  | _ => s.odd

/-- A split given from the side of one player. -/
def ofSides (player : Player) (own other : NodeSet) (σ : Strategy) : Split :=
  match player with
  | .even => ⟨own, other, σ⟩
  | _ => ⟨other, own, σ⟩

end Split

namespace Recursive

variable {W : Type}

def leastPriority? (g : Game W) (region : NodeSet) : Option Nat := (region.toList.map g.priority).min?

/-- Gives each wanted node the first successor inside the region, if it has one. -/
def stayInside (g : Game W) (request : Request) (region : NodeSet) (vs : List Nat) (σ : Strategy) :
    Strategy :=
  vs.foldl (fun σ v =>
    if request.wants (g.owner v) then
      match (g.succs v).findIdx? region.contains with
      | some i => σ.set v i
      | none => σ
    else σ) σ

/-- Records how a player attracts, if the player's decisions are wanted. -/
def recordIfWanted (a : Arena W) (request : Request) (target attractor : NodeSet) (player : Player)
    (σ : Strategy) : Strategy :=
  if request.wants player then a.recordAttraction target attractor player σ else σ

/-- What the opponent attracts, with probability one if the opponent has to win so. -/
def opponentAttractor (a : Arena W) (q : Query) (target region : NodeSet) (opponent : Player) :
    NodeSet :=
  if q.needsAlmostSure opponent then a.weakAttractor target region opponent
  else a.strongAttractor target region opponent

/-- Takes away what the opponent wins, until the opponent wins nothing of the rest. `solve` answers
for smaller regions, `target` holds the nodes of least priority and `lost` what was taken away so far.
Each round takes away a node. -/
def peel (a : Arena W) (q : Query) (solve : NodeSet → Strategy → Split) (player : Player)
    (target : NodeSet) : Nat → NodeSet → NodeSet → Strategy → Split
  | 0, region, lost, σ => .ofSides player region lost σ
  | rounds + 1, region, lost, σ =>
    let near := a.strongAttractor target region player
    let rest := solve (region.diff near) σ
    let theirs := rest.won player.opponent
    if theirs.isEmpty then
      let best := target.inter region
      let σ := stayInside a.game q.request region best.toList rest.strategy
      let σ := recordIfWanted a q.request best near player σ
      .ofSides player region lost σ
    else
      let away := opponentAttractor a q theirs region player.opponent
      let σ := recordIfWanted a q.request theirs away player.opponent rest.strategy
      peel a q solve player target rounds (region.diff away) (lost.union away) σ

/-- Splits a region. The depth bounds the nesting of regions, each smaller than the one around it. -/
def splitRegion (s : Recursive) (a : Arena W) (q : Query) : Nat → NodeSet → Strategy → Split
  | 0, _, σ => ⟨.empty a.game.size, .empty a.game.size, σ⟩
  | depth + 1, region, σ =>
    match leastPriority? a.game region with
    | none => ⟨.empty a.game.size, .empty a.game.size, σ⟩
    | some least =>
      let player := Player.ofPriority least
      if s.sameParityShortcut && region.toList.all fun v => a.game.priority v % 2 = least % 2 then
        .ofSides player region (.empty a.game.size)
          (stayInside a.game q.request region region.toList σ)
      else
        let target := region.filter fun v => a.game.priority v = least
        peel a q (splitRegion s a q depth) player target (region.range + 1) region
          (.empty a.game.size) σ

def regions (s : Recursive) (g : Game W) (q : Query) : Regions :=
  let split := s.splitRegion g.arena q (g.size + 1) (.full g.size) (.blank g.size)
  ⟨split.even, split.odd, if q.request.any then some split.strategy else none⟩

def solve [Scalar W] (s : Recursive) (g : Game W) (q : Query) : Except (SolveError W) Regions := do
  g.checkValid
  return s.regions g q

end Recursive

end OmegaGames
