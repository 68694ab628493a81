import OmegaGames.Decimal.Plain
import OmegaGames.Qualitative.Problem

/-!
# Messages about games

The wording of the defects of a game and of a solver's refusals.
-/
namespace OmegaGames

def GameError.message : GameError Float → String
  | .successorOutOfRange node successor =>
    s!"node {node} has successor {successor} which is not part of the game"
  | .deadEnd node => s!"node {node} has no successors"
  | .invalidWeight node position weight =>
    s!"edge {position} of stochastic node {node} has invalid weight " ++ Decimal.plain weight
  | .infinitePriority node => s!"node {node} has an infinite priority, normalize priorities first"

def SolveError.message : SolveError Float → String
  | .invalidGame _ => "invalid game"
  | .stochasticNode node => s!"node {node} is stochastic, which this solver does not support"
  | .capacity => "the priorities are too high for this solver"
  | .unsettled => "the values did not come to rest"

end OmegaGames
