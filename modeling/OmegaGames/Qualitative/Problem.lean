import OmegaGames.Strategy

/-!
# Qualitative problems

What every qualitative solver is asked, and why it may refuse. One of the players has to win with
probability one: Even if the problem is strict for Even, and Odd otherwise. Every node is won by one
of them.
-/
namespace OmegaGames

inductive SolveError (W : Type) where
  | invalidGame (cause : GameError W)
  /-- The solver is for two players only. -/
  | stochasticNode (node : Nat)
  /-- The game is too large for the solver's tables. -/
  | capacity
  /-- An iteration did not come to rest within the rounds it was given. -/
  | unsettled

/-- Who has to win with probability one, and whose decisions are wanted. -/
structure Query where
  strictEven : Bool
  request : Request

namespace Query

/-- Whether a player's region must be won with probability one. -/
def needsAlmostSure (q : Query) : Player → Bool
  | .even => q.strictEven
  | .odd => !q.strictEven
  | .stochastic => false

def swapped (q : Query) : Query := ⟨!q.strictEven, q.request.swapped⟩

end Query

namespace Game

variable {W : Type}

def checkValid [Scalar W] (g : Game W) : Except (SolveError W) Unit :=
  match g.firstError? with
  | some e => .error (.invalidGame e)
  | none => .ok ()

def checkTwoPlayer (g : Game W) : Except (SolveError W) Unit :=
  match (List.range g.size).find? fun v => g.owner v = .stochastic with
  | some v => .error (.stochasticNode v)
  | none => .ok ()

end Game

end OmegaGames
