import OmegaGames.Automaton.Guard

/-!
# Automata as they are run

An automaton reads valuations of its expressions. States and transition labels are numbered, equal
ones by the same number, and a number never changes its meaning. An automaton may discover states as
it is queried, so a query gives the automaton back.
-/
namespace OmegaGames

/-- A step of an automaton: the next state and the number of the label. -/
structure Transition where
  state : Nat
  label : Nat
deriving DecidableEq, Repr, Inhabited

/-- What a product needs of an automaton whose labels have type `L`. -/
class Automaton (A : Type) (L : outParam Type) where
  expressions : A → List String
  initial : A → Nat
  /-- The number of states discovered so far. -/
  stateCount : A → Nat
  isDeterministic : A → Bool
  /-- The transitions of a state under a valuation; `none` if there is no such state. -/
  query? : A → Valuation → Nat → Option (A × List Transition)
  label? : A → Nat → Option L

inductive AutomatonError where
  | unsupportedAcceptance (condition : String)
  | incompatibleAutomata
  | emptyProduct
  | initialStates (count : Nat)
  /-- A mark lies beyond the colours that the name of the condition declares. -/
  | undeclaredColor
  /-- The states are too many for a table. -/
  | capacity
deriving DecidableEq, Repr

def AutomatonError.message : AutomatonError → String
  | unsupportedAcceptance condition => "unsupported acceptance condition `" ++ condition ++ "`"
  | incompatibleAutomata => "automata over different expressions cannot be combined"
  | emptyProduct => "a product needs at least one automaton"
  | initialStates count => s!"expected exactly one initial state, found {count}"
  | undeclaredColor => "a mark is not a declared color"
  | capacity => "too many states"

end OmegaGames
