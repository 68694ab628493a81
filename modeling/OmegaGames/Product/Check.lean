import OmegaGames.Automaton.LtlTool
import OmegaGames.Automaton.Parity
import OmegaGames.Options
import OmegaGames.Product.Game

/-!
# Checking models

Whether, or with which probability, a coalition of players can make an automaton accept, from each
initial node of a model.
-/
namespace OmegaGames

inductive CheckError where
  | product (cause : ProductError)
  | solve (cause : SolveError Float)
  | automaton (cause : AutomatonError)
  | tool (cause : LtlToolError)

def CheckError.message : CheckError → String
  | product _ => "failed to build the product"
  | solve _ => "failed to solve the product game"
  | automaton _ => "unusable automaton"
  | tool _ => "failed to build an automaton for the formula"

namespace Model

def productGame (m : Model Float) (a : ExplicitAutomaton Nat) (coalition : List Nat) :
    Except CheckError (ProductGame Float) :=
  (ProductGame.build (.ofModel m a) coalition).mapError .product

def report {α : Type} (p : ProductGame Float) (f : Nat → α) : List (Nat × α) :=
  p.initial.filterMap fun n => p.states[n]?.map fun s => (s.model, f n)

/-- Whether the coalition can make the automaton accept: with probability one if strict, and else such
that the others cannot make it reject with probability one. -/
def checkQualitative (m : Model Float) (a : ExplicitAutomaton Nat) (coalition : List Nat)
    (strictEven : Bool) (o : Options) : Except CheckError (List (Nat × Bool)) := do
  let p ← m.productGame a coalition
  let r ← (o.qualitative.solve p.game ⟨strictEven, .none⟩).mapError .solve
  return report p r.even.contains

/-- The probability with which the coalition can make the automaton accept. -/
def checkQuantitative (m : Model Float) (a : ExplicitAutomaton Nat) (coalition : List Nat)
    (o : Options) : Except CheckError (List (Nat × Float)) := do
  let p ← m.productGame a coalition
  let r ← (o.quantitative.solve p.game .none).mapError .solve
  return report p r.value

/-- Checks the automaton that a tool finds for a formula, quantitatively. -/
def checkFormula (m : Model Float) (f : Formula) (t : LtlTool) (run : ProgramRunner) (coalition : List Nat)
    (o : Options) : Except CheckError (List (Nat × Float)) := do
  let d ← (t.automaton run f).mapError .tool
  let a ← (ExplicitAutomaton.parity d).mapError .automaton
  m.checkQuantitative a coalition o

end Model

end OmegaGames
