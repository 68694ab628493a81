import OmegaGames.Automaton.Explicit

/-!
# Automata in lockstep

Several automata over the same expressions, run together. A state is the tuple of the components'
states and a label the tuple of their labels; both are numbered when they are first seen. Answers to
queries are kept.
-/
namespace OmegaGames

structure Lockstep (L : Type) where
  components : List (ExplicitAutomaton L)
  states : Interner (List Nat)
  labels : Interner (List Nat)
  /-- The answers given so far. -/
  answers : List ((Valuation × Nat) × List Transition)

namespace Lockstep

variable {L : Type} [DecidableEq L]

def ofComponents (components : List (ExplicitAutomaton L)) : Except AutomatonError (Lockstep L) :=
  match components with
  | [] => .error .emptyProduct
  | first :: rest =>
    if rest.any fun c => c.expressions ≠ first.expressions then .error .incompatibleAutomata
    else
      let (states, _) := ({} : Interner (List Nat)).intern (components.map (·.initial))
      .ok ⟨components, states, {}, []⟩

def tuple? (p : Lockstep L) (q : Nat) : Option (List Nat) := p.states.get? q

/-- All choices of one element from each list, the first list changing slowest. -/
def choices {α : Type} : List (List α) → List (List α)
  | [] => [[]]
  | xs :: rest => xs.flatMap fun x => (choices rest).map (x :: ·)

/-- The joint transitions of the components. -/
def joint? (p : Lockstep L) (v : Valuation) (q : Nat) : Option (List (List Transition)) := do
  let tuple ← p.tuple? q
  let steps ← (p.components.zip tuple).mapM fun (c, q) => c.query? v q
  return choices steps

def number (p : Lockstep L) (ts : List Transition) : Lockstep L × Transition :=
  let (states, q, _) := p.states.intern (ts.map (·.state))
  let (labels, l, _) := p.labels.intern (ts.map (·.label))
  ({ p with states, labels }, ⟨q, l⟩)

def numberAll (p : Lockstep L) : List (List Transition) → Lockstep L × List Transition
  | [] => (p, [])
  | ts :: rest =>
    let (p, t) := p.number ts
    let (p, rest) := p.numberAll rest
    (p, t :: rest)

def query? (p : Lockstep L) (v : Valuation) (q : Nat) : Option (Lockstep L × List Transition) :=
  match p.answers.lookup (v, q) with
  | some ts => some (p, ts)
  | none => do
    let (p, ts) := p.numberAll (← p.joint? v q)
    return ({ p with answers := ((v, q), ts) :: p.answers }, ts)

instance : Automaton (Lockstep L) (List Nat) where
  expressions p := p.components.head?.elim [] (·.expressions)
  initial _ := 0
  stateCount p := p.states.size
  isDeterministic p := p.components.all (·.deterministic)
  query? := query?
  label? p l := p.labels.get? l

end Lockstep

end OmegaGames
