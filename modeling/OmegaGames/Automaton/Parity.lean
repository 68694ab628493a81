import OmegaGames.Automaton.Explicit

/-!
# Parity automata

Acceptance conditions turned into priorities on transitions: a run is accepted if the least priority
it sees infinitely often is even. Most conditions only need new labels; several conditions of the form
`Inf` need a counter that waits for one set after the other.
-/
namespace OmegaGames

/-- The conditions that can be turned into priorities. -/
inductive ParityCondition where
  | constant (accepting : Bool)
  | buchi (set : Nat)
  | coBuchi (set : Nat)
  /-- One pair `Fin(fin) & Inf(inf)`. -/
  | rabin (fin inf : Nat)
  /-- The least or greatest color decides by its parity. -/
  | parity (greatest even : Bool) (colors : Nat)
  /-- All sets have to be visited infinitely often. -/
  | generalizedBuchi (sets : List Nat)
deriving DecidableEq, Repr

namespace ParityCondition

/-- The priority of an edge by its greatest or least color; an edge without color counts as the least
significant color. Counting from the greatest color downwards starts at a bound of the right parity,
and fails for a color beyond it. -/
def colorPriority? (greatest even : Bool) (colors : Nat) (marks : List Nat) : Option Nat :=
  if greatest then
    let rank := match marks.getLast? with
      | some c => c + 1
      | none => 0
    let bound := if even then (if colors % 2 = 0 then colors + 1 else colors) else colors + colors % 2
    if rank ≤ bound then some (bound - rank) else none
  else
    let color := marks.head?.getD colors
    some (if even then color else color + 1)

/-- The priority of an edge with the given marks, for conditions without a counter. -/
def priority? (marks : List Nat) : ParityCondition → Option Nat
  | constant accepting => some (if accepting then 0 else 1)
  | buchi n => some (if marks.contains n then 0 else 1)
  | coBuchi n => some (if marks.contains n then 1 else 2)
  | rabin fin inf =>
    some (if marks.contains fin then 1 else if marks.contains inf then 0 else 2)
  | parity greatest even colors => colorPriority? greatest even colors marks
  | generalizedBuchi _ => none

/-- Reads the name `parity min|max even|odd N` of a condition; `none` if it is another name. -/
def ofName? (words : List String) : Option (Except AutomatonError ParityCondition) :=
  match words with
  | ["parity", order, favored, colors] =>
    let greatest := match order with
      | "min" => some false
      | "max" => some true
      | _ => none
    let even := match favored with
      | "even" => some true
      | "odd" => some false
      | _ => none
    match greatest, even, Text.readNumeral? Text.halfWordLimit colors.toList with
    | some greatest, some even, some colors => some (.ok (parity greatest even colors))
    | _, _, _ => some (.error (.unsupportedAcceptance (String.intercalate " " words)))
  | _ => none

def infSets? (cs : List Acceptance) : Option (List Nat) :=
  cs.mapM fun c => match c with
    | .inf n => some n
    | _ => none

def ofAcceptance (a : Acceptance) : Except AutomatonError ParityCondition :=
  let unsupported := .error (.unsupportedAcceptance (String.ofList a.text))
  match a with
  | .always => .ok (constant true)
  | .never => .ok (constant false)
  | .inf n => .ok (buchi n)
  | .fin n => .ok (coBuchi n)
  | .and [.fin m, .inf n] => .ok (rabin m n)
  | .and [.inf n, .fin m] => .ok (rabin m n)
  | .and cs =>
    match infSets? cs with
    | some sets => .ok (generalizedBuchi sets)
    | none => unsupported
  | .or _ => unsupported

/-- The condition of an automaton: by its name if that names a parity condition, else by the formula. -/
def ofDescription (d : Description) : Except AutomatonError ParityCondition :=
  match ofName? d.accName with
  | some r => r
  | none => ofAcceptance d.acceptance

end ParityCondition

namespace ExplicitAutomaton

/-- Goes on waiting, from set `next` on, past all sets that the marks contain. -/
def advance (marks : List Nat) : List Nat → Nat → Nat
  | [], next => next
  | n :: ns, next => if marks.contains n then advance marks ns (next + 1) else next

/-- An edge between copies of its states: copy `counter` waits for the set with that number, and a
round through all sets has priority zero. -/
def copyEdge (sets : List Nat) (e : MarkedEdge) (counter : Nat) : LabelledEdge Nat :=
  let k := sets.length
  let next := advance e.marks (sets.drop counter) counter
  if next = k then ⟨e.source * k + counter, e.guard, e.target * k, 0⟩
  else ⟨e.source * k + counter, e.guard, e.target * k + next, 1⟩

def copyEdges (sets : List Nat) (es : List MarkedEdge) : List (LabelledEdge Nat) :=
  es.flatMap fun e => (List.range sets.length).map (copyEdge sets e)

def relabel (c : ParityCondition) (es : List MarkedEdge) :
    Except AutomatonError (List (LabelledEdge Nat)) :=
  es.mapM fun e =>
    match c.priority? e.marks with
    | some p => .ok ⟨e.source, e.guard, e.target, p⟩
    | none => .error .undeclaredColor

/-- The automaton whose labels are priorities. With `k` sets to wait for, state `q` becomes the states
from `q * k` to `q * k + k - 1`. -/
def parity (d : Description) : Except AutomatonError (ExplicitAutomaton Nat) := do
  let initial ← initialState d
  match ← ParityCondition.ofDescription d with
  | .generalizedBuchi sets =>
    let k := sets.length
    checkStateCount (d.stateCount * k)
    return build d (initial * k) (d.stateCount * k) (copyEdges sets d.markedEdges) 1
  | c =>
    checkStateCount d.stateCount
    return build d initial d.stateCount (← relabel c d.markedEdges) 1

end ExplicitAutomaton

end OmegaGames
