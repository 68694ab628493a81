import OmegaGames.Automaton.Basic
import OmegaGames.Automaton.Description
import OmegaGames.Interner

/-!
# Explicit automata

Automata whose guarded edges are stored state by state. Where no edge of a state is enabled the
automaton moves to a sink, which is its last state, has no edges, and is never left.
-/
namespace OmegaGames

structure GuardedEdge where
  guard : Guard
  target : Nat
  /-- The number of the label. -/
  label : Nat

structure LabelledEdge (L : Type) where
  source : Nat
  guard : Guard
  target : Nat
  label : L

structure ExplicitAutomaton (L : Type) where
  expressions : List String
  initial : Nat
  deterministic : Bool
  /-- The edges of each state; the last state is the sink. -/
  edges : Array (List GuardedEdge)
  labels : Interner L
  /-- The transition taken where no edge is enabled. -/
  sink : Transition

namespace ExplicitAutomaton

variable {L : Type}

def enabled (v : Valuation) (es : List GuardedEdge) : List Transition :=
  (es.filter fun e => e.guard.eval v).map fun e => ⟨e.target, e.label⟩

/-- The transitions of a state: the enabled edges, or else the step to the sink. -/
def step (sink : Transition) (v : Valuation) (es : List GuardedEdge) : List Transition :=
  match enabled v es with
  | [] => [sink]
  | ts => ts

def query? (a : ExplicitAutomaton L) (v : Valuation) (q : Nat) : Option (List Transition) :=
  a.edges[q]?.map (step a.sink v)

instance [DecidableEq L] : Automaton (ExplicitAutomaton L) L where
  expressions a := a.expressions
  initial a := a.initial
  stateCount a := a.edges.size
  isDeterministic a := a.deterministic
  query? a v q := (a.query? v q).map fun ts => (a, ts)
  label? a l := a.labels.get? l

/-! ## Determinism -/

/-- The valuations of `n` propositions, the first proposition changing fastest. -/
def valuations : Nat → List Valuation
  | 0 => [[]]
  | n + 1 => (valuations n).map (· ++ [false]) ++ (valuations n).map (· ++ [true])

/-- Up to this many propositions determinism is decided by trying all valuations. -/
def enumerationLimit : Nat := 12

def unambiguous (edges : Array (List GuardedEdge)) (apCount : Nat) : Bool :=
  (valuations apCount).all fun v => edges.toList.all fun es => (enabled v es).length ≤ 1

/-- Determinism is taken from the properties, or decided if there are not too many propositions. -/
def isDeterministic (d : Description) (edges : Array (List GuardedEdge)) : Bool :=
  d.properties.contains "deterministic" ||
    (d.aps.length ≤ enumerationLimit && unambiguous edges d.aps.length)

/-! ## Construction -/

/-- The edges by their sources, those of one source in the given order. -/
def fileEdges (stateCount : Nat) (es : List (LabelledEdge L)) : Array (List (LabelledEdge L)) :=
  es.foldl (fun t e => t.modify e.source (· ++ [e])) (Array.replicate stateCount [])

def numberLabels [DecidableEq L] (labels : Interner L) :
    List (LabelledEdge L) → Interner L × List GuardedEdge
  | [] => (labels, [])
  | e :: es =>
    let (labels, l, _) := labels.intern e.label
    let (labels, rest) := numberLabels labels es
    (labels, ⟨e.guard, e.target, l⟩ :: rest)

def numberState [DecidableEq L] (done : Interner L × Array (List GuardedEdge))
    (es : List (LabelledEdge L)) : Interner L × Array (List GuardedEdge) :=
  let (labels, gs) := numberLabels done.1 es
  (labels, done.2.push gs)

/-- The automaton with the given edges. Labels are numbered in the order of the states and their
edges, the label of the sink last. -/
def build [DecidableEq L] (d : Description) (initial stateCount : Nat) (es : List (LabelledEdge L))
    (sinkLabel : L) : ExplicitAutomaton L :=
  let (labels, edges) := (fileEdges stateCount es).foldl numberState ({}, #[])
  let (labels, l, _) := labels.intern sinkLabel
  let edges := edges.push []
  { expressions := d.aps
    initial := initial
    deterministic := isDeterministic d edges
    edges := edges
    labels := labels
    sink := ⟨stateCount, l⟩ }

def initialState (d : Description) : Except AutomatonError Nat :=
  match d.start with
  | [q] => .ok q
  | start => .error (.initialStates start.length)

/-- The table of states, of three words each, is full when the sink is added to it, and has to fit into half
of a 64-bit address space once it is doubled. -/
def stateLimit : Nat := Nat.pow 2 62 / 24

def checkStateCount (n : Nat) : Except AutomatonError Unit :=
  if stateLimit < n then .error .capacity else .ok ()

/-! ## Marks as labels -/

/-- The numbers below `n` whose bits are set in `bits`. -/
def markSubset (n bits : Nat) : List Nat := (List.range n).filter bits.testBit

/-- Up to this many acceptance sets a rejecting set of marks is searched for among all. -/
def searchLimit : Nat := 16

/-- A set of marks that is rejecting if no other marks are seen infinitely often: no marks, all marks,
or the first in a search through all sets; no marks if there is none. -/
def rejectingMarks (d : Description) : List Nat :=
  let rejects (marks : List Nat) : Bool := !d.acceptance.accepts fun n => marks.contains n
  if rejects [] then []
  else if rejects (List.range d.acceptanceSets) then List.range d.acceptanceSets
  else if d.acceptanceSets ≤ searchLimit then
    match (List.range (Nat.pow 2 d.acceptanceSets)).find? fun b => rejects (markSubset d.acceptanceSets b) with
    | some b => markSubset d.acceptanceSets b
    | none => []
  else []

def withMarks (d : Description) : Except AutomatonError (ExplicitAutomaton (List Nat)) := do
  let initial ← initialState d
  checkStateCount d.stateCount
  let es := d.markedEdges.map fun e => ⟨e.source, e.guard, e.target, e.marks⟩
  return build d initial d.stateCount es (rejectingMarks d)

end ExplicitAutomaton

end OmegaGames
