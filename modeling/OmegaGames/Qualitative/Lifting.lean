import OmegaGames.Choice
import OmegaGames.Game.Predecessors
import OmegaGames.Qualitative.Measure
import OmegaGames.Qualitative.Problem

/-!
# Solution by lifting progress measures

Every node of a two player game starts at the least measure and is lifted until no lift changes a
measure any more. In which order nodes are lifted is a setting; the result is the least fixed point.
-/
namespace OmegaGames

inductive LiftMethod where
  /-- Sweep over all nodes until a sweep changes nothing. -/
  | all
  /-- Keep a list of the nodes with a changed successor. -/
  | successorChanged
deriving DecidableEq, Repr

/-- The end of the list from which the next node is taken. -/
inductive LiftOrder where
  | fifo
  | lifo
deriving DecidableEq, Repr

structure Lifting where
  method : LiftMethod
  order : LiftOrder
deriving DecidableEq, Repr

namespace Lifting

variable {W : Type}

abbrev Table := Array Measure

def measureAt (t : Table) (v : Nat) : Measure := t.getD v .top

/-- The position of the successor with the least measure for Even and the greatest for Odd. -/
def bestPosition (g : Game W) (t : Table) (v : Nat) : Nat :=
  let measures := (g.succs v).map (measureAt t)
  match g.owner v with
  | .even => firstBest Measure.lt measures
  | _ => firstBest (fun a b => Measure.lt b a) measures

def lifted (g : Game W) (levels : List Level) (t : Table) (v : Nat) : Measure :=
  match g.succ? v (bestPosition g t v) with
  | some u => Measure.raise levels (g.priority v) (measureAt t u)
  | none => measureAt t v

/-- Lifts one node, and tells whether its measure changed. -/
def lift (g : Game W) (levels : List Level) (t : Table) (v : Nat) : Table × Bool :=
  let m := lifted g levels t v
  if m = measureAt t v then (t, false) else (t.setIfInBounds v m, true)

def initial (g : Game W) (levels : List Level) : Table := Array.replicate g.size (.zero levels)

def sweep (g : Game W) (levels : List Level) (t : Table) : Table × Bool :=
  (List.range g.size).foldl (fun (t, changed) v =>
    let (t, c) := lift g levels t v
    (t, changed || c)) (t, false)

def sweepAll (g : Game W) (levels : List Level) : Nat → Table → Table
  | 0, t => t
  | rounds + 1, t =>
    match sweep g levels t with
    | (t, true) => sweepAll g levels rounds t
    | (t, false) => t

/-- The nodes waiting to be lifted, the next one first. -/
structure Agenda where
  queue : List Nat
  queued : NodeSet

namespace Agenda

def initial (order : LiftOrder) (n : Nat) : Agenda :=
  match order with
  | .fifo => ⟨List.range n, .full n⟩
  | .lifo => ⟨(List.range n).reverse, .full n⟩

/-- Puts a node on the list unless it waits there already. -/
def add (order : LiftOrder) (a : Agenda) (v : Nat) : Agenda :=
  if a.queued.contains v then a
  else match order with
    | .fifo => ⟨a.queue ++ [v], a.queued.insert v⟩
    | .lifo => ⟨v :: a.queue, a.queued.insert v⟩

end Agenda

def work (a : Arena W) (levels : List Level) (order : LiftOrder) : Nat → Agenda → Table → Table
  | 0, _, t => t
  | steps + 1, agenda, t =>
    match agenda.queue with
    | [] => t
    | v :: rest =>
      let agenda := ⟨rest, agenda.queued.erase v⟩
      match lift a.game levels t v with
      | (t, false) => work a levels order steps agenda t
      | (t, true) =>
        let agenda := (a.preds.of v).foldl (fun g (u, _) => g.add order u) agenda
        work a levels order steps agenda t

/-- The most lifts that change a measure: each one raises the measure of a node. -/
def changeBound (g : Game W) (levels : List Level) : Nat := g.size * Measure.count levels

/-- The measures of the nodes when no lift changes any of them. -/
def measures (s : Lifting) (g : Game W) : Table :=
  let levels := Level.ofGame g
  let start := initial g levels
  match s.method with
  | .all => sweepAll g levels (changeBound g levels + 1) start
  | .successorChanged =>
    work g.arena levels s.order (g.size + changeBound g levels * g.size + 1)
      (.initial s.order g.size) start

/-- A table of four-byte counts has to fit into half of a 64-bit address space. -/
def capacity : Nat := Nat.pow 2 61

/-- The length of the table that has, for every node, a count for every odd priority up to the largest. -/
def tableLength (g : Game W) : Nat := g.size * ((g.maxPriority?.getD 0 + 1) / 2)

def checkCapacity (g : Game W) : Except (SolveError W) Unit :=
  if capacity ≤ tableLength g then .error .capacity else .ok ()

def regions (s : Lifting) (g : Game W) (request : Request) : Regions :=
  let t := s.measures g
  let decide? v := if request.wants (g.owner v) then some (bestPosition g t v) else none
  { even := .ofPred g.size fun v => !(measureAt t v).isTop
    odd := .ofPred g.size fun v => (measureAt t v).isTop
    strategy :=
      if request.any then some ⟨Array.ofFn fun v : Fin g.size => decide? v⟩ else none }

def solve [Scalar W] (s : Lifting) (g : Game W) (q : Query) : Except (SolveError W) Regions := do
  g.checkValid
  g.checkTwoPlayer
  checkCapacity g
  return s.regions g q.request

end Lifting

end OmegaGames
