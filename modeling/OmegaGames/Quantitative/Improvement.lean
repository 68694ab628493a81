import OmegaGames.Game.Restriction
import OmegaGames.Game.Subgame
import OmegaGames.Qualitative.Gadget
import OmegaGames.Quantitative.Reachability

/-!
# Solution by strategy improvement

The value of a node is the probability with which Even wins from it when both players do their best.
A strategy of Even is improved against Odd's best answer, until neither a successor of better value
nor the region that Even wins with probability one, when only edges consistent with the values are
allowed, suggests a change.
-/
namespace OmegaGames

structure Improvement (W : Type) where
  qualitative : QualitativeSolver
  reach : ValueIteration W
  /-- Values closer than this count as equal. -/
  tolerance : W
  /-- Values below this count as zero when the first strategy is chosen. -/
  negligible : W
  /-- The largest number of improvements. -/
  rounds : Nat

namespace Improvement

variable {W : Type} [Scalar W]

open Scalar ValueIteration

def reachOutlook (s : Improvement W) (g : Game W) (target : NodeSet) (request : Request) :
    Except (SolveError W) (Outlook W) :=
  match s.reach.solve g target request with
  | .ok o => .ok o
  | .error _ => .error .unsettled

/-! ## The first strategy -/

/-- Copies the decisions of the Even nodes that satisfy `p` from a subgame to the game. -/
def adopt (sub : Subgame W) (p : Nat → Bool) (decision : Nat → Option Nat) (σ : Strategy) : Strategy :=
  (List.range sub.game.size).foldl (fun σ v =>
    if sub.game.owner v = .even && p v then
      match decision v with
      | some i => σ.set (sub.orig v) (sub.origPosition v i)
      | none => σ
    else σ) σ

def hopeless (s : Improvement W) (g : Game W) (sub : Subgame W) (reached : Outlook W) : NodeSet :=
  .ofList g.size
    (((List.range sub.game.size).filter fun v => lt (reached.value v) s.negligible).map sub.orig)

/-- Decides the Even nodes of a region: so as to win with probability one where that is possible, and
elsewhere so as to reach that part with the greatest probability. Nodes that cannot reach it at all
are decided anew on their own; they are fewer, which the depth bounds. -/
def initialise (s : Improvement W) (g : Game W) : Nat → NodeSet → Strategy →
    Except (SolveError W) Strategy
  | 0, _, σ => .ok σ
  | depth + 1, region, σ => do
    let sub := g.subgame region
    let won ← s.qualitative.solve sub.game ⟨true, .evenOnly⟩
    if won.even.isEmpty then
      return adopt sub (fun _ => true) (fun _ => some 0) σ
    let σ := adopt sub won.even.contains won.decision σ
    let reached ← s.reachOutlook sub.game won.even .evenOnly
    let σ := adopt sub (fun v => !won.even.contains v) reached.decision σ
    let rest := s.hopeless g sub reached
    if rest.isEmpty then return σ else s.initialise g depth rest σ

/-! ## Improvement -/

/-- The values when Even follows the strategy and Odd does its best, with Odd's decisions if wanted.
They are found in the dual game, where Odd takes the part of Even. -/
def evaluate (s : Improvement W) (g : Game W) (σ : Strategy) (wantOdd : Bool) :
    Except (SolveError W) (Outlook W) := do
  let dual := (g.induced σ .even).game.dual
  let request := if wantOdd then Request.evenOnly else Request.none
  let won ← s.qualitative.solve dual ⟨true, request⟩
  let reached ← s.reachOutlook dual won.even request
  let decision v := if won.even.contains v then won.decision v else reached.decision v
  let odd : Strategy :=
    ⟨Array.ofFn fun v : Fin g.size => if g.owner v = .odd then decision v else none⟩
  return ⟨reached.values.map (sub one), if wantOdd then some odd else none⟩

/-- The first successor of largest value among those of larger value than the node itself, with that
value. -/
def betterSuccessor? (g : Game W) (values : Array W) (v : Nat) : Option (Nat × W) :=
  (g.succs v).zipIdx.foldl (fun best (u, i) =>
    let bar := match best with
      | some (_, x) => x
      | none => valueAt values v
    if lt bar (valueAt values u) then some (i, valueAt values u) else best) none

/-- Switches Even to successors of better value, and tells whether anything changed. -/
def improveDirectly (s : Improvement W) (g : Game W) (values : Array W) (σ : Strategy) :
    Strategy × Bool :=
  (List.range g.size).foldl (fun (σ, changed) v =>
    if g.owner v = .even then
      match betterSuccessor? g values v with
      | some (i, x) =>
        if le s.tolerance (sub x (valueAt values v)) then (σ.set v i, true) else (σ, changed)
      | none => (σ, changed)
    else (σ, changed)) (σ, false)

/-- Whether an edge is consistent with the values: Even loses nothing by it and Odd gives nothing
away. -/
def consistent (s : Improvement W) (g : Game W) (values : Array W) (v i : Nat) : Bool :=
  match g.succ? v i with
  | none => false
  | some u =>
    let here := valueAt values v
    let there := valueAt values u
    let equal := lt (distance there here) s.tolerance
    match g.owner v with
    | .stochastic => true
    | .even => le here there || equal
    | .odd => le there here || equal

/-- Switches Even to the decisions that win with probability one along consistent edges, if some node
is not won so already, and tells whether anything changed. -/
def improveRegion (s : Improvement W) (g : Game W) (values : Array W) (σ : Strategy) :
    Except (SolveError W) (Strategy × Bool) := do
  let r := g.keepEdges (s.consistent g values)
  let won ← s.qualitative.solve r.game ⟨true, .evenOnly⟩
  if won.even.toList.all fun v => le (sub one s.tolerance) (valueAt values v) then
    return (σ, false)
  return won.even.toList.foldl (fun (σ, changed) v =>
    if g.owner v = .even then
      match won.decision v with
      | some i =>
        let i := r.origPosition v i
        if σ.get v = some i then (σ, changed) else (σ.set v i, true)
      | none => (σ, changed)
    else (σ, changed)) (σ, false)

/-- Gives the Odd nodes the decisions of Odd's answer. -/
def answer (g : Game W) (odd : Option Strategy) (σ : Strategy) : Strategy :=
  (List.range g.size).foldl (fun σ v =>
    if g.owner v = .odd then
      match odd.bind (·.get v) with
      | some i => σ.set v i
      | none => σ.unset v
    else σ) σ

/-- Improves a strategy until nothing suggests a change. -/
def improve (s : Improvement W) (g : Game W) (request : Request) : Nat → Strategy →
    Except (SolveError W) (Outlook W)
  | 0, _ => .error .unsettled
  | rounds + 1, σ => do
    let evaluated ← s.evaluate g σ request.odd
    match improveDirectly s g evaluated.values σ with
    | (σ, true) => s.improve g request rounds σ
    | (σ, false) =>
      match ← s.improveRegion g evaluated.values σ with
      | (σ, true) => s.improve g request rounds σ
      | (σ, false) =>
        let σ := if request.odd then answer g evaluated.strategy σ else σ
        return ⟨evaluated.values, some σ⟩

def dropEven (g : Game W) (σ : Strategy) : Strategy :=
  (List.range g.size).foldl (fun σ v => if g.owner v = .even then σ.unset v else σ) σ

def solve (s : Improvement W) (g : Game W) (request : Request) : Except (SolveError W) (Outlook W) := do
  g.checkValid
  let σ ← s.initialise g (g.size + 1) (.full g.size) (.blank g.size)
  let o ← s.improve g request s.rounds σ
  let strategy :=
    if !request.any then none
    else if request.even then o.strategy
    else o.strategy.map (dropEven g)
  return { o with strategy }

end Improvement

end OmegaGames
