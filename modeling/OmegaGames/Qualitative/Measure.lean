import OmegaGames.Game.Basic

/-!
# Progress measures

A measure counts, for every odd priority that occurs in the game, how often it is still seen before a
smaller priority; smaller priorities weigh more. No count exceeds the number of nodes with that
priority. The greatest measure, `top`, stands above all counts and marks the nodes that Even loses.

A table of measures has a row of 32-bit counts for each node: one for every odd priority up to the largest, which
stays zero if no node has that priority, and `top` is the row in which every count is `2 ^ 32 - 1`. The measures
here leave out the counts that stay zero and are unbounded, so they are those rows only for games with fewer than
`2 ^ 32 - 1` nodes, where no count gets to that of `top`.
-/
namespace OmegaGames

/-- An odd priority and the number of nodes that have it. -/
structure Level where
  priority : Nat
  bound : Nat
deriving DecidableEq, Repr

/-- The counts of the levels in order of their priorities, or the greatest measure. A row of 32-bit counts is such
a measure as long as no bound is `2 ^ 32 - 1` or more. -/
inductive Measure where
  | counts (cs : List Nat)
  | top
deriving DecidableEq, Repr, Inhabited

namespace Level

/-- Counts one more node in levels ordered by priority. -/
def enter (p : Nat) : List Level → List Level
  | [] => [⟨p, 1⟩]
  | l :: ls =>
    if p < l.priority then ⟨p, 1⟩ :: l :: ls
    else if p = l.priority then ⟨p, l.bound + 1⟩ :: ls
    else l :: enter p ls

/-- The levels of a game: its odd priorities in increasing order. -/
def ofGame {W : Type} (g : Game W) : List Level :=
  ((g.nodes.toList.map Node.priority).filter (· % 2 = 1)).foldr enter []

end Level

namespace Measure

def isTop : Measure → Bool
  | top => true
  | counts _ => false

/-- Counts are compared from the smallest priority on. -/
def lt : Measure → Measure → Bool
  | counts a, counts b => decide (a < b)
  | counts _, top => true
  | top, _ => false

def zero (levels : List Level) : Measure := counts (levels.map fun _ => 0)

/-- Forgets the counts of the priorities above `p`. -/
def truncate (p : Nat) (levels : List Level) (cs : List Nat) : List Nat :=
  List.zipWith (fun l c => if l.priority ≤ p then c else 0) levels cs

/-- The least counts above `cs` that differ at a priority of at most `p`; `none` if all these counts
are at their bounds. -/
def next? (p : Nat) : List Level → List Nat → Option (List Nat)
  | l :: ls, c :: cs =>
    if p < l.priority then none
    else match next? p ls cs with
      | some cs' => some (c :: cs')
      | none => if c < l.bound then some ((c + 1) :: cs.map fun _ => 0) else none
  | _, _ => none

/-- The least measure a node of priority `p` may have whose decisive successor has measure `m`: not
below `m` up to `p`, and above it if `p` is odd. -/
def raise (levels : List Level) (p : Nat) : Measure → Measure
  | top => top
  | counts cs =>
    if p % 2 = 1 then
      match next? p levels cs with
      | some cs' => counts cs'
      | none => top
    else counts (truncate p levels cs)

def count (levels : List Level) : Nat := (levels.map fun l => l.bound + 1).foldr (· * ·) 1 + 1

end Measure

end OmegaGames
