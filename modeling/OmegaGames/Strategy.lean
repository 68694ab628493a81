import OmegaGames.Game.Basic
import OmegaGames.NodeSet

/-!
# Positional strategies and solutions

A strategy gives some nodes of a game the position of the chosen successor. A qualitative solution
splits the nodes into the regions that the players win; a quantitative one gives each node the
probability that Even wins.
-/
namespace OmegaGames

/-- The players whose decisions are wanted. -/
structure Request where
  even : Bool
  odd : Bool
deriving DecidableEq, Repr

namespace Request

def none : Request := ⟨false, false⟩
def evenOnly : Request := ⟨true, false⟩
def oddOnly : Request := ⟨false, true⟩
def both : Request := ⟨true, true⟩

def any (r : Request) : Bool := r.even || r.odd

def wants (r : Request) : Player → Bool
  | .even => r.even
  | .odd => r.odd
  | .stochastic => false

theorem any_eq_false_iff {r : Request} : r.any = false ↔ r = none := by
  cases r
  simp [any, none]

@[simp] theorem wants_evenOnly (x : Player) : evenOnly.wants x = decide (x = .even) := by cases x <;> rfl

@[simp] theorem wants_oddOnly (x : Player) : oddOnly.wants x = decide (x = .odd) := by cases x <;> rfl

def swapped (r : Request) : Request := ⟨r.odd, r.even⟩

end Request

structure Strategy where
  decisions : Array (Option Nat)
deriving DecidableEq, Repr, Inhabited

namespace Strategy

def blank (n : Nat) : Strategy := ⟨Array.replicate n none⟩

def size (σ : Strategy) : Nat := σ.decisions.size

def get (σ : Strategy) (v : Nat) : Option Nat := σ.decisions.getD v none

def set (σ : Strategy) (v i : Nat) : Strategy := ⟨σ.decisions.setIfInBounds v (some i)⟩

def unset (σ : Strategy) (v : Nat) : Strategy := ⟨σ.decisions.setIfInBounds v none⟩

/-- The nodes with a decision, in increasing order, and their decisions. -/
def toList (σ : Strategy) : List (Nat × Nat) :=
  (List.range σ.size).filterMap fun v => (σ.get v).map fun i => (v, i)

@[simp] theorem size_blank (n : Nat) : (blank n).size = n := by simp [blank, size]

@[simp] theorem size_set (σ : Strategy) (v i : Nat) : (σ.set v i).size = σ.size := by
  simp [set, size]

@[simp] theorem get_blank (n v : Nat) : (blank n).get v = none := by
  by_cases h : v < n <;> simp [blank, get, Array.getD, h]

theorem get_set (σ : Strategy) (u v i : Nat) :
    (σ.set u i).get v = if u = v ∧ v < σ.size then some i else σ.get v := by
  by_cases h : v < σ.decisions.size
  · by_cases hu : u = v
    · subst hu; simp [set, get, size, Array.getD, h]
    · simp [set, get, size, Array.getD, h, hu]
  · simp [set, get, size, Array.getD, h]

theorem lt_size_of_get {σ : Strategy} {v i : Nat} (h : σ.get v = some i) : v < σ.size := by
  by_cases hv : v < σ.decisions.size
  · exact hv
  · simp [get, Array.getD, hv] at h

@[simp] theorem size_unset (σ : Strategy) (v : Nat) : (σ.unset v).size = σ.size := by
  simp [unset, size]

theorem get_unset (σ : Strategy) (u v : Nat) :
    (σ.unset u).get v = if u = v ∧ v < σ.size then none else σ.get v := by
  by_cases h : v < σ.decisions.size
  · by_cases hu : u = v
    · subst hu; simp [unset, get, size, Array.getD, h]
    · simp [unset, get, size, Array.getD, h, hu]
  · simp [unset, get, size, Array.getD, h]

/-! For a caller who does not know that the node exists, `none` says that it does not. -/

def get? (σ : Strategy) (v : Nat) : Option (Option Nat) := σ.decisions[v]?

def set? (σ : Strategy) (v i : Nat) : Option Strategy :=
  if v < σ.size then some (σ.set v i) else none

def unset? (σ : Strategy) (v : Nat) : Option Strategy :=
  if v < σ.size then some (σ.unset v) else none

def successor? {W : Type} (σ : Strategy) (g : Game W) (v : Nat) : Option (Option Nat) := do
  match ← σ.get? v with
  | none => some none
  | some i => some (some (← g.succ? v i))

end Strategy

/-- The regions won by the two players, and the decisions that were asked for. -/
structure Regions where
  even : NodeSet
  odd : NodeSet
  strategy : Option Strategy
deriving DecidableEq, Repr

namespace Regions

def empty (n : Nat) : Regions := ⟨.empty n, .empty n, none⟩

def winner? (r : Regions) (v : Nat) : Option Player :=
  if r.even.contains v then some .even
  else if r.odd.contains v then some .odd
  else none

def decision (r : Regions) (v : Nat) : Option Nat := r.strategy.bind (·.get v)

def swapped (r : Regions) : Regions := ⟨r.odd, r.even, r.strategy⟩

end Regions

/-- The probability of each node, and the decisions that were asked for. -/
structure Outlook (W : Type) where
  values : Array W
  strategy : Option Strategy

namespace Outlook

variable {W : Type}

def value [Scalar W] (o : Outlook W) (v : Nat) : W := o.values.getD v Scalar.zero

def decision (o : Outlook W) (v : Nat) : Option Nat := o.strategy.bind (·.get v)

end Outlook

end OmegaGames
