import OmegaGames.Decimal.Read
import OmegaGames.Quantitative.Improvement

/-!
# Options

The solvers and their settings by name. An option is set from its textual name and value; whatever is
not set keeps its default.
-/
namespace OmegaGames

inductive OptionError where
  | unknownOption (name : String)
  | unknownName (name : String) (expected : List String)
  | invalidValue (option value : String)
deriving DecidableEq, Repr

namespace OptionError

def message : OptionError → String
  | unknownOption name => "unknown option `" ++ name ++ "`"
  | unknownName name expected =>
    "unknown name `" ++ name ++ "`, expected one of: " ++ String.intercalate ", " expected
  | invalidValue option value => "invalid value `" ++ value ++ "` for option `" ++ option ++ "`"

end OptionError

/-- The values that have names, in the order in which they are listed. -/
abbrev Registry (α : Type) := List (String × α)

namespace Registry

variable {α : Type}

def names (r : Registry α) : List String := r.map Prod.fst

def find (r : Registry α) (name : String) : Except OptionError α :=
  match r.lookup name with
  | some a => .ok a
  | none => .error (.unknownName name r.names)

def nameOf [DecidableEq α] (r : Registry α) (a : α) : String :=
  match r.find? fun entry => entry.2 = a with
  | some entry => entry.1
  | none => ""

end Registry

/-- The recursive solver handles stochastic nodes itself and gadgets replace them; lifting is for two
players only. -/
inductive QualitativeKind where
  | recursive
  | lifting
  | gadget
deriving DecidableEq, Repr

inductive TwoPlayerKind where
  | recursive
  | lifting
deriving DecidableEq, Repr

inductive QuantitativeKind where
  | improvement
deriving DecidableEq, Repr

def QualitativeKind.registry : Registry QualitativeKind :=
  [("mcnaughton", .recursive), ("jurdzinski", .lifting), ("gadget", .gadget)]

def TwoPlayerKind.registry : Registry TwoPlayerKind :=
  [("mcnaughton", .recursive), ("jurdzinski", .lifting)]

def QuantitativeKind.registry : Registry QuantitativeKind := [("schewe", .improvement)]

def LiftMethod.registry : Registry LiftMethod :=
  [("all", .all), ("successor-changed", .successorChanged)]

def LiftOrder.registry : Registry LiftOrder := [("fifo", .fifo), ("lifo", .lifo)]

structure Options where
  solver : QualitativeKind := .recursive
  twoPlayerSolver : TwoPlayerKind := .recursive
  quantitativeSolver : QuantitativeKind := .improvement
  liftMethod : LiftMethod := .successorChanged
  liftOrder : LiftOrder := .fifo
  sameParityShortcut : Bool := true
  tolerance : Float := 1e-6
  precision : Float := 1e-10

namespace Options

def names : List String :=
  ["solver", "non-stochastic-solver", "quantitative-solver", "lift-method", "lift-order",
    "same-color-shortcut", "compare-tolerance", "precision"]

def readBool? : String → Option Bool
  | "true" => some true
  | "false" => some false
  | _ => none

/-- Reads a finite number greater than zero. -/
def readPositive? (text : String) : Option Float :=
  match Decimal.read? text with
  | some x => if x.isFinite && 0 < x then some x else none
  | none => none

def orInvalid {α : Type} (option value : String) : Option α → Except OptionError α
  | some a => .ok a
  | none => .error (.invalidValue option value)

def set (o : Options) (option value : String) : Except OptionError Options :=
  match option with
  | "solver" => do return { o with solver := ← QualitativeKind.registry.find value }
  | "non-stochastic-solver" => do
    return { o with twoPlayerSolver := ← TwoPlayerKind.registry.find value }
  | "quantitative-solver" => do
    return { o with quantitativeSolver := ← QuantitativeKind.registry.find value }
  | "lift-method" => do return { o with liftMethod := ← LiftMethod.registry.find value }
  | "lift-order" => do return { o with liftOrder := ← LiftOrder.registry.find value }
  | "same-color-shortcut" => do
    return { o with sameParityShortcut := ← orInvalid option value (readBool? value) }
  | "compare-tolerance" => do
    return { o with tolerance := ← orInvalid option value (readPositive? value) }
  | "precision" => do
    return { o with precision := ← orInvalid option value (readPositive? value) }
  | _ => .error (.unknownOption option)

def setAll (o : Options) (settings : List (String × String)) : Except OptionError Options :=
  settings.foldlM (fun o (option, value) => o.set option value) o

def recursive (o : Options) : Recursive := ⟨o.sameParityShortcut⟩

def lifting (o : Options) : Lifting := ⟨o.liftMethod, o.liftOrder⟩

def twoPlayer (o : Options) : TwoPlayerSolver :=
  match o.twoPlayerSolver with
  | .recursive => .recursive o.recursive
  | .lifting => .lifting o.lifting

def qualitative (o : Options) : QualitativeSolver :=
  match o.solver with
  | .recursive => .recursive o.recursive
  | .lifting => .lifting o.lifting
  | .gadget => .gadget o.twoPlayer

/-- The rounds an iteration on floats is given: more than it could ever run through. -/
def roundLimit : Nat := Nat.pow 2 62

def reachability (o : Options) : ValueIteration Float := ⟨o.precision, o.tolerance, roundLimit⟩

def quantitative (o : Options) : Improvement Float :=
  match o.quantitativeSolver with
  | .improvement => ⟨o.qualitative, o.reachability, o.tolerance, 1e-24, roundLimit⟩

end Options

end OmegaGames
