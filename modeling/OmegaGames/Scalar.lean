/-!
# Arithmetic of weights and values

Probabilities are computed with machine floats and reasoned about with exact rationals. Both are
instances of one small interface, so an iteration is written once for the two of them.
-/
namespace OmegaGames

/-- The arithmetic that edge weights and game values need. -/
class Scalar (α : Type) where
  zero : α
  one : α
  /-- The start of every sum: adding it to a number gives that number back. -/
  neutral : α
  add : α → α → α
  sub : α → α → α
  mul : α → α → α
  abs : α → α
  lt : α → α → Bool
  le : α → α → Bool
  isFinite : α → Bool

namespace Scalar

/-- Negative zero is the neutral element: added to positive zero it gives positive zero. -/
instance : Scalar Float where
  zero := 0
  one := 1
  neutral := -0.0
  add := (· + ·)
  sub := (· - ·)
  mul := (· * ·)
  abs := Float.abs
  lt a b := decide (a < b)
  le a b := decide (a ≤ b)
  isFinite := Float.isFinite

instance : Scalar Rat where
  zero := 0
  one := 1
  neutral := 0
  add := (· + ·)
  sub := (· - ·)
  mul := (· * ·)
  abs q := if q < 0 then -q else q
  lt a b := decide (a < b)
  le a b := decide (a ≤ b)
  isFinite _ := true

variable {α : Type} [Scalar α]

/-- Only a float that is no number fails to be at most itself. -/
@[inline] def isNumber (a : α) : Bool := le a a

/-- The larger of two numbers, the first of two equal ones; what is no number is passed over. -/
@[inline] def larger (a b : α) : α :=
  if !isNumber a then b else if lt a b then b else a

/-- The smaller of two numbers, the first of two equal ones; what is no number is passed over. -/
@[inline] def smaller (a b : α) : α :=
  if !isNumber a then b else if lt b a then b else a

@[inline] def distance (a b : α) : α := abs (sub a b)

@[specialize] def sum (xs : List α) : α := xs.foldl add neutral

end Scalar

end OmegaGames
