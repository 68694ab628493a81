/-!
# Shortest decimals

Among the decimals that are read back as a given positive float, those with the fewest digits, and of
these the nearest. The search is exact: a float is an integer times a power of two, and the numbers
read as it form an interval around it, whose ends belong to it if the integer is even.
-/
namespace OmegaGames.Decimal

/-- A decimal `digits * 10 ^ exponent`. -/
structure Scientific where
  digits : Nat
  exponent : Int
deriving DecidableEq, Repr

/-- The finite positive float `mantissa * 2 ^ exponent`. -/
structure Binary where
  mantissa : Nat
  exponent : Int
deriving DecidableEq, Repr

namespace Binary

def ofBits (bits : UInt64) : Binary :=
  let fraction := (bits &&& 0xfffffffffffff).toNat
  let power := ((bits >>> 52) &&& 0x7ff).toNat
  if power = 0 then ⟨fraction, -1074⟩ else ⟨fraction + Nat.pow 2 52, (power : Int) - 1075⟩

/-- Whether the next smaller float is only half as far as the next larger one. -/
def atPowerOfTwo (b : Binary) : Bool := b.mantissa = Nat.pow 2 52 && b.exponent ≠ -1074

/-- The largest power of ten that is at most the number, plus one. -/
def magnitude (b : Binary) : Int :=
  let num := b.mantissa * Nat.pow 2 b.exponent.toNat
  let den := Nat.pow 2 (-b.exponent).toNat
  if den ≤ num then (Nat.toDigits 10 (num / den)).length
  else
    match (List.range 400).find? fun t => den ≤ num * Nat.pow 10 t with
    | some t => 1 - (t : Int)
    | none => 0

end Binary

/-- The multiple of `10 ^ j` next to the number that is read as it, if there is one. In units of a
quarter of the last bit the number is `4 * mantissa`. A tie goes to the larger multiple. -/
def onGrid? (b : Binary) (j : Int) : Option Nat :=
  let q := b.exponent - 2
  let unit := Nat.pow 2 q.toNat * Nat.pow 10 (-j).toNat
  let step := Nat.pow 10 j.toNat * Nat.pow 2 (-q).toNat
  let value := 4 * b.mantissa * unit
  let low := (4 * b.mantissa - (if b.atPowerOfTwo then 1 else 2)) * unit
  let high := (4 * b.mantissa + 2) * unit
  let inside (c : Nat) : Bool :=
    if b.mantissa % 2 = 0 then low ≤ c * step && c * step ≤ high
    else low < c * step && c * step < high
  let below := value / step
  match inside below, inside (below + 1) with
  | false, false => none
  | true, false => some below
  | false, true => some (below + 1)
  | true, true => if value - below * step < (below + 1) * step - value then some below else some (below + 1)

/-- Seventeen digits always suffice. -/
def shortest (b : Binary) : Scientific :=
  let k := b.magnitude
  let found := (List.range 17).findSome? fun n =>
    let j := k - (n + 1 : Nat)
    (onGrid? b j).map fun c => (⟨c, j⟩ : Scientific)
  found.getD ⟨0, 0⟩

end OmegaGames.Decimal
