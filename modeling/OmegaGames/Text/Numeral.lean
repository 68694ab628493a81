/-!
# Numerals

Unsigned decimal numbers of bounded size. A numeral may have a plus sign and leading zeros.
-/
namespace OmegaGames.Text

def isDigit (c : Char) : Bool := '0' ≤ c && c ≤ '9'

def digitsValue (ds : List Char) : Nat := ds.foldl (fun n d => 10 * n + (d.toNat - '0'.toNat)) 0

/-- The numbers of a machine word. -/
def wordLimit : Nat := Nat.pow 2 64

def halfWordLimit : Nat := Nat.pow 2 32

def readDigits? (limit : Nat) (ds : List Char) : Option Nat :=
  if ds.isEmpty || !ds.all isDigit then none
  else if digitsValue ds < limit then some (digitsValue ds) else none

def readNumeral? (limit : Nat) : List Char → Option Nat
  | '+' :: ds => readDigits? limit ds
  | ds => readDigits? limit ds

end OmegaGames.Text
