import OmegaGames.Decimal.Shortest

/-!
# Plain decimal text

Numbers written with the fewest digits that read back, without an exponent and without a fraction of
zero: `-1`, `0.5`, `-0`, `NaN`, `inf`.
-/
namespace OmegaGames.Decimal

def zeros (n : Nat) : String := String.ofList (List.replicate n '0')

def Scientific.plain (d : Scientific) : String :=
  let digits := Nat.toDigits 10 d.digits
  let places := (-d.exponent).toNat
  if places = 0 then String.ofList digits ++ zeros d.exponent.toNat
  else if places < digits.length then
    String.ofList (digits.take (digits.length - places)) ++ "." ++
      String.ofList (digits.drop (digits.length - places))
  else "0." ++ zeros (places - digits.length) ++ String.ofList digits

def Scientific.strip (d : Scientific) : Scientific :=
  let zeros := ((Nat.toDigits 10 d.digits).reverse.takeWhile (· = '0')).length
  ⟨d.digits / Nat.pow 10 zeros, d.exponent + zeros⟩

def plain (x : Float) : String :=
  if x.isNaN then "NaN"
  else
    let bits := x.toBits
    let sign := if bits >>> 63 = 1 then "-" else ""
    let size := bits &&& 0x7fffffffffffffff
    if x.isInf then sign ++ "inf"
    else if size = 0 then sign ++ "0"
    else sign ++ (shortest (Binary.ofBits size)).strip.plain

end OmegaGames.Decimal
