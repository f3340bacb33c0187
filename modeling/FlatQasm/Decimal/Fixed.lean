import FlatQasm.Decimal.Binary

/-!
# Decimals with a fixed number of places

The exact value of a float is rounded once, a half going to the even neighbour.  A float with the
sign bit set keeps its minus sign even when it rounds to zero.
-/

namespace FlatQasm.Decimal

/-- A float written with the given number of places after the point. -/
def fixed (places : Nat) (x : Float) : String :=
  let bits := magnitudeBits x
  let sign := if isNegative x then "-" else ""
  if infinityBits < bits then "NaN"
  else if bits = infinityBits then sign ++ "inf"
  else
    let v := Magnitude.ofBits bits
    let one := Nat.pow 10 places
    let units := roundHalfEven ((v.mantissa <<< v.exponent.toNat) * one) (1 <<< (-v.exponent).toNat)
    let fraction := Nat.toDigits 10 (units % one)
    sign ++ toString (units / one) ++ "." ++
      String.ofList (List.replicate (places - fraction.length) '0' ++ fraction)

end FlatQasm.Decimal
