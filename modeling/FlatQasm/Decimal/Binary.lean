/-!
# Binary floating-point numbers as exact quotients

A finite float is a sign and a natural number scaled by a power of two.  This module takes a
float apart into that form and goes back: from an exact quotient of naturals to the nearest
float.  Both directions are plain arithmetic on `Nat`, so that printing and reading decimals can
be reasoned about without a law on float operations.

A magnitude is carried as its 63 low bits, read as a natural number.  On that scale the finite
magnitudes are the numbers below `infinityBits`, in the order of the values they stand for.

## Main definitions

* `Magnitude` — an exact value `mantissa * 2 ^ exponent`.
* `Magnitude.ofBits` — the exact value that the bits of a finite magnitude stand for.
* `nearestBits` — the bits of the magnitude nearest to a quotient.
* `isNegative`, `magnitudeBits`, `ofSignAndBits` — a float as a sign and a magnitude.
-/

namespace FlatQasm.Decimal

/-- An exact value `mantissa * 2 ^ exponent`. -/
structure Magnitude where
  mantissa : Nat
  exponent : Int
deriving DecidableEq

/-- The bits of the infinite magnitude; every finite magnitude lies below. -/
def infinityBits : Nat := 0x7FF0000000000000

/-- The bits that stand for what is not a number. -/
def notANumberBits : Nat := 0x7FF8000000000000

/-- The place of the leading one of a mantissa, above the 52 bits that are stored. -/
def leadingOne : Nat := 0x10000000000000

/-- The place of the sign, above all bits of a magnitude. -/
def signPlace : Nat := 0x8000000000000000

/-- The value of a finite magnitude: subnormal when the exponent field is zero, and otherwise
with a leading one above the 52 stored bits. -/
def Magnitude.ofBits (bits : Nat) : Magnitude :=
  let field : Nat := bits / leadingOne
  let fraction : Nat := bits % leadingOne
  if field = 0 then ⟨fraction, -1074⟩ else ⟨leadingOne + fraction, Int.ofNat field - 1075⟩

/-- The quotient rounded to a natural number; a half goes to the even neighbour. -/
def roundHalfEven (num den : Nat) : Nat :=
  let floor := num / den
  let twice := 2 * (num % den)
  if twice < den then floor else if den < twice then floor + 1 else floor + floor % 2

/-- The least exponent at which `num / den` has a mantissa of at most 53 bits, up to the
exponent of the subnormal magnitudes.  The binary logarithms leave two candidates. -/
def unitExponent (num den : Nat) : Int :=
  let least : Int := (num.log2 : Int) - den.log2 - 53
  let fits := num <<< (-(least + 53)).toNat < den <<< (least + 53).toNat
  max (-1074) (if fits then least else least + 1)

/-- The bits of the magnitude nearest to `num / den`; a tie goes to the even mantissa, and what
is too large goes to infinity.  A mantissa that rounds up to the next power of two carries into
the exponent field by itself. -/
def nearestBits (num den : Nat) : Nat :=
  if num = 0 then 0 else
    let q := unitExponent num den
    let mantissa := roundHalfEven (num <<< (-q).toNat) (den <<< q.toNat)
    min infinityBits ((q + 1074).toNat * leadingOne + mantissa)

/-- Whether the sign bit is set; negative zero has it. -/
def isNegative (x : Float) : Bool := signPlace ≤ x.toBits.toNat

/-- The bits of a float without its sign. -/
def magnitudeBits (x : Float) : Nat := x.toBits.toNat % signPlace

/-- The float with the given sign and magnitude. -/
def ofSignAndBits (negative : Bool) (bits : Nat) : Float :=
  Float.ofBits (UInt64.ofNat (bits + if negative then signPlace else 0))

/-- The float nearest to a natural number. -/
def ofNat (n : Nat) : Float := ofSignAndBits false (nearestBits n 1)

end FlatQasm.Decimal
