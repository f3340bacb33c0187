import FlatQasm.Decimal.Binary

/-!
# The shortest decimal that reads back

Among all decimals that read back as a given float, the one to print has the fewest digits, and
among those of equally few digits it is the closest to the float.  The search follows that
sentence: grids of one digit, two digits, and so on are tried in turn, and on each grid only the
two neighbours of the value can be nearest.  Whether a candidate reads back is decided by reading
it.

## Main definitions

* `Scientific` — a decimal `digits * 10 ^ exponent`.
* `Scientific.trim` — the same decimal without trailing zeros.
* `Scientific.toBits` — the magnitude nearest to a decimal.
* `shortest` — the decimal to print for a magnitude.
-/

namespace FlatQasm.Decimal

/-- A decimal `digits * 10 ^ exponent`. -/
structure Scientific where
  digits : Nat
  exponent : Int
deriving DecidableEq

/-- The same decimal with its trailing zeros moved into the exponent; zero is `0 * 10 ^ 0`. -/
def Scientific.trim (d : Scientific) : Scientific :=
  if h : d.digits = 0 then ⟨0, 0⟩
  else if d.digits % 10 = 0 then trim ⟨d.digits / 10, d.exponent + 1⟩
  else d
termination_by d.digits
decreasing_by exact Nat.div_lt_self (Nat.pos_of_ne_zero h) (by omega)

/-- The bits of the magnitude nearest to a decimal.  From `10 ^ 310` on every magnitude is
infinite and below `10 ^ (-330)` every magnitude is zero, so that a huge exponent needs no huge
power of ten. -/
def Scientific.toBits (d : Scientific) : Nat :=
  if d.digits = 0 then 0 else
    let top := d.exponent + (Nat.toDigits 10 d.digits).length
    if 310 < top then infinityBits
    else if top < -330 then 0
    else nearestBits (d.digits * Nat.pow 10 d.exponent.toNat) (Nat.pow 10 (-d.exponent).toNat)

/-- Which of two equally close decimals of the same length is printed. -/
inductive Tie where
  /-- The one whose last digit is even. -/
  | toEven
  /-- The larger one. -/
  | upward
deriving DecidableEq

/-- The exact quotient `v / 10 ^ grid` as a pair of naturals. -/
def Magnitude.onGrid (v : Magnitude) (grid : Int) : Nat × Nat :=
  ((v.mantissa <<< v.exponent.toNat) * Nat.pow 10 (-grid).toNat,
    (1 <<< (-v.exponent).toNat) * Nat.pow 10 grid.toNat)

/-- The exponent of the first decimal grid on which `v` has a single digit before its fraction,
counted from above: an estimate by the binary logarithm, corrected by comparing. -/
def Magnitude.leadingExponent (v : Magnitude) : Int :=
  let estimate := ((v.mantissa.log2 : Int) + v.exponent) * 30103 / 100000
  let below (k : Int) : Bool := (v.onGrid k).1 < (v.onGrid k).2
  ([estimate, estimate + 1].find? below).getD (estimate + 2)

/-- The decimal nearest to `v` on a grid, among its two neighbours that read back as `bits`. -/
def closestOnGrid? (tie : Tie) (bits : Nat) (v : Magnitude) (grid : Int) : Option Scientific :=
  let (num, den) := v.onGrid grid
  let floor := num / den
  let below := Scientific.trim ⟨floor, grid⟩
  let above := Scientific.trim ⟨floor + 1, grid⟩
  let twice := 2 * (num % den)
  let preferBelow := twice < den || twice == den && tie == .toEven && floor % 2 == 0
  match below.toBits == bits, above.toBits == bits with
  | true, true => some (if preferBelow then below else above)
  | true, false => some below
  | false, true => some above
  | false, false => none

/-- The exact decimal value of `v`: a power of two below one is a power of five over one of
ten. -/
def Magnitude.exact (v : Magnitude) : Scientific :=
  if v.exponent < 0 then ⟨v.mantissa * Nat.pow 5 (-v.exponent).toNat, v.exponent⟩
  else ⟨v.mantissa <<< v.exponent.toNat, 0⟩

/-- The decimal to print for the finite magnitude with the given bits. -/
def shortest (tie : Tie) (bits : Nat) : Scientific :=
  if bits = 0 then ⟨0, 0⟩ else
    let v := Magnitude.ofBits bits
    let top := v.leadingExponent
    ((List.range 17).findSome? fun (i : Nat) => closestOnGrid? tie bits v (top - 1 - i)).getD
      v.exact.trim

end FlatQasm.Decimal
