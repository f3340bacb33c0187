import FlatQasm.Decimal.Shortest

/-!
# Laying out a float as text

The digits of a float are settled by `shortest`; a layout settles the rest, which is where
positional notation ends, how an exponent is written, and what stands for a value that is not
finite.

## Main definitions

* `Layout` — the decisions of one text format.
* `Layout.text` — a float written in a format.
* `Layout.source` — the format of OpenQASM text and of messages.
* `Layout.json` — the format of JSON text.
-/

namespace FlatQasm.Decimal

/-- The decisions of one text format for floats. -/
structure Layout where
  /-- The least exponent of the leading digit at which notation is positional. -/
  positionalFrom : Int
  /-- The least exponent of the leading digit at which notation is positional no more. -/
  positionalBelow : Int
  /-- Whether an exponent that is not negative has a plus sign. -/
  plusSign : Bool
  /-- Which of two equally short and close decimals is taken. -/
  tie : Tie
  /-- The text for what is not a number. -/
  notANumber : String
  /-- The text for an infinity, by its sign. -/
  infinity : (negative : Bool) → String

/-- Positional text: the point stands inside the digits, or zeros fill up to it. -/
def positional (digits : List Char) (leading : Int) : List Char :=
  if leading < 0 then
    '0' :: '.' :: (List.replicate (-leading - 1).toNat '0' ++ digits)
  else
    let whole := leading.toNat + 1
    if digits.length ≤ whole then
      digits ++ List.replicate (whole - digits.length) '0' ++ ['.', '0']
    else
      digits.take whole ++ '.' :: digits.drop whole

/-- Text with an exponent: one digit before the point, and no point when it is the only one. -/
def scientific (plusSign : Bool) (digits : List Char) (leading : Int) : List Char :=
  let fraction := digits.drop 1
  digits.take 1 ++ (if fraction.isEmpty then [] else '.' :: fraction) ++ 'e' ::
    (if leading < 0 then ['-'] else if plusSign then ['+'] else []) ++
    Nat.toDigits 10 leading.natAbs

/-- The text of a decimal without sign. -/
def Layout.unsigned (l : Layout) (d : Scientific) : List Char :=
  let digits := Nat.toDigits 10 d.digits
  let leading := d.exponent + digits.length - 1
  if l.positionalFrom ≤ leading ∧ leading < l.positionalBelow then positional digits leading
  else scientific l.plusSign digits leading

/-- A float written in a format. -/
def Layout.text (l : Layout) (x : Float) : String :=
  let bits := magnitudeBits x
  if infinityBits < bits then l.notANumber
  else if bits = infinityBits then l.infinity (isNegative x)
  else
    let digits := l.unsigned (shortest l.tie bits)
    String.ofList (if isNegative x then '-' :: digits else digits)

/-- Floats in OpenQASM text and in messages: positional from `0.0001` to below `1e16`. -/
def Layout.source : Layout where
  positionalFrom := -4
  positionalBelow := 16
  plusSign := false
  tie := .upward
  notANumber := "NaN"
  infinity negative := if negative then "-inf" else "inf"

/-- Floats in JSON text: positional from `0.00001` to below `1e16`, and `null` for a value that
JSON cannot write. -/
def Layout.json : Layout where
  positionalFrom := -5
  positionalBelow := 16
  plusSign := true
  tie := .toEven
  notANumber := "null"
  infinity _ := "null"

end FlatQasm.Decimal
