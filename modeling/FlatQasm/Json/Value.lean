import FlatQasm.Decimal.Layout
import FlatQasm.Decimal.Numeral

/-!
# JSON values

A JSON value keeps its strings and numbers as they are written.  What a string or a number stands
for is decided when it is used: the same literal may be read as an integer or as a float, and a
value that nothing uses only has to be well formed.

## Main definitions

* `Json` — the type of values.
* `Json.escape`, `Json.unescape?` — strings in their written form, and back.
* `Json.ofString`, `Json.ofNat`, `Json.ofFloat` — values for strings and numbers.
* `Json.record` — the object with given members.
* `Json.string?`, `Json.nat?`, `Json.float?` — strings and numbers from values.
-/

namespace FlatQasm

/-- A JSON value.  Strings and keys are what stands between the quotation marks, and members are
in the order of the text. -/
inductive Json where
  | null
  | bool (value : Bool)
  | number (literal : List Char)
  | string (written : List Char)
  | array (elements : List Json)
  | object (members : List (List Char × Json))

namespace Json

/-! ## Strings -/

/-- The hexadecimal digit of a number below sixteen. -/
def hexDigit (n : Nat) : Char := Nat.digitChar n

/-- The written form of a character: quotation marks, backslashes and control characters are
escaped, and nothing else is. -/
def escapeChar (c : Char) : List Char :=
  if c = '"' then ['\\', '"']
  else if c = '\\' then ['\\', '\\']
  else if c = '\x08' then ['\\', 'b']
  else if c = '\t' then ['\\', 't']
  else if c = '\n' then ['\\', 'n']
  else if c = '\x0c' then ['\\', 'f']
  else if c = '\r' then ['\\', 'r']
  else if c.toNat < 0x20 then
    ['\\', 'u', '0', '0', hexDigit (c.toNat / 16), hexDigit (c.toNat % 16)]
  else [c]

/-- The written form of a string, without quotation marks. -/
def escape (text : List Char) : List Char := text.flatMap escapeChar

/-- The value of a hexadecimal digit. -/
def hexValue? (c : Char) : Option Nat :=
  if '0' ≤ c ∧ c ≤ '9' then some (c.toNat - '0'.toNat)
  else if 'a' ≤ c ∧ c ≤ 'f' then some (c.toNat - 'a'.toNat + 10)
  else if 'A' ≤ c ∧ c ≤ 'F' then some (c.toNat - 'A'.toNat + 10)
  else none

/-- The value of four hexadecimal digits. -/
def hexValue4? (a b c d : Char) : Option Nat := do
  some ((((← hexValue? a) * 16 + (← hexValue? b)) * 16 + (← hexValue? c)) * 16 + (← hexValue? d))

/-- The character of a simple escape. -/
def simpleEscape? : Char → Option Char
  | '"' => some '"'
  | '\\' => some '\\'
  | '/' => some '/'
  | 'b' => some '\x08'
  | 'f' => some '\x0c'
  | 'n' => some '\n'
  | 'r' => some '\r'
  | 't' => some '\t'
  | _ => none

/-- The string of a written form.  An escaped surrogate has to be the first half of a pair that is
written in full; a half alone is no string. -/
def unescape? : List Char → Option (List Char)
  | [] => some []
  | '\\' :: 'u' :: a :: b :: c :: d :: rest => do
    let unit ← hexValue4? a b c d
    if 0xDC00 ≤ unit ∧ unit < 0xE000 then none
    else if 0xD800 ≤ unit ∧ unit < 0xDC00 then
      match rest with
      | '\\' :: 'u' :: a :: b :: c :: d :: rest =>
        let low ← hexValue4? a b c d
        if 0xDC00 ≤ low ∧ low < 0xE000 then
          let text ← unescape? rest
          some (Char.ofNat (0x10000 + (unit - 0xD800) * 0x400 + (low - 0xDC00)) :: text)
        else none
      | _ => none
    else
      let text ← unescape? rest
      some (Char.ofNat unit :: text)
  | '\\' :: e :: rest => do
    let c ← simpleEscape? e
    let text ← unescape? rest
    some (c :: text)
  | c :: rest => (unescape? rest).map (c :: ·)

/-- The value of a string. -/
def ofString (text : String) : Json := .string (escape text.toList)

/-- The object with the given members. -/
def record (members : List (String × Json)) : Json :=
  .object (members.map fun (key, value) => (escape key.toList, value))

/-- The string of a value, if it is one. -/
def string? : Json → Option String
  | .string written => (unescape? written).map String.ofList
  | _ => none

/-! ## Numbers -/

/-- The value of a natural number. -/
def ofNat (n : Nat) : Json := .number (Nat.toDigits 10 n)

/-- The value of a float; one that is not finite is `null`. -/
def ofFloat (x : Float) : Json :=
  if x.isFinite then .number (Decimal.Layout.json.text x).toList else .null

/-- The natural number of a value below a bound, if the literal has digits only. -/
def nat? (bound : Nat) : Json → Option Nat
  | .number literal =>
    if literal.all Char.isDigit && Decimal.digitsValue literal < bound then
      some (Decimal.digitsValue literal)
    else none
  | _ => none

/-- Digits put behind a significand as long as it fits in 64 bits, and how many of them did. -/
def extendSignificand : (significand : Nat) → List Char → Nat × Nat
  | significand, [] => (significand, 0)
  | significand, c :: rest =>
    let next := 10 * significand + (c.toNat - '0'.toNat)
    if next < UInt64.size then
      let (final, used) := extendSignificand next rest
      (final, used + 1)
    else (significand, 0)

/-- A power of ten as a float. -/
def powerOfTen (exponent : Nat) : Float :=
  Decimal.ofSignAndBits false (Decimal.Scientific.toBits ⟨1, exponent⟩)

/-- A float divided by a power of ten, in steps that are powers of ten themselves as floats.  It
is zero after a few steps. -/
def divideByPower : (steps exponent : Nat) → Float → Float
  | 0, exponent, x => x / powerOfTen exponent
  | steps + 1, exponent, x =>
    if exponent ≤ 308 then x / powerOfTen exponent
    else if x == 0.0 then x
    else divideByPower steps (exponent - 308) (x / powerOfTen 308)

/-- A float times a power of ten; there is none when the result is too large. -/
def scaleByPower? (exponent : Int) (x : Float) : Option Float :=
  if exponent < 0 then some (divideByPower (exponent.natAbs / 308) exponent.natAbs x)
  else if exponent ≤ 308 then
    let y := x * powerOfTen exponent.natAbs
    if y.isInf then none else some y
  else if x == 0.0 then some x
  else none

/-- The float of a literal without sign: the digits that fit in 64 bits, rounded, and scaled by
one power of ten, rounded again.  Digits behind those only count in the scale.  An exponent
beyond 31 bits decides by its sign alone. -/
def unsignedFloat? (literal : List Char) : Option Float :=
  let whole := literal.takeWhile Char.isDigit
  let afterWhole := literal.dropWhile Char.isDigit
  let (fraction, afterFraction) := match afterWhole with
    | '.' :: rest => (rest.takeWhile Char.isDigit, rest.dropWhile Char.isDigit)
    | _ => ([], afterWhole)
  let (significand, usedWhole) := extendSignificand 0 whole
  let (significand, usedFraction) := extendSignificand significand fraction
  let scale : Int := (whole.length - usedWhole : Nat) - (usedFraction : Int)
  let written := (Decimal.exponent? (afterFraction.drop 1)).getD 0
  if written.natAbs < 0x80000000 then
    scaleByPower? (scale + written) (Decimal.ofNat significand)
  else if significand = 0 ∨ written < 0 then some 0.0
  else none

/-- The float of a value, if it is a number that is not too large. -/
def float? : Json → Option Float
  | .number ('-' :: literal) => (unsignedFloat? literal).map (- ·)
  | .number literal => unsignedFloat? literal
  | _ => none

end Json

end FlatQasm
