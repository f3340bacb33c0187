import FlatQasm.Decimal.Shortest

/-!
# Reading a float

A numeral has digits with an optional point among them, at least one digit, and an optional
exponent.  With an optional sign in front, and the words for infinity and for what is not a
number in any letter case, these are the texts that read as a float.  The value is the nearest
float: what is too large reads as infinity and what is too small as zero.

## Main definitions

* `digitsValue` — the number that a list of digits stands for.
* `numeral?` — the decimal that a numeral without sign stands for.
* `read` — the float that a text stands for.
-/

namespace FlatQasm.Decimal

/-- The number that a list of decimal digits stands for. -/
def digitsValue (digits : List Char) : Nat :=
  digits.foldl (fun n c => 10 * n + (c.toNat - '0'.toNat)) 0

/-- The number that digits behind an optional sign stand for; there is at least one digit. -/
def exponent? (text : List Char) : Option Int :=
  let (negative, digits) := match text with
    | '-' :: rest => (true, rest)
    | '+' :: rest => (false, rest)
    | _ => (false, text)
  if digits.isEmpty || !digits.all Char.isDigit then none
  else some (if negative then -(digitsValue digits : Int) else digitsValue digits)

/-- The decimal that a numeral without sign stands for. -/
def numeral? (text : List Char) : Option Scientific :=
  let whole := text.takeWhile Char.isDigit
  let afterWhole := text.dropWhile Char.isDigit
  let (fraction, afterFraction) := match afterWhole with
    | '.' :: rest => (rest.takeWhile Char.isDigit, rest.dropWhile Char.isDigit)
    | _ => ([], afterWhole)
  let exponent := match afterFraction with
    | [] => some 0
    | c :: rest => if c = 'e' ∨ c = 'E' then exponent? rest else none
  if whole.isEmpty && fraction.isEmpty then none
  else exponent.map fun e =>
    Scientific.trim ⟨digitsValue (whole ++ fraction), e - fraction.length⟩

/-- The magnitude that a text without sign stands for: a numeral or one of the words. -/
def magnitude? (text : List Char) : Option Nat :=
  let word := text.map Char.toLower
  if word = ['i', 'n', 'f'] ∨ word = ['i', 'n', 'f', 'i', 'n', 'i', 't', 'y'] then
    some infinityBits
  else if word = ['n', 'a', 'n'] then some notANumberBits
  else (numeral? text).map Scientific.toBits

/-- Why a text is not a float. -/
inductive ReadError where
  | empty
  | invalid
deriving DecidableEq

/-- The wording of a read error. -/
def ReadError.message : ReadError → String
  | .empty => "cannot parse float from empty string"
  | .invalid => "invalid float literal"

/-- The float that a text stands for. -/
def read (text : List Char) : Except ReadError Float :=
  let (negative, unsigned) := match text with
    | '-' :: rest => (true, rest)
    | '+' :: rest => (false, rest)
    | _ => (false, text)
  match magnitude? unsigned with
  | some bits => .ok (ofSignAndBits negative bits)
  | none => .error (if text.isEmpty then .empty else .invalid)

end FlatQasm.Decimal
