import FlatQasm.Angle.Basic
import FlatQasm.Bindings

/-!
# Numbers for angles with variables

An angle with variables gets a number from bindings.  A missing value is found before anything is
computed, so that it wins over every division by zero.

## Main definitions

* `EvalError` — why an angle has no number.
* `Angle.evaluate` — the number of an angle under bindings.
-/

namespace FlatQasm

/-- Why an angle has no number. -/
inductive EvalError where
  /-- A free variable has no value. -/
  | unbound (name : String)
  /-- The divisor of this quotient is zero. -/
  | divisionByZero (quotient : Angle)

/-- The wording of an evaluation error. -/
def EvalError.message : EvalError → String
  | .unbound name => "Parameter '" ++ name ++ "' is unbound"
  | .divisionByZero quotient =>
    "Division by zero while evaluating parameter '" ++ quotient.text ++ "'"

/-- Whether every one of the names has a value; if not, the first without one is the error. -/
def Bindings.check (b : Bindings) (names : List String) : Except EvalError Unit :=
  match b.firstMissing? names with
  | some name => .error (.unbound name)
  | none => .ok ()

namespace Angle

/-- The number of an angle, from the leaves up.  A divisor is computed and compared with zero
before its dividend; any other operation computes its left operand first. -/
def compute (b : Bindings) : Angle → Except EvalError Float
  | const v => .ok v
  | var name =>
    match b.get? name with
    | some v => .ok v
    | none => .error (.unbound name)
  | pi => .ok piValue
  | neg e => (e.compute b).map (- ·)
  | binary .div dividend divisor => do
    let y ← divisor.compute b
    if y == 0.0 then
      .error (.divisionByZero (binary .div dividend divisor))
    else
      let x ← dividend.compute b
      .ok (x / y)
  | binary .add left right => do
    let x ← left.compute b
    let y ← right.compute b
    .ok (x + y)
  | binary .sub left right => do
    let x ← left.compute b
    let y ← right.compute b
    .ok (x - y)
  | binary .mul left right => do
    let x ← left.compute b
    let y ← right.compute b
    .ok (x * y)

/-- The number of an angle under bindings.  Of several variables without a value, the first in
the order of names is reported. -/
def evaluate (b : Bindings) (e : Angle) : Except EvalError Float := do
  b.check e.freeVariables
  e.compute b

end Angle

end FlatQasm
