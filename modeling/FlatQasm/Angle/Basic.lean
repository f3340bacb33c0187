import FlatQasm.Decimal.Layout
import FlatQasm.Names

/-!
# Angles of rotation gates

An angle is an arithmetic expression over numbers, the constant `pi` and free variables.  It is
kept as a tree, so that a circuit with free variables can be stored, changed and exchanged, and
gets a number only when every variable has one.

## Main definitions

* `Angle` — the expression tree.
* `Angle.value?` — the number of an angle without variables.
* `Angle.simplify` — the tree with its constant parts folded.
* `Angle.substitute` — the tree with variables replaced, all at once.
* `Angle.freeVariables` — the free variables in order.
* `Angle.text` — the written form, with parentheses around every operation.
-/

namespace FlatQasm

/-- The binary operations of an angle. -/
inductive ArithOp where
  | add
  | sub
  | mul
  | div
deriving DecidableEq

namespace ArithOp

/-- The sign of an operation. -/
def sign : ArithOp → String
  | .add => "+"
  | .sub => "-"
  | .mul => "*"
  | .div => "/"

/-- The name of an operation in exchanged data. -/
def caseName : ArithOp → String
  | .add => "Add"
  | .sub => "Sub"
  | .mul => "Mul"
  | .div => "Div"

/-- The result of an operation on two numbers; there is none for a division by zero, of either
sign. -/
def value? : ArithOp → Float → Float → Option Float
  | .add, x, y => some (x + y)
  | .sub, x, y => some (x - y)
  | .mul, x, y => some (x * y)
  | .div, x, y => if y == 0.0 then none else some (x / y)

end ArithOp

/-- An angle: an arithmetic expression over numbers, `pi` and free variables.  Two angles are
equal (`==`) when they have the same shape and their numbers compare as equal. -/
inductive Angle where
  | const (value : Float)
  | var (name : String)
  | pi
  | neg (operand : Angle)
  | binary (op : ArithOp) (left right : Angle)
deriving BEq

namespace Angle

/-- The float nearest to the circle number. -/
def piValue : Float := 3.141592653589793

/-- Whether a free variable occurs. -/
def isSymbolic : Angle → Bool
  | const _ | pi => false
  | var _ => true
  | neg e => e.isSymbolic
  | binary _ a b => a.isSymbolic || b.isSymbolic

/-- The number of an angle, if no variable occurs and no division has a divisor of zero. -/
def value? : Angle → Option Float
  | const v => some v
  | var _ => none
  | pi => some piValue
  | neg e => e.value?.map (- ·)
  | binary op a b =>
    match a.value?, b.value? with
    | some x, some y => op.value? x y
    | _, _ => none

/-- The free variables as they occur, from left to right. -/
def occurrences : Angle → List String
  | const _ | pi => []
  | var name => [name]
  | neg e => e.occurrences
  | binary _ a b => a.occurrences ++ b.occurrences

/-- The free variables in the order of their names, each once. -/
def freeVariables (e : Angle) : List String := sortNames e.occurrences

/-- The angle with variables replaced, all at once: what replaces a variable is not looked at
again. -/
def substitute (replacement : String → Option Angle) : Angle → Angle
  | var name => (replacement name).getD (var name)
  | const v => const v
  | pi => pi
  | neg e => neg (e.substitute replacement)
  | binary op a b => binary op (a.substitute replacement) (b.substitute replacement)

/-- The height of the tree; a number, `pi` or variable alone has height one. -/
def depth : Angle → Nat
  | const _ | var _ | pi => 1
  | neg e => e.depth + 1
  | binary _ a b => max a.depth b.depth + 1

/-- One step of folding: an operation on numbers becomes its result, if it has one. -/
def fold : Angle → Angle
  | pi => const piValue
  | neg (const v) => const (-v)
  | binary op (const x) (const y) =>
    match op.value? x y with
    | some v => const v
    | none => binary op (const x) (const y)
  | e => e

/-- The angle with every constant part folded from the leaves up.  A division by zero stays as it
is, for evaluation to report. -/
def simplify : Angle → Angle
  | neg e => (neg e.simplify).fold
  | binary op a b => (binary op a.simplify b.simplify).fold
  | e => e.fold

/-- The written form: operations in parentheses, numbers as in source text. -/
def text : Angle → String
  | const v => Decimal.Layout.source.text v
  | var name => name
  | pi => "pi"
  | neg e => "-(" ++ e.text ++ ")"
  | binary op a b => "(" ++ a.text ++ " " ++ op.sign ++ " " ++ b.text ++ ")"

end Angle

end FlatQasm
