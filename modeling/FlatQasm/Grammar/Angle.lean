import FlatQasm.Grammar.Parser

/-!
# Parsing angles

Angles are read by precedence climbing: an operand, and then operators of at least the wanted
precedence, each with a right operand of a higher one.  Chains of one precedence group to the
left.

Nesting is limited.  A count of the parentheses and minus signs that are open goes down the calls,
and every tree is kept with its height; neither may exceed `nestingLimit`.  A division whose
divisor is a constant zero is refused as soon as its right operand is read.

Each recursive call comes after a token was taken, so the tokens at the start bound the recursion.
When the bound is used up there is no token left.

## Main definitions

* `Subtree` — an angle with its height.
* `climb` — an angle whose operators have at least a given precedence.
* `angle` — a whole angle.
-/

namespace FlatQasm.Grammar

/-- How tightly an operation binds. -/
def precedence : ArithOp → Nat
  | .add | .sub => 1
  | .mul | .div => 2

/-- The operation of a punctuation token. -/
def operation? : Punct → Option ArithOp
  | .plus => some .add
  | .minus => some .sub
  | .star => some .mul
  | .slash => some .div
  | _ => none

/-- The precedence above all operators, at which only an operand is read. -/
def operandPrecedence : Nat := 3

/-- An angle with the height of its tree. -/
structure Subtree where
  angle : Angle
  height : Nat

/-- What reading a subtree gives: the subtree and the tokens behind it. -/
abbrev SubtreeResult := Except ImportError (Subtree × List Located)

/-- Whether an angle is a constant zero. -/
def isZero (e : Angle) : Bool :=
  match e.value? with
  | some v => v == 0.0
  | none => false

/-- The subtree of an operation on two subtrees; errors are at the operator. -/
def join (op : ArithOp) (p : Position) (left right : Subtree) : Except ImportError Subtree :=
  let height := max left.height right.height + 1
  if op = .div && isZero right.angle then .error (.divisionByZero p)
  else if nestingLimit < height then .error (.nestingTooDeep p)
  else .ok ⟨.binary op left.angle right.angle, height⟩

/-- The subtree of a negation; an error is at the minus sign. -/
def negate (p : Position) (operand : Subtree) : Except ImportError Subtree :=
  let height := operand.height + 1
  if nestingLimit < height then .error (.nestingTooDeep p)
  else .ok ⟨.neg operand.angle, height⟩

/-- A whole angle one level deeper, read by `climb`; `last` is the position of the token
before. -/
def nested (climb : (minimum nesting : Nat) → List Located → SubtreeResult) (nesting : Nat)
    (last : Position) (ts : List Located) : SubtreeResult :=
  if nestingLimit ≤ nesting then .error (.nestingTooDeep (nextPosition last ts))
  else climb 0 (nesting + 1) ts

/-- A number, `pi`, a variable, or an angle in parentheses. -/
def primary (climb : (minimum nesting : Nat) → List Located → SubtreeResult) (nesting : Nat) :
    List Located → SubtreeResult
  | ⟨.int literal, _⟩ :: rest => .ok (⟨.const literal.toFloat, 1⟩, rest)
  | ⟨.float value, _⟩ :: rest => .ok (⟨.const value, 1⟩, rest)
  | ⟨.keyword .pi, _⟩ :: rest => .ok (⟨.pi, 1⟩, rest)
  | ⟨.ident name, _⟩ :: rest => .ok (⟨.var name, 1⟩, rest)
  | ⟨.punct .leftParen, p⟩ :: rest => do
    let (inner, rest) ← nested climb nesting p rest
    let ((), rest) ← expect .rightParen rest
    .ok (inner, rest)
  | ts => .error (unexpected "expression" ts)

/-- A primary, or a minus sign and the unary angle behind it. -/
def unary (climb : (minimum nesting : Nat) → List Located → SubtreeResult) (nesting : Nat) :
    List Located → SubtreeResult
  | ⟨.punct .minus, p⟩ :: rest =>
    if nestingLimit ≤ nesting then .error (.nestingTooDeep p)
    else do
      let (operand, rest) ← climb operandPrecedence (nesting + 1) rest
      let e ← negate p operand
      .ok (e, rest)
  | ts => primary climb nesting ts

mutual

/-- An angle whose operators outside parentheses have at least the precedence `minimum`. -/
def climb : (bound : List Located) → (minimum nesting : Nat) → List Located → SubtreeResult
  | [], _, _, ts => .error (unexpected "expression" ts)
  | _ :: bound, minimum, nesting, ts => do
    let (left, rest) ← unary (climb bound) nesting ts
    extend bound minimum nesting left rest

/-- The longest angle that starts with `left` and goes on with operators of at least the
precedence `minimum`. -/
def extend : (bound : List Located) → (minimum nesting : Nat) → (left : Subtree) → List Located →
    SubtreeResult
  | [], _, _, left, ts => .ok (left, ts)
  | _ :: bound, minimum, nesting, left, ts =>
    match ts with
    | ⟨.punct sign, p⟩ :: rest =>
      match operation? sign with
      | some op =>
        if precedence op < minimum then .ok (left, ts)
        else do
          let (right, rest) ← climb bound (precedence op + 1) nesting rest
          let e ← join op p left right
          extend bound minimum nesting e rest
      | none => .ok (left, ts)
    | _ => .ok (left, ts)

end

/-- A whole angle, as an argument of a gate: one level of nesting is open in it. -/
def angle : Parser Angle := fun ts => do
  let (e, rest) ← climb ts 0 1 ts
  .ok (e.angle, rest)

/-- The arguments of a gate behind the opening parenthesis, each with its constants folded. -/
def arguments : Parser (List Angle) := do
  let args ← if nextIs .rightParen (← get) then pure [] else commaSeparated angle
  pure (args.map Angle.simplify)

end FlatQasm.Grammar
