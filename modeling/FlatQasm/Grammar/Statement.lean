import FlatQasm.Grammar.Angle

/-!
# Parsing statements

The parser checks what can be checked without the sizes of registers: names are declared once,
gates are known and get as many arguments and operands as they take, and the operands in a gate
body are the qubits of that gate.

## Main definitions

* `Scope` — the names that are declared so far.
* `call`, `gateDefinition`, `statement` — parsers for the parts of a program.
-/

namespace FlatQasm

/-- The names declared so far: registers of both kinds, and gates with their arity. -/
structure Scope where
  registers : List String
  gates : List (String × Arity)

namespace Scope

/-- No names. -/
def empty : Scope := ⟨[], []⟩

/-- The arity of a gate that is built in or defined. -/
def arity? (scope : Scope) (gate : String) : Option Arity :=
  match signature? gate with
  | some signature => some ⟨signature.paramCount, signature.qubitCount⟩
  | none => scope.gates.lookup gate

/-- The names with those that a statement declares. -/
def declare (scope : Scope) (s : Statement) : Scope :=
  match s.kind with
  | .qreg name _ | .creg name _ => { scope with registers := name :: scope.registers }
  | .gateDefinition d => { scope with gates := (d.name, d.arity) :: scope.gates }
  | _ => scope

end Scope

namespace Grammar

/-- Fails with an error. -/
def fail {α : Type} (error : ImportError) : Parser α := fun _ => .error error

/-- An operand: the name of a register, with an index or without. -/
def operand : Parser Operand := do
  let (name, _) ← identifier
  if ← accept .leftBracket then
    let index ← integer
    expect .rightBracket
    pure (.element name index)
  else
    pure (.register name)

/-- An operand in a gate body: one of the qubits of the gate, without an index. -/
def formalOperand (qubits : List String) : Parser Operand := do
  let (name, p) ← identifier
  if name ∉ qubits then
    fail (.unresolvedRegister p name)
  else if nextIs .leftBracket (← get) then
    fail (unexpected "',' or ';' after formal qubit" (← get))
  else
    pure (.register name)

/-- The call of a gate on operands that `operand` reads.  The gate has to be known before anything
else is read, and the counts are compared at the end. -/
def call (scope : Scope) (operand : Parser Operand) : Parser GateCall := do
  let (name, p) ← identifier
  match scope.arity? name with
  | none => fail (.unknownGate p name)
  | some arity =>
    let params ←
      if ← accept .leftParen then
        let params ← arguments
        expect .rightParen
        pure params
      else
        pure []
    let operands ← commaSeparated operand
    expect .semicolon
    if params.length ≠ arity.params then
      fail (.wrongParamCount p name arity.params params.length)
    else if operands.length ≠ arity.qubits then
      fail (.wrongQubitCount p name arity.qubits operands.length)
    else
      pure ⟨name, params, operands⟩

/-- A register declaration behind its keyword. -/
def registerDeclaration (scope : Scope) (make : String → UInt32 → StatementKind) :
    Parser StatementKind := do
  let (name, p) ← identifier
  expect .leftBracket
  let size ← integer
  expect .rightBracket
  expect .semicolon
  if size.toNat = 0 ∨ UInt32.size ≤ size.toNat then
    fail (.invalidRegisterSize p name size.toNat)
  else if name ∈ scope.registers then
    fail (.duplicateDeclaration p name)
  else
    pure (make name size.toUInt32)

/-- The names in a list, without their positions. -/
def names : Parser (List String) := do
  let list ← commaSeparated identifier
  pure (list.map Prod.fst)

/-- The calls of a gate body up to the closing brace, at most as many as the bound has tokens. -/
def body (scope : Scope) (qubits : List String) :
    (bound : List Located) → Parser (List GateCall)
  | [] => fun ts => .error (unexpected "gate call or '\x7d'" ts)
  | _ :: bound => do
    if ← accept .rightBrace then
      pure []
    else
      match ← get with
      | ⟨.ident _, _⟩ :: _ =>
        let first ← call scope (formalOperand qubits)
        let rest ← body scope qubits bound
        pure (first :: rest)
      | ts => fail (unexpected "gate call or '\x7d'" ts)

/-- A gate definition behind its keyword.  The gate may not call itself: its name is not known in
its body. -/
def gateDefinition (scope : Scope) : Parser GateDefinition := do
  let (name, p) ← identifier
  if (scope.arity? name).isSome then
    fail (.duplicateDeclaration p name)
  else
    let params ←
      if ← accept .leftParen then
        let params ← if nextIs .rightParen (← get) then pure [] else names
        expect .rightParen
        pure params
      else
        pure []
    let qubits ← names
    match firstRepeated? (params ++ qubits) with
    | some formal => fail (.duplicateDeclaration p formal)
    | none =>
      expect .leftBrace
      let calls ← body scope qubits (← get)
      pure ⟨name, params, qubits, calls⟩

/-- A measurement behind its keyword. -/
def measurement : Parser StatementKind := do
  let qubit ← operand
  expect .arrow
  let clbit ← operand
  expect .semicolon
  pure (.measure qubit clbit)

/-- A reset behind its keyword. -/
def reset : Parser StatementKind := do
  let target ← operand
  expect .semicolon
  pure (.reset target)

/-- A barrier behind its keyword. -/
def barrier : Parser StatementKind := do
  let targets ← commaSeparated operand
  expect .semicolon
  pure (.barrier targets)

/-- A statement without its position; its first token decides what it is. -/
def statementKind (scope : Scope) : Parser StatementKind
  | ⟨.keyword .qreg, _⟩ :: rest => registerDeclaration scope .qreg rest
  | ⟨.keyword .creg, _⟩ :: rest => registerDeclaration scope .creg rest
  | ⟨.keyword .gate, _⟩ :: rest => (.gateDefinition <$> gateDefinition scope) rest
  | ⟨.keyword .measure, _⟩ :: rest => measurement rest
  | ⟨.keyword .reset, _⟩ :: rest => reset rest
  | ⟨.keyword .barrier, _⟩ :: rest => barrier rest
  | ⟨.ident name, p⟩ :: rest => (.call <$> call scope operand) (⟨.ident name, p⟩ :: rest)
  | ts => .error (unexpected "statement" ts)

/-- A statement with the position of its first token. -/
def statement (scope : Scope) : Parser Statement := fun ts => do
  let (kind, rest) ← statementKind scope ts
  .ok (⟨kind, nextPosition .start ts⟩, rest)

end Grammar

end FlatQasm
