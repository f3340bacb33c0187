import FlatQasm.Circuit.Instruction
import FlatQasm.Program.Basic
import FlatQasm.Source.Token

/-!
# Why source text is no circuit

## Main definitions

* `ImportError` — the causes, each with its position where there is one.
* `ImportError.message` — their wording.
-/

namespace FlatQasm

/-- The limit on the height of an angle, and on the parentheses and minus signs that are open at
once. -/
def nestingLimit : Nat := 256

/-- Why operands cannot be paired bit by bit. -/
inductive BroadcastFault where
  /-- Whole registers of different sizes in a gate call. -/
  | callSizes (gate : String)
  /-- Whole registers of different sizes in a measurement. -/
  | measureSizes (qubit clbit : Operand) (qubits clbits : Nat)
  /-- A whole register and a single bit in a measurement. -/
  | measureMixed (qubit clbit : Operand)
deriving DecidableEq

/-- The wording of a fault. -/
def BroadcastFault.message : BroadcastFault → String
  | .callSizes gate => "registers passed to '" ++ gate ++ "' differ in size"
  | .measureSizes qubit clbit qubits clbits =>
    "cannot measure " ++ qubit.text ++ " of size " ++ toString qubits ++ " into " ++
      clbit.text ++ " of size " ++ toString clbits
  | .measureMixed qubit clbit =>
    "cannot measure " ++ qubit.text ++ " into " ++ clbit.text ++
      ": operands must both be registers or both be indexed"

/-- Why source text is no circuit. -/
inductive ImportError where
  | invalidLexeme (position : Position) (text : List Char)
  | unexpectedToken (position : Position) (expected : String) (found : Token)
  | unexpectedEnd (expected : String)
  | missingHeader (position : Position) (found : Option Token)
  | invalidVersion (position : Position) (found : Token)
  | duplicateDeclaration (position : Position) (name : String)
  | invalidRegisterSize (position : Position) (name : String) (size : Nat)
  | unknownGate (position : Position) (name : String)
  | wrongQubitCount (position : Position) (gate : String) (expected got : Nat)
  | wrongParamCount (position : Position) (gate : String) (expected got : Nat)
  | broadcastMismatch (position : Position) (fault : BroadcastFault)
  | unresolvedRegister (position : Position) (name : String)
  | indexOutOfRange (position : Position) (register : String) (index size : Nat)
  | divisionByZero (position : Position)
  | nestingTooDeep (position : Position)
  | integerTooLarge (position : Position) (digits : List Char)
  | circuit (cause : CircuitError)

namespace ImportError

/-- The position of an error, if it has one. -/
def position? : ImportError → Option Position
  | invalidLexeme p _ | unexpectedToken p _ _ | missingHeader p _ | invalidVersion p _
  | duplicateDeclaration p _ | invalidRegisterSize p _ _ | unknownGate p _
  | wrongQubitCount p _ _ _ | wrongParamCount p _ _ _ | broadcastMismatch p _
  | unresolvedRegister p _ | indexOutOfRange p _ _ _ | divisionByZero p | nestingTooDeep p
  | integerTooLarge p _ => some p
  | unexpectedEnd _ | circuit _ => none

/-- The wording of an import error. -/
def message : ImportError → String
  | invalidLexeme p text =>
    "Lexer error at " ++ p.text ++ ": invalid token '" ++ String.ofList text ++ "'"
  | unexpectedToken p expected found =>
    "Unexpected token at " ++ p.text ++ ": expected " ++ expected ++ ", found " ++ found.text
  | unexpectedEnd expected => "Unexpected end of input: expected " ++ expected
  | missingHeader p found =>
    "Missing 'OPENQASM 2.0;' header at " ++ p.text ++ ", found " ++
      match found with
      | some token => "'" ++ token.text ++ "'"
      | none => "end of input"
  | invalidVersion p found =>
    "Invalid OPENQASM version '" ++ found.text ++ "' at " ++ p.text
  | duplicateDeclaration p name =>
    "Duplicate declaration of '" ++ name ++ "' at " ++ p.text
  | invalidRegisterSize p name size =>
    "Invalid size " ++ toString size ++ " for register '" ++ name ++ "' at " ++ p.text
  | unknownGate p name => "Unknown gate '" ++ name ++ "' at " ++ p.text
  | wrongQubitCount p gate expected got =>
    "Gate '" ++ gate ++ "' expects " ++ toString expected ++ " qubits, got " ++ toString got ++
      " at " ++ p.text
  | wrongParamCount p gate expected got =>
    "Gate '" ++ gate ++ "' expects " ++ toString expected ++ " parameters, got " ++
      toString got ++ " at " ++ p.text
  | broadcastMismatch p fault =>
    "Cannot broadcast operands at " ++ p.text ++ ": " ++ fault.message
  | unresolvedRegister p name => "Unresolved register '" ++ name ++ "' at " ++ p.text
  | indexOutOfRange p register index size =>
    "Index " ++ toString index ++ " out of range for register '" ++ register ++
      "' of size " ++ toString size ++ " at " ++ p.text
  | divisionByZero p => "Division by zero at " ++ p.text
  | nestingTooDeep p =>
    "Expression nested deeper than " ++ toString nestingLimit ++ " levels at " ++ p.text
  | integerTooLarge p digits =>
    "Integer '" ++ String.ofList digits ++ "' is too large at " ++ p.text
  | circuit cause => "Circuit error: " ++ cause.message

end ImportError

end FlatQasm
