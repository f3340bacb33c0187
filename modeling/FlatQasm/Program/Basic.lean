import FlatQasm.Angle.Basic
import FlatQasm.Source.Position

/-!
# Programs

A program is what source text says before registers become bits: declarations, gate definitions
and statements on operands that are named.

## Main definitions

* `Operand` — a whole register or one element.
* `GateCall`, `GateDefinition` — a use of a gate, and a gate made of calls.
* `StatementKind`, `Statement`, `Program`.
-/

namespace FlatQasm

/-- A whole register, or one element of it. -/
inductive Operand where
  | register (name : String)
  | element (name : String) (index : UInt64)
deriving DecidableEq

namespace Operand

/-- The name of the register. -/
def name : Operand → String
  | register name | element name _ => name

/-- The written form. -/
def text : Operand → String
  | register name => name
  | element name index => name ++ "[" ++ toString index.toNat ++ "]"

end Operand

/-- The use of a gate. -/
structure GateCall where
  name : String
  params : List Angle
  operands : List Operand

/-- A gate defined by the calls that it stands for. -/
structure GateDefinition where
  name : String
  /-- The names of the angles. -/
  params : List String
  /-- The names of the qubits. -/
  qubits : List String
  /-- The calls, on operands that are names of qubits. -/
  body : List GateCall

/-- How many angles and qubits a gate takes. -/
structure Arity where
  params : Nat
  qubits : Nat
deriving DecidableEq

/-- The arity of a defined gate. -/
def GateDefinition.arity (d : GateDefinition) : Arity := ⟨d.params.length, d.qubits.length⟩

/-- A statement without its position. -/
inductive StatementKind where
  | qreg (name : String) (size : UInt32)
  | creg (name : String) (size : UInt32)
  | gateDefinition (definition : GateDefinition)
  | call (call : GateCall)
  | measure (qubit clbit : Operand)
  | reset (target : Operand)
  | barrier (targets : List Operand)

/-- A statement with the position of its first token. -/
structure Statement where
  kind : StatementKind
  position : Position

/-- A program: the version of its header, if it has one, and its statements. -/
structure Program where
  version : Option String
  statements : List Statement

end FlatQasm
