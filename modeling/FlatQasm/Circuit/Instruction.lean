import FlatQasm.Gate.Basic
import FlatQasm.Repeated

/-!
# Instructions of a circuit

An instruction is an operation with its qubits and classical bits.  The lists of operands may
have any length; `Instruction.validate` says whether they suit the operation.

## Main definitions

* `Qubit`, `Clbit` — bits of a circuit by their global index.
* `Operation`, `Instruction` — what is done, and to which bits.
* `CircuitError` — why an instruction does not fit.
* `Instruction.validate` — whether the operands suit the operation.
-/

namespace FlatQasm

/-- A qubit by its global index. -/
structure Qubit where
  index : UInt32
deriving DecidableEq

/-- The name of a qubit in the single quantum register of a circuit. -/
def Qubit.text (q : Qubit) : String := "q[" ++ toString q.index.toNat ++ "]"

/-- A classical bit by its global index. -/
structure Clbit where
  index : UInt32
deriving DecidableEq

/-- The name of a classical bit in the single classical register of a circuit. -/
def Clbit.text (c : Clbit) : String := "c[" ++ toString c.index.toNat ++ "]"

/-- Why an instruction does not fit a circuit.  Each cause names the operation. -/
inductive CircuitError where
  | qubitNotFound (qubit : Qubit) (qubits : UInt32) (name : String)
  | clbitNotFound (clbit : Clbit) (clbits : UInt32) (name : String)
  | qubitCount (name : String) (expected got : Nat)
  | clbitCount (name : String) (expected got : Nat)
  | paramCount (name : String) (expected got : Nat)
  | duplicateQubit (qubit : Qubit) (name : String)
deriving DecidableEq

/-- The wording of a circuit error. -/
def CircuitError.message : CircuitError → String
  | .qubitNotFound qubit qubits name =>
    "Qubit " ++ qubit.text ++ " out of range for circuit with " ++ toString qubits.toNat ++
      " qubits (gate: " ++ name ++ ")"
  | .clbitNotFound clbit clbits name =>
    "Classical bit " ++ clbit.text ++ " out of range for circuit with " ++
      toString clbits.toNat ++ " bits (gate: " ++ name ++ ")"
  | .qubitCount name expected got =>
    "Operation '" ++ name ++ "' requires " ++ toString expected ++ " qubits, got " ++ toString got
  | .clbitCount name expected got =>
    "Operation '" ++ name ++ "' requires " ++ toString expected ++ " classical bits, got " ++
      toString got
  | .paramCount name expected got =>
    "Gate '" ++ name ++ "' requires " ++ toString expected ++ " parameters, got " ++ toString got
  | .duplicateQubit qubit name =>
    "Duplicate qubit " ++ qubit.text ++ " in operation (gate: " ++ name ++ ")"

/-- The gate of a kind with the given angles; an error if there are not as many as it takes. -/
def BaseGate.build (kind : GateKind) (angles : List Angle) : Except CircuitError BaseGate :=
  match BaseGate.ofKind? kind angles with
  | some gate => .ok gate
  | none => .error (.paramCount kind.label kind.paramCount angles.length)

/-- What an instruction does. -/
inductive Operation where
  | gate (gate : Gate)
  | measure
  | reset
  | barrier
deriving BEq

namespace Operation

/-- The name of an operation in messages. -/
def name : Operation → String
  | gate g => g.name
  | measure => "measure"
  | reset => "reset"
  | barrier => "barrier"

/-- The number of qubits that an operation needs; a barrier takes any number but zero. -/
def qubitCount? : Operation → Option Nat
  | gate g => some g.qubitCount
  | measure | reset => some 1
  | barrier => none

/-- The number of classical bits that an operation needs. -/
def clbitCount : Operation → Nat
  | measure => 1
  | gate _ | reset | barrier => 0

/-- The gate of a gate operation. -/
def gate? : Operation → Option Gate
  | gate g => some g
  | _ => none

end Operation

/-- An operation with its operands; the controls of a gate come first. -/
structure Instruction where
  operation : Operation
  qubits : List Qubit
  clbits : List Clbit
deriving BEq

namespace Instruction

/-- A gate on some qubits. -/
def gate (g : Gate) (qubits : List Qubit) : Instruction := ⟨.gate g, qubits, []⟩

/-- The measurement of a qubit into a classical bit. -/
def measure (qubit : Qubit) (clbit : Clbit) : Instruction := ⟨.measure, [qubit], [clbit]⟩

/-- The reset of a qubit. -/
def reset (qubit : Qubit) : Instruction := ⟨.reset, [qubit], []⟩

/-- A barrier across some qubits. -/
def barrier (qubits : List Qubit) : Instruction := ⟨.barrier, qubits, []⟩

/-- The name of the operation, for messages. -/
def name (i : Instruction) : String := i.operation.name

/-- The gate of a gate instruction. -/
def gate? (i : Instruction) : Option Gate := i.operation.gate?

/-- The angle of a rotation. -/
def angle? (i : Instruction) : Option Angle := i.gate?.bind fun g => g.base.angle?

/-- Whether an instruction is a gate. -/
def isGate (i : Instruction) : Bool := i.gate?.isSome

/-- Whether an instruction is a measurement. -/
def isMeasure (i : Instruction) : Bool := i.operation matches .measure

/-- Whether an instruction is a reset. -/
def isReset (i : Instruction) : Bool := i.operation matches .reset

/-- Whether an instruction is a barrier. -/
def isBarrier (i : Instruction) : Bool := i.operation matches .barrier

/-- Whether the operands suit the operation: the number of qubits, then the number of classical
bits, and then that no qubit occurs twice. -/
def validate (i : Instruction) : Except CircuitError Unit := do
  match i.operation.qubitCount? with
  | some expected =>
    if i.qubits.length ≠ expected then
      throw (.qubitCount i.name expected i.qubits.length)
  | none =>
    if i.qubits.isEmpty then
      throw (.qubitCount i.name 1 0)
  if i.clbits.length ≠ i.operation.clbitCount then
    throw (.clbitCount i.name i.operation.clbitCount i.clbits.length)
  match firstRepeated? (i.qubits.map Qubit.index) with
  | some index => throw (.duplicateQubit ⟨index⟩ i.name)
  | none => pure ()

end Instruction

end FlatQasm
