import FlatQasm.Circuit.Basic

/-!
# Circuits as lists of gate records

Other tools describe a circuit as a flat list of records, each with a tag, integer operands and
an optional angle.  A tag is a mnemonic or one of `measure`, `reset` and `barrier`; the operands of
a measurement are a qubit and a classical bit.

## Main definitions

* `GateRecord` — one record.
* `RecordError` — why records make no circuit.
* `Circuit.ofRecords` — the circuit that records describe.
* `Circuit.toRecords` — the records of a circuit.
-/

namespace FlatQasm

/-- A flat description of one instruction. -/
structure GateRecord where
  tag : String
  operands : List UInt32
  angle : Option Angle
deriving BEq

/-- What is wrong with a record by itself. -/
inductive RecordFault where
  | unexpectedAngle (tag : String)
  | measureOperands (operands : List UInt32)
  | resetOperands (got : Nat)
  | barrierOperands
  | unknownGate (tag : String)
  | operandCount (tag : String) (expected got : Nat)
  | angles (cause : CircuitError)
deriving DecidableEq

/-- The wording of a fault. -/
def RecordFault.message : RecordFault → String
  | .unexpectedAngle tag => "'" ++ tag ++ "' takes no parameter"
  | .measureOperands operands =>
    "'measure' expects [qubit, clbit], got [" ++
      ", ".intercalate (operands.map fun n => toString n.toNat) ++ "]"
  | .resetOperands got => "'reset' expects one operand, got " ++ toString got
  | .barrierOperands => "'barrier' expects at least one operand"
  | .unknownGate tag => "unknown gate '" ++ tag ++ "'"
  | .operandCount tag expected got =>
    "'" ++ tag ++ "' expects " ++ toString expected ++ " operands, got " ++ toString got
  | .angles cause => cause.message

/-- Why records make no circuit. -/
inductive RecordError where
  /-- The record at an index is malformed by itself. -/
  | malformed (index : Nat) (fault : RecordFault)
  /-- A record does not fit the circuit. -/
  | circuit (cause : CircuitError)
deriving DecidableEq

/-- The wording of a record error. -/
def RecordError.message : RecordError → String
  | .malformed index fault =>
    "Invalid gate record #" ++ toString index ++ ": " ++ fault.message
  | .circuit cause => "Circuit error: " ++ cause.message

/-- The tags that are no mnemonics. -/
def isPlainTag (tag : String) : Bool := tag == "measure" || tag == "reset" || tag == "barrier"

/-- The instruction that a record describes. -/
def GateRecord.toInstruction (r : GateRecord) : Except RecordFault Instruction :=
  if r.angle.isSome && isPlainTag r.tag then .error (.unexpectedAngle r.tag)
  else if r.tag = "measure" then
    match r.operands with
    | [qubit, clbit] => .ok (.measure ⟨qubit⟩ ⟨clbit⟩)
    | operands => .error (.measureOperands operands)
  else if r.tag = "reset" then
    match r.operands with
    | [qubit] => .ok (.reset ⟨qubit⟩)
    | operands => .error (.resetOperands operands.length)
  else if r.tag = "barrier" then
    if r.operands.isEmpty then .error .barrierOperands
    else .ok (.barrier (r.operands.map Qubit.mk))
  else
    match signature? r.tag with
    | none => .error (.unknownGate r.tag)
    | some signature =>
      if r.operands.length ≠ signature.qubitCount then
        .error (.operandCount r.tag signature.qubitCount r.operands.length)
      else
        match BaseGate.build signature.kind r.angle.toList with
        | .error cause => .error (.angles cause)
        | .ok base => .ok (.gate ⟨base, signature.controls⟩ (r.operands.map Qubit.mk))

/-- The record of an instruction. -/
def Instruction.toRecord (i : Instruction) : GateRecord :=
  let qubits := i.qubits.map Qubit.index
  match i.operation with
  | .gate g => ⟨g.mnemonic, qubits, g.base.angle?⟩
  | .measure => ⟨"measure", qubits ++ i.clbits.map Clbit.index, none⟩
  | .reset => ⟨"reset", qubits, none⟩
  | .barrier => ⟨"barrier", qubits, none⟩

namespace Circuit

/-- The circuit of given size that records describe.  They are taken in order, so that of several
bad records the first is reported. -/
def ofRecords (qubits clbits : UInt32) (records : List GateRecord) :
    Except RecordError Circuit := do
  let instructions ← records.zipIdx.mapM fun (r, index) => do
    let i ← r.toInstruction.mapError (.malformed index)
    (check qubits clbits i).mapError .circuit
    pure i
  pure ⟨qubits, clbits, instructions⟩

/-- The records of a circuit, one for each instruction. -/
def toRecords (c : Circuit) : List GateRecord := c.instructions.map Instruction.toRecord

end Circuit

end FlatQasm
