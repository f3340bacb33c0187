import FlatQasm.Circuit.Basic
import FlatQasm.Program.ImportError

/-!
# Gate calls as instructions

A call of a built-in gate is one instruction.  A call of a defined gate is what its body's calls
are, with the qubits and angles of the call in place of the formal ones.  A body can only call
gates that were defined before, so expanding goes down the list of definitions.

## Main definitions

* `BoundCall` — a call whose operands are qubits of the circuit.
* `GateDefinition.instantiate` — a body call with actual qubits and angles.
* `callGate`, `expandDefined` — the instructions of a call of a built-in gate, and of a defined
  one.
* `expand` — the instructions of a call.
-/

namespace FlatQasm

/-- The call of a gate on qubits of the circuit. -/
structure BoundCall where
  name : String
  params : List Angle
  qubits : List Qubit

/-- Whether a call has as many angles and qubits as the gate takes. -/
def BoundCall.checkArity (call : BoundCall) (p : Position) (arity : Arity) :
    Except ImportError Unit :=
  if call.params.length ≠ arity.params then
    .error (.wrongParamCount p call.name arity.params call.params.length)
  else if call.qubits.length ≠ arity.qubits then
    .error (.wrongQubitCount p call.name arity.qubits call.qubits.length)
  else .ok ()

/-- The value of a name in a list of pairs; the last pair of a name counts. -/
def lastValue? {α : Type} (name : String) (pairs : List (String × α)) : Option α :=
  pairs.reverse.lookup name

namespace GateDefinition

/-- The actual qubit of an operand in a body.  Of formal qubits with one name the first counts. -/
def actualQubit (d : GateDefinition) (p : Position) (qubits : List Qubit) (operand : Operand) :
    Except ImportError Qubit :=
  match operand with
  | .register formal =>
    match (d.qubits.zip qubits).lookup formal with
    | some q => .ok q
    | none => .error (.unresolvedRegister p operand.text)
  | .element _ _ => .error (.unresolvedRegister p operand.text)

/-- The actual angle of an angle in a body: formal angles are replaced all at once, and constants
are folded.  It may not be too high. -/
def actualAngle (d : GateDefinition) (p : Position) (params : List Angle) (e : Angle) :
    Except ImportError Angle :=
  let actual := (e.substitute fun name => lastValue? name (d.params.zip params)).simplify
  if nestingLimit < actual.depth then .error (.nestingTooDeep p) else .ok actual

/-- A call in the body with the qubits and angles of a call of the gate. -/
def instantiate (d : GateDefinition) (p : Position) (outer : BoundCall) (inner : GateCall) :
    Except ImportError BoundCall := do
  let qubits ← inner.operands.mapM (d.actualQubit p outer.qubits)
  let params ← inner.params.mapM (d.actualAngle p outer.params)
  .ok ⟨inner.name, params, qubits⟩

end GateDefinition

/-- The instruction of a built-in gate, if it fits a circuit of the given size. -/
def builtInInstruction (qubitCount clbitCount : UInt32) (signature : Signature)
    (call : BoundCall) : Except ImportError Instruction := do
  let base ← (BaseGate.build signature.kind call.params).mapError .circuit
  let i := Instruction.gate ⟨base, signature.controls⟩ call.qubits
  (Circuit.check qubitCount clbitCount i).mapError .circuit
  .ok i

/-- The instruction of a call of a built-in gate; what a call of another gate gives is up to
`defined`. -/
def callGate (qubitCount clbitCount : UInt32) (p : Position)
    (defined : BoundCall → Except ImportError (List Instruction)) (call : BoundCall) :
    Except ImportError (List Instruction) :=
  match signature? call.name with
  | some signature => do
    call.checkArity p ⟨signature.paramCount, signature.qubitCount⟩
    let i ← builtInInstruction qubitCount clbitCount signature call
    .ok [i]
  | none => defined call

section

variable {qubitCount clbitCount : UInt32} {p : Position} {call : BoundCall}
  {defined : BoundCall → Except ImportError (List Instruction)}

@[grind =>] theorem callGate_of_builtIn {s : Signature} (h : signature? call.name = some s) :
    callGate qubitCount clbitCount p defined call = (do
      call.checkArity p ⟨s.paramCount, s.qubitCount⟩
      let i ← builtInInstruction qubitCount clbitCount s call
      .ok [i]) := by
  simp only [callGate, h]

@[grind =>] theorem callGate_of_defined (h : signature? call.name = none) :
    callGate qubitCount clbitCount p defined call = defined call := by
  simp only [callGate, h]

end

/-- The instructions of a call of a gate among some definitions, the latest first.  The calls in
the body of a definition are of built-in gates, or of gates among those before it. -/
def expandDefined (qubitCount clbitCount : UInt32) (p : Position) :
    List GateDefinition → BoundCall → Except ImportError (List Instruction)
  | [], call => .error (.unknownGate p call.name)
  | d :: earlier, call =>
    if d.name = call.name then do
      call.checkArity p d.arity
      let lists ← d.body.mapM fun inner => do
        let bound ← d.instantiate p call inner
        callGate qubitCount clbitCount p (expandDefined qubitCount clbitCount p earlier) bound
      .ok lists.flatten
    else expandDefined qubitCount clbitCount p earlier call

section

variable {qubitCount clbitCount : UInt32} {p : Position} {d : GateDefinition} {call : BoundCall}

@[simp] theorem expandDefined_nil (qubitCount clbitCount : UInt32) (p : Position)
    (call : BoundCall) :
    expandDefined qubitCount clbitCount p [] call = .error (.unknownGate p call.name) := rfl

@[grind =>] theorem expandDefined_of_name_eq (h : d.name = call.name)
    (earlier : List GateDefinition) :
    expandDefined qubitCount clbitCount p (d :: earlier) call = (do
      call.checkArity p d.arity
      let lists ← d.body.mapM fun inner => do
        let bound ← d.instantiate p call inner
        callGate qubitCount clbitCount p (expandDefined qubitCount clbitCount p earlier) bound
      .ok lists.flatten) := by
  rw [expandDefined, if_pos h]

@[grind =>] theorem expandDefined_of_name_ne (h : d.name ≠ call.name)
    (earlier : List GateDefinition) :
    expandDefined qubitCount clbitCount p (d :: earlier) call =
      expandDefined qubitCount clbitCount p earlier call := by
  rw [expandDefined, if_neg h]

end

/-- The instructions of a call, given the definitions before it, the latest first. -/
def expand (qubitCount clbitCount : UInt32) (p : Position) (definitions : List GateDefinition)
    (call : BoundCall) : Except ImportError (List Instruction) :=
  callGate qubitCount clbitCount p (expandDefined qubitCount clbitCount p definitions) call

end FlatQasm
