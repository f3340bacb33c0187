import FlatQasm.Angle.Evaluate
import FlatQasm.Circuit.RemoveY

/-!
# Circuits as OpenQASM 2.0 text

The text has the header, one quantum register `q` and one classical register `c` of the sizes of
the circuit, and a line for each instruction.  OpenQASM has no registers of size zero, so none is
declared for a count of zero.  Every angle is written as a number, in the shortest form that reads
back, so that importing the text gives the same angles.

## Main definitions

* `ExportError` — why a circuit has no text.
* `Instruction.lines` — the lines of an instruction.
* `Circuit.exportText` — the text of a circuit.
-/

namespace FlatQasm

/-- Why a circuit has no text. -/
inductive ExportError where
  /-- A free variable has no value. -/
  | unboundVariable (name : String)
  /-- The divisor of this quotient is zero. -/
  | divisionByZero (quotient : Angle)
  /-- The angle of a gate is infinite or not a number. -/
  | nonFiniteAngle (mnemonic : String) (value : Float)

/-- The wording of an export error. -/
def ExportError.message : ExportError → String
  | .unboundVariable name => "Unbound variable '" ++ name ++ "'"
  | .divisionByZero quotient => "Division by zero while evaluating '" ++ quotient.text ++ "'"
  | .nonFiniteAngle mnemonic value =>
    "Parameter of gate '" ++ mnemonic ++ "' evaluated to " ++ Decimal.Layout.source.text value

/-- An evaluation error as an export error. -/
def ExportError.ofEval : EvalError → ExportError
  | .unbound name => .unboundVariable name
  | .divisionByZero quotient => .divisionByZero quotient

/-- The number of an angle as an argument in parentheses; nothing for a gate without angle. -/
def Gate.argument (g : Gate) (b : Bindings) : Except ExportError String :=
  match g.base.angle? with
  | none => .ok ""
  | some angle => do
    let value ← (angle.evaluate b).mapError .ofEval
    if value.isFinite then .ok ("(" ++ Decimal.Layout.source.text value ++ ")")
    else .error (.nonFiniteAngle g.mnemonic value)

/-- The qubits of an instruction with commas between them. -/
def Instruction.qubitList (i : Instruction) : String :=
  ", ".intercalate (i.qubits.map Qubit.text)

/-- The lines of an instruction. -/
def Instruction.lines (i : Instruction) (b : Bindings) : Except ExportError (List String) :=
  match i.operation with
  | .gate g => do
    let argument ← g.argument b
    .ok [g.mnemonic ++ argument ++ " " ++ i.qubitList ++ ";"]
  | .measure =>
    .ok ((i.qubits.zip i.clbits).map fun (q, c) =>
      "measure " ++ q.text ++ " -> " ++ c.text ++ ";")
  | .reset => .ok ["reset " ++ i.qubitList ++ ";"]
  | .barrier => .ok ["barrier " ++ i.qubitList ++ ";"]

namespace Circuit

/-- The lines in front of the instructions. -/
def headerLines (c : Circuit) : List String :=
  ["OPENQASM 2.0;", "include \"qelib1.inc\";"] ++
    (if c.qubitCount = 0 then [] else ["qreg q[" ++ toString c.qubitCount.toNat ++ "];"]) ++
    (if c.clbitCount = 0 then [] else ["creg c[" ++ toString c.clbitCount.toNat ++ "];"])

/-- All lines of a circuit. -/
def lines (c : Circuit) (b : Bindings) : Except ExportError (List String) := do
  let body ← c.instructions.mapM fun i => i.lines b
  .ok (c.headerLines ++ body.flatten)

/-- The text of a circuit under bindings, as it is or without its Y-basis gates.  Every free
variable has to have a value before anything is written. -/
def exportText (c : Circuit) (b : Bindings) (dropY : Bool) : Except ExportError String := do
  let c := if dropY then c.withoutY else c
  (b.check c.freeVariables).mapError .ofEval
  let lines ← c.lines b
  .ok (String.join (lines.map (· ++ "\n")))

end Circuit

end FlatQasm
