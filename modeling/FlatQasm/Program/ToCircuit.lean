import FlatQasm.Program.Expansion
import FlatQasm.Program.Registers

/-!
# Programs as circuits

A program becomes a circuit in two passes.  The first lays out the registers; the second turns
each statement into instructions, in order, on the bits of that layout.  A whole register as an
operand stands for its bits, one statement for each of them.

## Main definitions

* `forEachIndex` — instructions for each index of a broadcast.
* `Statement.instructions` — the instructions of a statement.
* `Program.toCircuit` — the circuit of a program.
-/

namespace FlatQasm

/-- The lists for `count` indices from `first` on, one behind the other, up to the first
error. -/
def forEachIndex {α ε : Type} (f : Nat → Except ε (List α)) :
    (count first : Nat) → Except ε (List α)
  | 0, _ => .ok []
  | count + 1, first => do
    let here ← f first
    let rest ← forEachIndex f count (first + 1)
    .ok (here ++ rest)

section

variable {α ε : Type} {f : Nat → Except ε (List α)}

@[simp] theorem forEachIndex_zero (first : Nat) : forEachIndex f 0 first = .ok [] := rfl

theorem forEachIndex_succ (count first : Nat) : forEachIndex f (count + 1) first =
    f first >>= fun here => (forEachIndex f count (first + 1)).map (here ++ ·) := rfl

@[grind =>] theorem forEachIndex_of_ok {first : Nat} {here : List α} (h : f first = .ok here)
    (count : Nat) : forEachIndex f (count + 1) first =
      (forEachIndex f count (first + 1)).map (here ++ ·) := by
  rw [forEachIndex_succ, h]
  rfl

@[grind =>] theorem forEachIndex_of_error {first : Nat} {e : ε} (h : f first = .error e)
    (count : Nat) : forEachIndex f (count + 1) first = .error e := by
  rw [forEachIndex_succ, h]
  rfl

/-- A single index gives what the function gives for it. -/
@[simp] theorem forEachIndex_one (first : Nat) : forEachIndex f 1 first = f first := by
  cases h : f first with
  | error e => exact forEachIndex_of_error h 0
  | ok here =>
    rw [forEachIndex_of_ok h, forEachIndex_zero]
    exact congrArg Except.ok (List.append_nil here)

end

/-- The size that the whole registers among some operands have in common; one if there are none.
There is no such size when two of them differ. -/
def commonSize? (operands : List Resolved) : Option Nat :=
  match operands.filterMap Resolved.size? with
  | [] => some 1
  | size :: others => if others.all (· == size) then some size else none

/-- What statements are turned into instructions with: the registers, and the gates defined so
far, the latest first. -/
structure Lowering where
  registers : Registers
  definitions : List GateDefinition

namespace Lowering

/-- The number of qubits of the circuit. -/
def qubitCount (l : Lowering) : UInt32 := l.registers.qubitCount.toUInt32

/-- The number of classical bits of the circuit. -/
def clbitCount (l : Lowering) : UInt32 := l.registers.clbitCount.toUInt32

/-- A single instruction, if it fits the circuit. -/
def emit (l : Lowering) (i : Instruction) : Except ImportError (List Instruction) := do
  (Circuit.check l.qubitCount l.clbitCount i).mapError .circuit
  .ok [i]

/-- Whether a gate can be called. -/
def knows (l : Lowering) (gate : String) : Bool :=
  isBuiltIn gate || l.definitions.any (·.name == gate)

/-- The gates with one more definition.  Its name is new, and its body calls only gates that are
known. -/
def define (l : Lowering) (p : Position) (d : GateDefinition) : Except ImportError Lowering :=
  if l.knows d.name then .error (.duplicateDeclaration p d.name)
  else
    match d.body.find? fun call => !l.knows call.name with
    | some call => .error (.unknownGate p call.name)
    | none => .ok { l with definitions := d :: l.definitions }

/-- The instructions of a gate call, for each index of the registers among its operands. -/
def call (l : Lowering) (p : Position) (c : GateCall) : Except ImportError (List Instruction) := do
  let resolved ← c.operands.mapM (l.registers.qubits p)
  match commonSize? resolved with
  | none => .error (.broadcastMismatch p (.callSizes c.name))
  | some count =>
    forEachIndex (fun i =>
      expand l.qubitCount l.clbitCount p l.definitions
        ⟨c.name, c.params, resolved.map fun r => ⟨(r.bitAt i).toUInt32⟩⟩) count 0

/-- The instructions of a measurement: of a bit into a bit, or of a register into a register of
the same size. -/
def measure (l : Lowering) (p : Position) (qubit clbit : Operand) :
    Except ImportError (List Instruction) := do
  let source ← l.registers.qubits p qubit
  let target ← l.registers.clbits p clbit
  let emitAt (i : Nat) :=
    l.emit (.measure ⟨(source.bitAt i).toUInt32⟩ ⟨(target.bitAt i).toUInt32⟩)
  match source, target with
  | .bit _, .bit _ => emitAt 0
  | .whole q, .whole c =>
    if q.size = c.size then forEachIndex emitAt q.size 0
    else .error (.broadcastMismatch p (.measureSizes qubit clbit q.size c.size))
  | _, _ => .error (.broadcastMismatch p (.measureMixed qubit clbit))

/-- The instructions of a reset, one for each bit. -/
def reset (l : Lowering) (p : Position) (target : Operand) :
    Except ImportError (List Instruction) := do
  let resolved ← l.registers.qubits p target
  forEachIndex (fun i => l.emit (.reset ⟨(resolved.bitAt i).toUInt32⟩))
    (resolved.size?.getD 1) 0

/-- The single instruction of a barrier, on the bits of all operands in order, each once. -/
def barrier (l : Lowering) (p : Position) (targets : List Operand) :
    Except ImportError (List Instruction) := do
  let resolved ← targets.mapM (l.registers.qubits p)
  let bits := distinct (resolved.flatMap Resolved.bits)
  l.emit (.barrier (bits.map fun i => ⟨i.toUInt32⟩))

/-- What a statement changes and gives: the gates defined behind it, and its instructions. -/
def statement (l : Lowering) (s : Statement) :
    Except ImportError (Lowering × List Instruction) :=
  match s.kind with
  | .qreg _ _ | .creg _ _ => .ok (l, [])
  | .gateDefinition d => do
    let l ← l.define s.position d
    .ok (l, [])
  | .call c => (l.call s.position c).map ((l, ·))
  | .measure qubit clbit => (l.measure s.position qubit clbit).map ((l, ·))
  | .reset target => (l.reset s.position target).map ((l, ·))
  | .barrier targets => (l.barrier s.position targets).map ((l, ·))

section

variable (l : Lowering) (p : Position)

@[simp] theorem statement_qreg (name : String) (size : UInt32) :
    l.statement ⟨.qreg name size, p⟩ = .ok (l, []) := rfl

@[simp] theorem statement_creg (name : String) (size : UInt32) :
    l.statement ⟨.creg name size, p⟩ = .ok (l, []) := rfl

@[simp] theorem statement_gateDefinition (d : GateDefinition) :
    l.statement ⟨.gateDefinition d, p⟩ = (l.define p d).map ((·, [])) := rfl

@[simp] theorem statement_call (c : GateCall) :
    l.statement ⟨.call c, p⟩ = (l.call p c).map ((l, ·)) := rfl

@[simp] theorem statement_measure (qubit clbit : Operand) :
    l.statement ⟨.measure qubit clbit, p⟩ = (l.measure p qubit clbit).map ((l, ·)) := rfl

@[simp] theorem statement_reset (target : Operand) :
    l.statement ⟨.reset target, p⟩ = (l.reset p target).map ((l, ·)) := rfl

@[simp] theorem statement_barrier (targets : List Operand) :
    l.statement ⟨.barrier targets, p⟩ = (l.barrier p targets).map ((l, ·)) := rfl

end

/-- The instructions of statements, in order. -/
def statements (l : Lowering) : List Statement → Except ImportError (List Instruction)
  | [] => .ok []
  | s :: rest => do
    let (l, here) ← l.statement s
    let others ← l.statements rest
    .ok (here ++ others)

section

variable {l m : Lowering} {s : Statement} {here : List Instruction}

@[simp] theorem statements_nil (l : Lowering) : l.statements [] = .ok [] := rfl

theorem statements_cons (l : Lowering) (s : Statement) (rest : List Statement) :
    l.statements (s :: rest) =
      l.statement s >>= fun next => (next.1.statements rest).map (next.2 ++ ·) := rfl

@[grind =>] theorem statements_of_ok (h : l.statement s = .ok (m, here)) (rest : List Statement) :
    l.statements (s :: rest) = (m.statements rest).map (here ++ ·) := by
  rw [statements_cons, h]
  rfl

/-- A statement that is only accepted is passed over. -/
@[grind =>] theorem statements_of_ok_nil (h : l.statement s = .ok (m, []))
    (rest : List Statement) : l.statements (s :: rest) = m.statements rest := by
  rw [statements_of_ok h]
  cases m.statements rest <;> rfl

@[grind =>] theorem statements_of_error {e : ImportError} (h : l.statement s = .error e)
    (rest : List Statement) : l.statements (s :: rest) = .error e := by
  rw [statements_cons, h]
  rfl

end

end Lowering

/-- The circuit of a program. -/
def Program.toCircuit (p : Program) : Except ImportError Circuit := do
  let registers ← Registers.ofStatements p.statements
  let l : Lowering := ⟨registers, []⟩
  let instructions ← l.statements p.statements
  .ok ⟨l.qubitCount, l.clbitCount, instructions⟩

end FlatQasm
