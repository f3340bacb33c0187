import FlatQasm.Circuit.Instruction

/-!
# Circuits

A circuit is a number of qubits, a number of classical bits, and a list of instructions on them.
Instructions enter a circuit through `Circuit.apply`, which refuses one that does not fit.

## Main definitions

* `Circuit` — the type.
* `Circuit.check` — whether an instruction fits a circuit of given size.
* `Circuit.apply` — an instruction put at the end.
* `Circuit.replaceEach` — each instruction replaced by a list.
* `Circuit.freeVariables` — the free variables of its angles.
-/

namespace FlatQasm

/-- A circuit.  Its qubits and classical bits are those with an index below the two counts. -/
structure Circuit where
  qubitCount : UInt32
  clbitCount : UInt32
  instructions : List Instruction
deriving BEq

namespace Circuit

/-- A circuit without instructions. -/
def ofSize (qubits clbits : UInt32) : Circuit := ⟨qubits, clbits, []⟩

/-- The circuit without bits and instructions. -/
def empty : Circuit := ofSize 0 0

instance : EmptyCollection Circuit := ⟨empty⟩
instance : Inhabited Circuit := ⟨empty⟩

/-- Whether an instruction fits a circuit of the given size: its operands suit its operation,
then its qubits are in range, and then its classical bits. -/
def check (qubits clbits : UInt32) (i : Instruction) : Except CircuitError Unit := do
  i.validate
  match i.qubits.find? fun q => qubits ≤ q.index with
  | some q => throw (.qubitNotFound q qubits i.name)
  | none =>
    match i.clbits.find? fun c => clbits ≤ c.index with
    | some c => throw (.clbitNotFound c clbits i.name)
    | none => pure ()

/-- The circuit with an instruction at the end, if it fits. -/
def apply (c : Circuit) (i : Instruction) : Except CircuitError Circuit := do
  check c.qubitCount c.clbitCount i
  pure { c with instructions := c.instructions ++ [i] }

section

variable {c : Circuit} {i : Instruction}

@[grind =>] theorem apply_of_ok (h : check c.qubitCount c.clbitCount i = .ok ()) :
    c.apply i = .ok { c with instructions := c.instructions ++ [i] } := by
  rw [apply, h]
  rfl

@[grind =>] theorem apply_of_error {e : CircuitError}
    (h : check c.qubitCount c.clbitCount i = .error e) : c.apply i = .error e := by
  rw [apply, h]
  rfl

end

/-! ## Building -/

/-- A gate on some qubits, controls first. -/
def gate (c : Circuit) (g : Gate) (qubits : List Qubit) : Except CircuitError Circuit :=
  c.apply (.gate g qubits)

/-- The measurement of a qubit into a classical bit. -/
def measure (c : Circuit) (qubit : Qubit) (clbit : Clbit) : Except CircuitError Circuit :=
  c.apply (.measure qubit clbit)

/-- The reset of a qubit. -/
def reset (c : Circuit) (qubit : Qubit) : Except CircuitError Circuit := c.apply (.reset qubit)

/-- A barrier across some qubits. -/
def barrier (c : Circuit) (qubits : List Qubit) : Except CircuitError Circuit :=
  c.apply (.barrier qubits)

/-- The first qubits of a circuit, in order. -/
def firstQubits (count : Nat) : List Qubit := (List.range count).map fun i => ⟨i.toUInt32⟩

/-- A barrier across all qubits. -/
def barrierAll (c : Circuit) : Except CircuitError Circuit :=
  c.barrier (firstQubits c.qubitCount.toNat)

/-- The measurement of every qubit into the classical bit of the same index.  Classical bits are
added when there are fewer than qubits, so that every measurement fits. -/
def measureAll (c : Circuit) : Circuit where
  qubitCount := c.qubitCount
  clbitCount := max c.clbitCount c.qubitCount
  instructions := c.instructions ++
    (firstQubits c.qubitCount.toNat).map fun q => .measure q ⟨q.index⟩

/-- The circuit that makes a Bell pair and measures it. -/
def bell : Circuit where
  qubitCount := 2
  clbitCount := 2
  instructions :=
    [.gate ⟨.fixed .h, .zero⟩ [⟨0⟩], .gate ⟨.fixed .x, .one⟩ [⟨0⟩, ⟨1⟩],
      .measure ⟨0⟩ ⟨0⟩, .measure ⟨1⟩ ⟨1⟩]

/-! ## Looking at a circuit -/

/-- The gates in order, without measurements, resets and barriers. -/
def gates (c : Circuit) : List Gate := c.instructions.filterMap Instruction.gate?

/-- The angles of the gates in order. -/
def angles (c : Circuit) : List Angle := c.gates.filterMap fun g => g.base.angle?

/-- The free variables of all angles in the order of their names, each once. -/
def freeVariables (c : Circuit) : List String := sortNames (c.angles.flatMap Angle.occurrences)

/-- Whether some angle has a free variable. -/
def isSymbolic (c : Circuit) : Bool := c.gates.any fun g => g.base.isSymbolic

/-- The number of instructions of each kind. -/
structure Counts where
  gates : Nat
  measures : Nat
  resets : Nat
  barriers : Nat
deriving DecidableEq

/-- How many instructions there are of each kind. -/
def counts (c : Circuit) : Counts where
  gates := c.instructions.countP Instruction.isGate
  measures := c.instructions.countP Instruction.isMeasure
  resets := c.instructions.countP Instruction.isReset
  barriers := c.instructions.countP Instruction.isBarrier

/-! ## Replacing instructions -/

/-- The circuit with each instruction replaced by a list, in order.  Replacements have to be
valid and to stay on the qubits of what they replace; then the result needs no check. -/
def replaceEach (c : Circuit) (replace : Instruction → List Instruction) : Circuit :=
  { c with instructions := c.instructions.flatMap replace }

end Circuit

end FlatQasm
