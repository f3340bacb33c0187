import FlatQasm.Proofs.Circuit.WellFormed

/-!
# Replacing instructions

A circuit with each instruction replaced by a list is not checked again.  What is asked of a
replacement is that it is valid and that its qubits are among those of the instruction that it
replaces.  This keeps the numbers of operands and the qubits right.  It says nothing of the index of
a classical bit, so that a measurement can be replaced by one into a bit that is not there; only
where a replacement reuses the classical bits as well is the circuit well formed again.

## Main definitions

* `Instruction.Allows` — what is asked of a replacement.

## Main statements

* `Instruction.Allows.fits_iff` — what a replacement needs in addition, so that it fits.
* `Circuit.replaceEach_wellFormed` — what replacing keeps, and when the result is well formed.
* `Circuit.replaceEach_elsewhere` — allowed replacements with a classical bit out of range.
-/

namespace FlatQasm

/-- What is asked of a replacement: it is valid, and its qubits are among those of the instruction
that it replaces. -/
structure Instruction.Allows (i j : Instruction) : Prop where
  valid : j.validate = .ok ()
  qubits : ∀ q ∈ j.qubits, q ∈ i.qubits

instance (i j : Instruction) : Decidable (i.Allows j) :=
  decidable_of_iff (j.validate = .ok () ∧ ∀ q ∈ j.qubits, q ∈ i.qubits)
    ⟨fun ⟨valid, qubits⟩ => ⟨valid, qubits⟩, fun ⟨valid, qubits⟩ => ⟨valid, qubits⟩⟩

section Instructions

variable {qubits clbits : UInt32} {i j : Instruction}

theorem Instruction.Allows.qubit_lt (h : i.Allows j) (fits : i.Fits qubits clbits) :
    ∀ q ∈ j.qubits, q.index < qubits :=
  fun q hq => fits.qubit_lt q (h.qubits q hq)

/-- A replacement fits as soon as its classical bits are in range. -/
theorem Instruction.Allows.fits_iff (h : i.Allows j) (fits : i.Fits qubits clbits) :
    j.Fits qubits clbits ↔ ∀ b ∈ j.clbits, b.index < clbits := by
  refine ⟨fun fits' => fits'.clbit_lt, fun hclbits => ?_⟩
  obtain ⟨hqubits, hcount, nodup⟩ := Instruction.validate_eq_ok.1 h.valid
  exact ⟨hqubits, hcount, nodup, h.qubit_lt fits, hclbits⟩

end Instructions

namespace Circuit

variable {c : Circuit} {replace : Instruction → List Instruction}

@[simp] theorem mem_instructions_replaceEach {j : Instruction} :
    j ∈ (c.replaceEach replace).instructions ↔ ∃ i ∈ c.instructions, j ∈ replace i :=
  List.mem_flatMap

/-- **Replacing each instruction.**  The sizes of the circuit stay, and its instructions are the
replacements in order.  All of them are valid and have qubits in range.  The circuit is well formed
exactly when their classical bits are in range too, as they are when each replacement reuses those
of the instruction that it replaces. -/
theorem replaceEach_wellFormed (wf : c.WellFormed)
    (allowed : ∀ i ∈ c.instructions, ∀ j ∈ replace i, i.Allows j) :
    (c.replaceEach replace).qubitCount = c.qubitCount ∧
      (c.replaceEach replace).clbitCount = c.clbitCount ∧
      (c.replaceEach replace).instructions = (c.instructions.map replace).flatten ∧
      (∀ j ∈ (c.replaceEach replace).instructions,
        j.validate = .ok () ∧ ∀ q ∈ j.qubits, q.index < c.qubitCount) ∧
      ((c.replaceEach replace).WellFormed ↔
        ∀ i ∈ c.instructions, ∀ j ∈ replace i, ∀ b ∈ j.clbits, b.index < c.clbitCount) ∧
      ((∀ i ∈ c.instructions, ∀ j ∈ replace i, ∀ b ∈ j.clbits, b ∈ i.clbits) →
        (c.replaceEach replace).WellFormed) := by
  have wellFormed_iff : (c.replaceEach replace).WellFormed ↔
      ∀ i ∈ c.instructions, ∀ j ∈ replace i, ∀ b ∈ j.clbits, b.index < c.clbitCount := by
    constructor
    · intro wf' i hi j hj
      exact (wf'.fits (mem_instructions_replaceEach.2 ⟨i, hi, hj⟩)).clbit_lt
    · intro hclbits j hj
      obtain ⟨i, hi, hj⟩ := mem_instructions_replaceEach.1 hj
      exact check_eq_ok.2 (((allowed i hi j hj).fits_iff (wf.fits hi)).2 (hclbits i hi j hj))
  refine ⟨rfl, rfl, rfl, fun j hj => ?_, wellFormed_iff, fun reused => ?_⟩
  · obtain ⟨i, hi, hj⟩ := mem_instructions_replaceEach.1 hj
    exact ⟨(allowed i hi j hj).valid, (allowed i hi j hj).qubit_lt (wf.fits hi)⟩
  · refine wellFormed_iff.2 fun i hi j hj b hb => ?_
    exact (wf.fits hi).clbit_lt b (reused i hi j hj b hb)

/-- A controlled `X` with its qubits exchanged, between Hadamard gates on both of them. -/
def turnedAround (i : Instruction) : List Instruction :=
  match i.operation, i.qubits with
  | .gate ⟨.fixed .x, .one⟩, [a, b] =>
    let basis : List Instruction := [.gate ⟨.fixed .h, .zero⟩ [a], .gate ⟨.fixed .h, .zero⟩ [b]]
    basis ++ .gate ⟨.fixed .x, .one⟩ [b, a] :: basis
  | _, _ => [i]

theorem replaceEach_wellFormed_bell :
    bell.WellFormed ∧ (∀ i ∈ bell.instructions, ∀ j ∈ turnedAround i, i.Allows j) ∧
      (∀ i ∈ bell.instructions, ∀ j ∈ turnedAround i, ∀ b ∈ j.clbits, b ∈ i.clbits) ∧
      (bell.replaceEach turnedAround).instructions.length = 8 ∧
      (bell.replaceEach turnedAround).WellFormed := by
  have wf : bell.WellFormed := by
    unfold WellFormed
    decide
  have allowed : ∀ i ∈ bell.instructions, ∀ j ∈ turnedAround i, i.Allows j := by decide
  have reused : ∀ i ∈ bell.instructions, ∀ j ∈ turnedAround i, ∀ b ∈ j.clbits, b ∈ i.clbits := by
    decide
  obtain ⟨-, -, hlist, -, -, hwf⟩ := replaceEach_wellFormed wf allowed
  refine ⟨wf, allowed, reused, ?_, hwf reused⟩
  rw [hlist]
  rfl

/-- A circuit that measures its qubit into its classical bit. -/
def measured : Circuit := ⟨1, 1, [.measure ⟨0⟩ ⟨0⟩]⟩

/-- The same operation on the same qubits, and on the classical bits behind those that it has. -/
def elsewhere (i : Instruction) : List Instruction :=
  [{ i with clbits := i.clbits.map fun b => ⟨b.index + 1⟩ }]

/-- **What is asked of a replacement is not enough**: a measurement into the next classical bit is
valid and stays on its qubit, and the bit is out of range. -/
theorem replaceEach_elsewhere :
    measured.WellFormed ∧ (∀ i ∈ measured.instructions, ∀ j ∈ elsewhere i, i.Allows j) ∧
      ¬ (measured.replaceEach elsewhere).WellFormed := by
  unfold WellFormed
  decide

end Circuit

end FlatQasm
