import FlatQasm.Proofs.Circuit.ExportOutcome

/-!
# What removing Y-basis gates keeps

The pass goes through the instructions in order and puts a block in place of each: three gates for a
gate in the Y basis, and otherwise the instruction alone.  Everything that is said of a circuit
instruction by instruction follows from what a block is.

A block has no gate in the Y basis.  So the pass is not needed behind itself, and that it is left
out where it is not needed makes no difference.

## Main definitions

* `Instruction.Block` — what stands for an instruction behind the pass.

## Main statements

* `Instruction.block_removeY` — the pass puts blocks in place of instructions.
* `Circuit.run_eq_withoutY` — leaving the pass out makes no difference.
* `Circuit.countP_withoutY` — how many instructions there are of any kind.
* `Circuit.withoutY_structure` — everything that the pass keeps, and what it leaves.
-/

namespace FlatQasm

theorem BaseGate.isYBasis_yToX? {base middle : BaseGate} (h : base.yToX? = some middle) :
    middle.kind.isYBasis = false := by
  cases base with
  | fixed gate =>
    cases gate <;> cases h
    rfl
  | rotation axis angle =>
    cases axis <;> cases h
    rfl

/-! ## Instructions -/

namespace Instruction

/-- Whether an instruction is a gate in the Y basis, with any number of controls. -/
def isYBasis (i : Instruction) : Bool := (i.gate?.map fun g => g.base.kind.isYBasis).getD false

/-- What stands for an instruction when Y-basis gates are removed: the instruction itself, or for a
gate in the Y basis three gates, each with its controls and on its operands. -/
inductive Block : Instruction → List Instruction → Prop
  | kept {i : Instruction} : i.isYBasis = false → Block i [i]
  | replaced {g : Gate} {qubits : List Qubit} {clbits : List Clbit} {first middle last : BaseGate} :
      g.base.kind.isYBasis = true →
      Block ⟨.gate g, qubits, clbits⟩ [.gate ⟨first, g.controls⟩ qubits,
        .gate ⟨middle, g.controls⟩ qubits, .gate ⟨last, g.controls⟩ qubits]

variable {i j : Instruction}

/-- The two cases of the pass: an instruction that is left alone, and a gate in the Y basis between
two quarter turns. -/
theorem removeY_cases (i : Instruction) :
    i.isYBasis = false ∧ i.removeY = [i] ∨
      ∃ g qubits clbits middle, i = ⟨.gate g, qubits, clbits⟩ ∧ g.base.yToX? = some middle ∧
        i.removeY = [.gate ⟨.rotation .z (.const (-quarterTurn)), g.controls⟩ qubits,
          .gate ⟨middle, g.controls⟩ qubits,
          .gate ⟨.rotation .z (.const quarterTurn), g.controls⟩ qubits] := by
  obtain ⟨operation, qubits, clbits⟩ := i
  cases operation with
  | gate g =>
    cases h : g.base.yToX? with
    | none =>
      have hkind := g.base.isSome_yToX?
      rw [h] at hkind
      exact .inl ⟨hkind.symm, by simp [removeY, h]⟩
    | some middle => exact .inr ⟨g, qubits, clbits, middle, rfl, h, by simp [removeY, h]⟩
  | measure | reset | barrier => exact .inl ⟨rfl, rfl⟩

/-- **The pass puts blocks in place of instructions.** -/
theorem block_removeY (i : Instruction) : i.Block i.removeY := by
  rcases i.removeY_cases with ⟨hkind, h⟩ | ⟨g, qubits, clbits, middle, rfl, hmiddle, h⟩
  · rw [h]
    exact .kept hkind
  · rw [h]
    refine .replaced ?_
    rw [← g.base.isSome_yToX?, hmiddle]
    rfl

/-- No gate in the Y basis is left. -/
theorem isYBasis_of_mem_removeY (hj : j ∈ i.removeY) : j.isYBasis = false := by
  rcases i.removeY_cases with ⟨hkind, h⟩ | ⟨g, qubits, clbits, middle, rfl, hmiddle, h⟩
  · rw [h] at hj
    rwa [List.mem_singleton.1 hj]
  · rw [h] at hj
    simp only [List.mem_cons, List.not_mem_nil, or_false] at hj
    obtain rfl | rfl | rfl := hj
    · rfl
    · exact BaseGate.isYBasis_yToX? hmiddle
    · rfl

theorem others_of_isGate (h : i.isGate = true) :
    i.isMeasure = false ∧ i.isReset = false ∧ i.isBarrier = false := by
  obtain ⟨operation, qubits, clbits⟩ := i
  cases operation with
  | gate g => exact ⟨rfl, rfl, rfl⟩
  | measure | reset | barrier => cases h

/-- The gates of a block have operands like the gate that they stand for. -/
theorem Block.validate {block : List Instruction} (h : i.Block block) (valid : i.validate = .ok ())
    (hj : j ∈ block) : j.validate = .ok () := by
  cases h with
  | kept _ =>
    rw [List.mem_singleton.1 hj]
    exact valid
  | @replaced g qubits clbits first middle last _ =>
    obtain ⟨counted, -, nodup⟩ := validate_eq_ok.1 valid
    simp only [List.mem_cons, List.not_mem_nil, or_false] at hj
    obtain rfl | rfl | rfl := hj <;> exact validate_eq_ok.2 ⟨counted, rfl, nodup⟩

end Instruction

/-! ## Circuits -/

namespace Circuit

variable {c : Circuit}

theorem withoutY_of_not_needed (h : removeY.needed c = false) : c.withoutY = c := by
  simp [withoutY, h]

/-- **Leaving the pass out where it is not needed makes no difference.** -/
theorem run_eq_withoutY (c : Circuit) : removeY.run c = c.withoutY := by
  cases h : removeY.needed c with
  | true => simp [withoutY, h]
  | false =>
    have hinstructions := c.instructions_withoutY
    rw [withoutY_of_not_needed h] at hinstructions ⊢
    exact congrArg (Circuit.mk c.qubitCount c.clbitCount) hinstructions.symm

/-- The pass is not needed behind itself. -/
theorem needed_withoutY (c : Circuit) : removeY.needed c.withoutY = false := by
  refine List.any_eq_false.2 fun g hg => ?_
  obtain ⟨j, hj, hgate⟩ := List.mem_filterMap.1 hg
  rw [instructions_withoutY] at hj
  obtain ⟨i, -, hj⟩ := List.mem_flatMap.1 hj
  have hfree := Instruction.isYBasis_of_mem_removeY hj
  rw [Instruction.isYBasis, hgate] at hfree
  simpa using hfree

theorem countP_gates (c : Circuit) :
    c.gates.countP (fun g => g.base.kind.isYBasis) =
      c.instructions.countP Instruction.isYBasis := by
  rw [gates, List.countP_filterMap]
  rfl

/-- How many instructions of a kind there are: as many as before and, where gates are of that kind,
two more for each gate in the Y basis. -/
theorem countP_withoutY {p : Instruction → Bool} {gates : Bool}
    (h : ∀ i, i.isGate = true → p i = gates) (c : Circuit) :
    c.withoutY.instructions.countP p = c.instructions.countP p +
      if gates then 2 * c.gates.countP (fun g => g.base.kind.isYBasis) else 0 := by
  rw [instructions_withoutY, countP_gates]
  induction c.instructions with
  | nil => cases gates <;> rfl
  | cons i rest ih =>
    rw [List.flatMap_cons, List.countP_append, ih, List.countP_cons, List.countP_cons]
    have block := i.block_removeY
    generalize i.removeY = list at block
    cases block with
    | kept hkept =>
      rw [List.countP_singleton, hkept]
      cases gates <;> (simp; omega)
    | @replaced g qubits clbits first middle last hkind =>
      have hY : Instruction.isYBasis ⟨.gate g, qubits, clbits⟩ = true := hkind
      rw [hY, h ⟨.gate g, qubits, clbits⟩ rfl]
      simp only [List.countP_cons, List.countP_nil, h (.gate _ qubits) rfl]
      cases gates with
      | true => simp; omega
      | false => simp

/-- There are two more gates for each gate in the Y basis, and as many other instructions. -/
theorem counts_withoutY (c : Circuit) : c.withoutY.counts = { c.counts with
    gates := c.counts.gates + 2 * c.gates.countP fun g => g.base.kind.isYBasis } := by
  have measures := countP_withoutY (fun _ hi => (Instruction.others_of_isGate hi).1) c
  have resets := countP_withoutY (fun _ hi => (Instruction.others_of_isGate hi).2.1) c
  have barriers := countP_withoutY (fun _ hi => (Instruction.others_of_isGate hi).2.2) c
  have gates := countP_withoutY (fun _ hi => hi) c
  simp only [counts]
  rw [gates, measures, resets, barriers]
  rfl

/-- **What the pass keeps, and what it leaves.**  Leaving it out where it is not needed makes no
difference; behind it no gate is in the Y basis, so that it changes nothing more.  The numbers of
bits, the variables and the numbers of other instructions are kept, and for each gate in the Y basis
there are two more gates.  The instructions come block by block, in order: the instruction itself,
or for a gate in the Y basis three gates with its controls and operands.  Operands that suited their
operation still do, and a well-formed circuit stays well formed. -/
theorem withoutY_structure (c : Circuit) :
    removeY.run c = c.withoutY ∧
    removeY.needed c.withoutY = false ∧
    (∀ g ∈ c.withoutY.gates, g.base ≠ .fixed .y ∧ ∀ angle, g.base ≠ .rotation .y angle) ∧
    c.withoutY.withoutY = c.withoutY ∧
    c.withoutY.qubitCount = c.qubitCount ∧ c.withoutY.clbitCount = c.clbitCount ∧
    c.withoutY.freeVariables = c.freeVariables ∧
    c.withoutY.counts = { c.counts with
      gates := c.counts.gates + 2 * c.gates.countP fun g => g.base.kind.isYBasis } ∧
    c.withoutY.instructions.length =
      c.instructions.length + 2 * c.gates.countP (fun g => g.base.kind.isYBasis) ∧
    (∃ blocks, List.Forall₂ Instruction.Block c.instructions blocks ∧
      blocks.flatten = c.withoutY.instructions) ∧
    ((∀ i ∈ c.instructions, i.validate = .ok ()) →
      ∀ j ∈ c.withoutY.instructions, j.validate = .ok ()) ∧
    (c.WellFormed → c.withoutY.WellFormed) := by
  refine ⟨c.run_eq_withoutY, c.needed_withoutY, fun g hg => ?_,
    withoutY_of_not_needed c.needed_withoutY, c.qubitCount_withoutY, c.clbitCount_withoutY,
    c.freeVariables_exported true, ?_, ?_, ?_, fun valid j hj => ?_, WellFormed.withoutY⟩
  · have hkind := List.any_eq_false.1 c.needed_withoutY g hg
    constructor
    · intro h
      rw [h] at hkind
      exact hkind rfl
    · intro angle h
      rw [h] at hkind
      exact hkind rfl
  · exact c.counts_withoutY
  · simpa using countP_withoutY (p := fun _ => true) (fun _ _ => rfl) c
  · refine ⟨c.instructions.map Instruction.removeY, ?_, ?_⟩
    · rw [List.forall₂_map_right_iff, List.forall₂_same]
      exact fun i _ => i.block_removeY
    · rw [instructions_withoutY, List.flatMap_def]
  · rw [instructions_withoutY] at hj
    obtain ⟨i, hi, hj⟩ := List.mem_flatMap.1 hj
    exact i.block_removeY.validate (valid i hi) hj

end Circuit

end FlatQasm
