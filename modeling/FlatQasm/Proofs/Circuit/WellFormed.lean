import FlatQasm.Circuit.RemoveY
import FlatQasm.Proofs.Lookup
import FlatQasm.Proofs.Outcome

/-!
# Well-formed circuits

A circuit is well formed when `Circuit.apply` would accept each of its instructions.  What this
asks of an instruction is said without the checks: its operands are as many as its operation
takes, no qubit occurs twice, and every index is in range.

## Main definitions

* `Instruction.Fits` — what an instruction needs to be accepted.
* `Operation.Takes` — the numbers of operands of each operation.
* `Circuit.WellFormed` — every instruction is accepted.

## Main statements

* `Instruction.fits_iff` — what is needed, kind by kind.
* `Circuit.check_eq_ok` — the checks accept exactly the instructions that fit.
* `Circuit.wellFormed_iff_foldlM_apply` — well-formed circuits are those that can be built.
* `Circuit.WellFormed.withoutY` — removing Y-basis gates keeps a circuit well formed.
-/

namespace FlatQasm

/-- Whether an instruction has as many qubits as its operation takes. -/
def Instruction.QubitsCounted (i : Instruction) : Prop :=
  match i.operation.qubitCount? with
  | some expected => i.qubits.length = expected
  | none => i.qubits ≠ []

/-- What an instruction needs to be accepted by a circuit of the given size. -/
structure Instruction.Fits (qubits clbits : UInt32) (i : Instruction) : Prop where
  qubits_counted : i.QubitsCounted
  clbits_counted : i.clbits.length = i.operation.clbitCount
  nodup : (i.qubits.map Qubit.index).Nodup
  qubit_lt : ∀ q ∈ i.qubits, q.index < qubits
  clbit_lt : ∀ c ∈ i.clbits, c.index < clbits

/-- The numbers of qubits and classical bits that each operation is for. -/
def Operation.Takes (qubits clbits : Nat) : Operation → Prop
  | .gate g => qubits = g.controls.count + 1 ∧ clbits = 0
  | .measure => qubits = 1 ∧ clbits = 1
  | .reset => qubits = 1 ∧ clbits = 0
  | .barrier => 1 ≤ qubits ∧ clbits = 0

theorem Instruction.takes_iff {i : Instruction} :
    i.operation.Takes i.qubits.length i.clbits.length ↔
      i.QubitsCounted ∧ i.clbits.length = i.operation.clbitCount := by
  obtain ⟨operation, qubits, clbits⟩ := i
  cases operation with
  | gate g | measure | reset => exact Iff.rfl
  | barrier => exact and_congr_left' List.length_pos_iff

/-- An instruction fits when it has the operands of its operation, no qubit twice, and all of them
in range. -/
theorem Instruction.fits_iff {qubits clbits : UInt32} {i : Instruction} :
    i.Fits qubits clbits ↔ i.operation.Takes i.qubits.length i.clbits.length ∧ i.qubits.Nodup ∧
      (∀ q ∈ i.qubits, q.index < qubits) ∧ ∀ b ∈ i.clbits, b.index < clbits := by
  have nodup : (i.qubits.map Qubit.index).Nodup ↔ i.qubits.Nodup := by
    refine List.nodup_map_iff fun q q' h => ?_
    cases q
    cases q'
    exact congrArg Qubit.mk h
  rw [takes_iff, ← nodup]
  constructor
  · intro h
    exact ⟨⟨h.qubits_counted, h.clbits_counted⟩, h.nodup, h.qubit_lt, h.clbit_lt⟩
  · rintro ⟨⟨hqubits, hclbits⟩, hnodup, hq, hc⟩
    exact ⟨hqubits, hclbits, hnodup, hq, hc⟩

theorem Instruction.counted_of_validate {i : Instruction} (h : i.validate = .ok ()) :
    i.QubitsCounted ∧ i.clbits.length = i.operation.clbitCount := by
  simp only [Instruction.validate] at h
  simp only [Instruction.QubitsCounted]
  cases hcount : i.operation.qubitCount? with
  | none =>
    by_cases hq : i.qubits = []
    · simp [hcount, hq, throw, throwThe, MonadExceptOf.throw] at h
    · refine ⟨hq, ?_⟩
      by_contra hc
      simp [hcount, hq, hc, throw, throwThe, MonadExceptOf.throw] at h
  | some expected =>
    by_cases hq : i.qubits.length = expected
    · refine ⟨hq, ?_⟩
      by_contra hc
      simp [hcount, hq, hc, throw, throwThe, MonadExceptOf.throw] at h
    · simp [hcount, hq, throw, throwThe, MonadExceptOf.throw] at h

/-- With the right numbers of operands, only a repeated qubit is left to be found. -/
theorem Instruction.validate_of_counted {i : Instruction} (hq : i.QubitsCounted)
    (hc : i.clbits.length = i.operation.clbitCount) :
    i.validate =
      match firstRepeated? (i.qubits.map Qubit.index) with
      | some index => .error (.duplicateQubit ⟨index⟩ i.name)
      | none => .ok () := by
  simp only [Instruction.QubitsCounted] at hq
  simp only [Instruction.validate]
  have clbits : ¬ i.clbits.length ≠ i.operation.clbitCount := by simpa using hc
  cases hcount : i.operation.qubitCount? with
  | none =>
    simp only [hcount] at hq
    have nonempty : ¬ i.qubits.isEmpty = true := by simpa using hq
    dsimp only
    rw [if_neg nonempty, if_neg clbits]
    rfl
  | some expected =>
    simp only [hcount] at hq
    have qubits : ¬ i.qubits.length ≠ expected := by simpa using hq
    dsimp only
    rw [if_neg qubits, if_neg clbits]
    rfl

theorem Instruction.validate_eq_ok {i : Instruction} :
    i.validate = .ok () ↔ i.QubitsCounted ∧ i.clbits.length = i.operation.clbitCount ∧
      (i.qubits.map Qubit.index).Nodup := by
  rw [← firstRepeated?_eq_none]
  constructor
  · intro h
    obtain ⟨hq, hc⟩ := counted_of_validate h
    refine ⟨hq, hc, ?_⟩
    rw [validate_of_counted hq hc] at h
    split at h
    · cases h
    · assumption
  · rintro ⟨hq, hc, hr⟩
    rw [validate_of_counted hq hc, hr]

namespace Circuit

theorem check_of_validate {qubits clbits : UInt32} {i : Instruction} (h : i.validate = .ok ())
    (hq : ∀ q ∈ i.qubits, q.index < qubits) (hc : ∀ c ∈ i.clbits, c.index < clbits) :
    check qubits clbits i = .ok () := by
  have noQubit : (i.qubits.find? fun q => qubits ≤ q.index) = none := by
    simpa [List.find?_eq_none] using hq
  have noClbit : (i.clbits.find? fun c => clbits ≤ c.index) = none := by
    simpa [List.find?_eq_none] using hc
  simp [check, h, noQubit, noClbit, pure, Except.pure]

/-- The checks accept exactly the instructions that fit. -/
theorem check_eq_ok {qubits clbits : UInt32} {i : Instruction} :
    check qubits clbits i = .ok () ↔ i.Fits qubits clbits := by
  constructor
  · intro h
    simp only [check] at h
    rw [bind_eq_ok] at h
    obtain ⟨⟨⟩, hv, h⟩ := h
    obtain ⟨hq, hc, hn⟩ := Instruction.validate_eq_ok.1 hv
    split at h
    · cases h
    · next noQubit =>
      split at h
      · cases h
      · next noClbit =>
        refine ⟨hq, hc, hn, ?_, ?_⟩
        · simpa [List.find?_eq_none] using noQubit
        · simpa [List.find?_eq_none] using noClbit
  · intro h
    exact check_of_validate
      (Instruction.validate_eq_ok.2 ⟨h.qubits_counted, h.clbits_counted, h.nodup⟩)
      h.qubit_lt h.clbit_lt

/-- Every instruction is one that `Circuit.apply` accepts. -/
def WellFormed (c : Circuit) : Prop :=
  ∀ i ∈ c.instructions, check c.qubitCount c.clbitCount i = .ok ()

theorem WellFormed.fits {c : Circuit} (wf : c.WellFormed) {i : Instruction}
    (h : i ∈ c.instructions) : i.Fits c.qubitCount c.clbitCount :=
  check_eq_ok.1 (wf i h)

theorem wellFormed_ofSize (qubits clbits : UInt32) : (ofSize qubits clbits).WellFormed := by
  intro i h
  cases h

theorem apply_eq_ok {c c' : Circuit} {i : Instruction} : c.apply i = .ok c' ↔
    check c.qubitCount c.clbitCount i = .ok () ∧
      ⟨c.qubitCount, c.clbitCount, c.instructions ++ [i]⟩ = c' := by
  cases hi : check c.qubitCount c.clbitCount i with
  | error e => grind
  | ok u => grind

/-- Applying instructions is how a well-formed circuit grows. -/
theorem WellFormed.apply {c c' : Circuit} {i : Instruction} (wf : c.WellFormed)
    (h : c.apply i = .ok c') : c'.WellFormed := by
  obtain ⟨hi, rfl⟩ := apply_eq_ok.1 h
  intro j hj
  rcases List.mem_append.1 hj with hj | hj
  · exact wf j hj
  · rw [List.mem_singleton.1 hj]
    exact hi

theorem foldlM_apply_eq_ok {c c' : Circuit} {instructions : List Instruction} :
    instructions.foldlM Circuit.apply c = .ok c' ↔
      (∀ i ∈ instructions, check c.qubitCount c.clbitCount i = .ok ()) ∧
        ⟨c.qubitCount, c.clbitCount, c.instructions ++ instructions⟩ = c' := by
  induction instructions generalizing c with
  | nil => simp [pure, Except.pure]
  | cons i rest ih =>
    rw [List.foldlM_cons, List.forall_mem_cons]
    simp only [bind_eq_ok, apply_eq_ok]
    constructor
    · rintro ⟨_, ⟨hi, rfl⟩, hrest⟩
      obtain ⟨hall, rfl⟩ := ih.1 hrest
      exact ⟨⟨hi, hall⟩, by simp⟩
    · rintro ⟨⟨hi, hall⟩, rfl⟩
      exact ⟨_, ⟨hi, rfl⟩, ih.2 ⟨hall, by simp⟩⟩

/-- **The well-formed circuits are those that are built by applying instructions.** -/
theorem wellFormed_iff_foldlM_apply {c : Circuit} : c.WellFormed ↔
    c.instructions.foldlM Circuit.apply (ofSize c.qubitCount c.clbitCount) = .ok c := by
  rw [foldlM_apply_eq_ok]
  exact (and_iff_left rfl).symm

end Circuit

/-! ## Gates -/

/-- The names of gates are their mnemonics. -/
theorem Signature.mnemonic_of_signature? {name : String} {s : Signature}
    (h : signature? name = some s) : s.mnemonic = name := by
  obtain ⟨s', -, heq⟩ := List.mem_map.1 (mem_of_lookup_eq_some h)
  cases heq
  rfl

/-- A gate is built from its kind and its angles, and from nothing else. -/
theorem BaseGate.build_eq_ok {kind : GateKind} {angles : List Angle} {base : BaseGate} :
    BaseGate.build kind angles = .ok base ↔ base.kind = kind ∧ base.angle?.toList = angles := by
  constructor
  · intro h
    simp only [BaseGate.build] at h
    split at h
    · next hkind =>
      cases h
      simp only [BaseGate.ofKind?] at hkind
      split at hkind <;> cases hkind <;> exact ⟨rfl, rfl⟩
    · cases h
  · rintro ⟨rfl, rfl⟩
    cases base <;> rfl

/-! ## Removing Y-basis gates -/

/-- A gate for a gate with the same controls keeps the operands fitting. -/
theorem Instruction.Fits.replace_base {qubits clbits : UInt32} {i : Instruction} {g : Gate}
    (h : i.Fits qubits clbits) (hg : i.operation = .gate g) (base : BaseGate) :
    (Instruction.gate ⟨base, g.controls⟩ i.qubits).Fits qubits clbits := by
  refine ⟨?_, rfl, h.nodup, h.qubit_lt, by simp [Instruction.gate]⟩
  have counted := h.qubits_counted
  simp only [Instruction.QubitsCounted, hg, Operation.qubitCount?] at counted
  exact counted

theorem Instruction.fits_of_mem_removeY {qubits clbits : UInt32} {i j : Instruction}
    (h : i.Fits qubits clbits) (hj : j ∈ i.removeY) : j.Fits qubits clbits := by
  simp only [Instruction.removeY] at hj
  split at hj
  · next g hg =>
    split at hj
    · obtain ⟨base, -, rfl⟩ := List.mem_map.1 hj
      exact h.replace_base hg base
    · rw [List.mem_singleton.1 hj]
      exact h
  · rw [List.mem_singleton.1 hj]
    exact h

/-- The gates that the pass replaces are those in the Y basis. -/
theorem BaseGate.isSome_yToX? (g : BaseGate) : g.yToX?.isSome = g.kind.isYBasis := by
  cases g with
  | fixed gate => cases gate <;> rfl
  | rotation axis angle => cases axis <;> rfl

theorem Instruction.removeY_eq_self {i : Instruction}
    (h : ∀ g, i.gate? = some g → g.base.kind.isYBasis = false) : i.removeY = [i] := by
  simp only [Instruction.removeY]
  split
  · next g hg =>
    have notY := h g (by simp [Instruction.gate?, hg, Operation.gate?])
    rw [← BaseGate.isSome_yToX?, Option.isSome_eq_false_iff, Option.isNone_iff_eq_none] at notY
    rw [notY]
  · rfl

namespace Circuit

@[simp] theorem qubitCount_withoutY (c : Circuit) : c.withoutY.qubitCount = c.qubitCount := by
  simp only [withoutY]
  split <;> rfl

@[simp] theorem clbitCount_withoutY (c : Circuit) : c.withoutY.clbitCount = c.clbitCount := by
  simp only [withoutY]
  split <;> rfl

/-- The instructions without Y-basis gates, instruction by instruction.  That the pass is left out
when there is no such gate makes no difference. -/
@[simp] theorem instructions_withoutY (c : Circuit) :
    c.withoutY.instructions = c.instructions.flatMap Instruction.removeY := by
  simp only [withoutY]
  split
  · rfl
  · next unneeded =>
    have alone : ∀ i ∈ c.instructions, i.removeY = [i] := by
      intro i hi
      apply Instruction.removeY_eq_self
      intro g hg
      by_contra isY
      have hmem : g ∈ c.gates := List.mem_filterMap.2 ⟨i, hi, hg⟩
      apply unneeded
      exact List.any_eq_true.2 ⟨g, hmem, by simpa using isY⟩
    rw [List.flatMap_congr alone, List.flatMap_singleton']

/-- Removing Y-basis gates keeps a circuit well formed. -/
theorem WellFormed.withoutY {c : Circuit} (wf : c.WellFormed) : c.withoutY.WellFormed := by
  intro j hj
  rw [instructions_withoutY, List.mem_flatMap] at hj
  obtain ⟨i, hi, hj⟩ := hj
  rw [qubitCount_withoutY, clbitCount_withoutY, check_eq_ok]
  exact Instruction.fits_of_mem_removeY (wf.fits hi) hj

end Circuit

end FlatQasm
