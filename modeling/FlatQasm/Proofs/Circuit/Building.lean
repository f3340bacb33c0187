import FlatQasm.Proofs.Circuit.WellFormed

/-!
# Building circuits in place

The functions that build circuits give a new circuit or an error.  Here they are calls that change
a circuit in place, step by step: a call has an outcome, and it leaves a circuit also when it fails.
One of them, the measurement of all qubits, adds classical bits before its first measurement, so a
failure behind that would be seen in the circuit.  None occurs, and the calls do what the functions
say.

A method for a single gate is the call `BuildCall.gate` with that gate and its qubits.

## Main definitions

* `BuildCall` — the calls of the building interface.
* `BuildCall.act` — what a call answers, and the circuit that it leaves.
* `Circuit.Built` — the circuits that any calls, in any order, lead to.

## Main statements

* `BuildCall.act_eq` — a call does what the function says, and a failed one changes nothing.
* `Circuit.Built.wellFormed` — every circuit that can be built is well formed.
* `Circuit.building_sound` — the two with what `apply` accepts and what measuring all qubits does.
-/

namespace FlatQasm

/-! ## Instructions that fit -/

theorem Instruction.fits_measure {qubits clbits : UInt32} {q : Qubit} {b : Clbit}
    (hq : q.index < qubits) (hb : b.index < clbits) : (measure q b).Fits qubits clbits where
  qubits_counted := rfl
  clbits_counted := rfl
  nodup := List.nodup_singleton q.index
  qubit_lt := List.forall_mem_singleton.2 hq
  clbit_lt := List.forall_mem_singleton.2 hb

theorem Instruction.Fits.mono {qubits clbits clbits' : UInt32} {i : Instruction}
    (h : i.Fits qubits clbits) (hle : clbits ≤ clbits') : i.Fits qubits clbits' :=
  { h with clbit_lt := fun b hb => UInt32.lt_of_lt_of_le (h.clbit_lt b hb) hle }

/-! ## Calls -/

/-- A computation that changes a circuit in place and may fail.  The circuit is there behind a
failure too. -/
abbrev Building := ExceptT CircuitError (StateM Circuit)

namespace Building

/-- An instruction put at the end, if it fits. -/
def apply (i : Instruction) : Building Unit := do
  let c ← get
  match Circuit.check c.qubitCount c.clbitCount i with
  | .error e => throw e
  | .ok () => set { c with instructions := c.instructions ++ [i] }

/-- The measurement of every qubit: first classical bits are added, and then the measurements are
applied one after another. -/
def measureAll : Building Unit := do
  modify fun c => { c with clbitCount := max c.clbitCount c.qubitCount }
  let c ← get
  forM (Circuit.firstQubits c.qubitCount.toNat) fun q => apply (.measure q ⟨q.index⟩)

/-- A barrier across all qubits. -/
def barrierAll : Building Unit := do
  let c ← get
  apply (.barrier (Circuit.firstQubits c.qubitCount.toNat))

end Building

/-- A call of the building interface.  Every method for a single gate is `gate` with that gate. -/
inductive BuildCall where
  | apply (i : Instruction)
  | gate (g : Gate) (qubits : List Qubit)
  | measure (qubit : Qubit) (clbit : Clbit)
  | measureAll
  | reset (qubit : Qubit)
  | barrier (qubits : List Qubit)
  | barrierAll

namespace BuildCall

/-- What a call does to a circuit in place. -/
def act : BuildCall → Building Unit
  | apply i => .apply i
  | gate g qubits => .apply (.gate g qubits)
  | measure qubit clbit => .apply (.measure qubit clbit)
  | measureAll => .measureAll
  | reset qubit => .apply (.reset qubit)
  | barrier qubits => .apply (.barrier qubits)
  | barrierAll => .barrierAll

/-- The circuit that a call gives, as a function of the circuit before. -/
def result (c : Circuit) : BuildCall → Except CircuitError Circuit
  | apply i => c.apply i
  | gate g qubits => c.gate g qubits
  | measure qubit clbit => c.measure qubit clbit
  | measureAll => .ok c.measureAll
  | reset qubit => c.reset qubit
  | barrier qubits => c.barrier qubits
  | barrierAll => c.barrierAll

end BuildCall

/-- What is seen of a result in place: its circuit or, behind a failure, the circuit before. -/
def Circuit.outcome (c : Circuit) : Except CircuitError Circuit → Except CircuitError Unit × Circuit
  | .ok c' => (.ok (), c')
  | .error e => (.error e, c)

@[simp] theorem Circuit.outcome_ok (c c' : Circuit) : c.outcome (.ok c') = (.ok (), c') := rfl

@[simp] theorem Circuit.outcome_error (c : Circuit) (e : CircuitError) :
    c.outcome (.error e) = (.error e, c) := rfl

/-- Measuring all qubits only adds classical bits, and adds enough. -/
theorem Circuit.clbitCount_measureAll (c : Circuit) :
    c.clbitCount ≤ c.measureAll.clbitCount ∧ c.qubitCount ≤ c.measureAll.clbitCount := by
  change c.clbitCount ≤ (if c.clbitCount ≤ c.qubitCount then c.qubitCount else c.clbitCount) ∧
    c.qubitCount ≤ if c.clbitCount ≤ c.qubitCount then c.qubitCount else c.clbitCount
  split
  · next hle => exact ⟨hle, UInt32.le_refl _⟩
  · next hlt => exact ⟨UInt32.le_refl _, UInt32.le_of_lt (UInt32.not_le.1 hlt)⟩

namespace Building

variable {c : Circuit}

theorem apply_eq (i : Instruction) : apply i c = c.outcome (c.apply i) := by
  change (match Circuit.check c.qubitCount c.clbitCount i with
    | .error e => throw e
    | .ok () => set { c with instructions := c.instructions ++ [i] } : Building Unit) c = _
  cases h : Circuit.check c.qubitCount c.clbitCount i with
  | error e =>
    rw [Circuit.apply_of_error h]
    rfl
  | ok u =>
    rw [Circuit.apply_of_ok h]
    rfl

/-- Behind a computation that gave a value, the next one goes on with its circuit. -/
theorem bind_of_ok {α β : Type} {x : Building α} {a : α} {c' : Circuit} (h : x c = (.ok a, c'))
    (next : α → Building β) : (x >>= next) c = next a c' := by
  change ExceptT.bindCont next (x c).1 (x c).2 = _
  rw [h]
  rfl

/-- Behind an instruction that fits, a computation goes on with it at the end of the circuit. -/
theorem apply_bind {i : Instruction} (h : i.Fits c.qubitCount c.clbitCount)
    (next : Unit → Building Unit) :
    (apply i >>= next) c =
      next () ⟨c.qubitCount, c.clbitCount, c.instructions ++ [i]⟩ := by
  refine bind_of_ok ?_ next
  rw [apply_eq, Circuit.apply_of_ok (Circuit.check_eq_ok.2 h), Circuit.outcome_ok]

/-- Measurements in range are applied one after another, and none of them fails. -/
theorem forM_measure {qubits : List Qubit}
    (h : ∀ q ∈ qubits, q.index < c.qubitCount ∧ q.index < c.clbitCount) :
    (forM qubits fun q => apply (.measure q ⟨q.index⟩)) c =
      (.ok (), ⟨c.qubitCount, c.clbitCount,
        c.instructions ++ qubits.map fun q => .measure q ⟨q.index⟩⟩) := by
  induction qubits generalizing c with
  | nil =>
    rw [List.map_nil, List.append_nil]
    rfl
  | cons q rest ih =>
    rw [List.forall_mem_cons] at h
    obtain ⟨⟨hqubit, hclbit⟩, hrest⟩ := h
    let behind : Circuit :=
      ⟨c.qubitCount, c.clbitCount, c.instructions ++ [.measure q ⟨q.index⟩]⟩
    have hbehind := ih (c := behind) hrest
    rw [List.forM_cons, apply_bind (Instruction.fits_measure hqubit hclbit), hbehind,
      List.append_assoc, List.map_cons, List.singleton_append]

/-- The qubits of a circuit are in range. -/
theorem index_lt_of_mem_firstQubits {count : UInt32} {q : Qubit}
    (h : q ∈ Circuit.firstQubits count.toNat) : q.index < count := by
  obtain ⟨i, hi, rfl⟩ := List.mem_map.1 h
  rw [List.mem_range] at hi
  have small : i < UInt32.size := Nat.lt_trans hi count.toNat_lt
  rw [UInt32.lt_iff_toNat_lt, Nat.toUInt32_eq, UInt32.toNat_ofNat_of_lt' small]
  exact hi

theorem measureAll_eq : measureAll c = (.ok (), c.measureAll) := by
  refine forM_measure (c := ⟨c.qubitCount, max c.clbitCount c.qubitCount, c.instructions⟩) ?_
  intro q hq
  have hlt := index_lt_of_mem_firstQubits hq
  exact ⟨hlt, UInt32.lt_of_lt_of_le hlt c.clbitCount_measureAll.2⟩

end Building

/-- **A call does what the function says, and a failed one leaves the circuit as it is.** -/
theorem BuildCall.act_eq (call : BuildCall) (c : Circuit) :
    call.act c = c.outcome (call.result c) := by
  cases call with
  | measureAll => exact Building.measureAll_eq
  | barrierAll => exact Building.apply_eq _
  | _ => exact Building.apply_eq _

/-! ## Circuits that can be built -/

namespace Circuit

/-- The circuits that can be built: from an empty circuit of any size or the Bell circuit, by any
calls, failed ones among them, and by removing Y-basis gates. -/
inductive Built : Circuit → Prop
  | empty : Built ∅
  | ofSize (qubits clbits : UInt32) : Built (ofSize qubits clbits)
  | bell : Built bell
  | call {c : Circuit} (call : BuildCall) : Built c → Built (call.act c).2
  | withoutY {c : Circuit} : Built c → Built c.withoutY

/-- The Bell circuit is what four gates and measurements make of two qubits and two bits. -/
theorem foldlM_apply_bell : bell.instructions.foldlM apply (ofSize 2 2) = .ok bell :=
  rfl

/-- More classical bits do not harm the instructions that are there. -/
theorem WellFormed.measureAll {c : Circuit} (wf : c.WellFormed) : c.measureAll.WellFormed := by
  intro i hi
  rw [check_eq_ok]
  rcases List.mem_append.1 hi with hi | hi
  · exact (wf.fits hi).mono c.clbitCount_measureAll.1
  · obtain ⟨q, hq, rfl⟩ := List.mem_map.1 hi
    have hlt := Building.index_lt_of_mem_firstQubits hq
    exact Instruction.fits_measure hlt (UInt32.lt_of_lt_of_le hlt c.clbitCount_measureAll.2)

/-- What one call keeps. -/
theorem WellFormed.act {c : Circuit} (wf : c.WellFormed) (call : BuildCall) :
    (call.act c).2.WellFormed := by
  have kept {x : Except CircuitError Circuit} (h : ∀ c', x = .ok c' → c'.WellFormed) :
      (c.outcome x).2.WellFormed := by
    cases x with
    | error e => exact wf
    | ok c' => exact h c' rfl
  rw [BuildCall.act_eq]
  refine kept fun c' hc' => ?_
  cases call with
  | measureAll =>
    cases hc'
    exact wf.measureAll
  | _ => exact wf.apply hc'

/-- Every circuit that can be built is well formed. -/
theorem Built.wellFormed {c : Circuit} (h : c.Built) : c.WellFormed := by
  induction h with
  | empty => exact wellFormed_ofSize 0 0
  | ofSize qubits clbits => exact wellFormed_ofSize qubits clbits
  | bell => exact wellFormed_iff_foldlM_apply.2 foldlM_apply_bell
  | call call _ ih => exact ih.act call
  | withoutY _ ih => exact ih.withoutY

/-- **Circuits are built soundly.**  The instructions of a circuit that can be built suit their
operations and are in range.  An instruction is accepted exactly when it has the operands of its
operation, no qubit twice, and all of them in range; then it stands at the end.  A call in place
gives what the function gives, and leaves the circuit as it is when it fails.  Measuring all qubits
never fails: it adds the classical bits that are missing, and then measures each qubit into the bit
of the same index, in ascending order. -/
theorem building_sound :
    (∀ c : Circuit, c.Built → ∀ i ∈ c.instructions, i.validate = .ok () ∧
      (∀ q ∈ i.qubits, q.index < c.qubitCount) ∧ ∀ b ∈ i.clbits, b.index < c.clbitCount) ∧
    (∀ (c c' : Circuit) (i : Instruction), c.apply i = .ok c' ↔
      (i.operation.Takes i.qubits.length i.clbits.length ∧ i.qubits.Nodup ∧
        (∀ q ∈ i.qubits, q.index < c.qubitCount) ∧ ∀ b ∈ i.clbits, b.index < c.clbitCount) ∧
      c' = ⟨c.qubitCount, c.clbitCount, c.instructions ++ [i]⟩) ∧
    (∀ (c : Circuit) (call : BuildCall),
      (∃ c', call.result c = .ok c' ∧ call.act c = (.ok (), c')) ∨
        ∃ e, call.result c = .error e ∧ call.act c = (.error e, c)) ∧
    ∀ c : Circuit, BuildCall.measureAll.act c = (.ok (),
      { qubitCount := c.qubitCount
        clbitCount := max c.clbitCount c.qubitCount
        instructions := c.instructions ++ (List.range c.qubitCount.toNat).map fun i =>
          .measure ⟨i.toUInt32⟩ ⟨i.toUInt32⟩ }) := by
  refine ⟨fun c built i hi => ?_, fun c c' i => ?_, fun c call => ?_, fun c => ?_⟩
  · have fits := built.wellFormed.fits hi
    have valid : i.validate = .ok () :=
      Instruction.validate_eq_ok.2 ⟨fits.qubits_counted, fits.clbits_counted, fits.nodup⟩
    exact ⟨valid, fits.qubit_lt, fits.clbit_lt⟩
  · rw [apply_eq_ok, check_eq_ok, Instruction.fits_iff, eq_comm (a := c')]
  · rw [BuildCall.act_eq]
    cases call.result c with
    | ok c' => exact .inl ⟨c', rfl, rfl⟩
    | error e => exact .inr ⟨e, rfl, rfl⟩
  · rw [BuildCall.act_eq, BuildCall.result, outcome, measureAll, firstQubits, List.map_map]
    rfl

/-- Two qubits and one bit, measured behind a call that repeats a qubit and so fails. -/
def measuredAnyway : Circuit :=
  (BuildCall.measureAll.act ((BuildCall.gate ⟨.fixed .x, .one⟩ [⟨1⟩, ⟨1⟩]).act (ofSize 2 1)).2).2

theorem building_sound_measuredAnyway :
    measuredAnyway.Built ∧ measuredAnyway = ⟨2, 2, [.measure ⟨0⟩ ⟨0⟩, .measure ⟨1⟩ ⟨1⟩]⟩ ∧
      ∀ i ∈ measuredAnyway.instructions, i.validate = .ok () ∧
        (∀ q ∈ i.qubits, q.index < measuredAnyway.qubitCount) ∧
        ∀ b ∈ i.clbits, b.index < measuredAnyway.clbitCount := by
  have built : measuredAnyway.Built := .call _ (.call _ (.ofSize 2 1))
  exact ⟨built, rfl, building_sound.1 _ built⟩

end Circuit

end FlatQasm
