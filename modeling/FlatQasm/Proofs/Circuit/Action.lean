import FlatQasm.Gate.Matrix
import FlatQasm.Proofs.Circuit.WellFormed

/-!
# What circuits do, in a ring with an eighth root of unity

The state of `n` qubits gives each basis state an amplitude in a commutative ring.  A gate applies
the matrix of its base gate to its target where all controls are one.  The entries of the matrices
around the X and Y axes, and of the quarter turns around Z, have exact values in any ring with a
fourth root of minus one; every other gate is left open, and so are measurements, resets and
barriers.

## Main definitions

* `controlled` — a matrix on a target, where all controls are one.
* `Reading` — values for the entries of the matrices, and what is left open.
* `Reading.run` — what a list of instructions does.

## Main statements

* `controlled_controlled` — matrices on one target multiply, whatever the controls are.
* `Reading.run_removeY` — the replacement of a gate in the Y basis does what the gate does.
* `Reading.run_withoutY` — a circuit does the same without its Y-basis gates.
-/

namespace FlatQasm

/-- The amplitudes of the basis states of `n` qubits. -/
abbrev Amplitudes (R : Type*) (n : ℕ) := (Fin n → Fin 2) → R

/-! ## Controlled matrices -/

section Controlled

variable {R : Type*} [CommRing R] {n : ℕ}

/-- All controls are one in a basis state. -/
def AllOne (controls : List (Fin n)) (σ : Fin n → Fin 2) : Prop := ∀ q ∈ controls, σ q = 1

instance (controls : List (Fin n)) (σ : Fin n → Fin 2) : Decidable (AllOne controls σ) :=
  inferInstanceAs (Decidable (∀ q ∈ controls, σ q = 1))

/-- A matrix on the target qubit, on the basis states where all controls are one; the others are
left as they are. -/
def controlled (controls : List (Fin n)) (target : Fin n) (m : Matrix (Fin 2) (Fin 2) R) :
    Amplitudes R n →ₗ[R] Amplitudes R n where
  toFun ψ σ :=
    if AllOne controls σ then ∑ b, m (σ target) b * ψ (Function.update σ target b) else ψ σ
  map_add' ψ φ := by
    ext σ
    by_cases on : AllOne controls σ
    · simp only [if_pos on, Pi.add_apply, mul_add, Finset.sum_add_distrib]
    · simp only [if_neg on, Pi.add_apply]
  map_smul' r ψ := by
    ext σ
    by_cases on : AllOne controls σ
    · simp only [if_pos on, Pi.smul_apply, smul_eq_mul, Finset.mul_sum, mul_left_comm,
        RingHom.id_apply]
    · simp only [if_neg on, Pi.smul_apply, RingHom.id_apply]

variable {controls : List (Fin n)} {target : Fin n} {σ : Fin n → Fin 2}

theorem controlled_of_allOne (on : AllOne controls σ) (m : Matrix (Fin 2) (Fin 2) R)
    (ψ : Amplitudes R n) :
    controlled controls target m ψ σ =
      m (σ target) 0 * ψ (Function.update σ target 0) +
        m (σ target) 1 * ψ (Function.update σ target 1) := by
  simp [controlled, on]

theorem controlled_of_not_allOne (off : ¬ AllOne controls σ) (m : Matrix (Fin 2) (Fin 2) R)
    (ψ : Amplitudes R n) : controlled controls target m ψ σ = ψ σ := by
  simp [controlled, off]

/-- Changing the target leaves the controls as they are. -/
theorem AllOne.update (on : AllOne controls σ) (apart : target ∉ controls) (b : Fin 2) :
    AllOne controls (Function.update σ target b) := by
  intro q hq
  have ne : q ≠ target := fun e => apart (e ▸ hq)
  rw [Function.update_of_ne ne]
  exact on q hq

/-- Two matrices on one target, under the same controls, act as their product. -/
theorem controlled_controlled (apart : target ∉ controls) (m m' : Matrix (Fin 2) (Fin 2) R)
    (ψ : Amplitudes R n) :
    controlled controls target m (controlled controls target m' ψ) =
      controlled controls target (m * m') ψ := by
  ext σ
  by_cases on : AllOne controls σ
  · rw [controlled_of_allOne on, controlled_of_allOne on,
      controlled_of_allOne (on.update apart 0), controlled_of_allOne (on.update apart 1)]
    simp only [Function.update_self, Function.update_idem, Matrix.mul_apply, Fin.sum_univ_two]
    ring
  · rw [controlled_of_not_allOne on, controlled_of_not_allOne on, controlled_of_not_allOne on]

end Controlled

/-! ## Values for the entries -/

/-- Values for the entries of the matrices in a ring, and a meaning for all that has no exact
value: the instructions that are left open may do anything to the amplitudes of `n` qubits. -/
structure Reading (R : Type*) [CommRing R] (n : ℕ) where
  /-- The number on the unit circle at an eighth of a turn. -/
  eighth : R
  eighth_pow_four : eighth ^ 4 = -1
  /-- The cosine of half an angle. -/
  halfCos : Angle → R
  /-- The sine of half an angle. -/
  halfSin : Angle → R
  /-- What an instruction does whose gate has no exact value. -/
  rest : Instruction → Amplitudes R n → Amplitudes R n

namespace Reading

variable {R : Type*} [CommRing R] {n : ℕ} (ρ : Reading R n)

/-- The imaginary unit. -/
def imaginary : R := ρ.eighth ^ 2

/-- The inverse of the eighth of a turn. -/
def eighthInv : R := -ρ.eighth ^ 3

theorem eighth_mul_eighthInv : ρ.eighth * ρ.eighthInv = 1 := by
  simp only [eighthInv]
  linear_combination -ρ.eighth_pow_four

theorem eighthInv_sq : ρ.eighthInv ^ 2 = -ρ.imaginary := by
  simp only [eighthInv, imaginary]
  linear_combination ρ.eighth ^ 2 * ρ.eighth_pow_four

theorem imaginary_sq : ρ.imaginary ^ 2 = -1 := by
  simp only [imaginary]
  linear_combination ρ.eighth_pow_four

/-- The number on the unit circle at half an angle, or its conjugate.  It has an exact value for
the quarter turns in both directions. -/
def halfPhase? (conjugate : Bool) : Angle → Option R
  | .const v =>
    if v = quarterTurn then some (if conjugate then ρ.eighthInv else ρ.eighth)
    else if v = -quarterTurn then some (if conjugate then ρ.eighth else ρ.eighthInv)
    else none
  | _ => none

/-- The exact value of an entry. -/
def entry? : Entry → Option R
  | .zero => some 0
  | .one negative => some (if negative then -1 else 1)
  | .imaginary negative => some (if negative then -ρ.imaginary else ρ.imaginary)
  | .halfPhase conjugate angle => ρ.halfPhase? conjugate angle
  | .halfCos angle => some (ρ.halfCos angle)
  | .halfSin negative angle => some (if negative then -ρ.halfSin angle else ρ.halfSin angle)
  | .halfSinTurned angle => some (-ρ.imaginary * ρ.halfSin angle)
  | .invRootTwo _ | .eighth _ => none

/-- The matrix with given rows, if it is two by two and all entries have values. -/
def ofRows? : List (List Entry) → Option (Matrix (Fin 2) (Fin 2) R)
  | [[e₀₀, e₀₁], [e₁₀, e₁₁]] => do
    let a ← ρ.entry? e₀₀
    let b ← ρ.entry? e₀₁
    let c ← ρ.entry? e₁₀
    let d ← ρ.entry? e₁₁
    some !![a, b; c, d]
  | _ => none

end Reading

/-- Whether the meaning of a base gate is given by its matrix: the gates around the X and Y axes,
and rotations around Z, as far as their phases have exact values. -/
def BaseGate.isExact : BaseGate → Bool
  | .fixed .x | .fixed .y | .rotation _ _ => true
  | _ => false

/-- Controls and target among the operands of a gate, if there is one and all are below `n`. -/
def operands? (n : ℕ) (qubits : List Qubit) : Option (List (Fin n) × Fin n) :=
  if h : ∀ q ∈ qubits, q.index.toNat < n then
    let wires := qubits.pmap (fun q lt => ⟨q.index.toNat, lt⟩) h
    wires.getLast?.map fun target => (wires.dropLast, target)
  else none

/-- The operands of a gate that fits are controls and a target that is none of them. -/
theorem Instruction.Fits.operands {qubits clbits : UInt32} {i : Instruction} {g : Gate}
    (h : i.Fits qubits clbits) (hg : i.operation = .gate g) :
    ∃ controls target, operands? qubits.toNat i.qubits = some (controls, target) ∧
      target ∉ controls := by
  have inRange : ∀ q ∈ i.qubits, q.index.toNat < qubits.toNat := h.qubit_lt
  have counted := h.qubits_counted
  simp only [Instruction.QubitsCounted, hg, Operation.qubitCount?, Gate.qubitCount] at counted
  let wires : List (Fin qubits.toNat) :=
    i.qubits.pmap (fun q lt => ⟨q.index.toNat, lt⟩) inRange
  have nonempty : wires ≠ [] := by
    intro empty
    have : wires.length = i.qubits.length := List.length_pmap
    rw [empty, counted] at this
    simp at this
  have nodup : wires.Nodup := by
    refine (h.nodup.of_map _).pmap ?_
    intro q hq q' hq' e
    obtain ⟨index⟩ := q
    obtain ⟨index'⟩ := q'
    simpa [UInt32.toNat_inj] using e
  refine ⟨wires.dropLast, wires.getLast nonempty, ?_, ?_⟩
  · simp only [operands?, dif_pos inRange]
    rw [List.getLast?_eq_some_getLast nonempty]
    rfl
  · intro isControl
    rw [← List.dropLast_append_getLast nonempty, List.nodup_append] at nodup
    exact nodup.2.2 _ isControl _ (List.mem_singleton_self _) rfl

namespace Reading

variable {R : Type*} [CommRing R] {n : ℕ} (ρ : Reading R n)

/-- The exact matrix of a base gate. -/
def matrix? (g : BaseGate) : Option (Matrix (Fin 2) (Fin 2) R) :=
  if g.isExact then ρ.ofRows? g.matrix else none

/-- What an instruction does: a gate with an exact matrix applies it to its target where its
controls are one. -/
def act (i : Instruction) : Amplitudes R n → Amplitudes R n :=
  match i.operation with
  | .gate g =>
    match ρ.matrix? g.base, operands? n i.qubits with
    | some m, some (controls, target) => controlled controls target m
    | _, _ => ρ.rest i
  | _ => ρ.rest i

/-- What a list of instructions does, from the first to the last. -/
def run (instructions : List Instruction) (ψ : Amplitudes R n) : Amplitudes R n :=
  instructions.foldl (fun ψ i => ρ.act i ψ) ψ

@[simp] theorem run_nil (ψ : Amplitudes R n) : ρ.run [] ψ = ψ := rfl

@[simp] theorem run_cons (i : Instruction) (rest : List Instruction) (ψ : Amplitudes R n) :
    ρ.run (i :: rest) ψ = ρ.run rest (ρ.act i ψ) := rfl

theorem run_append (first second : List Instruction) (ψ : Amplitudes R n) :
    ρ.run (first ++ second) ψ = ρ.run second (ρ.run first ψ) := List.foldl_append

theorem act_gate {base : BaseGate} {k : Controls} {m : Matrix (Fin 2) (Fin 2) R}
    {qubits : List Qubit} {controls : List (Fin n)} {target : Fin n}
    (hm : ρ.matrix? base = some m) (hq : operands? n qubits = some (controls, target)) :
    ρ.act (.gate ⟨base, k⟩ qubits) = controlled controls target m := by
  simp [act, Instruction.gate, hm, hq]

/-! ## The matrices of the replacement -/

@[simp] theorem matrix?_x : ρ.matrix? (.fixed .x) = some !![0, 1; 1, 0] := rfl

@[simp] theorem matrix?_y : ρ.matrix? (.fixed .y) = some !![0, -ρ.imaginary; ρ.imaginary, 0] := rfl

@[simp] theorem matrix?_rx (angle : Angle) :
    ρ.matrix? (.rotation .x angle) =
      some !![ρ.halfCos angle, -ρ.imaginary * ρ.halfSin angle;
        -ρ.imaginary * ρ.halfSin angle, ρ.halfCos angle] := rfl

@[simp] theorem matrix?_ry (angle : Angle) :
    ρ.matrix? (.rotation .y angle) =
      some !![ρ.halfCos angle, -ρ.halfSin angle; ρ.halfSin angle, ρ.halfCos angle] := rfl

theorem matrix?_quarterTurn :
    ρ.matrix? (.rotation .z (.const quarterTurn)) =
      some !![ρ.eighthInv, 0; 0, ρ.eighth] := by
  simp [matrix?, BaseGate.isExact, BaseGate.matrix, ofRows?, entry?, halfPhase?]

theorem matrix?_neg_quarterTurn :
    ρ.matrix? (.rotation .z (.const (-quarterTurn))) =
      some !![ρ.eighth, 0; 0, ρ.eighthInv] := by
  have ne : -quarterTurn ≠ quarterTurn := by decide
  simp [matrix?, BaseGate.isExact, BaseGate.matrix, ofRows?, entry?, halfPhase?, ne]

/-- The quarter turns around a matrix leave its diagonal and turn the other two entries, in
opposite directions. -/
theorem quarterTurns_mul (a b c d : R) :
    !![ρ.eighthInv, 0; 0, ρ.eighth] * !![a, b; c, d] * !![ρ.eighth, 0; 0, ρ.eighthInv] =
      !![a, -ρ.imaginary * b; ρ.imaginary * c, d] := by
  have inverse := ρ.eighth_mul_eighthInv
  have square := ρ.eighthInv_sq
  have imaginary : ρ.eighth ^ 2 = ρ.imaginary := rfl
  have h₀₀ : ρ.eighthInv * a * ρ.eighth = a := by linear_combination a * inverse
  have h₀₁ : ρ.eighthInv * b * ρ.eighthInv = -ρ.imaginary * b := by
    linear_combination b * square
  have h₁₀ : ρ.eighth * c * ρ.eighth = ρ.imaginary * c := by linear_combination c * imaginary
  have h₁₁ : ρ.eighth * d * ρ.eighthInv = d := by linear_combination d * inverse
  simp only [Matrix.mul_fin_two, mul_zero, zero_mul, add_zero, zero_add, h₀₀, h₀₁, h₁₀, h₁₁]

/-- Between the quarter turns, the matrix of the X-basis gate becomes that of the Y-basis gate. -/
theorem exists_matrix_yToX {base middle : BaseGate} (h : base.yToX? = some middle) :
    ∃ m m', ρ.matrix? base = some m ∧ ρ.matrix? middle = some m' ∧
      !![ρ.eighthInv, 0; 0, ρ.eighth] * m' * !![ρ.eighth, 0; 0, ρ.eighthInv] = m := by
  simp only [BaseGate.yToX?] at h
  split at h
  · cases h
    refine ⟨_, _, ρ.matrix?_y, ρ.matrix?_x, ?_⟩
    rw [quarterTurns_mul, mul_one, mul_one]
  · next angle =>
    cases h
    refine ⟨_, _, ρ.matrix?_ry angle, ρ.matrix?_rx angle, ?_⟩
    have upper : -ρ.imaginary * (-ρ.imaginary * ρ.halfSin angle) = -ρ.halfSin angle := by
      linear_combination ρ.halfSin angle * ρ.imaginary_sq
    have lower : ρ.imaginary * (-ρ.imaginary * ρ.halfSin angle) = ρ.halfSin angle := by
      linear_combination -ρ.halfSin angle * ρ.imaginary_sq
    rw [quarterTurns_mul, upper, lower]
  · cases h

/-- **The replacement of an instruction does what the instruction does.** -/
theorem run_removeY {qubits clbits : UInt32} (ρ : Reading R qubits.toNat) {i : Instruction}
    (fits : i.Fits qubits clbits) (ψ : Amplitudes R qubits.toNat) :
    ρ.run i.removeY ψ = ρ.act i ψ := by
  simp only [Instruction.removeY]
  split
  · next g hg =>
    split
    · next middle hmiddle =>
      obtain ⟨m, m', hm, hm', product⟩ := ρ.exists_matrix_yToX hmiddle
      obtain ⟨controls, target, hq, apart⟩ := fits.operands hg
      have original : ρ.act i ψ = controlled controls target m ψ := by
        simp only [act, hg, hm, hq]
      simp only [List.map_cons, List.map_nil, run_cons, run_nil]
      rw [ρ.act_gate ρ.matrix?_neg_quarterTurn hq, ρ.act_gate hm' hq,
        ρ.act_gate ρ.matrix?_quarterTurn hq, controlled_controlled apart,
        controlled_controlled apart, product, original]
    · rfl
  · rfl

/-- A circuit whose instructions all fit does the same when each of them is replaced. -/
theorem run_flatMap_removeY {qubits clbits : UInt32} (ρ : Reading R qubits.toNat)
    {instructions : List Instruction} (fits : ∀ i ∈ instructions, i.Fits qubits clbits)
    (ψ : Amplitudes R qubits.toNat) :
    ρ.run (instructions.flatMap Instruction.removeY) ψ = ρ.run instructions ψ := by
  induction instructions generalizing ψ with
  | nil => rfl
  | cons i rest ih =>
    rw [List.flatMap_cons, run_append, run_removeY ρ (fits i List.mem_cons_self), run_cons]
    exact ih (fun j hj => fits j (List.mem_cons_of_mem i hj)) _

/-- **Removing Y-basis gates keeps what a circuit does.**  Whatever the amplitudes are, and
whatever the instructions that are left open do, a well-formed circuit and the circuit without
its Y-basis gates have the same qubits and do the same to them. -/
theorem run_withoutY (c : Circuit) (wf : c.WellFormed) (ρ : Reading R c.qubitCount.toNat) :
    c.withoutY.qubitCount = c.qubitCount ∧
      ρ.run c.withoutY.instructions = ρ.run c.instructions := by
  refine ⟨c.qubitCount_withoutY, ?_⟩
  ext ψ : 1
  rw [Circuit.instructions_withoutY]
  exact run_flatMap_removeY ρ (fun i hi => wf.fits hi) ψ

/-- Doubly and singly controlled gates in the Y basis, among gates that are left open. -/
def controlledRotations : Circuit where
  qubitCount := 3
  clbitCount := 1
  instructions :=
    [.gate ⟨.fixed .h, .zero⟩ [⟨0⟩], .gate ⟨.rotation .y (.var "t"), .two⟩ [⟨2⟩, ⟨0⟩, ⟨1⟩],
      .gate ⟨.fixed .y, .one⟩ [⟨1⟩, ⟨2⟩], .measure ⟨1⟩ ⟨0⟩]

/-- The integers modulo 17, where the fourth power of two is minus one. -/
def moduloSeventeen : Reading (ZMod 17) 3 where
  eighth := 2
  eighth_pow_four := by decide
  halfCos _ := 3
  halfSin _ := 5
  rest i ψ σ := if i.isMeasure then 0 else 7 * ψ σ

theorem run_withoutY_controlledRotations :
    controlledRotations.WellFormed ∧
      controlledRotations.withoutY.qubitCount = controlledRotations.qubitCount ∧
      moduloSeventeen.run controlledRotations.withoutY.instructions =
        moduloSeventeen.run controlledRotations.instructions := by
  have wf : controlledRotations.WellFormed := by
    simp only [Circuit.WellFormed, controlledRotations, List.forall_mem_cons]
    refine ⟨?_, ?_, ?_, ?_, ?_⟩
    all_goals decide
  exact ⟨wf, run_withoutY controlledRotations wf moduloSeventeen⟩

end Reading

end FlatQasm
