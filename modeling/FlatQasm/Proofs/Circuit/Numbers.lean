import FlatQasm.Circuit.Export
import FlatQasm.Proofs.Circuit.WellFormed

/-!
# Circuits whose angles are numbers

The text of a circuit shows the numbers that its angles have under the bindings, and nothing of the
angles themselves.  So it is the text of the circuit that has these numbers for angles, which needs
no bindings.

## Main definitions

* `Instruction.evaluate` — an instruction with the number that its angle has.
* `Instruction.Numeric`, `Circuit.Numeric` — every angle is a finite number.

## Main statements

* `Circuit.exists_numeric_of_exportText` — the circuit with the same text that needs no bindings.
* `Circuit.Numeric.exportText_eq_ok` — its text is its lines.
-/

namespace FlatQasm

/-- A base gate with the number that its angle has under bindings. -/
def BaseGate.evaluate (b : Bindings) : BaseGate → Except EvalError BaseGate
  | fixed gate => .ok (fixed gate)
  | rotation axis angle => (angle.evaluate b).map fun v => rotation axis (.const v)

namespace Instruction

/-- An instruction with the number that its angle has under bindings. -/
def evaluate (b : Bindings) (i : Instruction) : Except EvalError Instruction :=
  match i.operation with
  | .gate g =>
    (g.base.evaluate b).map fun base => { i with operation := .gate ⟨base, g.controls⟩ }
  | _ => .ok i

/-- The angle of an instruction is a finite number, if there is one. -/
def Numeric (i : Instruction) : Prop :=
  ∀ e, i.angle? = some e → ∃ v, e = .const v ∧ v.isFinite = true

/-- A number for the angle leaves the operands as they are, and as many as they need to be. -/
theorem fits_of_evaluate {b : Bindings} {i i' : Instruction} (h : i.evaluate b = .ok i')
    {qubits clbits : UInt32} (fits : i.Fits qubits clbits) : i'.Fits qubits clbits := by
  simp only [evaluate] at h
  split at h
  · next g hg =>
    obtain ⟨base, -, rfl⟩ := map_eq_ok.1 h
    have hqubits := fits.qubits_counted
    have hclbits := fits.clbits_counted
    simp only [QubitsCounted] at hqubits
    rw [hg] at hqubits hclbits
    exact ⟨hqubits, hclbits, fits.nodup, fits.qubit_lt, fits.clbit_lt⟩
  · cases h
    exact fits

@[simp] theorem evaluate_const (b : Bindings) (v : Float) :
    (Angle.const v).evaluate b = .ok v := rfl

/-- An instruction that has lines has a number for its angle, and the lines show that number. -/
theorem exists_numeric_of_lines {b : Bindings} {i : Instruction} {lines : List String}
    (h : i.lines b = .ok lines) :
    ∃ i', i.evaluate b = .ok i' ∧ i'.Numeric ∧ i'.lines ∅ = .ok lines := by
  obtain ⟨operation, qubits, clbits⟩ := i
  cases operation with
  | gate g =>
    obtain ⟨base, controls⟩ := g
    obtain ⟨argument, hargument, hlines⟩ := bind_eq_ok.1 h
    cases base with
    | fixed gate =>
      refine ⟨_, rfl, ?_, h⟩
      intro e he
      cases he
    | rotation axis angle =>
      obtain ⟨v, hv, hfinite⟩ := bind_eq_ok.1 hargument
      rw [mapError_eq_ok] at hv
      split at hfinite
      · next hvfinite =>
        refine ⟨⟨.gate ⟨.rotation axis (.const v), controls⟩, qubits, clbits⟩, ?_, ?_, ?_⟩
        · simp only [evaluate, BaseGate.evaluate, hv]
          rfl
        · rintro e ⟨⟩
          exact ⟨v, rfl, hvfinite⟩
        · have hnumber : (⟨.rotation axis (.const v), controls⟩ : Gate).argument ∅ =
              .ok argument := by
            rw [← hfinite]
            simp only [Gate.argument, BaseGate.angle?, evaluate_const, Except.mapError]
            rw [bind_eq_ok]
            exact ⟨v, rfl, if_pos hvfinite⟩
          exact bind_eq_ok.2 ⟨argument, hnumber, hlines⟩
      · cases hfinite
  | measure | reset | barrier =>
    refine ⟨_, rfl, ?_, h⟩
    intro e he
    cases he

end Instruction

namespace Circuit

/-- Every angle of a circuit is a finite number. -/
def Numeric (c : Circuit) : Prop := ∀ i ∈ c.instructions, i.Numeric

/-- A circuit that has lines has numbers for all angles, and the lines show these numbers. -/
theorem exists_numeric_of_lines {b : Bindings} {c : Circuit} (wf : c.WellFormed)
    {lines : List String} (h : c.lines b = .ok lines) :
    ∃ instructions, c.instructions.mapM (Instruction.evaluate b) = .ok instructions ∧
      WellFormed ⟨c.qubitCount, c.clbitCount, instructions⟩ ∧
      Numeric ⟨c.qubitCount, c.clbitCount, instructions⟩ ∧
      Circuit.lines ⟨c.qubitCount, c.clbitCount, instructions⟩ ∅ = .ok lines := by
  obtain ⟨body, hbody, hlines⟩ := bind_eq_ok.1 h
  rw [mapM_eq_ok] at hbody
  obtain ⟨instructions, hevaluate, hnumeric⟩ :=
    exists_forall₂_of_comp (hbody.imp fun i lines hi => Instruction.exists_numeric_of_lines hi)
  refine ⟨instructions, mapM_eq_ok.2 hevaluate, ?_, ?_, ?_⟩
  · intro i' hi'
    obtain ⟨i, hi, heval⟩ := exists_mem_of_forall₂ hevaluate hi'
    exact check_eq_ok.2 (Instruction.fits_of_evaluate heval (wf.fits hi))
  · intro i' hi'
    obtain ⟨lines, -, hi, -⟩ := exists_mem_of_forall₂ hnumeric.flip hi'
    exact hi
  · refine bind_eq_ok.2 ⟨body, mapM_eq_ok.2 (hnumeric.imp fun i lines hi => hi.2), hlines⟩

/-- Numbers have no free variables. -/
theorem Numeric.freeVariables_eq_nil {c : Circuit} (h : c.Numeric) : c.freeVariables = [] := by
  rw [List.eq_nil_iff_forall_not_mem]
  intro name hname
  rw [freeVariables, mem_sortNames, List.mem_flatMap] at hname
  obtain ⟨e, he, hname⟩ := hname
  obtain ⟨g, hg, hge⟩ := List.mem_filterMap.1 he
  obtain ⟨i, hi, hig⟩ := List.mem_filterMap.1 hg
  have hangle : i.angle? = some e := by rw [Instruction.angle?, hig, Option.bind_some, hge]
  obtain ⟨v, rfl, -⟩ := h i hi e hangle
  cases hname

/-- The text of a circuit whose angles are numbers is its lines. -/
theorem Numeric.exportText_eq_ok {c : Circuit} (h : c.Numeric) {text : String} :
    c.exportText ∅ false = .ok text ↔
      ∃ lines, c.lines ∅ = .ok lines ∧ String.join (lines.map (· ++ "\n")) = text := by
  have hcheck : (∅ : Bindings).check c.freeVariables = .ok () := by
    rw [h.freeVariables_eq_nil]
    rfl
  simp only [exportText]
  simp only [Bool.false_eq_true, if_false, hcheck, bind_eq_ok, mapError_eq_ok, Except.ok.injEq]
  constructor
  · rintro ⟨-, -, lines, hlines, htext⟩
    exact ⟨lines, hlines, htext⟩
  · rintro ⟨lines, hlines, htext⟩
    exact ⟨(), trivial, lines, hlines, htext⟩

/-- **The text of a circuit is the text of a circuit whose angles are numbers.**  They are the
numbers that the angles have under the bindings. -/
theorem exists_numeric_of_exportText {b : Bindings} {c : Circuit} (wf : c.WellFormed)
    {dropY : Bool} {text : String} (h : c.exportText b dropY = .ok text) :
    ∃ c' : Circuit, c'.qubitCount = c.qubitCount ∧ c'.clbitCount = c.clbitCount ∧
      (if dropY then c.withoutY else c).instructions.mapM (Instruction.evaluate b) =
        .ok c'.instructions ∧
      c'.WellFormed ∧ c'.Numeric ∧ c'.exportText ∅ false = .ok text := by
  generalize hsource : (if dropY then c.withoutY else c) = source at h ⊢
  have hqubits : source.qubitCount = c.qubitCount := by
    rw [← hsource]
    cases dropY <;> simp
  have hclbits : source.clbitCount = c.clbitCount := by
    rw [← hsource]
    cases dropY <;> simp
  have hwf : source.WellFormed := by
    rw [← hsource]
    cases dropY with
    | true => exact wf.withoutY
    | false => exact wf
  simp only [exportText] at h
  rw [hsource] at h
  obtain ⟨-, -, h⟩ := bind_eq_ok.1 h
  obtain ⟨lines, hlines, htext⟩ := bind_eq_ok.1 h
  obtain ⟨instructions, hevaluate, hwf', hnumeric, hlines'⟩ := exists_numeric_of_lines hwf hlines
  refine ⟨⟨source.qubitCount, source.clbitCount, instructions⟩, hqubits, hclbits, hevaluate, hwf',
    hnumeric, ?_⟩
  exact hnumeric.exportText_eq_ok.2 ⟨lines, hlines', Except.ok.inj htext⟩

end Circuit

end FlatQasm
