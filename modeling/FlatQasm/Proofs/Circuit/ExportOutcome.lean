import FlatQasm.File
import FlatQasm.Proofs.Angle.Evaluate
import FlatQasm.Proofs.Circuit.WellFormed

/-!
# What comes of an export

An export fails for a variable without a value, before it looks at anything else; otherwise for the
first instruction whose angle has no finite number; and otherwise it gives a text.  Nothing is
written unless there is a text, and then that text is written once.

Removing the gates in the Y basis changes none of this.  The gates that are put around a replaced
gate have numbers for angles, and the gate in the middle has the angle of the gate that it replaces.
So only the mnemonic in a report can differ.

## Main definitions

* `Circuit.Unbound` — a variable of a circuit without a value.
* `Instruction.Faulty` — an instruction whose angle has no finite number.
* `Gate.Fault` — what is reported of such an angle.
* `Storage.recorder` — a storage that keeps what it is asked to write.

## Main statements

* `Circuit.exportText_of_unbound`, `Circuit.exportText_of_faulty`, `Circuit.exportText_of_sound` —
  the three cases.
* `Storage.exportCircuit_outcome` — the cases with what is written.
-/

namespace FlatQasm

variable {b : Bindings} {dropY : Bool}

/-! ## Gates -/

namespace Angle

/-- The angle has no finite number: some divisor is zero, or the number is infinite or not one. -/
def Unfit (b : Bindings) (e : Angle) : Prop :=
  e.DividesByZero b ∨ ∃ v, e.compute b = .ok v ∧ v.isFinite = false

end Angle

namespace Gate

/-- What is reported of a gate whose angle has no finite number. -/
inductive Fault (b : Bindings) (g : Gate) : ExportError → Prop
  | divisionByZero {e q : Angle} : g.base.angle? = some e →
      e.compute b = .error (.divisionByZero q) → g.Fault b (.divisionByZero q)
  | nonFinite {e : Angle} {v : Float} : g.base.angle? = some e → e.compute b = .ok v →
      v.isFinite = false → g.Fault b (.nonFiniteAngle g.mnemonic v)

/-- The gate in whose line the angle of a gate is written: the gate itself or, where gates in the Y
basis are removed, the one that replaces it. -/
def written (g : Gate) (dropY : Bool) : Gate :=
  if dropY then ⟨g.base.yToX?.getD g.base, g.controls⟩ else g

theorem angle?_yToX? {base middle : BaseGate} (h : base.yToX? = some middle) :
    middle.angle? = base.angle? := by
  cases base with
  | fixed gate =>
    cases gate <;> cases h
    rfl
  | rotation axis angle =>
    cases axis <;> cases h
    rfl

@[simp] theorem angle?_written (g : Gate) (dropY : Bool) :
    (g.written dropY).base.angle? = g.base.angle? := by
  cases dropY with
  | false => rfl
  | true =>
    cases h : g.base.yToX? with
    | none => simp [written, h]
    | some middle => simpa [written, h] using angle?_yToX? h

variable {g : Gate}

theorem argument_of_fit (h : ∀ e, g.base.angle? = some e → e.Bound b ∧ ¬ e.Unfit b) :
    ∃ argument, g.argument b = .ok argument := by
  rw [argument]
  split
  · exact ⟨_, rfl⟩
  · next e he =>
    obtain ⟨bound, fit⟩ := h e he
    rw [Angle.evaluate_of_bound bound]
    cases Angle.compute_of_bound bound with
    | divisionByZero _ hzero => exact absurd (.inl hzero) fit
    | @number v hv _ =>
      have finite : v.isFinite = true := by
        by_contra hv'
        exact fit (.inr ⟨v, hv, by simpa using hv'⟩)
      refine ⟨"(" ++ Decimal.Layout.source.text v ++ ")", ?_⟩
      rw [hv]
      exact if_pos finite

theorem argument_of_unfit {e : Angle} (he : g.base.angle? = some e) (bound : e.Bound b)
    (unfit : e.Unfit b) : ∃ cause, g.Fault b cause ∧ g.argument b = .error cause := by
  simp only [argument, he]
  rw [Angle.evaluate_of_bound bound]
  cases Angle.compute_of_bound bound with
  | @divisionByZero q hq _ =>
    refine ⟨.divisionByZero q, .divisionByZero he hq, ?_⟩
    rw [hq]
    rfl
  | @number v hv safe =>
    obtain hzero | ⟨v', hv', infinite⟩ := unfit
    · exact absurd hzero safe
    · obtain rfl : v = v' := Except.ok.inj (hv.symm.trans hv')
      refine ⟨.nonFiniteAngle g.mnemonic v, .nonFinite he hv infinite, ?_⟩
      rw [hv]
      exact if_neg (by simp [infinite])

end Gate

/-! ## Instructions -/

namespace Instruction

/-- The angle of an instruction has no finite number. -/
def Faulty (b : Bindings) (i : Instruction) : Prop := ∃ e, i.angle? = some e ∧ e.Unfit b

/-- Every variable in an instruction has a value. -/
def Bound (b : Bindings) (i : Instruction) : Prop := ∀ e, i.angle? = some e → e.Bound b

/-- What is exported for an instruction: itself or, where gates in the Y basis are removed, what it
becomes. -/
def exported (i : Instruction) (dropY : Bool) : List Instruction :=
  if dropY then i.removeY else [i]

/-- The lines of what is exported for an instruction. -/
def exportedLines (b : Bindings) (dropY : Bool) (i : Instruction) :
    Except ExportError (List (List String)) :=
  (i.exported dropY).mapM fun j => j.lines b

/-- What is exported for a gate: the gate that is written for it, among gates with finite numbers
for angles. -/
theorem exported_gate (g : Gate) (qubits : List Qubit) (clbits : List Clbit) (dropY : Bool) :
    ∃ before i after, exported ⟨.gate g, qubits, clbits⟩ dropY = before ++ i :: after ∧
      i.operation = .gate (g.written dropY) ∧
      ∀ j ∈ before ++ after, ∃ v : Float, j.angle? = some (.const v) ∧ v.isFinite = true := by
  cases dropY with
  | false => exact ⟨[], _, [], rfl, rfl, List.forall_mem_nil _⟩
  | true =>
    cases h : g.base.yToX? with
    | none =>
      refine ⟨[], ⟨.gate g, qubits, clbits⟩, [], ?_, ?_, List.forall_mem_nil _⟩
      · simp [exported, removeY, h]
      · simp [Gate.written, h]
    | some middle =>
      let turn (v : Float) : Instruction := .gate ⟨.rotation .z (.const v), g.controls⟩ qubits
      refine ⟨[turn (-quarterTurn)], .gate ⟨middle, g.controls⟩ qubits, [turn quarterTurn],
        ?_, ?_, ?_⟩
      · simp [exported, removeY, h, turn]
      · simp [Instruction.gate, Gate.written, h]
      · intro j hj
        rw [List.singleton_append, List.mem_cons, List.mem_singleton] at hj
        obtain rfl | rfl := hj
        · exact ⟨-quarterTurn, rfl, by decide⟩
        · exact ⟨quarterTurn, rfl, by decide⟩

variable {i : Instruction}

theorem angle?_eq_some {e : Angle} :
    i.angle? = some e ↔ ∃ g, i.operation = .gate g ∧ g.base.angle? = some e := by
  obtain ⟨operation, qubits, clbits⟩ := i
  cases operation <;> simp [angle?, gate?, Operation.gate?]

theorem lines_of_fit (bound : i.Bound b) (fit : ¬ i.Faulty b) :
    ∃ lines, i.lines b = .ok lines := by
  obtain ⟨operation, qubits, clbits⟩ := i
  cases operation with
  | gate g =>
    obtain ⟨argument, hargument⟩ : ∃ argument, g.argument b = .ok argument :=
      Gate.argument_of_fit fun e he => ⟨bound e he, fun unfit => fit ⟨e, he, unfit⟩⟩
    refine ⟨_, bind_eq_ok.2 ⟨argument, hargument, rfl⟩⟩
  | measure | reset | barrier => exact ⟨_, rfl⟩

/-- A finite number as an angle is no fault. -/
theorem lines_of_const {v : Float} (h : i.angle? = some (.const v)) (finite : v.isFinite = true) :
    ∃ lines, i.lines b = .ok lines := by
  refine lines_of_fit (fun e he => ?_) ?_
  · cases h.symm.trans he
    exact List.forall_mem_nil _
  · rintro ⟨e, he, hzero | ⟨v', hv', infinite⟩⟩
    · cases h.symm.trans he
      exact hzero
    · cases h.symm.trans he
      cases hv'
      rw [finite] at infinite
      cases infinite

theorem exported_of_fit (bound : i.Bound b) (fit : ¬ i.Faulty b) (dropY : Bool) :
    ∃ lines, i.exportedLines b dropY = .ok lines := by
  obtain ⟨operation, qubits, clbits⟩ := i
  have alone : ∃ lines, [(⟨operation, qubits, clbits⟩ : Instruction)].mapM (fun j => j.lines b) =
      .ok lines :=
    exists_mapM_eq_ok (List.forall_mem_singleton.2 (lines_of_fit bound fit))
  cases operation with
  | gate g =>
    obtain ⟨before, i, after, hexported, hi, hconst⟩ := exported_gate g qubits clbits dropY
    have same (e : Angle) : i.angle? = some e ↔ g.base.angle? = some e := by
      rw [angle?, gate?, hi, ← g.angle?_written dropY]
      rfl
    rw [exportedLines, hexported]
    refine exists_mapM_eq_ok fun j hj => ?_
    rw [List.perm_middle.mem_iff, List.mem_cons] at hj
    obtain rfl | hj := hj
    · refine lines_of_fit (fun e he => bound e ((same e).1 he)) ?_
      rintro ⟨e, he, unfit⟩
      exact fit ⟨e, (same e).1 he, unfit⟩
    · obtain ⟨v, hv, finite⟩ := hconst j hj
      exact lines_of_const hv finite
  | measure | reset | barrier => cases dropY <;> exact alone

/-- What is reported of a faulty instruction is the fault of the gate that is written for it. -/
theorem exported_of_faulty (bound : i.Bound b) (faulty : i.Faulty b) (dropY : Bool) :
    ∃ g cause, i.operation = .gate g ∧ (g.written dropY).Fault b cause ∧
      i.exportedLines b dropY = .error cause := by
  obtain ⟨e, he, unfit⟩ := faulty
  have ebound : e.Bound b := bound e he
  obtain ⟨operation, qubits, clbits⟩ := i
  obtain ⟨g, rfl, hg⟩ := angle?_eq_some.1 he
  obtain ⟨before, i, after, hexported, hi, hconst⟩ := exported_gate g qubits clbits dropY
  rw [← g.angle?_written dropY] at hg
  obtain ⟨cause, hfault, hargument⟩ := Gate.argument_of_unfit hg ebound unfit
  refine ⟨g, cause, rfl, hfault, ?_⟩
  rw [exportedLines, hexported]
  refine mapM_eq_error_of_first (fun j hj => ?_) ?_
  · obtain ⟨v, hv, finite⟩ := hconst j (List.mem_append_left _ hj)
    exact lines_of_const hv finite
  · rw [lines, hi]
    exact bind_eq_error.2 (.inl hargument)

/-- The variables in an instruction as they occur. -/
def variableNames (i : Instruction) : List String := i.angle?.toList.flatMap Angle.occurrences

theorem flatMap_variableNames_exported (i : Instruction) (dropY : Bool) :
    (i.exported dropY).flatMap variableNames = i.variableNames := by
  obtain ⟨operation, qubits, clbits⟩ := i
  cases operation with
  | gate g =>
    obtain ⟨before, i, after, hexported, hi, hconst⟩ := exported_gate g qubits clbits dropY
    have none {list : List Instruction} (h : list ⊆ before ++ after) :
        list.flatMap variableNames = [] := by
      refine List.flatMap_eq_nil_iff.2 fun j hj => ?_
      obtain ⟨v, hv, -⟩ := hconst j (h hj)
      rw [variableNames, hv]
      rfl
    have same : i.variableNames = variableNames ⟨.gate g, qubits, clbits⟩ := by
      rw [variableNames, variableNames, angle?, gate?, hi, angle?, gate?]
      simp [Operation.gate?]
    rw [hexported, List.flatMap_append, List.flatMap_cons, none (List.subset_append_left _ _),
      none (List.subset_append_right _ _), same, List.nil_append, List.append_nil]
  | measure | reset | barrier => cases dropY <;> rfl

end Instruction

/-! ## Circuits -/

namespace Circuit

variable {c : Circuit}

/-- A variable of a circuit that has no value. -/
def Unbound (c : Circuit) (b : Bindings) (x : String) : Prop :=
  (∃ e ∈ c.angles, x ∈ e.occurrences) ∧ b.get? x = none

@[simp] theorem instructions_exported (c : Circuit) (dropY : Bool) :
    (if dropY then c.withoutY else c).instructions =
      c.instructions.flatMap (Instruction.exported · dropY) := by
  cases dropY with
  | true => exact instructions_withoutY c
  | false => exact (List.flatMap_singleton' _).symm

theorem angles_eq_filterMap (c : Circuit) : c.angles = c.instructions.filterMap (·.angle?) := by
  rw [angles, gates, List.filterMap_filterMap]
  rfl

@[simp] theorem mem_freeVariables {x : String} :
    x ∈ c.freeVariables ↔ ∃ e ∈ c.angles, x ∈ e.occurrences := by
  rw [freeVariables, mem_sortNames, List.mem_flatMap]

/-- Of several variables without a value there is a least one. -/
theorem exists_least_unbound (h : ∃ x, c.Unbound b x) :
    ∃ x, c.Unbound b x ∧ ∀ y, c.Unbound b y → x ≤ y := by
  obtain ⟨y, hy, hnone⟩ := h
  obtain ⟨x, hx, hmissing, least⟩ := Bindings.exists_least_missing
    (pairwise_sortNames _ : c.freeVariables.Pairwise (· < ·)) ⟨y, mem_freeVariables.2 hy, hnone⟩
  refine ⟨x, ⟨mem_freeVariables.1 hx, hmissing⟩, fun z hz => ?_⟩
  exact least z (mem_freeVariables.2 hz.1) hz.2

/-- Removing the gates in the Y basis leaves the variables as they are. -/
@[simp] theorem freeVariables_exported (c : Circuit) (dropY : Bool) :
    (if dropY then c.withoutY else c).freeVariables = c.freeVariables := by
  have occurrences (c : Circuit) :
      c.angles.flatMap Angle.occurrences = c.instructions.flatMap Instruction.variableNames := by
    rw [angles_eq_filterMap]
    induction c.instructions with
    | nil => rfl
    | cons i rest ih =>
      rw [List.flatMap_cons, ← ih, Instruction.variableNames]
      cases h : i.angle? with
      | none => rw [List.filterMap_cons_none h]; rfl
      | some e => rw [List.filterMap_cons_some h]; simp
  simp only [freeVariables, occurrences]
  rw [instructions_exported, List.flatMap_assoc]
  simp only [Instruction.flatMap_variableNames_exported]

theorem bound_of_mem (h : ∀ x, ¬ c.Unbound b x) {i : Instruction} (hi : i ∈ c.instructions) :
    i.Bound b := by
  intro e he x hx hnone
  refine h x ⟨⟨e, ?_, hx⟩, hnone⟩
  rw [angles_eq_filterMap]
  exact List.mem_filterMap.2 ⟨i, hi, he⟩

/-- Of several variables without a value the least is reported, whatever else is wrong. -/
theorem exportText_of_unbound {x : String} (h : c.Unbound b x)
    (least : ∀ y, c.Unbound b y → x ≤ y) (dropY : Bool) :
    c.exportText b dropY = .error (.unboundVariable x) := by
  have hcheck : b.check c.freeVariables = .error (.unbound x) := by
    refine Bindings.check_eq_error (pairwise_sortNames _) (mem_freeVariables.2 h.1) h.2 ?_
    exact fun y hy hnone => least y ⟨mem_freeVariables.1 hy, hnone⟩
  simp only [exportText]
  rw [freeVariables_exported, hcheck]
  rfl

/-- Once all variables have values, the text depends on the lines of the instructions. -/
theorem exportText_of_bound (h : ∀ x, ¬ c.Unbound b x) (dropY : Bool) :
    c.exportText b dropY =
      (c.instructions.mapM (Instruction.exportedLines b dropY)).map
        fun body => String.join
          (((if dropY then c.withoutY else c).headerLines ++ body.flatten.flatten).map
            (· ++ "\n")) := by
  have hcheck : b.check c.freeVariables = .ok () := by
    refine Bindings.check_eq_ok.2 fun x hx hnone => ?_
    exact h x ⟨mem_freeVariables.1 hx, hnone⟩
  simp only [exportText, lines]
  rw [freeVariables_exported, hcheck, instructions_exported, mapM_flatMap]
  change ((c.instructions.mapM (Instruction.exportedLines b dropY)).map List.flatten >>= _) >>= _ =
    (c.instructions.mapM (Instruction.exportedLines b dropY)).map _
  cases c.instructions.mapM (Instruction.exportedLines b dropY) <;> rfl

/-- Otherwise the first faulty instruction decides what is reported. -/
theorem exportText_of_faulty (h : ∀ x, ¬ c.Unbound b x) {before after : List Instruction}
    {i : Instruction} (hc : c.instructions = before ++ i :: after)
    (first : ∀ j ∈ before, ¬ j.Faulty b) (faulty : i.Faulty b) (dropY : Bool) :
    ∃ g cause, i.operation = .gate g ∧ (g.written dropY).Fault b cause ∧
      c.exportText b dropY = .error cause := by
  have bound : ∀ j ∈ before ++ i :: after, j.Bound b := fun j hj => bound_of_mem h (hc ▸ hj)
  obtain ⟨g, cause, hg, hfault, herror⟩ := Instruction.exported_of_faulty
    (bound i (List.mem_append_right _ List.mem_cons_self)) faulty dropY
  refine ⟨g, cause, hg, hfault, ?_⟩
  rw [exportText_of_bound h, hc, mapM_eq_error_of_first (fun j hj => ?_) herror]
  · rfl
  · exact Instruction.exported_of_fit (bound j (List.mem_append_left _ hj)) (first j hj) dropY

/-- Where no instruction is faulty, there is a text. -/
theorem exportText_of_sound (h : ∀ x, ¬ c.Unbound b x) (sound : ∀ i ∈ c.instructions, ¬ i.Faulty b)
    (dropY : Bool) : ∃ text, c.exportText b dropY = .ok text := by
  obtain ⟨body, hbody⟩ := exists_mapM_eq_ok fun i hi =>
    Instruction.exported_of_fit (bound_of_mem h hi) (sound i hi) dropY
  rw [exportText_of_bound h, hbody]
  exact ⟨_, rfl⟩

/-- A rotation whose angle can be infinite, in front of one whose angle can divide by zero. -/
def faultyTurns : Circuit where
  qubitCount := 1
  clbitCount := 0
  instructions :=
    [.gate ⟨.rotation .y (.binary .mul (.var "x") (.var "x")), .zero⟩ [⟨0⟩],
      .gate ⟨.rotation .z (.binary .div (.const 1.0) (.var "y")), .zero⟩ [⟨0⟩]]

-- The division by zero is not looked at, since the other variable has no value.
example : faultyTurns.exportText (.ofList [("y", 0.0)]) true = .error (.unboundVariable "x") := rfl

-- The square of the greatest finite number is infinite, and comes first.
example : faultyTurns.exportText
    (.ofList [("x", .ofBits 0x7FEFFFFFFFFFFFFF), ("y", 0.0)]) true =
      .error (.nonFiniteAngle "rx" (.ofBits 0x7FF0000000000000)) := rfl

end Circuit

/-! ## Files -/

namespace Storage

/-- The writes that were asked for: paths with texts. -/
abbrev Writes := List (String × String)

/-- A storage that keeps the writes that are asked for.  Each is answered in whatever way, which may
depend on those before it. -/
def recorder (answer : Writes → String → String → Except FileError Unit) :
    Storage (StateM Writes) where
  present _ := pure false
  read _ := pure (.error .notFound)
  write path text := fun writes => (answer writes path text, writes ++ [(path, text)])

/-- What is given back of a text, once the write of it was answered. -/
def written (path text : String) : Except FileError Unit → Except SaveError String
  | .ok () => .ok text
  | .error cause => .error (.unwritable path cause)

variable {answer : Writes → String → String → Except FileError Unit} {c : Circuit}

theorem exportCircuit_of_error {cause : ExportError} (h : c.exportText b dropY = .error cause)
    (output : Option String) (writes : Writes) :
    (recorder answer).exportCircuit c ⟨b, dropY, output⟩ writes =
      (.error (.noText cause), writes) := by
  rw [exportCircuit, h]
  rfl

theorem exportCircuit_of_ok {text : String} (h : c.exportText b dropY = .ok text)
    (output : Option String) (writes : Writes) :
    (recorder answer).exportCircuit c ⟨b, dropY, output⟩ writes =
      match output with
      | none => (.ok text, writes)
      | some path =>
        (written path text (answer writes path text), writes ++ [(path, text)]) := by
  rw [exportCircuit, h]
  cases output with
  | none => rfl
  | some path =>
    simp only [bind, StateT.bind, recorder]
    cases answer writes path text with
    | error cause => rfl
    | ok _ => rfl

/-- **What comes of an export, and what is written.**  A variable without a value is reported before
anything else, and of several the least one.  Then the first instruction whose angle has no finite
number decides.  Both leave the files alone.  Otherwise there is a text, which is written once if it
is to be written at all, and only then can a file be the reason for a failure.  The case does not
depend on whether gates in the Y basis are removed. -/
theorem exportCircuit_outcome (answer : Writes → String → String → Except FileError Unit)
    (c : Circuit) (b : Bindings) :
    ((∃ x, c.Unbound b x) →
      ∃ x, c.Unbound b x ∧ (∀ y, c.Unbound b y → x ≤ y) ∧ ∀ dropY output writes,
        (recorder answer).exportCircuit c ⟨b, dropY, output⟩ writes =
          (.error (.noText (.unboundVariable x)), writes)) ∧
    ((∀ x, ¬ c.Unbound b x) → (∃ i ∈ c.instructions, i.Faulty b) →
      ∃ before i after g, c.instructions = before ++ i :: after ∧
        (∀ j ∈ before, ¬ j.Faulty b) ∧ i.Faulty b ∧ i.operation = .gate g ∧
        ∀ dropY, ∃ cause, (g.written dropY).Fault b cause ∧ ∀ output writes,
          (recorder answer).exportCircuit c ⟨b, dropY, output⟩ writes =
            (.error (.noText cause), writes)) ∧
    ((∀ x, ¬ c.Unbound b x) → (∀ i ∈ c.instructions, ¬ i.Faulty b) →
      ∀ dropY, ∃ text, ∀ output writes,
        (recorder answer).exportCircuit c ⟨b, dropY, output⟩ writes =
          match output with
          | none => (.ok text, writes)
          | some path =>
            (written path text (answer writes path text), writes ++ [(path, text)])) := by
  refine ⟨fun unbound => ?_, fun bound faulty => ?_, fun bound sound dropY => ?_⟩
  · obtain ⟨x, hx, least⟩ := Circuit.exists_least_unbound unbound
    refine ⟨x, hx, least, fun dropY output writes => ?_⟩
    exact exportCircuit_of_error (Circuit.exportText_of_unbound hx least dropY) output writes
  · obtain ⟨before, i, after, hc, first, hi⟩ := exists_first faulty
    obtain ⟨e, he, -⟩ := id hi
    obtain ⟨g, hg, -⟩ := Instruction.angle?_eq_some.1 he
    refine ⟨before, i, after, g, hc, first, hi, hg, fun dropY => ?_⟩
    obtain ⟨g', cause, hg', hfault, herror⟩ :=
      Circuit.exportText_of_faulty bound hc first hi dropY
    obtain rfl : g = g' := Operation.gate.inj (hg.symm.trans hg')
    exact ⟨cause, hfault, exportCircuit_of_error herror⟩
  · obtain ⟨text, htext⟩ := Circuit.exportText_of_sound bound sound dropY
    exact ⟨text, exportCircuit_of_ok htext⟩

end Storage

end FlatQasm
