import FlatQasm.Proofs.Circuit.ExportOutcome
import FlatQasm.Proofs.Program.Imported

/-!
# Divisions by zero in imported circuits

The parser refuses a division whose divisor folds to zero, and leaves a divisor with variables to
evaluation.  The formal angles of a gate definition are such variables.  A call replaces them, and
what it puts in place of a divisor can fold to zero; the second pass does not look at that.  So an
imported circuit can have a division by a constant zero, but only one that a call has put together.

## Main definitions

* `GateDefinition.FormalQuotient` — a division in a body by a divisor with a formal angle.
* `Program.FillsIn` — a division that a call puts together from such a one.

## Main statements

* `Program.Invokes.fillsIn` — where a division by zero in the angles of a call comes from.
* `Circuit.zeroDivisors_of_ofSource` — where a division by zero in an imported circuit comes from.
* `Circuit.ofSource_zeroArgument` — a text whose circuit has one.
-/

namespace FlatQasm

/-! ## Calls -/

namespace GateDefinition

/-- A division in the body of a definition by a divisor in which a formal angle occurs. -/
def FormalQuotient (d : GateDefinition) (x y : Angle) : Prop :=
  (∃ call ∈ d.body, ∃ e ∈ call.params, (x, y) ∈ e.quotients) ∧ ∃ z ∈ d.params, z ∈ y.occurrences

variable {d : GateDefinition} {args : List Angle}

/-- An angle that replaces a formal one is an angle of the call. -/
theorem mem_of_lastValue?_eq_some {z : String} {a : Angle}
    (h : lastValue? z (d.params.zip args) = some a) : a ∈ args :=
  (List.of_mem_zip (List.mem_reverse.1 (mem_of_lookup_eq_some h))).2

/-- An angle without formal ones is only folded. -/
theorem angleWith_of_notMem {e : Angle} (h : ∀ z ∈ d.params, z ∉ e.occurrences) :
    d.angleWith args e = e.simplify := by
  rw [angleWith, Angle.substitute_eq_self]
  intro z hz
  rw [lastValue?, lookup_eq_none_iff_notMem, List.map_reverse, List.mem_reverse]
  intro hmem
  obtain ⟨⟨_, a⟩, hpair, rfl⟩ := List.mem_map.1 hmem
  exact h _ (List.of_mem_zip hpair).1 hz

/-- A division in an angle of a body, as it is in a call with folded angles, is a division of the
body with both sides as they are in the call, or stands in an angle of the call. -/
theorem exists_of_mem_quotients_angleWith {e x y : Angle} (folded : ∀ a ∈ args, a.simplify = a)
    (h : (x, y) ∈ (d.angleWith args e).quotients) :
    (∃ a b, (a, b) ∈ e.quotients ∧ x = d.angleWith args a ∧ y = d.angleWith args b) ∨
      ∃ a ∈ args, (x, y) ∈ a.quotients := by
  obtain ⟨x', y', hmem, rfl, rfl⟩ := Angle.exists_of_mem_quotients_simplify h
  rcases Angle.exists_of_mem_quotients_substitute hmem with ⟨a, b, hab, rfl, rfl⟩ | ⟨z, a, hz, ha⟩
  · exact .inl ⟨a, b, hab, rfl, rfl⟩
  · have harg := mem_of_lastValue?_eq_some hz
    obtain ⟨hx, hy⟩ := Angle.simplify_of_mem_quotients (folded a harg) ha
    rw [hx, hy]
    exact .inr ⟨a, harg, ha⟩

end GateDefinition

namespace Program

variable {p : Program}

/-- A division that a call puts together: a division in the body of the called gate, by a divisor
with a formal angle, with the angles of a call that the program makes. -/
def FillsIn (p : Program) (x y : Angle) : Prop :=
  ∃ d ∈ p.definitions, ∃ args, p.Invokes d.name args ∧ args.length = d.params.length ∧
    ∃ a b, d.FormalQuotient a b ∧ x = d.angleWith args a ∧ y = d.angleWith args b

/-- The angles in the body of a definition are checked. -/
theorem checked_of_mem_definitions (checked : ∀ s ∈ p.statements, s.Checked) {d : GateDefinition}
    (hd : d ∈ p.definitions) : ∀ call ∈ d.body, call.Checked := by
  obtain ⟨⟨kind, position⟩, hs, hkind⟩ := List.mem_filterMap.1 hd
  cases kind with
  | gateDefinition d' =>
    cases hkind
    exact checked _ hs
  | _ => cases hkind

/-- **Where a division by zero in the angles of a call comes from.**  The angles of a statement have
none.  Those of a body get one from the call, whose angles come first, or put it together. -/
theorem Invokes.fillsIn (checked : ∀ s ∈ p.statements, s.Checked) {gate : String}
    {args : List Angle} (h : p.Invokes gate args) :
    ∀ e ∈ args, ∀ x y, (x, y) ∈ e.quotients → y.FoldsToZero → p.FillsIn x y := by
  induction h with
  | statement hs hkind =>
    intro e he x y hmem hzero
    have written := (checked _ hs).of_call hkind e he
    exact absurd hzero (written.not_foldsToZero hmem)
  | @body d args inner hd hcall harity hinner _ ih =>
    intro f hf x y hmem hzero
    obtain ⟨e, he, rfl⟩ := List.mem_map.1 hf
    have folded : ∀ a ∈ args, a.simplify = a := fun a ha => (hcall.folded checked a ha).1
    rcases GateDefinition.exists_of_mem_quotients_angleWith folded hmem with
      ⟨a, b, hab, rfl, rfl⟩ | ⟨a, ha, hmem⟩
    · by_cases formal : ∃ z ∈ d.params, z ∈ b.occurrences
      · exact ⟨d, hd, args, hcall, harity, a, b, ⟨⟨inner, hinner, e, he, hab⟩, formal⟩, rfl, rfl⟩
      · -- The divisor is the one that the parser has seen.
        have none : ∀ z ∈ d.params, z ∉ b.occurrences := fun z hz hb => formal ⟨z, hz, hb⟩
        rw [GateDefinition.angleWith_of_notMem none, Angle.foldsToZero_simplify] at hzero
        have written := checked_of_mem_definitions checked hd inner hinner e he
        exact absurd hzero (written.not_foldsToZero hab)
    · exact ih a ha x y hmem hzero

end Program

/-! ## Circuits -/

namespace Circuit

/-- A division by zero that an export reports is one in an angle of the circuit. -/
theorem exists_of_exportText_eq_divisionByZero {c : Circuit} {b : Bindings} {dropY : Bool}
    {q : Angle} (h : c.exportText b dropY = .error (.divisionByZero q)) :
    ∃ e ∈ c.angles, e.compute b = .error (.divisionByZero q) := by
  by_cases unbound : ∃ x, c.Unbound b x
  · obtain ⟨x, hx, least⟩ := exists_least_unbound unbound
    rw [exportText_of_unbound hx least] at h
    cases h
  · rw [not_exists] at unbound
    by_cases faulty : ∃ i ∈ c.instructions, i.Faulty b
    · obtain ⟨before, i, after, hc, first, hi⟩ := exists_first faulty
      obtain ⟨g, cause, hg, hfault, herror⟩ := exportText_of_faulty unbound hc first hi dropY
      rw [herror] at h
      cases h
      cases hfault with
      | @divisionByZero e _ he hq =>
        rw [Gate.angle?_written] at he
        refine ⟨e, ?_, hq⟩
        rw [angles_eq_filterMap, List.mem_filterMap]
        refine ⟨i, ?_, Instruction.angle?_eq_some.2 ⟨g, hg, he⟩⟩
        rw [hc]
        exact List.mem_append_right _ List.mem_cons_self
    · have sound : ∀ i ∈ c.instructions, ¬ i.Faulty b := fun i hi hf => faulty ⟨i, hi, hf⟩
      obtain ⟨text, htext⟩ := exportText_of_sound unbound sound dropY
      rw [htext] at h
      cases h

/-- Without free variables, a division by zero that an export reports is a division in an angle, and
its divisor folds to zero. -/
theorem exists_quotient_of_exportText {c : Circuit} (closed : c.freeVariables = []) {b : Bindings}
    {dropY : Bool} {q : Angle} (h : c.exportText b dropY = .error (.divisionByZero q)) :
    ∃ e ∈ c.angles, ∃ x y, (x, y) ∈ e.quotients ∧ q = .binary .div x y ∧ y.FoldsToZero := by
  obtain ⟨e, he, hq⟩ := exists_of_exportText_eq_divisionByZero h
  refine ⟨e, he, Angle.foldsToZero_of_compute (List.eq_nil_iff_forall_not_mem.2 fun z hz => ?_) hq⟩
  have hmem : z ∈ c.freeVariables := mem_freeVariables.2 ⟨e, he, hz⟩
  rw [closed] at hmem
  cases hmem

/-- **Where a division by zero in an imported circuit comes from.**  No division that is read has a
divisor that folds to zero, and none in the program has.  A division by a constant zero in an angle
of the circuit is one that a call has put together; and if the circuit has no free variables, only
such a one is reported at export.  So there is none where no called gate divides by a formal
angle. -/
theorem zeroDivisors_of_ofSource {source : String} {rule : HeaderRule} {c : Circuit}
    (h : ofSource source rule = .ok c) :
    (∀ ts e rest, Grammar.angle ts = .ok (e, rest) →
      ∀ x y, (x, y) ∈ e.quotients → ¬ y.FoldsToZero) ∧
    ∃ p, Program.parse source rule = .ok p ∧
      (∀ s ∈ p.statements, ∀ call ∈ s.calls, ∀ e ∈ call.params,
        ∀ x y, (x, y) ∈ e.quotients → ¬ y.FoldsToZero) ∧
      (∀ e ∈ c.angles, ∀ x y, (x, y) ∈ e.quotients → y.FoldsToZero → p.FillsIn x y) ∧
      (c.freeVariables = [] → ∀ b dropY q, c.exportText b dropY = .error (.divisionByZero q) →
        ∃ x y, q = .binary .div x y ∧ p.FillsIn x y) ∧
      ((∀ d ∈ p.definitions, (∃ args, p.Invokes d.name args) → ∀ x y, ¬ d.FormalQuotient x y) →
        (∀ e ∈ c.angles, ∀ x y, (x, y) ∈ e.quotients → ¬ y.FoldsToZero) ∧
        (c.freeVariables = [] →
          ∀ b dropY q, c.exportText b dropY ≠ .error (.divisionByZero q))) := by
  obtain ⟨p, hparse, hcircuit⟩ := exists_parse_of_ofSource h
  have checked := checked_of_parse hparse
  have filled : ∀ e ∈ c.angles, ∀ x y, (x, y) ∈ e.quotients → y.FoldsToZero → p.FillsIn x y := by
    intro e he
    obtain ⟨gate, hinvoked⟩ := invokes_of_mem_angles hcircuit he
    exact hinvoked.fillsIn checked e (List.mem_singleton_self e)
  refine ⟨fun _ _ _ => Grammar.not_foldsToZero_of_angle, p, hparse, ?_, filled, ?_, ?_⟩
  · intro s hs call hcall e he x y
    exact (checked s hs call hcall e he).not_foldsToZero
  · intro closed b dropY q hq
    obtain ⟨e, he, x, y, hmem, hxy, hzero⟩ := exists_quotient_of_exportText closed hq
    exact ⟨x, y, hxy, filled e he x y hmem hzero⟩
  · intro unformal
    have none : ∀ x y, ¬ p.FillsIn x y := by
      rintro x y ⟨d, hd, args, hcall, -, a, b, hformal, -, -⟩
      exact unformal d hd ⟨args, hcall⟩ a b hformal
    refine ⟨fun e he x y hmem hzero => none x y (filled e he x y hmem hzero), ?_⟩
    intro closed b dropY q hq
    obtain ⟨e, he, x, y, hmem, -, hzero⟩ := exists_quotient_of_exportText closed hq
    exact none x y (filled e he x y hmem hzero)

/-- A text with a gate that divides by its angle, called from another gate. -/
def gapText : String :=
  "OPENQASM 2.0;\n" ++
  "gate inverse(a) u \x7b rx(1/a) u; \x7d\n" ++
  "gate gap(a,b) u \x7b inverse(a-b) u; \x7d\n" ++
  "qreg q[1]; gap(x,2) q[0]; gap(2,2) q;"

/-- The circuit of that text: one divisor has a free variable, and the other is zero. -/
def gap : Circuit where
  qubitCount := 1
  clbitCount := 0
  instructions :=
    [.binary .sub (.var "x") (.const 2), .const 0].map fun divisor =>
      .gate ⟨.rotation .x (.binary .div (.const 1) divisor), .zero⟩ [⟨0⟩]

theorem zeroDivisors_of_ofSource_gap :
    ofSource gapText .required = .ok gap ∧
      ∃ p, Program.parse gapText .required = .ok p ∧ p.FillsIn (.const 1) (.const 0) := by
  have h : ofSource gapText .required = .ok gap := toOption_eq_some.1 (by decide +kernel)
  obtain ⟨-, p, hparse, -, filled, -, -⟩ := zeroDivisors_of_ofSource h
  refine ⟨h, p, hparse, filled (.binary .div (.const 1) (.const 0)) ?_ _ _ ?_ ⟨0, rfl, rfl⟩⟩
  · exact List.mem_cons_of_mem _ List.mem_cons_self
  · exact List.mem_singleton_self _

/-- A text with a gate that divides by its angle, called with zero. -/
def zeroArgumentText : String :=
  "OPENQASM 2.0;\n" ++
  "gate inverse(a) u \x7b rx(1/a) u; \x7d\n" ++
  "qreg q[1];\n" ++
  "inverse(0) q[0];"

/-- The circuit of that text. -/
def zeroArgument : Circuit where
  qubitCount := 1
  clbitCount := 0
  instructions := [.gate ⟨.rotation .x (.binary .div (.const 1) (.const 0)), .zero⟩ [⟨0⟩]]

/-- The text is imported, whether or not the header is asked for.  There is a division by zero in
its circuit, with no free variable anywhere, and exporting the circuit reports it. -/
theorem ofSource_zeroArgument :
    ofSource zeroArgumentText .required = .ok zeroArgument ∧
      ofSource zeroArgumentText .optional = .ok zeroArgument ∧
      zeroArgument.freeVariables = [] ∧
      (∃ e ∈ zeroArgument.angles, ∃ x y, (x, y) ∈ e.quotients ∧ y.occurrences = [] ∧
        y.FoldsToZero) ∧
      zeroArgument.exportText .empty false =
        .error (.divisionByZero (.binary .div (.const 1) (.const 0))) := by
  refine ⟨toOption_eq_some.1 (by decide +kernel), toOption_eq_some.1 (by decide +kernel), rfl, ?_,
    rfl⟩
  exact ⟨_, List.mem_cons_self, _, _, List.mem_singleton_self _, rfl, 0, rfl, rfl⟩

end Circuit

end FlatQasm
