import FlatQasm.Proofs.Grammar.Reading
import FlatQasm.Proofs.Program.WellScoped

/-!
# Parsing undoes printing

The text of a well-scoped program is read as that program, up to the positions of its statements.
Its names have to be such as source text can have, and its angles folded, with finite numbers.

An angle may have half the height that the parser allows, since its text opens up to two levels of
nesting for each operation.  The gates that are called need not be looked at: a built-in gate has a
name that can be read, and any other has the name of a definition.

## Main definitions

* `Program.Printable` — what is asked of a program.

## Main statements

* `Program.parse_text` — the text of a printable program is read as the program.
-/

namespace FlatQasm

/-- What is asked of a program so that its text is read as the program. -/
structure Program.Printable (p : Program) : Prop where
  version : p.version = none ∨ p.version = some "2.0"
  wellScoped : p.WellScoped
  /-- The names of registers, gates, formals and variables, and the numbers in angles. -/
  spelled : ∀ s ∈ p.statements, s.kind.Spelled
  angles : ∀ s ∈ p.statements, ∀ c ∈ s.calls, ∀ e ∈ c.params,
    e.simplify = e ∧ e.depth ≤ printableDepth ∧ e.NoZeroDivisor

/-! ## Calls of known gates -/

/-- The name of a built-in gate can be read. -/
theorem isIdentifier_of_signature? {name : String} {s : Signature} (h : signature? name = some s) :
    IsIdentifier name := by
  rw [← Signature.mnemonic_of_signature? h]
  exact isIdentifier_mnemonic s

namespace GateCall.IsKnown

variable {definitions : List GateDefinition} {c : GateCall} (h : c.IsKnown definitions)
include h

theorem isIdentifier_name (spelled : ∀ d ∈ definitions, IsIdentifier d.name) :
    IsIdentifier c.name := by
  obtain ⟨s, hs, -⟩ | ⟨d, hd, hname, -⟩ := h
  · exact isIdentifier_of_signature? hs
  · rw [← hname]
    exact spelled d hd

/-- Every gate has a qubit. -/
theorem operands_ne_nil (qubits : ∀ d ∈ definitions, d.qubits ≠ []) : c.operands ≠ [] := by
  intro hnil
  obtain ⟨s, -, -, hcount⟩ | ⟨d, hd, -, -, hcount⟩ := h
  · rw [hnil] at hcount
    cases hcount
  · rw [hnil] at hcount
    exact qubits d hd (List.length_eq_zero_iff.1 hcount.symm)

end GateCall.IsKnown

/-- The calls in a statement can be read when the statement can. -/
theorem Statement.spelled_of_mem_calls {s : Statement} (h : s.kind.Spelled) {c : GateCall}
    (hc : c ∈ s.calls) : c.Spelled := by
  obtain ⟨kind, position⟩ := s
  cases kind with
  | gateDefinition d => exact GateDefinition.Spelled.body h c hc
  | call c' =>
    obtain rfl := List.mem_singleton.1 hc
    exact h
  | _ => cases hc

/-! ## Programs -/

namespace Program

variable {p : Program}

/-- The gate of a call is one of those that are built in or defined in the program. -/
theorem WellScoped.isKnown (h : p.WellScoped) {s : Statement} (hs : s ∈ p.statements) {c : GateCall}
    (hc : c ∈ s.calls) : c.IsKnown p.definitions := by
  obtain ⟨before, after, hp⟩ := List.append_of_mem hs
  obtain hbuiltIn | ⟨d, hd, hdefined⟩ := h.calls before s after hp c hc
  · exact .inl hbuiltIn
  · exact .inr ⟨d, (definitions_before hp).subset hd, hdefined⟩

/-- **Parsing undoes printing.**  Positions are not printed, so that they are not read back either;
without a version there is no header, and then none may be asked for. -/
theorem parse_text (h : p.Printable) {rule : HeaderRule}
    (hrule : rule = .optional ∨ p.version = some "2.0") :
    ∃ p', Program.parse p.text rule = .ok p' ∧ p'.version = p.version ∧
      p'.statements.map Statement.kind = p.statements.map Statement.kind := by
  have names : ∀ d ∈ p.definitions, IsIdentifier d.name := by
    intro d hd
    obtain ⟨before, position, after, hp⟩ := exists_of_mem_definitions hd
    exact GateDefinition.Spelled.name (h.spelled ⟨.gateDefinition d, position⟩ (by simp [hp]))
  have known {s : Statement} (hs : s ∈ p.statements) {c : GateCall} (hc : c ∈ s.calls) :
      c.IsKnown p.definitions := h.wellScoped.isKnown hs hc
  have printable : ∀ s ∈ p.statements, ∀ c ∈ s.calls, ∀ e ∈ c.params, e.Printable := by
    intro s hs c hc e he
    obtain ⟨folded, depth_le, divisors⟩ := h.angles s hs c hc e he
    have spelled := Statement.spelled_of_mem_calls (h.spelled s hs) hc
    exact ⟨folded, depth_le, divisors, spelled.params e he⟩
  have lexed : Lexes p.text.toList p.tokens :=
    lexes_text h.version (fun s hs c hc => (known hs hc).isIdentifier_name names) h.spelled
  have taken : (Grammar.program rule).Takes p.tokens _ [] :=
    Grammar.takes_program h.version hrule h.wellScoped.acceptedFrom printable fun s hs c hc =>
      (known hs hc).operands_ne_nil fun d hd => (h.wellScoped.definitions d hd).qubits
  obtain ⟨located, htokens, hlocated⟩ := lexed.exists_tokens
  obtain ⟨p', rest, hp', ⟨hversion, hkinds⟩, -⟩ := taken located hlocated
  exact ⟨p', bind_eq_ok.2 ⟨located, htokens, bind_eq_ok.2 ⟨_, hp', rfl⟩⟩, hversion, hkinds⟩

/-- A program with gates defined by gates, signed numbers and the greatest index. -/
def signedAngles : Program where
  version := some "2.0"
  statements := [
    ⟨.qreg "q_0" 3, ⟨1, 1⟩⟩,
    ⟨.gateDefinition ⟨"turn", ["t"], ["u", "v"],
      [⟨"crz", [.binary .div (.var "t") (.const (-2.0))], [.register "u", .register "v"]⟩,
        ⟨"h", [], [.register "v"]⟩]⟩, ⟨1, 1⟩⟩,
    ⟨.gateDefinition ⟨"swirl", [], ["u", "v"],
      [⟨"turn", [.neg (.binary .sub (.var "s") (.var "t"))], [.register "v", .register "u"]⟩]⟩,
      ⟨1, 1⟩⟩,
    ⟨.creg "c" 1, ⟨1, 1⟩⟩,
    ⟨.call ⟨"turn", [.const (-0.5)], [.element "q_0" 0, .register "q_0"]⟩, ⟨1, 1⟩⟩,
    ⟨.measure (.register "q_0") (.element "c" 18446744073709551615), ⟨1, 1⟩⟩,
    ⟨.barrier [.register "q_0", .element "r" 1], ⟨1, 1⟩⟩,
    ⟨.reset (.register "q_0"), ⟨1, 1⟩⟩]

theorem wellScoped_signedAngles : signedAngles.WellScoped := by
  refine wellScoped_of_acceptedFrom ⟨⟨by decide, by decide⟩, ?_, ?_, ⟨by decide, by decide⟩,
    ⟨⟨1, 2⟩, rfl, rfl, rfl⟩, .intro, List.cons_ne_nil _ _, .intro, .intro⟩
  · refine ⟨rfl, by decide, List.cons_ne_nil _ _, ?_, by simp⟩
    exact List.forall_mem_cons.2
      ⟨⟨⟨1, 2⟩, rfl, rfl, rfl⟩, List.forall_mem_singleton.2 ⟨⟨0, 1⟩, rfl, rfl, rfl⟩⟩
  · refine ⟨rfl, by decide, List.cons_ne_nil _ _, ?_, by simp⟩
    exact List.forall_mem_singleton.2 ⟨⟨1, 2⟩, rfl, rfl, rfl⟩

theorem printable_signedAngles : signedAngles.Printable := by
  let half : Angle := .binary .div (.var "t") (.const (-2.0))
  let difference : Angle := .neg (.binary .sub (.var "s") (.var "t"))
  have hhalf : half.simplify = half ∧ half.depth ≤ printableDepth ∧
      ((-2.0 : Float) == 0.0) = false := ⟨rfl, by decide, by decide⟩
  have hdifference : difference.simplify = difference ∧ difference.depth ≤ printableDepth :=
    ⟨rfl, by decide⟩
  have hnumber : (Angle.const (-0.5)).depth ≤ printableDepth := by decide
  refine ⟨.inr rfl, wellScoped_signedAngles, by decide, ?_⟩
  simpa [signedAngles, Statement.calls, Angle.NoZeroDivisor] using ⟨hhalf, hdifference, hnumber⟩

theorem parse_text_signedAngles : signedAngles.Printable ∧
    ∃ p', Program.parse signedAngles.text .required = .ok p' ∧ p'.version = some "2.0" ∧
      p'.statements.map Statement.kind = signedAngles.statements.map Statement.kind :=
  ⟨printable_signedAngles, parse_text printable_signedAngles (.inr rfl)⟩

end Program

end FlatQasm
