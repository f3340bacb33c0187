import FlatQasm.Grammar.Program
import FlatQasm.Proofs.Grammar.Angles

/-!
# What the parser checks

The parser refuses a program that declares a name twice, calls a gate that is not known, or calls
one with the wrong number of angles or operands.  Here it is said of the program that it gives, and
not of the tokens that it reads: each statement is accepted in the scope that the statements before
it leave.

## Main definitions

* `GateCall.Accepted`, `GateDefinition.Accepted`, `Statement.Accepted` — what is checked of a part
  of a program in a scope.
* `AcceptedFrom` — each of some statements is accepted behind those before it.
* `Statement.calls`, `Statement.Checked` — the gate calls of a statement, and what is checked of
  their angles.

## Main statements

* `acceptedFrom_of_parse` — the statements of a parsed program are accepted.
* `checked_of_parse` — the angles of a parsed program are checked.
-/

namespace FlatQasm

/-! ## The checks -/

/-- A call of a gate that is known, with as many angles and operands as it takes. -/
def GateCall.Accepted (scope : Scope) (call : GateCall) : Prop :=
  ∃ arity, scope.arity? call.name = some arity ∧ call.params.length = arity.params ∧
    call.operands.length = arity.qubits

/-- A gate definition with a new name, distinct formal names, and calls on its qubits of gates that
are known before it. -/
structure GateDefinition.Accepted (scope : Scope) (d : GateDefinition) : Prop where
  new : scope.arity? d.name = none
  formals : (d.params ++ d.qubits).Nodup
  qubits : d.qubits ≠ []
  calls : ∀ call ∈ d.body, call.Accepted scope
  operands : ∀ call ∈ d.body, ∀ o ∈ call.operands, ∃ q ∈ d.qubits, o = .register q

/-- What is checked of a statement. -/
def Statement.Accepted (scope : Scope) (s : Statement) : Prop :=
  match s.kind with
  | .qreg name size | .creg name size => name ∉ scope.registers ∧ 0 < size.toNat
  | .gateDefinition d => d.Accepted scope
  | .call call => call.Accepted scope
  | .measure _ _ | .reset _ => True
  | .barrier targets => targets ≠ []

/-- Each statement is accepted in the scope behind those before it. -/
def AcceptedFrom : Scope → List Statement → Prop
  | _, [] => True
  | scope, s :: rest => s.Accepted scope ∧ AcceptedFrom (scope.declare s) rest

/-- The gate calls of a statement: a call itself, or those of a body. -/
def Statement.calls (s : Statement) : List GateCall :=
  match s.kind with
  | .call c => [c]
  | .gateDefinition d => d.body
  | _ => []

/-- Every angle of a call is checked. -/
def GateCall.Checked (call : GateCall) : Prop := ∀ e ∈ call.params, e.Checked

/-- Every angle of a statement is checked. -/
def Statement.Checked (s : Statement) : Prop := ∀ call ∈ s.calls, call.Checked

/-- The scope behind some statements. -/
def Scope.behind (scope : Scope) (statements : List Statement) : Scope :=
  statements.foldl Scope.declare scope

/-- A statement of accepted ones is accepted behind those before it. -/
theorem AcceptedFrom.accepted {scope : Scope} {before : List Statement} {s : Statement}
    {after : List Statement} (h : AcceptedFrom scope (before ++ s :: after)) :
    s.Accepted (scope.behind before) := by
  induction before generalizing scope with
  | nil => exact h.1
  | cons first before ih => exact ih h.2

namespace Grammar

open FlatQasm.Grammar.Parser (Ensures)

/-! ## Statements -/

theorem ensures_fail {α : Type} {error : ImportError} {P : α → Prop} :
    Ensures (fail error : Parser α) P := by
  intro ts a rest h
  cases h

theorem ensures_formalOperand (qubits : List String) :
    Ensures (formalOperand qubits) fun o => ∃ q ∈ qubits, o = .register q := by
  refine .next fun (name, p) => ?_
  dsimp only
  split
  · exact ensures_fail
  · next hname =>
    refine .next fun ts => ?_
    split
    · exact .next fun ts => ensures_fail
    · exact .pure ⟨name, not_not.1 hname, rfl⟩

/-- A call is accepted and its angles are checked, and its operands have what each of them is read
with. -/
theorem ensures_call (scope : Scope) {operand : Parser Operand} {P : Operand → Prop}
    (hoperand : operand.Ensures P) :
    Ensures (call scope operand) fun c =>
      c.Accepted scope ∧ c.Checked ∧ ∀ o ∈ c.operands, P o := by
  refine .next fun (name, p) => ?_
  dsimp only
  split
  · exact ensures_fail
  · next arity harity =>
    have behind {params : List Angle} (hchecked : ∀ e ∈ params, e.Checked) : Ensures (do
        let operands ← commaSeparated operand
        expect .semicolon
        if params.length ≠ arity.params then
          fail (.wrongParamCount p name arity.params params.length)
        else if operands.length ≠ arity.qubits then
          fail (.wrongQubitCount p name arity.qubits operands.length)
        else pure (⟨name, params, operands⟩ : GateCall))
        fun c => c.Accepted scope ∧ c.Checked ∧ ∀ o ∈ c.operands, P o := by
      refine (ensures_commaSeparated hoperand).bind fun operands hall => .next fun _ => ?_
      split
      · exact ensures_fail
      · next hparams =>
        split
        · exact ensures_fail
        · next hoperands =>
          have accepted : GateCall.Accepted scope ⟨name, params, operands⟩ :=
            ⟨arity, harity, not_not.1 hparams, not_not.1 hoperands⟩
          exact .pure ⟨accepted, hchecked, hall.2⟩
    refine .next fun opened => ?_
    split
    · refine ensures_arguments.bind fun params hchecked => .next fun _ => ?_
      exact .bind (.pure hchecked) fun _ => behind
    · exact behind (List.forall_mem_nil _)

theorem ensures_body (scope : Scope) (qubits : List String) (bound : List Located) :
    Ensures (body scope qubits bound) fun calls => ∀ c ∈ calls,
      c.Accepted scope ∧ c.Checked ∧ ∀ o ∈ c.operands, ∃ q ∈ qubits, o = .register q := by
  induction bound with
  | nil =>
    intro ts a rest h
    cases h
  | cons _ bound ih =>
    rw [body]
    refine .next fun closed => ?_
    split
    · exact .pure (List.forall_mem_nil _)
    · refine .next fun ts => ?_
      split
      · refine (ensures_call scope (ensures_formalOperand qubits)).bind fun first hfirst => ?_
        exact ih.bind fun rest hrest => .pure (List.forall_mem_cons.2 ⟨hfirst, hrest⟩)
      · exact ensures_fail

theorem ensures_names : Ensures names fun list => list ≠ [] := by
  refine (ensures_commaSeparated .trivial).bind fun list hlist => .pure ?_
  rw [ne_eq, List.map_eq_nil_iff]
  exact hlist.1

theorem ensures_definitionRest {scope : Scope} {name : String} (hnew : scope.arity? name = none)
    (p : Position) (params : List String) : Ensures (do
      let qubits ← names
      match firstRepeated? (params ++ qubits) with
      | some formal => fail (.duplicateDeclaration p formal)
      | none =>
        expect .leftBrace
        let calls ← body scope qubits (← get)
        pure (⟨name, params, qubits, calls⟩ : GateDefinition))
      fun d => d.Accepted scope ∧ ∀ c ∈ d.body, c.Checked := by
  refine ensures_names.bind fun qubits hqubits => ?_
  split
  · exact ensures_fail
  · next hformals =>
    refine .next fun _ => .next fun ts => (ensures_body scope qubits ts).bind ?_
    refine fun calls hcalls =>
      .pure ⟨⟨hnew, firstRepeated?_eq_none.1 hformals, hqubits, ?_, ?_⟩, ?_⟩
    · exact fun c hc => (hcalls c hc).1
    · exact fun c hc => (hcalls c hc).2.2
    · exact fun c hc => (hcalls c hc).2.1

theorem ensures_gateDefinition (scope : Scope) :
    Ensures (gateDefinition scope) fun d => d.Accepted scope ∧ ∀ c ∈ d.body, c.Checked := by
  refine .next fun (name, p) => ?_
  dsimp only
  split
  · exact ensures_fail
  · next hnew =>
    rw [Bool.not_eq_true, Option.isSome_eq_false_iff, Option.isNone_iff_eq_none] at hnew
    refine .next fun opened => ?_
    split
    · refine .next fun ts => ?_
      split
      · exact .next fun _ => .next fun _ => .next fun params => ensures_definitionRest hnew p params
      · exact .next fun _ => .next fun _ => .next fun params => ensures_definitionRest hnew p params
    · exact ensures_definitionRest hnew p []

theorem ensures_registerDeclaration (scope : Scope) (make : String → UInt32 → StatementKind) :
    Ensures (registerDeclaration scope make) fun kind =>
      ∃ name size, kind = make name size ∧ name ∉ scope.registers ∧ 0 < size.toNat := by
  refine .next fun (name, p) => .next fun _ => .next fun size => .next fun _ => .next fun _ => ?_
  split
  · exact ensures_fail
  · next hsize =>
    split
    · exact ensures_fail
    · next hname =>
      refine .pure ⟨name, size.toUInt32, rfl, hname, ?_⟩
      rw [not_or, Nat.not_le] at hsize
      rw [UInt64.toNat_toUInt32, Nat.mod_eq_of_lt hsize.2]
      exact Nat.pos_of_ne_zero hsize.1

theorem ensures_measurement :
    Ensures measurement fun kind => ∃ qubit clbit, kind = .measure qubit clbit :=
  .next fun qubit => .next fun _ => .next fun clbit => .next fun _ => .pure ⟨qubit, clbit, rfl⟩

theorem ensures_reset : Ensures reset fun kind => ∃ target, kind = .reset target :=
  .next fun target => .next fun _ => .pure ⟨target, rfl⟩

theorem ensures_barrier :
    Ensures barrier fun kind => ∃ targets, kind = .barrier targets ∧ targets ≠ [] := by
  refine (ensures_commaSeparated .trivial).bind fun targets htargets => .next fun _ => ?_
  exact .pure ⟨targets, rfl, htargets.1⟩

theorem ensures_statementKind (scope : Scope) :
    Ensures (statementKind scope) fun kind =>
      ∀ p, (⟨kind, p⟩ : Statement).Accepted scope ∧ (⟨kind, p⟩ : Statement).Checked := by
  intro ts kind rest h p
  simp only [statementKind] at h
  split at h
  · obtain ⟨name, size, rfl, hscope⟩ := ensures_registerDeclaration scope .qreg _ _ _ h
    exact ⟨hscope, List.forall_mem_nil _⟩
  · obtain ⟨name, size, rfl, hscope⟩ := ensures_registerDeclaration scope .creg _ _ _ h
    exact ⟨hscope, List.forall_mem_nil _⟩
  · obtain ⟨⟨d, behind⟩, hd, heq⟩ := bind_eq_ok.1 h
    cases heq
    exact ensures_gateDefinition scope _ _ _ hd
  · obtain ⟨qubit, clbit, rfl⟩ := ensures_measurement _ _ _ h
    exact ⟨.intro, List.forall_mem_nil _⟩
  · obtain ⟨target, rfl⟩ := ensures_reset _ _ _ h
    exact ⟨.intro, List.forall_mem_nil _⟩
  · obtain ⟨targets, rfl, htargets⟩ := ensures_barrier _ _ _ h
    exact ⟨htargets, List.forall_mem_nil _⟩
  · obtain ⟨⟨c, behind⟩, hc, heq⟩ := bind_eq_ok.1 h
    cases heq
    obtain ⟨accepted, checked, -⟩ := ensures_call scope .trivial _ _ _ hc
    exact ⟨accepted, List.forall_mem_singleton.2 checked⟩
  · cases h

theorem ensures_statement (scope : Scope) :
    Ensures (statement scope) fun s => s.Accepted scope ∧ s.Checked := by
  intro ts s rest h
  obtain ⟨⟨kind, behind⟩, hkind, heq⟩ := bind_eq_ok.1 h
  cases heq
  exact ensures_statementKind scope _ _ _ hkind _

theorem ensures_statements (scope : Scope) (bound : List Located) :
    Ensures (statements bound scope) fun list =>
      AcceptedFrom scope list ∧ ∀ s ∈ list, s.Checked := by
  induction bound generalizing scope with
  | nil => exact .pure ⟨.intro, List.forall_mem_nil _⟩
  | cons _ bound ih =>
    intro ts list rest h
    cases ts with
    | nil =>
      cases h
      exact ⟨.intro, List.forall_mem_nil _⟩
    | cons t ts =>
      obtain ⟨t, p⟩ := t
      by_cases ht : t = .keyword .includeFile
      · subst ht
        rw [statements_include, bind_eq_ok] at h
        obtain ⟨⟨_, behind⟩, -, h⟩ := h
        exact ih scope _ _ _ h
      · rw [statements_of_ne ht, bind_eq_ok] at h
        obtain ⟨⟨first, behind⟩, hfirst, h⟩ := h
        obtain ⟨⟨others, end_⟩, hothers, h⟩ := bind_eq_ok.1 h
        cases h
        obtain ⟨accepted, checked⟩ := ensures_statement scope _ _ _ hfirst
        obtain ⟨acceptedRest, checkedRest⟩ := ih _ _ _ _ hothers
        exact ⟨⟨accepted, acceptedRest⟩, List.forall_mem_cons.2 ⟨checked, checkedRest⟩⟩

theorem ensures_program (rule : HeaderRule) :
    Ensures (program rule) fun p =>
      AcceptedFrom .empty p.statements ∧ ∀ s ∈ p.statements, s.Checked :=
  .next fun _ => .next fun ts => (ensures_statements .empty ts).bind fun _ hlist =>
    .pure hlist

end Grammar

section Parse

variable {source : String} {rule : HeaderRule} {p : Program}
  (h : Program.parse source rule = .ok p)
include h

theorem exists_program_eq_ok_of_parse :
    ∃ ts rest, Grammar.program rule ts = .ok (p, rest) := by
  obtain ⟨ts, -, h⟩ := bind_eq_ok.1 h
  obtain ⟨⟨p', rest⟩, hprogram, heq⟩ := bind_eq_ok.1 h
  cases heq
  exact ⟨ts, rest, hprogram⟩

/-- The statements of a parsed program are accepted, each in the scope behind those before it. -/
theorem acceptedFrom_of_parse : AcceptedFrom .empty p.statements := by
  obtain ⟨ts, rest, hprogram⟩ := exists_program_eq_ok_of_parse h
  exact (Grammar.ensures_program rule _ _ _ hprogram).1

/-- The angles of a parsed program are checked. -/
theorem checked_of_parse : ∀ s ∈ p.statements, s.Checked := by
  obtain ⟨ts, rest, hprogram⟩ := exists_program_eq_ok_of_parse h
  exact (Grammar.ensures_program rule _ _ _ hprogram).2

end Parse

end FlatQasm
