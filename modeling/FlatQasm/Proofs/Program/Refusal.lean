import FlatQasm.Proofs.Grammar.Scoping
import FlatQasm.Proofs.Program.Invocations
import FlatQasm.Proofs.Program.Layout

/-!
# Why a parsed program has no circuit

The parser checks what it can without knowing the registers, and the two passes that make a circuit
check everything again.  Behind the parser, most of their checks cannot fail.  What is left are the
errors that depend on the registers and their sizes, on qubits that are the same, and on angles that
grow when gate definitions are expanded.  Each is said of what the program has: the declaration, the
operands of the statement, or the call that the statement makes.

## Main definitions

* `Program.CallRefusal` — the reasons that a call made by a statement can have no instructions.
* `Program.Refusal` — the reasons that a parsed program can have no circuit.

## Main statements

* `expandDefined_refusal` — why a call of a defined gate has no instructions.
* `Program.refusal_of_parse` — a parsed program has a circuit, or one of the reasons holds.
-/

namespace FlatQasm

/-! ## Reasons -/

/-- The operands of a statement that are quantum registers or elements of them. -/
def Statement.quantumOperands (s : Statement) : List Operand :=
  match s.kind with
  | .call call => call.operands
  | .measure qubit _ => [qubit]
  | .reset target => [target]
  | .barrier targets => targets
  | _ => []

/-- The operands of a statement that are classical registers or elements of them. -/
def Statement.classicalOperands (s : Statement) : List Operand :=
  match s.kind with
  | .measure _ clbit => [clbit]
  | _ => []

/-- Why a call that a statement makes has no instructions: it is of a defined gate, and with its
angles one of the body is too high, or it is of a built-in gate on qubits of which one is
repeated. -/
inductive Program.CallRefusal (p : Program) (s : Statement) : ImportError → Prop
  | nesting {outer : BoundCall} {d : GateDefinition} {inner : GateCall} {e : Angle} :
      p.Makes s outer → d ∈ p.definitions → d.name = outer.name → inner ∈ d.body →
      e ∈ inner.params → nestingLimit < (d.angleWith outer.params e).depth →
      p.CallRefusal s (.nestingTooDeep s.position)
  | repeatedQubit {call : BoundCall} {gate : Gate} {qubit : Qubit} :
      p.Makes s call → signature? call.name = some gate.signature →
      gate.base.angle?.toList = call.params →
      firstRepeated? (call.qubits.map Qubit.index) = some qubit.index →
      p.CallRefusal s (.circuit (.duplicateQubit qubit gate.name))

/-- The reasons that a parsed program can have no circuit. -/
inductive Program.Refusal (p : Program) : ImportError → Prop
  | size {s : Statement} {name : String} {size : Nat} : s ∈ p.statements →
      s.quantumRegister? = some (name, size) ∧
          UInt32.size ≤ ((quantumSizes p.statements).map Prod.snd).sum ∨
        s.classicalRegister? = some (name, size) ∧
          UInt32.size ≤ ((classicalSizes p.statements).map Prod.snd).sum →
      p.Refusal (.invalidRegisterSize s.position name size)
  | unresolved {s : Statement} {operand : Operand} : s ∈ p.statements →
      operand ∈ s.quantumOperands ∧ operand.name ∉ (quantumSizes p.statements).map Prod.fst ∨
        operand ∈ s.classicalOperands ∧ operand.name ∉ (classicalSizes p.statements).map Prod.fst →
      p.Refusal (.unresolvedRegister s.position operand.name)
  | index {s : Statement} {name : String} {index : UInt64} {size : Nat} : s ∈ p.statements →
      .element name index ∈ s.quantumOperands ∧ (name, size) ∈ quantumSizes p.statements ∨
        .element name index ∈ s.classicalOperands ∧ (name, size) ∈ classicalSizes p.statements →
      size ≤ index.toNat → p.Refusal (.indexOutOfRange s.position name index.toNat size)
  /-- Two registers of a call differ in size. -/
  | callSizes {s : Statement} {call : GateCall} {name name' : String} {size size' : Nat} :
      s ∈ p.statements → s.kind = .call call →
      .register name ∈ call.operands → (name, size) ∈ quantumSizes p.statements →
      .register name' ∈ call.operands → (name', size') ∈ quantumSizes p.statements →
      size ≠ size' → p.Refusal (.broadcastMismatch s.position (.callSizes call.name))
  /-- The two registers of a measurement differ in size. -/
  | measureSizes {s : Statement} {qubit clbit : String} {qubits clbits : Nat} :
      s ∈ p.statements → s.kind = .measure (.register qubit) (.register clbit) →
      (qubit, qubits) ∈ quantumSizes p.statements →
      (clbit, clbits) ∈ classicalSizes p.statements → qubits ≠ clbits →
      p.Refusal (.broadcastMismatch s.position
        (.measureSizes (.register qubit) (.register clbit) qubits clbits))
  /-- One operand of a measurement is a register, and the other one an element. -/
  | measureMixed {s : Statement} {qubit clbit : Operand} {name name' : String} {index : UInt64} :
      s ∈ p.statements → s.kind = .measure qubit clbit →
      qubit = .register name ∧ clbit = .element name' index ∨
        qubit = .element name' index ∧ clbit = .register name →
      p.Refusal (.broadcastMismatch s.position (.measureMixed qubit clbit))
  | call {s : Statement} {e : ImportError} : s ∈ p.statements → p.CallRefusal s e → p.Refusal e

/-! ## Scopes and gate definitions -/

/-- The scope with the gates of some definitions, the latest first. -/
def Scope.ofDefinitions (definitions : List GateDefinition) : Scope :=
  ⟨[], definitions.map fun d => (d.name, d.arity)⟩

/-- Definitions, the latest first, each of which is accepted behind those before it. -/
def Layered : List GateDefinition → Prop
  | [] => True
  | d :: earlier => d.Accepted (Scope.ofDefinitions earlier) ∧ Layered earlier

theorem Layered.suffix {definitions definitions' : List GateDefinition} (h : Layered definitions)
    (hs : definitions' <:+ definitions) : Layered definitions' := by
  induction definitions with
  | nil =>
    rw [List.suffix_nil.1 hs]
    exact .intro
  | cons d earlier ih =>
    rcases List.suffix_cons_iff.1 hs with rfl | hs
    · exact h
    · exact ih h.2 hs

theorem Scope.arity?_eq_none {scope : Scope} {gate : String} :
    scope.arity? gate = none ↔ signature? gate = none ∧ scope.gates.lookup gate = none := by
  simp only [Scope.arity?]
  cases signature? gate <;> simp

/-- The gate of a definition is not built in, and has the arity of that definition. -/
theorem Layered.arity?_eq {definitions : List GateDefinition} (h : Layered definitions)
    {d : GateDefinition} (hd : d ∈ definitions) :
    signature? d.name = none ∧
      (Scope.ofDefinitions definitions).arity? d.name = some d.arity := by
  induction definitions with
  | nil => cases hd
  | cons first earlier ih =>
    obtain ⟨haccepted, hearlier⟩ := h
    obtain ⟨hsignature, -⟩ := Scope.arity?_eq_none.1 haccepted.new
    rcases List.mem_cons.1 hd with rfl | hd
    · refine ⟨hsignature, ?_⟩
      simp [Scope.arity?, hsignature, Scope.ofDefinitions]
    · obtain ⟨hbuiltIn, harity⟩ := ih hearlier hd
      refine ⟨hbuiltIn, ?_⟩
      have hne : (d.name == first.name) = false := by
        rw [beq_eq_false_iff_ne]
        intro heq
        rw [heq, haccepted.new] at harity
        cases harity
      simp only [Scope.arity?, hbuiltIn, Scope.ofDefinitions] at harity ⊢
      rw [List.map_cons, List.lookup_cons, hne]
      exact harity

theorem Scope.behind_concat (scope : Scope) (statements : List Statement) (s : Statement) :
    scope.behind (statements ++ [s]) = (scope.behind statements).declare s :=
  List.foldl_concat _ _ _ _

@[simp] theorem Scope.gates_declare (scope : Scope) (s : Statement) :
    (scope.declare s).gates =
      s.definition?.toList.map (fun d => (d.name, d.arity)) ++ scope.gates := by
  obtain ⟨kind, position⟩ := s
  cases kind <;> rfl

/-- The definitions of some statements, the latest first. -/
theorem reverse_definitions_concat (statements : List Statement) (s : Statement) :
    ((statements ++ [s]).filterMap Statement.definition?).reverse =
      s.definition?.toList ++ (statements.filterMap Statement.definition?).reverse := by
  rw [List.filterMap_append, List.filterMap_cons]
  cases s.definition? <;> simp

/-- The gates that are known behind statements are those of their definitions. -/
theorem Scope.gates_behind (statements : List Statement) :
    (Scope.empty.behind statements).gates =
      (Scope.ofDefinitions (statements.filterMap Statement.definition?).reverse).gates := by
  induction statements using List.reverseRecOn with
  | nil => rfl
  | append_singleton statements s ih =>
    rw [behind_concat, gates_declare, ih, reverse_definitions_concat, ofDefinitions,
      ofDefinitions, List.map_append]

/-- What is checked of a call depends on the known gates only. -/
theorem GateCall.Accepted.congr {scope scope' : Scope} (hgates : scope'.gates = scope.gates)
    {call : GateCall} (h : call.Accepted scope) : call.Accepted scope' := by
  simp only [GateCall.Accepted, Scope.arity?] at h ⊢
  rw [hgates]
  exact h

/-- What is checked of a definition depends on the known gates only. -/
theorem GateDefinition.Accepted.congr {scope scope' : Scope} (hgates : scope'.gates = scope.gates)
    {d : GateDefinition} (h : d.Accepted scope) : d.Accepted scope' := by
  refine ⟨?_, h.formals, h.qubits, fun call hcall => (h.calls call hcall).congr hgates, h.operands⟩
  have new := h.new
  simp only [Scope.arity?] at new ⊢
  rw [hgates]
  exact new

theorem layered_of_acceptedFrom {statements rest : List Statement}
    (h : AcceptedFrom .empty (statements ++ rest)) :
    Layered (statements.filterMap Statement.definition?).reverse := by
  induction statements using List.reverseRecOn generalizing rest with
  | nil => exact .intro
  | append_singleton statements s ih =>
    rw [List.append_assoc, List.singleton_append] at h
    rw [reverse_definitions_concat]
    cases hd : s.definition? with
    | none => exact ih h
    | some d =>
      have accepted : d.Accepted (Scope.empty.behind statements) := by
        have accepted := h.accepted
        obtain ⟨kind, position⟩ := s
        cases kind with
        | gateDefinition d' =>
          cases hd
          exact accepted
        | _ => cases hd
      exact ⟨accepted.congr (Scope.gates_behind statements).symm, ih h⟩

/-! ## Gate calls -/

section Calls

variable {q c : UInt32} {p : Position}

/-- What is known of a call when its instructions are made: the gate has the numbers of angles and
qubits, and the qubits are in range. -/
structure BoundCall.Suits (call : BoundCall) (q : UInt32) (arity : Arity) : Prop where
  params : call.params.length = arity.params
  qubits : call.qubits.length = arity.qubits
  qubit_lt : ∀ qubit ∈ call.qubits, qubit.index < q

theorem BoundCall.Suits.checkArity {call : BoundCall} {arity : Arity} (h : call.Suits q arity) :
    call.checkArity p arity = .ok () :=
  BoundCall.checkArity_eq_ok.2 ⟨h.params, h.qubits⟩

/-- With the right numbers of operands, and all of them in range, an instruction is only refused
for a repeated qubit. -/
theorem exists_of_check_eq_error {i : Instruction} (hqubits : i.QubitsCounted)
    (hclbits : i.clbits.length = i.operation.clbitCount) (hq : ∀ q' ∈ i.qubits, q'.index < q)
    (hc : ∀ c' ∈ i.clbits, c'.index < c) {e : CircuitError} (h : Circuit.check q c i = .error e) :
    ∃ qubit : Qubit, firstRepeated? (i.qubits.map Qubit.index) = some qubit.index ∧
      e = .duplicateQubit qubit i.name := by
  have hvalidate := Instruction.validate_of_counted hqubits hclbits
  split at hvalidate
  · next index hindex =>
    rw [Circuit.check, hvalidate] at h
    cases h
    exact ⟨⟨index⟩, hindex, rfl⟩
  · rw [Circuit.check_of_validate hvalidate hq hc] at h
    cases h

section Made

variable {program : Program} {statement : Statement}

/-- A call of a built-in gate is only refused for a repeated qubit. -/
theorem builtIn_refusal {s : Signature} {call : BoundCall} (made : program.Makes statement call)
    (hs : signature? call.name = some s) (suits : call.Suits q ⟨s.paramCount, s.qubitCount⟩)
    {defined : BoundCall → Except ImportError (List Instruction)} {e : ImportError}
    (h : callGate q c p defined call = .error e) : program.CallRefusal statement e := by
  rw [callGate_of_builtIn hs, suits.checkArity] at h
  rcases bind_eq_error.1 h with h | ⟨⟨⟩, -, h⟩
  · cases h
  rcases bind_eq_error.1 h with h | ⟨i, -, h⟩
  swap
  · cases h
  have hbuild : (BaseGate.ofKind? s.kind call.params).isSome = true := by
    rw [BaseGate.isSome_ofKind?, beq_iff_eq]
    exact suits.params
  obtain ⟨base, hbase⟩ := Option.isSome_iff_exists.1 hbuild
  have hbuilt : BaseGate.build s.kind call.params = .ok base := by
    rw [BaseGate.build, hbase]
  obtain ⟨hkind, hangles⟩ := BaseGate.build_eq_ok.1 hbuilt
  rw [builtInInstruction, hbuilt] at h
  rcases bind_eq_error.1 h with h | ⟨_, hok, h⟩
  · cases h
  cases hok
  rcases bind_eq_error.1 h with h | ⟨_, -, h⟩
  swap
  · cases h
  obtain ⟨cause, hcause, rfl⟩ := mapError_eq_error.1 h
  have counted : (Instruction.gate ⟨base, s.controls⟩ call.qubits).QubitsCounted := suits.qubits
  obtain ⟨qubit, hrepeated, rfl⟩ :=
    exists_of_check_eq_error counted rfl suits.qubit_lt (List.forall_mem_nil _) hcause
  have hsignature : signature? call.name = some (⟨base, s.controls⟩ : Gate).signature := by
    rw [hs, Gate.signature, hkind]
  exact .repeatedQubit made hsignature hangles hrepeated

end Made

/-- A formal qubit has an actual one. -/
theorem GateDefinition.exists_actualQubit {d : GateDefinition} {qubits : List Qubit}
    (hlength : qubits.length = d.qubits.length) {o : Operand}
    (ho : ∃ formal ∈ d.qubits, o = .register formal) :
    ∃ qubit ∈ qubits, d.actualQubit p qubits o = .ok qubit := by
  obtain ⟨formal, hformal, rfl⟩ := ho
  cases hlookup : (d.qubits.zip qubits).lookup formal with
  | none =>
    rw [lookup_eq_none_iff_notMem, List.map_fst_zip (Nat.le_of_eq hlength.symm)] at hlookup
    exact absurd hformal hlookup
  | some qubit =>
    refine ⟨qubit, (List.of_mem_zip (mem_of_lookup_eq_some hlookup)).2, ?_⟩
    simp [actualQubit, hlookup]

section Body

variable {scope : Scope} {d : GateDefinition} {outer : BoundCall} {inner : GateCall}

/-- A call in the body of an accepted definition has no actual call only because an angle is too
high. -/
theorem GateDefinition.Accepted.instantiate_refusal (h : d.Accepted scope)
    (suits : outer.Suits q d.arity) (hinner : inner ∈ d.body) {e : ImportError}
    (he : d.instantiate p outer inner = .error e) :
    e = .nestingTooDeep p ∧
      ∃ angle ∈ inner.params, nestingLimit < (d.angleWith outer.params angle).depth := by
  rcases bind_eq_error.1 he with he | ⟨qubits, -, he⟩
  · obtain ⟨o, ho, hfail⟩ := exists_of_mapM_eq_error he
    obtain ⟨qubit, -, hok⟩ :=
      exists_actualQubit (p := p) suits.qubits (h.operands inner hinner o ho)
    rw [hok] at hfail
    cases hfail
  rcases bind_eq_error.1 he with he | ⟨params, -, he⟩
  · obtain ⟨angle, hangle, hfail⟩ := exists_of_mapM_eq_error he
    unfold actualAngle at hfail
    dsimp only at hfail
    split at hfail
    · next hdepth =>
      cases hfail
      exact ⟨rfl, angle, hangle, hdepth⟩
    · cases hfail
  · cases he

/-- The actual call has as many angles and qubits as the call in the body, and its qubits are among
those of the outer call. -/
theorem GateDefinition.Accepted.instantiate_suits (h : d.Accepted scope)
    (suits : outer.Suits q d.arity) (hinner : inner ∈ d.body) {bound : BoundCall}
    (hbound : d.instantiate p outer inner = .ok bound) :
    ∃ arity, scope.arity? bound.name = some arity ∧ bound.Suits q arity := by
  obtain ⟨arity, harity, hparams, hoperands⟩ := h.calls inner hinner
  obtain ⟨hname, hqubits, hparams', -⟩ := of_instantiate_eq_ok hbound
  refine ⟨arity, by rw [hname, harity], ?_, ?_, fun qubit hqubit => ?_⟩
  · rw [hparams', List.length_map, hparams]
  · exact hqubits.length_eq.symm.trans hoperands
  · obtain ⟨o, ho, hactual⟩ := exists_mem_of_forall₂ hqubits hqubit
    obtain ⟨qubit', hmem, hok⟩ :=
      exists_actualQubit (p := p) suits.qubits (h.operands inner hinner o ho)
    rw [hok] at hactual
    cases hactual
    exact suits.qubit_lt _ hmem

end Body

/-- A known gate that is not built in has a definition. -/
theorem exists_of_arity?_ofDefinitions {definitions : List GateDefinition} {gate : String}
    {arity : Arity} (h : (Scope.ofDefinitions definitions).arity? gate = some arity)
    (hnone : signature? gate = none) : gate ∈ definitions.map GateDefinition.name := by
  simp only [Scope.arity?, hnone, Scope.ofDefinitions] at h
  obtain ⟨d, hd, heq⟩ := List.mem_map.1 (mem_of_lookup_eq_some h)
  cases heq
  exact List.mem_map.2 ⟨d, hd, rfl⟩

section Made

variable {program : Program} {s : Statement}

/-- **Why a call of a defined gate has no instructions.**  The calls in a body are of gates that
are known, on qubits of the call; the induction is on the definitions that are left. -/
theorem expandDefined_refusal {definitions : List GateDefinition}
    (sub : definitions ⊆ program.definitions) (layered : Layered definitions) {call : BoundCall}
    (made : program.Makes s call) (hnone : signature? call.name = none) {arity : Arity}
    (harity : (Scope.ofDefinitions definitions).arity? call.name = some arity)
    (suits : call.Suits q arity) {e : ImportError}
    (h : expandDefined q c s.position definitions call = .error e) :
    program.CallRefusal s e := by
  induction hn : definitions.length using Nat.strongRecOn
    generalizing definitions call arity e with
  | _ n ih =>
    rcases exists_of_expandDefined_eq_error h with
      ⟨hmissing, -⟩ | ⟨d, earlier, hsuffix, hname, h⟩
    · exact absurd (exists_of_arity?_ofDefinitions harity hnone) hmissing
    have hd : d ∈ definitions := hsuffix.subset List.mem_cons_self
    have layeredHere : Layered (d :: earlier) := layered.suffix hsuffix
    obtain rfl : d.arity = arity := by
      obtain ⟨-, hdarity⟩ := layered.arity?_eq hd
      rw [hname, harity] at hdarity
      cases hdarity
      rfl
    rcases h with h | ⟨hcheck, inner, hinner, h | ⟨bound, hbound, h⟩⟩
    · rw [suits.checkArity] at h
      cases h
    · obtain ⟨rfl, angle, hangle, hdepth⟩ := layeredHere.1.instantiate_refusal suits hinner h
      exact .nesting made (sub hd) hname hinner hangle hdepth
    · have madeInside : program.Makes s bound :=
        .body made (sub hd) hname hcheck hinner hbound
      obtain ⟨arity', harity', suits'⟩ :=
        layeredHere.1.instantiate_suits suits hinner hbound
      cases hs : signature? bound.name with
      | some s =>
        simp only [Scope.arity?, hs, Option.some.injEq] at harity'
        subst harity'
        exact builtIn_refusal madeInside hs suits' h
      | none =>
        rw [callGate_of_defined hs] at h
        have shorter : earlier.length < n := by
          have hle := hsuffix.length_le
          rw [List.length_cons] at hle
          omega
        refine ih earlier.length shorter (fun x hx => sub (hsuffix.subset ?_)) layeredHere.2
          madeInside hs harity' suits' h rfl
        exact List.mem_cons_of_mem d hx

/-- Why a call of a known gate has no instructions. -/
theorem expand_refusal {definitions : List GateDefinition}
    (sub : definitions ⊆ program.definitions) (layered : Layered definitions) {call : BoundCall}
    (made : program.Makes s call) {arity : Arity}
    (harity : (Scope.ofDefinitions definitions).arity? call.name = some arity)
    (suits : call.Suits q arity) {e : ImportError}
    (h : expand q c s.position definitions call = .error e) : program.CallRefusal s e := by
  cases hs : signature? call.name with
  | some signature =>
    simp only [Scope.arity?, hs, Option.some.injEq] at harity
    subst harity
    exact builtIn_refusal made hs suits h
  | none =>
    rw [expand, callGate_of_defined hs] at h
    exact expandDefined_refusal sub layered made hs harity suits h

end Made

end Calls

/-! ## Statements -/

section Statements

variable {p : Program} {s : Statement} {l : Lowering}

/-- A quantum operand that stands for nothing. -/
theorem Program.qubits_refusal (lays : l.registers.Lays p.statements) (hs : s ∈ p.statements)
    {o : Operand} (ho : o ∈ s.quantumOperands) {e : ImportError}
    (h : l.registers.qubits s.position o = .error e) : p.Refusal e := by
  rcases Registers.exists_of_resolve_eq_error lays.quantum h with
    ⟨hname, rfl⟩ | ⟨name, index, size, rfl, hsize, hle, rfl⟩
  · exact .unresolved hs (.inl ⟨ho, hname⟩)
  · exact .index hs (.inl ⟨ho, hsize⟩) hle

/-- A classical operand that stands for nothing. -/
theorem Program.clbits_refusal (lays : l.registers.Lays p.statements) (hs : s ∈ p.statements)
    {o : Operand} (ho : o ∈ s.classicalOperands) {e : ImportError}
    (h : l.registers.clbits s.position o = .error e) : p.Refusal e := by
  rcases Registers.exists_of_resolve_eq_error lays.classical h with
    ⟨hname, rfl⟩ | ⟨name, index, size, rfl, hsize, hle, rfl⟩
  · exact .unresolved hs (.inr ⟨ho, hname⟩)
  · exact .index hs (.inr ⟨ho, hsize⟩) hle

/-- An operand of a call is a register with a size, if it has one. -/
theorem exists_register_of_size {operands : List Operand} {resolved : List Resolved}
    (lays : l.registers.Lays p.statements) {position : Position}
    (h : List.Forall₂ (fun o r => l.registers.qubits position o = .ok r) operands resolved)
    {size : Nat} (hsize : size ∈ resolved.filterMap Resolved.size?) :
    ∃ name, .register name ∈ operands ∧ (name, size) ∈ quantumSizes p.statements := by
  obtain ⟨r, hr, hsize⟩ := List.mem_filterMap.1 hsize
  obtain ⟨o, ho, hor⟩ := exists_mem_of_forall₂ h hr
  obtain ⟨name, rfl, hname⟩ := Registers.exists_of_size?_eq_some lays.quantum hor hsize
  exact ⟨name, ho, hname⟩

/-- Why a call has no instructions. -/
theorem Program.call_refusal (hrs : Registers.ofStatements p.statements = .ok l.registers)
    (hs : s ∈ p.statements) {c : GateCall} (hkind : s.kind = .call c)
    (sub : l.definitions ⊆ p.definitions) (layered : Layered l.definitions)
    (accepted : c.Accepted (Scope.ofDefinitions l.definitions)) {e : ImportError}
    (h : l.call s.position c = .error e) : p.Refusal e := by
  have lays := Registers.lays_of_ofStatements hrs
  rcases bind_eq_error.1 h with h | ⟨resolved, hresolved, h⟩
  · obtain ⟨o, ho, hfail⟩ := exists_of_mapM_eq_error h
    refine p.qubits_refusal lays hs ?_ hfail
    rw [Statement.quantumOperands, hkind]
    exact ho
  have each := mapM_eq_ok.1 hresolved
  split at h
  · next hcount =>
    cases h
    obtain ⟨size, hsize, size', hsize', hne⟩ := exists_of_commonSize?_eq_none hcount
    obtain ⟨name, hname, hdeclared⟩ := exists_register_of_size lays each hsize
    obtain ⟨name', hname', hdeclared'⟩ := exists_register_of_size lays each hsize'
    exact .callSizes hs hkind hname hdeclared hname' hdeclared' hne
  · next count hcount =>
    obtain ⟨i, -, hi, hexpand⟩ := exists_of_forEachIndex_eq_error h
    rw [Nat.zero_add] at hi
    obtain ⟨arity, harity, hparams, hoperands⟩ := accepted
    have made := Program.Makes.statement hs hkind hrs hresolved hcount hi
    refine .call hs (expand_refusal sub layered made harity ⟨hparams, ?_, ?_⟩ hexpand)
    · rw [List.length_map, ← each.length_eq, hoperands]
    · intro qubit hqubit
      obtain ⟨r, hr, rfl⟩ := List.mem_map.1 hqubit
      obtain ⟨o, -, ho⟩ := exists_mem_of_forall₂ each hr
      refine toUInt32_lt (Registers.bitAt_lt lays.qubits ho fun size hsize => ?_)
        lays.qubitCount_lt
      have hmem : size ∈ resolved.filterMap Resolved.size? := List.mem_filterMap.2 ⟨r, hr, hsize⟩
      rcases commonSize?_eq_some hcount with ⟨hnil, -⟩ | ⟨-, hall⟩
      · rw [hnil] at hmem
        cases hmem
      · rw [hall size hmem]
        exact hi

/-- Why a measurement has no instructions. -/
theorem Program.measure_refusal (lays : l.registers.Lays p.statements) (hs : s ∈ p.statements)
    {qubit clbit : Operand} (hkind : s.kind = .measure qubit clbit) {e : ImportError}
    (h : l.measure s.position qubit clbit = .error e) : p.Refusal e := by
  rcases bind_eq_error.1 h with h | ⟨source, hsource, h⟩
  · refine p.qubits_refusal lays hs ?_ h
    rw [Statement.quantumOperands, hkind]
    exact List.mem_singleton_self qubit
  rcases bind_eq_error.1 h with h | ⟨target, htarget, h⟩
  · refine p.clbits_refusal lays hs ?_ h
    rw [Statement.classicalOperands, hkind]
    exact List.mem_singleton_self clbit
  have emits {i : Nat} (hi : ∀ size, source.size? = some size → i < size)
      (hi' : ∀ size, target.size? = some size → i < size) :
      l.emit (.measure ⟨(source.bitAt i).toUInt32⟩ ⟨(target.bitAt i).toUInt32⟩) ≠ .error e := by
    rw [Lowering.emit_of_fits]
    · simp
    · refine ⟨rfl, rfl, List.nodup_singleton _, ?_, ?_⟩
      · rw [Instruction.measure, List.forall_mem_singleton]
        exact toUInt32_lt (Registers.bitAt_lt lays.qubits hsource hi) lays.qubitCount_lt
      · rw [Instruction.measure, List.forall_mem_singleton]
        exact toUInt32_lt (Registers.bitAt_lt lays.clbits htarget hi') lays.clbitCount_lt
  dsimp only at h
  have hq := Registers.resolve_eq_ok.1 hsource
  have hc := Registers.resolve_eq_ok.1 htarget
  rcases hq with ⟨name, q, rfl, hlookup, rfl⟩ | ⟨name, index, q, rfl, -, -, rfl⟩ <;>
    rcases hc with ⟨name', c, rfl, hlookup', rfl⟩ | ⟨name', index', c, rfl, -, -, rfl⟩
  · -- Two registers are measured bit by bit when they are of one size.
    dsimp only at h
    split at h
    · next hsize =>
      obtain ⟨i, -, hi, hemit⟩ := exists_of_forEachIndex_eq_error h
      rw [Nat.zero_add] at hi
      refine absurd hemit (emits (fun size hq => ?_) (fun size hc => ?_))
      · cases hq
        exact hi
      · cases hc
        rwa [← hsize]
    · next hsize =>
      cases h
      exact .measureSizes hs hkind (Registers.mem_sizes_of_lookup lays.quantum hlookup)
        (Registers.mem_sizes_of_lookup lays.classical hlookup') hsize
  · cases h
    exact .measureMixed hs hkind (.inl ⟨rfl, rfl⟩)
  · cases h
    exact .measureMixed hs hkind (.inr ⟨rfl, rfl⟩)
  · exact absurd h (emits (fun size hsize => by cases hsize) (fun size hsize => by cases hsize))

/-- Why a reset has no instructions. -/
theorem Program.reset_refusal (lays : l.registers.Lays p.statements) (hs : s ∈ p.statements)
    {target : Operand} (hkind : s.kind = .reset target) {e : ImportError}
    (h : l.reset s.position target = .error e) : p.Refusal e := by
  rcases bind_eq_error.1 h with h | ⟨resolved, hresolved, h⟩
  · refine p.qubits_refusal lays hs ?_ h
    rw [Statement.quantumOperands, hkind]
    exact List.mem_singleton_self target
  obtain ⟨i, -, hi, hemit⟩ := exists_of_forEachIndex_eq_error h
  rw [Nat.zero_add] at hi
  rw [Lowering.emit_of_fits] at hemit
  · cases hemit
  · refine ⟨rfl, rfl, List.nodup_singleton _, ?_, List.forall_mem_nil _⟩
    rw [Instruction.reset, List.forall_mem_singleton]
    refine toUInt32_lt (Registers.bitAt_lt lays.qubits hresolved fun size hsize => ?_)
      lays.qubitCount_lt
    rwa [hsize] at hi

/-- Why a barrier has no instructions.  Its bits are taken once each, so none is repeated. -/
theorem Program.barrier_refusal (lays : l.registers.Lays p.statements) (hs : s ∈ p.statements)
    {targets : List Operand} (hkind : s.kind = .barrier targets) (hne : targets ≠ [])
    {e : ImportError} (h : l.barrier s.position targets = .error e) : p.Refusal e := by
  rcases bind_eq_error.1 h with h | ⟨resolved, hresolved, h⟩
  · obtain ⟨o, ho, hfail⟩ := exists_of_mapM_eq_error h
    refine p.qubits_refusal lays hs ?_ hfail
    rw [Statement.quantumOperands, hkind]
    exact ho
  rw [mapM_eq_ok] at hresolved
  have hlt : ∀ bit ∈ distinct (resolved.flatMap Resolved.bits), bit < l.registers.qubitCount := by
    intro bit hbit
    rw [mem_distinct, List.mem_flatMap] at hbit
    obtain ⟨r, hr, hbit⟩ := hbit
    obtain ⟨o, -, ho⟩ := exists_mem_of_forall₂ hresolved hr
    exact (Registers.bits_lt lays.qubits ho).2 bit hbit
  have hbits : distinct (resolved.flatMap Resolved.bits) ≠ [] := by
    obtain ⟨o, others, rfl⟩ := List.exists_cons_of_ne_nil hne
    obtain ⟨r, rest, ho, -, rfl⟩ := List.forall₂_cons_left_iff.1 hresolved
    obtain ⟨bit, hbit⟩ := List.exists_mem_of_ne_nil _ (Registers.bits_lt lays.qubits ho).1
    have hmem : bit ∈ distinct ((r :: rest).flatMap Resolved.bits) :=
      mem_distinct.2 (List.mem_flatMap.2 ⟨r, List.mem_cons_self, hbit⟩)
    exact List.ne_nil_of_mem hmem
  dsimp only at h
  rw [Lowering.emit_of_fits] at h
  · cases h
  · refine ⟨?_, rfl, ?_, ?_, List.forall_mem_nil _⟩
    · show List.map _ _ ≠ []
      rwa [ne_eq, List.map_eq_nil_iff]
    · rw [Instruction.barrier, List.map_map]
      refine (List.nodup_map_iff_inj_on nodup_distinct).2 fun a ha b hb hab => ?_
      exact toUInt32_inj (Nat.lt_trans (hlt a ha) lays.qubitCount_lt)
        (Nat.lt_trans (hlt b hb) lays.qubitCount_lt) hab
    · intro qubit hqubit
      obtain ⟨bit, hbit, rfl⟩ := List.mem_map.1 hqubit
      exact toUInt32_lt (hlt bit hbit) lays.qubitCount_lt

/-- A gate has an arity exactly when it is known. -/
theorem Lowering.knows_eq (gate : String) :
    l.knows gate = ((Scope.ofDefinitions l.definitions).arity? gate).isSome := by
  simp only [knows, isBuiltIn, Scope.arity?]
  cases signature? gate with
  | some s => rfl
  | none =>
    rw [Bool.eq_iff_iff, Option.isSome_none, Bool.false_or, List.any_eq_true,
      Option.isSome_iff_ne_none, ne_eq, lookup_eq_none_iff_notMem, not_not, Scope.ofDefinitions,
      List.map_map, List.mem_map]
    simp only [beq_iff_eq, Function.comp_apply]

/-- An accepted definition is not refused. -/
theorem Lowering.define_ne_error {d : GateDefinition} {position : Position}
    (accepted : d.Accepted (Scope.ofDefinitions l.definitions)) (e : ImportError) :
    l.define position d ≠ .error e := by
  have hdefine : l.define position d = .ok { l with definitions := d :: l.definitions } := by
    refine define_eq_ok.2 ⟨?_, fun call hcall => ?_, rfl⟩
    · rw [knows_eq, accepted.new]
      rfl
    · obtain ⟨arity, harity, -⟩ := accepted.calls call hcall
      rw [knows_eq, harity]
      rfl
  rw [hdefine]
  simp

/-- Why a statement of a parsed program has no instructions. -/
theorem Program.statement_refusal
    (hrs : Registers.ofStatements p.statements = .ok l.registers)
    {before after : List Statement} (hp : p.statements = before ++ s :: after)
    (hdefinitions : l.definitions = (before.filterMap Statement.definition?).reverse)
    (accepted : AcceptedFrom .empty p.statements) {e : ImportError}
    (h : l.statement s = .error e) : p.Refusal e := by
  have lays := Registers.lays_of_ofStatements hrs
  have hs : s ∈ p.statements := by
    rw [hp]
    exact List.mem_append_right before List.mem_cons_self
  have sub : l.definitions ⊆ p.definitions := by
    intro d hd
    rw [hdefinitions, List.mem_reverse] at hd
    rw [definitions, hp, List.filterMap_append]
    exact List.mem_append_left _ hd
  rw [hp] at accepted
  have layered : Layered l.definitions := by
    rw [hdefinitions]
    exact layered_of_acceptedFrom accepted
  have here : s.Accepted (Scope.empty.behind before) := accepted.accepted
  have hgates : (Scope.ofDefinitions l.definitions).gates = (Scope.empty.behind before).gates := by
    rw [hdefinitions]
    exact (Scope.gates_behind before).symm
  obtain ⟨kind, position⟩ := s
  cases kind with
  | qreg | creg => cases h
  | gateDefinition d =>
    rw [Lowering.statement_gateDefinition, map_eq_error] at h
    exact absurd h (Lowering.define_ne_error (here.congr hgates) e)
  | call call =>
    rw [Lowering.statement_call, map_eq_error] at h
    exact call_refusal hrs hs rfl sub layered (here.congr hgates) h
  | measure qubit clbit =>
    rw [Lowering.statement_measure, map_eq_error] at h
    exact measure_refusal lays hs rfl h
  | reset target =>
    rw [Lowering.statement_reset, map_eq_error] at h
    exact reset_refusal lays hs rfl h
  | barrier targets =>
    rw [Lowering.statement_barrier, map_eq_error] at h
    exact barrier_refusal lays hs rfl here h

end Statements

/-! ## Declarations -/

@[simp] theorem Scope.registers_declare (scope : Scope) (s : Statement) :
    (scope.declare s).registers =
      (s.quantumRegister?.toList ++ s.classicalRegister?.toList).map Prod.fst ++
        scope.registers := by
  obtain ⟨kind, position⟩ := s
  cases kind <;> rfl

/-- The register names that are known behind statements are those that are declared in them. -/
@[simp] theorem Scope.mem_registers_behind {statements : List Statement} {name : String} :
    name ∈ (Scope.empty.behind statements).registers ↔
      name ∈ (quantumSizes statements ++ classicalSizes statements).map Prod.fst := by
  induction statements using List.reverseRecOn with
  | nil => exact Iff.rfl
  | append_singleton statements s ih =>
    rw [behind_concat, registers_declare, List.mem_append, ih, Registers.quantumSizes_concat,
      Registers.classicalSizes_concat]
    simp only [List.map_append, List.mem_append]
    tauto

/-- Of the checks of a declaration, only the one on the total size can fail: the parser has looked
at the name and at the size itself. -/
theorem Registers.Lays.check_refusal {rs : Registers} {before : List Statement}
    (lays : rs.Lays before) {p : Position} {name : String} {size : UInt32} {used : Nat}
    (hname : name ∉ (Scope.empty.behind before).registers) (hpos : 0 < size.toNat)
    {e : ImportError} (h : rs.check p name size used = .error e) :
    UInt32.size ≤ used + size.toNat ∧ e = .invalidRegisterSize p name size.toNat := by
  rcases Registers.check_eq_error h with hcontains | ⟨hsize, rfl⟩
  · exact absurd (Scope.mem_registers_behind.2 ((lays.contains_eq name).1 hcontains)) hname
  · exact ⟨hsize.resolve_left (Nat.ne_of_gt hpos), rfl⟩

/-- Why the registers of a parsed program cannot be laid out. -/
theorem Program.declare_refusal {p : Program} {before after : List Statement} {s : Statement}
    (hp : p.statements = before ++ s :: after) (accepted : AcceptedFrom .empty p.statements)
    {rs : Registers} (lays : rs.Lays before) {e : ImportError} (h : rs.declare s = .error e) :
    p.Refusal e := by
  have hs : s ∈ p.statements := by
    rw [hp]
    exact List.mem_append_right before List.mem_cons_self
  rw [hp] at accepted
  have here : s.Accepted (Scope.empty.behind before) := accepted.accepted
  simp only [Registers.declare] at h
  simp only [Statement.Accepted] at here
  split at h
  · next name size hkind =>
    rw [hkind] at here
    rcases bind_eq_error.1 h with h | ⟨_, -, h⟩
    · obtain ⟨hle, rfl⟩ := lays.check_refusal here.1 here.2 h
      have hq : s.quantumRegister? = some (name, size.toNat) := by
        rw [Statement.quantumRegister?, hkind]
      refine .size hs (.inl ⟨hq, ?_⟩)
      rw [hp, Registers.quantumSizes_split, hq, Option.toList_some, List.singleton_append,
        List.map_append, List.sum_append, List.map_cons, List.sum_cons, ← lays.qubitCount]
      omega
    · cases h
  · next name size hkind =>
    rw [hkind] at here
    rcases bind_eq_error.1 h with h | ⟨_, -, h⟩
    · obtain ⟨hle, rfl⟩ := lays.check_refusal here.1 here.2 h
      have hc : s.classicalRegister? = some (name, size.toNat) := by
        rw [Statement.classicalRegister?, hkind]
      refine .size hs (.inr ⟨hc, ?_⟩)
      rw [hp, Registers.classicalSizes_split, hc, Option.toList_some, List.singleton_append,
        List.map_append, List.sum_append, List.map_cons, List.sum_cons, ← lays.clbitCount]
      omega
    · cases h
  · cases h

/-- **A parsed program has a circuit, or one of the reasons holds.**  No check of the two passes
fails that the parser has made already: gates are known and get the right numbers of arguments, no
name is declared twice, and of the checks of the circuit only the one for a repeated qubit of a gate
can fail. -/
theorem Program.refusal_of_parse {source : String} {rule : HeaderRule} {p : Program}
    (hp : Program.parse source rule = .ok p) {e : ImportError} (h : p.toCircuit = .error e) :
    p.Refusal e ∧ (∀ position gate, e ≠ .unknownGate position gate) ∧
      (∀ position gate expected got, e ≠ .wrongParamCount position gate expected got) ∧
      (∀ position gate expected got, e ≠ .wrongQubitCount position gate expected got) ∧
      (∀ position name, e ≠ .duplicateDeclaration position name) ∧
      ∀ cause, e = .circuit cause →
        ∃ qubit gate, cause = .duplicateQubit qubit (Gate.name gate) := by
  have accepted := acceptedFrom_of_parse hp
  have refusal : p.Refusal e := by
    rcases bind_eq_error.1 h with h | ⟨rs, hrs, h⟩
    · obtain ⟨before, s, after, rs, hstatements, hrs, hs⟩ :=
        Registers.exists_of_ofStatements_eq_error h
      exact declare_refusal hstatements accepted (Registers.lays_of_ofStatements hrs) hs
    rcases bind_eq_error.1 h with h | ⟨_, -, h⟩
    · obtain ⟨before, s, after, hstatements, hs⟩ := Lowering.exists_of_statements_eq_error h
      exact statement_refusal hrs hstatements (List.append_nil _) accepted hs
    · cases h
  refine ⟨refusal, ?_⟩
  cases refusal with
  | call _ hcall => cases hcall <;> simp
  | _ => simp

/-- A qubit is given to both operands of a defined gate. -/
theorem Program.refusal_repeatedQubit :
    ∃ p e, Program.parse "qreg q[2]; gate both u,v \x7b cx u,v; \x7d both q[1],q[1];" .optional =
      .ok p ∧ p.toCircuit = .error e ∧ e = .circuit (.duplicateQubit ⟨1⟩ "CX") ∧ p.Refusal e := by
  let p : Program := ⟨none, [⟨.qreg "q" 2, ⟨1, 1⟩⟩,
    ⟨.gateDefinition ⟨"both", [], ["u", "v"],
      [⟨"cx", [], [.register "u", .register "v"]⟩]⟩, ⟨1, 12⟩⟩,
    ⟨.call ⟨"both", [], [.element "q" 1, .element "q" 1]⟩, ⟨1, 38⟩⟩]⟩
  have hp : Program.parse "qreg q[2]; gate both u,v \x7b cx u,v; \x7d both q[1],q[1];" .optional =
      .ok p := by cbv
  have h : p.toCircuit = .error (.circuit (.duplicateQubit ⟨1⟩ "CX")) := rfl
  exact ⟨p, _, hp, h, rfl, (refusal_of_parse hp h).1⟩

end FlatQasm
