import FlatQasm.Proofs.Program.Lowering

/-!
# The calls that a program makes

A program calls the gates of its statements, and with the call of a defined gate it makes those of
the body, with the angles of the call in place of the formal ones.  Every instruction that the
second pass gives fits the circuit, and the gate of an instruction is one that the program calls,
with the angle of that call.  So what holds of the angles of statements, and is kept from a call to
the calls of a body, holds of the angles of a circuit.

## Main definitions

* `Program.Invokes` — the calls that a program makes, with their angles.
* `Program.Makes` — the calls that a statement makes, with their angles and qubits.
* `Program.Emits` — what the second pass ensures of an instruction.

## Main statements

* `Program.Makes.invokes` — what a statement calls is called by the program.
* `Program.emits_of_expandDefined` — the instructions of a call of a defined gate.
* `Program.emits_of_statements` — the instructions of statements, one after another.
* `Program.emits_of_toCircuit` — every instruction of a program's circuit.
-/

namespace FlatQasm

/-! ## Calls -/

/-- The calls that a program makes, each by the name of its gate and with its angles: those of its
statements, and with a call of a defined gate those of the body. -/
inductive Program.Invokes (p : Program) : String → List Angle → Prop
  | statement {s : Statement} {call : GateCall} : s ∈ p.statements → s.kind = .call call →
      p.Invokes call.name call.params
  | body {d : GateDefinition} {args : List Angle} {inner : GateCall} : d ∈ p.definitions →
      p.Invokes d.name args → args.length = d.params.length → inner ∈ d.body →
      (∀ f ∈ inner.params.map (d.angleWith args), f.depth ≤ nestingLimit) →
      p.Invokes inner.name (inner.params.map (d.angleWith args))

/-- The calls that a statement makes on its way to instructions, with the angles and qubits that
they have there: its own call for each index of the broadcast, and with the call of a defined gate
those of the body.  A call of the body is only made when the numbers of operands are right and none
of its angles is too high. -/
inductive Program.Makes (p : Program) (s : Statement) : BoundCall → Prop
  | statement {call : GateCall} {rs : Registers} {resolved : List Resolved} {count i : Nat} :
      s ∈ p.statements → s.kind = .call call → Registers.ofStatements p.statements = .ok rs →
      call.operands.mapM (rs.qubits s.position) = .ok resolved →
      commonSize? resolved = some count → i < count →
      p.Makes s ⟨call.name, call.params, resolved.map fun r => ⟨(r.bitAt i).toUInt32⟩⟩
  | body {d : GateDefinition} {outer bound : BoundCall} {inner : GateCall} :
      p.Makes s outer → d ∈ p.definitions → d.name = outer.name →
      outer.checkArity s.position d.arity = .ok () → inner ∈ d.body →
      d.instantiate s.position outer inner = .ok bound → p.Makes s bound

/-- What the second pass ensures of an instruction. -/
structure Program.Emits (p : Program) (qubits clbits : UInt32) (i : Instruction) : Prop where
  fits : i.Fits qubits clbits
  invoked : ∀ g, i.operation = .gate g → p.Invokes g.mnemonic g.base.angle?.toList

namespace Program

variable {p : Program}

/-- **What a statement calls is called by the program**, with the same angles. -/
theorem Makes.invokes {s : Statement} {call : BoundCall} (h : p.Makes s call) :
    p.Invokes call.name call.params := by
  induction h with
  | statement hs hkind => exact .statement hs hkind
  | @body d outer bound inner _ hd hname harity hinner hbound ih =>
    obtain ⟨hargs, -⟩ := BoundCall.checkArity_eq_ok.1 harity
    obtain ⟨hboundName, -, hparams, hdepth⟩ := GateDefinition.of_instantiate_eq_ok hbound
    rw [hparams] at hdepth
    rw [← hname] at ih
    rw [hboundName, hparams]
    exact .body hd ih hargs hinner hdepth

section Calls

variable {q c : UInt32} {position : Position} {call : BoundCall}

/-- A built-in gate is the gate that is called. -/
theorem emits_of_builtInInstruction {s : Signature} (hs : signature? call.name = some s)
    (hcall : p.Invokes call.name call.params) {i : Instruction}
    (h : builtInInstruction q c s call = .ok i) : p.Emits q c i := by
  obtain ⟨base, hbase, h⟩ := bind_eq_ok.1 h
  obtain ⟨⟨⟩, hcheck, heq⟩ := bind_eq_ok.1 h
  cases heq
  obtain ⟨hkind, hangles⟩ := BaseGate.build_eq_ok.1 (mapError_eq_ok.1 hbase)
  refine ⟨Circuit.check_eq_ok.1 (mapError_eq_ok.1 hcheck), fun g hg => ?_⟩
  cases hg
  have hsignature : (⟨base, s.controls⟩ : Gate).signature = s := by rw [Gate.signature, hkind]
  rw [Gate.mnemonic, hsignature, Signature.mnemonic_of_signature? hs, hangles]
  exact hcall

theorem emits_of_callGate {defined : BoundCall → Except ImportError (List Instruction)}
    (hdefined : ∀ out, defined call = .ok out → ∀ i ∈ out, p.Emits q c i)
    (hcall : p.Invokes call.name call.params) {out : List Instruction}
    (h : callGate q c position defined call = .ok out) : ∀ i ∈ out, p.Emits q c i := by
  cases hs : signature? call.name with
  | none =>
    rw [callGate_of_defined hs] at h
    exact hdefined out h
  | some s =>
    rw [callGate_of_builtIn hs] at h
    obtain ⟨_, -, h⟩ := bind_eq_ok.1 h
    obtain ⟨i, hi, heq⟩ := bind_eq_ok.1 h
    cases heq
    exact List.forall_mem_singleton.2 (emits_of_builtInInstruction hs hcall hi)

/-- The instructions of a call of a defined gate; the induction is on the definitions that are left
for the calls of the body. -/
theorem emits_of_expandDefined {definitions : List GateDefinition}
    (sub : definitions ⊆ p.definitions) (hcall : p.Invokes call.name call.params)
    {out : List Instruction} (h : expandDefined q c position definitions call = .ok out) :
    ∀ i ∈ out, p.Emits q c i := by
  induction hn : definitions.length using Nat.strongRecOn generalizing definitions call out with
  | _ n ih =>
    obtain ⟨d, earlier, lists, hsuffix, hname, harity, hbody, rfl⟩ :=
      exists_of_expandDefined_eq_ok h
    have hd : d ∈ p.definitions := sub (hsuffix.subset List.mem_cons_self)
    have subEarlier : earlier ⊆ p.definitions := fun x hx =>
      sub (hsuffix.subset (List.mem_cons_of_mem d hx))
    have shorter : earlier.length < n := by
      have hlength := hsuffix.length_le
      rw [List.length_cons] at hlength
      omega
    obtain ⟨hargs, -⟩ := BoundCall.checkArity_eq_ok.1 harity
    rw [← hname] at hcall
    intro i hi
    obtain ⟨is, his, hi⟩ := List.mem_flatten.1 hi
    obtain ⟨inner, hinner, bound, hbound, his⟩ := exists_mem_of_forall₂ hbody his
    obtain ⟨hboundName, -, hboundParams, hdepth⟩ := GateDefinition.of_instantiate_eq_ok hbound
    have hinvoked : p.Invokes bound.name bound.params := by
      rw [hboundName, hboundParams]
      rw [hboundParams] at hdepth
      exact .body hd hcall hargs hinner hdepth
    refine emits_of_callGate (fun is' his' => ?_) hinvoked his i hi
    exact ih earlier.length shorter subEarlier hinvoked his' rfl

end Calls

/-! ## Statements -/

variable {l : Lowering}

theorem emits_of_emit {i : Instruction} (hgate : i.gate? = none) {out : List Instruction}
    (h : l.emit i = .ok out) : ∀ j ∈ out, p.Emits l.qubitCount l.clbitCount j := by
  obtain ⟨⟨⟩, hcheck, heq⟩ := bind_eq_ok.1 h
  cases heq
  refine List.forall_mem_singleton.2 ⟨Circuit.check_eq_ok.1 (mapError_eq_ok.1 hcheck), ?_⟩
  intro g hg
  rw [Instruction.gate?, hg] at hgate
  cases hgate

theorem emits_of_measure {position : Position} {qubit clbit : Operand} {out : List Instruction}
    (h : l.measure position qubit clbit = .ok out) :
    ∀ i ∈ out, p.Emits l.qubitCount l.clbitCount i := by
  simp only [Lowering.measure] at h
  obtain ⟨source, -, h⟩ := bind_eq_ok.1 h
  obtain ⟨target, -, h⟩ := bind_eq_ok.1 h
  split at h
  · exact emits_of_emit rfl h
  · split at h
    · exact forall_mem_of_forEachIndex (fun i here hhere => emits_of_emit rfl hhere) h
    · cases h
  · cases h

theorem emits_of_call {s : Statement} {call : GateCall} (hs : s ∈ p.statements)
    (hkind : s.kind = .call call) (sub : l.definitions ⊆ p.definitions) {position : Position}
    {out : List Instruction} (h : l.call position call = .ok out) :
    ∀ i ∈ out, p.Emits l.qubitCount l.clbitCount i := by
  simp only [Lowering.call] at h
  obtain ⟨resolved, -, h⟩ := bind_eq_ok.1 h
  split at h
  · cases h
  · refine forall_mem_of_forEachIndex (fun i here hhere => ?_) h
    have hcall : p.Invokes call.name call.params := .statement hs hkind
    exact emits_of_callGate (fun _ hout => emits_of_expandDefined sub hcall hout) hcall hhere

/-- The instructions of a statement behind others. -/
theorem emits_of_statement {l' : Lowering} {s : Statement} (hs : s ∈ p.statements)
    (sub : l.definitions ⊆ p.definitions) {here : List Instruction}
    (h : l.statement s = .ok (l', here)) : ∀ i ∈ here, p.Emits l.qubitCount l.clbitCount i := by
  obtain ⟨kind, position⟩ := s
  cases kind with
  | qreg | creg =>
    cases h
    exact List.forall_mem_nil _
  | gateDefinition d =>
    rw [Lowering.statement_gateDefinition, map_eq_ok] at h
    obtain ⟨_, -, heq⟩ := h
    cases heq
    exact List.forall_mem_nil _
  | call call =>
    rw [Lowering.statement_call, map_eq_ok] at h
    obtain ⟨_, hcall, heq⟩ := h
    cases heq
    exact emits_of_call hs rfl sub hcall
  | measure qubit clbit =>
    rw [Lowering.statement_measure, map_eq_ok] at h
    obtain ⟨_, hmeasure, heq⟩ := h
    cases heq
    exact emits_of_measure hmeasure
  | reset target =>
    rw [Lowering.statement_reset, map_eq_ok] at h
    obtain ⟨_, hreset, heq⟩ := h
    cases heq
    obtain ⟨resolved, -, hreset⟩ := bind_eq_ok.1 hreset
    exact forall_mem_of_forEachIndex (fun i here hhere => emits_of_emit rfl hhere) hreset
  | barrier targets =>
    rw [Lowering.statement_barrier, map_eq_ok] at h
    obtain ⟨_, hbarrier, heq⟩ := h
    cases heq
    obtain ⟨resolved, -, hbarrier⟩ := bind_eq_ok.1 hbarrier
    exact emits_of_emit rfl hbarrier

/-- The instructions of statements, one after another. -/
theorem emits_of_statements {statements : List Statement} (part : statements ⊆ p.statements)
    (sub : l.definitions ⊆ p.definitions) {out : List Instruction}
    (h : l.statements statements = .ok out) :
    ∀ i ∈ out, p.Emits l.qubitCount l.clbitCount i := by
  induction statements generalizing l out with
  | nil =>
    cases h
    exact List.forall_mem_nil _
  | cons s rest ih =>
    obtain ⟨l', here, hhere, others, hothers, rfl⟩ := Lowering.statements_cons_eq_ok.1 h
    obtain ⟨hs, partRest⟩ := List.cons_subset.1 part
    obtain ⟨hregisters, -⟩ := Lowering.definitions_of_statement hhere
    have behind := ih partRest (definitions_subset sub hs hhere) hothers
    rw [Lowering.qubitCount, Lowering.clbitCount, hregisters] at behind
    exact List.forall_mem_append.2 ⟨emits_of_statement hs sub hhere, behind⟩

/-- **Every instruction of a program's circuit fits the circuit, and its gate is one that the
program calls.** -/
theorem emits_of_toCircuit {c : Circuit} (h : p.toCircuit = .ok c) :
    ∀ i ∈ c.instructions, p.Emits c.qubitCount c.clbitCount i := by
  obtain ⟨rs, -, h⟩ := bind_eq_ok.1 h
  obtain ⟨instructions, hinstructions, heq⟩ := bind_eq_ok.1 h
  cases heq
  exact emits_of_statements (List.Subset.refl _) (List.nil_subset _) hinstructions

end Program

end FlatQasm
