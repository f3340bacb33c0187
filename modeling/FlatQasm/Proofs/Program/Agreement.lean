import FlatQasm.Program.Import
import FlatQasm.Proofs.Grammar.Agreement

/-!
# Circuits of programs at other places

What a program is turned into does not depend on the positions of its statements, and neither does
whether it can be turned into a circuit.  An error has the position of a statement or none.

## Main statements

* `agree_expand` — the call of a gate.
* `Lowering.agree_statements` — the instructions of statements.
* `agree_toCircuit` — the circuit of a program.
* `agree_ofTokens` — the circuit of tokens.
-/

namespace FlatQasm

variable {r : Located → Located → Prop} {p p' : Position}

/-! ## Registers -/

section Places

variable (hp : Placed r p p')
include hp

namespace Registers

theorem agree_check (rs : Registers) (name : String) (size : UInt32) (used : Nat) :
    Agree r Eq (rs.check p name size used) (rs.check p' name size used) := by
  rw [check, check]
  split
  · exact .error (.placed hp rfl rfl)
  · split
    · exact .error (.placed hp rfl rfl)
    · exact .ok rfl

theorem agree_resolve (registers : List (String × Register)) (operand : Operand) :
    Agree r Eq (resolve registers p operand) (resolve registers p' operand) := by
  rw [resolve, resolve]
  cases registers.lookup operand.name with
  | none => exact .error (.placed hp rfl rfl)
  | some register =>
    cases operand with
    | register => exact .ok rfl
    | element name index =>
      dsimp only
      split
      · exact .ok rfl
      · exact .error (.placed hp rfl rfl)

end Registers

/-! ## Gate calls -/

theorem BoundCall.agree_checkArity (call : BoundCall) (arity : Arity) :
    Agree r Eq (call.checkArity p arity) (call.checkArity p' arity) := by
  rw [checkArity, checkArity]
  split
  · exact .error (.placed hp rfl rfl)
  · split
    · exact .error (.placed hp rfl rfl)
    · exact .ok rfl

namespace GateDefinition

theorem agree_actualQubit (d : GateDefinition) (qubits : List Qubit) (operand : Operand) :
    Agree r Eq (d.actualQubit p qubits operand) (d.actualQubit p' qubits operand) := by
  cases operand with
  | register formal =>
    rw [actualQubit, actualQubit]
    cases (d.qubits.zip qubits).lookup formal with
    | none => exact .error (.placed hp rfl rfl)
    | some q => exact .ok rfl
  | element => exact .error (.placed hp rfl rfl)

theorem agree_actualAngle (d : GateDefinition) (params : List Angle) (e : Angle) :
    Agree r Eq (d.actualAngle p params e) (d.actualAngle p' params e) := by
  rw [actualAngle, actualAngle]
  split
  · exact .error (.placed hp rfl rfl)
  · exact .ok rfl

theorem agree_instantiate (d : GateDefinition) (outer : BoundCall) (inner : GateCall) :
    Agree r Eq (d.instantiate p outer inner) (d.instantiate p' outer inner) :=
  (agree_mapM inner.operands (agree_actualQubit hp d outer.qubits)).next fun _ =>
    (agree_mapM inner.params (agree_actualAngle hp d outer.params)).next fun _ => .ok rfl

end GateDefinition

variable (qubitCount clbitCount : UInt32)

omit hp in
theorem agree_builtInInstruction (signature : Signature) (call : BoundCall) :
    Agree r Eq (builtInInstruction qubitCount clbitCount signature call)
      (builtInInstruction qubitCount clbitCount signature call) :=
  (Agree.refl_circuit _).next fun _ => (Agree.refl_circuit _).next fun _ => .ok rfl

theorem agree_callGate {defined defined' : BoundCall → Except ImportError (List Instruction)}
    (hdefined : ∀ call, Agree r Eq (defined call) (defined' call)) (call : BoundCall) :
    Agree r Eq (callGate qubitCount clbitCount p defined call)
      (callGate qubitCount clbitCount p' defined' call) := by
  rw [callGate, callGate]
  cases signature? call.name with
  | some signature =>
    exact (BoundCall.agree_checkArity hp call _).next fun _ =>
      (agree_builtInInstruction qubitCount clbitCount signature call).next fun _ => .ok rfl
  | none => exact hdefined call

theorem agree_expandDefined (definitions : List GateDefinition) (call : BoundCall) :
    Agree r Eq (expandDefined qubitCount clbitCount p definitions call)
      (expandDefined qubitCount clbitCount p' definitions call) := by
  induction definitions generalizing call with
  | nil => exact .error (.placed hp rfl rfl)
  | cons d earlier ih =>
    by_cases hname : d.name = call.name
    · rw [expandDefined_of_name_eq hname, expandDefined_of_name_eq hname]
      refine (BoundCall.agree_checkArity hp call d.arity).next fun _ => ?_
      refine (agree_mapM d.body fun inner => ?_).next fun _ => .ok rfl
      exact (GateDefinition.agree_instantiate hp d call inner).next fun bound =>
        agree_callGate hp qubitCount clbitCount ih bound
    · rw [expandDefined_of_name_ne hname, expandDefined_of_name_ne hname]
      exact ih call

/-- **The call of a gate** at other places. -/
theorem agree_expand (definitions : List GateDefinition) (call : BoundCall) :
    Agree r Eq (expand qubitCount clbitCount p definitions call)
      (expand qubitCount clbitCount p' definitions call) :=
  agree_callGate hp qubitCount clbitCount
    (agree_expandDefined hp qubitCount clbitCount definitions) call

/-! ## Statements -/

omit hp in
theorem agree_forEachIndex {α : Type} {f g : Nat → Except ImportError (List α)}
    (h : ∀ i, Agree r Eq (f i) (g i)) (count first : Nat) :
    Agree r Eq (forEachIndex f count first) (forEachIndex g count first) := by
  induction count generalizing first with
  | zero => exact .ok rfl
  | succ count ih => exact (h first).next fun _ => (ih (first + 1)).next fun _ => .ok rfl

namespace Lowering

variable (l : Lowering)

omit hp in
theorem agree_emit (i : Instruction) : Agree r Eq (l.emit i) (l.emit i) :=
  (Agree.refl_circuit _).next fun _ => .ok rfl

theorem agree_define (d : GateDefinition) : Agree r Eq (l.define p d) (l.define p' d) := by
  rw [define, define]
  split
  · exact .error (.placed hp rfl rfl)
  · cases d.body.find? fun call => !l.knows call.name with
    | some call => exact .error (.placed hp rfl rfl)
    | none => exact .ok rfl

theorem agree_call (c : GateCall) : Agree r Eq (l.call p c) (l.call p' c) := by
  refine (agree_mapM c.operands (Registers.agree_resolve hp l.registers.quantum)).next ?_
  intro resolved
  cases commonSize? resolved with
  | none => exact .error (.placed hp rfl rfl)
  | some count =>
    exact agree_forEachIndex
      (fun i => agree_expand hp l.qubitCount l.clbitCount l.definitions _) count 0

theorem agree_measure (qubit clbit : Operand) :
    Agree r Eq (l.measure p qubit clbit) (l.measure p' qubit clbit) := by
  refine (Registers.agree_resolve hp l.registers.quantum qubit).next fun source => ?_
  refine (Registers.agree_resolve hp l.registers.classical clbit).next fun target => ?_
  cases source with
  | bit =>
    cases target with
    | bit => exact agree_emit l _
    | whole => exact .error (.placed hp rfl rfl)
  | whole q =>
    cases target with
    | bit => exact .error (.placed hp rfl rfl)
    | whole c =>
      dsimp only
      split
      · exact agree_forEachIndex (fun i => agree_emit l _) q.size 0
      · exact .error (.placed hp rfl rfl)

theorem agree_reset (target : Operand) : Agree r Eq (l.reset p target) (l.reset p' target) :=
  (Registers.agree_resolve hp l.registers.quantum target).next fun _ =>
    agree_forEachIndex (fun _ => agree_emit l _) _ 0

theorem agree_barrier (targets : List Operand) :
    Agree r Eq (l.barrier p targets) (l.barrier p' targets) :=
  (agree_mapM targets (Registers.agree_resolve hp l.registers.quantum)).next fun _ =>
    agree_emit l _

end Lowering

end Places

variable {s s' : Statement}

theorem Registers.agree_declare (rs : Registers) (hs : s.Agrees r s') :
    Agree r Eq (rs.declare s) (rs.declare s') := by
  obtain ⟨hkind, hp⟩ := hs
  rw [declare, declare, ← hkind]
  cases s.kind with
  | qreg name size => exact (agree_check hp rs name size _).next fun _ => .ok rfl
  | creg name size => exact (agree_check hp rs name size _).next fun _ => .ok rfl
  | _ => exact .ok rfl

theorem Registers.agree_ofStatements {list list' : List Statement}
    (h : List.Forall₂ (Statement.Agrees r) list list') :
    Agree r Eq (ofStatements list) (ofStatements list') := by
  have declared (rs : Registers) :
      Agree r Eq (list.foldlM declare rs) (list'.foldlM declare rs) := by
    induction h generalizing rs with
    | nil => exact .ok rfl
    | cons hs _ ih =>
      rw [List.foldlM_cons, List.foldlM_cons]
      exact (agree_declare rs hs).next ih
  exact declared empty

namespace Lowering

theorem agree_statement (l : Lowering) (hs : s.Agrees r s') :
    Agree r Eq (l.statement s) (l.statement s') := by
  obtain ⟨hkind, hp⟩ := hs
  have paired {x y : Except ImportError (List Instruction)} (h : Agree r Eq x y) :
      Agree r Eq (x.map ((l, ·))) (y.map ((l, ·))) := h.map fun _ _ => congrArg _
  rw [statement, statement, ← hkind]
  cases s.kind with
  | qreg => exact .ok rfl
  | creg => exact .ok rfl
  | gateDefinition d => exact (agree_define hp l d).next fun _ => .ok rfl
  | call c => exact paired (agree_call hp l c)
  | measure qubit clbit => exact paired (agree_measure hp l qubit clbit)
  | reset target => exact paired (agree_reset hp l target)
  | barrier targets => exact paired (agree_barrier hp l targets)

/-- **The instructions of statements** at other places. -/
theorem agree_statements {list list' : List Statement}
    (h : List.Forall₂ (Statement.Agrees r) list list') (l : Lowering) :
    Agree r Eq (l.statements list) (l.statements list') := by
  induction h generalizing l with
  | nil => exact .ok rfl
  | cons hs _ ih =>
    exact (agree_statement l hs).next fun step => (ih step.1).next fun others => .ok rfl

end Lowering

/-- **The circuit of a program** does not depend on the positions of its statements. -/
theorem agree_toCircuit {p p' : Program}
    (h : List.Forall₂ (Statement.Agrees r) p.statements p'.statements) :
    Agree r Eq p.toCircuit p'.toCircuit :=
  (Registers.agree_ofStatements h).next fun registers =>
    (Lowering.agree_statements h ⟨registers, []⟩).next fun _ => .ok rfl

/-! ## Tokens -/

/-- The circuit that tokens stand for. -/
def Circuit.ofTokens (rule : HeaderRule) (ts : List Located) : Except ImportError Circuit := do
  let (program, _) ← Grammar.program rule ts
  program.toCircuit

theorem Circuit.ofSource_eq_bind (source : String) (rule : HeaderRule) :
    ofSource source rule = FlatQasm.tokens source >>= ofTokens rule := by
  simp only [ofSource, Program.parse, bind_assoc, pure_bind]
  rfl

/-- **The circuit of tokens** does not depend on where they are. -/
theorem agree_ofTokens (same : ∀ t t', r t t' → t.token = t'.token) (rule : HeaderRule)
    {ts ts' : List Located} (hts : List.Forall₂ r ts ts') (hne : rule = .required → ts ≠ []) :
    Agree r Eq (Circuit.ofTokens rule ts) (Circuit.ofTokens rule ts') :=
  (Grammar.agree_program same rule hts hne).bind fun _ _ h => agree_toCircuit h.1.2

end FlatQasm
