import FlatQasm.Program.ToCircuit
import FlatQasm.Proofs.Circuit.WellFormed

/-!
# Statements as instructions, step by step

One statement for each step of the second pass, which says what the step's result or error comes
from.  Later proofs use these statements and do not open the functions.

## Main definitions

* `GateDefinition.angleWith` — an angle of a body in a call of the gate.

## Main statements

* `forEachIndex_eq_ok`, `exists_of_forEachIndex_eq_error` — the calls of a broadcast.
* `GateDefinition.of_instantiate_eq_ok` — a call of a body in a call of the gate.
* `exists_of_expandDefined_eq_ok` — the definition that a call was expanded with.
* `Lowering.statements_cons_eq_ok`, `Lowering.exists_of_statements_eq_error` — one statement after
  another.
-/

namespace FlatQasm

section ForEachIndex

variable {ε α : Type} {f : Nat → Except ε (List α)}

/-- A broadcast succeeds exactly when each of its calls does, and gives their lists in order. -/
theorem forEachIndex_eq_ok {count first : Nat} {out : List α} :
    forEachIndex f count first = .ok out ↔
      ∃ lists, List.Forall₂ (fun i l => f i = .ok l) (List.range' first count) lists ∧
        lists.flatten = out := by
  induction count generalizing first out with
  | zero => simp [eq_comm]
  | succ count ih =>
    rw [forEachIndex_succ, List.range'_succ]
    simp only [bind_eq_ok, map_eq_ok, ih, List.forall₂_cons_left_iff]
    constructor
    · rintro ⟨here, hf, _, ⟨lists, hlists, rfl⟩, rfl⟩
      exact ⟨here :: lists, ⟨here, lists, hf, hlists, rfl⟩, rfl⟩
    · rintro ⟨_, ⟨here, lists, hf, hlists, rfl⟩, rfl⟩
      exact ⟨here, hf, _, ⟨lists, hlists, rfl⟩, rfl⟩

/-- What holds of the elements for each index holds of those of a broadcast. -/
theorem forall_mem_of_forEachIndex {P : α → Prop}
    (hf : ∀ i here, f i = .ok here → ∀ a ∈ here, P a) {count first : Nat} {out : List α}
    (h : forEachIndex f count first = .ok out) : ∀ a ∈ out, P a := by
  obtain ⟨lists, hlists, rfl⟩ := forEachIndex_eq_ok.1 h
  intro a ha
  obtain ⟨here, hhere, ha⟩ := List.mem_flatten.1 ha
  obtain ⟨i, -, hi⟩ := exists_mem_of_forall₂ hlists hhere
  exact hf i here hi a ha

/-- A broadcast fails with the error of one of its calls. -/
theorem exists_of_forEachIndex_eq_error {count first : Nat} {e : ε}
    (h : forEachIndex f count first = .error e) :
    ∃ i, first ≤ i ∧ i < first + count ∧ f i = .error e := by
  induction count generalizing first with
  | zero => cases h
  | succ count ih =>
    rw [forEachIndex_succ, bind_eq_error] at h
    rcases h with h | ⟨here, -, h⟩
    · exact ⟨first, Nat.le_refl first, by omega, h⟩
    · obtain ⟨i, low, high, hi⟩ := ih (map_eq_error.1 h)
      exact ⟨i, by omega, by omega, hi⟩

end ForEachIndex

/-- The size of a broadcast: one when there is no whole register, and otherwise the size of each. -/
theorem commonSize?_eq_some {operands : List Resolved} {count : Nat}
    (h : commonSize? operands = some count) :
    operands.filterMap Resolved.size? = [] ∧ count = 1 ∨
      (operands.filterMap Resolved.size?).head? = some count ∧
        ∀ size ∈ operands.filterMap Resolved.size?, size = count := by
  simp only [commonSize?] at h
  split at h
  · next hnil =>
    cases h
    exact .inl ⟨hnil, rfl⟩
  · next size others hcons =>
    split at h
    · next hall =>
      cases h
      rw [hcons]
      refine .inr ⟨rfl, fun size' hsize => ?_⟩
      rcases List.mem_cons.1 hsize with rfl | hsize
      · rfl
      · exact beq_iff_eq.1 (List.all_eq_true.1 hall size' hsize)
    · cases h

/-- A broadcast has no size when two whole registers have different ones. -/
theorem exists_of_commonSize?_eq_none {operands : List Resolved}
    (h : commonSize? operands = none) :
    ∃ size ∈ operands.filterMap Resolved.size?, ∃ size' ∈ operands.filterMap Resolved.size?,
      size ≠ size' := by
  simp only [commonSize?] at h
  split at h
  · cases h
  · next size others hcons =>
    split at h
    · cases h
    · next hall =>
      rw [List.all_eq_true] at hall
      push Not at hall
      obtain ⟨size', hsize', hne⟩ := hall
      rw [hcons]
      refine ⟨size, List.mem_cons_self, size', List.mem_cons_of_mem size hsize', ?_⟩
      rintro rfl
      simp at hne

/-! ## Gate calls -/

theorem BoundCall.checkArity_eq_ok {call : BoundCall} {p : Position} {arity : Arity} :
    call.checkArity p arity = .ok () ↔
      call.params.length = arity.params ∧ call.qubits.length = arity.qubits := by
  simp only [checkArity]
  split
  · next hparams => simp [hparams]
  · split
    · next hqubits => simp [hqubits]
    · next hparams hqubits => simp [not_not.1 hparams, not_not.1 hqubits]

namespace GateDefinition

/-- An angle of the body in a call with the given angles: formal angles are replaced, and then
constants are folded. -/
def angleWith (d : GateDefinition) (args : List Angle) (e : Angle) : Angle :=
  (e.substitute fun x => lastValue? x (d.params.zip args)).simplify

variable {d : GateDefinition} {p : Position}

theorem actualAngle_eq_ok {args : List Angle} {e f : Angle} :
    d.actualAngle p args e = .ok f ↔ f = d.angleWith args e ∧ f.depth ≤ nestingLimit := by
  simp only [actualAngle, angleWith]
  split
  · next high =>
    simp only [reduceCtorEq, false_iff, not_and, Nat.not_le]
    rintro rfl
    exact high
  · next low =>
    simp only [Except.ok.injEq, eq_comm (a := f)]
    refine ⟨?_, And.left⟩
    rintro rfl
    exact ⟨rfl, Nat.le_of_not_lt low⟩

/-- A call of the body as it is in a call of the gate: on the actual qubits, and with the angles of
the body in the call, none of them too high. -/
theorem of_instantiate_eq_ok {outer : BoundCall} {inner : GateCall} {bound : BoundCall}
    (h : d.instantiate p outer inner = .ok bound) : bound.name = inner.name ∧
      List.Forall₂ (fun o q => d.actualQubit p outer.qubits o = .ok q) inner.operands
        bound.qubits ∧
      bound.params = inner.params.map (d.angleWith outer.params) ∧
      ∀ f ∈ bound.params, f.depth ≤ nestingLimit := by
  simp only [instantiate] at h
  simp only [bind_eq_ok, mapM_eq_ok, actualAngle_eq_ok] at h
  obtain ⟨qubits, hqubits, params, hparams, heq⟩ := h
  cases heq
  refine ⟨rfl, hqubits, eq_map_of_forall₂ (hparams.imp fun _ _ h => h.1), fun f hf => ?_⟩
  obtain ⟨_, -, -, hdepth⟩ := exists_mem_of_forall₂ hparams hf
  exact hdepth

end GateDefinition

section Calls

variable {q c : UInt32} {p : Position}

/-- What a call is expanded with: the first definition of its name, with the calls of its body
expanded by the definitions behind it. -/
theorem exists_of_expandDefined_eq_ok {definitions : List GateDefinition} {call : BoundCall}
    {out : List Instruction} (h : expandDefined q c p definitions call = .ok out) :
    ∃ d earlier lists, d :: earlier <:+ definitions ∧ d.name = call.name ∧
      call.checkArity p d.arity = .ok () ∧
      List.Forall₂ (fun inner l => ∃ bound, d.instantiate p call inner = .ok bound ∧
        callGate q c p (expandDefined q c p earlier) bound = .ok l) d.body lists ∧
      lists.flatten = out := by
  induction definitions with
  | nil => cases h
  | cons d earlier ih =>
    by_cases hname : d.name = call.name
    · simp only [expandDefined_of_name_eq hname, bind_eq_ok, mapM_eq_ok] at h
      obtain ⟨⟨⟩, harity, lists, hlists, hout⟩ := h
      cases hout
      exact ⟨d, earlier, lists, List.suffix_rfl, hname, harity, hlists, rfl⟩
    · rw [expandDefined_of_name_ne hname] at h
      obtain ⟨d', earlier', lists, hsuffix, rest⟩ := ih h
      exact ⟨d', earlier', lists, hsuffix.trans (List.suffix_cons d earlier), rest⟩

/-- Why a call cannot be expanded: no definition has its name, or the first that has fails for the
numbers of operands, for one of its calls' operands and angles, or in one of those calls. -/
theorem exists_of_expandDefined_eq_error {definitions : List GateDefinition} {call : BoundCall}
    {e : ImportError} (h : expandDefined q c p definitions call = .error e) :
    (call.name ∉ definitions.map GateDefinition.name ∧ e = .unknownGate p call.name) ∨
      ∃ d earlier, d :: earlier <:+ definitions ∧ d.name = call.name ∧
        (call.checkArity p d.arity = .error e ∨ call.checkArity p d.arity = .ok () ∧
          ∃ inner ∈ d.body, d.instantiate p call inner = .error e ∨
            ∃ bound, d.instantiate p call inner = .ok bound ∧
              callGate q c p (expandDefined q c p earlier) bound = .error e) := by
  induction definitions with
  | nil =>
    cases h
    exact .inl ⟨List.not_mem_nil, rfl⟩
  | cons d earlier ih =>
    by_cases hname : d.name = call.name
    · refine .inr ⟨d, earlier, List.suffix_rfl, hname, ?_⟩
      rw [expandDefined_of_name_eq hname, bind_eq_error] at h
      rcases h with h | ⟨⟨⟩, harity, h⟩
      · exact .inl h
      · rw [bind_eq_error] at h
        rcases h with h | ⟨lists, -, h⟩
        · obtain ⟨inner, hinner, h⟩ := exists_of_mapM_eq_error h
          rw [bind_eq_error] at h
          exact .inr ⟨harity, inner, hinner, h⟩
        · cases h
    · rw [expandDefined_of_name_ne hname] at h
      rcases ih h with ⟨hnone, he⟩ | ⟨d', earlier', hsuffix, rest⟩
      · refine .inl ⟨?_, he⟩
        rw [List.map_cons, List.mem_cons, not_or]
        exact ⟨fun heq => hname heq.symm, hnone⟩
      · exact .inr ⟨d', earlier', hsuffix.trans (List.suffix_cons d earlier), rest⟩

end Calls

/-! ## Statements -/

/-- The gate definition that a statement makes, if it makes one. -/
def Statement.definition? (s : Statement) : Option GateDefinition :=
  match s.kind with
  | .gateDefinition d => some d
  | _ => none

/-- The gate definitions of a program, in order. -/
def Program.definitions (p : Program) : List GateDefinition :=
  p.statements.filterMap Statement.definition?

namespace Lowering

theorem emit_of_fits {l : Lowering} {i : Instruction} (h : i.Fits l.qubitCount l.clbitCount) :
    l.emit i = .ok [i] := by
  rw [emit, Circuit.check_eq_ok.2 h]
  rfl

theorem define_eq_ok {l l' : Lowering} {p : Position} {d : GateDefinition} :
    l.define p d = .ok l' ↔ l.knows d.name = false ∧ (∀ call ∈ d.body, l.knows call.name = true) ∧
      l' = { l with definitions := d :: l.definitions } := by
  simp only [define]
  cases hd : l.knows d.name with
  | true => simp
  | false =>
    cases hbody : d.body.find? fun call => !l.knows call.name with
    | some call =>
      have unknown := List.find?_some hbody
      have mem := List.mem_of_find?_eq_some hbody
      simp only [Bool.not_eq_true'] at unknown
      simp only [Bool.false_eq_true, if_false, true_and, reduceCtorEq, false_iff, not_and]
      intro known
      rw [known call mem] at unknown
      cases unknown
    | none =>
      rw [List.find?_eq_none] at hbody
      simp only [Bool.not_eq_true, Bool.not_eq_false'] at hbody
      simp only [Bool.false_eq_true, if_false, true_and, Except.ok.injEq, eq_comm (a := l')]
      exact (and_iff_right hbody).symm

/-- The second pass succeeds when the first statement does and the others do behind it. -/
theorem statements_cons_eq_ok {l : Lowering} {s : Statement} {rest : List Statement}
    {out : List Instruction} :
    l.statements (s :: rest) = .ok out ↔
      ∃ l' here, l.statement s = .ok (l', here) ∧
        ∃ others, l'.statements rest = .ok others ∧ here ++ others = out := by
  rw [statements_cons]
  simp only [bind_eq_ok, map_eq_ok, Prod.exists]

/-- A single statement gives its own instructions. -/
@[simp] theorem statements_singleton (l : Lowering) (s : Statement) :
    l.statements [s] = (l.statement s).map Prod.snd := by
  rw [statements_cons]
  cases l.statement s with
  | error e => rfl
  | ok next => simp

/-- What the gates are behind a statement. -/
theorem definitions_of_statement {l l' : Lowering} {s : Statement} {here : List Instruction}
    (h : l.statement s = .ok (l', here)) :
    l'.registers = l.registers ∧ l'.definitions = s.definition?.toList ++ l.definitions := by
  obtain ⟨kind, p⟩ := s
  cases kind with
  | qreg | creg =>
    cases h
    exact ⟨rfl, rfl⟩
  | gateDefinition d =>
    rw [statement_gateDefinition, map_eq_ok] at h
    obtain ⟨_, hdefine, heq⟩ := h
    cases heq
    obtain ⟨-, -, rfl⟩ := define_eq_ok.1 hdefine
    exact ⟨rfl, rfl⟩
  | call | measure | reset | barrier =>
    obtain ⟨_, -, heq⟩ := map_eq_ok.1 h
    cases heq
    exact ⟨rfl, rfl⟩

/-- The gates behind some statements, the latest first. -/
def definitionsBehind (l : Lowering) (statements : List Statement) : List GateDefinition :=
  (statements.filterMap Statement.definition?).reverse ++ l.definitions

/-- A gate definition that is accepted. -/
theorem define_of_statement {l l' : Lowering} {s : Statement} {here : List Instruction}
    {d : GateDefinition} (h : l.statement s = .ok (l', here)) (hd : s.definition? = some d) :
    l.define s.position d = .ok l' := by
  obtain ⟨kind, position⟩ := s
  cases kind with
  | gateDefinition d' =>
    cases hd
    rw [statement_gateDefinition, map_eq_ok] at h
    obtain ⟨l'', hdefine, heq⟩ := h
    cases heq
    exact hdefine
  | _ => cases hd

theorem definitionsBehind_cons {l l' : Lowering} {s : Statement} {here : List Instruction}
    (h : l.statement s = .ok (l', here)) (rest : List Statement) :
    l'.definitionsBehind rest = l.definitionsBehind (s :: rest) := by
  obtain ⟨-, hdefinitions⟩ := definitions_of_statement h
  rw [definitionsBehind, definitionsBehind, hdefinitions, List.filterMap_cons]
  cases s.definition? <;> simp

/-- An error of the second pass is the error of one statement, behind those before it. -/
theorem exists_of_statements_eq_error {l : Lowering} {list : List Statement} {e : ImportError}
    (h : l.statements list = .error e) :
    ∃ before s after, list = before ++ s :: after ∧
      (⟨l.registers, l.definitionsBehind before⟩ : Lowering).statement s = .error e := by
  induction list generalizing l with
  | nil => cases h
  | cons s rest ih =>
    rw [statements_cons, bind_eq_error] at h
    rcases h with h | ⟨⟨l', here⟩, hs, h⟩
    · exact ⟨[], s, rest, rfl, h⟩
    · obtain ⟨before, s', after, rfl, herror⟩ := ih (map_eq_error.1 h)
      obtain ⟨hregisters, -⟩ := definitions_of_statement hs
      rw [hregisters, definitionsBehind_cons hs] at herror
      exact ⟨s :: before, s', after, rfl, herror⟩

end Lowering

/-- The second pass only collects definitions of the program. -/
theorem Program.definitions_subset {p : Program} {l l' : Lowering}
    (sub : l.definitions ⊆ p.definitions) {s : Statement} (hmem : s ∈ p.statements)
    {here : List Instruction} (hs : l.statement s = .ok (l', here)) :
    l'.definitions ⊆ p.definitions := by
  obtain ⟨-, hdefinitions⟩ := Lowering.definitions_of_statement hs
  rw [hdefinitions]
  intro d hd
  rcases List.mem_append.1 hd with hd | hd
  · exact List.mem_filterMap.2 ⟨s, hmem, Option.mem_toList.1 hd⟩
  · exact sub hd

end FlatQasm
