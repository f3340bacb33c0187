import FlatQasm.Proofs.Angle.Simplify
import FlatQasm.Proofs.Lookup
import FlatQasm.Proofs.Program.Lowering

/-!
# Calls of defined gates written out

The call of a defined gate can be replaced by the calls of its body, with the operands and angles
of the call in place of the formal ones, again and again until only built-in gates are called.
Here nothing is folded on the way; the angles that are left in the end are folded once.  The second
pass folds at every level, and gives the same instructions.

## Main definitions

* `GateDefinition.inline` — a call of a body, with a call's operands and angles.
* `Inlines` — calls, and calls of built-in gates that replace them.
* `Stands` — a call that the second pass expands, for a call that is written out.

## Main statements

* `Inlines.unique`, `exists_inlines` — there is one way to replace calls.
* `Inlines.lower` — what replaces calls gives their instructions.
-/

namespace FlatQasm

/-! ## Replacing calls -/

/-- The operand of a call that stands for an operand of the body. -/
def GateDefinition.actualOperand (d : GateDefinition) (operands : List Operand) :
    Operand → Operand
  | .register formal => ((d.qubits.zip operands).lookup formal).getD (.register formal)
  | .element name index => .element name index

/-- A call in the body, with the operands and angles of a call of the gate; nothing is folded. -/
def GateDefinition.inline (d : GateDefinition) (outer inner : GateCall) : GateCall where
  name := inner.name
  params := inner.params.map (·.substitute fun x => (d.params.zip outer.params).lookup x)
  operands := inner.operands.map (d.actualOperand outer.operands)

/-- Calls, and the calls of built-in gates that are left when each call of a defined gate is
replaced by the calls of its body, as long as there is one. -/
inductive Inlines (definitions : List GateDefinition) : List GateCall → List GateCall → Prop
  | nil : Inlines definitions [] []
  | builtIn {call : GateCall} {rest out : List GateCall} :
      isBuiltIn call.name = true → Inlines definitions rest out →
      Inlines definitions (call :: rest) (call :: out)
  | defined {call : GateCall} {rest inner out : List GateCall} {d : GateDefinition} :
      d ∈ definitions → d.name = call.name →
      Inlines definitions (d.body.map (d.inline call)) inner → Inlines definitions rest out →
      Inlines definitions (call :: rest) (inner ++ out)

/-- The call with its angles folded. -/
def GateCall.folded (call : GateCall) : GateCall :=
  { call with params := call.params.map Angle.simplify }

/-- Only calls of built-in gates are left. -/
theorem Inlines.isBuiltIn {definitions : List GateDefinition} {calls out : List GateCall}
    (h : Inlines definitions calls out) : ∀ call ∈ out, isBuiltIn call.name = true := by
  induction h with
  | nil => simp
  | builtIn hname _ ih => exact List.forall_mem_cons.2 ⟨hname, ih⟩
  | defined _ _ _ _ ihinner ihrest =>
    intro call hcall
    rcases List.mem_append.1 hcall with hcall | hcall
    · exact ihinner call hcall
    · exact ihrest call hcall

/-! ## Calls on bits -/

section Stands

variable {rs : Registers} {p : Position}

/-- Whether an operand is a single bit, which is this qubit. -/
def Registers.IsQubit (rs : Registers) (p : Position) (operand : Operand) (qubit : Qubit) : Prop :=
  ∃ index, rs.qubits p operand = .ok (.bit index) ∧ qubit = ⟨index.toUInt32⟩

theorem Registers.exists_bits_of_isQubit {operands : List Operand} {qubits : List Qubit}
    (h : List.Forall₂ (rs.IsQubit p) operands qubits) :
    ∃ indices : List Nat, operands.mapM (rs.qubits p) = .ok (indices.map .bit) ∧
      qubits = indices.map fun i => ⟨i.toUInt32⟩ := by
  simp only [mapM_eq_ok]
  induction h with
  | nil => exact ⟨[], .nil, rfl⟩
  | cons hq _ ih =>
    obtain ⟨index, hindex, rfl⟩ := hq
    obtain ⟨indices, hrest, rfl⟩ := ih
    exact ⟨index :: indices, .cons hindex hrest, rfl⟩

/-- On single bits there is nothing to broadcast. -/
theorem Lowering.call_of_isQubit {l : Lowering} {call : GateCall} {qubits : List Qubit}
    (h : List.Forall₂ (l.registers.IsQubit p) call.operands qubits) :
    l.call p call =
      expand l.qubitCount l.clbitCount p l.definitions ⟨call.name, call.params, qubits⟩ := by
  obtain ⟨indices, hresolved, rfl⟩ := Registers.exists_bits_of_isQubit h
  have noRegister : (indices.map Resolved.bit).filterMap Resolved.size? = [] := by
    rw [List.filterMap_map]
    exact List.filterMap_eq_nil_iff.2 fun _ _ => rfl
  have bitAt : ((indices.map Resolved.bit).map fun r => (⟨(r.bitAt 0).toUInt32⟩ : Qubit)) =
      indices.map fun i => ⟨i.toUInt32⟩ := by
    rw [List.map_map]
    rfl
  simp only [Lowering.call]
  rw [hresolved]
  simp only [ok_bind, commonSize?, noRegister, forEachIndex_one, bitAt]

/-- How a call that the second pass expands stands for a call of the written-out program.  Angles
fold to the same; for a built-in gate they are folded, since nothing will fold them again. -/
structure Stands (rs : Registers) (p : Position) (call : GateCall) (bound : BoundCall) :
    Prop where
  name : bound.name = call.name
  qubits : List.Forall₂ (rs.IsQubit p) call.operands bound.qubits
  params : List.Forall₂ (fun e (f : Angle) => f.simplify = e.simplify) call.params bound.params
  folded : isBuiltIn call.name = true → bound.params = call.params.map Angle.simplify

/-- A call of a built-in gate gives the same instruction in the written-out program. -/
theorem Stands.lower {l : Lowering} {call : GateCall} {bound : BoundCall}
    {defined : BoundCall → Except ImportError (List Instruction)}
    (h : Stands l.registers p call bound) (builtIn : isBuiltIn call.name = true) :
    l.call p call.folded = callGate l.qubitCount l.clbitCount p defined bound := by
  obtain ⟨s, hs⟩ := Option.isSome_iff_exists.1 builtIn
  obtain ⟨name, params, qubits⟩ := bound
  obtain rfl : name = call.name := h.name
  obtain rfl : params = call.params.map Angle.simplify := h.folded builtIn
  have folded : l.call p call.folded = expand l.qubitCount l.clbitCount p l.definitions
      ⟨call.name, call.params.map Angle.simplify, qubits⟩ := Lowering.call_of_isQubit h.qubits
  rw [folded, expand]
  exact (callGate_of_builtIn hs).trans (callGate_of_builtIn hs).symm

/-- An operand of a body and what replaces it are the same qubit. -/
theorem Registers.IsQubit.actualOperand {d : GateDefinition} {operands : List Operand}
    {qubits : List Qubit} (h : List.Forall₂ (rs.IsQubit p) operands qubits) {operand : Operand}
    {qubit : Qubit} (hq : d.actualQubit p qubits operand = .ok qubit) :
    rs.IsQubit p (d.actualOperand operands operand) qubit := by
  cases operand with
  | element name index => cases hq
  | register formal =>
    simp only [GateDefinition.actualQubit] at hq
    simp only [GateDefinition.actualOperand]
    rcases lookup_zip_rel d.qubits h formal with ⟨-, hnone⟩ | ⟨o, q, ho, hsome, hr⟩
    · rw [hnone] at hq
      cases hq
    · rw [hsome] at hq
      cases hq
      rw [ho]
      exact hr

/-- An angle of a body in a call is what replaces it, folded. -/
theorem GateDefinition.angleWith_eq {d : GateDefinition} (distinct : d.params.Nodup)
    {params params' : List Angle}
    (h : List.Forall₂ (fun e (f : Angle) => f.simplify = e.simplify) params params') (e : Angle) :
    d.angleWith params' e =
      (e.substitute fun x => (d.params.zip params).lookup x).simplify := by
  apply Angle.simplify_substitute_congr
  intro x
  rw [lastValue?, lookup_reverse (nodup_fst_zip distinct params')]
  rcases lookup_zip_rel d.params h x with ⟨hnone, hnone'⟩ | ⟨y, z, hy, hz, hr⟩
  · rw [hnone, hnone']
  · rw [hy, hz]
    exact hr

/-- Replacing formal operands and angles keeps the correspondence: the second pass folds what
replaces an angle, and the written-out program does not. -/
theorem Stands.inline {d : GateDefinition} (distinct : d.params.Nodup) {outer : GateCall}
    {boundOuter : BoundCall} (h : Stands rs p outer boundOuter) {inner : GateCall}
    {bound : BoundCall} (hbound : d.instantiate p boundOuter inner = .ok bound) :
    Stands rs p (d.inline outer inner) bound := by
  obtain ⟨hname, hqubits, hparams, -⟩ := GateDefinition.of_instantiate_eq_ok hbound
  have folded : bound.params = (d.inline outer inner).params.map Angle.simplify := by
    rw [hparams, GateDefinition.inline, List.map_map]
    exact List.map_congr_left fun e _ => GateDefinition.angleWith_eq distinct h.params e
  refine ⟨hname, ?_, ?_, fun _ => folded⟩
  · rw [GateDefinition.inline, List.forall₂_map_left_iff]
    exact hqubits.imp fun o q hq => Registers.IsQubit.actualOperand h.qubits hq
  · rw [folded, List.forall₂_map_right_iff]
    exact List.forall₂_same.2 fun e _ => Angle.simplify_simplify e

/-- What is needed of definitions: names tell them apart from each other and from built-in gates,
and each has distinct formal angles. -/
structure Definite (definitions : List GateDefinition) : Prop where
  names : (definitions.map GateDefinition.name).Nodup
  new : ∀ d ∈ definitions, isBuiltIn d.name = false
  formals : ∀ d ∈ definitions, d.params.Nodup

theorem signature?_eq_none_of_isBuiltIn {name : String} (h : isBuiltIn name = false) :
    signature? name = none := by
  simp only [isBuiltIn] at h
  rwa [Option.isSome_eq_false_iff, Option.isNone_iff_eq_none] at h

/-- Calls are replaced in one way only. -/
theorem Inlines.unique {definitions : List GateDefinition} (definite : Definite definitions)
    {calls out out' : List GateCall} (h : Inlines definitions calls out)
    (h' : Inlines definitions calls out') : out = out' := by
  induction h generalizing out' with
  | nil =>
    cases h'
    rfl
  | builtIn builtIn _ ih =>
    cases h' with
    | builtIn _ h' => rw [ih h']
    | defined hd hname _ _ =>
      rw [← hname, definite.new _ hd] at builtIn
      cases builtIn
  | @defined _ _ _ _ d hd hname _ _ ihinner ihrest =>
    cases h' with
    | builtIn builtIn _ =>
      rw [← hname, definite.new d hd] at builtIn
      cases builtIn
    | @defined _ _ _ _ d' hd' hname' hinner hrest =>
      obtain rfl : d' = d :=
        List.inj_on_of_nodup_map definite.names hd' hd (hname'.trans hname.symm)
      rw [ihinner hinner, ihrest hrest]

/-- **What replaces calls gives their instructions.**  The calls are those that the second pass
expands with some of the definitions; the induction is on how they were replaced. -/
theorem Inlines.lower {l : Lowering} {definitions : List GateDefinition} {calls out : List GateCall}
    (h : Inlines definitions calls out) (definite : Definite definitions)
    {earlier : List GateDefinition} (sub : earlier ⊆ definitions) {bounds : List BoundCall}
    (stands : List.Forall₂ (Stands l.registers p) calls bounds) {lists : List (List Instruction)}
    (expands : List.Forall₂ (fun bound is => callGate l.qubitCount l.clbitCount p
      (expandDefined l.qubitCount l.clbitCount p earlier) bound = .ok is) bounds lists) :
    ∃ outLists, List.Forall₂ (fun call is => l.call p call.folded = .ok is) out outLists ∧
      outLists.flatten = lists.flatten := by
  induction h generalizing earlier bounds lists with
  | nil =>
    cases stands
    cases expands
    exact ⟨[], .nil, rfl⟩
  | builtIn builtIn _ ih =>
    obtain ⟨bound, bounds, hstands, hrest, rfl⟩ := List.forall₂_cons_left_iff.1 stands
    obtain ⟨is, lists, hexpands, hexpandsRest, rfl⟩ := List.forall₂_cons_left_iff.1 expands
    obtain ⟨outLists, hout, hflatten⟩ := ih sub hrest hexpandsRest
    refine ⟨is :: outLists, .cons ?_ hout, ?_⟩
    · rw [hstands.lower builtIn, hexpands]
    · rw [List.flatten_cons, List.flatten_cons, hflatten]
  | @defined call rest inner out d hd hname _ _ ihinner ihrest =>
    obtain ⟨bound, bounds, hstands, hrest, rfl⟩ := List.forall₂_cons_left_iff.1 stands
    obtain ⟨is, lists, hexpands, hexpandsRest, rfl⟩ := List.forall₂_cons_left_iff.1 expands
    -- The second pass looks the name up among the definitions so far and finds this definition.
    have hnone : signature? bound.name = none := by
      rw [hstands.name, ← hname]
      exact signature?_eq_none_of_isBuiltIn (definite.new d hd)
    rw [callGate_of_defined hnone] at hexpands
    obtain ⟨d', before, innerLists, hsuffix, hname', -, hbody, rfl⟩ :=
      exists_of_expandDefined_eq_ok hexpands
    have hd' : d' ∈ definitions := sub (hsuffix.subset List.mem_cons_self)
    obtain rfl : d' = d := by
      apply List.inj_on_of_nodup_map definite.names hd' hd
      rw [hname', hstands.name, hname]
    have subBefore : before ⊆ definitions := fun x hx =>
      sub (hsuffix.subset (List.mem_cons_of_mem d' hx))
    obtain ⟨innerBounds, hinstantiate, hexpandsInner⟩ := exists_forall₂_of_comp hbody
    have standsInner :
        List.Forall₂ (Stands l.registers p) (d'.body.map (d'.inline call)) innerBounds := by
      rw [List.forall₂_map_left_iff]
      exact hinstantiate.imp fun x b hb => hstands.inline (definite.formals d' hd) hb
    obtain ⟨innerOut, hinner, hinnerFlatten⟩ := ihinner subBefore standsInner hexpandsInner
    obtain ⟨outLists, hout, hflatten⟩ := ihrest sub hrest hexpandsRest
    refine ⟨innerOut ++ outLists, List.rel_append hinner hout, ?_⟩
    rw [List.flatten_append, List.flatten_cons, hinnerFlatten, hflatten]

/-- Calls that the second pass expands can be replaced until only built-in gates are called: a
definition only calls gates that were defined before it. -/
theorem exists_inlines {l : Lowering} {definitions earlier : List GateDefinition}
    (sub : earlier ⊆ definitions) {calls : List GateCall} {bounds : List BoundCall}
    (names : List.Forall₂ (fun call (bound : BoundCall) => bound.name = GateCall.name call) calls
      bounds)
    {lists : List (List Instruction)}
    (expands : List.Forall₂ (fun bound is => callGate l.qubitCount l.clbitCount p
      (expandDefined l.qubitCount l.clbitCount p earlier) bound = .ok is) bounds lists) :
    ∃ out, Inlines definitions calls out := by
  induction hn : earlier.length using Nat.strongRecOn
    generalizing earlier calls bounds lists with
  | _ n ih =>
    induction names generalizing lists with
    | nil => exact ⟨[], .nil⟩
    | @cons call bound _ _ hname _ ihrest =>
      obtain ⟨is, lists, hexpands, hexpandsRest, rfl⟩ := List.forall₂_cons_left_iff.1 expands
      obtain ⟨out, hout⟩ := ihrest hexpandsRest
      cases hbuiltIn : isBuiltIn call.name with
      | true => exact ⟨call :: out, .builtIn hbuiltIn hout⟩
      | false =>
        have hnone : signature? bound.name = none := by
          rw [hname]
          exact signature?_eq_none_of_isBuiltIn hbuiltIn
        rw [callGate_of_defined hnone] at hexpands
        obtain ⟨d, before, innerLists, hsuffix, hname', -, hbody, -⟩ :=
          exists_of_expandDefined_eq_ok hexpands
        obtain ⟨innerBounds, hinstantiate, hexpandsInner⟩ := exists_forall₂_of_comp hbody
        have namesInner : List.Forall₂ (fun c (b : BoundCall) => b.name = GateCall.name c)
            (d.body.map (d.inline call)) innerBounds := by
          rw [List.forall₂_map_left_iff]
          exact hinstantiate.imp fun x b hb => (GateDefinition.of_instantiate_eq_ok hb).1
        have shorter : before.length < n := by
          have := hsuffix.length_le
          rw [List.length_cons] at this
          omega
        have subBefore : before ⊆ definitions := fun x hx =>
          sub (hsuffix.subset (List.mem_cons_of_mem d hx))
        obtain ⟨inner, hinner⟩ :=
          ih before.length shorter subBefore namesInner hexpandsInner rfl
        refine ⟨inner ++ out, .defined (sub (hsuffix.subset List.mem_cons_self)) ?_ hinner hout⟩
        rw [hname', hname]

end Stands

end FlatQasm
