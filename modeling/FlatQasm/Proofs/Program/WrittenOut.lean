import FlatQasm.Proofs.Program.Inlining
import FlatQasm.Proofs.Program.Layout

/-!
# Programs without gate definitions

A program is written out by leaving its gate definitions out and replacing each call of a defined
gate.  A call on whole registers is first taken apart into calls on their elements; then calls are
replaced by the bodies of their definitions until only built-in gates are called.  The circuit
stays the same.

The first pass cannot tell the two programs apart, since the declarations are the same.  The second
pass goes through both together: each statement gives the instructions of the statements that
replace it.

## Main definitions

* `Program.singleCalls` — the calls on single qubits that a call stands for.
* `Program.InlinesTo` — a program, and a program without gate definitions that replaces it.

## Main statements

* `Program.Replaces.statement` — a statement and what replaces it give the same instructions.
* `Program.toCircuit_inlinesTo` — a program and what replaces it have the same circuit.
-/

namespace FlatQasm

/-! ## Replacing statements -/

/-- The operand of the `i`-th call of a broadcast: of a whole register, one element. -/
def Operand.elementAt (i : Nat) : Operand → Operand
  | .register name => .element name (UInt64.ofNat i)
  | .element name index => .element name index

/-- The `i`-th call of a broadcast. -/
def GateCall.elementsAt (call : GateCall) (i : Nat) : GateCall :=
  { call with operands := call.operands.map (Operand.elementAt i) }

namespace Program

/-- The size of the first whole quantum register among operands. -/
def wholeSize? (p : Program) (operands : List Operand) : Option Nat :=
  operands.findSome? fun
    | .register name => (quantumSizes p.statements).lookup name
    | .element _ _ => none

/-- The calls on single qubits that a call stands for, one for each element of the whole registers
among its operands. -/
def singleCalls (p : Program) (call : GateCall) : List GateCall :=
  match p.wholeSize? call.operands with
  | some size => (List.range size).map call.elementsAt
  | none => [call]

/-- A statement, and the statements that replace it: none for a gate definition, calls of built-in
gates with folded angles for the call of a defined gate, and itself otherwise. -/
inductive Replaces (p : Program) : Statement → List Statement → Prop
  | definition {d : GateDefinition} {position : Position} :
      Replaces p ⟨.gateDefinition d, position⟩ []
  | defined {call : GateCall} {position : Position} {out : List GateCall} :
      isBuiltIn call.name = false → Inlines p.definitions (p.singleCalls call) out →
      Replaces p ⟨.call call, position⟩ (out.map fun c => ⟨.call c.folded, position⟩)
  | other {s : Statement} : s.definition? = none →
      (∀ call, s.kind = .call call → isBuiltIn call.name = true) → Replaces p s [s]

/-- A program, and a program without gate definitions that replaces it. -/
def InlinesTo (p p' : Program) : Prop :=
  p'.version = p.version ∧
    ∃ lists, List.Forall₂ p.Replaces p.statements lists ∧ p'.statements = lists.flatten

/-- What replaces a statement defines no gate and calls no defined one. -/
theorem Replaces.isWrittenOut {p : Program} {s : Statement} {list : List Statement}
    (h : p.Replaces s list) : ∀ s' ∈ list, s'.definition? = none ∧
      ∀ call, s'.kind = .call call → isBuiltIn call.name = true := by
  cases h with
  | definition => simp
  | defined _ hout =>
    intro s' hs'
    obtain ⟨c, hc, rfl⟩ := List.mem_map.1 hs'
    refine ⟨rfl, fun call hcall => ?_⟩
    cases hcall
    exact hout.isBuiltIn c hc
  | other hnone hbuiltIn =>
    intro s' hs'
    rw [List.mem_singleton] at hs'
    rw [hs']
    exact ⟨hnone, hbuiltIn⟩

end Program

/-! ## The first pass -/

/-- A statement and what replaces it declare the same registers. -/
theorem Program.Replaces.declare {p : Program} {s : Statement} {list : List Statement}
    (h : p.Replaces s list) (rs : Registers) :
    list.foldlM Registers.declare rs = rs.declare s := by
  cases h with
  | definition => rfl
  | @defined call position out _ hout =>
    clear hout
    induction out with
    | nil => rfl
    | cons c out ih => exact ih
  | other _ _ =>
    rw [List.foldlM_cons]
    cases rs.declare s <;> rfl

theorem Program.InlinesTo.ofStatements {p p' : Program} (h : p.InlinesTo p') :
    Registers.ofStatements p'.statements = Registers.ofStatements p.statements := by
  obtain ⟨-, lists, hlists, hflatten⟩ := h
  rw [hflatten, Registers.ofStatements, Registers.ofStatements]
  clear hflatten
  generalize p.statements = statements at hlists
  generalize Registers.empty = rs
  induction hlists generalizing rs with
  | nil => rfl
  | cons hs _ ih =>
    rw [List.flatten_cons, List.foldlM_append, List.foldlM_cons, hs.declare]
    exact bind_congr ih

/-! ## Single calls -/

section SingleCalls

variable {rs : Registers} {p : Program} {position : Position}

/-- On operands that stand for something, the first whole register has the size that counts. -/
theorem Program.wholeSize?_eq (lays : rs.Lays p.statements) {operands : List Operand}
    {resolved : List Resolved}
    (h : List.Forall₂ (fun o r => rs.qubits position o = .ok r) operands resolved) :
    p.wholeSize? operands = (resolved.filterMap Resolved.size?).head? := by
  simp only [Program.wholeSize?]
  induction h with
  | nil => rfl
  | cons ho _ ih =>
    rw [List.findSome?_cons, ih]
    rcases Registers.resolve_eq_ok.1 ho with
      ⟨name, r, rfl, hlookup, rfl⟩ | ⟨name, index, r, rfl, -, -, rfl⟩
    · simp only [lays.lookup_quantum, hlookup]
      rfl
    · rfl

/-- An element of an operand is the bit that the broadcast takes. -/
theorem Registers.isQubit_elementAt (lays : rs.Lays p.statements) {operand : Operand}
    {resolved : Resolved} (h : rs.qubits position operand = .ok resolved) {i : Nat}
    (hi : ∀ size, resolved.size? = some size → i < size) :
    rs.IsQubit position (operand.elementAt i) ⟨(resolved.bitAt i).toUInt32⟩ := by
  rcases resolve_eq_ok.1 h with ⟨name, r, rfl, hlookup, rfl⟩ | ⟨name, index, r, rfl, -, -, rfl⟩
  · have hlt : i < r.size := hi r.size rfl
    obtain ⟨-, hle⟩ := le_of_lookup_eq_some lays.qubits hlookup
    have hbound : rs.qubitCount < 2 ^ 32 := lays.qubitCount_lt
    have hindex : (UInt64.ofNat i).toNat = i := by
      rw [UInt64.toNat_ofNat']
      exact Nat.mod_eq_of_lt (by omega)
    refine ⟨r.offset + i, resolve_eq_ok.2 (.inr ⟨name, UInt64.ofNat i, r, rfl, hlookup, ?_⟩), rfl⟩
    rw [hindex]
    exact ⟨hlt, rfl⟩
  · exact ⟨_, h, rfl⟩

/-- An operand that is no whole register is a bit. -/
theorem Registers.isQubit_of_size?_eq_none {operand : Operand} {resolved : Resolved}
    (h : rs.qubits position operand = .ok resolved) (hsize : resolved.size? = none) :
    rs.IsQubit position operand ⟨(resolved.bitAt 0).toUInt32⟩ := by
  cases resolved with
  | bit index => exact ⟨index, h, rfl⟩
  | whole r => cases hsize

/-- The instructions of the call of a defined gate are those of the single calls, one after
another. -/
theorem Lowering.exists_of_call_eq_ok {l : Lowering} (lays : l.registers.Lays p.statements)
    {call : GateCall} (defined : isBuiltIn call.name = false) {out : List Instruction}
    (h : l.call position call = .ok out) :
    ∃ bounds lists, List.Forall₂ (Stands l.registers position) (p.singleCalls call) bounds ∧
      List.Forall₂ (fun bound is => callGate l.qubitCount l.clbitCount position
        (expandDefined l.qubitCount l.clbitCount position l.definitions) bound = .ok is)
        bounds lists ∧
      lists.flatten = out := by
  simp only [Lowering.call] at h
  simp only [bind_eq_ok, mapM_eq_ok] at h
  obtain ⟨resolved, hresolved, h⟩ := h
  have hwhole := Program.wholeSize?_eq lays hresolved
  split at h
  · cases h
  · next count hcount =>
    obtain ⟨lists, hlists, rfl⟩ := forEachIndex_eq_ok.1 h
    rw [← List.range_eq_range'] at hlists
    let bound (i : Nat) : BoundCall :=
      ⟨call.name, call.params, resolved.map fun r => ⟨(r.bitAt i).toUInt32⟩⟩
    have expands : List.Forall₂ (fun b is => expand l.qubitCount l.clbitCount position
        l.definitions b = .ok is) ((List.range count).map bound) lists :=
      List.forall₂_map_left_iff.2 hlists
    refine ⟨(List.range count).map bound, lists, ?_, expands, rfl⟩
    have notBuiltIn : ¬ isBuiltIn call.name = true := by simp [defined]
    simp only [Program.singleCalls]
    rcases commonSize?_eq_some hcount with ⟨hnil, rfl⟩ | ⟨hhead, hall⟩
    · rw [hnil] at hwhole
      rw [hwhole]
      refine .cons ⟨rfl, ?_, List.forall₂_same.2 fun _ _ => rfl, fun h => absurd h notBuiltIn⟩ .nil
      rw [List.forall₂_map_right_iff]
      refine forall₂_imp_of_mem hresolved fun o r hr ho => ?_
      exact Registers.isQubit_of_size?_eq_none ho (List.filterMap_eq_nil_iff.1 hnil r hr)
    · rw [hhead] at hwhole
      rw [hwhole, List.forall₂_map_left_iff, List.forall₂_map_right_iff, List.forall₂_same]
      intro i hi
      have hi : i < count := List.mem_range.1 hi
      refine ⟨rfl, ?_, List.forall₂_same.2 fun _ _ => rfl, fun h => absurd h notBuiltIn⟩
      rw [GateCall.elementsAt, List.forall₂_map_left_iff, List.forall₂_map_right_iff]
      refine forall₂_imp_of_mem hresolved fun o r hr ho => ?_
      refine Registers.isQubit_elementAt lays ho fun size hsize => ?_
      rw [hall size (List.mem_filterMap.2 ⟨r, hr, hsize⟩)]
      exact hi

end SingleCalls

/-! ## The second pass -/

namespace Lowering

/-- The definitions do not matter for the call of a built-in gate. -/
theorem call_of_isBuiltIn (l : Lowering) {position : Position} {call : GateCall}
    (builtIn : isBuiltIn call.name = true) :
    (⟨l.registers, []⟩ : Lowering).call position call = l.call position call := by
  obtain ⟨s, hs⟩ := Option.isSome_iff_exists.1 builtIn
  have expands (qubits : List Qubit) :
      expand l.qubitCount l.clbitCount position [] ⟨call.name, call.params, qubits⟩ =
        expand l.qubitCount l.clbitCount position l.definitions
          ⟨call.name, call.params, qubits⟩ :=
    (callGate_of_builtIn hs).trans (callGate_of_builtIn hs).symm
  simp only [Lowering.call]
  simp only [← expands]
  rfl

/-- A statement that neither defines a gate nor calls a defined one does not look at the
definitions. -/
theorem statement_of_isBuiltIn {l l' : Lowering} {s : Statement} {here : List Instruction}
    (hnone : s.definition? = none)
    (builtIn : ∀ call, s.kind = .call call → isBuiltIn call.name = true)
    (h : l.statement s = .ok (l', here)) :
    (⟨l.registers, []⟩ : Lowering).statement s = .ok (⟨l.registers, []⟩, here) := by
  obtain ⟨kind, position⟩ := s
  cases kind with
  | qreg name size | creg name size =>
    cases h
    rfl
  | gateDefinition d => cases hnone
  | call c =>
    rw [statement_call, map_eq_ok] at h
    obtain ⟨is, hcall, heq⟩ := h
    cases heq
    refine map_eq_ok.2 ⟨here, ?_, rfl⟩
    rw [call_of_isBuiltIn l (builtIn c rfl)]
    exact hcall
  | measure qubit clbit | reset target | barrier targets =>
    obtain ⟨is, hinstructions, heq⟩ := map_eq_ok.1 h
    cases heq
    exact map_eq_ok.2 ⟨here, hinstructions, rfl⟩

/-- Without gate definitions, the second pass goes through two lists one after the other. -/
theorem statements_append {l : Lowering} {list rest : List Statement}
    (hnone : ∀ s ∈ list, s.definition? = none) {here others : List Instruction}
    (h : l.statements list = .ok here) (hrest : l.statements rest = .ok others) :
    l.statements (list ++ rest) = .ok (here ++ others) := by
  induction list generalizing here with
  | nil =>
    cases h
    exact hrest
  | cons s list ih =>
    rw [List.forall_mem_cons] at hnone
    obtain ⟨l', first, hs, behind, hbehind, rfl⟩ := statements_cons_eq_ok.1 h
    obtain ⟨hregisters, hdefinitions⟩ := definitions_of_statement hs
    rw [hnone.1] at hdefinitions
    obtain rfl : l' = l := by
      obtain ⟨registers, definitions⟩ := l
      obtain ⟨registers', definitions'⟩ := l'
      obtain rfl : registers' = registers := hregisters
      obtain rfl : definitions' = definitions := hdefinitions
      rfl
    rw [List.cons_append, List.append_assoc]
    exact statements_cons_eq_ok.2 ⟨l', first, hs, _, ih hnone.2 hbehind, rfl⟩

/-- Calls as statements give their instructions one after another. -/
theorem statements_calls {l : Lowering} {position : Position} {calls : List GateCall}
    {lists : List (List Instruction)}
    (h : List.Forall₂ (fun c is => l.call position (GateCall.folded c) = .ok is) calls lists) :
    l.statements (calls.map fun c => ⟨.call c.folded, position⟩) = .ok lists.flatten := by
  induction h with
  | nil => rfl
  | cons hcall _ ih =>
    exact statements_cons_eq_ok.2 ⟨l, _, map_eq_ok.2 ⟨_, hcall, rfl⟩, _, ih, rfl⟩

/-- The second pass leaves definitions that names tell apart. -/
theorem definite_of_statements {l : Lowering} (definite : Definite l.definitions)
    {list : List Statement} (formals : ∀ d ∈ list.filterMap Statement.definition?, d.params.Nodup)
    {out : List Instruction} (h : l.statements list = .ok out) :
    Definite (l.definitionsBehind list) := by
  induction list generalizing l out with
  | nil => exact definite
  | cons s list ih =>
    obtain ⟨l', here, hs, others, hothers, rfl⟩ := statements_cons_eq_ok.1 h
    rw [← definitionsBehind_cons hs]
    refine ih ?_ (fun d hd => formals d ?_) hothers
    · cases hd : s.definition? with
      | none =>
        obtain ⟨-, hdefinitions⟩ := definitions_of_statement hs
        rw [hdefinitions, hd]
        exact definite
      | some d =>
        obtain ⟨hnew, -, rfl⟩ := define_eq_ok.1 (define_of_statement hs hd)
        rw [knows, Bool.or_eq_false_iff, List.any_eq_false] at hnew
        refine ⟨List.nodup_cons.2 ⟨fun hmem => ?_, definite.names⟩,
          List.forall_mem_cons.2 ⟨hnew.1, definite.new⟩,
          List.forall_mem_cons.2 ⟨formals d ?_, definite.formals⟩⟩
        · obtain ⟨d', hd', heq⟩ := List.mem_map.1 hmem
          exact hnew.2 d' hd' (beq_iff_eq.2 heq)
        · exact List.mem_filterMap.2 ⟨s, List.mem_cons_self, hd⟩
    · obtain ⟨s', hs', hd⟩ := List.mem_filterMap.1 hd
      exact List.mem_filterMap.2 ⟨s', List.mem_cons_of_mem s hs', hd⟩

end Lowering

namespace Program

variable {p : Program}

/-- A statement and what replaces it give the same instructions. -/
theorem Replaces.statement {s : Statement} {list : List Statement} (h : p.Replaces s list)
    {l l' : Lowering} (lays : l.registers.Lays p.statements) (definite : Definite p.definitions)
    (sub : l.definitions ⊆ p.definitions) {here : List Instruction}
    (hs : l.statement s = .ok (l', here)) :
    (⟨l.registers, []⟩ : Lowering).statements list = .ok here := by
  cases h with
  | definition =>
    rw [Lowering.statement_gateDefinition, map_eq_ok] at hs
    obtain ⟨_, -, heq⟩ := hs
    cases heq
    rfl
  | @defined call position out defined hout =>
    rw [Lowering.statement_call, map_eq_ok] at hs
    obtain ⟨_, hcall, heq⟩ := hs
    cases heq
    obtain ⟨bounds, lists, stands, expands, rfl⟩ := Lowering.exists_of_call_eq_ok lays defined hcall
    obtain ⟨outLists, hlists, hflatten⟩ :=
      hout.lower (l := ⟨l.registers, []⟩) definite sub stands expands
    rw [← hflatten]
    exact Lowering.statements_calls hlists
  | other hnone builtIn =>
    have alone := Lowering.statement_of_isBuiltIn hnone builtIn hs
    exact Lowering.statements_cons_eq_ok.2 ⟨_, here, alone, [], rfl, List.append_nil here⟩

/-- The second pass gives the same instructions for statements and for what replaces them. -/
theorem Replaces.statements {statements : List Statement} {lists : List (List Statement)}
    (h : List.Forall₂ p.Replaces statements lists) {l : Lowering}
    (lays : l.registers.Lays p.statements) (definite : Definite p.definitions)
    (sub : l.definitions ⊆ p.definitions) (part : statements ⊆ p.statements)
    {out : List Instruction} (hout : l.statements statements = .ok out) :
    (⟨l.registers, []⟩ : Lowering).statements lists.flatten = .ok out := by
  induction h generalizing l out with
  | nil => exact hout
  | @cons s list statements lists hs _ ih =>
    obtain ⟨l', here, hhere, others, hothers, rfl⟩ := Lowering.statements_cons_eq_ok.1 hout
    obtain ⟨hregisters, -⟩ := Lowering.definitions_of_statement hhere
    have rest := ih (hregisters ▸ lays) (definitions_subset sub (part List.mem_cons_self) hhere)
      (fun x hx => part (List.mem_cons_of_mem s hx)) hothers
    rw [hregisters] at rest
    rw [List.flatten_cons]
    exact Lowering.statements_append (fun x hx => (hs.isWrittenOut x hx).1)
      (hs.statement lays definite sub hhere) rest

/-- A statement that the second pass accepts can be replaced. -/
theorem exists_replaces {s : Statement} {l l' : Lowering}
    (lays : l.registers.Lays p.statements) (sub : l.definitions ⊆ p.definitions)
    {here : List Instruction} (hs : l.statement s = .ok (l', here)) :
    ∃ list, p.Replaces s list := by
  obtain ⟨kind, position⟩ := s
  cases kind with
  | gateDefinition d => exact ⟨_, .definition⟩
  | call c =>
    cases builtIn : isBuiltIn c.name with
    | true =>
      refine ⟨_, .other rfl fun call hcall => ?_⟩
      cases hcall
      exact builtIn
    | false =>
      rw [Lowering.statement_call, map_eq_ok] at hs
      obtain ⟨_, hcall, -⟩ := hs
      obtain ⟨bounds, lists, stands, expands, -⟩ :=
        Lowering.exists_of_call_eq_ok lays builtIn hcall
      obtain ⟨out, hout⟩ := exists_inlines sub (stands.imp fun _ _ h => h.name) expands
      exact ⟨_, .defined builtIn hout⟩
  | _ => exact ⟨_, .other rfl fun _ hcall => by cases hcall⟩

theorem exists_forall₂_replaces {statements : List Statement} {l : Lowering}
    (lays : l.registers.Lays p.statements) (sub : l.definitions ⊆ p.definitions)
    (part : statements ⊆ p.statements) {out : List Instruction}
    (hout : l.statements statements = .ok out) :
    ∃ lists, List.Forall₂ p.Replaces statements lists := by
  induction statements generalizing l out with
  | nil => exact ⟨[], .nil⟩
  | cons s statements ih =>
    obtain ⟨l', here, hhere, others, hothers, rfl⟩ := Lowering.statements_cons_eq_ok.1 hout
    obtain ⟨hregisters, -⟩ := Lowering.definitions_of_statement hhere
    obtain ⟨list, hlist⟩ := exists_replaces lays sub hhere
    obtain ⟨lists, hlists⟩ := ih (hregisters ▸ lays)
      (definitions_subset sub (part List.mem_cons_self) hhere)
      (fun x hx => part (List.mem_cons_of_mem s hx)) hothers
    exact ⟨list :: lists, .cons hlist hlists⟩

/-- A statement is replaced in one way only. -/
theorem Replaces.unique (definite : Definite p.definitions) {s : Statement}
    {list list' : List Statement} (h : p.Replaces s list) (h' : p.Replaces s list') :
    list = list' := by
  cases h with
  | definition =>
    cases h' with
    | definition => rfl
    | other hnone _ => cases hnone
  | defined defined hout =>
    cases h' with
    | defined _ hout' => rw [hout.unique definite hout']
    | other _ builtIn =>
      rw [builtIn _ rfl] at defined
      cases defined
  | other hnone builtIn =>
    cases h' with
    | definition => cases hnone
    | defined defined _ =>
      rw [builtIn _ rfl] at defined
      cases defined
    | other _ _ => rfl

/-- A program that is written out defines no gate and calls no defined one. -/
theorem InlinesTo.isWrittenOut {p' : Program} (h : p.InlinesTo p') {s : Statement}
    (hs : s ∈ p'.statements) : s.definition? = none ∧
      ∀ call, s.kind = .call call → isBuiltIn call.name = true := by
  obtain ⟨-, lists, hlists, hstatements⟩ := h
  rw [hstatements] at hs
  clear hstatements
  generalize p.statements = statements at hlists
  induction hlists with
  | nil => cases hs
  | cons hreplaces _ ih =>
    rcases List.mem_append.1 hs with hs | hs
    · exact hreplaces.isWrittenOut s hs
    · exact ih hs

/-- A program is written out in one way only. -/
theorem InlinesTo.unique (definite : Definite p.definitions) {p₁ p₂ : Program}
    (h₁ : p.InlinesTo p₁) (h₂ : p.InlinesTo p₂) : p₁ = p₂ := by
  obtain ⟨hversion₁, lists₁, hlists₁, hstatements₁⟩ := h₁
  obtain ⟨hversion₂, lists₂, hlists₂, hstatements₂⟩ := h₂
  have hlists : lists₁ = lists₂ := by
    have unique : Relator.RightUnique p.Replaces := fun _ _ _ h h' => h.unique definite h'
    exact unique.forall₂ hlists₁ hlists₂
  obtain ⟨version₁, statements₁⟩ := p₁
  obtain ⟨version₂, statements₂⟩ := p₂
  congr 1
  · exact hversion₁.trans hversion₂.symm
  · rw [show statements₁ = lists₁.flatten from hstatements₁, hlists]
    exact hstatements₂.symm

/-- Where the second pass succeeds, names tell the gate definitions apart. -/
theorem definite_of_toCircuit (formals : ∀ d ∈ p.definitions, d.params.Nodup) {rs : Registers}
    {instructions : List Instruction}
    (h : (⟨rs, []⟩ : Lowering).statements p.statements = .ok instructions) :
    Definite p.definitions := by
  have none : Definite [] := ⟨.nil, by simp, by simp⟩
  have behind := Lowering.definite_of_statements (l := ⟨rs, []⟩) none formals h
  have heq : (⟨rs, []⟩ : Lowering).definitionsBehind p.statements = p.definitions.reverse :=
    List.append_nil _
  rw [heq] at behind
  obtain ⟨names, new, formals⟩ := behind
  rw [List.map_reverse, List.nodup_reverse] at names
  exact ⟨names, fun d hd => new d (List.mem_reverse.2 hd),
    fun d hd => formals d (List.mem_reverse.2 hd)⟩

/-- **Gate definitions are full inlining.**  A program that has a circuit can be written out
without gate definitions, in one way only, and the program that is left has the same circuit.
Folding at every level on the way gives what one replacement and one folding give, and a variable
of a body that is no formal angle is left as it is. -/
theorem toCircuit_inlinesTo (formals : ∀ d ∈ p.definitions, (d.params ++ d.qubits).Nodup)
    {c : Circuit} (h : p.toCircuit = .ok c) :
    (∃! p', p.InlinesTo p') ∧
      (∀ p', p.InlinesTo p' → p'.definitions = [] ∧
        (∀ s ∈ p'.statements, ∀ call, s.kind = .call call → isBuiltIn call.name = true) ∧
        p'.toCircuit = .ok c) ∧
      (∀ (inner outer : String → Option Angle) (e : Angle),
        (e.substitute fun x => (inner x).map fun a => (a.substitute outer).simplify).simplify =
          (e.substitute fun x => (inner x).map fun a => a.substitute outer).simplify) ∧
      ∀ (d : GateDefinition) (args : List Angle), args.length = d.params.length →
        ∀ (e : Angle) (x : String),
          x ∈ (e.substitute fun y => (d.params.zip args).lookup y).occurrences ↔
            x ∈ e.occurrences ∧ x ∉ d.params ∨
              ∃ y ∈ e.occurrences, ∃ a, (d.params.zip args).lookup y = some a ∧
                x ∈ a.occurrences := by
  obtain ⟨rs, hrs, h⟩ := bind_eq_ok.1 h
  obtain ⟨instructions, hinstructions, heq⟩ := bind_eq_ok.1 h
  have lays := Registers.lays_of_ofStatements hrs
  have definite : Definite p.definitions :=
    definite_of_toCircuit (fun d hd => (formals d hd).of_append_left) hinstructions
  have sub : (⟨rs, []⟩ : Lowering).definitions ⊆ p.definitions := List.nil_subset _
  refine ⟨?_, fun p' hp' => ⟨?_, ?_, ?_⟩, Angle.simplify_substitute_nested, ?_⟩
  · obtain ⟨lists, hlists⟩ :=
      exists_forall₂_replaces (l := ⟨rs, []⟩) lays sub (List.Subset.refl _) hinstructions
    refine ⟨⟨p.version, lists.flatten⟩, ⟨rfl, lists, hlists, rfl⟩, fun p' hp' => ?_⟩
    exact hp'.unique definite ⟨rfl, lists, hlists, rfl⟩
  · exact List.filterMap_eq_nil_iff.2 fun s hs => (hp'.isWrittenOut hs).1
  · exact fun s hs => (hp'.isWrittenOut hs).2
  · have first := hp'.ofStatements
    obtain ⟨-, lists, hlists, hstatements⟩ := hp'
    have second := Replaces.statements hlists (l := ⟨rs, []⟩) lays definite sub
      (List.Subset.refl _) hinstructions
    rw [← hstatements] at second
    refine bind_eq_ok.2 ⟨rs, first.trans hrs, ?_⟩
    exact bind_eq_ok.2 ⟨instructions, second, heq⟩
  · intro d args harity e x
    have hnone : (d.params.zip args).lookup x = none ↔ x ∉ d.params := by
      rw [lookup_eq_none_iff_notMem, List.map_fst_zip (Nat.le_of_eq harity.symm)]
    rw [Angle.mem_occurrences_substitute, hnone]

/-- The call of a gate that calls a gate, on a register and a bit.  A free variable of the inner
body has the name of the outer gate's formal angle. -/
def nestedCalls : Program where
  version := none
  statements := [
    ⟨.qreg "q" 2, ⟨1, 1⟩⟩,
    ⟨.qreg "r" 1, ⟨2, 1⟩⟩,
    ⟨.gateDefinition ⟨"turn", ["t"], ["u"],
      [⟨"rx", [.binary .add (.var "t") (.var "s")], [.register "u"]⟩]⟩, ⟨3, 1⟩⟩,
    ⟨.gateDefinition ⟨"both", ["s"], ["u", "v"],
      [⟨"turn", [.neg (.var "s")], [.register "v"]⟩,
        ⟨"cx", [], [.register "u", .register "v"]⟩]⟩, ⟨4, 1⟩⟩,
    ⟨.call ⟨"both", [.var "x"], [.register "q", .element "r" 0]⟩, ⟨5, 1⟩⟩]

/-- The instructions of the call on one bit of the register. -/
def turnedAt (control : UInt32) : List Instruction :=
  [.gate ⟨.rotation .x (.binary .add (.neg (.var "x")) (.var "s")), .zero⟩ [⟨2⟩],
    .gate ⟨.fixed .x, .one⟩ [⟨control⟩, ⟨2⟩]]

theorem toCircuit_inlinesTo_nestedCalls :
    (∀ d ∈ nestedCalls.definitions, (d.params ++ d.qubits).Nodup) ∧
      nestedCalls.toCircuit = .ok ⟨3, 0, turnedAt 0 ++ turnedAt 1⟩ ∧
      (∃! p', nestedCalls.InlinesTo p') ∧
      ∀ p', nestedCalls.InlinesTo p' → p'.toCircuit = .ok ⟨3, 0, turnedAt 0 ++ turnedAt 1⟩ := by
  have formals : ∀ d ∈ nestedCalls.definitions, (d.params ++ d.qubits).Nodup := by
    simp only [nestedCalls, definitions, Statement.definition?, List.filterMap_cons,
      List.filterMap_nil, List.forall_mem_cons]
    decide
  have circuit : nestedCalls.toCircuit = .ok ⟨3, 0, turnedAt 0 ++ turnedAt 1⟩ := rfl
  obtain ⟨unique, same, -⟩ := toCircuit_inlinesTo formals circuit
  exact ⟨formals, circuit, unique, fun p' hp' => (same p' hp').2.2⟩

end Program

end FlatQasm
