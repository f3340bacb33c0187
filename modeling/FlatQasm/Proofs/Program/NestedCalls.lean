import FlatQasm.Proofs.Program.Inlining

/-!
# Calls inside calls

A call of a defined gate makes the calls of its body, and nothing counts how many calls are open at
once.  Here gates are looked up by their names among all definitions so far, in bodies too, and the
calls that may be open at once are limited.  One more than there are definitions is always enough,
whatever the program is: a definition is accepted only when its name is new and when its body calls
what is known already, so the definitions are in an order in which every call goes back.

## Main definitions

* `applyGate`, `Program.toCircuitByName` — the second pass with limited room for open calls.
* `Ordered` — definitions of which each calls only those before it.
* `OpenCalls` — calls that are open at once, each in the body of the one before.

## Main statements

* `applyGate_eq` — with enough room a call gives what expanding it gives.
* `OpenCalls.length_le` — how many calls are open at once.
* `Program.toCircuitByName_eq` — the second pass never runs out of room.
-/

namespace FlatQasm

variable {definitions earlier : List GateDefinition}

/-! ## Looking gates up by their names -/

/-- The definition of a name; of several, the latest. -/
def named? (name : String) (definitions : List GateDefinition) : Option GateDefinition :=
  definitions.find? (·.name == name)

/-- Why a call gives no instructions: too many calls are open, or it fails. -/
inductive Stop where
  | noRoom
  | failed (cause : ImportError)

/-- The instructions of a call, when gates are looked up by their names among all definitions.  The
call is open until those of its body have given their instructions, and `room` more calls than are
open already can be open at once. -/
def applyGate (qubitCount clbitCount : UInt32) (p : Position) (definitions : List GateDefinition) :
    (room : Nat) → BoundCall → Except Stop (List Instruction)
  | 0, _ => .error .noRoom
  | room + 1, call =>
    match signature? call.name with
    | some signature => Except.mapError .failed do
      call.checkArity p ⟨signature.paramCount, signature.qubitCount⟩
      let i ← builtInInstruction qubitCount clbitCount signature call
      .ok [i]
    | none =>
      match named? call.name definitions with
      | none => .error (.failed (.unknownGate p call.name))
      | some d => do
        (call.checkArity p d.arity).mapError .failed
        let lists ← d.body.mapM fun inner => do
          let bound ← (d.instantiate p call inner).mapError .failed
          applyGate qubitCount clbitCount p definitions room bound
        .ok lists.flatten

namespace Lowering

/-- The instructions of a gate call of a statement, with room for one call more than there are
definitions. -/
def callByName (l : Lowering) (p : Position) (c : GateCall) : Except Stop (List Instruction) := do
  let resolved ← (c.operands.mapM (l.registers.qubits p)).mapError .failed
  match commonSize? resolved with
  | none => .error (.failed (.broadcastMismatch p (.callSizes c.name)))
  | some count =>
    forEachIndex (fun i =>
      applyGate l.qubitCount l.clbitCount p l.definitions (l.definitions.length + 1)
        ⟨c.name, c.params, resolved.map fun r => ⟨(r.bitAt i).toUInt32⟩⟩) count 0

/-- What a statement changes and gives; only gate calls make other calls. -/
def statementByName (l : Lowering) (s : Statement) : Except Stop (Lowering × List Instruction) :=
  match s.kind with
  | .call c => (l.callByName s.position c).map ((l, ·))
  | _ => (l.statement s).mapError .failed

/-- The instructions of statements, in order. -/
def statementsByName (l : Lowering) : List Statement → Except Stop (List Instruction)
  | [] => .ok []
  | s :: rest => do
    let (l, here) ← l.statementByName s
    let others ← l.statementsByName rest
    .ok (here ++ others)

end Lowering

/-- The circuit of a program, when gates are looked up by their names. -/
def Program.toCircuitByName (p : Program) : Except Stop Circuit := do
  let registers ← (Registers.ofStatements p.statements).mapError .failed
  let l : Lowering := ⟨registers, []⟩
  let instructions ← l.statementsByName p.statements
  .ok ⟨l.qubitCount, l.clbitCount, instructions⟩

/-! ## The order of definitions -/

/-- Definitions, the latest first, of which each has a new name, and calls only built-in gates and
gates of definitions before it. -/
inductive Ordered : List GateDefinition → Prop
  | nil : Ordered []
  | cons {d : GateDefinition} {earlier : List GateDefinition} :
      isBuiltIn d.name = false → d.name ∉ earlier.map GateDefinition.name →
      (∀ call ∈ d.body,
        isBuiltIn call.name = true ∨ call.name ∈ earlier.map GateDefinition.name) →
      Ordered earlier → Ordered (d :: earlier)

namespace Ordered

variable {d : GateDefinition}

theorem of_suffix (ordered : Ordered definitions) (suffix : earlier <:+ definitions) :
    Ordered earlier := by
  induction ordered with
  | nil =>
    rw [List.suffix_nil] at suffix
    subst suffix
    exact .nil
  | cons builtIn new calls ordered ih =>
    rw [List.suffix_cons_iff] at suffix
    cases suffix with
    | inl h =>
      subst h
      exact .cons builtIn new calls ordered
    | inr h => exact ih h

/-- No definition has the name of a built-in gate. -/
theorem isBuiltIn_eq_false (ordered : Ordered definitions) {name : String}
    (h : name ∈ definitions.map GateDefinition.name) : isBuiltIn name = false := by
  induction ordered with
  | nil => simp at h
  | cons builtIn _ _ _ ih =>
    rw [List.map_cons, List.mem_cons] at h
    cases h with
    | inl h => rw [h, builtIn]
    | inr h => exact ih h

/-- Every definition is found by its name. -/
theorem named?_eq_some (ordered : Ordered definitions) (suffix : d :: earlier <:+ definitions) :
    named? d.name definitions = some d := by
  induction ordered with
  | nil => simp at suffix
  | @cons d' earlier' _ new _ _ ih =>
    rw [List.suffix_cons_iff] at suffix
    cases suffix with
    | inl h =>
      cases h
      simp [named?]
    | inr h =>
      have hne : d'.name ≠ d.name := by
        intro heq
        rw [heq] at new
        exact new (List.mem_map_of_mem (h.subset List.mem_cons_self))
      rw [named?, List.find?_cons_of_neg (by simpa using hne)]
      exact ih h

/-- A call in a body goes back. -/
theorem mem_earlier (ordered : Ordered definitions) (suffix : d :: earlier <:+ definitions)
    {call : GateCall} (hcall : call ∈ d.body)
    (hname : call.name ∈ definitions.map GateDefinition.name) :
    call.name ∈ earlier.map GateDefinition.name := by
  cases ordered.of_suffix suffix with
  | cons _ _ calls _ =>
    refine (calls call hcall).resolve_left ?_
    simp [ordered.isBuiltIn_eq_false hname]

end Ordered

/-- A name that is defined is expanded with its latest definition. -/
theorem exists_expandDefined_eq {name : String}
    (h : name ∈ definitions.map GateDefinition.name) :
    ∃ d earlier, d :: earlier <:+ definitions ∧ d.name = name ∧
      ∀ q c p call, BoundCall.name call = name →
        expandDefined q c p definitions call = expandDefined q c p (d :: earlier) call := by
  induction definitions with
  | nil => simp at h
  | cons d rest ih =>
    by_cases hd : d.name = name
    · exact ⟨d, rest, List.suffix_rfl, hd, fun _ _ _ _ _ => rfl⟩
    · rw [List.map_cons, List.mem_cons] at h
      obtain ⟨d', earlier, suffix, hname, hexpand⟩ := ih (h.resolve_left (Ne.symm hd))
      refine ⟨d', earlier, suffix.trans (List.suffix_cons d rest), hname, ?_⟩
      intro q c p call hcall
      rw [expandDefined_of_name_ne (hcall ▸ hd), hexpand q c p call hcall]

theorem expandDefined_of_not_mem {q c : UInt32} {p : Position} {call : BoundCall}
    (h : call.name ∉ definitions.map GateDefinition.name) :
    expandDefined q c p definitions call = .error (.unknownGate p call.name) := by
  induction definitions with
  | nil => rfl
  | cons d rest ih =>
    rw [List.map_cons, List.mem_cons, not_or] at h
    rw [expandDefined_of_name_ne (Ne.symm h.1), ih h.2]

theorem named?_eq_none {name : String} (h : name ∉ definitions.map GateDefinition.name) :
    named? name definitions = none := by
  rw [named?, List.find?_eq_none]
  intro d hd heq
  exact h (List.mem_map.2 ⟨d, hd, by simpa using heq⟩)

/-- **With enough room a call gives what expanding it gives.**  The gate is built-in, or it is among
the definitions that are left, or among none; every call in a body leaves fewer definitions, and
takes one place. -/
theorem applyGate_eq {q c : UInt32} {p : Position} (ordered : Ordered definitions)
    (suffix : earlier <:+ definitions) {call : BoundCall}
    (seen : call.name ∈ definitions.map GateDefinition.name →
      call.name ∈ earlier.map GateDefinition.name)
    {room : Nat} (hroom : earlier.length < room) :
    applyGate q c p definitions room call =
      (callGate q c p (expandDefined q c p earlier) call).mapError .failed := by
  induction room generalizing earlier call with
  | zero => cases hroom
  | succ room ih =>
    rw [applyGate]
    cases hs : signature? call.name with
    | some s => rw [callGate_of_builtIn hs]
    | none =>
      rw [callGate_of_defined hs]
      dsimp only
      by_cases hmem : call.name ∈ definitions.map GateDefinition.name
      · obtain ⟨d, before, hbefore, hname, hexpand⟩ := exists_expandDefined_eq (seen hmem)
        have found : named? call.name definitions = some d :=
          hname ▸ ordered.named?_eq_some (hbefore.trans suffix)
        have body : ∀ inner ∈ d.body,
            ((d.instantiate p call inner).mapError Stop.failed >>=
              applyGate q c p definitions room) =
            (d.instantiate p call inner >>=
              callGate q c p (expandDefined q c p before)).mapError Stop.failed := by
          intro inner hinner
          cases hbound : d.instantiate p call inner with
          | error e => rfl
          | ok bound =>
            have hlength := hbefore.length_le
            rw [List.length_cons] at hlength
            refine ih ((List.suffix_cons d before).trans (hbefore.trans suffix)) ?_ (by omega)
            rw [(GateDefinition.of_instantiate_eq_ok hbound).1]
            exact ordered.mem_earlier (hbefore.trans suffix) hinner
        rw [found, hexpand q c p call rfl, expandDefined_of_name_eq hname]
        dsimp only
        rw [mapError_bind]
        congr 1
        funext _
        rw [mapError_bind, mapM_eq_mapError body]
        rfl
      · rw [named?_eq_none hmem, expandDefined_of_not_mem]
        · rfl
        · intro h
          exact hmem ((suffix.map _).subset h)

/-! ## Calls that are open at once -/

/-- Calls that are open at once, the innermost first: a call that a statement makes, and the calls
that are made in the body of the call before. -/
inductive OpenCalls (p : Position) (definitions : List GateDefinition) : List BoundCall → Prop
  | statement (call : BoundCall) : OpenCalls p definitions [call]
  | body {outer inner : BoundCall} {others : List BoundCall} {d : GateDefinition}
      {call : GateCall} : OpenCalls p definitions (outer :: others) →
      named? outer.name definitions = some d → call ∈ d.body →
      d.instantiate p outer call = .ok inner → OpenCalls p definitions (inner :: outer :: others)

theorem isSome_named? {name : String} :
    (named? name definitions).isSome ↔ name ∈ definitions.map GateDefinition.name := by
  simp [named?, List.mem_map]

/-- The definitions that are left for the innermost call, together with the calls around it, are no
more than there are definitions. -/
theorem OpenCalls.exists_earlier {p : Position} (ordered : Ordered definitions)
    {inner : BoundCall} {others : List BoundCall}
    (h : OpenCalls p definitions (inner :: others)) :
    ∃ earlier, earlier <:+ definitions ∧ earlier.length + others.length ≤ definitions.length ∧
      (inner.name ∈ definitions.map GateDefinition.name →
        inner.name ∈ earlier.map GateDefinition.name) := by
  induction others generalizing inner with
  | nil => exact ⟨definitions, List.suffix_rfl, Nat.le_refl _, id⟩
  | cons outer others ih =>
    cases h with
    | @body _ _ _ d call houter found hcall hinner =>
      obtain ⟨left, suffix, hlength, seen⟩ := ih houter
      have hmem : outer.name ∈ definitions.map GateDefinition.name := by
        rw [← isSome_named?, found]
        rfl
      obtain ⟨d', before, hbefore, hname, -⟩ := exists_expandDefined_eq (seen hmem)
      obtain rfl : d' = d := by
        have found' := ordered.named?_eq_some (hbefore.trans suffix)
        rw [hname, found] at found'
        exact (Option.some.inj found').symm
      have hfewer := hbefore.length_le
      rw [List.length_cons] at hfewer
      refine ⟨before, (List.suffix_cons d' before).trans (hbefore.trans suffix), ?_, ?_⟩
      · rw [List.length_cons]
        omega
      · rw [(GateDefinition.of_instantiate_eq_ok hinner).1]
        exact ordered.mem_earlier (hbefore.trans suffix) hcall

/-- No more calls are open at once than there are definitions, and one. -/
theorem OpenCalls.length_le {p : Position} (ordered : Ordered definitions)
    {calls : List BoundCall} (h : OpenCalls p definitions calls) :
    calls.length ≤ definitions.length + 1 := by
  cases calls with
  | nil => exact Nat.zero_le _
  | cons inner others =>
    obtain ⟨earlier, -, hlength, -⟩ := h.exists_earlier ordered
    rw [List.length_cons]
    omega

/-! ## Statements -/

theorem forEachIndex_eq_mapError {ε ε' α : Type} {f : Nat → Except ε (List α)}
    {g : Nat → Except ε' (List α)} {change : ε → ε'} (h : ∀ i, g i = (f i).mapError change)
    (count first : Nat) :
    forEachIndex g count first = (forEachIndex f count first).mapError change := by
  induction count generalizing first with
  | zero => rfl
  | succ count ih =>
    rw [forEachIndex_succ, forEachIndex_succ, h, ih, mapError_bind]
    exact bind_congr fun here => mapError_map.symm

namespace Lowering

variable {l l' : Lowering} {s : Statement} {here : List Instruction}

/-- From one point of the second pass to another: the statements in between are accepted. -/
inductive Runs : Lowering → List Statement → Lowering → Prop
  | nil {l : Lowering} : Runs l [] l
  | cons {l l' l'' : Lowering} {s : Statement} {rest : List Statement} {here : List Instruction} :
      l.statement s = .ok (l', here) → Runs l' rest l'' → Runs l (s :: rest) l''

@[simp] theorem knows_eq_true {gate : String} : l.knows gate = true ↔
    isBuiltIn gate = true ∨ gate ∈ l.definitions.map GateDefinition.name := by
  simp [knows, List.mem_map]

/-- A statement adds at most one definition, whose name is not known, and whose body calls what is
known. -/
theorem definitions_step (h : l.statement s = .ok (l', here)) :
    l'.definitions = l.definitions ∨ ∃ d, l'.definitions = d :: l.definitions ∧
      l.knows d.name = false ∧ ∀ call ∈ d.body, l.knows call.name = true := by
  obtain ⟨-, hdefinitions⟩ := definitions_of_statement h
  cases hd : s.definition? with
  | none =>
    left
    rw [hdefinitions, hd]
    rfl
  | some d =>
    obtain ⟨new, calls, -⟩ := define_eq_ok.1 (define_of_statement h hd)
    right
    refine ⟨d, ?_, new, calls⟩
    rw [hdefinitions, hd]
    rfl

theorem ordered_step (ordered : Ordered l.definitions) (h : l.statement s = .ok (l', here)) :
    Ordered l'.definitions := by
  cases definitions_step h with
  | inl hsame => rwa [hsame]
  | inr hmore =>
    obtain ⟨d, hmore, new, calls⟩ := hmore
    rw [hmore]
    rw [Bool.eq_false_iff, ne_eq, knows_eq_true, not_or] at new
    exact .cons (by simpa using new.1) new.2 (fun call hcall => knows_eq_true.1 (calls call hcall))
      ordered

/-- A definition that is found stays the one that is found. -/
theorem named?_step (h : l.statement s = .ok (l', here)) {name : String} {d : GateDefinition}
    (found : named? name l.definitions = some d) : named? name l'.definitions = some d := by
  cases definitions_step h with
  | inl hsame => rwa [hsame]
  | inr hmore =>
    obtain ⟨d', hmore, new, -⟩ := hmore
    have hmem : name ∈ l.definitions.map GateDefinition.name := by
      rw [← isSome_named?, found]
      rfl
    have hne : d'.name ≠ name := by
      intro heq
      rw [heq, knows_eq_true.2 (.inr hmem)] at new
      cases new
    rw [hmore, named?, List.find?_cons_of_neg (by simpa using hne)]
    exact found

theorem Runs.ordered {list : List Statement} (h : Runs l list l')
    (ordered : Ordered l.definitions) : Ordered l'.definitions := by
  induction h with
  | nil => exact ordered
  | cons hs _ ih => exact ih (ordered_step ordered hs)

theorem Runs.named? {list : List Statement} (h : Runs l list l') {name : String}
    {d : GateDefinition} (found : named? name l.definitions = some d) :
    FlatQasm.named? name l'.definitions = some d := by
  induction h with
  | nil => exact found
  | cons hs _ ih => exact ih (named?_step hs found)

theorem callByName_eq (ordered : Ordered l.definitions) (p : Position) (c : GateCall) :
    l.callByName p c = (l.call p c).mapError .failed := by
  rw [callByName, call, mapError_bind]
  congr 1
  funext resolved
  cases commonSize? resolved with
  | none => rfl
  | some count =>
    refine forEachIndex_eq_mapError ?_ count 0
    intro i
    exact applyGate_eq ordered List.suffix_rfl id (Nat.lt_succ_self _)

theorem statementByName_eq (ordered : Ordered l.definitions) (s : Statement) :
    l.statementByName s = (l.statement s).mapError .failed := by
  rw [statementByName]
  split
  · next c hkind =>
    rw [callByName_eq ordered, statement, hkind]
    dsimp only
    cases l.call s.position c <;> rfl
  · rfl

theorem statementsByName_eq (ordered : Ordered l.definitions) (list : List Statement) :
    l.statementsByName list = (l.statements list).mapError .failed := by
  induction list generalizing l with
  | nil => rfl
  | cons s rest ih =>
    rw [statementsByName, statements_cons, statementByName_eq ordered, mapError_bind]
    cases hs : l.statement s with
    | error e => rfl
    | ok result =>
      obtain ⟨l', here⟩ := result
      have others := ih (ordered_step ordered hs)
      simp only [ok_mapError, ok_bind, others]
      cases l'.statements rest <;> rfl

end Lowering

/-- **The second pass ends with one open call more than there are definitions, at most.**  Looking
gates up by their names never runs out of room, and gives the same circuit or error.  At every point
of the pass the definitions are in order, each definition is found by its name until the end, and
no more calls can be open at once. -/
theorem Program.toCircuitByName_eq (p : Program) :
    p.toCircuitByName = p.toCircuit.mapError .failed ∧
      ∀ registers before l, Registers.ofStatements p.statements = .ok registers →
        before <+: p.statements → Lowering.Runs ⟨registers, []⟩ before l →
        Ordered l.definitions ∧
          (∀ after l' name d, l.Runs after l' → named? name l.definitions = some d →
            named? name l'.definitions = some d) ∧
          ∀ position calls, OpenCalls position l.definitions calls →
            calls.length ≤ l.definitions.length + 1 := by
  constructor
  · rw [toCircuitByName, toCircuit, mapError_bind]
    congr 1
    funext registers
    have instructions :
        (⟨registers, []⟩ : Lowering).statementsByName p.statements = _ :=
      Lowering.statementsByName_eq .nil p.statements
    dsimp only
    rw [instructions, mapError_bind]
    rfl
  · intro registers before l _ _ hruns
    have ordered := hruns.ordered .nil
    refine ⟨ordered, ?_, ?_⟩
    · intro after l' name d hafter found
      exact hafter.named? found
    · intro position calls hcalls
      exact hcalls.length_le ordered

/-- Two definitions, of which the later one calls the earlier one, and a call of the later one. -/
def chainedGates : Program where
  version := none
  statements :=
    [⟨.qreg "q" 1, ⟨1, 1⟩⟩,
      ⟨.gateDefinition ⟨"a", [], ["t"], [⟨"x", [], [.register "t"]⟩]⟩, ⟨2, 1⟩⟩,
      ⟨.gateDefinition ⟨"b", [], ["t"], [⟨"a", [], [.register "t"]⟩]⟩, ⟨3, 1⟩⟩,
      ⟨.call ⟨"b", [], [.element "q" 0]⟩, ⟨4, 1⟩⟩]

/-- The bound is reached: three calls are open at once in front of the last statement. -/
theorem Program.toCircuitByName_eq_chainedGates :
    ∃ l, Lowering.Runs ⟨⟨[("q", ⟨0, 1⟩)], [], 1, 0⟩, []⟩ (chainedGates.statements.take 3) l ∧
      OpenCalls ⟨4, 1⟩ l.definitions
        [⟨"x", [], [⟨0⟩]⟩, ⟨"a", [], [⟨0⟩]⟩, ⟨"b", [], [⟨0⟩]⟩] ∧
      ∀ calls, OpenCalls ⟨4, 1⟩ l.definitions calls → calls.length ≤ 3 := by
  have hruns : Lowering.Runs ⟨⟨[("q", ⟨0, 1⟩)], [], 1, 0⟩, []⟩ (chainedGates.statements.take 3)
      _ := .cons rfl (.cons rfl (.cons rfl .nil))
  refine ⟨_, hruns, ?_, ?_⟩
  · exact .body (.body (.statement _) rfl (.head _) rfl) rfl (.head _) rfl
  · intro calls hcalls
    have bounded := chainedGates.toCircuitByName_eq.2 _ _ _ rfl (List.take_prefix 3 _) hruns
    exact bounded.2.2 _ calls hcalls

end FlatQasm
