import FlatQasm.Proofs.Program.Refusal

/-!
# Well-scoped programs

What the parser checks with tables of names is said here of the program alone.  Names of registers
are distinct, and so are those of gates.  A gate is defined before it is used, and every use gives
it as many angles and operands as it takes.  The two descriptions are the same: a program is well
scoped exactly when each of its statements is accepted behind those before it.

Whether the operands of a statement are registers at all is not a matter of scope; the parser does
not look at it.

## Main definitions

* `GateCall.IsKnown` — a call of a built-in gate or of a defined one.
* `Program.WellScoped` — what holds of every parsed program.

## Main statements

* `Program.wellScoped_iff_acceptedFrom` — well scoped is what the parser accepts.
* `Program.wellScoped_of_parse` — a parsed program is well scoped, and its angles are checked.
-/

namespace FlatQasm

/-- A call of a built-in gate or of one of some definitions, with as many angles and operands as
the gate takes. -/
def GateCall.IsKnown (definitions : List GateDefinition) (c : GateCall) : Prop :=
  (∃ s, signature? c.name = some s ∧ c.params.length = s.paramCount ∧
    c.operands.length = s.qubitCount) ∨
  ∃ d ∈ definitions, d.name = c.name ∧ c.params.length = d.params.length ∧
    c.operands.length = d.qubits.length

/-- The register of either kind that a statement declares. -/
def Statement.register? (s : Statement) : Option (String × UInt32) :=
  match s.kind with
  | .qreg name size | .creg name size => some (name, size)
  | _ => none

/-- The registers of a program with their sizes, in the order in which they are declared. -/
def Program.registers (p : Program) : List (String × UInt32) :=
  p.statements.filterMap Statement.register?

/-- What holds of a gate definition wherever it stands. -/
structure GateDefinition.WellFormed (d : GateDefinition) : Prop where
  new : isBuiltIn d.name = false
  formals : (d.params ++ d.qubits).Nodup
  qubits : d.qubits ≠ []
  operands : ∀ c ∈ d.body, ∀ o ∈ c.operands, ∃ q ∈ d.qubits, o = .register q

/-- Every name is declared once and before it is used. -/
structure Program.WellScoped (p : Program) : Prop where
  registers : (p.registers.map Prod.fst).Nodup
  sizes : ∀ r ∈ p.registers, 1 ≤ r.2.toNat ∧ r.2.toNat < UInt32.size
  gates : (p.definitions.map GateDefinition.name).Nodup
  definitions : ∀ d ∈ p.definitions, d.WellFormed
  /-- The gate of a call is defined in an earlier statement, so that no gate calls itself. -/
  calls : ∀ before s after, p.statements = before ++ s :: after → ∀ c ∈ s.calls,
    c.IsKnown (before.filterMap Statement.definition?)
  barriers : ∀ s ∈ p.statements, ∀ targets, s.kind = .barrier targets → targets ≠ []

/-! ## Statements behind others -/

/-- Statements are accepted in turn when each is accepted behind those before it. -/
theorem acceptedFrom_iff {scope : Scope} {statements : List Statement} :
    AcceptedFrom scope statements ↔ ∀ before s after, statements = before ++ s :: after →
      s.Accepted (scope.behind before) := by
  refine ⟨?_, fun h => ?_⟩
  · rintro h before s after rfl
    exact h.accepted
  · induction statements generalizing scope with
    | nil => exact .intro
    | cons s rest ih =>
      refine ⟨h [] s rest rfl, ih fun before s' after heq => ?_⟩
      exact h (s :: before) s' after (by rw [heq, List.cons_append])

/-- What is taken from a list is distinct when nothing is taken that was taken before. -/
theorem nodup_filterMap_iff {α β : Type} {f : α → Option β} {list : List α} :
    (list.filterMap f).Nodup ↔ ∀ before x after, list = before ++ x :: after →
      ∀ y, f x = some y → y ∉ before.filterMap f := by
  constructor
  · rintro nodup before x after rfl y hy
    rw [List.filterMap_append, List.filterMap_cons_some hy, List.nodup_middle,
      List.nodup_cons, List.mem_append, not_or] at nodup
    exact nodup.1.1
  · intro h
    induction list using List.reverseRecOn with
    | nil => exact List.nodup_nil
    | append_singleton list x ih =>
      have earlier : (list.filterMap f).Nodup := by
        refine ih fun before x' after heq => h before x' (after ++ [x]) ?_
        rw [heq, List.append_assoc, List.cons_append]
      cases hx : f x with
      | none =>
        rwa [List.filterMap_append, List.filterMap_cons_none hx, List.filterMap_nil,
          List.append_nil]
      | some y =>
        rw [List.filterMap_append, List.filterMap_cons_some hx, List.filterMap_nil,
          List.nodup_append_comm]
        exact List.nodup_cons.2 ⟨h list x [] rfl y hx, earlier⟩

namespace Scope

/-- The register names that are known behind statements, the latest first. -/
@[simp] theorem registers_behind (statements : List Statement) :
    (Scope.empty.behind statements).registers =
      ((statements.filterMap Statement.register?).map Prod.fst).reverse := by
  induction statements using List.reverseRecOn with
  | nil => rfl
  | append_singleton statements s ih =>
    rw [behind_concat, List.filterMap_append, List.map_append, List.reverse_append, ← ih]
    obtain ⟨kind, position⟩ := s
    cases kind <;> rfl

variable {statements : List Statement}

/-- A name is known as that of a gate when it is built in or has a definition. -/
theorem arity?_behind_eq_none {name : String} :
    (Scope.empty.behind statements).arity? name = none ↔ isBuiltIn name = false ∧
      name ∉ (statements.filterMap Statement.definition?).map GateDefinition.name := by
  have names : (Scope.empty.behind statements).gates.map Prod.fst =
      ((statements.filterMap Statement.definition?).map GateDefinition.name).reverse := by
    rw [gates_behind, ofDefinitions, List.map_map, List.map_reverse]
    rfl
  rw [arity?_eq_none, lookup_eq_none_iff_notMem, names, List.mem_reverse, isBuiltIn,
    Option.isSome_eq_false_iff, Option.isNone_iff_eq_none]

/-- Behind definitions with distinct names that are not built in, a call is accepted exactly when
its gate is known. -/
theorem accepted_behind_iff
    (nodup : ((statements.filterMap Statement.definition?).map GateDefinition.name).Nodup)
    (new : ∀ d ∈ statements.filterMap Statement.definition?, isBuiltIn d.name = false)
    {c : GateCall} : c.Accepted (Scope.empty.behind statements) ↔
      c.IsKnown (statements.filterMap Statement.definition?) := by
  have gates : (Scope.empty.behind statements).gates =
      ((statements.filterMap Statement.definition?).map fun d => (d.name, d.arity)).reverse := by
    rw [gates_behind, ofDefinitions, List.map_reverse]
  constructor
  · rintro ⟨arity, harity, hparams, hoperands⟩
    rw [arity?] at harity
    split at harity
    · next s hs =>
      cases harity
      exact .inl ⟨s, hs, hparams, hoperands⟩
    · have hmem := mem_of_lookup_eq_some harity
      rw [gates, List.mem_reverse, List.mem_map] at hmem
      obtain ⟨d, hd, heq⟩ := hmem
      obtain ⟨hname, rfl⟩ := Prod.mk.injEq _ _ _ _ ▸ heq
      exact .inr ⟨d, hd, hname, hparams, hoperands⟩
  · rintro (⟨s, hs, hparams, hoperands⟩ | ⟨d, hd, hname, hparams, hoperands⟩)
    · exact ⟨⟨s.paramCount, s.qubitCount⟩, by rw [arity?, hs], hparams, hoperands⟩
    · refine ⟨d.arity, ?_, hparams, hoperands⟩
      have hsignature : signature? d.name = none := by
        have hnew := new d hd
        rwa [isBuiltIn, Option.isSome_eq_false_iff, Option.isNone_iff_eq_none] at hnew
      rw [← hname, arity?, hsignature, gates]
      refine lookup_eq_some_of_mem ?_ (List.mem_reverse.2 (List.mem_map.2 ⟨d, hd, rfl⟩))
      rw [List.map_reverse, List.nodup_reverse, List.map_map]
      exact nodup

end Scope

/-! ## Well-scoped programs are the accepted ones -/

namespace Program

variable {p : Program}

/-- The definitions before a statement are definitions of the program. -/
theorem definitions_before {before after : List Statement} {s : Statement}
    (hp : p.statements = before ++ s :: after) :
    (before.filterMap Statement.definition?).Sublist p.definitions := by
  rw [definitions, hp, List.filterMap_append]
  exact List.sublist_append_left _ _

/-- The statement of a definition, and those before it. -/
theorem exists_of_mem_definitions {d : GateDefinition} (h : d ∈ p.definitions) :
    ∃ before position after, p.statements = before ++ ⟨.gateDefinition d, position⟩ :: after := by
  obtain ⟨⟨kind, position⟩, hs, hd⟩ := List.mem_filterMap.1 h
  obtain ⟨before, after, hp⟩ := List.append_of_mem hs
  cases kind with
  | gateDefinition d' =>
    cases hd
    exact ⟨before, position, after, hp⟩
  | _ => cases hd

/-- The statement of a register, and those before it. -/
theorem exists_of_mem_registers {r : String × UInt32} (h : r ∈ p.registers) :
    ∃ before s after, p.statements = before ++ s :: after ∧ s.register? = some r := by
  obtain ⟨s, hs, hr⟩ := List.mem_filterMap.1 h
  obtain ⟨before, after, hp⟩ := List.append_of_mem hs
  exact ⟨before, s, after, hp, hr⟩

end Program

/-- A declaration is accepted when the name is new and the size is not zero. -/
theorem Statement.accepted_of_register {scope : Scope} {s : Statement} {r : String × UInt32}
    (h : s.register? = some r) :
    s.Accepted scope ↔ r.1 ∉ scope.registers ∧ 0 < r.2.toNat := by
  obtain ⟨kind, position⟩ := s
  cases kind <;> cases h <;> rfl

/-- The calls of an accepted statement are accepted. -/
theorem Statement.Accepted.calls {scope : Scope} {s : Statement} (h : s.Accepted scope) :
    ∀ c ∈ s.calls, c.Accepted scope := by
  obtain ⟨kind, position⟩ := s
  cases kind with
  | gateDefinition d => exact GateDefinition.Accepted.calls h
  | call c => exact List.forall_mem_singleton.2 h
  | _ => exact List.forall_mem_nil _

namespace Program

variable {p : Program}

theorem wellScoped_of_acceptedFrom (h : AcceptedFrom .empty p.statements) : p.WellScoped := by
  rw [acceptedFrom_iff] at h
  have definitions : ∀ d ∈ p.definitions, d.WellFormed := by
    intro d hd
    obtain ⟨before, position, after, hp⟩ := exists_of_mem_definitions hd
    have accepted : d.Accepted (Scope.empty.behind before) := h _ _ _ hp
    have new := (Scope.arity?_behind_eq_none.1 accepted.new).1
    exact ⟨new, accepted.formals, accepted.qubits, accepted.operands⟩
  have gates : (p.definitions.map GateDefinition.name).Nodup := by
    rw [Program.definitions, List.map_filterMap, nodup_filterMap_iff]
    intro before s after hp name hname
    obtain ⟨d, hd, rfl⟩ := Option.map_eq_some_iff.1 hname
    have here := h _ _ _ hp
    obtain ⟨kind, position⟩ := s
    cases kind with
    | gateDefinition d' =>
      cases hd
      have new := GateDefinition.Accepted.new here
      rw [← List.map_filterMap]
      exact (Scope.arity?_behind_eq_none.1 new).2
    | _ => cases hd
  refine ⟨?_, fun r hr => ?_, gates, definitions, fun before s after hp c hc => ?_, ?_⟩
  · rw [Program.registers, List.map_filterMap, nodup_filterMap_iff]
    intro before s after hp name hname
    obtain ⟨r, hr, rfl⟩ := Option.map_eq_some_iff.1 hname
    have new := ((Statement.accepted_of_register hr).1 (h _ _ _ hp)).1
    rwa [Scope.registers_behind, List.mem_reverse, List.map_filterMap] at new
  · obtain ⟨before, s, after, hp, hs⟩ := exists_of_mem_registers hr
    have size_pos := ((Statement.accepted_of_register hs).1 (h _ _ _ hp)).2
    exact ⟨size_pos, r.2.toNat_lt⟩
  · have earlier := definitions_before hp
    have nodup := gates.sublist (earlier.map GateDefinition.name)
    rw [← Scope.accepted_behind_iff nodup fun d hd => (definitions d (earlier.subset hd)).new]
    exact Statement.Accepted.calls (h _ _ _ hp) c hc
  · intro s hs targets hkind
    obtain ⟨before, after, hp⟩ := List.append_of_mem hs
    have here := h _ _ _ hp
    rwa [Statement.Accepted, hkind] at here

theorem WellScoped.acceptedFrom (h : p.WellScoped) : AcceptedFrom .empty p.statements := by
  rw [acceptedFrom_iff]
  intro before s after hp
  have hs : s ∈ p.statements := by
    rw [hp]
    exact List.mem_append_right before List.mem_cons_self
  have earlier := definitions_before hp
  have nodup := h.gates.sublist (earlier.map GateDefinition.name)
  have calls : ∀ c ∈ s.calls, c.Accepted (Scope.empty.behind before) := by
    intro c hc
    rw [Scope.accepted_behind_iff nodup fun d hd => (h.definitions d (earlier.subset hd)).new]
    exact h.calls before s after hp c hc
  have register {r : String × UInt32} (hr : s.register? = some r) :
      s.Accepted (Scope.empty.behind before) := by
    rw [Statement.accepted_of_register hr, Scope.registers_behind, List.mem_reverse]
    have names := h.registers
    rw [Program.registers, List.map_filterMap, nodup_filterMap_iff] at names
    rw [List.map_filterMap]
    have hmem : r ∈ p.registers := List.mem_filterMap.2 ⟨s, hs, hr⟩
    exact ⟨names before s after hp _ (by rw [hr]; rfl), (h.sizes r hmem).1⟩
  obtain ⟨kind, position⟩ := s
  cases kind with
  | qreg name size => exact register rfl
  | creg name size => exact register rfl
  | gateDefinition d =>
    have hd : d ∈ p.definitions := List.mem_filterMap.2 ⟨_, hs, rfl⟩
    obtain ⟨new, formals, qubits, operands⟩ := h.definitions d hd
    have names := h.gates
    rw [Program.definitions, List.map_filterMap, nodup_filterMap_iff] at names
    have distinct := names before _ after hp d.name rfl
    rw [← List.map_filterMap] at distinct
    exact ⟨Scope.arity?_behind_eq_none.2 ⟨new, distinct⟩, formals, qubits, calls, operands⟩
  | call c => exact calls c (List.mem_singleton_self c)
  | measure qubit clbit => exact .intro
  | reset target => exact .intro
  | barrier targets => exact h.barriers _ hs targets rfl

/-- A program is well scoped exactly when the parser accepts each of its statements. -/
theorem wellScoped_iff_acceptedFrom : p.WellScoped ↔ AcceptedFrom .empty p.statements :=
  ⟨WellScoped.acceptedFrom, wellScoped_of_acceptedFrom⟩

/-- **Every program that the parser gives is well scoped**, and each of its angles is folded, is as
low as the limit asks, and divides by no zero. -/
theorem wellScoped_of_parse {source : String} {rule : HeaderRule}
    (h : Program.parse source rule = .ok p) :
    p.WellScoped ∧ ∀ s ∈ p.statements, ∀ c ∈ s.calls, ∀ e ∈ c.params, e.Checked :=
  ⟨wellScoped_of_acceptedFrom (acceptedFrom_of_parse h), checked_of_parse h⟩

/-- A text in which a defined gate is used in the definition of another one. -/
def layeredText : String :=
  "gate turn(t) u,v \x7b rz(-t) u; cx u,v; \x7d\n" ++
  "gate swirl(s,t) u,v \x7b turn(s/t) v,u; \x7d\n" ++
  "qreg q[2]; swirl(x,x) q[0],q;"

/-- The program of that text. -/
def layeredGates : Program where
  version := none
  statements := [
    ⟨.gateDefinition ⟨"turn", ["t"], ["u", "v"],
      [⟨"rz", [.neg (.var "t")], [.register "u"]⟩,
        ⟨"cx", [], [.register "u", .register "v"]⟩]⟩, ⟨1, 1⟩⟩,
    ⟨.gateDefinition ⟨"swirl", ["s", "t"], ["u", "v"],
      [⟨"turn", [.binary .div (.var "s") (.var "t")], [.register "v", .register "u"]⟩]⟩, ⟨2, 1⟩⟩,
    ⟨.qreg "q" 2, ⟨3, 1⟩⟩,
    ⟨.call ⟨"swirl", [.var "x", .var "x"], [.element "q" 0, .register "q"]⟩, ⟨3, 12⟩⟩]

theorem wellScoped_of_parse_layeredGates :
    Program.parse layeredText .optional = .ok layeredGates ∧ layeredGates.WellScoped ∧
      ∀ s ∈ layeredGates.statements, ∀ c ∈ s.calls, ∀ e ∈ c.params, e.Checked := by
  have h : Program.parse layeredText .optional = .ok layeredGates := by cbv
  exact ⟨h, wellScoped_of_parse h⟩

end Program

end FlatQasm
