import FlatQasm.Proofs.Angle.Quotients
import FlatQasm.Proofs.Angle.Substitution
import FlatQasm.Proofs.Program.Inlining
import FlatQasm.Proofs.Program.WellScoped

/-!
# Names are not part of a circuit

The names in a program tie its parts together, and a circuit has none but the free variables of its
angles.  Registers, gates, and the formal qubits and angles of each gate can be renamed, each kind
of name by itself, as long as names that differ stay different.  A name of one kind may become a
name of another kind, as names of different kinds are never compared.  Only a gate may not get the
name of a built-in one, and a formal angle not that of a free variable beside it.

## Main definitions

* `ImportError.anonymous` — an error without the names that it reports.
* `Becomes` — computations that differ in names only.
* `Renaming`, `Program.rename` — names for the names of a program.
* `Renaming.Safe` — names that differ stay different.

## Main statements

* `Renaming.substitute_formals` — the angle of a body in a call of a renamed gate.
* `Renaming.becomes_expandDefined` — the call of a renamed gate.
* `Renaming.becomes_statements` — the instructions of renamed statements.
* `Program.toCircuit_rename` — the circuit of a renamed program.
-/

namespace FlatQasm

/-! ## Errors without names -/

/-- An operand on a register of another name. -/
def Operand.rename (f : String → String) : Operand → Operand
  | .register name => .register (f name)
  | .element name index => .element (f name) index

@[simp] theorem Operand.name_rename (f : String → String) (o : Operand) :
    (o.rename f).name = f o.name := by
  cases o <;> rfl

/-- A fault without the names that it reports. -/
def BroadcastFault.anonymous : BroadcastFault → BroadcastFault
  | .callSizes _ => .callSizes ""
  | .measureSizes qubit clbit qubits clbits =>
    .measureSizes (qubit.rename fun _ => "") (clbit.rename fun _ => "") qubits clbits
  | .measureMixed qubit clbit =>
    .measureMixed (qubit.rename fun _ => "") (clbit.rename fun _ => "")

/-- An error without the names that it reports.  The cause, the position and all numbers are
kept. -/
def ImportError.anonymous : ImportError → ImportError
  | duplicateDeclaration p _ => duplicateDeclaration p ""
  | invalidRegisterSize p _ size => invalidRegisterSize p "" size
  | unknownGate p _ => unknownGate p ""
  | wrongQubitCount p _ expected got => wrongQubitCount p "" expected got
  | wrongParamCount p _ expected got => wrongParamCount p "" expected got
  | broadcastMismatch p fault => broadcastMismatch p fault.anonymous
  | unresolvedRegister p _ => unresolvedRegister p ""
  | indexOutOfRange p _ index size => indexOutOfRange p "" index size
  | e => e

@[simp] theorem ImportError.position?_anonymous (e : ImportError) :
    e.anonymous.position? = e.position? := by
  cases e <;> rfl

@[simp] theorem Operand.rename_rename (f g : String → String) (o : Operand) :
    (o.rename f).rename g = o.rename (g ∘ f) := by
  cases o <;> rfl

/-! ## Computations that differ in names -/

/-- The second computation gives what the first one gives, with its names changed, or an error that
differs in names only. -/
def Becomes {α β : Type} (change : α → β) (x : Except ImportError α) (y : Except ImportError β) :
    Prop :=
  y.mapError ImportError.anonymous = (x.map change).mapError ImportError.anonymous

namespace Becomes

variable {α β γ δ : Type} {change : α → β} {x : Except ImportError α} {y : Except ImportError β}

theorem ok (a : α) : Becomes change (.ok a) (.ok (change a)) := rfl

theorem error {e e' : ImportError} (h : e'.anonymous = e.anonymous) :
    Becomes change (.error e) (.error e') := congrArg Except.error h

theorem refl (x : Except ImportError α) : Becomes id x x := by
  cases x <;> rfl

theorem bind (h : Becomes change x y) {change' : γ → δ} {f : α → Except ImportError γ}
    {g : β → Except ImportError δ} (hfg : ∀ a, x = .ok a → Becomes change' (f a) (g (change a))) :
    Becomes change' (x >>= f) (y >>= g) := by
  cases x with
  | ok a =>
    obtain rfl : y = .ok (change a) := mapError_eq_ok.1 h
    exact hfg a rfl
  | error e =>
    obtain ⟨e', rfl, he⟩ := mapError_eq_error.1 h
    exact error he

theorem map (h : Becomes change x y) {change' : γ → δ} {f : α → γ} {g : β → δ}
    (hfg : ∀ a, g (change a) = change' (f a)) : Becomes change' (x.map f) (y.map g) := by
  cases x with
  | ok a =>
    obtain rfl : y = .ok (change a) := mapError_eq_ok.1 h
    exact congrArg Except.ok (hfg a)
  | error e =>
    obtain ⟨e', rfl, he⟩ := mapError_eq_error.1 h
    exact error he

/-- A step for each element of a list, and for each element of the renamed list. -/
theorem mapM {rename : α → β} {f : α → Except ImportError γ} {g : β → Except ImportError γ}
    {list : List α} (h : ∀ a ∈ list, Becomes id (f a) (g (rename a))) :
    Becomes id (list.mapM f) ((list.map rename).mapM g) := by
  induction list with
  | nil => exact ok _
  | cons a rest ih =>
    rw [List.forall_mem_cons] at h
    rw [List.map_cons, List.mapM_cons, List.mapM_cons]
    exact h.1.bind fun b _ => (ih h.2).bind fun bs _ => ok (b :: bs)

theorem forEachIndex {f g : Nat → Except ImportError (List α)}
    (h : ∀ i, Becomes id (f i) (g i)) (count first : Nat) :
    Becomes id (FlatQasm.forEachIndex f count first) (FlatQasm.forEachIndex g count first) := by
  induction count generalizing first with
  | zero => exact ok _
  | succ count ih =>
    exact (h first).bind fun here _ => (ih (first + 1)).bind fun rest _ => ok (here ++ rest)

/-- The values are the same, and the errors differ in names only. -/
theorem outcomes {x y : Except ImportError α} (h : Becomes id x y) :
    (∀ a, y = .ok a ↔ x = .ok a) ∧
      ∀ e, x = .error e → ∃ e', y = .error e' ∧ e'.anonymous = e.anonymous := by
  cases x with
  | ok a =>
    obtain rfl : y = .ok a := mapError_eq_ok.1 h
    exact ⟨fun _ => .rfl, fun e heq => by cases heq⟩
  | error e =>
    obtain ⟨e', rfl, he⟩ := mapError_eq_error.1 h
    refine ⟨fun a => by simp, fun _ heq => ?_⟩
    cases heq
    exact ⟨e', rfl, he⟩

end Becomes

/-! ## Renamed programs -/

/-- New names for registers, for gates, and for the formal qubits and angles of each gate. -/
structure Renaming where
  register : String → String
  gate : String → String
  qubit : (gate formal : String) → String
  angle : (gate formal : String) → String

namespace Renaming

variable (ρ : Renaming)

/-- The name by which a gate is called.  Built-in gates keep theirs. -/
def called (gate : String) : String := if isBuiltIn gate then gate else ρ.gate gate

/-- New names for the formal angles of a gate; other variables are left alone. -/
def formals (d : GateDefinition) (name : String) : Option Angle :=
  if name ∈ d.params then some (.var (ρ.angle d.name name)) else none

/-- A call in the body of a definition. -/
def bodyCall (d : GateDefinition) (c : GateCall) : GateCall where
  name := ρ.called c.name
  params := c.params.map fun e => e.substitute (ρ.formals d)
  operands := c.operands.map fun o => o.rename (ρ.qubit d.name)

def definition (d : GateDefinition) : GateDefinition where
  name := ρ.gate d.name
  params := d.params.map (ρ.angle d.name)
  qubits := d.qubits.map (ρ.qubit d.name)
  body := d.body.map (ρ.bodyCall d)

/-- A call outside of definitions. -/
def call (c : GateCall) : GateCall where
  name := ρ.called c.name
  params := c.params
  operands := c.operands.map fun o => o.rename ρ.register

def kind : StatementKind → StatementKind
  | .qreg name size => .qreg (ρ.register name) size
  | .creg name size => .creg (ρ.register name) size
  | .gateDefinition d => .gateDefinition (ρ.definition d)
  | .call c => .call (ρ.call c)
  | .measure qubit clbit => .measure (qubit.rename ρ.register) (clbit.rename ρ.register)
  | .reset target => .reset (target.rename ρ.register)
  | .barrier targets => .barrier (targets.map fun o => o.rename ρ.register)

/-- A statement at the same place. -/
def statement (s : Statement) : Statement := ⟨ρ.kind s.kind, s.position⟩

end Renaming

/-- A program with its names renamed. -/
def Program.rename (ρ : Renaming) (p : Program) : Program :=
  ⟨p.version, p.statements.map ρ.statement⟩

/-- The names of registers in a statement: of the one that it declares, or of its operands. -/
def Statement.registerNames (s : Statement) : List String :=
  match s.kind with
  | .qreg name _ | .creg name _ => [name]
  | .gateDefinition _ => []
  | .call c => c.operands.map Operand.name
  | .measure qubit clbit => [qubit.name, clbit.name]
  | .reset target => [target.name]
  | .barrier targets => targets.map Operand.name

/-- The names of registers in a program, declared or not. -/
def Program.registerNames (p : Program) : List String :=
  p.statements.flatMap Statement.registerNames

/-- The formals of a definition stay different from each other, and its formal angles from the free
variables in its body. -/
structure Renaming.SafeIn (ρ : Renaming) (d : GateDefinition) : Prop where
  qubits : Set.InjOn (ρ.qubit d.name) {name | name ∈ d.qubits}
  angles : Set.InjOn (ρ.angle d.name) {name | name ∈ d.params}
  fresh : ∀ c ∈ d.body, ∀ e ∈ c.params, ∀ free ∈ e.occurrences, free ∉ d.params →
    ∀ formal ∈ d.params, ρ.angle d.name formal ≠ free

/-- Names of one kind that differ stay different, and no gate gets the name of a built-in one. -/
structure Renaming.Safe (ρ : Renaming) (p : Program) : Prop where
  registers : Set.InjOn ρ.register {name | name ∈ p.registerNames}
  gates : Set.InjOn ρ.gate {name | name ∈ p.definitions.map GateDefinition.name}
  new : ∀ d ∈ p.definitions, isBuiltIn (ρ.gate d.name) = false
  inside : ∀ d ∈ p.definitions, ρ.SafeIn d

section Decidable

variable (ρ : Renaming)

/-- Whether names of a list stay different can be tried out. -/
instance decidableInjOn (f : String → String) (names : List String) :
    Decidable (Set.InjOn f {name | name ∈ names}) :=
  decidable_of_iff (∀ x ∈ names, ∀ y ∈ names, f x = f y → x = y) .rfl

instance (d : GateDefinition) : Decidable (ρ.SafeIn d) :=
  decidable_of_iff
    (Set.InjOn (ρ.qubit d.name) {name | name ∈ d.qubits} ∧
      Set.InjOn (ρ.angle d.name) {name | name ∈ d.params} ∧
      ∀ c ∈ d.body, ∀ e ∈ c.params, ∀ free ∈ e.occurrences, free ∉ d.params →
        ∀ formal ∈ d.params, ρ.angle d.name formal ≠ free)
    ⟨fun ⟨qubits, angles, fresh⟩ => ⟨qubits, angles, fresh⟩,
      fun ⟨qubits, angles, fresh⟩ => ⟨qubits, angles, fresh⟩⟩

instance (p : Program) : Decidable (ρ.Safe p) :=
  decidable_of_iff
    (Set.InjOn ρ.register {name | name ∈ p.registerNames} ∧
      Set.InjOn ρ.gate {name | name ∈ p.definitions.map GateDefinition.name} ∧
      (∀ d ∈ p.definitions, isBuiltIn (ρ.gate d.name) = false) ∧
      ∀ d ∈ p.definitions, ρ.SafeIn d)
    ⟨fun ⟨registers, gates, new, inside⟩ => ⟨registers, gates, new, inside⟩,
      fun ⟨registers, gates, new, inside⟩ => ⟨registers, gates, new, inside⟩⟩

end Decidable

/-! ## Registers -/

namespace Registers

/-- Registers under new names. -/
def rename (f : String → String) (rs : Registers) : Registers :=
  { rs with
    quantum := rs.quantum.map (Prod.map f id)
    classical := rs.classical.map (Prod.map f id) }

/-- All registers have names in a set. -/
structure NamedIn (rs : Registers) (names : Set String) : Prop where
  quantum : ∀ name ∈ rs.quantum.map Prod.fst, name ∈ names
  classical : ∀ name ∈ rs.classical.map Prod.fst, name ∈ names

variable {f : String → String} {names : Set String} {rs : Registers}

theorem lookup_rename (inj : Set.InjOn f names) {registers : List (String × Register)}
    (hregisters : ∀ name ∈ registers.map Prod.fst, name ∈ names) {name : String}
    (hname : name ∈ names) :
    (registers.map (Prod.map f id)).lookup (f name) = registers.lookup name :=
  lookup_map_fst fun _ hmem heq => inj hname (hregisters _ hmem) heq

theorem contains_rename (inj : Set.InjOn f names) (hrs : rs.NamedIn names) {name : String}
    (hname : name ∈ names) : (rs.rename f).contains (f name) = rs.contains name := by
  simp only [contains, rename, lookup_rename inj hrs.quantum hname,
    lookup_rename inj hrs.classical hname]

theorem becomes_check (inj : Set.InjOn f names) (hrs : rs.NamedIn names) {name : String}
    (hname : name ∈ names) (p : Position) (size : UInt32) (used : Nat) :
    Becomes id (rs.check p name size used) ((rs.rename f).check p (f name) size used) := by
  rw [check, check, contains_rename inj hrs hname]
  split
  · exact .error rfl
  · split
    · exact .error rfl
    · exact .ok ()

/-- An operand stands for the same bits under its new name. -/
theorem becomes_resolve (inj : Set.InjOn f names) {registers : List (String × Register)}
    (hregisters : ∀ name ∈ registers.map Prod.fst, name ∈ names) {operand : Operand}
    (hoperand : operand.name ∈ names) (p : Position) :
    Becomes id (resolve registers p operand)
      (resolve (registers.map (Prod.map f id)) p (operand.rename f)) := by
  rw [resolve, resolve, Operand.name_rename, lookup_rename inj hregisters hoperand]
  cases registers.lookup operand.name with
  | none => exact .error rfl
  | some r =>
    cases operand with
    | register => exact .ok _
    | element name index =>
      dsimp only [Operand.rename]
      split
      · exact .ok _
      · exact .error rfl

/-- A declaration adds a register with a name of the statement. -/
theorem NamedIn.declare (hrs : rs.NamedIn names) {s : Statement}
    (hs : ∀ name ∈ s.registerNames, name ∈ names) {rs' : Registers} (h : rs.declare s = .ok rs') :
    rs'.NamedIn names := by
  obtain ⟨kind, position⟩ := s
  cases kind with
  | qreg name size =>
    obtain ⟨-, -, heq⟩ := bind_eq_ok.1 h
    cases heq
    exact { hrs with quantum := List.forall_mem_cons.2 ⟨hs name List.mem_cons_self, hrs.quantum⟩ }
  | creg name size =>
    obtain ⟨-, -, heq⟩ := bind_eq_ok.1 h
    cases heq
    exact { hrs with
      classical := List.forall_mem_cons.2 ⟨hs name List.mem_cons_self, hrs.classical⟩ }
  | _ =>
    cases h
    exact hrs

theorem becomes_declare {ρ : Renaming} (inj : Set.InjOn ρ.register names)
    (hrs : rs.NamedIn names) {s : Statement} (hs : ∀ name ∈ s.registerNames, name ∈ names) :
    Becomes (rename ρ.register) (rs.declare s)
      ((rs.rename ρ.register).declare (ρ.statement s)) := by
  obtain ⟨kind, position⟩ := s
  cases kind with
  | qreg name size | creg name size =>
    exact (becomes_check inj hrs (hs name List.mem_cons_self) position size _).bind
      fun _ _ => .ok _
  | _ => exact .ok rs

/-- **The layout of registers** under new names. -/
theorem becomes_foldlM_declare {ρ : Renaming} (inj : Set.InjOn ρ.register names)
    (hrs : rs.NamedIn names) {list : List Statement}
    (hlist : ∀ s ∈ list, ∀ name ∈ s.registerNames, name ∈ names) :
    Becomes (rename ρ.register) (list.foldlM declare rs)
      ((list.map ρ.statement).foldlM declare (rs.rename ρ.register)) ∧
    ∀ rs', list.foldlM declare rs = .ok rs' → rs'.NamedIn names := by
  induction list generalizing rs with
  | nil =>
    refine ⟨.ok rs, fun rs' h => ?_⟩
    cases h
    exact hrs
  | cons s list ih =>
    rw [List.forall_mem_cons] at hlist
    rw [List.map_cons, List.foldlM_cons, List.foldlM_cons]
    refine ⟨(becomes_declare inj hrs hlist.1).bind fun between hs => ?_, fun rs' h => ?_⟩
    · exact (ih (hrs.declare hlist.1 hs) hlist.2).1
    · obtain ⟨between, hs, h⟩ := bind_eq_ok.1 h
      exact (ih (hrs.declare hlist.1 hs) hlist.2).2 rs' h

end Registers

/-! ## Gate calls -/

/-- Whether a gate is built in or has a definition in a program. -/
def Program.Callable (p : Program) (gate : String) : Prop :=
  isBuiltIn gate = true ∨ gate ∈ p.definitions.map GateDefinition.name

theorem Program.WellScoped.callable {p : Program} (h : p.WellScoped) {s : Statement}
    (hs : s ∈ p.statements) {c : GateCall} (hc : c ∈ s.calls) : p.Callable c.name := by
  obtain ⟨before, after, hp⟩ := List.append_of_mem hs
  rcases h.calls before s after hp c hc with ⟨signature, hsignature, -⟩ | ⟨d, hd, hname, -⟩
  · exact .inl (Option.isSome_iff_exists.2 ⟨signature, hsignature⟩)
  · exact .inr (List.mem_map.2 ⟨d, (Program.definitions_before hp).subset hd, hname⟩)

theorem Program.WellScoped.callable_body {p : Program} (h : p.WellScoped) {d : GateDefinition}
    (hd : d ∈ p.definitions) {c : GateCall} (hc : c ∈ d.body) : p.Callable c.name := by
  obtain ⟨before, position, after, hp⟩ := Program.exists_of_mem_definitions hd
  have hs : ⟨.gateDefinition d, position⟩ ∈ p.statements := by
    rw [hp]
    exact List.mem_append_right before List.mem_cons_self
  exact h.callable hs hc

namespace Renaming

variable {ρ : Renaming} {p : Program} {d : GateDefinition}

/-- A bound call by the new name of its gate. -/
def bound (ρ : Renaming) (c : BoundCall) : BoundCall := { c with name := ρ.called c.name }

section Formals

/-- A formal angle stands for the same argument under its new name. -/
theorem lastValue?_formal (safe : ρ.SafeIn d) (args : List Angle) {name : String}
    (hname : name ∈ d.params) :
    lastValue? (ρ.angle d.name name) ((ρ.definition d).params.zip args) =
      lastValue? name (d.params.zip args) := by
  rw [lastValue?, lastValue?, definition, List.zip_map_left, ← List.map_reverse]
  refine lookup_map_fst fun other hmem heq => safe.angles hname ?_ heq
  rw [List.map_reverse, List.mem_reverse, List.mem_map] at hmem
  obtain ⟨pair, hpair, rfl⟩ := hmem
  exact (List.of_mem_zip hpair).1

/-- A variable that is no formal angle stands for none under the new names. -/
theorem lastValue?_free {formals : List String} (args : List Angle) {name : String}
    (hname : name ∉ formals) : lastValue? name (formals.zip args) = none := by
  rw [lastValue?, lookup_eq_none_iff_notMem, List.map_reverse, List.mem_reverse, List.mem_map]
  rintro ⟨pair, hpair, rfl⟩
  exact hname (List.of_mem_zip hpair).1

/-- Every formal angle has an argument. -/
theorem exists_lastValue?_formal {args : List Angle} (hargs : args.length = d.params.length)
    {name : String} (hname : name ∈ d.params) :
    ∃ actual, lastValue? name (d.params.zip args) = some actual := by
  rw [← Option.ne_none_iff_exists', lastValue?, ne_eq, lookup_eq_none_iff_notMem, not_not,
    List.map_reverse, List.mem_reverse, List.map_fst_zip hargs.ge]
  exact hname

/-- **The angle of a body in a call of a renamed gate** is what it was before. -/
theorem substitute_formals (safe : ρ.SafeIn d) {args : List Angle}
    (hargs : args.length = d.params.length) {c : GateCall} (hc : c ∈ d.body) {e : Angle}
    (he : e ∈ c.params) :
    ((e.substitute (ρ.formals d)).substitute fun name =>
        lastValue? name ((ρ.definition d).params.zip args)) =
      e.substitute fun name => lastValue? name (d.params.zip args) := by
  rw [Angle.substitute_substitute]
  refine Angle.substitute_congr fun name hname => ?_
  by_cases hformal : name ∈ d.params
  · obtain ⟨actual, hactual⟩ := exists_lastValue?_formal hargs hformal
    simp only [Angle.composed, formals, if_pos hformal, Angle.substitute,
      lastValue?_formal safe args hformal, hactual, Option.getD_some]
  · have hrenamed : name ∉ (ρ.definition d).params := by
      intro hmem
      obtain ⟨formal, hmem, heq⟩ := List.mem_map.1 hmem
      exact safe.fresh c hc e he name hname hformal formal hmem heq
    simp only [Angle.composed, formals, if_neg hformal, lastValue?_free args hformal,
      lastValue?_free args hrenamed]

end Formals

/-- An operand of a body stands for the same qubit under its new name. -/
theorem becomes_actualQubit (safe : ρ.SafeIn d) (p : Position) (qubits : List Qubit)
    {formal : String} (hformal : formal ∈ d.qubits) :
    Becomes id (d.actualQubit p qubits (.register formal))
      ((ρ.definition d).actualQubit p qubits (.register (ρ.qubit d.name formal))) := by
  have found : ((ρ.definition d).qubits.zip qubits).lookup (ρ.qubit d.name formal) =
      (d.qubits.zip qubits).lookup formal := by
    rw [definition, List.zip_map_left]
    refine lookup_map_fst fun other hmem heq => safe.qubits hformal ?_ heq
    obtain ⟨pair, hpair, rfl⟩ := List.mem_map.1 hmem
    exact (List.of_mem_zip hpair).1
  rw [GateDefinition.actualQubit, GateDefinition.actualQubit, found]
  cases (d.qubits.zip qubits).lookup formal with
  | none => exact .error rfl
  | some q => exact .ok q

/-- A call of a body in a call of a renamed gate. -/
theorem becomes_instantiate (safe : ρ.SafeIn d) (wf : d.WellFormed) (p : Position)
    {outer : BoundCall} (hargs : outer.params.length = d.params.length) {inner : GateCall}
    (hinner : inner ∈ d.body) :
    Becomes ρ.bound (d.instantiate p outer inner)
      ((ρ.definition d).instantiate p (ρ.bound outer) (ρ.bodyCall d inner)) := by
  have qubits : Becomes id (inner.operands.mapM (d.actualQubit p outer.qubits))
      ((inner.operands.map fun o => o.rename (ρ.qubit d.name)).mapM
        ((ρ.definition d).actualQubit p outer.qubits)) := by
    refine .mapM fun o ho => ?_
    obtain ⟨formal, hformal, rfl⟩ := wf.operands inner hinner o ho
    exact becomes_actualQubit safe p outer.qubits hformal
  have angles : Becomes id (inner.params.mapM (d.actualAngle p outer.params))
      ((inner.params.map fun e => e.substitute (ρ.formals d)).mapM
        ((ρ.definition d).actualAngle p outer.params)) := by
    refine .mapM fun e he => ?_
    rw [GateDefinition.actualAngle, GateDefinition.actualAngle,
      substitute_formals safe hargs hinner he]
    exact .refl _
  exact qubits.bind fun _ _ => angles.bind fun _ _ => .ok _

theorem becomes_checkArity (call : BoundCall) (p : Position) (arity : Arity) :
    Becomes id (call.checkArity p arity) ((ρ.bound call).checkArity p arity) := by
  rw [BoundCall.checkArity, BoundCall.checkArity]
  change Becomes id _ (if call.params.length ≠ arity.params then _ else
    if call.qubits.length ≠ arity.qubits then _ else _)
  split
  · exact .error rfl
  · split
    · exact .error rfl
    · exact .ok ()

theorem arity_definition (ρ : Renaming) (d : GateDefinition) :
    (ρ.definition d).arity = d.arity := by
  simp only [GateDefinition.arity, definition, List.length_map]

section Calls

variable (safe : ρ.Safe p) (wf : p.WellScoped)
include safe wf

omit safe in
theorem called_of_mem (hd : d ∈ p.definitions) : ρ.called d.name = ρ.gate d.name := by
  rw [called, (wf.definitions d hd).new]
  rfl

theorem signature?_called {gate : String} (h : p.Callable gate) :
    signature? (ρ.called gate) = signature? gate := by
  rcases h with builtIn | defined
  · rw [called, if_pos builtIn]
  · obtain ⟨d, hd, rfl⟩ := List.mem_map.1 defined
    rw [called_of_mem wf hd, signature?_eq_none_of_isBuiltIn (safe.new d hd),
      signature?_eq_none_of_isBuiltIn (wf.definitions d hd).new]

theorem isBuiltIn_called {gate : String} (h : p.Callable gate) :
    isBuiltIn (ρ.called gate) = isBuiltIn gate := by
  rw [isBuiltIn, isBuiltIn, signature?_called safe wf h]

/-- Gates that differ are called by names that differ. -/
theorem called_injOn : Set.InjOn ρ.called {gate | p.Callable gate} := by
  intro gate hgate gate' hgate' heq
  have same : isBuiltIn gate = isBuiltIn gate' := by
    rw [← isBuiltIn_called safe wf hgate, heq, isBuiltIn_called safe wf hgate']
  rcases hgate with builtIn | defined
  · rwa [called, called, if_pos builtIn, if_pos (same ▸ builtIn)] at heq
  · obtain ⟨d, hd, rfl⟩ := List.mem_map.1 defined
    rw [(wf.definitions d hd).new] at same
    rw [called_of_mem wf hd, called, ← same] at heq
    refine safe.gates defined (hgate'.resolve_left ?_) heq
    rw [← same]
    exact Bool.false_ne_true

/-- A call of a defined gate finds the same definition under the new names. -/
theorem name_definition_eq_iff {d : GateDefinition} (hd : d ∈ p.definitions) {gate : String}
    (h : p.Callable gate) : (ρ.definition d).name = ρ.called gate ↔ d.name = gate := by
  change ρ.gate d.name = ρ.called gate ↔ _
  rw [← called_of_mem wf hd]
  exact (called_injOn safe wf).eq_iff (.inr (List.mem_map_of_mem hd)) h

variable (q c : UInt32) (position : Position)

theorem becomes_callGate {defined defined' : BoundCall → Except ImportError (List Instruction)}
    (hdefined : ∀ call, p.Callable call.name →
      Becomes id (defined call) (defined' (ρ.bound call)))
    {call : BoundCall} (hcall : p.Callable call.name) :
    Becomes id (callGate q c position defined call)
      (callGate q c position defined' (ρ.bound call)) := by
  have same : signature? (ρ.bound call).name = signature? call.name :=
    signature?_called safe wf hcall
  cases hsignature : signature? call.name with
  | some s =>
    rw [callGate_of_builtIn hsignature, callGate_of_builtIn (same.trans hsignature)]
    exact (becomes_checkArity call position _).bind fun _ _ => .refl _
  | none =>
    rw [callGate_of_defined hsignature, callGate_of_defined (same.trans hsignature)]
    exact hdefined call hcall

/-- **The call of a renamed gate.**  The induction goes down the list of definitions, as the
expansion does: the calls in a body are of gates further down. -/
theorem becomes_expandDefined {definitions : List GateDefinition}
    (sub : definitions ⊆ p.definitions) {call : BoundCall} (hcall : p.Callable call.name) :
    Becomes id (expandDefined q c position definitions call)
      (expandDefined q c position (definitions.map ρ.definition) (ρ.bound call)) := by
  induction definitions generalizing call with
  | nil => exact .error rfl
  | cons d earlier ih =>
    rw [List.cons_subset] at sub
    obtain ⟨hd, sub⟩ := sub
    have same : (ρ.definition d).name = (ρ.bound call).name ↔ d.name = call.name :=
      name_definition_eq_iff safe wf hd hcall
    rw [List.map_cons]
    by_cases hname : d.name = call.name
    · rw [expandDefined_of_name_eq hname, expandDefined_of_name_eq (same.2 hname),
        arity_definition]
      refine (becomes_checkArity call position d.arity).bind fun _ harity => ?_
      obtain ⟨hargs, -⟩ := BoundCall.checkArity_eq_ok.1 harity
      refine Becomes.bind (.mapM fun inner hinner => ?_) fun lists _ => .ok _
      refine (becomes_instantiate (safe.inside d hd) (wf.definitions d hd) position hargs
        hinner).bind fun bound hbound => ?_
      have hbody : p.Callable bound.name := by
        rw [(GateDefinition.of_instantiate_eq_ok hbound).1]
        exact wf.callable_body hd hinner
      exact becomes_callGate safe wf q c position (fun _ => ih sub) hbody
    · rw [expandDefined_of_name_ne hname, expandDefined_of_name_ne (mt same.1 hname)]
      exact ih sub hcall

end Calls

end Renaming

/-! ## Statements -/

/-- Registers and gates under new names. -/
def Lowering.rename (ρ : Renaming) (l : Lowering) : Lowering where
  registers := l.registers.rename ρ.register
  definitions := l.definitions.map ρ.definition

namespace Renaming

variable {ρ : Renaming} {p : Program} {l : Lowering}

section Operands

variable {names : Set String} (inj : Set.InjOn ρ.register names)
  (hregisters : l.registers.NamedIn names) (position : Position)
include inj hregisters

theorem becomes_qubits {operand : Operand} (hoperand : operand.name ∈ names) :
    Becomes id (l.registers.qubits position operand)
      ((l.rename ρ).registers.qubits position (operand.rename ρ.register)) :=
  Registers.becomes_resolve inj hregisters.quantum hoperand position

theorem becomes_clbits {operand : Operand} (hoperand : operand.name ∈ names) :
    Becomes id (l.registers.clbits position operand)
      ((l.rename ρ).registers.clbits position (operand.rename ρ.register)) :=
  Registers.becomes_resolve inj hregisters.classical hoperand position

theorem becomes_mapM_qubits {operands : List Operand} (hoperands : ∀ o ∈ operands, o.name ∈ names) :
    Becomes id (operands.mapM (l.registers.qubits position))
      ((operands.map fun o => o.rename ρ.register).mapM
        ((l.rename ρ).registers.qubits position)) :=
  .mapM fun o ho => becomes_qubits inj hregisters position (hoperands o ho)

theorem becomes_measure {qubit clbit : Operand} (hqubit : qubit.name ∈ names)
    (hclbit : clbit.name ∈ names) :
    Becomes id (l.measure position qubit clbit)
      ((l.rename ρ).measure position (qubit.rename ρ.register) (clbit.rename ρ.register)) := by
  refine (becomes_qubits inj hregisters position hqubit).bind fun source _ => ?_
  refine (becomes_clbits inj hregisters position hclbit).bind fun target _ => ?_
  dsimp only [id_eq]
  split
  · exact .refl _
  · split
    · exact .refl _
    · refine .error ?_
      simp only [ImportError.anonymous, BroadcastFault.anonymous, Operand.rename_rename]
      rfl
  · refine .error ?_
    simp only [ImportError.anonymous, BroadcastFault.anonymous, Operand.rename_rename]
    rfl

theorem becomes_reset {target : Operand} (htarget : target.name ∈ names) :
    Becomes id (l.reset position target)
      ((l.rename ρ).reset position (target.rename ρ.register)) :=
  (becomes_qubits inj hregisters position htarget).bind fun _ _ => .refl _

theorem becomes_barrier {targets : List Operand} (htargets : ∀ o ∈ targets, o.name ∈ names) :
    Becomes id (l.barrier position targets)
      ((l.rename ρ).barrier position (targets.map fun o => o.rename ρ.register)) :=
  (becomes_mapM_qubits inj hregisters position htargets).bind fun _ _ => .refl _

end Operands

section Statements

variable (safe : ρ.Safe p) (wf : p.WellScoped)
include safe wf

/-- The same gates are known under their new names. -/
theorem knows_called (sub : l.definitions ⊆ p.definitions) {gate : String}
    (h : p.Callable gate) : (l.rename ρ).knows (ρ.called gate) = l.knows gate := by
  have any : (l.definitions.map ρ.definition).any (·.name == ρ.called gate) =
      l.definitions.any (·.name == gate) := by
    rw [List.any_map, Bool.eq_iff_iff, List.any_eq_true, List.any_eq_true]
    refine exists_congr fun d => and_congr_right fun hd => ?_
    rw [Function.comp_apply, beq_iff_eq, beq_iff_eq]
    exact name_definition_eq_iff safe wf (sub hd) h
  simp only [Lowering.knows, isBuiltIn_called safe wf h]
  exact congrArg (isBuiltIn gate || ·) any

/-- A definition is accepted under the new names when it was accepted before. -/
theorem becomes_define (sub : l.definitions ⊆ p.definitions) (position : Position)
    {d : GateDefinition} (hd : d ∈ p.definitions) :
    Becomes (Lowering.rename ρ) (l.define position d)
      ((l.rename ρ).define position (ρ.definition d)) := by
  have name : (l.rename ρ).knows (ρ.definition d).name = l.knows d.name := by
    change (l.rename ρ).knows (ρ.gate d.name) = _
    rw [← called_of_mem wf hd]
    exact knows_called safe wf sub (.inr (List.mem_map_of_mem hd))
  have unknown : (ρ.definition d).body.find? (fun call => !(l.rename ρ).knows call.name) =
      (d.body.find? fun call => !l.knows call.name).map (ρ.bodyCall d) := by
    rw [definition, List.find?_map]
    congr 1
    refine List.find?_congr fun inner hinner => congrArg not ?_
    exact knows_called safe wf sub (wf.callable_body hd hinner)
  rw [Lowering.define, Lowering.define, name, unknown]
  split
  · exact .error rfl
  · cases d.body.find? fun call => !l.knows call.name with
    | some call => exact .error rfl
    | none => exact .ok { l with definitions := d :: l.definitions }

theorem becomes_call (sub : l.definitions ⊆ p.definitions)
    (hregisters : l.registers.NamedIn {name | name ∈ p.registerNames}) (position : Position)
    {c : GateCall} (hc : p.Callable c.name)
    (hoperands : ∀ o ∈ c.operands, o.name ∈ p.registerNames) :
    Becomes id (l.call position c) ((l.rename ρ).call position (ρ.call c)) := by
  refine (becomes_mapM_qubits safe.registers hregisters position hoperands).bind
    fun resolved _ => ?_
  dsimp only [id_eq]
  split
  · exact .error rfl
  · refine .forEachIndex (fun i => ?_) _ _
    exact becomes_callGate safe wf l.qubitCount l.clbitCount position
      (fun _ => becomes_expandDefined safe wf l.qubitCount l.clbitCount position sub) hc

/-- **The instructions of a renamed statement**, and the gates behind it. -/
theorem becomes_statement (sub : l.definitions ⊆ p.definitions)
    (hregisters : l.registers.NamedIn {name | name ∈ p.registerNames}) {s : Statement}
    (hs : s ∈ p.statements) :
    Becomes (Prod.map (Lowering.rename ρ) id) (l.statement s)
      ((l.rename ρ).statement (ρ.statement s)) := by
  have names : ∀ name ∈ s.registerNames, name ∈ p.registerNames :=
    fun name hname => List.mem_flatMap.2 ⟨s, hs, hname⟩
  have calls : ∀ c ∈ s.calls, p.Callable c.name := fun c hc => wf.callable hs hc
  have definition : ∀ d, s.definition? = some d → d ∈ p.definitions :=
    fun d hd => List.mem_filterMap.2 ⟨s, hs, hd⟩
  have inj := safe.registers
  obtain ⟨kind, position⟩ := s
  cases kind with
  | qreg | creg => exact .ok (l, [])
  | gateDefinition d =>
    exact (becomes_define safe wf sub position (definition d rfl)).bind fun l' _ => .ok (l', [])
  | call c =>
    have operands : ∀ o ∈ c.operands, o.name ∈ p.registerNames :=
      fun o ho => names o.name (List.mem_map_of_mem ho)
    exact (becomes_call safe wf sub hregisters position (calls c (List.mem_singleton_self c))
      operands).map fun _ => rfl
  | measure qubit clbit =>
    exact (becomes_measure inj hregisters position (names _ (by simp [Statement.registerNames]))
      (names _ (by simp [Statement.registerNames]))).map fun _ => rfl
  | reset target =>
    exact (becomes_reset inj hregisters position (names _ (List.mem_singleton_self _))).map
      fun _ => rfl
  | barrier targets =>
    have operands : ∀ o ∈ targets, o.name ∈ p.registerNames :=
      fun o ho => names o.name (List.mem_map_of_mem ho)
    exact (becomes_barrier inj hregisters position operands).map fun _ => rfl

/-- **The instructions of renamed statements.** -/
theorem becomes_statements {list : List Statement} (hlist : ∀ s ∈ list, s ∈ p.statements)
    (sub : l.definitions ⊆ p.definitions)
    (hregisters : l.registers.NamedIn {name | name ∈ p.registerNames}) :
    Becomes id (l.statements list) ((l.rename ρ).statements (list.map ρ.statement)) := by
  induction list generalizing l with
  | nil => exact .ok []
  | cons s list ih =>
    rw [List.forall_mem_cons] at hlist
    refine (becomes_statement safe wf sub hregisters hlist.1).bind fun ⟨l', here⟩ hs => ?_
    have same : l'.registers = l.registers := (Lowering.definitions_of_statement hs).1
    exact (ih hlist.2 (Program.definitions_subset sub hlist.1 hs) (same ▸ hregisters)).bind
      fun others _ => .ok (here ++ others)

end Statements

end Renaming

/-! ## Programs -/

namespace Program

variable {p : Program} {ρ : Renaming}

theorem becomes_toCircuit (safe : ρ.Safe p) (wf : p.WellScoped) :
    Becomes id p.toCircuit (p.rename ρ).toCircuit := by
  have none : Registers.empty.NamedIn {name | name ∈ p.registerNames} :=
    ⟨List.forall_mem_nil _, List.forall_mem_nil _⟩
  have names : ∀ s ∈ p.statements, ∀ name ∈ s.registerNames, name ∈ p.registerNames :=
    fun s hs name hname => List.mem_flatMap.2 ⟨s, hs, hname⟩
  obtain ⟨first, named⟩ := Registers.becomes_foldlM_declare safe.registers none names
  refine first.bind fun rs hrs => ?_
  exact (Renaming.becomes_statements safe wf (l := ⟨rs, []⟩) (fun _ => id)
    (List.nil_subset _) (named rs hrs)).bind fun instructions _ => .ok _

/-- **Names are not part of a circuit.**  A parsed program whose names are renamed, so that those of
one kind that differ stay different, has the same circuit.  Where it has none, it has none under the
new names, for the same cause at the same position: the errors differ in names only. -/
theorem toCircuit_rename {source : String} {rule : HeaderRule}
    (h : Program.parse source rule = .ok p) (safe : ρ.Safe p) :
    (∀ c, (p.rename ρ).toCircuit = .ok c ↔ p.toCircuit = .ok c) ∧
      ∀ e, p.toCircuit = .error e → ∃ e', (p.rename ρ).toCircuit = .error e' ∧
        e'.anonymous = e.anonymous ∧ e'.position? = e.position? := by
  have wf : p.WellScoped := wellScoped_of_acceptedFrom (acceptedFrom_of_parse h)
  obtain ⟨same, errors⟩ := (becomes_toCircuit safe wf).outcomes
  refine ⟨same, fun e he => ?_⟩
  obtain ⟨e', he', hanonymous⟩ := errors e he
  refine ⟨e', he', hanonymous, ?_⟩
  rw [← ImportError.position?_anonymous, hanonymous, ImportError.position?_anonymous]

/-- A text in which names of different kinds are the same: `t` is a register, a formal angle, a
formal qubit and a free variable. -/
def sharedText : String :=
  "gate turn(t) u,v \x7b rz(t*s) u; cx u,v; \x7d\n" ++
  "gate swirl(s) t,u \x7b turn(s/t) u,t; \x7d\n" ++
  "qreg t[2]; swirl(x) t[0],t[1];"

/-- The program of that text. -/
def sharedNames : Program where
  version := none
  statements := [
    ⟨.gateDefinition ⟨"turn", ["t"], ["u", "v"],
      [⟨"rz", [.binary .mul (.var "t") (.var "s")], [.register "u"]⟩,
        ⟨"cx", [], [.register "u", .register "v"]⟩]⟩, ⟨1, 1⟩⟩,
    ⟨.gateDefinition ⟨"swirl", ["s"], ["t", "u"],
      [⟨"turn", [.binary .div (.var "s") (.var "t")], [.register "u", .register "t"]⟩]⟩, ⟨2, 1⟩⟩,
    ⟨.qreg "t" 2, ⟨3, 1⟩⟩,
    ⟨.call ⟨"swirl", [.var "x"], [.element "t" 0, .element "t" 1]⟩, ⟨3, 12⟩⟩]

/-- The gates get each other's names, and the register and the formals get names of other kinds. -/
def exchanged : Renaming where
  register name := if name = "t" then "swirl" else name
  gate name := if name = "turn" then "swirl" else if name = "swirl" then "turn" else name
  qubit _ name := if name = "u" then "x" else name
  angle _ name := if name = "t" then "x" else if name = "s" then "u" else name

theorem toCircuit_rename_exchanged :
    Program.parse sharedText .optional = .ok sharedNames ∧ exchanged.Safe sharedNames ∧
      ∃ c, sharedNames.toCircuit = .ok c ∧ (sharedNames.rename exchanged).toCircuit = .ok c ∧
        c.instructions.length = 2 := by
  have h : Program.parse sharedText .optional = .ok sharedNames := by cbv
  have safe : exchanged.Safe sharedNames := by decide
  obtain ⟨c, hc, hlength⟩ : ∃ c, sharedNames.toCircuit = .ok c ∧ c.instructions.length = 2 :=
    ⟨_, rfl, rfl⟩
  exact ⟨h, safe, c, hc, ((toCircuit_rename h safe).1 c).2 hc, hlength⟩

end Program

end FlatQasm
