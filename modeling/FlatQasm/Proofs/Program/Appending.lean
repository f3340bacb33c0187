import FlatQasm.Proofs.Circuit.WellFormed
import FlatQasm.Proofs.Program.Layout
import FlatQasm.Proofs.Program.Lowering
import FlatQasm.Proofs.Program.Numbering

/-!
# Statements behind a program

Statements that are put behind a program add to its circuit, and change nothing in front.  This is
not immediate: the registers are laid out before the first statement is looked at, so declarations
behind a statement are known to it.  But a declaration only adds a register behind the others, and
never one of a name that is taken, so whatever a statement gives with fewer registers it also gives
with more.

## Main definitions

* `Persists` — what one computation gives, another gives too.
* `Registers.Extends`, `Lowering.Extends` — more registers, with those that were there unchanged.

## Main statements

* `Registers.extends_of_ofStatements_append` — declarations only add registers.
* `Lowering.Extends.statements` — statements give the same instructions with more registers.
* `Program.toCircuit_append` — the circuit of a program begins with that of its front.
-/

namespace FlatQasm

/-! ## Computations that persist -/

/-- What the first computation gives, the second gives too. -/
def Persists {ε α : Type} (x y : Except ε α) : Prop := ∀ a, x = .ok a → y = .ok a

section Persists

variable {ε ε' α β : Type}

theorem Persists.refl (x : Except ε α) : Persists x x := fun _ h => h

theorem Persists.bind {x y : Except ε α} {f g : α → Except ε β} (h : Persists x y)
    (hf : ∀ a, Persists (f a) (g a)) : Persists (x >>= f) (y >>= g) := by
  intro b hb
  obtain ⟨a, ha, hb⟩ := bind_eq_ok.1 hb
  exact bind_eq_ok.2 ⟨a, h a ha, hf a b hb⟩

theorem Persists.map {x y : Except ε α} (h : Persists x y) (f : α → β) :
    Persists (x.map f) (y.map f) := by
  intro b hb
  obtain ⟨a, ha, rfl⟩ := map_eq_ok.1 hb
  exact map_eq_ok.2 ⟨a, h a ha, rfl⟩

theorem Persists.mapError {x y : Except ε α} (h : Persists x y) (f : ε → ε') :
    Persists (x.mapError f) (y.mapError f) :=
  fun a ha => mapError_eq_ok.2 (h a (mapError_eq_ok.1 ha))

theorem Persists.mapM {f g : α → Except ε β} (h : ∀ a, Persists (f a) (g a)) (list : List α) :
    Persists (list.mapM f) (list.mapM g) :=
  fun _ hbs => mapM_eq_ok.2 ((mapM_eq_ok.1 hbs).imp fun a b => h a b)

theorem Persists.forEachIndex {f g : Nat → Except ε (List α)} (h : ∀ i, Persists (f i) (g i))
    (count first : Nat) :
    Persists (FlatQasm.forEachIndex f count first) (FlatQasm.forEachIndex g count first) := by
  intro out hout
  obtain ⟨lists, hlists, hflatten⟩ := forEachIndex_eq_ok.1 hout
  exact forEachIndex_eq_ok.2 ⟨lists, hlists.imp fun i here => h i here, hflatten⟩

end Persists

/-! ## More registers -/

namespace Registers

/-- Registers with others added to them: those that were there are found unchanged. -/
structure Extends (rs rs' : Registers) : Prop where
  quantum {name : String} {r : Register} :
    rs.quantum.lookup name = some r → rs'.quantum.lookup name = some r
  classical {name : String} {r : Register} :
    rs.classical.lookup name = some r → rs'.classical.lookup name = some r
  qubitCount : rs.qubitCount ≤ rs'.qubitCount
  clbitCount : rs.clbitCount ≤ rs'.clbitCount

theorem Extends.refl (rs : Registers) : rs.Extends rs :=
  ⟨id, id, Nat.le_refl _, Nat.le_refl _⟩

theorem Extends.trans {rs rs' rs'' : Registers} (h : rs.Extends rs') (h' : rs'.Extends rs'') :
    rs.Extends rs'' where
  quantum hr := h'.quantum (h.quantum hr)
  classical hr := h'.classical (h.classical hr)
  qubitCount := Nat.le_trans h.qubitCount h'.qubitCount
  clbitCount := Nat.le_trans h.clbitCount h'.clbitCount

/-- A register of a new name hides no other. -/
theorem lookup_cons_of_new {registers : List (String × Register)} {new name : String}
    {added r : Register} (hnew : (registers.lookup new).isSome = false)
    (hr : registers.lookup name = some r) : ((new, added) :: registers).lookup name = some r := by
  have ne : name ≠ new := by
    rintro rfl
    rw [hr] at hnew
    cases hnew
  rw [lookup_cons_eq_ite, if_neg ne, hr]

/-- A declaration that is accepted only adds a register. -/
theorem extends_of_declare {rs rs' : Registers} {s : Statement} (h : rs.declare s = .ok rs') :
    rs.Extends rs' := by
  simp only [declare] at h
  split at h
  · obtain ⟨⟨⟩, hcheck, h⟩ := bind_eq_ok.1 h
    cases h
    obtain ⟨hnew, -, -⟩ := check_eq_ok.1 hcheck
    rw [contains, Bool.or_eq_false_iff] at hnew
    exact ⟨lookup_cons_of_new hnew.1, id, Nat.le_add_right _ _, Nat.le_refl _⟩
  · obtain ⟨⟨⟩, hcheck, h⟩ := bind_eq_ok.1 h
    cases h
    obtain ⟨hnew, -, -⟩ := check_eq_ok.1 hcheck
    rw [contains, Bool.or_eq_false_iff] at hnew
    exact ⟨id, lookup_cons_of_new hnew.2, Nat.le_refl _, Nat.le_add_right _ _⟩
  · cases h
    exact .refl _

theorem extends_of_foldlM_declare {list : List Statement} {rs rs' : Registers}
    (h : list.foldlM declare rs = .ok rs') : rs.Extends rs' := by
  induction list generalizing rs with
  | nil =>
    cases h
    exact .refl _
  | cons s list ih =>
    rw [List.foldlM_cons] at h
    obtain ⟨between, hs, h⟩ := bind_eq_ok.1 h
    exact (extends_of_declare hs).trans (ih h)

/-- The registers of a longer program are those of its front, with others added. -/
theorem extends_of_ofStatements_append {list rest : List Statement} {rs rs' : Registers}
    (h : ofStatements list = .ok rs) (h' : ofStatements (list ++ rest) = .ok rs') :
    rs.Extends rs' := by
  rw [ofStatements, List.foldlM_append] at h'
  obtain ⟨front, hfront, h'⟩ := bind_eq_ok.1 h'
  rw [ofStatements, hfront] at h
  cases h
  exact extends_of_foldlM_declare h'

/-- An operand stands for the same bits among more registers. -/
theorem persists_resolve {registers registers' : List (String × Register)}
    (h : ∀ {name r}, registers.lookup name = some r → registers'.lookup name = some r)
    (p : Position) (operand : Operand) :
    Persists (resolve registers p operand) (resolve registers' p operand) := by
  intro resolved hresolved
  rcases resolve_eq_ok.1 hresolved with
    ⟨name, r, hoperand, hlookup, hwhole⟩ | ⟨name, index, r, hoperand, hlookup, hbit⟩
  · exact resolve_eq_ok.2 (.inl ⟨name, r, hoperand, h hlookup, hwhole⟩)
  · exact resolve_eq_ok.2 (.inr ⟨name, index, r, hoperand, h hlookup, hbit⟩)

end Registers

/-! ## More bits -/

section Counts

variable {qubits qubits' clbits clbits' : UInt32}

/-- An instruction that fits a circuit fits a circuit with more bits. -/
theorem Circuit.persists_check (hq : qubits ≤ qubits') (hc : clbits ≤ clbits')
    (i : Instruction) : Persists (check qubits clbits i) (check qubits' clbits' i) := by
  intro _ h
  have fits := Circuit.check_eq_ok.1 h
  exact Circuit.check_eq_ok.2 { fits with
    qubit_lt := fun q hmem => UInt32.lt_of_lt_of_le (fits.qubit_lt q hmem) hq
    clbit_lt := fun b hmem => UInt32.lt_of_lt_of_le (fits.clbit_lt b hmem) hc }

theorem persists_builtInInstruction (hq : qubits ≤ qubits') (hc : clbits ≤ clbits')
    (s : Signature) (call : BoundCall) :
    Persists (builtInInstruction qubits clbits s call)
      (builtInInstruction qubits' clbits' s call) :=
  .bind (.refl _) fun _ => .bind ((Circuit.persists_check hq hc _).mapError _) fun _ => .refl _

theorem persists_callGate (hq : qubits ≤ qubits') (hc : clbits ≤ clbits') (p : Position)
    {defined defined' : BoundCall → Except ImportError (List Instruction)}
    (h : ∀ call, Persists (defined call) (defined' call)) (call : BoundCall) :
    Persists (callGate qubits clbits p defined call)
      (callGate qubits' clbits' p defined' call) := by
  cases hsignature : signature? call.name with
  | some s =>
    rw [callGate_of_builtIn hsignature, callGate_of_builtIn hsignature]
    exact .bind (.refl _) fun _ => .bind (persists_builtInInstruction hq hc s call)
      fun _ => .refl _
  | none =>
    rw [callGate_of_defined hsignature, callGate_of_defined hsignature]
    exact h call

theorem persists_expandDefined (hq : qubits ≤ qubits') (hc : clbits ≤ clbits') (p : Position)
    (definitions : List GateDefinition) (call : BoundCall) :
    Persists (expandDefined qubits clbits p definitions call)
      (expandDefined qubits' clbits' p definitions call) := by
  induction definitions generalizing call with
  | nil => exact .refl _
  | cons d earlier ih =>
    by_cases hname : d.name = call.name
    · rw [expandDefined_of_name_eq hname, expandDefined_of_name_eq hname]
      refine .bind (.refl _) fun _ => .bind (.mapM (fun inner => ?_) _) fun _ => .refl _
      exact .bind (.refl _) fun bound => persists_callGate hq hc p ih bound
    · rw [expandDefined_of_name_ne hname, expandDefined_of_name_ne hname]
      exact ih call

theorem persists_expand (hq : qubits ≤ qubits') (hc : clbits ≤ clbits') (p : Position)
    (definitions : List GateDefinition) (call : BoundCall) :
    Persists (expand qubits clbits p definitions call)
      (expand qubits' clbits' p definitions call) :=
  persists_callGate hq hc p (persists_expandDefined hq hc p definitions) call

end Counts

/-! ## Statements among more registers -/

namespace Lowering

/-- The same gates, among more registers. -/
structure Extends (l l' : Lowering) : Prop where
  registers : l.registers.Extends l'.registers
  definitions : l'.definitions = l.definitions
  qubitCount : l.qubitCount ≤ l'.qubitCount
  clbitCount : l.clbitCount ≤ l'.clbitCount

variable {l l' : Lowering}

/-- Counts that are 32-bit numbers are compared as such. -/
theorem extends_of_registers {rs rs' : Registers} (h : rs.Extends rs')
    (hq : rs'.qubitCount < UInt32.size) (hc : rs'.clbitCount < UInt32.size)
    (definitions : List GateDefinition) :
    (⟨rs, definitions⟩ : Lowering).Extends ⟨rs', definitions⟩ := by
  have le {a b : Nat} (hab : a ≤ b) (hb : b < UInt32.size) : a.toUInt32 ≤ b.toUInt32 := by
    rwa [UInt32.le_iff_toNat_le, toNat_toUInt32 hb, toNat_toUInt32 (Nat.lt_of_le_of_lt hab hb)]
  exact ⟨h, rfl, le h.qubitCount hq, le h.clbitCount hc⟩

theorem Extends.qubits (h : l.Extends l') (p : Position) (operand : Operand) :
    Persists (l.registers.qubits p operand) (l'.registers.qubits p operand) :=
  Registers.persists_resolve h.registers.quantum p operand

theorem Extends.clbits (h : l.Extends l') (p : Position) (operand : Operand) :
    Persists (l.registers.clbits p operand) (l'.registers.clbits p operand) :=
  Registers.persists_resolve h.registers.classical p operand

theorem Extends.emit (h : l.Extends l') (i : Instruction) :
    Persists (l.emit i) (l'.emit i) :=
  .bind ((Circuit.persists_check h.qubitCount h.clbitCount i).mapError _) fun _ => .refl _

theorem Extends.call (h : l.Extends l') (p : Position) (c : GateCall) :
    Persists (l.call p c) (l'.call p c) := by
  simp only [Lowering.call, h.definitions]
  refine .bind (.mapM (h.qubits p) _) fun resolved => ?_
  split
  · exact .refl _
  · exact .forEachIndex (fun i => persists_expand h.qubitCount h.clbitCount p _ _) _ _

theorem Extends.measure (h : l.Extends l') (p : Position) (qubit clbit : Operand) :
    Persists (l.measure p qubit clbit) (l'.measure p qubit clbit) := by
  simp only [Lowering.measure]
  refine .bind (h.qubits p qubit) fun source => .bind (h.clbits p clbit) fun target => ?_
  split
  · exact h.emit _
  · split
    · exact .forEachIndex (fun i => h.emit _) _ _
    · exact .refl _
  · exact .refl _

theorem Extends.reset (h : l.Extends l') (p : Position) (target : Operand) :
    Persists (l.reset p target) (l'.reset p target) :=
  .bind (h.qubits p target) fun _ => .forEachIndex (fun _ => h.emit _) _ _

theorem Extends.barrier (h : l.Extends l') (p : Position) (targets : List Operand) :
    Persists (l.barrier p targets) (l'.barrier p targets) :=
  .bind (.mapM (h.qubits p) _) fun _ => h.emit _

/-- A statement gives the same instructions among more registers, and leaves the same gates. -/
theorem Extends.statement (h : l.Extends l') {s : Statement} {m : Lowering}
    {here : List Instruction} (hs : l.statement s = .ok (m, here)) :
    ∃ m', m.Extends m' ∧ l'.statement s = .ok (m', here) := by
  obtain ⟨kind, position⟩ := s
  cases kind with
  | qreg name size | creg name size =>
    cases hs
    exact ⟨l', h, rfl⟩
  | gateDefinition d =>
    rw [statement_gateDefinition, map_eq_ok] at hs
    obtain ⟨m, hdefine, heq⟩ := hs
    cases heq
    obtain ⟨hnew, hbody, rfl⟩ := define_eq_ok.1 hdefine
    have knows : l'.knows = l.knows := by
      funext gate
      simp only [Lowering.knows, h.definitions]
    refine ⟨{ l' with definitions := d :: l'.definitions },
      { h with definitions := congrArg (d :: ·) h.definitions }, ?_⟩
    rw [statement_gateDefinition, map_eq_ok]
    refine ⟨_, ?_, rfl⟩
    exact define_eq_ok.2 ⟨knows ▸ hnew, knows ▸ hbody, rfl⟩
  | call c =>
    rw [statement_call, map_eq_ok] at hs
    obtain ⟨_, hcall, heq⟩ := hs
    cases heq
    exact ⟨l', h, map_eq_ok.2 ⟨here, h.call position c here hcall, rfl⟩⟩
  | measure qubit clbit =>
    rw [statement_measure, map_eq_ok] at hs
    obtain ⟨_, hmeasure, heq⟩ := hs
    cases heq
    exact ⟨l', h, map_eq_ok.2 ⟨here, h.measure position qubit clbit here hmeasure, rfl⟩⟩
  | reset target =>
    rw [statement_reset, map_eq_ok] at hs
    obtain ⟨_, hreset, heq⟩ := hs
    cases heq
    exact ⟨l', h, map_eq_ok.2 ⟨here, h.reset position target here hreset, rfl⟩⟩
  | barrier targets =>
    rw [statement_barrier, map_eq_ok] at hs
    obtain ⟨_, hbarrier, heq⟩ := hs
    cases heq
    exact ⟨l', h, map_eq_ok.2 ⟨here, h.barrier position targets here hbarrier, rfl⟩⟩

/-- Statements give the same instructions among more registers. -/
theorem Extends.statements (h : l.Extends l') (list : List Statement) :
    Persists (l.statements list) (l'.statements list) := by
  induction list generalizing l l' with
  | nil => exact .refl _
  | cons s list ih =>
    intro out hout
    obtain ⟨m, here, hs, others, hothers, heq⟩ := statements_cons_eq_ok.1 hout
    obtain ⟨m', hm, hs'⟩ := h.statement hs
    exact statements_cons_eq_ok.2 ⟨m', here, hs', others, ih hm others hothers, heq⟩

/-- The second pass goes through two lists one after the other, with the gates of the first in the
second. -/
theorem statements_append_eq_bind (l : Lowering) (list rest : List Statement) :
    l.statements (list ++ rest) = l.statements list >>= fun front =>
      ((⟨l.registers, l.definitionsBehind list⟩ : Lowering).statements rest).map (front ++ ·) := by
  induction list generalizing l with
  | nil =>
    rw [statements_nil, ok_bind]
    change l.statements rest = (l.statements rest).map ([] ++ ·)
    cases l.statements rest <;> rfl
  | cons s list ih =>
    rw [List.cons_append]
    cases hs : l.statement s with
    | error e => grind [error_bind]
    | ok found =>
      obtain ⟨m, here⟩ := found
      obtain ⟨hregisters, -⟩ := definitions_of_statement hs
      rw [statements_of_ok hs, statements_of_ok hs, ih m, definitionsBehind_cons hs, hregisters]
      generalize (⟨l.registers, l.definitionsBehind (s :: list)⟩ : Lowering).statements rest = x
      cases m.statements list with
      | error e => rfl
      | ok front => cases x <;> simp

end Lowering

/-! ## Declarations -/

/-- Whether a statement declares a register or defines a gate. -/
def Statement.IsDeclaration (s : Statement) : Prop :=
  s.declaresRegister = true ∨ s.definition?.isSome = true

/-- Declarations give no instructions. -/
theorem Lowering.statements_of_isDeclaration {l : Lowering} {list : List Statement}
    (hlist : ∀ s ∈ list, s.IsDeclaration) {out : List Instruction}
    (h : l.statements list = .ok out) : out = [] := by
  induction list generalizing l out with
  | nil =>
    cases h
    rfl
  | cons s list ih =>
    rw [List.forall_mem_cons] at hlist
    obtain ⟨m, here, hs, others, hothers, rfl⟩ := statements_cons_eq_ok.1 h
    rw [ih hlist.2 hothers, List.append_nil]
    obtain ⟨kind, position⟩ := s
    cases kind with
    | qreg name size | creg name size =>
      cases hs
      rfl
    | gateDefinition d =>
      obtain ⟨_, -, heq⟩ := bind_eq_ok.1 hs
      cases heq
      rfl
    | _ => rcases hlist.1 with hdeclaration | hdeclaration <;> cases hdeclaration

/-! ## Programs -/

namespace Program

theorem toCircuit_eq_ok {p : Program} {c : Circuit} :
    p.toCircuit = .ok c ↔ ∃ rs, Registers.ofStatements p.statements = .ok rs ∧
      ∃ instructions, (⟨rs, []⟩ : Lowering).statements p.statements = .ok instructions ∧
        ⟨rs.qubitCount.toUInt32, rs.clbitCount.toUInt32, instructions⟩ = c := by
  simp only [toCircuit, bind_eq_ok, Except.ok.injEq]
  rfl

/-- **Statements behind a program change nothing of what it gives.**  Whatever statements are put
behind, where both programs have a circuit, the instructions of the shorter one come first in the
other, which has no fewer bits.  Declarations of registers and gates add no instructions. -/
theorem toCircuit_append {version version' : Option String} {list rest : List Statement}
    {c c' : Circuit} (h : (Program.mk version list).toCircuit = .ok c)
    (h' : (Program.mk version' (list ++ rest)).toCircuit = .ok c') :
    c.instructions <+: c'.instructions ∧ c.qubitCount ≤ c'.qubitCount ∧
      c.clbitCount ≤ c'.clbitCount ∧
      ((∀ s ∈ rest, s.IsDeclaration) → c'.instructions = c.instructions) := by
  obtain ⟨rs, hrs, front, hfront, rfl⟩ := toCircuit_eq_ok.1 h
  obtain ⟨rs', hrs', all, hall, rfl⟩ := toCircuit_eq_ok.1 h'
  have lays := Registers.lays_of_ofStatements hrs'
  have ext := Lowering.extends_of_registers (Registers.extends_of_ofStatements_append hrs hrs')
    lays.qubitCount_lt lays.clbitCount_lt []
  rw [Lowering.statements_append_eq_bind] at hall
  obtain ⟨front', hfront', hall⟩ := bind_eq_ok.1 hall
  obtain ⟨behind, hbehind, rfl⟩ := map_eq_ok.1 hall
  obtain rfl : front = front' := by
    have hagain := ext.statements list front hfront
    rw [hfront'] at hagain
    exact (Except.ok.inj hagain).symm
  refine ⟨List.prefix_append front behind, ext.qubitCount, ext.clbitCount, fun declarations => ?_⟩
  rw [Lowering.statements_of_isDeclaration declarations hbehind]
  exact List.append_nil front

/-- A gate is defined and called, and its qubit is measured. -/
def measuredCall : List Statement :=
  [⟨.qreg "q" 1, ⟨1, 1⟩⟩, ⟨.creg "c" 1, ⟨2, 1⟩⟩,
    ⟨.gateDefinition ⟨"flip", [], ["a"], [⟨"x", [], [.register "a"]⟩]⟩, ⟨3, 1⟩⟩,
    ⟨.call ⟨"flip", [], [.register "q"]⟩, ⟨4, 1⟩⟩,
    ⟨.measure (.element "q" 0) (.element "c" 0), ⟨5, 1⟩⟩]

/-- More registers and another gate, and then a call across the old register and a new one. -/
def laterCall : List Statement :=
  [⟨.qreg "a" 2, ⟨6, 1⟩⟩, ⟨.creg "flip" 3, ⟨7, 1⟩⟩,
    ⟨.gateDefinition ⟨"both", [], ["q", "r"], [⟨"flip", [], [.register "r"]⟩]⟩, ⟨8, 1⟩⟩,
    ⟨.call ⟨"both", [], [.element "q" 0, .register "a"]⟩, ⟨9, 1⟩⟩]

theorem toCircuit_append_laterCall :
    ∃ c c', (Program.mk none measuredCall).toCircuit = .ok c ∧
      (Program.mk none (measuredCall ++ laterCall)).toCircuit = .ok c' ∧
      c.instructions <+: c'.instructions ∧ c.instructions.length = 2 ∧
      c'.instructions.length = 4 ∧ c.qubitCount ≤ c'.qubitCount ∧ c.clbitCount ≤ c'.clbitCount := by
  obtain ⟨front, hfront⟩ : ∃ c, (Program.mk none measuredCall).toCircuit = .ok c := ⟨_, rfl⟩
  obtain ⟨whole, hwhole⟩ : ∃ c, (Program.mk none (measuredCall ++ laterCall)).toCircuit = .ok c :=
    ⟨_, rfl⟩
  obtain ⟨instructions, qubits, clbits, -⟩ := toCircuit_append hfront hwhole
  cases hfront
  cases hwhole
  exact ⟨_, _, rfl, rfl, instructions, rfl, rfl, qubits, clbits⟩

end Program

end FlatQasm
