import FlatQasm.Program.Import
import FlatQasm.Proofs.Grammar.ReadBack
import FlatQasm.Proofs.Program.Inlining
import FlatQasm.Proofs.Program.Layout

/-!
# Export and import

Importing the text of a circuit gives the circuit back, with the numbers that its angles had under
the bindings.  Its instructions are the same in the same order, and so are the numbers of qubits
and classical bits, whether or not there are registers for them.

## Main definitions

* `Circuit.registers` — the registers of the text of a circuit.

## Main statements

* `Circuit.statement_eq_ok` — what a statement of the text is lowered to.
* `Circuit.ofSource_exportText` — importing what was exported.
-/

namespace FlatQasm

/-! ## Registers -/

/-- The register of a given size on the first bits, if it is not empty. -/
def singleRegister (name : String) (size : UInt32) : List (String × Register) :=
  if size = 0 then [] else [(name, ⟨0, size.toNat⟩)]

/-- The registers of the text of a circuit. -/
def Circuit.registers (c : Circuit) : Registers where
  quantum := singleRegister "q" c.qubitCount
  classical := singleRegister "c" c.clbitCount
  qubitCount := c.qubitCount.toNat
  clbitCount := c.clbitCount.toNat

/-- A statement that writes an instruction down declares nothing. -/
theorem StatementKind.Writes.declare_eq_ok {s : Statement} {i : Instruction}
    (h : s.kind.Writes i) (rs : Registers) : rs.declare s = .ok rs := by
  obtain ⟨kind, p⟩ := s
  cases h <;> rfl

theorem foldlM_declare_of_writes {instructions : List Instruction} {body : List Statement}
    (h : List.Forall₂ (fun i s => s.kind.Writes i) instructions body) (rs : Registers) :
    body.foldlM Registers.declare rs = .ok rs := by
  induction h with
  | nil => rfl
  | cons hs _ ih =>
    rw [List.foldlM_cons, hs.declare_eq_ok]
    exact ih

theorem eq_of_map_kind_eq_declarations {list : List Statement}
    {make : String → UInt32 → StatementKind} {name : String} {size : UInt32}
    (h : list.map Statement.kind = declarations make name size) :
    size = 0 ∧ list = [] ∨ size ≠ 0 ∧ ∃ p, list = [⟨make name size, p⟩] := by
  simp only [declarations] at h
  split at h
  · next hzero => exact .inl ⟨hzero, List.map_eq_nil_iff.1 h⟩
  · next hzero =>
    obtain ⟨⟨kind, p⟩, rfl, rfl⟩ := List.map_eq_singleton_iff.1 h
    exact .inr ⟨hzero, p, rfl⟩

/-- A register that is not empty is accepted when its name is new. -/
theorem check_register {rs : Registers} {p : Position} {name : String} {size : UInt32}
    (hsize : size ≠ 0) (hname : rs.contains name = false) : rs.check p name size 0 = .ok () := by
  have hpos : size.toNat ≠ 0 := fun h => hsize (UInt32.toNat.inj h)
  have hlt : size.toNat < UInt32.size := size.toNat_lt
  exact Registers.check_eq_ok.2 ⟨hname, by omega, by omega⟩

/-- The declarations of the text are accepted, and give its registers. -/
theorem Circuit.ofStatements_eq_ok {c : Circuit} {p : Program} (h : c.WrittenBy p) :
    Registers.ofStatements p.statements = .ok c.registers := by
  obtain ⟨quantum, classical, body, hp, hquantum, hclassical, hbody⟩ := h
  have hqubits : quantum.foldlM Registers.declare .empty =
      .ok ⟨singleRegister "q" c.qubitCount, [], c.qubitCount.toNat, 0⟩ := by
    rcases eq_of_map_kind_eq_declarations hquantum with ⟨hzero, rfl⟩ | ⟨hne, p, rfl⟩
    · rw [hzero]
      rfl
    · have hcheck : Registers.empty.check p "q" c.qubitCount 0 = .ok () := check_register hne rfl
      have hdeclare : Registers.empty.declare ⟨.qreg "q" c.qubitCount, p⟩ =
          .ok ⟨singleRegister "q" c.qubitCount, [], c.qubitCount.toNat, 0⟩ := by
        refine bind_eq_ok.2 ⟨(), hcheck, ?_⟩
        simp [singleRegister, hne, Registers.empty]
      exact bind_eq_ok.2 ⟨_, hdeclare, rfl⟩
  have hclbits : classical.foldlM Registers.declare
      ⟨singleRegister "q" c.qubitCount, [], c.qubitCount.toNat, 0⟩ = .ok c.registers := by
    rcases eq_of_map_kind_eq_declarations hclassical with ⟨hzero, rfl⟩ | ⟨hne, p, rfl⟩
    · rw [registers, hzero]
      rfl
    · have hnew : (⟨singleRegister "q" c.qubitCount, [], c.qubitCount.toNat, 0⟩ :
          Registers).contains "c" = false := by
        simp only [Registers.contains, singleRegister]
        split <;> rfl
      have hdeclare : Registers.declare ⟨singleRegister "q" c.qubitCount, [], c.qubitCount.toNat, 0⟩
          ⟨.creg "c" c.clbitCount, p⟩ = .ok c.registers := by
        refine bind_eq_ok.2 ⟨(), check_register hne hnew, ?_⟩
        simp [registers, singleRegister, hne]
      exact bind_eq_ok.2 ⟨_, hdeclare, rfl⟩
  rw [Registers.ofStatements, hp, List.foldlM_append, hqubits]
  change (classical ++ body).foldlM Registers.declare _ = _
  rw [List.foldlM_append, hclbits]
  exact foldlM_declare_of_writes hbody c.registers

/-! ## Operands -/

/-- An index of the register stands for the bit with that index. -/
theorem resolve_singleRegister {name : String} {size index : UInt32} (hindex : index < size)
    (p : Position) :
    Registers.resolve (singleRegister name size) p (.element name (UInt64.ofNat index.toNat)) =
      .ok (.bit index.toNat) := by
  have hlt : index.toNat < size.toNat := hindex
  have hnat := toNat_ofNat_index index
  have hne : size ≠ 0 := by
    rintro rfl
    exact absurd hlt (Nat.not_lt_zero _)
  have hlookup : (singleRegister name size).lookup name = some ⟨0, size.toNat⟩ := by
    rw [singleRegister, if_neg hne, List.lookup_cons_self]
  refine Registers.resolve_eq_ok.2 (.inr ⟨name, _, _, rfl, hlookup, ?_, ?_⟩)
  · rw [hnat]
    exact hlt
  · rw [hnat, Nat.zero_add]

section Lowering

variable {c : Circuit}

theorem Circuit.qubits_operand {q : Qubit} (hq : q.index < c.qubitCount) (p : Position) :
    c.registers.qubits p q.operand = .ok (.bit q.index.toNat) :=
  resolve_singleRegister hq p

theorem Circuit.clbits_operand {b : Clbit} (hb : b.index < c.clbitCount) (p : Position) :
    c.registers.clbits p b.operand = .ok (.bit b.index.toNat) :=
  resolve_singleRegister hb p

/-! ## Instructions -/

/-- What the statements of the text are lowered with: its registers, and no gate definitions. -/
def Circuit.lowering (c : Circuit) : Lowering := ⟨c.registers, []⟩

@[simp] theorem Circuit.qubitCount_lowering (c : Circuit) : c.lowering.qubitCount = c.qubitCount :=
  UInt32.ofNat_toNat

@[simp] theorem Circuit.clbitCount_lowering (c : Circuit) : c.lowering.clbitCount = c.clbitCount :=
  UInt32.ofNat_toNat

theorem Circuit.emit_lowering {i : Instruction} (fits : i.Fits c.qubitCount c.clbitCount) :
    c.lowering.emit i = .ok [i] := by
  apply Lowering.emit_of_fits
  rw [qubitCount_lowering, clbitCount_lowering]
  exact fits

/-- The call of a gate is lowered to the gate. -/
theorem Circuit.call_lowering {g : Gate} {qubits : List Qubit}
    (fits : (Instruction.gate g qubits).Fits c.qubitCount c.clbitCount) (p : Position) :
    c.lowering.call p ⟨g.mnemonic, g.base.angle?.toList, qubits.map Qubit.operand⟩ =
      .ok [.gate g qubits] := by
  have hqubits : List.Forall₂ (c.registers.IsQubit p) (qubits.map Qubit.operand) qubits := by
    rw [List.forall₂_map_left_iff, List.forall₂_same]
    intro q hq
    exact ⟨q.index.toNat, qubits_operand (fits.qubit_lt q hq) p, by
      rw [Nat.toUInt32_eq, UInt32.ofNat_toNat]⟩
  have hcall : c.lowering.call p ⟨g.mnemonic, g.base.angle?.toList, qubits.map Qubit.operand⟩ =
      expand c.lowering.qubitCount c.lowering.clbitCount p []
        ⟨g.mnemonic, g.base.angle?.toList, qubits⟩ := Lowering.call_of_isQubit hqubits
  have harity : BoundCall.checkArity ⟨g.mnemonic, g.base.angle?.toList, qubits⟩ p
      ⟨g.signature.paramCount, g.signature.qubitCount⟩ = .ok () := by
    have hcounted : qubits.length = g.signature.qubitCount := fits.qubits_counted
    exact BoundCall.checkArity_eq_ok.2 ⟨g.length_angle, hcounted⟩
  have hbuild : BaseGate.build g.signature.kind g.base.angle?.toList = .ok g.base :=
    BaseGate.build_eq_ok.2 ⟨rfl, rfl⟩
  have hinstruction : builtInInstruction c.qubitCount c.clbitCount g.signature
      ⟨g.mnemonic, g.base.angle?.toList, qubits⟩ = .ok (.gate g qubits) := by
    refine bind_eq_ok.2 ⟨_, mapError_eq_ok.2 hbuild, bind_eq_ok.2 ⟨(), ?_, rfl⟩⟩
    exact mapError_eq_ok.2 (check_eq_ok.2 fits)
  rw [hcall, expand, callGate_of_builtIn (signature?_mnemonic g.signature), qubitCount_lowering,
    clbitCount_lowering]
  exact bind_eq_ok.2 ⟨(), harity, bind_eq_ok.2 ⟨_, hinstruction, rfl⟩⟩

/-- **A statement of the text is lowered to the instruction that it writes down.** -/
theorem Circuit.statement_eq_ok {i : Instruction} {s : Statement}
    (fits : i.Fits c.qubitCount c.clbitCount) (h : s.kind.Writes i) :
    c.lowering.statement s = .ok (c.lowering, [i]) := by
  obtain ⟨kind, p⟩ := s
  cases h with
  | gate g qubits => exact map_eq_ok.2 ⟨_, call_lowering fits p, rfl⟩
  | measure q b =>
    have hq := qubits_operand (fits.qubit_lt q List.mem_cons_self) p
    have hb := clbits_operand (fits.clbit_lt b List.mem_cons_self) p
    have hmeasure : c.lowering.measure p q.operand b.operand = .ok [.measure q b] := by
      refine bind_eq_ok.2 ⟨_, hq, bind_eq_ok.2 ⟨_, hb, ?_⟩⟩
      simp only [Resolved.bitAt, Nat.toUInt32_eq, UInt32.ofNat_toNat]
      exact emit_lowering fits
    exact map_eq_ok.2 ⟨_, hmeasure, rfl⟩
  | reset q =>
    have hq := qubits_operand (fits.qubit_lt q List.mem_cons_self) p
    have hreset : c.lowering.reset p q.operand = .ok [.reset q] := by
      refine bind_eq_ok.2 ⟨_, hq, ?_⟩
      simp only [Resolved.bitAt, Nat.toUInt32_eq, UInt32.ofNat_toNat, Resolved.size?,
        Option.getD_none]
      exact bind_eq_ok.2 ⟨_, emit_lowering fits, rfl⟩
    exact map_eq_ok.2 ⟨_, hreset, rfl⟩
  | barrier qubits =>
    have hresolved : (qubits.map Qubit.operand).mapM (c.registers.qubits p) =
        .ok (qubits.map fun q => .bit q.index.toNat) := by
      rw [mapM_eq_ok, List.forall₂_map_left_iff, List.forall₂_map_right_iff, List.forall₂_same]
      exact fun q hq => qubits_operand (fits.qubit_lt q hq) p
    have hbarrier : c.lowering.barrier p (qubits.map Qubit.operand) = .ok [.barrier qubits] := by
      have hbits : (qubits.map fun q => Resolved.bit q.index.toNat).flatMap Resolved.bits =
          qubits.map fun q => q.index.toNat := by
        rw [List.flatMap_map]
        exact List.flatMap_pure_eq_map _ qubits
      have hnodup : (qubits.map fun q => q.index.toNat).Nodup := by
        have h := fits.nodup.map (f := UInt32.toNat) fun _ _ => UInt32.toNat.inj
        rwa [List.map_map] at h
      refine bind_eq_ok.2 ⟨_, hresolved, ?_⟩
      dsimp only
      rw [hbits, distinct_eq_self hnodup, List.map_map]
      simp only [Function.comp_def, Nat.toUInt32_eq, UInt32.ofNat_toNat, List.map_id']
      exact emit_lowering fits
    exact map_eq_ok.2 ⟨_, hbarrier, rfl⟩

end Lowering

theorem Circuit.statements_eq_ok {c : Circuit} {instructions : List Instruction}
    {body : List Statement} (fits : ∀ i ∈ instructions, i.Fits c.qubitCount c.clbitCount)
    (h : List.Forall₂ (fun i s => s.kind.Writes i) instructions body) :
    c.lowering.statements body = .ok instructions := by
  induction h with
  | nil => rfl
  | @cons i s instructions body hs _ ih =>
    have hfirst := statement_eq_ok (fits i List.mem_cons_self) hs
    have hrest := ih fun j hj => fits j (List.mem_cons_of_mem i hj)
    exact Lowering.statements_cons_eq_ok.2 ⟨_, _, hfirst, _, hrest, rfl⟩

/-- A declaration gives no instructions. -/
theorem Lowering.statements_declarations {l : Lowering} {make : String → UInt32 → StatementKind}
    (hmake : make = .qreg ∨ make = .creg) {list rest : List Statement} {name : String}
    {size : UInt32} (h : list.map Statement.kind = declarations make name size) :
    l.statements (list ++ rest) = l.statements rest := by
  rcases eq_of_map_kind_eq_declarations h with ⟨-, rfl⟩ | ⟨-, p, rfl⟩
  · rfl
  · have hstatement : l.statement ⟨make name size, p⟩ = .ok (l, []) := by
      rcases hmake with rfl | rfl <;> rfl
    rw [List.singleton_append, statements_of_ok_nil hstatement]

/-- **A program that writes a circuit down is lowered to the circuit.** -/
theorem Circuit.toCircuit_eq_ok {c : Circuit} (wf : c.WellFormed) {p : Program}
    (h : c.WrittenBy p) : p.toCircuit = .ok c := by
  have hregisters := ofStatements_eq_ok h
  obtain ⟨quantum, classical, body, hp, hquantum, hclassical, hbody⟩ := h
  have hstatements : c.lowering.statements p.statements = .ok c.instructions := by
    rw [hp, Lowering.statements_declarations (.inl rfl) hquantum,
      Lowering.statements_declarations (.inr rfl) hclassical]
    exact statements_eq_ok (fun i hi => wf.fits hi) hbody
  refine bind_eq_ok.2 ⟨_, hregisters, bind_eq_ok.2 ⟨_, hstatements, ?_⟩⟩
  have hqubits := c.qubitCount_lowering
  have hclbits := c.clbitCount_lowering
  simp only [lowering] at hqubits hclbits
  rw [hqubits, hclbits]

/-- **Importing the text of a circuit gives the circuit back.**  The text is read as a circuit with
as many qubits and classical bits and with the same instructions, those without Y-basis gates if
they were dropped, where each angle is the number that it has under the bindings.  The text of that
circuit, which needs no bindings, is the same text. -/
theorem Circuit.ofSource_exportText {c : Circuit} (wf : c.WellFormed) {b : Bindings} {dropY : Bool}
    {text : String} (h : c.exportText b dropY = .ok text) :
    ∃ c' : Circuit, Circuit.ofSource text .required = .ok c' ∧
      c'.qubitCount = c.qubitCount ∧ c'.clbitCount = c.clbitCount ∧
      (if dropY then c.withoutY else c).instructions.mapM (Instruction.evaluate b) =
        .ok c'.instructions ∧
      c'.exportText ∅ false = .ok text := by
  obtain ⟨c', hqubits, hclbits, hevaluate, wf', hnumeric, htext⟩ :=
    exists_numeric_of_exportText wf h
  obtain ⟨p, hparse, hwritten⟩ := exists_parse_eq_ok hnumeric wf' htext
  exact ⟨c', bind_eq_ok.2 ⟨p, hparse, toCircuit_eq_ok wf' hwritten⟩, hqubits, hclbits, hevaluate,
    htext⟩

/-- A controlled rotation by a multiple of a variable on three qubits, without classical bits. -/
def symbolicTurn : Circuit where
  qubitCount := 3
  clbitCount := 0
  instructions :=
    [.gate ⟨.rotation .y (.binary .mul (.var "t") (.const 3.0)), .one⟩ [⟨2⟩, ⟨0⟩],
      .barrier [⟨1⟩, ⟨0⟩], .reset ⟨1⟩]

/-- A negative number that is not a sum of few powers of two. -/
def minusTenth : Bindings := Bindings.empty.insert "t" (-0.1)

/-- The text of the rotation without Y-basis gates. -/
def symbolicTurnText : String :=
  "OPENQASM 2.0;\ninclude \"qelib1.inc\";\nqreg q[3];\ncrz(-1.5707963267948966) q[2], q[0];\n" ++
    "crx(-0.30000000000000004) q[2], q[0];\ncrz(1.5707963267948966) q[2], q[0];\n" ++
    "barrier q[1], q[0];\nreset q[1];\n"

theorem Circuit.ofSource_exportText_symbolicTurn :
    symbolicTurn.WellFormed ∧ symbolicTurn.exportText minusTenth true = .ok symbolicTurnText ∧
      ∃ c' : Circuit, Circuit.ofSource symbolicTurnText .required = .ok c' ∧
        c'.qubitCount = 3 ∧ c'.clbitCount = 0 ∧
        symbolicTurn.withoutY.instructions.mapM (Instruction.evaluate minusTenth) =
          .ok c'.instructions ∧
        c'.exportText ∅ false = .ok symbolicTurnText := by
  have wf : symbolicTurn.WellFormed := by
    simp only [WellFormed, symbolicTurn, List.forall_mem_cons]
    refine ⟨?_, ?_, ?_, ?_⟩
    all_goals decide
  have htext : symbolicTurn.exportText minusTenth true = .ok symbolicTurnText :=
    toOption_eq_some.1 (by decide +kernel)
  exact ⟨wf, htext, ofSource_exportText wf htext⟩

end FlatQasm
