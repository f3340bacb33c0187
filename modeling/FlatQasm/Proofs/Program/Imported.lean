import FlatQasm.Program.Import
import FlatQasm.Proofs.Grammar.Scoping
import FlatQasm.Proofs.Program.Invocations
import FlatQasm.Proofs.Program.Layout

/-!
# What every imported circuit has

The circuit of a source text has the bits that the text declares, and its instructions fit them.
Its angles are folded and low enough: the parser sees to that for the angles of a statement, and the
second pass for those of a body, anew for each call on the way down to a built-in gate.

## Main statements

* `Program.Invokes.folded` — the angles of every call that a program makes.
* `Circuit.exists_parse_of_ofSource` — the program of an imported circuit.
* `Circuit.invariant_of_ofSource` — what every imported circuit has.
-/

namespace FlatQasm

/-! ## Equality of circuits

Two circuits are the same when their parts are, and two numbers when their bits are. -/

deriving instance DecidableEq for Angle
deriving instance DecidableEq for BaseGate
deriving instance DecidableEq for Gate
deriving instance DecidableEq for Operation
deriving instance DecidableEq for Instruction
deriving instance DecidableEq for Circuit

/-! ## Imported circuits -/

/-- The angles of a call in a statement are checked. -/
theorem Statement.Checked.of_call {s : Statement} (h : s.Checked) {call : GateCall}
    (hkind : s.kind = .call call) : call.Checked := by
  refine h call ?_
  rw [Statement.calls, hkind]
  exact List.mem_singleton_self call

/-- The angles of every call that a program makes are folded and low enough. -/
theorem Program.Invokes.folded {p : Program} (checked : ∀ s ∈ p.statements, s.Checked)
    {gate : String} {args : List Angle} (h : p.Invokes gate args) :
    ∀ e ∈ args, e.simplify = e ∧ e.depth ≤ nestingLimit := by
  cases h with
  | statement hs hkind =>
    intro e he
    have he := (checked _ hs).of_call hkind e he
    exact ⟨he.folded, he.depth_le⟩
  | body _ _ _ _ low =>
    intro e he
    obtain ⟨written, -, rfl⟩ := List.mem_map.1 he
    exact ⟨Angle.simplify_simplify _, low _ he⟩

namespace Circuit

/-- A text that is imported is that of a program, and the circuit is the program's. -/
theorem exists_parse_of_ofSource {source : String} {rule : HeaderRule} {c : Circuit}
    (h : ofSource source rule = .ok c) :
    ∃ p, Program.parse source rule = .ok p ∧ p.toCircuit = .ok c :=
  bind_eq_ok.1 h

/-- The bits of a program's circuit are those of its declarations. -/
theorem counts_of_toCircuit {p : Program} {c : Circuit} (h : p.toCircuit = .ok c) :
    c.qubitCount.toNat = ((quantumSizes p.statements).map Prod.snd).sum ∧
      c.clbitCount.toNat = ((classicalSizes p.statements).map Prod.snd).sum := by
  obtain ⟨rs, hrs, h⟩ := bind_eq_ok.1 h
  obtain ⟨instructions, -, heq⟩ := bind_eq_ok.1 h
  cases heq
  have lays := Registers.lays_of_ofStatements hrs
  rw [← lays.qubitCount, ← lays.clbitCount]
  exact ⟨Nat.mod_eq_of_lt lays.qubitCount_lt, Nat.mod_eq_of_lt lays.clbitCount_lt⟩

/-- An angle of a circuit is the angle of a gate that its program calls. -/
theorem invokes_of_mem_angles {p : Program} {c : Circuit} (h : p.toCircuit = .ok c) {e : Angle}
    (he : e ∈ c.angles) : ∃ gate, p.Invokes gate [e] := by
  obtain ⟨g, hg, he⟩ := List.mem_filterMap.1 he
  obtain ⟨i, hi, hg⟩ := List.mem_filterMap.1 hg
  obtain ⟨operation, qubits, clbits⟩ := i
  cases operation with
  | gate g' =>
    cases hg
    have hinvoked := (Program.emits_of_toCircuit h _ hi).invoked g rfl
    rw [he] at hinvoked
    exact ⟨g.mnemonic, hinvoked⟩
  | measure | reset | barrier => cases hg

/-- **What every imported circuit has**, whatever gates the text defines and however deep their
calls go: each instruction suits its operation and stays within the bits, the bits are those that
the text declares, and every angle is folded and low enough. -/
theorem invariant_of_ofSource {source : String} {rule : HeaderRule} {c : Circuit}
    (h : ofSource source rule = .ok c) :
    (∀ i ∈ c.instructions, i.validate = .ok () ∧ (∀ q ∈ i.qubits, q.index < c.qubitCount) ∧
      ∀ b ∈ i.clbits, b.index < c.clbitCount) ∧
    (∃ p, Program.parse source rule = .ok p ∧
      c.qubitCount.toNat = ((quantumSizes p.statements).map Prod.snd).sum ∧
      c.clbitCount.toNat = ((classicalSizes p.statements).map Prod.snd).sum) ∧
    ∀ e ∈ c.angles, e.simplify = e ∧ e.depth ≤ nestingLimit := by
  obtain ⟨p, hparse, hcircuit⟩ := exists_parse_of_ofSource h
  refine ⟨fun i hi => ?_, ⟨p, hparse, counts_of_toCircuit hcircuit⟩, fun e he => ?_⟩
  · have fits := (Program.emits_of_toCircuit hcircuit i hi).fits
    exact ⟨Instruction.validate_eq_ok.2 ⟨fits.qubits_counted, fits.clbits_counted, fits.nodup⟩,
      fits.qubit_lt, fits.clbit_lt⟩
  · obtain ⟨gate, hinvoked⟩ := invokes_of_mem_angles hcircuit he
    exact hinvoked.folded (checked_of_parse hparse) e (List.mem_singleton_self e)

/-- A text with a call on a register of a gate that calls a gate.  What is put together on the way
down is folded again. -/
def nestedText : String :=
  "gate turn(t) u,v \x7b rz(-t*2) u; cx u,v; \x7d\n" ++
  "gate swirl(s,t) u,v \x7b turn(s-t) v,u; ry(s/t) v; \x7d\n" ++
  "qreg q[2]; qreg r[1]; creg c[2];\n" ++
  "swirl(x,1/2) q,r[0]; swirl(3,1) q[1],r; measure q->c;"

/-- What `swirl` is on a qubit of the first register. -/
def swirled (turned quotient : Angle) (qubit : UInt32) : List Instruction :=
  [.gate ⟨.rotation .z turned, .zero⟩ [⟨2⟩], .gate ⟨.fixed .x, .one⟩ [⟨2⟩, ⟨qubit⟩],
    .gate ⟨.rotation .y quotient, .zero⟩ [⟨2⟩]]

/-- The circuit of that text. -/
def nested : Circuit where
  qubitCount := 3
  clbitCount := 2
  instructions :=
    swirled (.binary .mul (.neg (.binary .sub (.var "x") (.const 0.5))) (.const 2))
        (.binary .div (.var "x") (.const 0.5)) 0 ++
      swirled (.binary .mul (.neg (.binary .sub (.var "x") (.const 0.5))) (.const 2))
        (.binary .div (.var "x") (.const 0.5)) 1 ++
      swirled (.const (-4)) (.const 3) 1 ++ [.measure ⟨0⟩ ⟨0⟩, .measure ⟨1⟩ ⟨1⟩]

theorem invariant_of_ofSource_nested :
    ofSource nestedText .optional = .ok nested ∧
      (∀ i ∈ nested.instructions, i.validate = .ok () ∧
        (∀ q ∈ i.qubits, q.index < nested.qubitCount) ∧
        ∀ b ∈ i.clbits, b.index < nested.clbitCount) ∧
      (∃ p, Program.parse nestedText .optional = .ok p ∧
        nested.qubitCount.toNat = ((quantumSizes p.statements).map Prod.snd).sum ∧
        nested.clbitCount.toNat = ((classicalSizes p.statements).map Prod.snd).sum) ∧
      ∀ e ∈ nested.angles, e.simplify = e ∧ e.depth ≤ nestingLimit := by
  have h : ofSource nestedText .optional = .ok nested :=
    toOption_eq_some.1 (by decide +kernel)
  exact ⟨h, invariant_of_ofSource h⟩

end Circuit

end FlatQasm
